import DelOs.Fs.Calls

/-!
# A write that gets no memory

`krealloc` frees the old block whether or not it got a new one, so that a write that fails for
lack of memory gives up the data that the file still points to.

* `KeepsBlock` — the block at a pointer, if it is in use, stays in use and as it is.
* `FileIntact` — the file keeps its size, its capacity, its content and the block of its data.
* `krealloc_null` — what a `krealloc` that returns `NULL` has done.
* `failed_realloc_keeps_iff` — **a failed `krealloc` keeps the old block only if there was none,
  and a failed `ktmpfs_write` leaves the file intact exactly when it has no data block**.
-/

namespace DelOs

open FirstFit

namespace Fs

/-- The block at `p`, if it is in use, stays in use, and its content stays the same. -/
def KeepsBlock (s t : Fs) (p : Ptr) : Prop :=
  ∀ b, get s.heap p = some b → b.free = false → get t.heap p = some b

/-- The file keeps its size, its capacity and its data pointer, and the block that it points to,
if any, is in use and holds the same bytes. -/
def FileIntact (s t : Fs) (file : Ptr) (e : TmpfsEntry) : Prop :=
  t.entryAt file = some e ∧
    (e.dataPtr ≠ 0 → Live t.heap e.dataPtr ∧ t.dataAt e.dataPtr = s.dataAt e.dataPtr)

/-- A `krealloc` that returns `NULL` has freed the old block. -/
theorem krealloc_null {s t : Fs} {ptr : Ptr} {size : Nat}
    (h : s.krealloc ptr size = some (0, t)) :
    t.heap = if ptr = 0 then s.heap else kfreeBlocks s.heap ptr := by
  simp only [krealloc, Option.bind_eq_bind, Option.pure_def, Option.bind_eq_some_iff] at h
  obtain ⟨n, -, h⟩ := h
  rcases hk : s.kmalloc n with ⟨newPtr, r⟩
  simp only [hk] at h
  split_ifs at h with hptr hnew hnew
  · simp only [Option.some.injEq, Prod.mk.injEq] at h
    rw [if_pos hptr, ← h.2]
    exact kmalloc_null (hnew ▸ hk)
  · simp only [Option.bind_eq_some_iff, Option.some.injEq, Prod.mk.injEq] at h
    obtain ⟨_, -, hnull, -⟩ := h
    exact absurd hnull hnew
  · simp only [Option.some.injEq, Prod.mk.injEq] at h
    rw [if_neg hptr, ← h.2]
    show kfreeBlocks r.heap ptr = _
    rw [kmalloc_null (hnew ▸ hk)]
  · simp only [Option.bind_eq_some_iff, Option.some.injEq, Prod.mk.injEq] at h
    obtain ⟨_, -, _, -, hnull, -⟩ := h
    exact absurd hnull hnew

/-- A block that has been freed is not in use. -/
theorem not_live_kfreeBlocks (bs : Blocks Obj) (p : Ptr) : ¬ Live (kfreeBlocks bs p) p := by
  rintro ⟨b, hb, hfree⟩
  rw [get_kfreeBlocks, if_pos rfl, Option.map_eq_some_iff] at hb
  obtain ⟨c, -, rfl⟩ := hb
  exact absurd hfree (by simp)

/-- A failed `krealloc` keeps the old block only if there was none in use. -/
theorem keepsBlock_krealloc_null {s t : Fs} {ptr : Ptr} {size : Nat}
    (h : s.krealloc ptr size = some (0, t)) : KeepsBlock s t ptr ↔ ¬ Live s.heap ptr := by
  constructor
  · rintro hkeep ⟨b, hb, hfree⟩
    have hptr : ptr ≠ 0 := by
      intro h0
      simp [h0] at hb
    have ht := hkeep b hb hfree
    rw [krealloc_null h, if_neg hptr] at ht
    exact not_live_kfreeBlocks _ _ ⟨b, ht, hfree⟩
  · intro hdead b hb hfree
    exact absurd ⟨b, hb, hfree⟩ hdead

/-- A file with no data block has nothing to lose. -/
theorem fileIntact_krealloc_null {s t : Fs} {file : Ptr} {e : TmpfsEntry} {size : Nat}
    (he : s.entryAt file = some e) (h : s.krealloc e.dataPtr size = some (0, t)) :
    FileIntact s t file e ↔ e.dataPtr = 0 := by
  have hheap := krealloc_null h
  constructor
  · intro hint
    by_contra hne
    obtain ⟨hlive, -⟩ := hint.2 hne
    rw [hheap, if_neg hne] at hlive
    exact not_live_kfreeBlocks _ _ hlive
  · intro h0
    rw [if_pos h0] at hheap
    refine ⟨?_, fun hne => absurd h0 hne⟩
    simpa [entryAt, load, hheap] using he

/-- With no memory to be had, `krealloc` of a size in bytes returns `NULL`. -/
theorem krealloc_of_refused {s : Fs} (ptr : Ptr) {size : Nat} (h0 : size ≠ 0)
    (h : (s.kmalloc size).1 = 0) : ∃ t, s.krealloc ptr size = some (0, t) := by
  rcases hk : s.kmalloc size with ⟨newPtr, r⟩
  obtain rfl : newPtr = 0 := by simpa [hk] using h
  unfold krealloc
  by_cases hptr : ptr = 0
  · exact ⟨r, by simp [reallocSize, h0, hk, hptr]⟩
  · exact ⟨r.kfree ptr, by simp [reallocSize, h0, hk, hptr]⟩

/-- A write that needs a larger block and gets none returns 0. -/
theorem ktmpfsWrite_of_refused {s : Fs} {node offset : Nat} {buffer : List UInt8} {n : VfsNode}
    {e : TmpfsEntry} (hnode : s.nodeAt node = some n) (he : s.entryAt n.priv = some e)
    (hreg : e.isReg = true) (hlen : buffer.length ≠ 0)
    (hgrow : e.capacity < u32 (offset + buffer.length))
    (hfail : (s.kmalloc (u32 (offset + buffer.length))).1 = 0) :
    ∃ t, s.krealloc e.dataPtr (u32 (offset + buffer.length)) = some (0, t) ∧
      s.ktmpfsWrite node offset buffer = some (0, offset, t) := by
  obtain ⟨t, ht⟩ := krealloc_of_refused e.dataPtr (by omega) hfail
  have hnode0 : node ≠ 0 := by
    intro h0
    simp [nodeAt, load, h0] at hnode
  have hpriv : n.priv ≠ 0 := by
    intro h0
    simp [entryAt, load, h0] at he
  have hchr : kvfsStatIsChr e.stat.mode = false := isChr_of_isReg hreg
  refine ⟨t, ht, ?_⟩
  simp [ktmpfsWrite, growData, hnode, he, hnode0, hpriv, hchr, hreg, hlen, not_le.2 hgrow,
    ht]

/-- **Exactly the files without data survive a failed write**: whatever `krealloc` is asked for,
a `NULL` from it leaves the old block in use only if none was; and a `ktmpfs_write` that returns
0 because there was no memory leaves the file intact if and only if the file has no data block.
-/
theorem failed_realloc_keeps_iff (s : Fs) :
    (∀ ptr size t, s.krealloc ptr size = some (0, t) →
      (KeepsBlock s t ptr ↔ ¬ Live s.heap ptr)) ∧
    ∀ node offset buffer n e, s.nodeAt node = some n → s.entryAt n.priv = some e →
      e.isReg = true → buffer.length ≠ 0 → e.capacity < u32 (offset + buffer.length) →
      (s.kmalloc (u32 (offset + buffer.length))).1 = 0 →
      ∃ t, s.ktmpfsWrite node offset buffer = some (0, offset, t) ∧
        (FileIntact s t n.priv e ↔ e.dataPtr = 0) := by
  refine ⟨fun ptr size t h => keepsBlock_krealloc_null h, ?_⟩
  intro node offset buffer n e hnode he hreg hlen hgrow hfail
  obtain ⟨t, hrealloc, hwrite⟩ := ktmpfsWrite_of_refused hnode he hreg hlen hgrow hfail
  exact ⟨t, hwrite, fileIntact_krealloc_null he hrealloc⟩

/-! ## A file that loses its data -/

/-- A file of three bytes, at 1, with its data at 2 and a node at 3, when the page layers refuse
every request. -/
def fullHeap : Fs where
  heap :=
    [⟨4084, false, .node { refcount := 1, ops := .ktmpfsOperations, priv := 1 }⟩,
      ⟨4084, false, .data [1, 2, 3]⟩,
      ⟨4084, false, .entry { TmpfsEntry.zero with
        name := [0x61], stat := { VfsStat.zero with mode := KVFS_STAT_IFREG, size := 3 },
        dataPtr := 2, size := 3, capacity := 3 }⟩]
  kvfsRootMountDir := 0
  kvfsCwd := 0
  fds := fun _ _ => 0
  pages := fun _ => false
  junk := fun _ => 0

/-- The same file before its first write. -/
def fullHeapEmptyFile : Fs :=
  { fullHeap with
    heap :=
      [⟨4084, false, .node { refcount := 1, ops := .ktmpfsOperations, priv := 1 }⟩,
        ⟨4084, false, .entry { TmpfsEntry.zero with
          name := [0x61], stat := { VfsStat.zero with mode := KVFS_STAT_IFREG } }⟩] }

/-- The failed write of a byte at the end of the file of three bytes frees the block of its
data, and the next allocation hands that block out. -/
theorem failed_write_frees_data :
    ∃ t, fullHeap.ktmpfsWrite 3 3 [4] = some (0, 3, t) ∧
      (t.entryAt 1).map TmpfsEntry.dataPtr = some 2 ∧
      (get t.heap 2).map Block.free = some true ∧ (t.kmalloc 16).1 = 2 :=
  ⟨_, rfl, rfl, rfl, rfl⟩

/-- Before its first write the file survives. -/
theorem failed_realloc_keeps_emptyFile :
    (fullHeapEmptyFile.kmalloc 1).1 = 0 ∧
      ∃ t, fullHeapEmptyFile.ktmpfsWrite 2 0 [4] = some (0, 0, t) ∧
        ∃ e, FileIntact fullHeapEmptyFile t 1 e := by
  have hfail : (fullHeapEmptyFile.kmalloc 1).1 = 0 := by decide
  obtain ⟨t, hwrite, hiff⟩ := (failed_realloc_keeps_iff fullHeapEmptyFile).2 2 0 [4] _ _ rfl rfl
    (by decide) (by decide) (by decide) hfail
  exact ⟨hfail, t, hwrite, _, hiff.2 rfl⟩

end Fs

end DelOs
