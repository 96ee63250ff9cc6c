import DelOs.Fs.FileData
import DelOs.Fs.FailedWrite
import DelOs.Lib.Ends

/-!
# The bytes that a write stores

`ktmpfs_write` compares the 32-bit sum of the offset and the length with the capacity of the file
to decide whether the file needs a larger block, and stores the bytes whatever the sum came to.

* `storedAt` — the places of the block that a write stores to.
* `writeBlock` — the block that it stores into.
* `WritesInside` — the write stays inside that block, and counts the size of the file right.
* `writes_inside_iff` — **when a write does**: its end is a 32-bit number and `kmalloc` has room
  for as many bytes, or `krealloc` gets no block.
-/

namespace DelOs

open FirstFit Splice

namespace Fs

variable {s r : Fs}

/-! ## Stores -/

/-- The places of a block to which `kmemcpy(&data_ptr[offset], buffer, len)` stores: an address is
a 32-bit number. -/
def storedAt (offset len : Nat) : List Nat := (List.range len).map fun i => u32 (offset + i)

/-- The bytes of the block at a pointer. -/
def roomAt (s : Fs) (p : Ptr) : Nat := ((get s.heap p).map Block.size).getD 0

/-- The block into which `ktmpfs_write` copies, with its bytes: the one that the file has if the
sum does not exceed the capacity, else the one that `kmalloc` returns to `krealloc`, if any. -/
def writeBlock (s : Fs) (e : TmpfsEntry) (newSize : Nat) : Option (Ptr × Nat) :=
  if newSize ≤ e.capacity then some (e.dataPtr, s.roomAt e.dataPtr)
  else
    let (p, t) := s.kmalloc newSize
    if p = 0 then none else some (p, t.roomAt p)

/-- The write to the file at `file` stores inside the block that the file has after the call, and
if it returns the length, the size of the file is the larger one of the old size and the end of
the write. -/
structure WritesInside (s : Fs) (node file : Ptr) (e : TmpfsEntry) (offset : Nat)
    (buffer : List UInt8) : Prop where
  stores : ∀ p room, s.writeBlock e (u32 (offset + buffer.length)) = some (p, room) →
    ∀ i ∈ storedAt offset buffer.length, i < room
  returns : ∃ written offset' r, s.ktmpfsWrite node offset buffer = some (written, offset', r) ∧
    (written ≠ 0 → written = buffer.length ∧ ∃ e', r.entryAt file = some e' ∧
      s.writeBlock e (u32 (offset + buffer.length)) = some (e'.dataPtr, r.roomAt e'.dataPtr) ∧
      Live r.heap e'.dataPtr ∧ e'.size = max e.size (offset + buffer.length))

/-- The node of a regular file, with as many bytes allocated at the data pointer as the capacity
says. -/
structure RegularFile (s : Fs) (node file : Ptr) (e : TmpfsEntry) : Prop where
  node : s.Refers node file
  entry : s.obj file = some (.entry e)
  isReg : e.isReg = true
  block : (e.dataPtr = 0 ∧ e.capacity = 0) ∨
    ∃ data, s.obj e.dataPtr = some (.data data) ∧ data.length = e.capacity ∧
      e.capacity ≤ s.roomAt e.dataPtr

/-- The size of a block is a 32-bit number. -/
def Sized (s : Fs) : Prop := ∀ p, s.roomAt p < 2 ^ 32

/-- `krealloc` gets no block for a write that needs a larger one. -/
def WriteRefused (s : Fs) (e : TmpfsEntry) (newSize : Nat) : Prop :=
  e.capacity < newSize ∧ (s.kmalloc newSize).1 = 0

/-- The end of the write is a 32-bit number, and a larger block, if it needs one, has as many
bytes. -/
def WriteFits (s : Fs) (e : TmpfsEntry) (offset len : Nat) : Prop :=
  offset + len < 2 ^ 32 ∧ (e.capacity < offset + len → s.Allocates (offset + len))

theorem mem_storedAt (offset : Nat) {len i : Nat} (h : i < len) :
    u32 (offset + i) ∈ storedAt offset len :=
  List.mem_map.2 ⟨i, List.mem_range.2 h, rfl⟩

/-- A write whose end is a 32-bit number stores below it. -/
theorem storedAt_lt {offset len i : Nat} (hfit : offset + len < 2 ^ 32)
    (hi : i ∈ storedAt offset len) : i < offset + len := by
  obtain ⟨j, hj, rfl⟩ := List.mem_map.1 hi
  have hlt : j < len := List.mem_range.1 hj
  rw [u32_eq (by omega)]
  omega

/-- Its last byte is stored just there. -/
theorem last_mem_storedAt {offset len : Nat} (hlen : 0 < len) (hfit : offset + len < 2 ^ 32) :
    offset + len - 1 ∈ storedAt offset len := by
  have hmem := mem_storedAt offset (show len - 1 < len by omega)
  rwa [u32_eq (by omega), show offset + (len - 1) = offset + len - 1 by omega] at hmem

/-- A write that ends behind the last address stores to the byte below the block. -/
theorem wrap_mem_storedAt {offset len : Nat} (hoff : offset < 2 ^ 32)
    (hwrap : 2 ^ 32 ≤ offset + len) : 2 ^ 32 - 1 ∈ storedAt offset len := by
  have hmem := mem_storedAt offset (show 2 ^ 32 - 1 - offset < len by omega)
  rwa [u32_eq (by omega), show offset + (2 ^ 32 - 1 - offset) = 2 ^ 32 - 1 by omega] at hmem

/-! ## Room -/

theorem roomAt_put (s : Fs) (p q : Ptr) (o : Obj) : (s.put p o).roomAt q = s.roomAt q := by
  unfold roomAt put
  simp only [get_update]
  split_ifs
  · cases get s.heap q <;> rfl
  · rfl

theorem roomAt_kfree (s : Fs) (p q : Ptr) : (s.kfree p).roomAt q = s.roomAt q := by
  unfold roomAt kfree
  simp only [get_kfreeBlocks]
  split_ifs
  · cases get s.heap q <;> rfl
  · rfl

/-- `putData` changes the size of no block. -/
theorem putData_room (s : Fs) (p : Ptr) (bytes : List UInt8) :
    Ends (s.putData p bytes) fun r => ∀ q, r.roomAt q = s.roomAt q := by
  unfold putData
  split
  · exact ends_ite (fun _ => ends_some fun q => roomAt_put s p q _) fun _ => ends_none
  · exact ends_none

/-- Nor does `krealloc`, behind its `kmalloc`. -/
theorem krealloc_room {n : Nat} (hn : n ≠ 0) (ptr : Ptr) :
    Ends (s.krealloc ptr n) fun b => b.1 = (s.kmalloc n).1 ∧
      ∀ q, b.2.roomAt q = (s.kmalloc n).2.roomAt q := by
  have hsize : s.reallocSize ptr n = some n := by simp [reallocSize, hn]
  unfold krealloc
  rw [hsize]
  refine ends_ite (fun _ => ?_) fun _ => ?_
  · refine ends_ite (fun h => ends_some ⟨h.symm, fun _ => rfl⟩) fun _ => ?_
    exact (putData_room _ _ _).bind fun _ hr => ends_some ⟨rfl, hr⟩
  · refine ends_ite (fun h => ends_some ⟨h.symm, roomAt_kfree _ _⟩) fun _ => ?_
    apply ends_read
    intro old _
    exact (putData_room _ _ _).bind fun r hr =>
      ends_some ⟨rfl, fun q => (roomAt_kfree r ptr q).trans (hr q)⟩

theorem entryAt_put {p : Ptr} {e : TmpfsEntry} (h : s.entryAt p = some e) (e' : TmpfsEntry) :
    (s.put p (.entry e')).entryAt p = some e' := by
  unfold entryAt load at h ⊢
  cases hg : get s.heap p with
  | none => simp [hg] at h
  | some b => simp [put, get_update, hg]

/-- Blocks handed out are no larger than 32-bit numbers say. -/
theorem Sized.kmalloc (h : s.Sized) (n : Nat) (q : Ptr) : (s.kmalloc n).2.roomAt q < 2 ^ 32 := by
  show ((get (kmallocBlocks (s.pages 0) Obj.raw s.heap n).2 q).map Block.size).getD 0 < 2 ^ 32
  have hq := h q
  unfold roomAt at hq
  rcases kmallocBlocks_cases (s.pages 0) Obj.raw s.heap n with
    hc | ⟨p, b, hb, -, -, hc⟩ | ⟨-, -, hc⟩
  · rw [hc]
    exact hq
  · rw [hc]
    simp only [get_update]
    split_ifs
    · cases hg : get s.heap q with
      | none => simp
      | some c => simpa [hg] using hq
    · exact hq
  · rw [hc]
    simp only [get_cons]
    split_ifs
    · have hlt : pagesToGet (alignUp n 8) < 2 ^ 20 := by
        have := Nat.mod_lt (alignUp n 8 + kmallocHeaderSize + kmallocPageSize - 1)
          (show 0 < 2 ^ 32 by decide)
        simp only [pagesToGet, u32, kmallocPageSize] at *
        omega
      simp only [kmallocPageSize, kmallocHeaderSize, Option.map_some, Option.getD_some]
      omega
    · exact hq

/-- The block that a write stores into. -/
theorem writeBlock_room (h : s.Sized) {e : TmpfsEntry} {newSize room : Nat} {p : Ptr}
    (hw : s.writeBlock e newSize = some (p, room)) : room < 2 ^ 32 := by
  unfold writeBlock at hw
  split_ifs at hw with hcap
  · cases hw
    exact h e.dataPtr
  · simp only at hw
    split_ifs at hw
    cases hw
    exact h.kmalloc newSize _

/-! ## Writes that fit -/

theorem RegularFile.content {node file : Ptr} {e : TmpfsEntry} (h : RegularFile s node file e) :
    Content s e [] := by
  rcases h.block with ⟨hptr, hcap⟩ | ⟨data, hdata, hlen, -⟩
  · exact Or.inl ⟨hptr, hcap, rfl⟩
  · exact Or.inr ⟨data, hdata, hlen, Nat.zero_le _, rfl⟩

/-- Making room for a write leaves the block that it is going to store into. -/
theorem growData_block {file : Ptr} {e : TmpfsEntry} (newSize : Nat)
    (hentry : s.entryAt file = some e) :
    Ends (s.growData file e newSize) fun b => b.1 = true → ∃ e', b.2.entryAt file = some e' ∧
      s.writeBlock e newSize = some (e'.dataPtr, b.2.roomAt e'.dataPtr) := by
  refine ends_ite (fun hcap => ends_some fun _ => ⟨e, hentry, if_pos hcap⟩) fun hcap => ?_
  apply (krealloc_room (by omega) e.dataPtr).bind
  rintro ⟨p, t⟩ ⟨hp, hroom⟩
  refine ends_ite (fun _ => ends_some fun h => by cases h) fun hp0 => ?_
  apply ends_read
  intro e₁ he₁
  refine ends_some fun _ => ⟨_, entryAt_put he₁ _, ?_⟩
  show s.writeBlock e newSize = some (p, _)
  rw [roomAt_put, hroom, writeBlock, if_neg hcap]
  rcases hk : s.kmalloc newSize with ⟨q, u⟩
  obtain rfl : p = q := by simpa [hk] using hp
  exact if_neg hp0

/-- The copy of a write changes the size of no block. -/
theorem storeBytes_room (s : Fs) (file : Ptr) (offset newSize : Nat) (buffer : List UInt8) :
    Ends (s.storeBytes file offset buffer newSize) fun r => ∀ q, r.roomAt q = s.roomAt q := by
  apply ends_read
  intro e _
  apply ends_read
  intro data _
  refine ends_ite (fun _ => ends_none) fun _ => ends_some fun q => ?_
  rw [roomAt_put, roomAt_put]

theorem live_of_obj {p : Ptr} {o : Obj} (h : s.obj p = some o) : Live s.heap p := by
  unfold obj at h
  obtain ⟨b, hb, h⟩ := Option.bind_eq_some_iff.1 h
  refine ⟨b, hb, ?_⟩
  cases hfree : b.free with
  | false => rfl
  | true => simp [hfree] at h

/-- The block that a write stores into has room for it. -/
theorem RegularFile.le_room {node file : Ptr} {e : TmpfsEntry} (hf : RegularFile s node file e)
    {n room : Nat} {p : Ptr} (ha : e.capacity < n → s.Allocates n)
    (h0 : n ≠ 0) (hw : s.writeBlock e n = some (p, room)) : n ≤ room := by
  unfold writeBlock at hw
  split_ifs at hw with hcap
  · cases hw
    rcases hf.block with ⟨-, hzero⟩ | ⟨data, -, -, hroom⟩
    · exact absurd (Nat.le_zero.1 (hzero ▸ hcap)) h0
    · exact hcap.trans hroom
  · have halloc := ha (not_le.1 hcap)
    simp only at hw
    split_ifs at hw
    cases hw
    obtain ⟨b, hb, hle⟩ := (Option.any_eq_true _ _).1 halloc
    simpa [roomAt, hb] using hle

/-- **A write that fits stays inside its block**, and counts its size right. -/
theorem WriteFits.inside {node file : Ptr} {e : TmpfsEntry} {offset : Nat} {buffer : List UInt8}
    (h : WriteFits s e offset buffer.length) (hf : RegularFile s node file e)
    (hlen : buffer.length ≠ 0) : WritesInside s node file e offset buffer := by
  obtain ⟨hfit, hroom⟩ := h
  have hu : u32 (offset + buffer.length) = offset + buffer.length := u32_eq hfit
  have hentry := entryAt_of_obj hf.entry
  obtain ⟨t, e₁, data, hgrow, hrew, he₁, hle, -⟩ :=
    growData_spec hf.entry hf.content (show offset + buffer.length ≠ 0 by omega) hroom
  obtain ⟨r, e₂, hstore, he₂, hrew₂⟩ := storeBytes_spec (offset + buffer.length) hrew
    (hrew.file_ne hf.entry hf.content) hle
  obtain ⟨e₁', hentry₁, hblock⟩ := (growData_block _ hentry).result _ hgrow rfl
  obtain rfl : e₁ = e₁' := by
    have hobj : t.obj file = some (.entry e₁) := by rw [hrew.obj, Function.update_self]
    simpa [entryAt_of_obj hobj] using hentry₁
  have hroom₂ := (storeBytes_room t file offset _ buffer).result r hstore e₁.dataPtr
  have hptr : e₂.dataPtr = e₁.dataPtr := by rw [he₂]
  have hentry₂ : r.obj file = some (.entry e₂) := by rw [hrew₂.obj, Function.update_self]
  have hlive : r.obj e₂.dataPtr = some (.data (splice data offset buffer)) := by
    have hne := hrew.file_ne hf.entry hf.content
    rw [hrew₂.obj, Function.update_of_ne (by rw [hptr]; exact hne.symm), Function.update_self]
  refine ⟨?_, buffer.length, offset + buffer.length, r, ?_, fun _ => ⟨rfl, e₂,
    entryAt_of_obj hentry₂, ?_, live_of_obj hlive, ?_⟩⟩
  · intro p room hw i hi
    rw [hu] at hw
    exact (storedAt_lt hfit hi).trans_le (hf.le_room hroom (by omega) hw)
  · obtain ⟨n, hn, -, rfl⟩ := hf.node
    have hchr : kvfsStatIsChr e.stat.mode = false := isChr_of_isReg hf.isReg
    simp only [ktmpfsWrite, Option.bind_eq_bind, Option.pure_def, nodeAt_of_obj hn, hentry,
      Option.bind_some, hchr, hf.isReg, hu, hgrow, hstore]
    simp [ne_zero_of_obj hn, ne_zero_of_obj hf.entry, hlen]
  · rw [hu, hblock, hptr, hroom₂]
  · rw [he₂, he₁]
    exact max_comm _ _

/-! ## When a write stays inside -/

/-- A write that does not fit stores outside the block that it stores into. -/
theorem WriteFits.of_inside {node file : Ptr} {e : TmpfsEntry} {offset : Nat}
    {buffer : List UInt8} (hs : s.Sized) (hoff : offset < 2 ^ 32) (hlen : buffer.length ≠ 0)
    (hno : ¬WriteRefused s e (u32 (offset + buffer.length)))
    (h : WritesInside s node file e offset buffer) : WriteFits s e offset buffer.length := by
  obtain ⟨p, room, hblock⟩ : ∃ p room, s.writeBlock e (u32 (offset + buffer.length)) =
      some (p, room) := by
    unfold writeBlock
    split_ifs with hcap
    · exact ⟨_, _, rfl⟩
    · have hp : (s.kmalloc (u32 (offset + buffer.length))).1 ≠ 0 := fun h0 =>
        hno ⟨not_le.1 hcap, h0⟩
      exact ⟨_, _, if_neg hp⟩
  have hfit : offset + buffer.length < 2 ^ 32 := by
    by_contra hwrap
    have hlast := h.stores p room hblock _ (wrap_mem_storedAt hoff (not_lt.1 hwrap))
    have := writeBlock_room hs hblock
    omega
  refine ⟨hfit, fun hcap => ?_⟩
  -- the last byte lies in the block that `kmalloc` has returned
  rw [u32_eq hfit] at hblock hno
  have hlast := h.stores p room (by rwa [u32_eq hfit]) _ (last_mem_storedAt (by omega) hfit)
  rw [writeBlock, if_neg (by omega)] at hblock
  simp only at hblock
  split_ifs at hblock
  cases hblock
  unfold Allocates
  unfold roomAt at hlast
  cases hg : get (s.kmalloc (offset + buffer.length)).2.heap
      (s.kmalloc (offset + buffer.length)).1 with
  | none => simp [hg] at hlast
  | some b =>
    have hb : offset + buffer.length - 1 < b.size := by simpa [hg] using hlast
    simp
    omega

/-- **A write to a regular file stays inside the file's block, and counts the size of the file
right, exactly if its end is a 32-bit number and a larger block, if it needs one, has as many
bytes**; or if nothing is stored, because there are no bytes or `krealloc` gets no block. -/
theorem writes_inside_iff {node file : Ptr} {e : TmpfsEntry} (hs : s.Sized)
    (hf : RegularFile s node file e) {offset : Nat} (hoff : offset < 2 ^ 32)
    (buffer : List UInt8) :
    WritesInside s node file e offset buffer ↔
      buffer.length = 0 ∨ WriteRefused s e (u32 (offset + buffer.length)) ∨
        WriteFits s e offset buffer.length := by
  by_cases hlen : buffer.length = 0
  · refine iff_of_true ⟨fun p room _ i hi => ?_, 0, offset, s, ?_, fun h => absurd rfl h⟩
      (Or.inl hlen)
    · rw [hlen] at hi
      cases hi
    · simp [ktmpfsWrite, hlen]
  · by_cases hno : WriteRefused s e (u32 (offset + buffer.length))
    · obtain ⟨n, hn, -, rfl⟩ := hf.node
      obtain ⟨t, -, hwrite⟩ := ktmpfsWrite_of_refused (nodeAt_of_obj hn)
        (entryAt_of_obj hf.entry) hf.isReg hlen hno.1 hno.2
      refine iff_of_true ⟨fun p room hw => ?_, 0, offset, t, hwrite, fun h => absurd rfl h⟩
        (Or.inr (Or.inl hno))
      simp [writeBlock, not_le.2 hno.1, hno.2] at hw
    · constructor
      · exact fun h => Or.inr (Or.inr (WriteFits.of_inside hs hoff hlen hno h))
      · rintro (h | h | h)
        · exact absurd h hlen
        · exact absurd h hno
        · exact h.inside hf hlen

/-- The file of three bytes on a heap that is full. -/
theorem regularFile_fullHeap : ∃ e, e.capacity = 3 ∧ RegularFile fullHeap 3 1 e :=
  ⟨_, rfl, ⟨_, rfl, rfl, rfl⟩, rfl, rfl, Or.inr ⟨_, rfl, rfl, by decide⟩⟩

theorem sized_fullHeap : fullHeap.Sized := by
  intro p
  have hsize : ∀ b ∈ get fullHeap.heap p, b.size < 2 ^ 32 := by
    intro b hb
    simp only [fullHeap, get_cons, get_nil] at hb
    split_ifs at hb
    all_goals cases hb
    all_goals decide
  unfold roomAt
  cases hg : get fullHeap.heap p with
  | none => decide
  | some b => exact hsize b hg

/-- A byte over the first one stays inside the block of the file. -/
theorem writes_inside_first : ∃ e, RegularFile fullHeap 3 1 e ∧
    WritesInside fullHeap 3 1 e 0 [4] := by
  obtain ⟨e, hcap, hf⟩ := regularFile_fullHeap
  refine ⟨e, hf, (writes_inside_iff sized_fullHeap hf (by decide) [4]).2
    (Or.inr (Or.inr ⟨by decide, fun h => ?_⟩))⟩
  rw [hcap] at h
  exact absurd h (by decide)

/-- **A write of `2 ^ 32 - 1` bytes at the end of the file of three bytes does not.** -/
theorem write_wraps_outside : ∃ e, RegularFile fullHeap 3 1 e ∧
    ¬WritesInside fullHeap 3 1 e 3 (List.replicate (2 ^ 32 - 1) 0) := by
  obtain ⟨e, hcap, hf⟩ := regularFile_fullHeap
  have hlen : (List.replicate (2 ^ 32 - 1) (0 : UInt8)).length = 2 ^ 32 - 1 :=
    List.length_replicate
  refine ⟨e, hf, fun h => ?_⟩
  have hfits := WriteFits.of_inside sized_fullHeap (by decide) (by omega) ?_ h
  · have hfit := hfits.1
    omega
  · rintro ⟨hgrow, -⟩
    rw [hlen, hcap] at hgrow
    exact absurd hgrow (by decide)

end Fs

end DelOs
