import DelOs.Lib.Transition
import DelOs.Memory.BlockHeap

/-!
# The heap over whole runs

A run of the kernel heap is a sequence of `kmalloc`, `kcalloc` and `kfree` calls on the heap
that `kmalloc_init` leaves; a pointer is freed only while it is live.

* `HeapRun`, `heapStep` — a heap with the pointers its callers hold.
* `HeapInv` — the header list is finite, its blocks tile the heap up to the break, and the
  blocks in use are those of the live pointers.
* `heapStep_inv` — every call keeps the invariant.
* `heap_run_tiles` — **every state a run reaches satisfies it**, and no call touches the payload
  of a block that its caller does not receive.
-/

namespace DelOs

open ByteMem FirstFit Transition

/-! ## Runs -/

/-- The calls of the heap interface. -/
inductive HeapCall where
  | kmalloc (size : Nat)
  | kcalloc (size : Nat)
  | kfree (ptr : Nat)
  deriving DecidableEq, Repr

/-- A heap, and the pointers returned so far and not freed since, each with the size asked
for. -/
structure HeapRun (σ : Type) where
  heap : Heap σ
  live : List (Nat × Nat)

variable {σ : Type}

/-- The pointers a caller may still use. -/
def HeapRun.pointers (s : HeapRun σ) : List Nat := s.live.map Prod.fst

/-- The state after an allocation that returned `ptr`. -/
def HeapRun.allocated (s : HeapRun σ) (size ptr : Nat) (heap : Heap σ) : HeapRun σ :=
  { heap := heap, live := if ptr = 0 then s.live else (ptr, size) :: s.live }

/-- One call; `none` when the kernel panics. -/
def heapStep [PageSource σ] (s : HeapRun σ) : HeapCall → Option (HeapRun σ)
  | .kmalloc size => (s.heap.kmalloc size).map fun r => s.allocated size r.1 r.2
  | .kcalloc size => (s.heap.kcalloc size).map fun r => s.allocated size r.1 r.2
  | .kfree ptr =>
      some { heap := (s.heap.kfree ptr).2, live := s.live.filter fun l => l.1 ≠ ptr }

/-- What a caller promises: sizes whose sums do not wrap, and to free what it holds. -/
def HeapOk (s : HeapRun σ) : HeapCall → Prop
  | .kmalloc size => size ≤ 2 ^ 29
  | .kcalloc size => size ≤ 2 ^ 29
  | .kfree ptr => ptr ∈ s.pointers

instance (s : HeapRun σ) : ∀ call, Decidable (HeapOk s call)
  | .kmalloc size => inferInstanceAs (Decidable (size ≤ 2 ^ 29))
  | .kcalloc size => inferInstanceAs (Decidable (size ≤ 2 ^ 29))
  | .kfree ptr => inferInstanceAs (Decidable (ptr ∈ s.pointers))

/-! ## The invariant -/

/-- The blocks in use are those of the live pointers, one each. -/
structure Owned (bs : Blocks Unit) (live : List (Nat × Nat)) : Prop where
  nodup : (live.map Prod.fst).Nodup
  block : ∀ ptr size, (ptr, size) ∈ live →
    ∃ p b, get bs p = some b ∧ payload bs p = ptr ∧ b.free = false ∧ alignUp size 8 ≤ b.size
  live : ∀ p b, get bs p = some b → b.free = false → payload bs p ∈ live.map Prod.fst

/-- The heap stores a list of blocks that tile it, and the blocks in use are those of the live
pointers. -/
def HeapInv (s : HeapRun σ) : Prop :=
  ∃ bs : Blocks Unit, Represents s.heap bs ∧ Owned bs s.live

theorem Owned.allocate {bs bs' : Blocks Unit} {live : List (Nat × Nat)} {grant : Bool}
    {size p : Nat} (ho : Owned bs live) (hs : size ≤ 2 ^ 29)
    (h : kmallocBlocks grant () bs size = (p, bs')) (hp : p ≠ 0) :
    Owned bs' ((payload bs' p, size) :: live) := by
  obtain ⟨⟨b, hb, hfree, hsize⟩, hother⟩ := get_kmallocBlocks hs h hp
  have hnew := (live_kmallocBlocks h hp).1
  have hmove : ∀ q c, get bs q = some c → payload bs' q = payload bs q := by
    intro q c hq
    exact payload_kmallocBlocks h hq
  refine ⟨?_, ?_, ?_⟩
  · -- a live pointer at the new block would be a block in use already
    rw [List.map_cons, List.nodup_cons]
    refine ⟨?_, ho.nodup⟩
    intro hmem
    obtain ⟨⟨ptr, n⟩, hl, hptr⟩ := List.mem_map.1 hmem
    obtain ⟨q, c, hq, hqptr, hcfree, -⟩ := ho.block ptr n hl
    have hqp : q ≠ p := by
      rintro rfl
      exact hnew ⟨c, hq, hcfree⟩
    refine hqp (address_injective kmallocHeaderSize kernelHeapStart ((hother q hqp).trans hq) hb
      (by decide) ?_)
    show payload bs' q = payload bs' p
    rw [hmove q c hq, hqptr]
    exact hptr
  · intro ptr n hmem
    rcases List.mem_cons.1 hmem with heq | hmem
    · cases heq
      exact ⟨p, b, hb, rfl, hfree, hsize⟩
    · obtain ⟨q, c, hq, hqptr, hcfree, hcsize⟩ := ho.block ptr n hmem
      have hqp : q ≠ p := by
        rintro rfl
        exact hnew ⟨c, hq, hcfree⟩
      exact ⟨q, c, (hother q hqp).trans hq, (hmove q c hq).trans hqptr, hcfree, hcsize⟩
  · intro q c hq hcfree
    by_cases hqp : q = p
    · subst hqp
      exact List.mem_cons_self
    · rw [hother q hqp] at hq
      rw [hmove q c hq]
      exact List.mem_cons_of_mem _ (ho.live q c hq hcfree)

theorem Owned.release {bs : Blocks Unit} {live : List (Nat × Nat)} {p : Nat} {b : Block Unit}
    (ho : Owned bs live) (hp : get bs p = some b) :
    Owned (kfreeBlocks bs p) (live.filter fun l => l.1 ≠ payload bs p) := by
  refine ⟨(List.filter_sublist.map Prod.fst).nodup ho.nodup, ?_, ?_⟩
  · intro ptr n hmem
    obtain ⟨hl, hne⟩ := List.mem_filter.1 hmem
    obtain ⟨q, c, hq, hqptr, hcfree, hcsize⟩ := ho.block ptr n hl
    have hqp : q ≠ p := by
      rintro rfl
      simp [hqptr] at hne
    refine ⟨q, c, ?_, ?_, hcfree, hcsize⟩
    · rw [get_kfreeBlocks, if_neg hqp, hq]
    · rw [payload_kfreeBlocks, hqptr]
  · intro q c hq hcfree
    rw [get_kfreeBlocks] at hq
    split_ifs at hq with hqp
    · obtain ⟨d, -, rfl⟩ := Option.map_eq_some_iff.1 hq
      cases hcfree
    · obtain ⟨⟨ptr, n⟩, hl, hptr⟩ := List.mem_map.1 (ho.live q c hq hcfree)
      rw [payload_kfreeBlocks]
      refine List.mem_map.2 ⟨(ptr, n), List.mem_filter.2 ⟨hl, ?_⟩, hptr⟩
      have hne : payload bs q ≠ payload bs p := by
        intro heq
        exact hqp (address_injective kmallocHeaderSize kernelHeapStart hq hp (by decide) heq)
      simp only at hptr
      simp [hptr, hne]

/-- The size that a live pointer's header gives is that of its block. -/
theorem Owned.header {h : Heap σ} {bs : Blocks Unit} {live : List (Nat × Nat)} {ptr size : Nat}
    (ho : Owned bs live) (hr : Represents h bs) (hl : (ptr, size) ∈ live) :
    ∃ p b, get bs p = some b ∧ payload bs p = ptr ∧ b.free = false ∧
      headerSize h.mem (ptr - 12) = b.size := by
  obtain ⟨p, b, hp, rfl, hfree, -⟩ := ho.block ptr size hl
  exact ⟨p, b, hp, rfl, hfree, (hr.headers.get hp).2⟩

/-! ## One call -/

variable {s t : HeapRun σ}

/-- What one call may write: no payload of a live block; when an allocation returns null, not
the list nor the break either; `kcalloc` clears bytes of the block it returns. -/
structure StepFrame [PageSource σ] (s t : HeapRun σ) (call : HeapCall) : Prop where
  payload : ∀ ptr size, (ptr, size) ∈ s.live → ∀ x, ptr ≤ x →
    x < ptr + headerSize s.heap.mem (ptr - 12) → t.heap.mem x = s.heap.mem x
  refused : ∀ size, (call = .kmalloc size ∧ ∃ h, s.heap.kmalloc size = some (0, h)) ∨
    (call = .kcalloc size ∧ ∃ h, s.heap.kcalloc size = some (0, h)) →
    t.heap = { s.heap with pages := t.heap.pages }
  cleared : ∀ size ptr h, call = .kcalloc size → s.heap.kcalloc size = some (ptr, h) →
    ptr ≠ 0 → alignUp size 8 ≤ headerSize t.heap.mem (ptr - 12) ∧
      ∀ x, ptr ≤ x → x < ptr + alignUp size 8 → t.heap.mem x = 0

/-- The pointers of a run stay owned when the list goes through an allocation. -/
theorem HeapInv.allocated {size ptr : Nat} {heap : Heap σ} {bs : Blocks Unit} {grant : Bool}
    (ho : Owned bs s.live) (hs : size ≤ 2 ^ 29)
    (hr : Represents heap (kmallocBlocks grant () bs size).2)
    (hptr : ptr = payload (kmallocBlocks grant () bs size).2
      (kmallocBlocks grant () bs size).1) :
    HeapInv (s.allocated size ptr heap) := by
  generalize hres : kmallocBlocks grant () bs size = r at hr hptr
  obtain ⟨p, bs'⟩ := r
  refine ⟨bs', hr, ?_⟩
  unfold HeapRun.allocated
  by_cases hp : p = 0
  · subst hp
    obtain rfl := kmallocBlocks_null hres
    have hzero : ptr = 0 := by rw [hptr]; exact address_zero _ _ _
    rw [if_pos hzero]
    exact ho
  · obtain ⟨b, hb, -⟩ := (get_kmallocBlocks hs hres hp).1
    have hne : ptr ≠ 0 := by rw [hptr]; exact payload_ne_zero hb
    rw [if_neg hne, hptr]
    exact ho.allocate hs hres hp

/-- **What `kcalloc` returns is cleared**, and lies in its block. -/
theorem Represents.kcalloc_cleared [PageSource σ] {h h' : Heap σ} {bs : Blocks Unit}
    {size ptr : Nat} (hr : Represents h bs) (hs : size ≤ 2 ^ 29)
    (hk : h.kcalloc size = some (ptr, h')) (hne : ptr ≠ 0) :
    alignUp size 8 ≤ headerSize h'.mem (ptr - 12) ∧
      ∀ x, ptr ≤ x → x < ptr + alignUp size 8 → h'.mem x = 0 := by
  obtain ⟨grant, hr', hptr, -⟩ := hr.kcalloc () hs hk
  generalize hres : kmallocBlocks grant () bs size = r at hr' hptr
  obtain ⟨p, bs'⟩ := r
  have hp : p ≠ 0 := by
    rintro rfl
    exact hne (hptr.trans (address_zero _ _ _))
  obtain ⟨⟨b, hb, -, hsize⟩, -⟩ := get_kmallocBlocks hs hres hp
  constructor
  · rw [hptr]
    exact hsize.trans_eq (hr'.headers.get hb).2.symm
  · obtain ⟨h₁, -, ⟨h0, -⟩ | ⟨-, rfl⟩⟩ := kcalloc_cases hk
    · exact absurd h0 hne
    · intro x h1 h2
      show ByteMem.fill h₁.mem ptr 0 (alignUp size 8) x = 0
      rw [fill_apply, if_pos ⟨h1, h2⟩]

/-- A `kcalloc` that returns null leaves the list and the break alone. -/
theorem Represents.kcalloc_refused [PageSource σ] {h h' : Heap σ} {bs : Blocks Unit} {size : Nat}
    (hr : Represents h bs) (hs : size ≤ 2 ^ 29) (hk : h.kcalloc size = some (0, h')) :
    h' = { h with pages := h'.pages } := by
  obtain ⟨h₁, hmalloc, ⟨-, rfl⟩ | ⟨hne, -⟩⟩ := kcalloc_cases hk
  · obtain ⟨-, -, -, -, hnull⟩ := hr.kmalloc () hs hmalloc
    exact hnull rfl
  · exact absurd rfl hne

variable [PageSource σ]

/-- **Every call keeps the invariant.** -/
theorem heapStep_inv {c : HeapCall} (hi : HeapInv s) (hok : HeapOk s c)
    (hstep : heapStep s c = some t) : HeapInv t := by
  obtain ⟨bs, hr, ho⟩ := hi
  cases c with
  | kmalloc size =>
    obtain ⟨⟨ptr, heap⟩, hk, rfl⟩ := Option.map_eq_some_iff.1 hstep
    obtain ⟨grant, hr', hptr, -⟩ := hr.kmalloc () hok hk
    exact HeapInv.allocated ho hok hr' hptr
  | kcalloc size =>
    obtain ⟨⟨ptr, heap⟩, hk, rfl⟩ := Option.map_eq_some_iff.1 hstep
    obtain ⟨grant, hr', hptr, -⟩ := hr.kcalloc () hok hk
    exact HeapInv.allocated ho hok hr' hptr
  | kfree ptr =>
    obtain rfl := Option.some.inj hstep
    obtain ⟨⟨ptr', size⟩, hl, rfl⟩ := List.mem_map.1 hok
    obtain ⟨p, b, hp, rfl, -⟩ := ho.block ptr' size hl
    exact ⟨_, (hr.kfree hp).1, ho.release hp⟩

/-- Every call writes only where it may. -/
theorem heapStep_frame {call : HeapCall} (hi : HeapInv s) (hok : HeapOk s call)
    (hstep : heapStep s call = some t) : StepFrame s t call := by
  obtain ⟨bs, hr, ho⟩ := hi
  cases call with
  | kmalloc size =>
    obtain ⟨⟨ptr, heap⟩, hk, rfl⟩ := Option.map_eq_some_iff.1 hstep
    obtain ⟨grant, -, -, hframe, hnull⟩ := hr.kmalloc () hok hk
    refine ⟨?_, ?_, by rintro _ _ _ ⟨⟩⟩
    · intro ptr' size' hl x h1 h2
      obtain ⟨p, b, hp, rfl, -, hsize⟩ := ho.header hr hl
      exact hframe p b x hp h1 (by omega)
    · rintro _ (⟨hcall, h, hk'⟩ | ⟨⟨⟩, -⟩)
      cases hcall
      rw [hk] at hk'
      cases hk'
      exact hnull rfl
  | kcalloc size =>
    obtain ⟨⟨ptr, heap⟩, hk, rfl⟩ := Option.map_eq_some_iff.1 hstep
    obtain ⟨grant, -, -, hframe⟩ := hr.kcalloc () hok hk
    refine ⟨?_, ?_, ?_⟩
    · intro ptr' size' hl x h1 h2
      obtain ⟨q, c, hq, rfl, hfree, hsize⟩ := ho.header hr hl
      refine hframe q c x hq ?_ h1 (by omega)
      -- the block returned was not in use
      intro heq
      have hq0 := (get_bounds hq).1
      exact (live_kmallocBlocks (p := q) (Prod.ext heq.symm rfl) (by omega)).1 ⟨c, hq, hfree⟩
    · rintro _ (⟨⟨⟩, -⟩ | ⟨hcall, h, hk'⟩)
      cases hcall
      rw [hk] at hk'
      cases hk'
      exact hr.kcalloc_refused hok hk
    · intro _ _ _ hcall hk' hne
      cases hcall
      rw [hk] at hk'
      cases hk'
      exact hr.kcalloc_cleared hok hk hne
  | kfree ptr =>
    obtain rfl := Option.some.inj hstep
    obtain ⟨⟨ptr', size⟩, hl, rfl⟩ := List.mem_map.1 hok
    obtain ⟨p, b, hp, rfl, -⟩ := ho.block ptr' size hl
    refine ⟨?_, ?_, by rintro _ _ _ ⟨⟩⟩
    · intro ptr'' size'' hl' x h1 h2
      obtain ⟨q, c, hq, rfl, -, hsize⟩ := ho.header hr hl'
      exact (hr.kfree hp).2.2 q c x hq h1 (by omega)
    · rintro _ (⟨⟨⟩, -⟩ | ⟨⟨⟩, -⟩)

/-! ## Runs from the initial heap -/

theorem heapInv_kmallocInit {mem : Mem} {source : σ} {h : Heap σ}
    (hinit : kmallocInit mem source = some h) : HeapInv ⟨h, []⟩ := by
  obtain ⟨-, -, source₂, -, -, -, rfl⟩ := kmallocInit_some hinit
  have hnil : Headers mem kernelHeapStart ([] : Blocks Unit) 0 := rfl
  have hone : ∀ p b, get ([⟨4084, true, ()⟩] : Blocks Unit) p = some b →
      b = ⟨4084, true, ()⟩ := by
    intro p b hp
    rw [get_cons] at hp
    split_ifs at hp
    · exact (Option.some.inj hp).symm
    · cases hp
  refine ⟨[⟨4084, true, ()⟩], ⟨rfl, rfl, rfl, ?_, ?_, ?_⟩, List.nodup_nil, ?_, ?_⟩
  · rw [kernelHeapEnd_eq]
    decide
  · exact hnil.push true (by decide) (by decide)
  · intro p b hp
    rw [hone p b hp]
    rfl
  · intro ptr size hl
    cases hl
  · intro p b hp hfree
    rw [hone p b hp] at hfree
    cases hfree

/-- **The heap over whole runs.**  In every state a run from `kmalloc_init` reaches, the header
list ends, its blocks tile the heap up to the break, and the blocks in use are those of the
live pointers; and every call from there writes only where it may. -/
theorem heap_run_tiles {mem : Mem} {source : σ} {h : Heap σ} {s : HeapRun σ}
    (hinit : kmallocInit mem source = some h)
    (hrun : Reachable heapStep HeapOk ⟨h, []⟩ s) :
    HeapInv s ∧
    (∀ size, findFreeHeapHeader s.heap.mem size s.heap.walkFuel s.heap.kernelHeapLh ≠ none) ∧
    ∀ call t, HeapOk s call → heapStep s call = some t → StepFrame s t call := by
  have hi : HeapInv s := reachable_invariant (fun _ _ _ hi hok hstep => heapStep_inv hi hok hstep)
    (heapInv_kmallocInit hinit) hrun
  refine ⟨hi, ?_, ?_⟩
  · intro size
    obtain ⟨bs, hr, -⟩ := hi
    rw [hr.findFree]
    exact Option.some_ne_none _
  · intro call t hok hstep
    exact heapStep_frame hi hok hstep

/-- A page source that grants every request: frames one after the other, every mapping. -/
structure FreshFrames where
  next : Nat

instance : PageSource FreshFrames where
  kpmmAllocPages source n := some (4096 * source.next, ⟨source.next + n⟩)
  kvmmMapPage source _ _ _ := some (true, source)
  kvmmMapRange source _ _ _ _ := some (true, source)

/-- The heap that `kmalloc_init` leaves over empty memory, with every request granted. -/
def freshHeap : Heap FreshFrames := (kmallocInit (fun _ => 0) ⟨1⟩).get rfl

/-- A run that reuses the first block, grows the heap and frees. -/
theorem heap_run_tiles_reuse_and_grow :
    ∃ s, run heapStep ⟨freshHeap, []⟩ [.kmalloc 100, .kcalloc 5000, .kfree 0xD000000C] = some s ∧
      s.live = [(0xD000100C, 5000)] ∧ HeapInv s := by
  have hinit : kmallocInit (fun _ => 0) (⟨1⟩ : FreshFrames) = some freshHeap := rfl
  have hadm : Admissible heapStep HeapOk ⟨freshHeap, []⟩
      [.kmalloc 100, .kcalloc 5000, .kfree 0xD000000C] := by
    decide +kernel
  exact ⟨_, rfl, by decide +kernel, (heap_run_tiles hinit ⟨_, hadm, rfl⟩).1⟩

/-- The first block of a fresh heap, in use. -/
def usedHeap : HeapRun FreshFrames :=
  (run heapStep ⟨freshHeap, []⟩ [.kmalloc 100]).get (by decide +kernel)

theorem run_usedHeap : run heapStep ⟨freshHeap, []⟩ [.kmalloc 100] = some usedHeap := by
  simp [usedHeap]

theorem heapInv_usedHeap : HeapInv usedHeap := by
  have hinit : kmallocInit (fun _ => 0) (⟨1⟩ : FreshFrames) = some freshHeap := rfl
  have hadm : Admissible heapStep HeapOk ⟨freshHeap, []⟩ [.kmalloc 100] := by decide +kernel
  exact (heap_run_tiles hinit ⟨_, hadm, run_usedHeap⟩).1

end DelOs
