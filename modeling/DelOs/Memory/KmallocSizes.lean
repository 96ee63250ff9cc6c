import DelOs.Memory.HeapTiling

/-!
# Sizes that a 32-bit sum does not hold

`kmalloc` takes any 32-bit size.  Rounding it up, counting its pages and testing it against the
limit are sums that may wrap.

* `Wraps` — the sizes for which one of the sums wraps and no later test refuses the request.
* `HonoursSize` — what the caller of `kmalloc` may rely on.
* `heapStep_sized` — sizes that do not wrap keep the heap as it should be.
* `kmalloc_honours_iff` — **`kmalloc` keeps its promise for a size exactly if no sum wraps**, in
  every state that a run reaches.
* `kmalloc_wraps` — the largest size, on the heap that `kmalloc_init` leaves.
-/

namespace DelOs

open ByteMem FirstFit Transition

variable {σ : Type}

/-! ## What may wrap -/

/-- The header that `kmalloc` finds free for a request of `size` bytes. -/
def Heap.fitFor (h : Heap σ) (size : Nat) : Option Nat :=
  findFreeHeapHeader h.mem (alignUp size 8) h.walkFuel h.kernelHeapLh

/-- The page layers grant and map the pages that `create_heap_header` asks for. -/
def Heap.Grants [PageSource σ] (h : Heap σ) (size : Nat) : Prop :=
  ∃ frame source source', PageSource.kpmmAllocPages h.pages (pagesToGet size) =
      some (frame, source) ∧ frame ≠ 0 ∧
    PageSource.kvmmMapRange source h.kernelHeapBrk frame kvmmFlagPresentRw (pagesToGet size) =
      some (true, source')

/-- A sum wraps and the request goes through: the size is rounded up to 0 and some block is free,
or no block is, the limit test adds up to less than the break, and nothing else refuses. -/
def Heap.Wraps [PageSource σ] (h : Heap σ) (size : Nat) : Prop :=
  (2 ^ 32 - 8 < size ∧ h.fitFor size ≠ some 0) ∨
    (size ≤ 2 ^ 32 - 8 ∧ h.fitFor size = some 0 ∧
      2 ^ 32 ≤ h.kernelHeapBrk + alignUp size 8 + kmallocHeaderSize ∧
      pagesToGet (alignUp size 8) ≠ 0 ∧
      u32 (h.kernelHeapBrk + alignUp size 8 + kmallocHeaderSize) ≤ h.kernelHeapLimit ∧
      h.Grants (alignUp size 8))

/-- What `kmalloc(size)` promises: a null pointer, and the list and the break as they were; or a
pointer to a block of the list, inside the heap, with room for `size` bytes, that no other live
pointer uses. -/
structure HonoursSize (s : HeapRun σ) (size ptr : Nat) (h' : Heap σ) : Prop where
  null : ptr = 0 → h' = { s.heap with pages := h'.pages }
  room : ptr ≠ 0 → size ≤ headerSize h'.mem (ptr - kmallocHeaderSize)
  inside : ptr ≠ 0 → h'.kernelHeapBase ≤ ptr - kmallocHeaderSize ∧
    ptr + headerSize h'.mem (ptr - kmallocHeaderSize) ≤ h'.kernelHeapLimit
  block : ptr ≠ 0 → ∃ (bs : Blocks Unit) (p : Nat) (b : Block Unit), Represents h' bs ∧
    get bs p = some b ∧ b.free = false ∧ payload bs p = ptr
  apart : ptr ≠ 0 → ∀ q n, (q, n) ∈ s.live →
    q + headerSize h'.mem (q - kmallocHeaderSize) ≤ ptr ∨
      ptr + headerSize h'.mem (ptr - kmallocHeaderSize) ≤ q

/-! ## Sizes -/

theorem alignUp_wraps {n : Nat} (hn : n < 2 ^ 32) (h : 2 ^ 32 - 8 < n) : alignUp n 8 = 0 := by
  have hsum : n + 7 = (n + 7 - 2 ^ 32) + 2 ^ 32 := by omega
  have hlow : u32 (n + 7) = n + 7 - 2 ^ 32 := by
    rw [u32, hsum, Nat.add_mod_right, Nat.mod_eq_of_lt (by omega)]
    omega
  rw [alignUp, show n + (8 - 1) = n + 7 from rfl, hlow, Nat.div_eq_of_lt (by omega), Nat.zero_mul]

theorem alignUp_bounds {n : Nat} (h : n ≤ 2 ^ 32 - 8) :
    n ≤ alignUp n 8 ∧ alignUp n 8 < n + 8 := by
  rw [alignUp, u32_eq (by omega)]
  omega

/-- A free header that is large enough lies in the heap, so that the size does as well. -/
theorem fitFor_le {h : Heap σ} {bs : Blocks Unit} (hr : Represents h bs) {n : Nat}
    (hn : n ≤ 2 ^ 32 - 8) (hfit : h.fitFor n ≠ some 0) : n ≤ 2 ^ 29 := by
  rw [Heap.fitFor, hr.findFree] at hfit
  by_cases hp : find (alignUp n 8) bs = 0
  · rw [hp] at hfit
    exact absurd (by simp) hfit
  · obtain ⟨b, hb, -, hsize⟩ := get_find hp
    have hbounds := payload_bounds hb
    have hend := hr.brk_le
    have hround := (alignUp_bounds hn).1
    rw [kernelHeapEnd_eq] at hend
    rw [kernelHeapStart] at hbounds
    omega

section Runs

variable [PageSource σ] {s t : HeapRun σ}

/-- A size beyond the reach of the heap that does not wrap gets a null pointer. -/
theorem kmalloc_large {h h' : Heap σ} {bs : Blocks Unit} (hr : Represents h bs) {n ptr : Nat}
    (hn : n < 2 ^ 32) (hlarge : 2 ^ 29 < n) (hwraps : ¬ h.Wraps n)
    (hk : h.kmalloc n = some (ptr, h')) : ptr = 0 ∧ h' = { h with pages := h'.pages } := by
  have hnofit : h.fitFor n = some 0 := by
    by_contra hfit
    by_cases hround : 2 ^ 32 - 8 < n
    · exact hwraps (Or.inl ⟨hround, hfit⟩)
    · have := fitFor_le hr (not_lt.1 hround) hfit
      omega
  rcases Heap.kmalloc_cases hk with ⟨rfl, -⟩ | ⟨header, -, hne, hfind, -⟩ |
      ⟨-, -, header, hcreate, hptr⟩
  · omega
  · rw [Heap.fitFor, hfind] at hnofit
    exact absurd (Option.some.inj hnofit) hne
  rcases Heap.createHeapHeader_cases hcreate with ⟨rfl, rfl, -⟩ | ⟨source, -, rfl, rfl⟩ |
      ⟨frame, source, source', -, -, -, -, rfl, rfl⟩ |
      ⟨frame, source, source', h0, hpages, hlimit, halloc, hframe, hmap, -⟩
  · exact ⟨hptr.trans (if_pos rfl), rfl⟩
  · exact ⟨hptr.trans (if_pos rfl), rfl⟩
  · exact ⟨hptr.trans (if_pos rfl), rfl⟩
  · -- the pages were granted, so the limit test has wrapped
    have hround : n ≤ 2 ^ 32 - 8 := by
      by_contra hround
      exact h0 (alignUp_wraps hn (not_le.1 hround))
    have hbounds := alignUp_bounds hround
    refine absurd (Or.inr ⟨hround, hnofit, ?_, hpages, hlimit, frame, source, source', halloc,
      hframe, hmap⟩) hwraps
    by_contra hsum
    rw [u32_eq (not_le.1 hsum), hr.limit, kernelHeapEnd_eq] at hlimit
    have hbase := base_le_top kmallocHeaderSize kernelHeapStart bs
    have hbrk := hr.brk
    simp only [blocksEnd, kernelHeapStart, kmallocHeaderSize] at hbase hbrk hlimit
    omega

/-- What a caller may do with any size: it does not wrap, and only what is held is freed. -/
def SizedOk (s : HeapRun σ) : HeapCall → Prop
  | .kmalloc size => size < 2 ^ 32 ∧ ¬ s.heap.Wraps size
  | .kcalloc size => size < 2 ^ 32 ∧ ¬ s.heap.Wraps size
  | .kfree ptr => ptr ∈ s.pointers

omit [PageSource σ] in
/-- A call refused leaves the heap as it is, but for the page layers. -/
theorem HeapInv.refused (hi : HeapInv s) {size : Nat} {heap : Heap σ}
    (h : heap = { s.heap with pages := heap.pages }) : HeapInv (s.allocated size 0 heap) := by
  obtain ⟨bs, hr, ho⟩ := hi
  refine ⟨bs, ?_, ho⟩
  show Represents heap bs
  rw [h]
  exact hr.withPages _

/-- **Sizes that do not wrap keep the heap as it should be.** -/
theorem heapStep_sized {call : HeapCall} (hi : HeapInv s) (hok : SizedOk s call)
    (hstep : heapStep s call = some t) : HeapInv t := by
  cases call with
  | kmalloc size =>
    obtain ⟨hlt, hwraps⟩ := hok
    by_cases hsmall : size ≤ 2 ^ 29
    · exact heapStep_inv (c := .kmalloc size) hi hsmall hstep
    have ⟨bs, hr, _⟩ := hi
    obtain ⟨⟨ptr, heap⟩, hk, rfl⟩ := Option.map_eq_some_iff.1 hstep
    obtain ⟨rfl, hsame⟩ := kmalloc_large hr hlt (not_le.1 hsmall) hwraps hk
    exact HeapInv.refused hi hsame
  | kcalloc size =>
    obtain ⟨hlt, hwraps⟩ := hok
    by_cases hsmall : size ≤ 2 ^ 29
    · exact heapStep_inv (c := .kcalloc size) hi hsmall hstep
    have ⟨bs, hr, _⟩ := hi
    obtain ⟨⟨ptr, heap⟩, hk, rfl⟩ := Option.map_eq_some_iff.1 hstep
    obtain ⟨h₁, hmalloc, hcase⟩ := kcalloc_cases hk
    obtain ⟨rfl, hsame⟩ := kmalloc_large hr hlt (not_le.1 hsmall) hwraps hmalloc
    rcases hcase with ⟨-, rfl⟩ | ⟨hne, -⟩
    · exact HeapInv.refused hi hsame
    · exact absurd rfl hne
  | kfree ptr => exact heapStep_inv (c := .kfree ptr) hi hok hstep

/-- A pointer to a block of at most `2 ^ 29` bytes keeps the promise. -/
theorem honoursSize_small (hi : HeapInv s) {size ptr : Nat} {h' : Heap σ} (hs : size ≤ 2 ^ 29)
    (hk : s.heap.kmalloc size = some (ptr, h')) : HonoursSize s size ptr h' := by
  obtain ⟨bs, hr, ho⟩ := hi
  obtain ⟨grant, hr', hptr, -, hnull⟩ := hr.kmalloc () hs hk
  generalize hres : kmallocBlocks grant () bs size = r at hr' hptr
  obtain ⟨p, bs'⟩ := r
  simp only at hr' hptr
  by_cases hp : p = 0
  · subst hp
    have h0 : ptr = 0 := hptr.trans (address_zero _ _ _)
    exact ⟨hnull, fun h => absurd h0 h, fun h => absurd h0 h, fun h => absurd h0 h,
      fun h => absurd h0 h⟩
  obtain ⟨⟨b, hb, hfree, hsize⟩, hother⟩ := get_kmallocBlocks hs hres hp
  have hbounds := payload_bounds hb
  have hend := hr'.brk_le
  have hread : headerSize h'.mem (ptr - kmallocHeaderSize) = b.size := by
    rw [hptr]
    exact (hr'.headers.get hb).2
  refine ⟨hnull, fun _ => ?_, fun _ => ?_, fun _ => ⟨bs', p, b, hr', hb, hfree, hptr.symm⟩,
    fun _ q n hl => ?_⟩
  · rw [hread]
    exact (le_alignUp hs).trans hsize
  · rw [hread, hr'.base, hr'.limit, hptr]
    simp only [kmallocHeaderSize]
    omega
  · -- the blocks of the other pointers were in use before
    obtain ⟨q', c, hq, rfl, hcfree, -⟩ := ho.block q n hl
    have hne : q' ≠ p := by
      rintro rfl
      exact (live_kmallocBlocks hres hp).1 ⟨c, hq, hcfree⟩
    have hq' : get bs' q' = some c := (hother q' hne).trans hq
    have hmove : payload bs' q' = payload bs q' := payload_kmallocBlocks hres hq
    have hread' : headerSize h'.mem (payload bs q' - kmallocHeaderSize) = c.size := by
      rw [← hmove]
      exact (hr'.headers.get hq').2
    rw [hread, hread', hptr, ← hmove]
    rcases lt_or_gt_of_ne hne with hlt | hgt
    · have := address_disjoint kmallocHeaderSize kernelHeapStart hq' hb hlt
      simp only [payload] at *
      omega
    · have := address_disjoint kmallocHeaderSize kernelHeapStart hb hq' hgt
      simp only [payload] at *
      omega

/-- A size that wraps gets a pointer to less than it asked for. -/
theorem not_honoursSize_of_wraps (hi : HeapInv s) {size : Nat} (hlt : size < 2 ^ 32)
    (hwraps : s.heap.Wraps size) :
    ∃ ptr h', s.heap.kmalloc size = some (ptr, h') ∧ ¬ HonoursSize s size ptr h' := by
  obtain ⟨bs, hr, -⟩ := hi
  have hlimit := hr.limit
  -- no pointer has room for so many bytes below the limit
  have hroom : ∀ {ptr : Nat} {h' : Heap σ}, ptr ≠ 0 → h'.kernelHeapLimit = kernelHeapEnd →
      kernelHeapEnd < ptr + size → ¬ HonoursSize s size ptr h' := by
    intro ptr h' hne hend hbig hh
    have h1 := hh.room hne
    have h2 := (hh.inside hne).2
    rw [hend] at h2
    omega
  have hbrk : s.heap.kernelHeapBrk ≤ 0xD0064000 := by
    rw [hr.brk, ← kernelHeapEnd_eq]
    exact hr.brk_le
  rcases hwraps with ⟨hbig, hfit⟩ | ⟨hround, hnofit, hsum, hpages, htest, frame, source, source',
      halloc, hframe, hmap⟩
  · obtain ⟨header, hfind⟩ : ∃ header, s.heap.fitFor size = some header := ⟨_, hr.findFree _⟩
    have hheader : header ≠ 0 := by
      rintro rfl
      exact hfit hfind
    have h0 : size ≠ 0 := by omega
    refine ⟨header + kmallocHeaderSize, { s.heap with mem := write32 s.heap.mem header 0 }, ?_,
      hroom (by simp [kmallocHeaderSize]) hlimit ?_⟩
    · rw [Heap.fitFor] at hfind
      simp [Heap.kmalloc, h0, hfind, hheader]
    · rw [kernelHeapEnd_eq]
      omega
  · have hbounds := alignUp_bounds hround
    have hbrk0 := hr.brk_ne_zero
    simp only [kmallocHeaderSize] at hsum
    have hsize : alignUp size 8 ≠ 0 := by omega
    have h0 : size ≠ 0 := by omega
    rw [Heap.fitFor] at hnofit
    have hcreate : ∃ h', s.heap.createHeapHeader (alignUp size 8) =
        some (s.heap.kernelHeapBrk, h') ∧ h'.kernelHeapLimit = s.heap.kernelHeapLimit := by
      constructor
      constructor
      · simp only [Heap.createHeapHeader, hsize, hpages, or_self, if_false, not_lt.2 htest, halloc,
          hframe, hmap, Option.bind_eq_bind, Option.bind_some, Option.pure_def, Bool.true_eq_false]
        rfl
      · rfl
    obtain ⟨h', hcreate, hlim⟩ := hcreate
    refine ⟨s.heap.kernelHeapBrk + kmallocHeaderSize, h', ?_, hroom (by simp [kmallocHeaderSize])
      (hlim.trans hlimit) ?_⟩
    · simp [Heap.kmalloc, h0, hnofit, hcreate, hbrk0]
    · rw [kernelHeapEnd_eq]
      simp only [kmallocHeaderSize]
      omega

/-- **`kmalloc` keeps its promise for a size exactly if no sum wraps**, in every state that a run
from `kmalloc_init` with such sizes reaches, whatever the page layers answer. -/
theorem kmalloc_honours_iff {mem : Mem} {source : σ} {h : Heap σ}
    (hinit : kmallocInit mem source = some h) (hrun : Reachable heapStep SizedOk ⟨h, []⟩ s)
    {size : Nat} (hlt : size < 2 ^ 32) :
    (∀ ptr h', s.heap.kmalloc size = some (ptr, h') → HonoursSize s size ptr h') ↔
      ¬ s.heap.Wraps size := by
  have hi : HeapInv s := reachable_invariant
    (fun _ _ _ hi hok hstep => heapStep_sized hi hok hstep) (heapInv_kmallocInit hinit) hrun
  constructor
  · intro hall hwraps
    obtain ⟨ptr, h', hk, hnot⟩ := not_honoursSize_of_wraps hi hlt hwraps
    exact hnot (hall ptr h' hk)
  · intro hwraps ptr h' hk
    by_cases hsmall : size ≤ 2 ^ 29
    · exact honoursSize_small hi hsmall hk
    · obtain ⟨bs, hr, -⟩ := hi
      obtain ⟨rfl, hsame⟩ := kmalloc_large hr hlt (not_le.1 hsmall) hwraps hk
      exact ⟨fun _ => hsame, fun h => absurd rfl h, fun h => absurd rfl h, fun h => absurd rfl h,
        fun h => absurd rfl h⟩

/-- **The largest size**: on the heap that `kmalloc_init` leaves it is rounded up to 0, and
`kmalloc` hands out the one free page. -/
theorem kmalloc_wraps :
    ∃ ptr h', freshHeap.kmalloc (2 ^ 32 - 1) = some (ptr, h') ∧
      ¬ HonoursSize ⟨freshHeap, []⟩ (2 ^ 32 - 1) ptr h' := by
  refine ⟨_, _, rfl, fun hh => ?_⟩
  have hroom := hh.room (by decide)
  revert hroom
  decide +kernel

/-- A request of one page more than there is keeps the promise. -/
theorem kmalloc_honours_page :
    ¬ freshHeap.Wraps 5000 ∧ ∀ ptr h', freshHeap.kmalloc 5000 = some (ptr, h') →
      HonoursSize ⟨freshHeap, []⟩ 5000 ptr h' := by
  have hinit : kmallocInit (fun _ => 0) (⟨1⟩ : FreshFrames) = some freshHeap := rfl
  have hsmall : ¬ freshHeap.Wraps 5000 := by
    rintro (⟨h, -⟩ | ⟨-, -, h, -⟩)
    · exact absurd h (by decide)
    · exact absurd h (by decide +kernel)
  exact ⟨hsmall, (kmalloc_honours_iff hinit ⟨[], trivial, rfl⟩ (by decide)).2 hsmall⟩

end Runs

end DelOs
