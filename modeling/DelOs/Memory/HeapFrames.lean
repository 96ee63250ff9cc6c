import DelOs.Memory.HeapTiling
import DelOs.Memory.VmmMap

/-!
# The frames behind the heap

The heap of `Memory.Kmalloc` over the page bitmap of `Memory.Pmm` and the page tables of
`Memory.Vmm`: `kmalloc` takes frames from the bitmap and maps them at the break.  The clearing
of a new page table is taken to reach its frame (`zeroTable`); what the code does instead is
the subject of `Memory.FreshTable`.

* `Reserved` — a frame in use that is neither the directory nor a page table.
* `HeapPage` — a page that translates to a reserved frame, writable and for the kernel only.
* `FramesInv` — every page of the heap is such a page, with a frame of its own.
* `mapRange_spec` — the loop of `kvmm_map_range`, wherever it stops.
* `heap_run_frames` — **every state that a run of the heap reaches satisfies `FramesInv`**.

The bytes of the heap are those of `Heap.mem`, at their virtual addresses; the frames hold the
page tables.
-/

namespace DelOs

open ByteMem FirstFit FlagRuns Transition TwoLevel

/-! ## The page tables as the page source of the heap -/

/-- The clearing of a new page table, taken to reach its frame. -/
def zeroTable (s : Vmm) (frame : Nat) : Option Vmm := some (s.clearFrame frame)

instance : PageSource Vmm where
  kpmmAllocPages s pageCount := (s.pmm.allocPages pageCount).map fun r =>
    (r.1, { s with pmm := r.2 })
  kvmmMapPage s vaddr paddr flags := s.kvmmMapPageVia zeroTable vaddr paddr flags
  kvmmMapRange s vaddr paddr flags amount :=
    s.kvmmMapRangeVia zeroTable vaddr paddr flags amount

/-- The directory slot that the whole heap lies in. -/
def heapSlot : Nat := 832

variable {s t : Vmm}

theorem pdeIndex_heap {vaddr : Nat} (h1 : kernelHeapStart ≤ vaddr) (h2 : vaddr < kernelHeapEnd) :
    pdeIndex vaddr = heapSlot := by
  rw [kernelHeapEnd_eq] at h2
  unfold kernelHeapStart at h1
  unfold pdeIndex heapSlot
  omega

theorem clearWorks_zeroTable (hd : DirOk s) : ClearWorks zeroTable s := by
  intro f pmm hf halloc
  have hfree : s.pmm.flags[f]? = some true :=
    (Pmm.allocPages_one hd.below hf halloc).1 0 (by decide)
  have hroot : f ≠ s.cr3 := by
    rintro rfl
    exact hd.dir_used hfree
  refine ⟨_, rfl, rfl, rfl, fun k => wipe_of_ne k _ hroot.symm, ?_, ?_⟩
  · intro i _
    show (wipe s.frames f PageEntry.zero f i).present = false
    rw [wipe_self]
    rfl
  · intro page hpage
    have hslot : page / 1024 < 1023 := by
      unfold windowStart at hpage
      omega
    refine congrArg (Option.map _) (lookup_wipe hroot rfl ?_)
    intro hp hnext
    have hfr : (s.frames s.cr3 (page / 1024)).frame = f := hnext
    rw [← hfr] at hfree
    exact absurd hfree (hd.table_used _ hslot hp)

/-! ## Reserved frames -/

/-- A frame in use that is neither the directory nor one of its page tables. -/
structure Reserved (s : Vmm) (f : Nat) : Prop where
  used : s.pmm.flags[f]? = some false
  ne_dir : f ≠ s.cr3
  ne_table : ∀ k < 1023, (s.frames s.cr3 k).present = true → (s.frames s.cr3 k).frame ≠ f

/-- The slot of the heap, once there, is writable and for the kernel only. -/
def SlotOk (s : Vmm) : Prop :=
  (s.frames s.cr3 heapSlot).present = true →
    (s.frames s.cr3 heapSlot).rw = true ∧ (s.frames s.cr3 heapSlot).user = false

theorem TableStep.reserved {k flags f : Nat} (h : TableStep s t k flags) (hr : Reserved s f) :
    Reserved t f := by
  refine ⟨?_, ?_, ?_⟩
  · rw [h.used f (by rw [hr.used]; decide)]
    exact hr.used
  · rw [h.cr3]
    exact hr.ne_dir
  · intro j hj hp
    by_cases hjk : j = k
    · subst hjk
      cases hs : (s.frames s.cr3 j).present with
      | true =>
        rw [h.slot hs]
        exact hr.ne_table j hj hs
      | false =>
        -- the new table lies in a frame that was free
        rintro rfl
        have hfree := (h.fresh hs hp).1
        rw [hr.used] at hfree
        cases hfree
    · rw [h.slots j hjk] at hp ⊢
      exact hr.ne_table j hj hp

theorem TableStep.slotOk (h : TableStep s t heapSlot kvmmFlagPresentRw) (hs : SlotOk s) :
    SlotOk t := by
  intro hp
  cases hsp : (s.frames s.cr3 heapSlot).present with
  | true =>
    rw [h.slot hsp]
    exact hs hsp
  | false =>
    obtain ⟨-, hrw, huser⟩ := h.fresh hsp hp
    exact ⟨hrw, huser⟩

/-- A page that translates to a reserved frame, writable and for the kernel only. -/
def HeapPage (s : Vmm) (page f : Nat) : Prop :=
  s.translate page = some ⟨f, true, false, true, false⟩ ∧ Reserved s f

/-- Mapping a page of the heap, at a reserved frame. -/
theorem MapStep.heapPage {ok : Bool} {vaddr f page g : Nat}
    (h : MapStep s t ok vaddr (f * kpmmPageSize) kvmmFlagPresentRw) (hp : HeapPage s page g)
    (hpage : page < windowStart) : HeapPage t page g := by
  refine ⟨?_, h.table.reserved hp.2⟩
  cases ok with
  | false => exact (h.refused rfl page hpage).trans hp.1
  | true =>
    obtain ⟨-, -, hwas, hmap⟩ := h.mapped rfl
    rw [hmap page hpage, if_neg]
    · exact hp.1
    · rintro rfl
      rw [hp.1] at hwas
      cases hwas

theorem MapStep.newHeapPage {vaddr f : Nat}
    (h : MapStep s t true vaddr (f * kpmmPageSize) kvmmFlagPresentRw) (hs : SlotOk s)
    (hslot : pdeIndex vaddr = heapSlot) (hpage : vaddr / 4096 < windowStart)
    (hf : Reserved s f) : HeapPage t (vaddr / 4096) f := by
  obtain ⟨-, hpres, -, hmap⟩ := h.mapped rfl
  have htable := h.table
  rw [hslot] at htable hpres
  obtain ⟨hrw, huser⟩ := htable.slotOk hs hpres
  refine ⟨?_, h.table.reserved hf⟩
  rw [hmap _ hpage, if_pos rfl]
  simp only [newTranslation, hslot, hrw, huser, Nat.mul_div_cancel f (by decide : 0 < kpmmPageSize)]
  rfl

/-! ## Taking frames -/

/-- Taking frames from the bitmap keeps the tables and reserves what was taken. -/
theorem reserved_allocPages (hd : DirOk s) {n p : Nat} {pmm : Pmm}
    (halloc : s.pmm.allocPages n = some (p, pmm)) :
    DirOk { s with pmm := pmm } ∧
      (∀ f, Reserved s f → Reserved { s with pmm := pmm } f) ∧
      (p ≠ 0 → ∃ a, p = a * kpmmPageSize ∧ a + n ≤ 2 ^ 20 ∧ ∀ j < n,
        Reserved { s with pmm := pmm } (a + j) ∧ s.pmm.flags[a + j]? = some true) := by
  obtain ⟨hbelow, hkeep, htaken⟩ := Pmm.allocPages_takes hd.below halloc
  refine ⟨?_, ?_, ?_⟩
  · refine hd.congr rfl (fun _ => rfl) hbelow ?_
    intro x hx
    exact (hkeep x hx).trans_ne hx
  · intro f hf
    refine ⟨?_, hf.ne_dir, hf.ne_table⟩
    exact (hkeep f (by rw [hf.used]; decide)).trans hf.used
  · intro hp
    obtain ⟨a, hpa, -, ha, hrun⟩ := htaken hp
    refine ⟨a, hpa, ha, ?_⟩
    intro j hj
    obtain ⟨hfree, hused⟩ := hrun j hj
    refine ⟨⟨hused, ?_, ?_⟩, hfree⟩
    · intro hdir
      rw [hdir] at hfree
      exact hd.dir_used hfree
    · intro k hk hp hkf
      rw [← hkf] at hfree
      exact hd.table_used k hk hp hfree

/-! ## The loop of `kvmm_map_range` -/

/-- What mapping pages of the heap keeps: well-formed tables, reserved frames, and the pages of
the heap that are there. -/
structure HeapKept (s t : Vmm) : Prop where
  dirOk : DirOk t
  slotOk : SlotOk t
  reserved : ∀ f, Reserved s f → Reserved t f
  pages : ∀ page < windowStart, ∀ f, HeapPage s page f → HeapPage t page f

theorem HeapKept.trans {r : Vmm} (h₁ : HeapKept r s) (h₂ : HeapKept s t) : HeapKept r t :=
  ⟨h₂.dirOk, h₂.slotOk, fun f hf => h₂.reserved f (h₁.reserved f hf),
    fun page hp f hf => h₂.pages page hp f (h₁.pages page hp f hf)⟩

/-- One page of the heap. -/
theorem kvmmMapPageVia_heap (hd : DirOk s) (hs : SlotOk s) {vaddr f : Nat} {ok : Bool}
    (h1 : kernelHeapStart ≤ vaddr) (h2 : vaddr < kernelHeapEnd) (hf : Reserved s f)
    (h : s.kvmmMapPageVia zeroTable vaddr (f * kpmmPageSize) kvmmFlagPresentRw = some (ok, t)) :
    HeapKept s t ∧ (ok = true → HeapPage t (vaddr / 4096) f) := by
  have hslot := pdeIndex_heap h1 h2
  rw [kernelHeapEnd_eq] at h2
  have hv : vaddr < windowStart * 4096 := by
    unfold windowStart
    omega
  have hflags : hasFlag kvmmFlagPresentRw flagPresent = true := by decide
  rcases kvmmMapPageVia_spec hd (f * kpmmPageSize) hv hflags
      (fun _ _ _ => clearWorks_zeroTable hd) with ⟨hnone, -, -⟩ | ⟨ok', t', h', hstep⟩
  · rw [hnone] at h
    cases h
  rw [h'] at h
  cases h
  have htable := hstep.table
  rw [hslot] at htable
  refine ⟨⟨htable.dirOk, htable.slotOk hs, fun g hg => htable.reserved hg,
    fun page hp g hg => hstep.heapPage hg hp⟩, ?_⟩
  intro hok
  subst hok
  exact hstep.newHeapPage hs hslot (by omega) hf

/-- The loop, wherever it stops: the pages mapped so far stay mapped. -/
theorem mapPages_heap {vaddr a i left : Nat} {ok : Bool} (hd : DirOk s) (hs : SlotOk s)
    (h1 : kernelHeapStart ≤ vaddr) (h2 : vaddr + kpmmPageSize * (i + left) ≤ kernelHeapEnd)
    (ha : a + (i + left) ≤ 2 ^ 20)
    (hres : ∀ j, i ≤ j → j < i + left → Reserved s (a + j))
    (h : Vmm.mapPages zeroTable vaddr (a * kpmmPageSize) kvmmFlagPresentRw s i left =
      some (ok, t)) :
    HeapKept s t ∧ (ok = true → ∀ j, i ≤ j → j < i + left →
      HeapPage t (vaddr / 4096 + j) (a + j)) := by
  induction left generalizing s i with
  | zero =>
    cases h
    exact ⟨⟨hd, hs, fun _ hf => hf, fun _ _ _ hp => hp⟩, fun _ j hj1 hj2 => by omega⟩
  | succ left ih =>
    have hend : vaddr + kpmmPageSize * i < kernelHeapEnd := by
      simp only [kpmmPageSize] at h2 ⊢
      omega
    have hlt := kernelHeapEnd_eq
    rw [Vmm.mapPages_succ _ _ _ _ (by omega) (by omega)] at h
    obtain ⟨⟨ok₁, s₁⟩, hone, h⟩ := Option.bind_eq_some_iff.1 h
    obtain ⟨hkept, hnew⟩ := kvmmMapPageVia_heap hd hs (by omega) hend
      (hres i le_rfl (by omega)) hone
    cases ok₁ with
    | false =>
      cases h
      exact ⟨hkept, fun hc => by cases hc⟩
    | true =>
      have hpage : (vaddr + kpmmPageSize * i) / 4096 = vaddr / 4096 + i := by
        simp only [kpmmPageSize]
        omega
      obtain ⟨hkept', hall⟩ := ih hkept.dirOk hkept.slotOk
        (by rw [show i + 1 + left = i + (left + 1) by omega]; exact h2) (by omega)
        (fun j hj1 hj2 => hkept.reserved _ (hres j (by omega) (by omega))) h
      refine ⟨hkept.trans hkept', ?_⟩
      intro hok j hj1 hj2
      by_cases hj : j = i
      · subst hj
        refine hkept'.pages _ ?_ _ (hpage ▸ hnew rfl)
        unfold windowStart
        simp only [kpmmPageSize] at hend
        omega
      · exact hall hok j (by omega) (by omega)

/-! ## The heap -/

/-- The first `n` pages of the heap are backed, each by a frame of its own. -/
structure Backed (s : Vmm) (n : Nat) (frame : Nat → Nat) : Prop where
  page : ∀ i < n, HeapPage s (kernelHeapStart / 4096 + i) (frame i)
  injective : ∀ i < n, ∀ j < n, frame i = frame j → i = j

/-- The number of pages below the break. -/
def Heap.pageCount (h : Heap Vmm) : Nat := (h.kernelHeapBrk - h.kernelHeapBase) / 4096

/-- The page tables are well formed, and every page of the heap is backed by a frame of its
own. -/
structure FramesInv (h : Heap Vmm) : Prop where
  dirOk : DirOk h.pages
  slotOk : SlotOk h.pages
  backed : ∃ frame, Backed h.pages h.pageCount frame

variable {h h' : Heap Vmm}

theorem Backed.kept {n : Nat} {frame : Nat → Nat} (hb : Backed s n frame) (hk : HeapKept s t)
    (hn : kernelHeapStart / 4096 + n ≤ windowStart) : Backed t n frame := by
  refine ⟨?_, hb.injective⟩
  intro i hi
  exact hk.pages _ (by omega) _ (hb.page i hi)

/-- Growing the heap by pages whose frames were free. -/
theorem Backed.grow {n m a : Nat} {frame : Nat → Nat} (hb : Backed s m frame)
    (hkept : Backed t m frame)
    (hnew : ∀ j < n, HeapPage t (kernelHeapStart / 4096 + (m + j)) (a + j))
    (hfree : ∀ j < n, s.pmm.flags[a + j]? = some true) :
    Backed t (m + n) (fun i => if i < m then frame i else a + (i - m)) := by
  -- an old frame was used when the new ones were free
  have hne : ∀ i < m, ∀ j < n, frame i ≠ a + j := by
    intro i hi j hj heq
    have hused := (hb.page i hi).2.used
    rw [heq, hfree j hj] at hused
    cases hused
  constructor
  · intro i hi
    by_cases him : i < m
    · simp only [if_pos him]
      exact hkept.page i him
    · simp only [if_neg him]
      have hpage := hnew (i - m) (by omega)
      rw [show m + (i - m) = i by omega] at hpage
      exact hpage
  · intro i hi j hj heq
    by_cases him : i < m <;> by_cases hjm : j < m <;> simp only [him, hjm, if_true, if_false] at heq
    · exact hb.injective i him j hjm heq
    · exact absurd heq (hne i him (j - m) (by omega))
    · exact absurd heq.symm (hne j hjm (i - m) (by omega))
    · omega

/-- The break is `pageCount` pages above the base. -/
theorem pageCount_eq {α : Type} {bs : Blocks α} (hr : Represents h bs) :
    h.kernelHeapBrk = kernelHeapStart + 4096 * h.pageCount := by
  have hmod := (blocksEnd_mod hr.whole).1
  have hle := base_le_top kmallocHeaderSize kernelHeapStart bs
  unfold Heap.pageCount
  rw [hr.base, hr.brk]
  simp only [blocksEnd, kmallocPageSize, kernelHeapStart] at *
  omega

/-- Taking frames alone. -/
theorem kpmmAllocPages_heap (hd : DirOk s) (hs : SlotOk s) {n p : Nat}
    (halloc : PageSource.kpmmAllocPages s n = some (p, t)) :
    HeapKept s t ∧ (p ≠ 0 → ∃ a, p = a * kpmmPageSize ∧ a + n ≤ 2 ^ 20 ∧
      ∀ j < n, Reserved t (a + j) ∧ s.pmm.flags[a + j]? = some true) := by
  obtain ⟨⟨p', pmm⟩, ha, heq⟩ := Option.map_eq_some_iff.1 halloc
  cases heq
  obtain ⟨hd', hres, hnew⟩ := reserved_allocPages hd ha
  exact ⟨⟨hd', hs, hres, fun page _ f hf => ⟨hf.1, hres f hf.2⟩⟩, hnew⟩

/-- Taking frames and mapping them at the break, whether or not the mapping goes through. -/
theorem kvmmMapRange_heap {α : Type} {bs : Blocks α} (hi : FramesInv h) (hr : Represents h bs)
    {n p : Nat} {ok : Bool} {source source' : Vmm}
    (hroom : h.kernelHeapBrk + kmallocPageSize * n ≤ kernelHeapEnd)
    (halloc : PageSource.kpmmAllocPages h.pages n = some (p, source)) (hp : p ≠ 0)
    (hmap : PageSource.kvmmMapRange source h.kernelHeapBrk p kvmmFlagPresentRw n =
      some (ok, source')) :
    HeapKept h.pages source' ∧ (ok = true → ∃ a, ∀ j < n,
      HeapPage source' (kernelHeapStart / 4096 + (h.pageCount + j)) (a + j) ∧
      h.pages.pmm.flags[a + j]? = some true) := by
  obtain ⟨hkept, hnew⟩ := kpmmAllocPages_heap hi.dirOk hi.slotOk halloc
  obtain ⟨a, rfl, ha, hframes⟩ := hnew hp
  have hcount := pageCount_eq hr
  have hal : ¬ (h.kernelHeapBrk % 4096 ≠ 0 ∨ a * kpmmPageSize % 4096 ≠ 0) := by
    simp only [kernelHeapStart, kpmmPageSize] at *
    omega
  have hloop : Vmm.mapPages zeroTable h.kernelHeapBrk (a * kpmmPageSize) kvmmFlagPresentRw
      source 0 n = some (ok, source') := by
    have hunfold : source.kvmmMapRangeVia zeroTable h.kernelHeapBrk (a * kpmmPageSize)
        kvmmFlagPresentRw n = some (ok, source') := hmap
    rwa [Vmm.kvmmMapRangeVia, if_neg hal] at hunfold
  obtain ⟨hkept', hpages⟩ := mapPages_heap hkept.dirOk hkept.slotOk (by omega)
    (by rw [Nat.zero_add]; exact hroom) (by omega)
    (fun j _ hj => (hframes j (by omega)).1) hloop
  refine ⟨hkept.trans hkept', ?_⟩
  intro hok
  refine ⟨a, ?_⟩
  intro j hj
  have hpage := hpages hok j (Nat.zero_le j) (by omega)
  rw [show h.kernelHeapBrk / 4096 + j = kernelHeapStart / 4096 + (h.pageCount + j) by
    rw [hcount]; omega] at hpage
  exact ⟨hpage, (hframes j hj).2⟩

theorem FramesInv.createHeapHeader {α : Type} {bs : Blocks α} (hi : FramesInv h)
    (hr : Represents h bs) {size header : Nat} (hs : size ≤ 2 ^ 29)
    (hk : h.createHeapHeader size = some (header, h')) : FramesInv h' := by
  obtain ⟨frame, hb⟩ := hi.backed
  have hcount := pageCount_eq hr
  have hbrkle := hr.brk_le
  rw [← hr.brk, kernelHeapEnd_eq] at hbrkle
  have hwindow : kernelHeapStart / 4096 + h.pageCount ≤ windowStart := by
    simp only [windowStart, kernelHeapStart] at *
    omega
  rcases Heap.createHeapHeader_cases hk with ⟨-, rfl, -⟩ | ⟨source, ha, -, rfl⟩ |
      ⟨p, source, source', hlimit, ha, hp, hm, -, rfl⟩ |
      ⟨p, source, source', -, -, hlimit, ha, hp, hm, -, rfl⟩
  · exact hi
  · obtain ⟨hkept, -⟩ := kpmmAllocPages_heap hi.dirOk hi.slotOk ha
    exact ⟨hkept.dirOk, hkept.slotOk, frame, hb.kept hkept hwindow⟩
  · have hroom := hr.room hs hlimit
    rw [← hr.brk] at hroom
    obtain ⟨hkept, -⟩ := kvmmMapRange_heap hi hr hroom ha hp hm
    exact ⟨hkept.dirOk, hkept.slotOk, frame, hb.kept hkept hwindow⟩
  · have hroom := hr.room hs hlimit
    rw [← hr.brk] at hroom
    obtain ⟨hkept, hnew⟩ := kvmmMapRange_heap hi hr hroom ha hp hm
    obtain ⟨a, hpages⟩ := hnew rfl
    have hgrow := hb.grow (hb.kept hkept hwindow) (fun j hj => (hpages j hj).1)
      (fun j hj => (hpages j hj).2)
    have hbrk : u32 (h.kernelHeapBrk + kmallocPageSize * pagesToGet size) =
        h.kernelHeapBrk + kmallocPageSize * pagesToGet size :=
      u32_eq (by rw [kernelHeapEnd_eq] at hroom; omega)
    have hpc : (u32 (h.kernelHeapBrk + kmallocPageSize * pagesToGet size) - h.kernelHeapBase) /
        4096 = h.pageCount + pagesToGet size := by
      rw [hbrk, hr.base, hcount]
      simp only [kmallocPageSize]
      omega
    rw [← hpc] at hgrow
    exact ⟨hkept.dirOk, hkept.slotOk, _, hgrow⟩

theorem FramesInv.kmalloc {α : Type} {bs : Blocks α} (hi : FramesInv h) (hr : Represents h bs)
    {size ptr : Nat} (hs : size ≤ 2 ^ 29) (hk : h.kmalloc size = some (ptr, h')) :
    FramesInv h' := by
  rcases Heap.kmalloc_cases hk with ⟨-, -, rfl⟩ | ⟨header, -, -, -, -, rfl⟩ |
      ⟨-, -, header, hcreate, -⟩
  · exact hi
  · exact ⟨hi.dirOk, hi.slotOk, hi.backed⟩
  · exact hi.createHeapHeader hr (alignUp_le hs) hcreate

/-- **Every call keeps the pages of the heap backed.** -/
theorem heapStep_framesInv {s t : HeapRun Vmm} {call : HeapCall} (hi : HeapInv s)
    (hf : FramesInv s.heap) (hok : HeapOk s call) (hstep : heapStep s call = some t) :
    FramesInv t.heap := by
  obtain ⟨bs, hr, -⟩ := hi
  cases call with
  | kmalloc size =>
    obtain ⟨⟨ptr, heap⟩, hk, rfl⟩ := Option.map_eq_some_iff.1 hstep
    exact hf.kmalloc hr hok hk
  | kcalloc size =>
    obtain ⟨⟨ptr, heap⟩, hk, rfl⟩ := Option.map_eq_some_iff.1 hstep
    obtain ⟨h₁, hmalloc, hcase⟩ := kcalloc_cases hk
    have h₁inv := hf.kmalloc hr hok hmalloc
    rcases hcase with ⟨-, rfl⟩ | ⟨-, rfl⟩
    · exact h₁inv
    · exact ⟨h₁inv.dirOk, h₁inv.slotOk, h₁inv.backed⟩
  | kfree ptr =>
    obtain rfl := Option.some.inj hstep
    show FramesInv (s.heap.kfree ptr).2
    unfold Heap.kfree
    dsimp only
    split_ifs
    · exact hf
    · exact hf
    · exact ⟨hf.dirOk, hf.slotOk, hf.backed⟩

theorem framesInv_kmallocInit {mem : Mem} {start : Vmm} (hd : DirOk start) (hs : SlotOk start)
    (hinit : kmallocInit mem start = some h) : FramesInv h := by
  obtain ⟨p, source, source', halloc, hp, hmap, rfl⟩ := kmallocInit_some hinit
  obtain ⟨hkept, hnew⟩ := kpmmAllocPages_heap hd hs halloc
  obtain ⟨a, rfl, -, hframes⟩ := hnew hp
  obtain ⟨hkept', hpage⟩ := kvmmMapPageVia_heap hkept.dirOk hkept.slotOk le_rfl
    (by rw [kernelHeapEnd_eq]; decide) (hframes 0 (by decide)).1 hmap
  have hone : ∀ i < (kernelHeapStart + kmallocPageSize - kernelHeapStart) / 4096, i = 0 := by
    intro i hi
    rw [Nat.add_sub_cancel_left, kmallocPageSize] at hi
    omega
  refine ⟨hkept'.dirOk, hkept'.slotOk, fun _ => a + 0, ?_, ?_⟩
  · intro i hi
    obtain rfl : i = 0 := hone i hi
    exact hpage rfl
  · intro i hi j hj _
    rw [hone i hi, hone j hj]

/-- **The frames behind the heap over whole runs.**  In every state that a run from
`kmalloc_init` reaches, every page below the break translates to a frame that is present,
writable and for the kernel only, in use in the bitmap, and neither the directory nor a page
table; and distinct pages have distinct frames. -/
theorem heap_run_frames {mem : Mem} {start : Vmm} {s : HeapRun Vmm} (hd : DirOk start)
    (hs : SlotOk start) (hinit : kmallocInit mem start = some h)
    (hrun : Reachable heapStep HeapOk ⟨h, []⟩ s) :
    FramesInv s.heap ∧
      s.heap.kernelHeapBrk = s.heap.kernelHeapBase + 4096 * s.heap.pageCount := by
  have hkeep : ∀ (r : HeapRun Vmm) call t, (HeapInv r ∧ FramesInv r.heap) → HeapOk r call →
      heapStep r call = some t → HeapInv t ∧ FramesInv t.heap := by
    rintro r call t ⟨hi, hf⟩ hok hstep
    exact ⟨heapStep_inv hi hok hstep, heapStep_framesInv hi hf hok hstep⟩
  have hboth : HeapInv s ∧ FramesInv s.heap :=
    reachable_invariant hkeep ⟨heapInv_kmallocInit hinit, framesInv_kmallocInit hd hs hinit⟩ hrun
  obtain ⟨⟨bs, hr, -⟩, hf⟩ := hboth
  exact ⟨hf, by rw [hr.base]; exact pageCount_eq hr⟩

/-- A directory in frame 2 with the kernel's own 4 MiB in slot 768, as `kvmm_init` leaves it,
and frames from 4 on free. -/
def bootDir : Vmm where
  frames f i :=
    if f = 2 ∧ i = 768 then ⟨true, true, false, 0, 3⟩
    else if f = 2 ∧ i = 1023 then ⟨true, true, false, 0, 2⟩
    else if f = 3 ∧ i < 1024 then ⟨true, true, false, 0, i⟩
    else PageEntry.zero
  cr3 := 2
  pmm := ⟨[0x0F#8, 0x00#8, 0x00#8], 20⟩

theorem bootDir_slots {k : Nat} (hk : k < 1023)
    (hp : (bootDir.frames bootDir.cr3 k).present = true) :
    k = 768 ∧ (bootDir.frames bootDir.cr3 k).frame = 3 := by
  by_cases h1 : k = 768
  · exact ⟨h1, by rw [h1]; rfl⟩
  · simp [bootDir, h1, show k ≠ 1023 by omega, PageEntry.zero] at hp

theorem dirOk_bootDir : DirOk bootDir := by
  refine ⟨⟨rfl, rfl⟩, ⟨?_, ?_⟩, Pmm.below4G_of_length (by decide), by decide +kernel, ?_⟩
  · intro k hk hp
    exact (bootDir_slots hk hp).2.trans_ne (by decide)
  · intro j k hj hk hpj hpk _
    rw [(bootDir_slots hj hpj).1, (bootDir_slots hk hpk).1]
  · intro k hk hp
    rw [(bootDir_slots hk hp).2]
    decide +kernel

/-- The heap `kmalloc_init` leaves there. -/
def bootHeap : Heap Vmm := (kmallocInit (fun _ => 0) bootDir).get (by decide +kernel)

/-- A run over these tables that grows the heap by two pages. -/
theorem heap_run_frames_grow :
    ∃ s, run heapStep ⟨bootHeap, []⟩ [.kmalloc 100, .kmalloc 5000, .kfree 0xD000000C] = some s ∧
      s.heap.pageCount = 3 ∧ FramesInv s.heap := by
  have hinit : kmallocInit (fun _ => 0) bootDir = some bootHeap := (Option.some_get _).symm
  have hslot : SlotOk bootDir := by
    intro hp
    exact absurd hp (by decide +kernel)
  have hadm : Admissible heapStep HeapOk ⟨bootHeap, []⟩
      [.kmalloc 100, .kmalloc 5000, .kfree 0xD000000C] := by
    decide +kernel
  have hsome : (run heapStep ⟨bootHeap, []⟩
      [.kmalloc 100, .kmalloc 5000, .kfree 0xD000000C]).isSome = true := by
    decide +kernel
  obtain ⟨s, hs⟩ := Option.isSome_iff_exists.1 hsome
  have hcount : (run heapStep ⟨bootHeap, []⟩
      [.kmalloc 100, .kmalloc 5000, .kfree 0xD000000C]).map (fun s => s.heap.pageCount) =
      some 3 := by
    decide +kernel
  rw [hs] at hcount
  exact ⟨s, hs, Option.some.inj hcount,
    (heap_run_frames dirOk_bootDir hslot hinit ⟨_, hadm, hs⟩).1⟩

end DelOs
