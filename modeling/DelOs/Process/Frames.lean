import DelOs.Memory.KernelPages
import DelOs.Process.Confinement

/-!
# The frames of processes

Runs of `kprocess_create_user` and `kmalloc` over the page bitmap and the page tables as they
are coded, the clearing of a new table included, which may reach another frame.

* `KernelRun` — the heap, the tables, and for each process created the frames it was given.
* `Role`, `Vmm.roleFrame` — what a process uses a frame for, read off its directory.
* `FramesOwned` — every frame of a process is in use, by it alone and for one purpose.
* `process_frames_disjoint` — **every state that a run reaches is `FramesOwned`**.

The bytes of the heap may be anything at any call (`KernelCall.write`): a process may have written
them, or the clearing of a table.
-/

namespace DelOs

open Attempt ByteMem Transition TwoLevel

/-! ## The system -/

/-- What a process uses a frame for. -/
inductive Role where
  | directory
  | table (slot : Nat)
  | stack (i : Nat)
  deriving DecidableEq, Repr

/-- The frame that the directory in frame `dir` uses in a role.  A table is private if the
kernel's directory does not name it in the same slot. -/
def Vmm.roleFrame (t : Vmm) (dir : Nat) : Role → Option Nat
  | .directory => some dir
  | .table k =>
      let e := t.frames dir k
      let shared := t.frames t.cr3 k
      if k < 1024 ∧ e.present = true ∧ e.frame ≠ dir ∧
          ¬ (shared.present = true ∧ shared.frame = e.frame) then some e.frame
      else none
  | .stack i =>
      if i < kprocessUserStackPageCount then
        (t.inDirectory dir).walk (pageOf kprocessUserStackBottom + i)
      else none

/-- The heap with its page tables, and the frames of the processes created so far, as their
directories named them when they were created. -/
structure KernelRun where
  heap : Heap KernelPages
  processes : List (Role → Option Nat)

def KernelRun.vmm (s : KernelRun) : Vmm := s.heap.pages.vmm

/-- The frame of a process in a role. -/
def KernelRun.frameOf (s : KernelRun) (i : Nat) (r : Role) : Option Nat :=
  s.processes[i]?.bind fun frames => frames r

/-- The calls. -/
inductive KernelCall where
  | kmalloc (size : Nat)
  | create (process : UserProcess) (entry : Nat)
  | write (mem : Mem)

/-- One call; no result is a page fault or a kernel panic. -/
def kernelStep (img : KernelImage) (s : KernelRun) : KernelCall → Option KernelRun
  | .kmalloc size => (s.heap.kmalloc size).map fun r => { s with heap := r.2 }
  | .create process entry =>
      (outcome (kprocessCreateUser img process entry) s.vmm).map fun r =>
        { heap := { s.heap with pages := ⟨r.2⟩ }
          processes := match r.1 with
            | some out => s.processes ++ [r.2.roleFrame out.directory]
            | none => s.processes }
  | .write mem => some { s with heap := { s.heap with mem := mem } }

/-- A request of at most `2 ^ 29` bytes, an entry that is a 32-bit address. -/
def KernelCallOk (_ : KernelRun) : KernelCall → Prop
  | .kmalloc size => size ≤ 2 ^ 29
  | .create _ entry => entry < 2 ^ 32
  | .write _ => True

/-- A page of the heap. -/
def HeapRange (s : KernelRun) (page : Nat) : Prop :=
  kernelHeapStart / 4096 ≤ page ∧ page < s.heap.kernelHeapBrk / 4096

/-! ## The invariant -/

/-- The heap variables are in order, and the heap has its table. -/
structure HeapOrdered (h : Heap KernelPages) : Prop where
  limit : h.kernelHeapLimit = kernelHeapEnd
  low : kernelHeapStart ≤ h.kernelHeapBrk
  high : h.kernelHeapBrk ≤ kernelHeapEnd
  whole : h.kernelHeapBrk % 4096 = 0
  slot : (h.pages.vmm.frames h.pages.vmm.cr3 heapSlot).present = true

/-- Every frame of a process is in use, is not one of the kernel's tables, does not back the
heap, and has one owner and one role. -/
structure FramesOwned (s : KernelRun) : Prop where
  dirOk : DirOk s.vmm
  heap : HeapOrdered s.heap
  backing : ∀ page f, HeapRange s page → s.vmm.walk page = some f →
    s.vmm.pmm.flags[f]? ≠ some true
  reserved : ∀ i r f, s.frameOf i r = some f → Reserved s.vmm f
  apart : ∀ i r f, s.frameOf i r = some f → ∀ page, HeapRange s page → s.vmm.walk page ≠ some f
  single : ∀ i j r r' f, s.frameOf i r = some f → s.frameOf j r' = some f → i = j ∧ r = r'

/-! ## Mapping pages of the heap -/

section Mapping

variable {s t : Vmm}

/-- One page, in a slot that has its table. -/
theorem kvmmMapPage_walk (hd : DirOk s) {vaddr f : Nat} {ok : Bool}
    (h1 : kernelHeapStart ≤ vaddr) (h2 : vaddr < kernelHeapEnd)
    (hslot : (s.frames s.cr3 heapSlot).present = true)
    (h : s.kvmmMapPage vaddr (f * kpmmPageSize) kvmmFlagPresentRw = some (ok, t)) :
    TableStep s t heapSlot kvmmFlagPresentRw ∧
      (∀ page < windowStart, page ≠ vaddr / 4096 → t.walk page = s.walk page) ∧
      (ok = true → t.walk (vaddr / 4096) = some f) := by
  have hpde := pdeIndex_heap h1 h2
  rw [kernelHeapEnd_eq] at h2
  have hv : vaddr < windowStart * 4096 := by
    unfold windowStart
    omega
  rcases @kvmmMapPageVia_spec s Vmm.clearFreshTable hd _ _ (f * kpmmPageSize) hv
      (by decide : hasFlag kvmmFlagPresentRw flagPresent = true) (fun _ _ habsent => by
        rw [hpde, hslot] at habsent
        cases habsent) with ⟨-, habsent, -⟩ | ⟨ok', t', h', hstep⟩
  · rw [hpde, hslot] at habsent
    cases habsent
  obtain ⟨rfl, rfl⟩ := Prod.mk.inj (Option.some.inj (h'.symm.trans h))
  have htable := hstep.table
  rw [hpde] at htable
  refine ⟨htable, ?_, ?_⟩
  · intro page hpage hne
    rw [walk_eq_translate, walk_eq_translate]
    cases ok' with
    | false => rw [hstep.refused rfl page hpage]
    | true =>
      obtain ⟨-, -, -, hmap⟩ := hstep.mapped rfl
      rw [hmap page hpage, if_neg hne]
  · rintro rfl
    obtain ⟨-, -, -, hmap⟩ := hstep.mapped rfl
    rw [walk_eq_translate, hmap _ (by omega), if_pos rfl]
    exact congrArg some (Nat.mul_div_cancel f (by decide))

/-- The loop of `kvmm_map_range` over pages of the heap, wherever it stops. -/
theorem mapPages_walk {vaddr a i left : Nat} {ok : Bool} (hd : DirOk s)
    (hslot : (s.frames s.cr3 heapSlot).present = true)
    (h1 : kernelHeapStart ≤ vaddr) (h2 : vaddr + kpmmPageSize * (i + left) ≤ kernelHeapEnd)
    (ha : a + (i + left) ≤ 2 ^ 20)
    (h : Vmm.mapPages Vmm.clearFreshTable vaddr (a * kpmmPageSize) kvmmFlagPresentRw s i left =
      some (ok, t)) :
    TableStep s t heapSlot kvmmFlagPresentRw ∧
      (∀ page < windowStart, page < vaddr / 4096 + i → t.walk page = s.walk page) ∧
      (ok = true → ∀ j, i ≤ j → j < i + left → t.walk (vaddr / 4096 + j) = some (a + j)) := by
  induction left generalizing s i with
  | zero =>
    cases h
    exact ⟨.refl hd _ _, fun _ _ _ => rfl, fun _ j hj1 hj2 => by omega⟩
  | succ left ih =>
    have hend : vaddr + kpmmPageSize * i < kernelHeapEnd := by
      simp only [kpmmPageSize] at h2 ⊢
      omega
    have hlt := kernelHeapEnd_eq
    have hpage : (vaddr + kpmmPageSize * i) / 4096 = vaddr / 4096 + i := by
      simp only [kpmmPageSize]
      omega
    rw [Vmm.mapPages_succ _ _ _ _ (by omega) (by omega)] at h
    obtain ⟨⟨ok₁, s₁⟩, hone, h⟩ := Option.bind_eq_some_iff.1 h
    obtain ⟨hstep, hothers, hnew⟩ := kvmmMapPage_walk hd (by omega) hend hslot hone
    rw [hpage] at hothers hnew
    cases ok₁ with
    | false =>
      cases h
      exact ⟨hstep, fun page hp hlt => hothers page hp (by omega), fun hc => by cases hc⟩
    | true =>
      have hslot₁ : (s₁.frames s₁.cr3 heapSlot).present = true := hstep.slot hslot ▸ hslot
      obtain ⟨hstep', hothers', hnew'⟩ := ih hstep.dirOk hslot₁
        (by rw [show i + 1 + left = i + (left + 1) by omega]; exact h2) (by omega) h
      refine ⟨hstep.trans hstep', ?_, ?_⟩
      · intro page hp hlt
        rw [hothers' page hp (by omega), hothers page hp (by omega)]
      · intro hok j hj1 hj2
        by_cases hj : j = i
        · subst hj
          rw [hothers' _ ?_ (by omega), hnew rfl]
          unfold windowStart
          simp only [kpmmPageSize] at hend
          omega
        · exact hnew' hok j (by omega) (by omega)

end Mapping

/-! ## The heap over these tables -/

section Heap

variable {h h' : Heap KernelPages}

/-- What growing the heap does: the pages below the break stay where they are, and those above
it lie in frames that were free. -/
structure HeapGrows (h h' : Heap KernelPages) : Prop where
  table : TableStep h.pages.vmm h'.pages.vmm heapSlot kvmmFlagPresentRw
  ordered : HeapOrdered h'
  kept : ∀ page < h.kernelHeapBrk / 4096, h'.pages.vmm.walk page = h.pages.vmm.walk page
  grown : ∀ page, h.kernelHeapBrk / 4096 ≤ page → page < h'.kernelHeapBrk / 4096 →
    ∃ f, h'.pages.vmm.walk page = some f ∧ h.pages.vmm.pmm.flags[f]? = some true ∧
      Reserved h'.pages.vmm f

theorem HeapGrows.refl (hd : DirOk h.pages.vmm) (ho : HeapOrdered h) : HeapGrows h h :=
  ⟨.refl hd _ _, ho, fun _ _ => rfl, fun page h1 h2 => absurd h2 (by omega)⟩

/-- The answer of `kpmm_alloc_pages`. -/
theorem kpmmAllocPages_pages {s t : KernelPages} {n p : Nat} (hd : DirOk s.vmm)
    (halloc : PageSource.kpmmAllocPages s n = some (p, t)) :
    TableStep s.vmm t.vmm heapSlot kvmmFlagPresentRw ∧ t.vmm.frames = s.vmm.frames ∧
      t.vmm.cr3 = s.vmm.cr3 ∧ (p ≠ 0 → ∃ a, p = a * kpmmPageSize ∧ a + n ≤ 2 ^ 20 ∧
        ∀ j < n, Reserved t.vmm (a + j) ∧ s.vmm.pmm.flags[a + j]? = some true) := by
  obtain ⟨⟨p', v⟩, hv, heq⟩ := Option.map_eq_some_iff.1 halloc
  obtain ⟨⟨p'', pmm⟩, hpmm, heq'⟩ := Option.map_eq_some_iff.1 hv
  cases heq'
  cases heq
  exact ⟨tableStep_allocPages hd hpmm, rfl, rfl, (reserved_allocPages hd hpmm).2.2⟩

/-- `kvmm_map_range` over pages of the heap. -/
theorem kvmmMapRange_pages {s t : KernelPages} {vaddr a n : Nat} {ok : Bool} (hd : DirOk s.vmm)
    (hslot : (s.vmm.frames s.vmm.cr3 heapSlot).present = true)
    (h1 : kernelHeapStart ≤ vaddr) (h2 : vaddr + kpmmPageSize * n ≤ kernelHeapEnd)
    (hv : vaddr % 4096 = 0) (ha : a + n ≤ 2 ^ 20)
    (h : PageSource.kvmmMapRange s vaddr (a * kpmmPageSize) kvmmFlagPresentRw n = some (ok, t)) :
    TableStep s.vmm t.vmm heapSlot kvmmFlagPresentRw ∧
      (∀ page < vaddr / 4096, t.vmm.walk page = s.vmm.walk page) ∧
      (ok = true → ∀ j < n, t.vmm.walk (vaddr / 4096 + j) = some (a + j)) := by
  obtain ⟨⟨ok', v⟩, hrange, heq⟩ := Option.map_eq_some_iff.1 h
  cases heq
  have hal : ¬ (vaddr % 4096 ≠ 0 ∨ a * kpmmPageSize % 4096 ≠ 0) := by
    simp only [kpmmPageSize]
    omega
  unfold Vmm.kvmmMapRange Vmm.kvmmMapRangeVia at hrange
  rw [if_neg hal] at hrange
  obtain ⟨hstep, hkept, hnew⟩ := mapPages_walk hd hslot h1 (by rw [Nat.zero_add]; exact h2)
    (by omega) hrange
  refine ⟨hstep, ?_, fun hok j hj => hnew hok j (Nat.zero_le j) (by omega)⟩
  intro page hpage
  refine hkept page ?_ (by omega)
  rw [kernelHeapEnd_eq] at h2
  unfold windowStart
  omega

/-- **`create_heap_header` grows the heap**, whatever it answers. -/
theorem createHeapHeader_grows {size header : Nat} (hd : DirOk h.pages.vmm) (ho : HeapOrdered h)
    (hs : size ≤ 2 ^ 29) (hk : h.createHeapHeader size = some (header, h')) :
    HeapGrows h h' := by
  have hwalk : ∀ {t : KernelPages}, t.vmm.frames = h.pages.vmm.frames →
      t.vmm.cr3 = h.pages.vmm.cr3 → ∀ page, t.vmm.walk page = h.pages.vmm.walk page := by
    intro t hf hc page
    unfold Vmm.walk Vmm.entries
    rw [hf, hc]
  have hlow := ho.low
  have hhigh := ho.high
  have hwhole := ho.whole
  have hend := kernelHeapEnd_eq
  rcases Heap.createHeapHeader_cases hk with ⟨-, rfl, -⟩ | ⟨source, ha, -, rfl⟩ |
      ⟨p, source, source', hlimit, ha, hp, hm, -, rfl⟩ |
      ⟨p, source, source', -, -, hlimit, ha, hp, hm, -, rfl⟩
  · exact .refl hd ho
  · obtain ⟨hstep, hf, hc, -⟩ := kpmmAllocPages_pages hd ha
    refine ⟨hstep, ⟨ho.limit, hlow, hhigh, hwhole, ?_⟩, fun page _ => hwalk hf hc page,
      fun page h1 h2 => absurd h2 (by dsimp only; omega)⟩
    exact hstep.slot ho.slot ▸ ho.slot
  -- with frames, up to the mapping both cases are one
  all_goals
    obtain ⟨hstep, hf, hc, hrun⟩ := kpmmAllocPages_pages hd ha
    obtain ⟨a, rfl, hbound, hframes⟩ := hrun hp
    rw [ho.limit] at hlimit
    have hroom := heap_room hs hhigh hwhole hlimit
    have hslot := hstep.slot ho.slot ▸ ho.slot
    obtain ⟨hstep', hkept, hnew⟩ := kvmmMapRange_pages hstep.dirOk hslot hlow hroom hwhole hbound hm
    have hslot' := hstep'.slot hslot ▸ hslot
    have hpages : ∀ page < h.kernelHeapBrk / 4096,
        source'.vmm.walk page = h.pages.vmm.walk page :=
      fun page hpage => (hkept page hpage).trans (hwalk hf hc page)
  · exact ⟨hstep.trans hstep', ⟨ho.limit, hlow, hhigh, hwhole, hslot'⟩, hpages,
      fun page h1 h2 => absurd h2 (by dsimp only; omega)⟩
  · have hbrk : u32 (h.kernelHeapBrk + kmallocPageSize * pagesToGet size) =
        h.kernelHeapBrk + kmallocPageSize * pagesToGet size := u32_eq (by omega)
    refine ⟨hstep.trans hstep', ⟨ho.limit, ?_, ?_, ?_, hslot'⟩, hpages, ?_⟩
    · dsimp only
      omega
    · dsimp only
      omega
    · dsimp only
      rw [hbrk]
      unfold kmallocPageSize
      omega
    · intro page h1 h2
      dsimp only at h2
      rw [hbrk] at h2
      have hj : page - h.kernelHeapBrk / 4096 < pagesToGet size := by
        unfold kmallocPageSize at h2
        omega
      obtain ⟨hres, hfree⟩ := hframes _ hj
      have hpage := hnew rfl _ hj
      rw [show h.kernelHeapBrk / 4096 + (page - h.kernelHeapBrk / 4096) = page by omega] at hpage
      exact ⟨_, hpage, hfree, hstep'.reserved hres⟩

/-- **`kmalloc` grows the heap.** -/
theorem kmalloc_grows {size ptr : Nat} (hd : DirOk h.pages.vmm) (ho : HeapOrdered h)
    (hs : size ≤ 2 ^ 29) (hk : h.kmalloc size = some (ptr, h')) : HeapGrows h h' := by
  rcases Heap.kmalloc_cases hk with ⟨-, -, rfl⟩ | ⟨header, -, -, -, -, rfl⟩ |
      ⟨-, -, header, hcreate, -⟩
  · exact .refl hd ho
  · exact ⟨.refl hd _ _, ⟨ho.limit, ho.low, ho.high, ho.whole, ho.slot⟩, fun _ _ => rfl,
      fun page h1 h2 => absurd h2 (by dsimp only; omega)⟩
  · exact createHeapHeader_grows hd ho (alignUp_le hs) hcreate

end Heap

/-! ## The frames of a new process -/

/-- The role of a frame among those drawn. -/
def drawnRole (entry p u q a : Nat) (v : Option Nat) (f : Nat) : Role :=
  if f = p then .directory
  else if f = u then .table kvmmPdIndex
  else if f = q then .table stackSlot
  else if f ∈ v then .table (pdeIndex entry)
  else .stack (f - a)

section NewProcess

variable {s t : Vmm} {img : KernelImage} {entry p u q a : Nat} {v : Option Nat}

/-- The private tables of a new directory. -/
theorem UserSpace.roleFrame_table (h : UserSpace img entry s t p u q a v) {k f : Nat}
    (hf : t.roleFrame p (.table k) = some f) :
    (k = stackSlot ∧ f = q) ∨ (k = kvmmPdIndex ∧ f = u) ∨ (k = pdeIndex entry ∧ f ∈ v) := by
  unfold Vmm.roleFrame at hf
  dsimp only at hf
  split_ifs at hf with hc
  obtain ⟨hk, hp, hne, hshared⟩ := hc
  obtain rfl := Option.some.inj hf
  rw [h.dir] at hp hne hshared ⊢
  by_cases hstack : k = stackSlot
  · rw [if_pos hstack, grant_frame]
    exact Or.inl ⟨hstack, rfl⟩
  rw [if_neg hstack] at hp hne hshared ⊢
  by_cases himage : k = kvmmPdIndex
  · rw [if_pos himage, grant_frame]
    exact Or.inr (Or.inl ⟨himage, rfl⟩)
  rw [if_neg himage] at hp hne hshared ⊢
  -- a slot as `clone_kernel_high_half` left it names no private table
  have hcloned : (clonedSlot t p k).present = true → (clonedSlot t p k).frame ≠ p →
      ¬ ((t.frames t.cr3 k).present = true ∧
        (t.frames t.cr3 k).frame = (clonedSlot t p k).frame) → False := by
    unfold clonedSlot
    split_ifs
    · intro h1 _ h3
      exact h3 ⟨h1, rfl⟩
    · intro _ h2 _
      exact h2 rfl
    · intro h1
      cases h1
  by_cases hown : k = pdeIndex entry
  · rw [if_pos hown] at hp hne hshared ⊢
    cases v with
    | none => exact absurd (hcloned hp hne hshared) not_false
    | some w =>
      refine Or.inr (Or.inr ⟨hown, ?_⟩)
      exact congrArg some (grant_frame _ w).symm
  · rw [if_neg hown] at hp hne hshared
    exact absurd (hcloned hp hne hshared) not_false

/-- The pages of the stack. -/
theorem UserSpace.roleFrame_stack (h : UserSpace img entry s t p u q a v) {i f : Nat}
    (hf : t.roleFrame p (.stack i) = some f) : i < kprocessUserStackPageCount ∧ f = a + i := by
  unfold Vmm.roleFrame at hf
  dsimp only at hf
  split_ifs at hf with hi
  refine ⟨hi, ?_⟩
  have hpage : pageOf kprocessUserStackBottom + i = stackSlot * 1024 + (stackPte + i) := by
    rw [show pageOf kprocessUserStackBottom = stackSlot * 1024 + stackPte by decide]
    omega
  have hlt : stackPte + i < 1024 := by
    unfold stackPte
    unfold kprocessUserStackPageCount at hi
    omega
  rw [hpage, walk_page _ _ hlt] at hf
  split_ifs at hf
  have hframe : (t.frames (t.frames p stackSlot).frame (stackPte + i)).frame = f :=
    Option.some.inj hf
  rw [h.dir_stack, grant_frame, h.pages, if_pos ⟨by omega, by omega⟩, grant_frame] at hframe
  omega

/-- **Every frame of a new process was drawn for it, for one purpose.** -/
theorem UserSpace.roleFrame_spec (h : UserSpace img entry s t p u q a v) {r : Role} {f : Nat}
    (hf : t.roleFrame p r = some f) :
    f ∈ drawnFrames p u q a v ∧ r = drawnRole entry p u q a v f := by
  have hd := h.distinct
  unfold drawnRole
  rw [mem_drawnFrames]
  cases r with
  | directory =>
    obtain rfl : p = f := Option.some.inj hf
    exact ⟨Or.inl rfl, by rw [if_pos rfl]⟩
  | table k =>
    rcases h.roleFrame_table hf with ⟨rfl, rfl⟩ | ⟨rfl, rfl⟩ | ⟨rfl, hv⟩
    · refine ⟨Or.inr (Or.inr (Or.inr (Or.inl rfl))), ?_⟩
      rw [if_neg hd.dir_stack.symm, if_neg hd.image_stack.symm, if_pos rfl]
    · refine ⟨Or.inr (Or.inl rfl), ?_⟩
      rw [if_neg hd.dir_image.symm, if_pos rfl]
    · refine ⟨Or.inr (Or.inr (Or.inl hv)), ?_⟩
      rw [if_neg (hd.dir_entry f hv).symm, if_neg (hd.image_entry f hv).symm,
        if_neg (hd.entry_stack f hv), if_pos hv]
  | stack i =>
    obtain ⟨hi, rfl⟩ := h.roleFrame_stack hf
    refine ⟨Or.inr (Or.inr (Or.inr (Or.inr ⟨i, hi, rfl⟩))), ?_⟩
    rw [if_neg (hd.dir_page i hi).symm, if_neg (hd.image_page i hi).symm,
      if_neg (hd.stack_page i hi).symm, if_neg fun hv => hd.entry_page _ hv i hi rfl,
      Nat.add_sub_cancel_left]

end NewProcess

/-! ## The calls keep the invariant -/

section Steps

variable {s t : KernelRun} {img : KernelImage}

/-- A call after which the pages of the heap lie in the frames they lay in, or in new ones. -/
theorem FramesOwned.keep (ho : FramesOwned s) {k flags : Nat}
    (hstep : TableStep s.vmm t.vmm k flags) (hheap : HeapOrdered t.heap)
    (hpages : ∀ page f, HeapRange t page → t.vmm.walk page = some f →
      (HeapRange s page ∧ s.vmm.walk page = some f) ∨
      (s.vmm.pmm.flags[f]? = some true ∧ Reserved t.vmm f))
    (hproc : t.processes = s.processes) : FramesOwned t := by
  have hframe : ∀ i r, t.frameOf i r = s.frameOf i r := by
    intro i r
    unfold KernelRun.frameOf
    rw [hproc]
  refine ⟨hstep.dirOk, hheap, ?_, ?_, ?_, ?_⟩
  · intro page f hrange hwalk
    rcases hpages page f hrange hwalk with ⟨hrange', hwalk'⟩ | ⟨-, hres⟩
    · have hused := ho.backing page f hrange' hwalk'
      rw [hstep.used f hused]
      exact hused
    · rw [hres.used]
      decide
  · intro i r f hf
    rw [hframe] at hf
    exact hstep.reserved (ho.reserved i r f hf)
  · intro i r f hf page hrange hwalk
    rw [hframe] at hf
    rcases hpages page f hrange hwalk with ⟨hrange', hwalk'⟩ | ⟨hfree, -⟩
    · exact ho.apart i r f hf page hrange' hwalk'
    · exact (ho.reserved i r f hf).ne_free hfree rfl
  · intro i j r r' f hf hf'
    rw [hframe] at hf hf'
    exact ho.single i j r r' f hf hf'

/-- A page that translates after a creation translated to the same frame before it. -/
theorem Extends.walk_of {s t : Vmm} (hd : DirOk s) (hext : Extends s t) {k i f : Nat}
    (hk : k < 1023) (hne : k ≠ windowSlot) (hi : i < 1024)
    (hwalk : t.walk (k * 1024 + i) = some f) : s.walk (k * 1024 + i) = some f := by
  have hslot := hext.table.slots k hne
  rw [walk_page _ k hi] at hwalk ⊢
  split_ifs at hwalk with hp
  rw [hslot] at hp hwalk
  have hfaded := hext.entries _ (hd.table_used k hk hp.1) (hd.tidy.ne_root k hk hp.1) ?_ i
  · have hsame := hfaded.eq_of_present hp.2
    rw [hsame] at hp hwalk
    rw [if_pos hp]
    exact hwalk
  · rintro ⟨hw, heq⟩
    refine hne ?_
    exact hext.table.dirOk.tidy.distinct k windowSlot hk (by decide) (hslot ▸ hp.1) hw
      (by rw [hslot]; exact heq.symm)

/-- The heap lies in its slot. -/
theorem HeapRange.split {page : Nat} (ho : HeapOrdered s.heap) (h : HeapRange s page) :
    page = heapSlot * 1024 + page % 1024 := by
  obtain ⟨h1, h2⟩ := h
  have hhigh := ho.high
  rw [kernelHeapEnd_eq] at hhigh
  unfold kernelHeapStart at h1
  unfold heapSlot
  omega

/-- **A creation, however it ends.** -/
theorem FramesOwned.extends (ho : FramesOwned s) {v : Vmm} (hext : Extends s.vmm v) :
    FramesOwned { s with heap := { s.heap with pages := ⟨v⟩ } } := by
  have hslot : v.frames v.cr3 heapSlot = s.vmm.frames s.vmm.cr3 heapSlot :=
    hext.table.slots heapSlot (by decide)
  have hheap := ho.heap
  refine ho.keep hext.table ⟨hheap.limit, hheap.low, hheap.high, hheap.whole, ?_⟩ ?_ rfl
  · exact (congrArg PageEntry.present hslot).trans hheap.slot
  · intro page f hrange hwalk
    have hrange' : HeapRange s page := hrange
    refine Or.inl ⟨hrange', ?_⟩
    have hpage := hrange'.split hheap
    have hwalk' : v.walk page = some f := hwalk
    rw [hpage] at hwalk' ⊢
    exact hext.walk_of ho.dirOk (by decide) (by decide) (Nat.mod_lt _ (by decide)) hwalk'

theorem frameOf_append {heap heap' : Heap KernelPages} {ps : List (Role → Option Nat)}
    {new : Role → Option Nat} {i f : Nat} {r : Role}
    (h : (⟨heap', ps ++ [new]⟩ : KernelRun).frameOf i r = some f) :
    (⟨heap, ps⟩ : KernelRun).frameOf i r = some f ∨ (i = ps.length ∧ new r = some f) := by
  obtain ⟨frames, hi, hr⟩ := Option.bind_eq_some_iff.1 h
  have hget : (ps ++ [new])[i]? = some frames := hi
  rcases Nat.lt_or_ge i ps.length with hlt | hge
  · rw [List.getElem?_append_left hlt] at hget
    exact Or.inl (Option.bind_eq_some_iff.2 ⟨frames, hget, hr⟩)
  · rw [List.getElem?_append_right hge] at hget
    have hzero : i - ps.length = 0 := by
      have hlt := (List.getElem?_eq_some_iff.1 hget).1
      simp only [List.length_singleton] at hlt
      omega
    rw [hzero] at hget
    obtain rfl := Option.some.inj hget
    exact Or.inr ⟨by omega, hr⟩

/-- **A creation that succeeds**: the frames of the new process are its own. -/
theorem FramesOwned.created (ho : FramesOwned s) {v : Vmm} (hext : Extends s.vmm v)
    {entry p u q a : Nat} {w : Option Nat} (h : UserSpace img entry s.vmm v p u q a w) :
    FramesOwned ⟨{ s.heap with pages := ⟨v⟩ }, s.processes ++ [v.roleFrame p]⟩ := by
  have hold := ho.extends hext
  have hnew : ∀ {r f}, v.roleFrame p r = some f →
      s.vmm.pmm.flags[f]? = some true ∧ Reserved v f := fun hf => h.drawn _ (h.roleFrame_spec hf).1
  have hcases : ∀ {i f r},
      (⟨{ s.heap with pages := ⟨v⟩ }, s.processes ++ [v.roleFrame p]⟩ : KernelRun).frameOf i r =
        some f →
      s.frameOf i r = some f ∨ (i = s.processes.length ∧ v.roleFrame p r = some f) :=
    fun hf => frameOf_append hf
  refine ⟨hold.dirOk, hold.heap, hold.backing, ?_, ?_, ?_⟩
  · intro i r f hf
    rcases hcases hf with hf | ⟨-, hf⟩
    · exact hold.reserved i r f hf
    · exact (hnew hf).2
  · intro i r f hf page hrange hwalk
    rcases hcases hf with hf | ⟨-, hf⟩
    · exact hold.apart i r f hf page hrange hwalk
    · have hpage := HeapRange.split ho.heap hrange
      have hwalk' : v.walk page = some f := hwalk
      rw [hpage] at hwalk'
      have hbefore := hext.walk_of ho.dirOk (by decide) (by decide) (Nat.mod_lt _ (by decide)) hwalk'
      rw [← hpage] at hbefore
      exact ho.backing page f hrange hbefore (hnew hf).1
  · intro i j r r' f hf hf'
    rcases hcases hf with hf | ⟨hi, hf⟩ <;> rcases hcases hf' with hf' | ⟨hj, hf'⟩
    · exact ho.single i j r r' f hf hf'
    · exact absurd rfl ((ho.reserved i r f hf).ne_free (hnew hf').1)
    · exact absurd rfl ((ho.reserved j r' f hf').ne_free (hnew hf).1)
    · exact ⟨hi.trans hj.symm, (h.roleFrame_spec hf).2.trans (h.roleFrame_spec hf').2.symm⟩

theorem kernelStep_create {process out : UserProcess} {entry : Nat} {v : Vmm}
    (hcreate : outcome (kprocessCreateUser img process entry) s.vmm = some (some out, v)) :
    kernelStep img s (.create process entry) = some
      ⟨{ s.heap with pages := ⟨v⟩ }, s.processes ++ [v.roleFrame out.directory]⟩ := by
  simp only [kernelStep, hcreate, Option.map_some]

/-- **Every call keeps the frames of the processes theirs.** -/
theorem kernelStep_owned {call : KernelCall} (ho : FramesOwned s) (hok : KernelCallOk s call)
    (hstep : kernelStep img s call = some t) : FramesOwned t := by
  cases call with
  | kmalloc size =>
    obtain ⟨⟨ptr, h'⟩, hk, rfl⟩ := Option.map_eq_some_iff.1 hstep
    have hg := kmalloc_grows ho.dirOk ho.heap hok hk
    refine ho.keep hg.table hg.ordered ?_ rfl
    intro page f hrange hwalk
    obtain ⟨h1, h2⟩ := hrange
    rcases Nat.lt_or_ge page (s.heap.kernelHeapBrk / 4096) with hlt | hge
    · exact Or.inl ⟨⟨h1, hlt⟩, (hg.kept page hlt).symm.trans hwalk⟩
    · obtain ⟨g, hg1, hg2, hg3⟩ := hg.grown page hge h2
      obtain rfl : g = f := Option.some.inj (hg1.symm.trans hwalk)
      exact Or.inr ⟨hg2, hg3⟩
  | create process entry =>
    obtain ⟨⟨r, v⟩, hcreate, rfl⟩ := Option.map_eq_some_iff.1 hstep
    obtain ⟨hext, hdone⟩ := kprocessCreateUser_spec img process ho.dirOk hok _ _ hcreate
    cases r with
    | none => exact ho.extends hext
    | some out =>
      obtain ⟨p, u, q, a, w, hphys, h⟩ := hdone out rfl
      have hdirectory : out.directory = p := by
        rw [UserProcess.directory, hphys]
        exact Nat.mul_div_cancel p (by decide)
      have hcreated := ho.created hext h
      rw [← hdirectory] at hcreated
      exact hcreated
  | write mem =>
    obtain rfl := Option.some.inj hstep
    exact ⟨ho.dirOk, ⟨ho.heap.limit, ho.heap.low, ho.heap.high, ho.heap.whole, ho.heap.slot⟩,
      ho.backing, ho.reserved, ho.apart, ho.single⟩

end Steps

/-! ## Runs -/

/-- A start in order: the page tables and the bitmap agree, the heap is set up, and every frame
that backs it is in use. -/
structure Consistent (s : KernelRun) : Prop where
  dirOk : DirOk s.vmm
  heap : HeapOrdered s.heap
  backing : ∀ page f, HeapRange s page → s.vmm.walk page = some f →
    s.vmm.pmm.flags[f]? ≠ some true
  none_yet : s.processes = []

theorem Consistent.owned {s : KernelRun} (h : Consistent s) : FramesOwned s := by
  have hnone : ∀ i r f, s.frameOf i r ≠ some f := by
    intro i r f hf
    unfold KernelRun.frameOf at hf
    rw [h.none_yet] at hf
    cases hf
  exact ⟨h.dirOk, h.heap, h.backing, fun i r f hf => absurd hf (hnone i r f),
    fun i r f hf => absurd hf (hnone i r f), fun i j r r' f hf => absurd hf (hnone i r f)⟩

/-- **Frames of different processes never overlap.**  In every state that a run reaches, the
frames of the processes have one owner and one role each; they are marked used, none of them is
the kernel's directory or one of its tables, and none backs a page of the heap. -/
theorem process_frames_disjoint {img : KernelImage} {start s : KernelRun} (hc : Consistent start)
    (hrun : Reachable (kernelStep img) KernelCallOk start s) :
    (∀ i j r r' f, s.frameOf i r = some f → s.frameOf j r' = some f → i = j ∧ r = r') ∧
    ∀ i r f, s.frameOf i r = some f →
      s.vmm.pmm.flags[f]? = some false ∧ f ≠ s.vmm.cr3 ∧
      (∀ k < 1023, (s.vmm.frames s.vmm.cr3 k).present = true →
        (s.vmm.frames s.vmm.cr3 k).frame ≠ f) ∧
      ∀ page, HeapRange s page → s.vmm.walk page ≠ some f := by
  have ho : FramesOwned s := reachable_invariant
    (fun _ _ _ hi hok hstep => kernelStep_owned hi hok hstep) hc.owned hrun
  refine ⟨ho.single, ?_⟩
  intro i r f hf
  obtain ⟨hused, hdir, htable⟩ := ho.reserved i r f hf
  exact ⟨hused, hdir, htable, ho.apart i r f hf⟩

/-- A kernel with one page of heap and no process. -/
def oneHeapPage : KernelRun where
  heap :=
    { mem := fun _ => 0
      kernelHeapBase := kernelHeapStart
      kernelHeapBrk := kernelHeapStart + 4096
      kernelHeapLimit := kernelHeapEnd
      kernelHeapLh := kernelHeapStart
      pages := ⟨heapDir⟩ }
  processes := []

theorem consistent_oneHeapPage : Consistent oneHeapPage := by
  refine ⟨dirOk_heapDir, ⟨rfl, by decide, by decide, by decide, by decide⟩, ?_, rfl⟩
  rintro page f ⟨h1, h2⟩ hwalk
  have hpage : page = 0xD0000 := by
    have h2' : page < 0xD0001 := h2
    have h1' : 0xD0000 ≤ page := h1
    omega
  have hframe : heapDir.walk 0xD0000 = some 5 := by decide
  rw [hpage] at hwalk
  obtain rfl : 5 = f := Option.some.inj (hframe.symm.trans hwalk)
  decide +kernel

/-- A process made there: its directory is marked used. -/
theorem process_frames_disjoint_one : ∃ s f,
    run (kernelStep bootImage) oneHeapPage [.create newProcess 0xC0102010] = some s ∧
      s.frameOf 0 .directory = some f ∧ s.vmm.pmm.flags[f]? = some false := by
  obtain ⟨out, t, hcreate, -⟩ := heapDir_created
  have hvmm : oneHeapPage.vmm = heapDir := rfl
  rw [← hvmm] at hcreate
  have hrun := run_cons_some.2 ⟨_, kernelStep_create hcreate, run_nil _⟩
  have hadm : Admissible (kernelStep bootImage) KernelCallOk oneHeapPage
      [.create newProcess 0xC0102010] := ⟨by show _ < _; decide, fun _ _ => trivial⟩
  generalize hs : (⟨{ oneHeapPage.heap with pages := ⟨t⟩ },
    oneHeapPage.processes ++ [t.roleFrame out.directory]⟩ : KernelRun) = s at hrun
  have hdir : s.frameOf 0 .directory = some out.directory := by
    rw [← hs]
    rfl
  exact ⟨s, _, hrun, hdir,
    ((process_frames_disjoint consistent_oneHeapPage ⟨_, hadm, hrun⟩).2 0 .directory _ hdir).1⟩

end DelOs
