import DelOs.Memory.VmmInit
import DelOs.Process.UserSpace

/-!
# What a user process can reach

The new directory of `kprocess_create_user`, seen by the processor once it is loaded.

* `userAccessible`, `userWritable` — ring 3 can reach a page, or write to it: the directory
  entry and the table entry both allow it.
* `user_space_confined` — **ring 3 reaches the pages it is meant to and no others**, and the
  kernel half translates as in the kernel's directory.
* `kernel_image_writable` — **but it can write to the kernel**: the page of `ktask_stubs`, which
  is opened so that ring 3 can run it, keeps the write permission of the kernel's own tables.
-/

namespace DelOs

open Attempt TwoLevel

variable {s t : Vmm} {img : KernelImage} {process out : UserProcess} {entry p u q a : Nat}
  {v : Option Nat}

/-! ## What ring 3 can do -/

/-- The state with another directory loaded. -/
def Vmm.inDirectory (s : Vmm) (dir : Nat) : Vmm := { s with cr3 := dir }

/-- Ring 3 can reach a page. -/
def Vmm.userAccessible (s : Vmm) (page : Nat) : Bool :=
  (s.translate page).any fun tr => tr.user && tr.dirUser

/-- Ring 3 can write to a page. -/
def Vmm.userWritable (s : Vmm) (page : Nat) : Bool :=
  (s.translate page).any fun tr => tr.user && tr.dirUser && (tr.rw && tr.dirRw)

/-- The directory of a process. -/
def UserProcess.directory (process : UserProcess) : Nat :=
  process.pageDirectoryPhys / kpmmPageSize

/-- The pages that a process is meant to reach. -/
def UserPage (img : KernelImage) (entry page : Nat) : Prop :=
  page = pageOf img.ktaskStubs ∨ page = pageOf img.syscall ∨
    (kernelVirtualBase ≤ entry ∧ page = pageOf entry) ∨
    (pageOf kprocessUserStackBottom ≤ page ∧
      page < pageOf kprocessUserStackBottom + kprocessUserStackPageCount)

/-- No directory or table entry of the kernel half is open to ring 3. -/
structure KernelHalfClosed (s : Vmm) : Prop where
  dir : ∀ k, kvmmPdIndex ≤ k → k < 1023 → (s.frames s.cr3 k).user = false
  table : ∀ k, kvmmPdIndex ≤ k → k < 1023 → (s.frames s.cr3 k).present = true → ∀ i < 1024,
    (s.frames (s.frames s.cr3 k).frame i).user = false

/-- No page of the kernel half can be written by ring 3. -/
def Ring3CannotWrite (s : Vmm) : Prop :=
  ∀ page, pageOf kernelVirtualBase ≤ page → page < 2 ^ 20 → s.userWritable page = false

theorem userAccessible_page (s : Vmm) (k : Nat) {i : Nat} (hi : i < 1024) :
    s.userAccessible (k * 1024 + i) = true ↔
      (s.frames s.cr3 k).present = true ∧ (s.frames s.cr3 k).user = true ∧
      (s.frames (s.frames s.cr3 k).frame i).present = true ∧
      (s.frames (s.frames s.cr3 k).frame i).user = true := by
  rw [Vmm.userAccessible, translate_page s k hi]
  split_ifs with h1 h2
  · simp [h1, h2, and_comm]
  · simp [h2]
  · simp [h1]

/-! ## The slots of the new directory -/

theorem pageOf_eq (vaddr : Nat) : pageOf vaddr = vaddr / 2 ^ 22 * 1024 + pteIndex vaddr := by
  unfold pageOf pteIndex kpmmPageSize
  omega

/-- The page of an address in the image. -/
theorem pageOf_inImage {vaddr : Nat} (h : vaddr / 2 ^ 22 = kvmmPdIndex) :
    pageOf vaddr = kvmmPdIndex * 1024 + pteIndex vaddr := by
  rw [pageOf_eq, h]

theorem inImage_iff (hentry : entry < kernelVirtualBase ∨ entry / 2 ^ 22 = kvmmPdIndex) :
    InImage entry ↔ kernelVirtualBase ≤ entry := by
  unfold InImage pdeIndex
  unfold kernelVirtualBase kvmmPdIndex at *
  omega

namespace UserSpace

variable (h : UserSpace img entry s t p u q a v)
include h

/-- Without an entry outside the image, the slots above it are the kernel's. -/
theorem dir_high (hv : v = none) {k : Nat} (hlow : kvmmPdIndex < k) (hk : k < 1023) :
    t.frames p k = t.frames t.cr3 k := by
  have hne : k ≠ stackSlot := by
    unfold stackSlot
    unfold kvmmPdIndex at hlow
    omega
  have hcloned : clonedSlot t p k = t.frames t.cr3 k := if_pos ⟨hlow.le, hk⟩
  rw [h.dir, if_neg hne, if_neg hlow.ne', hv]
  simp only [ownSlot, ite_self]
  exact hcloned

/-- ... and those below the stack are empty. -/
theorem dir_low (hv : v = none) {k : Nat} (hk : k < kvmmPdIndex) (hne : k ≠ stackSlot) :
    t.frames p k = PageEntry.zero := by
  have hcloned : clonedSlot t p k = PageEntry.zero := by
    unfold clonedSlot
    rw [if_neg (by omega), if_neg (by unfold kvmmPdIndex at hk; omega)]
  rw [h.dir, if_neg hne, if_neg hk.ne, hv]
  simp only [ownSlot, ite_self]
  exact hcloned

theorem dir_image : t.frames p kvmmPdIndex =
    (t.frames t.cr3 kvmmPdIndex).grant (u * kpmmPageSize) := by
  rw [h.dir, if_neg (by decide), if_pos rfl]

theorem dir_stack : t.frames p stackSlot = PageEntry.zero.grant (q * kpmmPageSize) := by
  rw [h.dir, if_pos rfl]

end UserSpace

@[simp] theorem grant_present (e : PageEntry) (phys : Nat) : (e.grant phys).present = true := rfl

@[simp] theorem grant_rw (e : PageEntry) (phys : Nat) : (e.grant phys).rw = true := rfl

@[simp] theorem grant_user (e : PageEntry) (phys : Nat) : (e.grant phys).user = true := rfl

@[simp] theorem grant_frame (e : PageEntry) (f : Nat) : (e.grant (f * kpmmPageSize)).frame = f :=
  Nat.mul_div_cancel f (by decide)

/-! ## Confinement -/

/-- The pages meant, by their two indices. -/
theorem userPage_iff (hentry : entry < kernelVirtualBase ∨ entry / 2 ^ 22 = kvmmPdIndex) (k : Nat)
    {i : Nat} (hi : i < 1024) : UserPage img entry (k * 1024 + i) ↔
      k = kvmmPdIndex ∧ (i = pteIndex img.ktaskStubs ∨ i = pteIndex img.syscall ∨
        InImage entry ∧ i = pteIndex entry) ∨
      k = stackSlot ∧ stackPte ≤ i ∧ i < stackPte + kprocessUserStackPageCount := by
  have himage : ∀ {vaddr : Nat}, vaddr / 2 ^ 22 = kvmmPdIndex →
      (k * 1024 + i = pageOf vaddr ↔ k = kvmmPdIndex ∧ i = pteIndex vaddr) := by
    intro vaddr hv
    have hlt := pteIndex_lt vaddr
    rw [pageOf_inImage hv]
    omega
  have hstack : pageOf kprocessUserStackBottom = stackSlot * 1024 + stackPte := by decide
  have hrange : (stackSlot * 1024 + stackPte ≤ k * 1024 + i ∧
      k * 1024 + i < stackSlot * 1024 + stackPte + kprocessUserStackPageCount) ↔
      k = stackSlot ∧ stackPte ≤ i ∧ i < stackPte + kprocessUserStackPageCount := by
    unfold stackSlot stackPte kprocessUserStackPageCount
    omega
  have hown : (kernelVirtualBase ≤ entry ∧ k * 1024 + i = pageOf entry) ↔
      k = kvmmPdIndex ∧ InImage entry ∧ i = pteIndex entry := by
    rw [inImage_iff hentry]
    constructor
    · rintro ⟨hhigh, hpage⟩
      obtain ⟨hk, hi⟩ := (himage (hentry.resolve_left (by omega))).1 hpage
      exact ⟨hk, hhigh, hi⟩
    · rintro ⟨hk, hhigh, hi⟩
      exact ⟨hhigh, (himage (hentry.resolve_left (by omega))).2 ⟨hk, hi⟩⟩
  unfold UserPage
  rw [himage img.stubs_slot, himage img.syscall_slot, hown, hstack, hrange]
  clear himage hstack hrange hown hentry
  tauto

theorem UserSpace.none_outside (h : UserSpace img entry s t p u q a v)
    (hentry : entry < kernelVirtualBase ∨ entry / 2 ^ 22 = kvmmPdIndex) : v = none := by
  cases v with
  | none => rfl
  | some f =>
    obtain ⟨hhigh, hslot⟩ := h.outside f rfl
    exact absurd ((inImage_iff hentry).2 hhigh).2 hslot

/-- The kernel half stays closed in the kernel's directory, ... -/
theorem KernelHalfClosed.dir_extends (hc : KernelHalfClosed s) (hext : Extends s t) {k : Nat}
    (hlow : kvmmPdIndex ≤ k) (hk : k < 1023) (hp : (t.frames t.cr3 k).present = true) :
    (t.frames t.cr3 k).user = false := by
  by_cases hw : k = windowSlot
  · subst hw
    cases hs : (s.frames s.cr3 windowSlot).present with
    | true =>
      rw [hext.table.slot hs]
      exact hc.dir _ hlow hk
    | false => exact (hext.table.fresh hs hp).2.2
  · rw [hext.table.slots k hw]
    exact hc.dir k hlow hk

/-- What the table of the image held fades at most. -/
theorem Extends.image_faded (hd : DirOk s) (hext : Extends s t)
    (hp : (t.frames t.cr3 kvmmPdIndex).present = true) (i : Nat) :
    Faded (s.frames (imageTable s) i) (t.frames (imageTable t) i) := by
  have hslot := hext.table.slots kvmmPdIndex (by decide)
  have hsame : imageTable t = imageTable s := congrArg PageEntry.frame hslot
  rw [hsame]
  rw [hslot] at hp
  refine hext.entries _ (hd.table_used _ (by decide) hp) (hd.tidy.ne_root _ (by decide) hp) ?_ i
  -- the table of the windows is another one
  rintro ⟨hw, heq⟩
  have hdist := hext.table.dirOk.tidy.distinct windowSlot kvmmPdIndex (by decide) (by decide) hw
    (hslot ▸ hp) (by rw [hslot]; exact heq)
  exact absurd hdist (by decide)

/-- ... and in the table of the image. -/
theorem KernelHalfClosed.image_extends (hd : DirOk s) (hc : KernelHalfClosed s)
    (hext : Extends s t) (hp : (t.frames t.cr3 kvmmPdIndex).present = true) {i : Nat}
    (hi : i < 1024) : (t.frames (imageTable t) i).user = false := by
  have hslot := hext.table.slots kvmmPdIndex (by decide)
  exact (hext.image_faded hd hp i).user_eq_false
    (hc.table kvmmPdIndex le_rfl (by decide) (hslot ▸ hp) i hi)

section Slots

variable (h : UserSpace img entry s t p u q a v)
include h

/-- In the slot of the stack, the pages of the stack are open. -/
theorem UserSpace.open_stack (i : Nat) :
    (t.frames (t.frames p stackSlot).frame i).present = true ∧
      (t.frames (t.frames p stackSlot).frame i).user = true ↔
    stackPte ≤ i ∧ i < stackPte + kprocessUserStackPageCount := by
  rw [h.dir_stack, grant_frame, h.pages]
  split_ifs with hi
  · simp [hi]
  · simp [hi, PageEntry.zero]

/-- In the slot of the image, the pages of the stub, of `__syscall__` and of the entry are. -/
theorem UserSpace.open_image {i : Nat} (hclosed : (t.frames (imageTable t) i).user = false) :
    (t.frames (t.frames p kvmmPdIndex).frame i).present = true ∧
      (t.frames (t.frames p kvmmPdIndex).frame i).user = true ↔
    i = pteIndex img.ktaskStubs ∨ i = pteIndex img.syscall ∨
      InImage entry ∧ i = pteIndex entry := by
  rw [h.dir_image, grant_frame, (h.target i).present, h.user, hclosed]
  constructor
  · rintro ⟨-, hc | hi⟩
    · cases hc
    · exact hi
  · intro hi
    exact ⟨h.present i hi, Or.inr hi⟩

/-- The pages of the kernel half have the frames they have in the kernel's directory. -/
theorem UserSpace.walk_eq (hv : v = none) {k i : Nat} (hlow : kvmmPdIndex ≤ k) (hk : k < 1023)
    (hi : i < 1024) : (t.inDirectory p).walk (k * 1024 + i) = t.walk (k * 1024 + i) := by
  rw [walk_page _ k hi, walk_page _ k hi]
  show (if (t.frames p k).present ∧ (t.frames (t.frames p k).frame i).present
    then some (t.frames (t.frames p k).frame i).frame else none) = _
  rcases eq_or_lt_of_le hlow with rfl | hhigh
  · have htarget := h.target i
    have hframe : (t.frames t.cr3 kvmmPdIndex).frame = imageTable t := rfl
    rw [h.dir_image, grant_frame, htarget.present, htarget.frame, hframe]
    simp only [grant_present, h.image]
  · rw [h.dir_high hv hhigh hk]

end Slots

/-- **Ring 3 reaches the pages it is meant to and no others**, and every page of the kernel half
translates to the frame it has in the kernel's directory. -/
theorem user_space_confined (hd : DirOk s) (hc : KernelHalfClosed s)
    (hentry : entry < kernelVirtualBase ∨ entry / 2 ^ 22 = kvmmPdIndex)
    (hcreate : outcome (kprocessCreateUser img process entry) s = some (some out, t)) :
    (∀ page < windowStart,
      (t.inDirectory out.directory).userAccessible page = true ↔ UserPage img entry page) ∧
    ∀ page, pageOf kernelVirtualBase ≤ page → page < windowStart →
      (t.inDirectory out.directory).walk page = t.walk page := by
  have hlt : entry < 2 ^ 32 := by
    unfold kernelVirtualBase kvmmPdIndex at hentry
    omega
  obtain ⟨hext, hdone⟩ := kprocessCreateUser_spec img process hd hlt _ _ hcreate
  obtain ⟨p, u, q, a, v, hphys, h⟩ := hdone out rfl
  have hv := h.none_outside hentry
  have hdirectory : out.directory = p := by
    rw [UserProcess.directory, hphys]
    exact Nat.mul_div_cancel p (by decide)
  rw [hdirectory]
  constructor
  · intro page hpage
    have hi : page % 1024 < 1024 := Nat.mod_lt _ (by decide)
    have hk : page / 1024 < 1023 := by
      unfold windowStart at hpage
      omega
    rw [show page = page / 1024 * 1024 + page % 1024 by omega, userPage_iff hentry _ hi,
      userAccessible_page _ _ hi]
    generalize page / 1024 = k at hk
    generalize page % 1024 = i at hi
    show (t.frames p k).present = true ∧ (t.frames p k).user = true ∧
      (t.frames (t.frames p k).frame i).present = true ∧
      (t.frames (t.frames p k).frame i).user = true ↔ _
    rcases lt_trichotomy k kvmmPdIndex with hlow | rfl | hhigh
    · have hne : k ≠ kvmmPdIndex := hlow.ne
      by_cases hstack : k = stackSlot
      · subst hstack
        have hopen := h.open_stack i
        rw [h.dir_stack, grant_frame] at hopen
        rw [h.dir_stack, grant_frame]
        simp [hopen, hne]
      · rw [h.dir_low hv hlow hstack]
        simp [hne, hstack, PageEntry.zero]
    · have hopen := h.open_image (hc.image_extends hd hext h.image hi)
      have hne : kvmmPdIndex ≠ stackSlot := by decide
      rw [h.dir_image, grant_frame] at hopen
      rw [h.dir_image, grant_frame]
      simp [hopen, hne]
    · have hne : k ≠ kvmmPdIndex ∧ k ≠ stackSlot := by
        unfold stackSlot
        unfold kvmmPdIndex at hhigh ⊢
        omega
      rw [h.dir_high hv hhigh hk]
      have hclosed := hc.dir_extends hext hhigh.le hk
      simp only [hne, false_and, or_false, iff_false]
      rintro ⟨hp, hu, -⟩
      rw [hclosed hp] at hu
      cases hu
  · intro page hlow hpage
    have hi : page % 1024 < 1024 := Nat.mod_lt _ (by decide)
    have hk : page / 1024 < 1023 := by
      unfold windowStart at hpage
      omega
    have hk' : kvmmPdIndex ≤ page / 1024 := by
      have hbase : pageOf kernelVirtualBase = kvmmPdIndex * 1024 := by decide
      rw [hbase] at hlow
      exact (Nat.le_div_iff_mul_le (by decide)).2 hlow
    have hpage' : page = page / 1024 * 1024 + page % 1024 := by omega
    rw [hpage']
    exact h.walk_eq hv hk' hk hi

/-- The image of a kernel linked at `0xC0100000`. -/
def bootImage : KernelImage := ⟨0xC0100000, 0xC0101000, by decide, by decide⟩

/-- A process before it is given a user space. -/
def newProcess : UserProcess := ⟨0, 0, 0x2000, 8, 0x10, 0x10, 0x10, 0x10⟩

/-- A kernel directory in frame 2, with the image in slot 768 and one page of the heap in slot
832; frames from 6 on are free. -/
def heapDir : Vmm where
  frames f i :=
    if f = 2 ∧ i = 768 then ⟨true, true, false, 0, 3⟩
    else if f = 2 ∧ i = 832 then ⟨true, true, false, 0, 4⟩
    else if f = 2 ∧ i = 1023 then ⟨true, true, false, 0, 2⟩
    else if f = 3 ∧ i < 1024 then ⟨true, true, false, 0, i⟩
    else if f = 4 ∧ i = 0 then ⟨true, true, false, 0, 5⟩
    else PageEntry.zero
  cr3 := 2
  pmm := ⟨[0x3F#8, 0x00#8, 0x00#8], 18⟩

theorem heapDir_slots {k : Nat} (hk : k < 1023)
    (hp : (heapDir.frames heapDir.cr3 k).present = true) :
    k = 768 ∧ (heapDir.frames heapDir.cr3 k).frame = 3 ∨
      k = 832 ∧ (heapDir.frames heapDir.cr3 k).frame = 4 := by
  by_cases h1 : k = 768
  · exact Or.inl ⟨h1, by rw [h1]; rfl⟩
  by_cases h2 : k = 832
  · exact Or.inr ⟨h2, by rw [h2]; rfl⟩
  · simp [heapDir, h1, h2, show k ≠ 1023 by omega, PageEntry.zero] at hp

theorem dirOk_heapDir : DirOk heapDir := by
  refine ⟨⟨rfl, rfl⟩, ⟨?_, ?_⟩, Pmm.below4G_of_length (by decide), by decide +kernel, ?_⟩
  · intro k hk hp
    rcases heapDir_slots hk hp with ⟨-, h⟩ | ⟨-, h⟩
    · exact h.trans_ne (by decide)
    · exact h.trans_ne (by decide)
  · intro j k hj hk hpj hpk heq
    have heq' : (heapDir.frames heapDir.cr3 j).frame = (heapDir.frames heapDir.cr3 k).frame := heq
    rcases heapDir_slots hj hpj with ⟨h1, h2⟩ | ⟨h1, h2⟩ <;>
      rcases heapDir_slots hk hpk with ⟨h3, h4⟩ | ⟨h3, h4⟩ <;> omega
  · intro k hk hp
    rcases heapDir_slots hk hp with ⟨-, h⟩ | ⟨-, h⟩
    · rw [h]
      decide +kernel
    · rw [h]
      decide +kernel

theorem heapDir_supervisor (f i : Nat) : (heapDir.frames f i).user = false := by
  unfold heapDir
  dsimp only
  split_ifs <;> rfl

theorem kernelHalfClosed_heapDir : KernelHalfClosed heapDir :=
  ⟨fun k _ _ => heapDir_supervisor _ k, fun _ _ _ _ i _ => heapDir_supervisor _ i⟩

theorem builtByInit_heapDir : BuiltByInit heapDir := by
  refine ⟨dirOk_heapDir, by decide, ?_⟩
  intro i hi
  refine ⟨0, ?_⟩
  show heapDir.frames 3 i = _
  unfold heapDir
  dsimp only
  rw [if_neg (by omega), if_neg (by omega), if_neg (by omega), if_pos ⟨rfl, hi⟩]

/-- The creation of a process with an entry in the kernel image, in which ring 3 can write to
the first page of the kernel. -/
theorem heapDir_created : ∃ out t,
    outcome (kprocessCreateUser bootImage newProcess 0xC0102010) heapDir = some (some out, t) ∧
      (t.inDirectory out.directory).userWritable 0xC0100 = true := by
  have hout : (outcome (kprocessCreateUser bootImage newProcess 0xC0102010) heapDir).map
      (fun r => r.1.map fun out => (r.2.inDirectory out.directory).userWritable 0xC0100) =
        some (some true) := by
    decide +kernel
  obtain ⟨⟨ro, t⟩, hrun, hr⟩ := Option.map_eq_some_iff.1 hout
  obtain ⟨out, rfl, hwritable⟩ := Option.map_eq_some_iff.1 hr
  exact ⟨out, t, hrun, hwritable⟩

/-- Ring 3 reaches the page of that entry. -/
theorem user_space_confined_heapDir : ∃ out t,
    outcome (kprocessCreateUser bootImage newProcess 0xC0102010) heapDir = some (some out, t) ∧
      (t.inDirectory out.directory).userAccessible 0xC0102 = true := by
  obtain ⟨out, t, hrun, -⟩ := heapDir_created
  have hconfined := user_space_confined dirOk_heapDir kernelHalfClosed_heapDir
    (Or.inr (by decide)) hrun
  exact ⟨out, t, hrun, (hconfined.1 0xC0102 (by decide)).2 (Or.inr (Or.inr (Or.inl
    ⟨by decide, rfl⟩)))⟩

/-! ## Writing to the kernel -/

theorem userWritable_page (s : Vmm) (k : Nat) {i : Nat} (hi : i < 1024)
    (hdir : (s.frames s.cr3 k).present = true ∧ (s.frames s.cr3 k).user = true ∧
      (s.frames s.cr3 k).rw = true)
    (htable : (s.frames (s.frames s.cr3 k).frame i).present = true ∧
      (s.frames (s.frames s.cr3 k).frame i).user = true ∧
      (s.frames (s.frames s.cr3 k).frame i).rw = true) :
    s.userWritable (k * 1024 + i) = true := by
  rw [Vmm.userWritable, translate_page s k hi, if_pos hdir.1, if_pos htable.1]
  simp [hdir, htable]

/-- **Ring 3 can write to the kernel**: in every directory made from one that `kvmm_init` built,
the page of `ktask_stubs` is open to ring 3 and writable. -/
theorem kernel_image_writable (hs : BuiltByInit s) (hentry : entry < 2 ^ 32)
    (hcreate : outcome (kprocessCreateUser img process entry) s = some (some out, t)) :
    ¬ Ring3CannotWrite (t.inDirectory out.directory) := by
  obtain ⟨hext, hdone⟩ := kprocessCreateUser_spec img process hs.dirOk hentry _ _ hcreate
  obtain ⟨p, u, q, a, v, hphys, h⟩ := hdone out rfl
  have hdirectory : out.directory = p := by
    rw [UserProcess.directory, hphys]
    exact Nat.mul_div_cancel p (by decide)
  have hi := pteIndex_lt img.ktaskStubs
  have hpresent := h.present _ (Or.inl rfl)
  -- the entry of the stub is the one that `kvmm_init` wrote
  have hrw : (t.frames (imageTable t) (pteIndex img.ktaskStubs)).rw = true := by
    obtain ⟨attrs, hattrs⟩ := hs.image _ hi
    rw [(hext.image_faded hs.dirOk h.image _).eq_of_present hpresent]
    exact congrArg PageEntry.rw hattrs
  have htarget := h.target (pteIndex img.ktaskStubs)
  intro hcannot
  have hpage := pageOf_inImage img.stubs_slot
  have hnot := hcannot (pageOf img.ktaskStubs)
    (by rw [hpage, show pageOf kernelVirtualBase = kvmmPdIndex * 1024 by decide]; omega)
    (by rw [hpage]; unfold kvmmPdIndex; omega)
  rw [hdirectory, hpage, userWritable_page _ _ hi] at hnot
  · cases hnot
  · show (t.frames p kvmmPdIndex).present = true ∧ (t.frames p kvmmPdIndex).user = true ∧
      (t.frames p kvmmPdIndex).rw = true
    rw [h.dir_image]
    exact ⟨rfl, rfl, rfl⟩
  · show (t.frames (t.frames p kvmmPdIndex).frame (pteIndex img.ktaskStubs)).present = true ∧
      (t.frames (t.frames p kvmmPdIndex).frame (pteIndex img.ktaskStubs)).user = true ∧
      (t.frames (t.frames p kvmmPdIndex).frame (pteIndex img.ktaskStubs)).rw = true
    rw [h.dir_image, grant_frame, htarget.present, htarget.rw]
    exact ⟨hpresent, (h.user _).2 (Or.inr (Or.inl rfl)), hrw⟩

/-- A directory that `kvmm_init` built, and a process made from it. -/
theorem kernel_image_writable_heapDir : ∃ out t,
    outcome (kprocessCreateUser bootImage newProcess 0xC0102010) heapDir = some (some out, t) ∧
      ¬ Ring3CannotWrite (t.inDirectory out.directory) := by
  obtain ⟨out, t, hrun, -⟩ := heapDir_created
  exact ⟨out, t, hrun, kernel_image_writable builtByInit_heapDir (by decide) hrun⟩

/-- There ring 3 can write to the first page of the kernel. -/
theorem kernel_image_written : BuiltByInit heapDir ∧ ∃ out t,
    outcome (kprocessCreateUser bootImage newProcess 0xC0102010) heapDir = some (some out, t) ∧
      (t.inDirectory out.directory).userWritable 0xC0100 = true ∧
      ¬ Ring3CannotWrite (t.inDirectory out.directory) := by
  obtain ⟨out, t, hrun, hwritable⟩ := heapDir_created
  refine ⟨builtByInit_heapDir, out, t, hrun, hwritable, ?_⟩
  intro hcannot
  rw [hcannot 0xC0100 (by decide) (by decide)] at hwritable
  cases hwritable

end DelOs
