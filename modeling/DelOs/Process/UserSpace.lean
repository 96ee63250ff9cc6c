import DelOs.Process.Directory

/-!
# The user space that a creation leaves

The helpers of `kprocess_create_user` put together: every slot of the new directory, every
entry of its table of the kernel image and of its table of the stack, and the frames drawn.

* `UserSpace` — what a successful creation leaves.
* `KernelHalf` — where it stands when the kernel's half is done; `KernelHalf.userSpace`: **the stack
  completes it**.
* `kprocessCreateUser_spec` — **however the creation ends, it `Extends` the state it began in;
  when it succeeds, it leaves a `UserSpace`**.
-/

namespace DelOs

open Attempt FlagRuns TwoLevel

variable {r s t : Vmm} {img : KernelImage} {entry p u q a : Nat} {v : Option Nat}

/-! ## Opened tables -/

/-- Two entries that differ in the user bit at most. -/
structure SameTarget (e e' : PageEntry) : Prop where
  present : e'.present = e.present
  rw : e'.rw = e.rw
  frame : e'.frame = e.frame

theorem SameTarget.refl (e : PageEntry) : SameTarget e e := ⟨rfl, rfl, rfl⟩

theorem SameTarget.trans {e e' e'' : PageEntry} (h₁ : SameTarget e e') (h₂ : SameTarget e' e'') :
    SameTarget e e'' :=
  ⟨h₂.present.trans h₁.present, h₂.rw.trans h₁.rw, h₂.frame.trans h₁.frame⟩

theorem sameTarget_withUser (m : Nat → PageEntry) (j i : Nat) : SameTarget (m i) (withUser m j i) := by
  unfold withUser
  split_ifs with hi
  · subst hi
    exact ⟨rfl, rfl, rfl⟩
  · exact .refl _

theorem user_withUser (m : Nat → PageEntry) (j i : Nat) :
    (withUser m j i).user = true ↔ i = j ∨ (m i).user = true := by
  unfold withUser
  split_ifs with hi
  · simp [hi]
  · simp [hi]

/-- An address behind `KERNEL_VIRTUAL_BASE` in the slot of the image. -/
def InImage (entry : Nat) : Prop := kernelVirtualBase ≤ entry ∧ pdeIndex entry = kvmmPdIndex

theorem inImage_syscall (img : KernelImage) : InImage img.syscall := by
  have h := img.syscall_slot
  refine ⟨?_, syscall_pdeIndex img⟩
  unfold kernelVirtualBase
  unfold kvmmPdIndex at h
  omega

/-- The page of an entry in the image is present. -/
theorem EntryMapped.image_present (h : EntryMapped entry s t p u) (hin : InImage entry) :
    (s.frames (imageTable s) (pteIndex entry)).present = true := by
  cases h with
  | user low _ _ => exact absurd hin.1 (by omega)
  | image _ _ present _ _ => exact present
  | other _ _ slot _ _ _ _ => exact absurd hin.2 slot

/-- An entry in the image is opened in the table `u`, and the directory stays. -/
theorem EntryMapped.opens_image (h : EntryMapped entry s t p u) (hin : InImage entry) :
    t.frames p = s.frames p ∧ t.frames u = withUser (s.frames u) (pteIndex entry) := by
  cases h with
  | user low _ _ => exact absurd hin.1 (by omega)
  | image _ _ _ dir table => exact ⟨dir, table⟩
  | other _ _ slot _ _ _ _ => exact absurd hin.2 slot

/-- The slot that an entry outside the image is given, if it is. -/
def ownSlot (e : PageEntry) : Option Nat → PageEntry
  | none => e
  | some v => e.grant (v * kpmmPageSize)

/-- The kernel half after the stub and both entries are mapped: the table `u` in the slot of the
image, `v` in that of an entry outside the image. -/
structure KernelSide (img : KernelImage) (entry : Nat) (s t : Vmm) (p u : Nat) (v : Option Nat) :
    Prop where
  dir : ∀ i, t.frames p i =
    if i = kvmmPdIndex then (s.frames p kvmmPdIndex).grant (u * kpmmPageSize)
    else if i = pdeIndex entry then ownSlot (s.frames p i) v else s.frames p i
  target : ∀ i, SameTarget (s.frames (imageTable s) i) (t.frames u i)
  user : ∀ i, (t.frames u i).user = true ↔ (s.frames (imageTable s) i).user = true ∨
    i = pteIndex img.ktaskStubs ∨ i = pteIndex img.syscall ∨ InImage entry ∧ i = pteIndex entry
  outside : ∀ f ∈ v, kernelVirtualBase ≤ entry ∧ pdeIndex entry ≠ kvmmPdIndex

/-- The slot of the stack is not that of an entry behind `KERNEL_VIRTUAL_BASE`. -/
theorem ownSlot_stack (hentry : entry < 2 ^ 32)
    (hv : ∀ f ∈ v, kernelVirtualBase ≤ entry ∧ pdeIndex entry ≠ kvmmPdIndex)
    (hslot : stackSlot = pdeIndex entry) : ownSlot PageEntry.zero v = PageEntry.zero := by
  cases v with
  | none => rfl
  | some f =>
    obtain ⟨hbase, -⟩ := hv f rfl
    unfold stackSlot pdeIndex at hslot
    unfold kernelVirtualBase at hbase
    omega

theorem kernelSide_of_mapped {s₁ s₂ : Vmm} (hstub : StubMapped img s s₁ p u)
    (hsys : EntryMapped img.syscall s₁ s₂ p u) (hentry : EntryMapped entry s₂ t p u) :
    ∃ v, KernelSide img entry s t p u v ∧
      ∀ f ∈ v, s₂.pmm.flags[f]? = some true ∧ Reserved t f := by
  -- `__syscall__` lies in the image
  obtain ⟨hdir₂, htable₂⟩ := hsys.opens_image (inImage_syscall img)
  have hslots : ∀ i, s₂.frames p i = if i = kvmmPdIndex then
      (s.frames p kvmmPdIndex).grant (u * kpmmPageSize) else s.frames p i := by
    intro i
    rw [hdir₂, hstub.dir]
  have htarget : ∀ i, SameTarget (s.frames (imageTable s) i) (s₂.frames u i) := by
    intro i
    rw [htable₂, hstub.table]
    exact (sameTarget_withUser _ _ i).trans (sameTarget_withUser _ _ i)
  have huser : ∀ i, (s₂.frames u i).user = true ↔ (s.frames (imageTable s) i).user = true ∨
      i = pteIndex img.ktaskStubs ∨ i = pteIndex img.syscall := by
    intro i
    rw [htable₂, hstub.table, user_withUser, user_withUser]
    tauto
  cases hentry with
  | user low dir table =>
    have hout : ¬ InImage entry := fun h => absurd h.1 (by omega)
    refine ⟨none, ⟨?_, ?_, ?_, fun f hf => by cases hf⟩, fun f hf => by cases hf⟩
    · intro i
      rw [dir, hslots]
      simp only [ownSlot, ite_self]
    · intro i
      rw [table]
      exact htarget i
    · intro i
      rw [table, huser]
      tauto
  | image high slot _ dir table =>
    refine ⟨none, ⟨?_, ?_, ?_, fun f hf => by cases hf⟩, fun f hf => by cases hf⟩
    · intro i
      rw [dir, hslots]
      simp only [ownSlot, ite_self]
    · intro i
      rw [table]
      exact (htarget i).trans (sameTarget_withUser _ _ i)
    · intro i
      rw [table, user_withUser, huser]
      have hin' : InImage entry := ⟨high, slot⟩
      tauto
  | other w high slot free reserved dir table =>
    have hout : ¬ InImage entry := fun h => slot h.2
    refine ⟨some w, ⟨?_, ?_, ?_, fun f _ => ⟨high, slot⟩⟩, ?_⟩
    · intro i
      rw [dir, hslots, hslots, if_neg slot]
      by_cases hi : i = pdeIndex entry
      · rw [if_pos hi, if_neg (hi ▸ slot), if_pos hi, hi]
        rfl
      · rw [if_neg hi, if_neg hi]
    · intro i
      rw [table]
      exact htarget i
    · intro i
      rw [table, huser]
      tauto
    · intro f hf
      obtain rfl := Option.some.inj hf
      exact ⟨free, reserved⟩

/-! ## The whole creation -/

/-- What `clone_kernel_high_half` puts in a slot. -/
def clonedSlot (s : Vmm) (p i : Nat) : PageEntry :=
  if kvmmPdIndex ≤ i ∧ i < 1023 then s.frames s.cr3 i
  else if i = 1023 then selfEntry PageEntry.zero p else PageEntry.zero

/-- The frames drawn: the directory, the table of the image, that of an entry outside it, the
table of the stack, and the stack. -/
def drawnFrames (p u q a : Nat) (v : Option Nat) : List Nat :=
  p :: u :: (v.toList ++ q :: (List.range kprocessUserStackPageCount).map (a + ·))

/-- The frames drawn differ from one another. -/
structure Distinct (p u q a : Nat) (v : Option Nat) : Prop where
  dir_image : p ≠ u
  dir_entry : ∀ f ∈ v, p ≠ f
  dir_stack : p ≠ q
  dir_page : ∀ j < kprocessUserStackPageCount, p ≠ a + j
  image_entry : ∀ f ∈ v, u ≠ f
  image_stack : u ≠ q
  image_page : ∀ j < kprocessUserStackPageCount, u ≠ a + j
  entry_stack : ∀ f ∈ v, f ≠ q
  entry_page : ∀ f ∈ v, ∀ j < kprocessUserStackPageCount, f ≠ a + j
  stack_page : ∀ j < kprocessUserStackPageCount, q ≠ a + j

/-- What a creation that succeeds leaves, seen from the state `t` at its end. -/
structure UserSpace (img : KernelImage) (entry : Nat) (s t : Vmm) (p u q a : Nat)
    (v : Option Nat) : Prop where
  building : Building t p
  image : (t.frames t.cr3 kvmmPdIndex).present = true
  dir : ∀ i, t.frames p i =
    if i = stackSlot then PageEntry.zero.grant (q * kpmmPageSize)
    else if i = kvmmPdIndex then (t.frames t.cr3 i).grant (u * kpmmPageSize)
    else if i = pdeIndex entry then ownSlot (clonedSlot t p i) v else clonedSlot t p i
  target : ∀ i, SameTarget (t.frames (imageTable t) i) (t.frames u i)
  user : ∀ i, (t.frames u i).user = true ↔ (t.frames (imageTable t) i).user = true ∨
    i = pteIndex img.ktaskStubs ∨ i = pteIndex img.syscall ∨ InImage entry ∧ i = pteIndex entry
  present : ∀ i, (i = pteIndex img.ktaskStubs ∨ i = pteIndex img.syscall ∨
    InImage entry ∧ i = pteIndex entry) → (t.frames (imageTable t) i).present = true
  pages : StackPages t q a kprocessUserStackPageCount
  outside : ∀ f ∈ v, kernelVirtualBase ≤ entry ∧ pdeIndex entry ≠ kvmmPdIndex
  distinct : Distinct p u q a v
  drawn : ∀ f ∈ drawnFrames p u q a v, s.pmm.flags[f]? = some true ∧ Reserved t f

theorem mem_drawnFrames {f : Nat} : f ∈ drawnFrames p u q a v ↔
    f = p ∨ f = u ∨ f ∈ v ∨ f = q ∨ ∃ j < kprocessUserStackPageCount, f = a + j := by
  simp [drawnFrames, eq_comm]

/-! ## The kernel half -/

variable {s₁ s₂ s₃ s₄ s₅ s₆ : Vmm}

/-- The states of a creation up to the stack: `s₁` with a blank directory `p`, `s₂` with the slots
of the kernel in it, `s₃` with the stub, `s₄` with `__syscall__`, and `s₅` with the entry. -/
structure KernelHalf (img : KernelImage) (entry : Nat) (s s₁ s₂ s₃ s₄ s₅ : Vmm) (p u : Nat)
    (v : Option Nat) : Prop where
  begun : Extends s s₁
  free : s.pmm.flags[p]? = some true
  building : Building s₁ p
  cloned : Builds [p] s₁ s₂
  slots : ∀ i, s₂.frames p i = clonedSlot s₁ p i
  stub : StubMapped img s₂ s₃ p u
  stubbed : Builds [p] s₁ s₃
  syscall : EntryMapped img.syscall s₃ s₄ p u
  called : Builds [p] s₁ s₄
  mapped : EntryMapped entry s₄ s₅ p u
  entered : Builds [p] s₁ s₅
  side : KernelSide img entry s₂ s₅ p u v
  reserved : Reserved s₄ u ∧ Reserved s₅ u
  outside : ∀ f ∈ v, s₄.pmm.flags[f]? = some true ∧ Reserved s₅ f

namespace KernelHalf

variable (h : KernelHalf img entry s s₁ s₂ s₃ s₄ s₅ p u v)

include h

theorem free_of {x : Nat} (hx : s₁.pmm.flags[x]? = some true) : s.pmm.flags[x]? = some true :=
  h.begun.table.free hx

theorem dir_ne_image : p ≠ u := (h.cloned.building h.building).own.ne_free h.stub.free

/-- The slot of the stack is still free. -/
theorem stackSlot_eq (hentry : entry < 2 ^ 32) : s₅.frames p stackSlot = PageEntry.zero := by
  have hzero : s₂.frames p stackSlot = PageEntry.zero := by
    rw [h.slots, clonedSlot, if_neg (by decide), if_neg (by decide)]
  rw [h.side.dir, if_neg (by decide), hzero]
  split_ifs with hi
  · exact ownSlot_stack hentry h.side.outside hi
  · rfl

theorem image_present : (s₁.frames s₁.cr3 kvmmPdIndex).present = true :=
  h.cloned.slot kvmmPdIndex ▸ h.stub.image

/-- The kernel's own table of the image stays as it is. -/
theorem imageTable_eq (hb : Builds [p] s₁ t) :
    t.frames (imageTable t) = s₁.frames (imageTable s₁) := by
  unfold imageTable
  rw [hb.slot]
  exact hb.table_eq h.building.ready (by decide) h.image_present (by decide) fun x hx =>
    Or.inl (List.mem_singleton.1 hx ▸ h.building.own)

/-- The pages that are opened to the user are mapped. -/
theorem present (hb : Builds [p] s₁ t) {i : Nat} (hi : i = pteIndex img.ktaskStubs ∨
    i = pteIndex img.syscall ∨ InImage entry ∧ i = pteIndex entry) :
    (t.frames (imageTable t) i).present = true := by
  rw [h.imageTable_eq hb]
  rcases hi with rfl | rfl | ⟨hin, rfl⟩
  · rw [← h.imageTable_eq h.cloned]
    exact h.stub.present
  · rw [← h.imageTable_eq h.stubbed]
    exact h.syscall.image_present (inImage_syscall img)
  · rw [← h.imageTable_eq h.called]
    exact h.mapped.image_present hin

/-! ## The stack -/

section Stack

variable (hstack : StackMapped s₅ s₆ p q a)

include hstack

theorem distinct : Distinct p u q a v := by
  have h₅ := h.entered.building h.building
  have hrun : ∀ j < kprocessUserStackPageCount, s₅.pmm.flags[a + j]? = some true :=
    fun j hj => (hstack.stack j hj).1
  refine ⟨h.dir_ne_image, ?_, h₅.own.ne_free hstack.free, ?_, ?_, h.reserved.2.ne_free hstack.free,
    ?_, ?_, ?_, fun j hj => (hstack.stack j hj).2.2⟩
  · exact fun f hf => (h.called.building h.building).own.ne_free (h.outside f hf).1
  · exact fun j hj => h₅.own.ne_free (hrun j hj)
  · exact fun f hf => h.reserved.1.ne_free (h.outside f hf).1
  · exact fun j hj => h.reserved.2.ne_free (hrun j hj)
  · exact fun f hf => (h.outside f hf).2.ne_free hstack.free
  · exact fun f hf j hj => (h.outside f hf).2.ne_free (hrun j hj)

variable (hb₆ : Builds [p] s₅ s₆) (hb₇ : Builds [a + 3] s₆ t)

include hb₆ hb₇

theorem builds : Builds [p] s₁ t :=
  (h.entered.trans hb₆ fun _ hx => Or.inl hx).trans_fresh hb₇
    (h.entered.free (hstack.stack 3 (by decide)).1)

/-- The frames of the new directory's tables are not the last page of the stack. -/
theorem frames_eq {f : Nat} (hf : Reserved s₅ f) (hfp : f ≠ p) : t.frames f = s₅.frames f := by
  have h₅ := h.entered.building h.building
  rw [hb₇.frames_eq (hb₆.building h₅).ready (hb₆.reserved hf)
    (by simpa using hf.ne_free (hstack.stack 3 (by decide)).1),
    hb₆.frames_eq h₅.ready hf (by simpa using hfp)]

/-- Every slot of the new directory. -/
theorem dir_eq (hentry : entry < 2 ^ 32) (i : Nat) : t.frames p i =
    if i = stackSlot then PageEntry.zero.grant (q * kpmmPageSize)
    else if i = kvmmPdIndex then (t.frames t.cr3 i).grant (u * kpmmPageSize)
    else if i = pdeIndex entry then ownSlot (clonedSlot t p i) v else clonedSlot t p i := by
  have h₅ := h.entered.building h.building
  have h₆ := hb₆.building h₅
  have hslot : ∀ i, t.frames t.cr3 i = s₁.frames s₁.cr3 i := (h.builds hstack hb₆ hb₇).slot
  have hcloned : ∀ i, s₂.frames p i = clonedSlot t p i := by
    intro i
    rw [h.slots, clonedSlot, clonedSlot, hslot]
  have hfirst : s₂.frames p kvmmPdIndex = t.frames t.cr3 kvmmPdIndex := by
    rw [h.slots, clonedSlot, if_pos (by decide), hslot]
  rw [hb₇.frames_eq h₆.ready h₆.own (by simpa using h₅.own.ne_free (hstack.stack 3 (by decide)).1),
    hstack.dir, h.stackSlot_eq hentry, h.side.dir, hfirst, hcloned]
  by_cases hi : i = kvmmPdIndex
  · rw [hi]
  · simp only [hi, if_false]

/-- The frames drawn were free, and are reserved. -/
theorem drawn {f : Nat} (hf : f ∈ drawnFrames p u q a v) :
    s.pmm.flags[f]? = some true ∧ Reserved t f := by
  have hb := h.builds hstack hb₆ hb₇
  rcases mem_drawnFrames.1 hf with rfl | rfl | hf | rfl | ⟨j, hj, rfl⟩
  · exact ⟨h.free, hb.reserved h.building.own⟩
  · exact ⟨h.free_of (h.cloned.free h.stub.free),
      hb₇.reserved (hb₆.reserved h.reserved.2)⟩
  · exact ⟨h.free_of (h.called.free (h.outside f hf).1),
      hb₇.reserved (hb₆.reserved (h.outside f hf).2)⟩
  · exact ⟨h.free_of (h.entered.free hstack.free), hb₇.reserved hstack.reserved⟩
  · obtain ⟨hfree, hres₆, -⟩ := hstack.stack j hj
    exact ⟨h.free_of (h.entered.free hfree), hb₇.reserved hres₆⟩

/-- **With the stack, the user space is complete.** -/
theorem userSpace (hentry : entry < 2 ^ 32) : UserSpace img entry s t p u q a v := by
  have hb := h.builds hstack hb₆ hb₇
  have h₆ := hb₆.building (h.entered.building h.building)
  have himage : t.frames (imageTable t) = s₂.frames (imageTable s₂) := by
    rw [h.imageTable_eq hb, h.imageTable_eq h.cloned]
  have htable : t.frames u = s₅.frames u :=
    h.frames_eq hstack hb₆ hb₇ h.reserved.2 h.dir_ne_image.symm
  constructor
  case building => exact hb.building h.building
  case image =>
    rw [hb.slot]
    exact h.image_present
  case dir => exact h.dir_eq hstack hb₆ hb₇ hentry
  case target =>
    intro i
    rw [himage, htable]
    exact h.side.target i
  case user =>
    intro i
    rw [himage, htable]
    exact h.side.user i
  case present => exact fun i hi => h.present hb hi
  case pages =>
    intro i
    rw [hb₇.frames_eq h₆.ready hstack.reserved (by simpa using (hstack.stack 3 (by decide)).2.2)]
    exact hstack.pages i
  case outside => exact h.side.outside
  case distinct => exact h.distinct hstack
  case drawn => exact fun f hf => h.drawn hstack hb₆ hb₇ hf

end Stack

end KernelHalf

/-! ## The run -/

/-- **`kprocess_create_user`**: however it ends, and what it leaves when it succeeds. -/
theorem kprocessCreateUser_spec (img : KernelImage) (process : UserProcess) (hd : DirOk s)
    (hentry : entry < 2 ^ 32) :
    Ensures (kprocessCreateUser img process entry) s (Extends s) (fun out t => ∃ p u q a v,
      out.pageDirectoryPhys = p * kpmmPageSize ∧ UserSpace img entry s t p u q a v) := by
  unfold kprocessCreateUser
  split_ifs
  · exact ensures_refuse (.refl hd)
  refine (allocPageDirectory_spec hd).bind (fun t ht => ht) ?_
  rintro _ s₁ hext ⟨p, rfl, hpfree, hready, hpres, hshows, hblank⟩
  have h₁ : Building s₁ p := ⟨hready, hpres, hshows⟩
  have hfin : ∀ t, Builds [p] s₁ t → Extends s t := fun t ht =>
    hext.builds ht hready fun x hx => List.mem_singleton.1 hx ▸ hpfree
  refine (cloneKernelHighHalf_spec h₁ hblank).bind (fun t ht => hfin t ht) ?_
  intro _ s₂ hb₂ hslots₂
  have h₂ := hb₂.building h₁
  refine (mapStubUserPage_spec img h₂).bind
    (fun t ht => hfin t (hb₂.trans ht fun x hx => Or.inl hx)) ?_
  rintro _ s₃ hb ⟨u, rfl, hstub⟩
  have hb₃ : Builds [p] s₁ s₃ := hb₂.trans hb fun x hx => Or.inl hx
  have h₃ := hb₃.building h₁
  have hpu := h₂.own.ne_free hstub.free
  have hnew : ∀ x ∈ [p, u], x ∈ [p] ∨ s₁.pmm.flags[x]? = some true := by
    intro x hx
    rcases List.mem_cons.1 hx with rfl | hx
    · exact Or.inl List.mem_cons_self
    · exact Or.inr (List.mem_singleton.1 hx ▸ hb₂.free hstub.free)
  refine (mapEntryIfKernel_spec img.syscall h₃ hstub.reserved hpu).bind
    (fun t ht => hfin t (hb₃.trans ht hnew)) ?_
  intro _ s₄ hb₃₄ hsys
  have hb₄ : Builds [p] s₁ s₄ := hb₃.trans hb₃₄ hnew
  have hu₄ := hb₃₄.reserved hstub.reserved
  refine (mapEntryIfKernel_spec entry (hb₄.building h₁) hu₄ hpu).bind
    (fun t ht => hfin t (hb₄.trans ht hnew)) ?_
  intro _ s₅ hb₄₅ hent
  have hb₅ : Builds [p] s₁ s₅ := hb₄.trans hb₄₅ hnew
  obtain ⟨v, hside, hv⟩ := kernelSide_of_mapped hstub hsys hent
  have hhalf : KernelHalf img entry s s₁ s₂ s₃ s₄ s₅ p u v :=
    ⟨hext, hpfree, h₁, hb₂, hslots₂, hstub, hb₃, hsys, hb₄, hent, hb₅, hside,
      ⟨hu₄, hb₄₅.reserved hu₄⟩, hv⟩
  have hfree : (s₅.frames p stackSlot).present = false := by
    rw [hhalf.stackSlot_eq hentry]
    rfl
  refine (mapUserStack_spec (hb₅.building h₁) hfree).bind
    (fun t ht => hfin t (hb₅.trans ht fun x hx => Or.inl hx)) ?_
  rintro _ s₆ hb₆ ⟨q, a, rfl, hstack⟩
  have h₆ := hb₆.building (hb₅.building h₁)
  refine (setupInitialStack_spec entry process h₆.ready hstack.bound
    (hstack.stack 3 (by decide)).2.1).bind
    (fun t ht => hfin t (hhalf.builds hstack hb₆ ht)) ?_
  rintro out t hb₇ -
  exact ensures_pure (hfin t (hhalf.builds hstack hb₆ hb₇))
    ⟨p, u, q, a, v, rfl, hhalf.userSpace hstack hb₆ hb₇ hentry⟩

end DelOs
