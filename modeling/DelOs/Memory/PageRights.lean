import DelOs.Memory.TableClearing
import DelOs.Memory.TableFrames

/-!
# The rights of a mapped page

The processor grants what both entries of a page grant.  `kvmm_map_page` writes the flags of a
mapping to the table entry, and to the directory entry only when it makes the table.

* `effectiveRights` — what the processor grants.
* `PageCall`, `Ledger.step` — the calls, and the rights that the last mapping of each page asked for.
* `PageEntry.Grants` — the directory entry of a page grants what a mapping asks for.
* `asAsked_map_iff` — **a mapping that needs no table gets its rights exactly if it does.**
* `always_as_asked_iff` — **the same for whole runs.**
-/

namespace DelOs

open Transition TwoLevel

/-! ## Runs of mappings -/

/-- A call of `kvmm_map_page` or `kvmm_unmap_page`. -/
inductive PageCall where
  | map (vaddr paddr flags : Nat)
  | unmap (vaddr : Nat)
  deriving DecidableEq, Repr

/-- The page lies outside the recursive window, and `KVMM_FLAG_PRESENT` is among the flags. -/
def PageCall.Plain : PageCall → Prop
  | .map vaddr _ flags => vaddr < windowStart * 4096 ∧ hasFlag flags flagPresent = true
  | .unmap vaddr => vaddr < windowStart * 4096

instance (c : PageCall) : Decidable c.Plain := by
  cases c <;> (unfold PageCall.Plain; infer_instance)

/-- `KVMM_FLAG_RW` and `KVMM_FLAG_USER` of some flags. -/
def askedRights (flags : Nat) : Bool × Bool := (hasFlag flags flagRw, hasFlag flags flagUser)

/-- What the processor grants at a page: to write, and to ring 3. -/
def effectiveRights (s : Vmm) (page : Nat) : Option (Bool × Bool) :=
  (s.translate page).map fun t => (t.dirRw && t.rw, t.dirUser && t.user)

/-- The tables, and the rights that the last mapping of each page asked for. -/
structure Ledger where
  vmm : Vmm
  asked : Nat → Option (Bool × Bool)

namespace Ledger

/-- Note what is asked for a page, if the call worked. -/
def note (asked : Nat → Option (Bool × Bool)) (vaddr : Nat) (rights : Option (Bool × Bool))
    (r : Bool × Vmm) : Ledger :=
  ⟨r.2, if r.1 then fun page => if page = vaddr / 4096 then rights else asked page else asked⟩

/-- One call. -/
def step (l : Ledger) : PageCall → Option Ledger
  | .map vaddr paddr flags =>
      (l.vmm.kvmmMapPage vaddr paddr flags).map (note l.asked vaddr (some (askedRights flags)))
  | .unmap vaddr => (l.vmm.kvmmUnmapPage vaddr).map (note l.asked vaddr none)

/-- Every page that has been mapped has the rights that were asked for. -/
def AsAsked (l : Ledger) : Prop :=
  ∀ page < windowStart, ∀ rights, l.asked page = some rights →
    effectiveRights l.vmm page = some rights

/-- ... in every state of a run. -/
def AlwaysAsAsked (l : Ledger) (calls : List PageCall) : Prop :=
  ∀ before after, calls = before ++ after → ∀ t, run step l before = some t → t.AsAsked

end Ledger

/-- The entry grants what the flags ask for. -/
def PageEntry.Grants (e : PageEntry) (flags : Nat) : Prop :=
  (hasFlag flags flagRw = true → e.rw = true) ∧ (hasFlag flags flagUser = true → e.user = true)

/-- A mapping that goes through in a table that is there has a directory entry that grants what it
asks for. -/
def RightsFit (s : Vmm) : PageCall → Prop
  | .map vaddr paddr flags => vaddr % 4096 = 0 → paddr % 4096 = 0 →
      (s.frames s.cr3 (pdeIndex vaddr)).present = true → s.translate (vaddr / 4096) = none →
      PageEntry.Grants (s.frames s.cr3 (pdeIndex vaddr)) flags
  | .unmap _ => True

/-- The clearing of a new table is harmless. -/
def ClearSafe (s : Vmm) : PageCall → Prop
  | .map vaddr paddr _ => NewTableSafe s vaddr paddr
  | .unmap _ => True

variable {s t : Vmm} {l r : Ledger}

/-! ## One call -/

theorem effectiveRights_congr {page : Nat} (h : t.translate page = s.translate page) :
    effectiveRights t page = effectiveRights s page := by
  unfold effectiveRights
  rw [h]

/-- The rights of a new translation are those asked for exactly if the directory entry covers
them. -/
theorem effectiveRights_new {page vaddr paddr flags : Nat}
    (h : t.translate page = some (newTranslation s vaddr paddr flags)) :
    effectiveRights t page = some (askedRights flags) ↔
      PageEntry.Grants (s.frames s.cr3 (pdeIndex vaddr)) flags := by
  unfold effectiveRights askedRights PageEntry.Grants newTranslation at *
  rw [h]
  cases hasFlag flags flagRw <;> cases hasFlag flags flagUser <;> simp

/-- Changing one page of the map and of what is asked for. -/
theorem Ledger.AsAsked.update (ha : l.AsAsked) {page : Nat} {rights : Option (Bool × Bool)}
    (hpage : page < windowStart)
    (hother : ∀ q < windowStart, q ≠ page → t.translate q = l.vmm.translate q) :
    Ledger.AsAsked ⟨t, fun q => if q = page then rights else l.asked q⟩ ↔
      ∀ r, rights = some r → effectiveRights t page = some r := by
  constructor
  · intro h r hr
    exact h page hpage r ((if_pos rfl).trans hr)
  · intro h q hq r hr
    by_cases hqp : q = page
    · subst hqp
      exact h r ((if_pos rfl).symm.trans hr)
    · have hwas : l.asked q = some r := (if_neg hqp).symm.trans hr
      exact (effectiveRights_congr (hother q hq hqp)).trans (ha q hq r hwas)

/-- A call that changes no translation. -/
theorem Ledger.AsAsked.sameMap (ha : l.AsAsked) (hsame : SameMap l.vmm t) :
    Ledger.AsAsked ⟨t, l.asked⟩ :=
  fun q hq r hr => (effectiveRights_congr (hsame q hq)).trans (ha q hq r hr)

/-- What is known after a call: the tables are in order, and every page has the rights asked for if
and only if `P`. -/
structure After (l : Ledger) (c : PageCall) (P : Prop) : Prop where
  dirOk : ∀ r, l.step c = some r → DirOk r.vmm
  asAsked : (∀ r, l.step c = some r → r.AsAsked) ↔ P

theorem After.of_step {c : PageCall} {P : Prop} (h : l.step c = some r) (hd : DirOk r.vmm)
    (ha : r.AsAsked ↔ P) : After l c P := by
  refine ⟨fun r' hr' => ?_, fun hall => ha.1 (hall r h), fun hp r' hr' => ?_⟩
  · rw [h] at hr'
    cases hr'
    exact hd
  · rw [h] at hr'
    cases hr'
    exact ha.2 hp

theorem After.of_none {c : PageCall} {P : Prop} (h : l.step c = none) (hp : P) : After l c P := by
  refine ⟨fun r hr => ?_, iff_of_true (fun r hr => ?_) hp⟩
  all_goals
    rw [h] at hr
    cases hr

/-- **A mapping in a table that is there** gets its rights exactly if the directory entry covers
them. -/
theorem asAsked_map_present (hd : DirOk l.vmm) (ha : l.AsAsked) {vaddr paddr flags : Nat}
    (hplain : PageCall.Plain (.map vaddr paddr flags)) (hv : vaddr % 4096 = 0)
    (hp : paddr % 4096 = 0)
    (hpresent : (l.vmm.frames l.vmm.cr3 (pdeIndex vaddr)).present = true) :
    After l (.map vaddr paddr flags) (RightsFit l.vmm (.map vaddr paddr flags)) := by
  obtain ⟨hwindow, hflags⟩ := hplain
  have hcall := (kvmmMapPage_of_present hd.self hpresent hv hp).trans
    (fillEntry_eq hd.self paddr flags hpresent)
  have htr := translate_page l.vmm (pdeIndex vaddr) (pteIndex_lt vaddr)
  rw [← page_eq hwindow, if_pos hpresent] at htr
  cases hpte : (l.vmm.frames (l.vmm.frames l.vmm.cr3 (pdeIndex vaddr)).frame
      (pteIndex vaddr)).present with
  | true =>
    -- the page is mapped already
    rw [hpte] at hcall htr
    have hstep : l.step (.map vaddr paddr flags) = some ⟨l.vmm, l.asked⟩ := by
      rw [Ledger.step, hcall]
      rfl
    refine .of_step hstep hd (iff_of_true ha ?_)
    intro _ _ _ hnone
    rw [htr] at hnone
    cases hnone
  | false =>
    rw [hpte] at hcall htr
    have hstep : l.step (.map vaddr paddr flags) = some ⟨withEntry l.vmm vaddr paddr flags,
        fun q => if q = vaddr / 4096 then some (askedRights flags) else l.asked q⟩ := by
      rw [Ledger.step, hcall]
      rfl
    have hmap : ∀ q < windowStart, (withEntry l.vmm vaddr paddr flags).translate q =
        if q = vaddr / 4096 then some (newTranslation l.vmm vaddr paddr flags)
        else l.vmm.translate q :=
      fun q hq => translate_withEntry hd.tidy hwindow hq hpresent hflags
    have hpage : vaddr / 4096 < windowStart := by omega
    have htable := (TableStep.refl hd (pdeIndex vaddr) flags).withEntry paddr flags
      hwindow hpresent
    refine .of_step hstep htable.dirOk ?_
    rw [ha.update hpage fun q hq hne => (hmap q hq).trans (if_neg hne)]
    have hnew := effectiveRights_new ((hmap _ hpage).trans (if_pos rfl))
    constructor
    · intro h _ _ _ _
      exact hnew.1 (h _ rfl)
    · rintro h _ ⟨⟩
      exact hnew.2 (h hv hp hpresent htr)

/-- A mapping that has to make its table gives the directory entry its own flags. -/
theorem asAsked_map_fresh (hd : DirOk l.vmm) (ha : l.AsAsked) {vaddr paddr flags : Nat}
    (hplain : PageCall.Plain (.map vaddr paddr flags))
    (hsafe : NewTableSafe l.vmm vaddr paddr)
    (habsent : (l.vmm.frames l.vmm.cr3 (pdeIndex vaddr)).present = false) :
    After l (.map vaddr paddr flags) (RightsFit l.vmm (.map vaddr paddr flags)) := by
  obtain ⟨hwindow, hflags⟩ := hplain
  have hfit : RightsFit l.vmm (.map vaddr paddr flags) := by
    intro _ _ hpresent
    rw [habsent] at hpresent
    cases hpresent
  rcases kvmmMapPageVia_spec hd paddr hwindow hflags (clearWorks_of_safe hd hsafe) with
    ⟨hnone, -⟩ | ⟨ok, t, hcall, hstep⟩
  · exact .of_none (by rw [Ledger.step, Vmm.kvmmMapPage, hnone]; rfl) hfit
  have hnext : l.step (.map vaddr paddr flags) =
      some (Ledger.note l.asked vaddr (some (askedRights flags)) (ok, t)) := by
    rw [Ledger.step, Vmm.kvmmMapPage, hcall]
    rfl
  refine .of_step hnext hstep.table.dirOk (iff_of_true ?_ hfit)
  cases ok with
  | false => exact ha.sameMap (hstep.refused rfl)
  | true =>
    obtain ⟨-, hpresent, -, hmap⟩ := hstep.mapped rfl
    have hpage : vaddr / 4096 < windowStart := by omega
    refine (ha.update hpage fun q hq hne => (hmap q hq).trans (if_neg hne)).2 ?_
    rintro _ ⟨⟩
    refine (effectiveRights_new ((hmap _ hpage).trans (if_pos rfl))).2 ?_
    obtain ⟨-, hrw, huser⟩ := hstep.table.fresh habsent hpresent
    exact ⟨fun h => hrw.trans h, fun h => huser.trans h⟩

/-- **What a mapping does to the rights.** -/
theorem asAsked_map_iff (hd : DirOk l.vmm) (ha : l.AsAsked) {vaddr paddr flags : Nat}
    (hplain : PageCall.Plain (.map vaddr paddr flags))
    (hsafe : NewTableSafe l.vmm vaddr paddr) :
    After l (.map vaddr paddr flags) (RightsFit l.vmm (.map vaddr paddr flags)) := by
  by_cases hal : vaddr % 4096 ≠ 0 ∨ paddr % 4096 ≠ 0
  · have hstep : l.step (.map vaddr paddr flags) = some ⟨l.vmm, l.asked⟩ := by
      rw [Ledger.step, Vmm.kvmmMapPage, Vmm.kvmmMapPageVia, if_pos hal]
      rfl
    refine .of_step hstep hd (iff_of_true ha fun hv hp => ?_)
    exact absurd hal (by omega)
  · obtain ⟨hv, hp⟩ := not_or.1 hal
    rw [not_not] at hv hp
    cases hpresent : (l.vmm.frames l.vmm.cr3 (pdeIndex vaddr)).present with
    | true => exact asAsked_map_present hd ha hplain hv hp hpresent
    | false => exact asAsked_map_fresh hd ha hplain hsafe hpresent

/-- Unmapping a page leaves the rights of the others. -/
theorem asAsked_unmap (hd : DirOk l.vmm) (ha : l.AsAsked) {vaddr : Nat}
    (hplain : PageCall.Plain (.unmap vaddr)) : After l (.unmap vaddr) True := by
  obtain ⟨ok, t, hcall, hfalse, htrue, hiff⟩ := kvmmUnmapPage_spec hd hplain
  have hwindow : vaddr < windowStart * 4096 := hplain
  have hnext : l.step (.unmap vaddr) = some (Ledger.note l.asked vaddr none (ok, t)) := by
    rw [Ledger.step, hcall]
    rfl
  cases ok with
  | false =>
    obtain rfl := hfalse rfl
    exact .of_step hnext hd (iff_of_true ha trivial)
  | true =>
    have hv := (hiff.1 rfl).1
    have hdir := (kvmmUnmapPage_effect hd 0 hv hwindow hcall).1.dirOk
    refine .of_step hnext hdir (iff_of_true ?_ trivial)
    have hother : ∀ q < windowStart, q ≠ vaddr / 4096 → t.translate q = l.vmm.translate q :=
      fun q hq hne => (htrue rfl q hq).trans (if_neg hne)
    refine (ha.update (by omega) hother).2 ?_
    rintro _ ⟨⟩

theorem asAsked_step_iff (hd : DirOk l.vmm) (ha : l.AsAsked) {c : PageCall} (hplain : c.Plain)
    (hsafe : ClearSafe l.vmm c) : After l c (RightsFit l.vmm c) := by
  cases c with
  | map vaddr paddr flags => exact asAsked_map_iff hd ha hplain hsafe
  | unmap vaddr => exact asAsked_unmap hd ha hplain

/-! ## Whole runs -/

theorem Ledger.AlwaysAsAsked.head {c : PageCall} {calls : List PageCall}
    (h : l.AlwaysAsAsked (c :: calls)) (hstep : l.step c = some r) : r.AlwaysAsAsked calls := by
  intro before after hcalls t ht
  subst hcalls
  exact h (c :: before) after rfl t (run_cons_some.2 ⟨r, hstep, ht⟩)

theorem always_iff (hd : DirOk l.vmm) (ha : l.AsAsked) {calls : List PageCall}
    (hplain : ∀ c ∈ calls, c.Plain)
    (hsafe : Admissible Ledger.step (fun l c => ClearSafe l.vmm c) l calls) :
    l.AlwaysAsAsked calls ↔ Admissible Ledger.step (fun l c => RightsFit l.vmm c) l calls := by
  induction calls generalizing l with
  | nil =>
    refine iff_of_true (fun before after hcalls t ht => ?_) trivial
    obtain ⟨rfl, -⟩ := List.append_eq_nil_iff.1 hcalls.symm
    cases ht
    exact ha
  | cons c calls ih =>
    obtain ⟨hc, hcalls⟩ := List.forall_mem_cons.1 hplain
    have hone := asAsked_step_iff hd ha hc hsafe.1
    constructor
    · intro h
      have hnext : ∀ r, l.step c = some r → r.AsAsked := fun r hr =>
        h [c] calls rfl r (run_cons_some.2 ⟨r, hr, rfl⟩)
      exact ⟨hone.asAsked.1 hnext, fun r hr =>
        (ih (hone.dirOk r hr) (hnext r hr) hcalls (hsafe.2 r hr)).1 (h.head hr)⟩
    · rintro ⟨hfit, hrest⟩ before after hsplit t ht
      cases before with
      | nil =>
        cases ht
        exact ha
      | cons b before =>
        obtain ⟨rfl, rfl⟩ := List.cons.inj hsplit
        obtain ⟨r, hr, ht⟩ := run_cons_some.1 ht
        exact (ih (hone.dirOk r hr) (hone.asAsked.2 hfit r hr) hcalls (hsafe.2 r hr)).2
          (hrest r hr) before after rfl t ht

/-- **Mappings always have the rights that were asked for exactly if no mapping asks for more than
the directory entry of its table grants**: for every run from the directory of `kvmm_init` in which
the new tables are cleared. -/
theorem always_as_asked_iff (hs : FirstDirectory s) {calls : List PageCall}
    (hplain : ∀ c ∈ calls, c.Plain)
    (hsafe : Admissible Ledger.step (fun l c => ClearSafe l.vmm c) ⟨s, fun _ => none⟩ calls) :
    Ledger.AlwaysAsAsked ⟨s, fun _ => none⟩ calls ↔
      Admissible Ledger.step (fun l c => RightsFit l.vmm c) ⟨s, fun _ => none⟩ calls := by
  refine always_iff hs.builtByInit.dirOk ?_ hplain hsafe
  rintro page - rights ⟨⟩

/-! ## Two pages of one table -/

/-- Two pages of one table, the first for the flags `first`. -/
def twoMappings (first second : Nat) : List PageCall :=
  [.map 0xD0000000 0x1C4000 first, .map 0xD0001000 0x1C5000 second]

/-- The first one makes the table, for which it has a page. -/
theorem clearSafe_twoMappings {first second : Nat}
    (hpresent : ∀ r, Ledger.step ⟨smallMachine, fun _ => none⟩ (.map 0xD0000000 0x1C4000 first) =
      some r → (r.vmm.frames r.vmm.cr3 832).present = true) :
    Admissible Ledger.step (fun l c => ClearSafe l.vmm c) ⟨smallMachine, fun _ => none⟩
      (twoMappings first second) := by
  refine ⟨?_, fun r hr => ⟨?_, fun _ _ => trivial⟩⟩
  · exact firstDirectory_smallMachine.builtByInit.newTableSafe (by decide +kernel) _ _
  · intro _ _ habsent
    exact absurd ((hpresent r hr).symm.trans habsent) (by decide)

/-- A page for ring 3, and then one for the kernel. -/
theorem always_as_asked_twoMappings :
    Ledger.AlwaysAsAsked ⟨smallMachine, fun _ => none⟩ (twoMappings 7 3) := by
  have hplain : ∀ c ∈ twoMappings 7 3, c.Plain := by decide
  have hdir : (Ledger.step ⟨smallMachine, fun _ => none⟩ (.map 0xD0000000 0x1C4000 7)).map
      (fun r => (r.vmm.frames r.vmm.cr3 832)) = some ⟨true, true, true, 0, 448⟩ := by
    decide +kernel
  have hslot : ∀ r, Ledger.step ⟨smallMachine, fun _ => none⟩ (.map 0xD0000000 0x1C4000 7) =
      some r → r.vmm.frames r.vmm.cr3 832 = ⟨true, true, true, 0, 448⟩ := by
    intro r hr
    rw [hr] at hdir
    exact Option.some.inj hdir
  refine (always_as_asked_iff firstDirectory_smallMachine hplain
    (clearSafe_twoMappings fun r hr => congrArg PageEntry.present (hslot r hr))).2 ?_
  refine ⟨fun _ _ hpresent => ?_, fun r hr => ⟨fun _ _ _ _ => ?_, fun _ _ => trivial⟩⟩
  · have habsent : (smallMachine.frames smallMachine.cr3 (pdeIndex 0xD0000000)).present = false := by
      decide +kernel
    rw [habsent] at hpresent
    cases hpresent
  · have hgrants := hslot r hr
    show PageEntry.Grants (r.vmm.frames r.vmm.cr3 832) 3
    rw [hgrants]
    exact ⟨fun _ => rfl, fun _ => rfl⟩

/-- **A page for the kernel, and then one for ring 3**: the second is closed to ring 3. -/
theorem mapped_without_rights :
    FirstDirectory smallMachine ∧ (∀ c ∈ twoMappings 3 7, c.Plain) ∧
      Admissible Ledger.step (fun l c => ClearSafe l.vmm c) ⟨smallMachine, fun _ => none⟩
        (twoMappings 3 7) ∧
      ¬Ledger.AlwaysAsAsked ⟨smallMachine, fun _ => none⟩ (twoMappings 3 7) := by
  refine ⟨firstDirectory_smallMachine, by decide, clearSafe_twoMappings fun r hr => ?_, fun h => ?_⟩
  · have hslot : (Ledger.step ⟨smallMachine, fun _ => none⟩ (.map 0xD0000000 0x1C4000 3)).map
        (fun r => (r.vmm.frames r.vmm.cr3 832).present) = some true := by
      decide +kernel
    rw [hr] at hslot
    exact Option.some.inj hslot
  · have hrun : (run Ledger.step ⟨smallMachine, fun _ => none⟩ (twoMappings 3 7)).map
        (fun t => (t.asked 0xD0001, effectiveRights t.vmm 0xD0001)) =
          some (some (true, true), some (true, false)) := by
      decide +kernel
    obtain ⟨t, ht, hres⟩ := Option.map_eq_some_iff.1 hrun
    obtain ⟨hasked, hrights⟩ := Prod.mk.inj hres
    have hall := h (twoMappings 3 7) [] rfl t ht 0xD0001 (by decide) _ hasked
    rw [hrights] at hall
    cases hall

end DelOs
