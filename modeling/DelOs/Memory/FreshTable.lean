import DelOs.Memory.VmmMap

/-!
# Fresh page tables

`kvmm_map_page` clears a new page table at `PHYS_TO_VIRT` of its frame, an address that the
page tables need not map to that frame.  This file says exactly when that is harmless, and
that the address map is then updated as it should be.

* `ClearHarmless` — the clearing reaches the new table, or does no harm.
* `MapRefines`, `UnmapRefines` — the two functions as updates of the address map.
* `kvmm_map_refines_iff` — **`kvmm_map_page` is an update of the address map exactly when the
  clearing of a new table is harmless**; `kvmm_unmap_page` always is.
* `kvmm_map_page_stale` — a directory and a bitmap on which it is not.
-/

namespace DelOs

open FlagRuns TwoLevel

variable {s t : Vmm}

/-! ## The clearing as the code does it -/

/-- The clearing of a new table in frame `f` at `PHYS_TO_VIRT(f)` reaches `f`; or it reaches a
frame that no translation goes through, or none, and `f` maps nothing as it is. -/
def ClearHarmless (s : Vmm) (f : Nat) : Prop :=
  (physToVirt f = 0 ∧ Blank s f) ∨
  (physToVirt f ≠ 0 ∧ ∃ g, s.walk (physToVirt f) = some g ∧
    (g = f ∨ (Blank s f ∧ g ≠ s.cr3 ∧
      ∀ k < 1023, (s.frames s.cr3 k).present = true → (s.frames s.cr3 k).frame = g →
        Blank s g)))

/-- The clearing is harmless whenever a mapping would make a table: the arguments are aligned,
the slot is empty, and the first free frame is not the null one. -/
def NewTableSafe (s : Vmm) (vaddr paddr : Nat) : Prop :=
  vaddr % 4096 = 0 → paddr % 4096 = 0 → (s.frames s.cr3 (pdeIndex vaddr)).present = false →
    s.pmm.kpmmFreePagesAmount ≠ 0 → ∀ f, IsFirstRun 1 s.pmm.flags f → f ≠ 0 → ClearHarmless s f

/-- A harmless clearing works. -/
theorem ClearHarmless.cleared (hd : DirOk s) {f : Nat} {pmm : Pmm}
    (hfree : s.pmm.flags[f]? = some true) (h : ClearHarmless s f) :
    ∃ s₁, Vmm.clearFreshTable { s with pmm := pmm } f = some s₁ ∧
      Cleared { s with pmm := pmm } s₁ f := by
  have hne : f ≠ s.cr3 := by
    rintro rfl
    exact hd.dir_used hfree
  unfold Vmm.clearFreshTable
  rcases h with ⟨h0, hblank⟩ | ⟨h0, g, hwalk, hg⟩
  · rw [if_pos h0]
    exact ⟨_, rfl, rfl, rfl, fun _ => rfl, hblank, .refl _⟩
  · have hwalk' : Vmm.walk { s with pmm := pmm } (physToVirt f) = some g := hwalk
    rw [if_neg h0, hwalk']
    have hgroot : g ≠ s.cr3 := by
      rcases hg with rfl | ⟨-, hg, -⟩
      · exact hne
      · exact hg
    refine ⟨_, rfl, rfl, rfl, fun k => wipe_of_ne k _ hgroot.symm, ?_, ?_⟩
    · intro i hi
      show (wipe s.frames g PageEntry.zero f i).present = false
      by_cases hfg : f = g
      · rw [hfg, wipe_self]
        rfl
      · rw [wipe_of_ne i _ hfg]
        rcases hg with hg | ⟨hblank, -, -⟩
        · exact absurd hg.symm hfg
        · exact hblank i hi
    · intro page hpage
      have hslot : page / 1024 < 1023 := by
        unfold windowStart at hpage
        omega
      refine congrArg (Option.map _) (lookup_wipe hgroot rfl ?_)
      intro hp hnext
      rcases hg with rfl | ⟨-, -, hunused⟩
      · have hfr : (s.frames s.cr3 (page / 1024)).frame = g := hnext
        rw [← hfr] at hfree
        exact absurd hfree (hd.table_used _ hslot hp)
      · exact hunused _ hslot hp hnext _ (Nat.mod_lt _ (by decide))

theorem clearWorks_of_safe (hd : DirOk s) {vaddr paddr : Nat} (h : NewTableSafe s vaddr paddr)
    (hv : vaddr % 4096 = 0) (hp : paddr % 4096 = 0)
    (habsent : (s.frames s.cr3 (pdeIndex vaddr)).present = false) :
    ClearWorks Vmm.clearFreshTable s := by
  intro f pmm hf halloc
  have hfirst := Pmm.allocPages_one hd.below hf halloc
  refine (h hv hp habsent ?_ f hfirst hf).cleared hd (hfirst.1 0 (by decide))
  intro h0
  simp only [Pmm.allocPages, h0, or_true, if_true] at halloc
  have := (Prod.mk.inj (Option.some.inj halloc)).1
  rcases Nat.mul_eq_zero.1 this.symm with hc | hc
  · exact hf hc
  · cases hc

/-! ## The two functions as updates of the address map -/

/-- `kvmm_map_page` is an update of the map from pages to frames and rights: it returns unless
it needs a table and the page allocator panics; if it answers true, the page translates to the
given frame with the given rights, no other page changes, and unmapping it restores the map;
if it answers false, no page changes. -/
structure MapRefines (s : Vmm) (vaddr paddr flags : Nat) : Prop where
  returns : s.kvmmMapPage vaddr paddr flags = none →
    (s.frames s.cr3 (pdeIndex vaddr)).present = false ∧ s.pmm.allocPages 1 = none
  mapped : ∀ t, s.kvmmMapPage vaddr paddr flags = some (true, t) →
    ∃ tr, t.translate (vaddr / 4096) = some tr ∧ tr.frame = paddr / 4096 ∧
      tr.rw = hasFlag flags flagRw ∧ tr.user = hasFlag flags flagUser
  others : ∀ t, s.kvmmMapPage vaddr paddr flags = some (true, t) →
    ∀ page < windowStart, page ≠ vaddr / 4096 → t.translate page = s.translate page
  refused : ∀ t, s.kvmmMapPage vaddr paddr flags = some (false, t) → SameMap s t
  undone : ∀ t, s.kvmmMapPage vaddr paddr flags = some (true, t) →
    ∃ r, t.kvmmUnmapPage vaddr = some (true, r) ∧ SameMap s r

/-- `kvmm_unmap_page` is an update of that map: it always returns; if it answers true, exactly
the one page is gone; if it answers false, no page changes. -/
structure UnmapRefines (s : Vmm) (vaddr : Nat) : Prop where
  returns : s.kvmmUnmapPage vaddr ≠ none
  unmapped : ∀ t, s.kvmmUnmapPage vaddr = some (true, t) →
    s.translate (vaddr / 4096) ≠ none ∧ t.translate (vaddr / 4096) = none ∧
    ∀ page < windowStart, page ≠ vaddr / 4096 → t.translate page = s.translate page
  refused : ∀ t, s.kvmmUnmapPage vaddr = some (false, t) → SameMap s t

theorem unmapRefines (hd : DirOk s) {vaddr : Nat} (hv : vaddr < windowStart * 4096) :
    UnmapRefines s vaddr := by
  obtain ⟨ok, t, h, hfalse, htrue, hiff⟩ := kvmmUnmapPage_spec hd hv
  refine ⟨by rw [h]; exact Option.some_ne_none _, ?_, ?_⟩
  · intro t' ht'
    rw [h] at ht'
    cases ht'
    refine ⟨(hiff.1 rfl).2, ?_, ?_⟩
    · rw [htrue rfl _ (by omega), if_pos rfl]
    · intro page hpage hne
      rw [htrue rfl page hpage, if_neg hne]
  · intro t' ht'
    rw [h] at ht'
    cases ht'
    rw [hfalse rfl]
    exact .refl s

/-- With a harmless clearing, mapping is an update of the address map. -/
theorem mapRefines_of_safe (hd : DirOk s) {vaddr paddr flags : Nat}
    (hv : vaddr < windowStart * 4096) (hflags : hasFlag flags flagPresent = true)
    (hsafe : NewTableSafe s vaddr paddr) : MapRefines s vaddr paddr flags := by
  rcases kvmmMapPageVia_spec hd paddr hv hflags
      (clearWorks_of_safe hd hsafe) with ⟨hnone, habsent, halloc⟩ | ⟨ok, t, h, hstep⟩
  · have hn : s.kvmmMapPage vaddr paddr flags = none := hnone
    refine ⟨fun _ => ⟨habsent, halloc⟩, ?_, ?_, ?_, ?_⟩
    all_goals
      intro t ht
      rw [hn] at ht
      cases ht
  · have hs : s.kvmmMapPage vaddr paddr flags = some (ok, t) := h
    have hpage : vaddr / 4096 < windowStart := by omega
    refine ⟨fun hc => absurd (hs.symm.trans hc) (Option.some_ne_none _), ?_, ?_, ?_, ?_⟩
    · intro t' ht'
      rw [hs] at ht'
      cases ht'
      obtain ⟨-, -, -, hmap⟩ := hstep.mapped rfl
      refine ⟨_, (hmap _ hpage).trans (if_pos rfl), rfl, rfl, rfl⟩
    · intro t' ht' page hp hne
      rw [hs] at ht'
      cases ht'
      obtain ⟨-, -, -, hmap⟩ := hstep.mapped rfl
      exact (hmap page hp).trans (if_neg hne)
    · intro t' ht'
      rw [hs] at ht'
      cases ht'
      exact hstep.refused rfl
    · intro t' ht'
      rw [hs] at ht'
      cases ht'
      obtain ⟨hv0, -, hwas, hmap⟩ := hstep.mapped rfl
      obtain ⟨ok, r, hr, -, htrue, hiff⟩ := kvmmUnmapPage_spec hstep.table.dirOk hv
      have hok : ok = true := by
        refine hiff.2 ⟨hv0, ?_⟩
        rw [hmap _ hpage, if_pos rfl]
        exact Option.some_ne_none _
      subst hok
      refine ⟨r, hr, ?_⟩
      intro page hp
      rw [htrue rfl page hp]
      by_cases hne : page = vaddr / 4096
      · rw [if_pos hne, hne, hwas]
      · rw [if_neg hne, hmap page hp, if_neg hne]

/-- If mapping is an update of the address map, then the tables after a new one is installed
translate as before. -/
theorem MapRefines.sameMap_installTable (hd : DirOk s) {vaddr paddr flags f : Nat} {pmm : Pmm}
    {s₁ : Vmm} (hv : vaddr < windowStart * 4096) (hflags : hasFlag flags flagPresent = true)
    (hr : MapRefines s vaddr paddr flags) (hv0 : vaddr % 4096 = 0) (hp0 : paddr % 4096 = 0)
    (habsent : (s.frames s.cr3 (pdeIndex vaddr)).present = false) (hf : f ≠ 0)
    (hfree : s.pmm.flags[f]? = some true)
    (halloc : s.pmm.allocPages 1 = some (f * kpmmPageSize, pmm))
    (hclear : Vmm.clearFreshTable { s with pmm := pmm } f = some s₁)
    (hcr3 : s₁.cr3 = s.cr3) (hdir : ∀ k, s₁.frames s.cr3 k = s.frames s.cr3 k) :
    SameMap s (installTable s₁ (pdeIndex vaddr) flags f) := by
  have hk := pdeIndex_lt_window hv
  have hself : SelfMapped s₁ := hd.self.congr hcr3 (hdir 1023)
  have hne : f ≠ s₁.cr3 := by
    rw [hcr3]
    rintro rfl
    exact hd.dir_used hfree
  have htidy₁ : Tidy (fun k => k < 1023) s₁.frames s₁.cr3 := by
    rw [hcr3]
    exact hd.tidy.congr hdir
  set u := installTable s₁ (pdeIndex vaddr) flags f with hu
  have hslot : u.frames u.cr3 (pdeIndex vaddr) =
      (s₁.frames s₁.cr3 (pdeIndex vaddr)).assign flags f := put_self _ _ _
  have hpres : (u.frames u.cr3 (pdeIndex vaddr)).present = true := by
    rw [hslot]
    exact hflags
  have htidy : Tidy (fun k => k < 1023) u.frames u.cr3 := by
    refine htidy₁.put_root hne ?_
    intro k hk hp hkf
    rw [hcr3, hdir] at hp hkf
    have hkf' : (s.frames s.cr3 k).frame = f := hkf
    rw [← hkf'] at hfree
    exact hd.table_used k hk hp hfree
  have hselfu : SelfMapped u := by
    have h1023 : u.frames u.cr3 1023 = s₁.frames s₁.cr3 1023 := put_of_index_ne _ (by omega)
    exact ⟨h1023 ▸ hself.present, h1023 ▸ hself.frame⟩
  have hens := ensureTable_of_clear hd.self flags habsent hf halloc hclear hself
  have hcall : s.kvmmMapPage vaddr paddr flags = u.fillEntry vaddr paddr flags := by
    rw [Vmm.kvmmMapPage, Vmm.kvmmMapPageVia, if_neg (by omega), hens]
    rfl
  rw [fillEntry_eq hselfu paddr flags hpres] at hcall
  intro page hpage
  cases hpte : (u.frames (u.frames u.cr3 (pdeIndex vaddr)).frame (pteIndex vaddr)).present with
  | true =>
    rw [hpte] at hcall
    exact hr.refused u hcall page hpage
  | false =>
    rw [hpte] at hcall
    by_cases hpv : page = vaddr / 4096
    · -- the page had no translation, and the empty entry gives it none
      have h1 : s.translate (vaddr / 4096) = none := by
        by_contra hc
        rw [page_eq hv] at hc
        have hp := ((translate_ne_none (pteIndex_lt vaddr)).1 hc).1
        rw [habsent] at hp
        cases hp
      have h2 : u.translate (vaddr / 4096) = none := by
        by_contra hc
        rw [page_eq hv] at hc
        have hp := ((translate_ne_none (pteIndex_lt vaddr)).1 hc).2
        rw [hpte] at hp
        cases hp
      rw [hpv, h1, h2]
    · rw [← hr.others _ hcall page hpage hpv,
        translate_withEntry htidy hv hpage hpres hflags, if_neg hpv]

/-- Tables that translate as before after the new one is installed: it maps nothing, and the
others have lost no entry. -/
theorem blank_of_sameMap (hd : DirOk s) {k flags f : Nat} {s₁ : Vmm} (hk : k < 1023)
    (hflags : hasFlag flags flagPresent = true)
    (habsent : (s.frames s.cr3 k).present = false) (hne : f ≠ s.cr3) (hcr3 : s₁.cr3 = s.cr3)
    (hdir : ∀ k, s₁.frames s.cr3 k = s.frames s.cr3 k)
    (hsame : SameMap s (installTable s₁ k flags f)) :
    Blank s₁ f ∧ ∀ j < 1023, (s.frames s.cr3 j).present = true → ∀ i < 1024,
      (s.frames (s.frames s.cr3 j).frame i).present = true →
      (s₁.frames (s.frames s.cr3 j).frame i).present = true := by
  have hleaf : ∀ g i, g ≠ s.cr3 → (installTable s₁ k flags f).frames g i = s₁.frames g i := by
    intro g i hg
    rw [← hcr3] at hg
    exact put_of_ne _ _ _ hg
  have hslot : (installTable s₁ k flags f).frames s₁.cr3 k =
      (s₁.frames s₁.cr3 k).assign flags f := put_self _ _ _
  have hwindow : ∀ j < 1023, ∀ i < 1024, j * 1024 + i < windowStart := by
    intro j hj i hi
    unfold windowStart
    omega
  constructor
  · intro i hi
    by_contra hpres
    have hu : (installTable s₁ k flags f).translate (k * 1024 + i) ≠ none := by
      refine (translate_ne_none hi).2 ?_
      rw [show (installTable s₁ k flags f).cr3 = s₁.cr3 from rfl, hslot]
      refine ⟨hflags, ?_⟩
      show ((installTable s₁ k flags f).frames f i).present = true
      rw [hleaf f i hne]
      exact Bool.eq_true_of_not_eq_false hpres
    rw [hsame _ (hwindow k hk i hi)] at hu
    have hp := ((translate_ne_none hi).1 hu).1
    rw [habsent] at hp
    cases hp
  · intro j hj hp i hi hpres
    have hu : (installTable s₁ k flags f).translate (j * 1024 + i) ≠ none := by
      rw [hsame _ (hwindow j hj i hi)]
      exact (translate_ne_none hi).2 ⟨hp, hpres⟩
    have hjk : j ≠ k := by
      rintro rfl
      rw [habsent] at hp
      cases hp
    have hj₁ : (installTable s₁ k flags f).frames s₁.cr3 j = s.frames s.cr3 j := by
      have h1 : (installTable s₁ k flags f).frames s₁.cr3 j = s₁.frames s₁.cr3 j :=
        put_of_index_ne _ hjk
      rw [h1, hcr3, hdir]
    have hpres' := ((translate_ne_none hi).1 hu).2
    rw [show (installTable s₁ k flags f).cr3 = s₁.cr3 from rfl, hj₁] at hpres'
    exact (hleaf _ i (hd.tidy.ne_root j hj hp)) ▸ hpres'

/-- Clearing the directory leaves no way to reach it. -/
theorem load_pd_clearFrame (s : Vmm) (k : Nat) :
    (s.clearFrame s.cr3).load recursivePd k = none := by
  have hroot : (s.clearFrame s.cr3).frames s.cr3 1023 = PageEntry.zero := wipe_self _ _ _
  have hentries : (s.clearFrame s.cr3).entries recursivePd = none := by
    have hdiv : recursivePd / 1024 = 1023 := rfl
    simp only [Vmm.entries, lookup, hdiv]
    show (if TableEntry.present ((s.clearFrame s.cr3).frames s.cr3 1023) then _ else _) = _
    rw [hroot]
    rfl
  rw [Vmm.load, Vmm.walk, hentries]
  rfl

/-! ## A directory with stale data in a free frame -/

/-- A kernel directory: the first 4 MiB at `0xC0000000`, one page mapped since at `0xC0400000`
to frame 5, and a free frame 1024 that holds a word of old data. -/
def staleFrames : Frames PageEntry := fun f i =>
  if f = 2 ∧ i = 768 then ⟨true, true, false, 0, 3⟩
  else if f = 2 ∧ i = 769 then ⟨true, true, false, 0, 4⟩
  else if f = 2 ∧ i = 1023 then ⟨true, true, false, 0, 2⟩
  else if f = 3 ∧ i < 1024 then ⟨true, true, false, 0, i⟩
  else if f = 4 ∧ i = 0 then ⟨true, true, false, 0, 5⟩
  else if f = 1024 ∧ i = 7 then ⟨true, true, true, 0, 6⟩
  else PageEntry.zero

/-- ... with every page below 4 MiB used. -/
def staleDir : Vmm := ⟨staleFrames, 2, ⟨List.replicate 128 0xFF#8 ++ [0xFE#8], 1⟩⟩

theorem staleDir_slots {k : Nat} (hk : k < 1023) (hp : (staleFrames 2 k).present = true) :
    k = 768 ∧ (staleFrames 2 k).frame = 3 ∨ k = 769 ∧ (staleFrames 2 k).frame = 4 := by
  by_cases h1 : k = 768
  · exact Or.inl ⟨h1, by rw [h1]; rfl⟩
  by_cases h2 : k = 769
  · exact Or.inr ⟨h2, by rw [h2]; rfl⟩
  · simp [staleFrames, h1, h2, show k ≠ 1023 by omega, PageEntry.zero] at hp

theorem dirOk_staleDir : DirOk staleDir := by
  refine ⟨⟨rfl, rfl⟩, ⟨?_, ?_⟩, Pmm.below4G_of_length (by decide +kernel), by decide +kernel, ?_⟩
  · intro k hk hp
    rcases staleDir_slots hk hp with ⟨-, h⟩ | ⟨-, h⟩
    · exact h.trans_ne (by decide)
    · exact h.trans_ne (by decide)
  · intro j k hj hk hpj hpk heq
    have heq' : (staleFrames 2 j).frame = (staleFrames 2 k).frame := heq
    rcases staleDir_slots hj hpj with ⟨h1, h2⟩ | ⟨h1, h2⟩ <;>
      rcases staleDir_slots hk hpk with ⟨h3, h4⟩ | ⟨h3, h4⟩ <;> omega
  · intro k hk hp
    have hframe : (staleDir.frames staleDir.cr3 k).frame = (staleFrames 2 k).frame := rfl
    rw [hframe]
    rcases staleDir_slots hk hp with ⟨-, h⟩ | ⟨-, h⟩
    · rw [h]
      decide +kernel
    · rw [h]
      decide +kernel

/-! ## When mapping is an update of the address map -/

/-- **`kvmm_map_page` is an update of the address map exactly when the clearing of a new table
is harmless**, and `kvmm_unmap_page` always is. -/
theorem kvmm_map_refines_iff (hd : DirOk s) {vaddr paddr flags : Nat}
    (hv : vaddr < windowStart * 4096) (hflags : hasFlag flags flagPresent = true) :
    (MapRefines s vaddr paddr flags ↔ NewTableSafe s vaddr paddr) ∧ UnmapRefines s vaddr := by
  refine ⟨⟨?_, mapRefines_of_safe hd hv hflags⟩, unmapRefines hd hv⟩
  intro hr hv0 hp0 habsent hcount f hfirst hf
  obtain ⟨pmm, halloc⟩ := Pmm.allocPages_of_firstRun hd.below (by decide) hcount hfirst
  have hfree : s.pmm.flags[f]? = some true := hfirst.1 0 (by decide)
  have hne : f ≠ s.cr3 := by
    rintro rfl
    exact hd.dir_used hfree
  have hframes : ∀ s₁, Vmm.clearFreshTable { s with pmm := pmm } f = some s₁ →
      s₁.cr3 = s.cr3 → (∀ k, s₁.frames s.cr3 k = s.frames s.cr3 k) → _ :=
    fun s₁ hclear hcr3 hdir => blank_of_sameMap hd (pdeIndex_lt_window hv) hflags habsent hne hcr3
      hdir (hr.sameMap_installTable hd hv hflags hv0 hp0 habsent hf hfree halloc hclear hcr3 hdir)
  by_cases h0 : physToVirt f = 0
  · exact Or.inl ⟨h0, (hframes { s with pmm := pmm } (if_pos h0) rfl fun _ => rfl).1⟩
  refine Or.inr ⟨h0, ?_⟩
  -- the call does not return without a new directory entry
  have hreturns : s.ensureTable Vmm.clearFreshTable (pdeIndex vaddr) flags ≠ none := by
    intro hnone
    have hcall : s.kvmmMapPage vaddr paddr flags = none := by
      rw [Vmm.kvmmMapPage, Vmm.kvmmMapPageVia, if_neg (by omega), hnone]
      rfl
    have hpanic := (hr.returns hcall).2
    rw [halloc] at hpanic
    cases hpanic
  rw [ensureTable_of_frame hd.self habsent hf halloc] at hreturns
  cases hwalk : s.walk (physToVirt f) with
  | none =>
    refine absurd ?_ hreturns
    have hw : Vmm.walk { s with pmm := pmm } (physToVirt f) = none := hwalk
    rw [Vmm.clearFreshTable, if_neg h0, hw]
    rfl
  | some g =>
    have hclear : Vmm.clearFreshTable { s with pmm := pmm } f =
        some (Vmm.clearFrame { s with pmm := pmm } g) := by
      have hw : Vmm.walk { s with pmm := pmm } (physToVirt f) = some g := hwalk
      rw [Vmm.clearFreshTable, if_neg h0, hw]
      rfl
    refine ⟨g, rfl, ?_⟩
    by_cases hgf : g = f
    · exact Or.inl hgf
    right
    have hroot : g ≠ s.cr3 := by
      rintro rfl
      refine hreturns ?_
      rw [hclear, Option.bind_some,
        show Vmm.load _ recursivePd (pdeIndex vaddr) = none from
          load_pd_clearFrame { s with pmm := pmm } _]
      rfl
    obtain ⟨hblank, htables⟩ := hframes _ hclear rfl fun k => wipe_of_ne k _ hroot.symm
    refine ⟨?_, hroot, ?_⟩
    · intro i hi
      have hkeep : wipe s.frames g PageEntry.zero f i = s.frames f i :=
        wipe_of_ne i _ (Ne.symm hgf)
      exact hkeep ▸ hblank i hi
    · intro k hk hp hkg i hi
      by_contra hpres
      have hlost := htables k hk hp i hi (by
        rw [hkg]
        exact Bool.eq_true_of_not_eq_false hpres)
      rw [hkg] at hlost
      have hzero : (wipe s.frames g PageEntry.zero g i).present = false := by
        rw [wipe_self]
        rfl
      exact absurd (hzero.symm.trans hlost) Bool.false_ne_true

/-- A mapping in a table that is there needs no clearing. -/
theorem kvmm_map_refines_staleDir : MapRefines staleDir 0xC0401000 0x7000 3 := by
  refine (kvmm_map_refines_iff dirOk_staleDir (by decide) (by decide)).1.2 ?_
  intro _ _ habsent
  have hpresent : (staleDir.frames staleDir.cr3 (pdeIndex 0xC0401000)).present = true := by
    decide +kernel
  rw [hpresent] at habsent
  cases habsent

/-- Mapping `0xD0000000` here clears frame 5 in place of the new table, and the page seven
above it translates to what the old data says. -/
theorem kvmm_map_page_stale :
    DirOk staleDir ∧ ¬ MapRefines staleDir 0xD0000000 0x6000 3 := by
  refine ⟨dirOk_staleDir, ?_⟩
  intro hr
  have hcall : (staleDir.kvmmMapPage 0xD0000000 0x6000 3).map
      (fun r => (r.1, r.2.translate 0xD0007)) =
      some (true, some ⟨6, true, true, true, false⟩) := by
    decide +kernel
  have hbefore : staleDir.translate 0xD0007 = none := by
    decide +kernel
  obtain ⟨⟨ok, t⟩, ht, hres⟩ := Option.map_eq_some_iff.1 hcall
  obtain ⟨rfl, htr⟩ := Prod.mk.inj hres
  have hsame := hr.others t ht 0xD0007 (by decide) (by decide)
  rw [hbefore, htr] at hsame
  cases hsame

end DelOs
