import DelOs.Memory.KernelPages
import DelOs.Memory.TableFrames

/-!
# Mapping a range

`kvmm_map_range` maps page after page and stops at the first one that cannot be mapped; what it has
mapped until then stays.

* `Blocked` — a page of a range cannot be mapped: it is mapped already, or there is no frame for the
  table that it needs.
* `RangeDone` — the first pages of a range are mapped.
* `mapPages_blocked` — **the loop stops at the first page that is blocked.**
* `MappingFails` — a `kmalloc` whose frames cannot be mapped.
* `range_all_or_nothing_iff` — **when a range is mapped as a whole or not at all, and what a `kmalloc`
  loses if it is not mapped.**
-/

namespace DelOs

open FlagRuns TwoLevel

/-! ## What stops the loop -/

/-- Page `i` of a range from page `q` on is the first one in a directory slot without a table. -/
def NeedsTable (s : Vmm) (q i : Nat) : Prop :=
  (s.frames s.cr3 ((q + i) / 1024)).present = false ∧ (i = 0 ∨ (q + i) % 1024 = 0)

instance (s : Vmm) (q i : Nat) : Decidable (NeedsTable s q i) := by
  unfold NeedsTable
  infer_instance

/-- The tables that the first `i` pages need. -/
def tablesNeeded (s : Vmm) (q : Nat) : Nat → Nat
  | 0 => 0
  | i + 1 => tablesNeeded s q i + if NeedsTable s q i then 1 else 0

/-- Page `i` of the range is mapped; or it needs a table, and no page is left for it, or the page
with the null address. -/
def Blocked (s : Vmm) (q i : Nat) : Prop :=
  s.translate (q + i) ≠ none ∨
  (NeedsTable s q i ∧ (s.pmm.kpmmFreePagesAmount ≤ tablesNeeded s q i ∨
    s.pmm.flags[0]? = some true))

instance (s : Vmm) (q i : Nat) : Decidable (Blocked s q i) := by
  unfold Blocked
  infer_instance

/-- The clearing of every table that the loop makes is harmless. -/
def TablesSafe (vaddr paddr flags : Nat) : Vmm → Nat → Nat → Prop
  | _, _, 0 => True
  | s, i, left + 1 =>
      NewTableSafe s (u32 (vaddr + kpmmPageSize * i)) (u32 (paddr + kpmmPageSize * i)) ∧
      ∀ t, s.kvmmMapPage (u32 (vaddr + kpmmPageSize * i)) (u32 (paddr + kpmmPageSize * i)) flags =
        some (true, t) → TablesSafe vaddr paddr flags t (i + 1) left

/-- The first `i` pages from `q` on are mapped to the frames from `f` on, and no other page is. -/
structure RangeDone (s t : Vmm) (q f i : Nat) : Prop where
  dirOk : DirOk t
  mapped : ∀ j < i, ∃ tr, t.translate (q + j) = some tr ∧ tr.frame = f + j
  others : ∀ page < windowStart, page < q ∨ q + i ≤ page → t.translate page = s.translate page
  slots : ∀ k < 1023, (t.frames t.cr3 k).present = true ↔
    (s.frames s.cr3 k).present = true ∨ ∃ j < i, (q + j) / 1024 = k
  counter : t.pmm.kpmmFreePagesAmount + tablesNeeded s q i = s.pmm.kpmmFreePagesAmount
  zero : t.pmm.flags[0]? = some true ↔ s.pmm.flags[0]? = some true

variable {s t u : Vmm} {q f i : Nat}

theorem RangeDone.refl (hd : DirOk s) (q f : Nat) : RangeDone s s q f 0 := by
  refine ⟨hd, fun j hj => by omega, fun _ _ _ => rfl, fun k _ => ?_, rfl, Iff.rfl⟩
  constructor
  · exact Or.inl
  · rintro (h | ⟨j, hj, -⟩)
    · exact h
    · omega

/-- One more page. -/
theorem RangeDone.succ (hr : RangeDone s u q f i) {flags : Nat}
    (hq : q + i < windowStart) (hstep : MapStep u t true ((q + i) * 4096) ((f + i) * 4096) flags)
    (hcounter : t.pmm.kpmmFreePagesAmount + (if NeedsTable s q i then 1 else 0) =
      u.pmm.kpmmFreePagesAmount)
    (hzero : t.pmm.flags[0]? = some true ↔ u.pmm.flags[0]? = some true) :
    RangeDone s t q f (i + 1) := by
  obtain ⟨-, hpresent, -, hmap⟩ := hstep.mapped rfl
  have hpage : (q + i) * 4096 / 4096 = q + i := Nat.mul_div_cancel _ (by decide)
  have hslot : pdeIndex ((q + i) * 4096) = (q + i) / 1024 := by
    unfold windowStart at hq
    rw [pdeIndex_eq (by omega), hpage]
  rw [hpage] at hmap
  refine ⟨hstep.table.dirOk, fun j hj => ?_, fun page hp hout => ?_, fun k hk => ?_, ?_,
    hzero.trans hr.zero⟩
  · by_cases hji : j = i
    · subst hji
      refine ⟨_, (hmap _ hq).trans (if_pos rfl), ?_⟩
      exact Nat.mul_div_cancel (f + j) (by decide)
    · obtain ⟨tr, htr, hframe⟩ := hr.mapped j (by omega)
      exact ⟨tr, ((hmap _ (by omega)).trans (if_neg (by omega))).trans htr, hframe⟩
  · rw [hmap page hp, if_neg (by omega)]
    exact hr.others page hp (by omega)
  · by_cases hki : k = (q + i) / 1024
    · subst hki
      rw [← hslot]
      exact iff_of_true hpresent (Or.inr ⟨i, by omega, hslot.symm⟩)
    · rw [hstep.table.slots k (by rw [hslot]; exact hki), hr.slots k hk]
      refine or_congr Iff.rfl ⟨fun ⟨j, hj, h⟩ => ⟨j, by omega, h⟩, fun ⟨j, hj, h⟩ => ⟨j, ?_, h⟩⟩
      have hne : j ≠ i := by
        rintro rfl
        exact hki h.symm
      omega
  · have hwas := hr.counter
    rw [tablesNeeded]
    omega

/-- A page whose slot has its table by now needs none. -/
theorem RangeDone.not_needsTable (hr : RangeDone s u q f i) (hq : q + i < windowStart)
    (hpresent : (u.frames u.cr3 ((q + i) / 1024)).present = true) : ¬NeedsTable s q i := by
  rintro ⟨habsent, hfirst⟩
  have hk : (q + i) / 1024 < 1023 := by
    unfold windowStart at hq
    omega
  rcases (hr.slots _ hk).1 hpresent with hs | ⟨j, hj, hsame⟩
  · rw [habsent] at hs
    cases hs
  · omega

/-- A page whose slot has none needs one. -/
theorem RangeDone.needsTable (hr : RangeDone s u q f i) (hq : q + i < windowStart)
    (habsent : (u.frames u.cr3 ((q + i) / 1024)).present = false) :
    NeedsTable s q i ∧ s.translate (q + i) = none := by
  have hk : (q + i) / 1024 < 1023 := by
    unfold windowStart at hq
    omega
  have hnot : ¬((s.frames s.cr3 ((q + i) / 1024)).present = true ∨
      ∃ j < i, (q + j) / 1024 = (q + i) / 1024) := by
    rw [← hr.slots _ hk, habsent]
    exact Bool.false_ne_true
  obtain ⟨hs, hbefore⟩ := not_or.1 hnot
  rw [Bool.not_eq_true] at hs
  refine ⟨⟨hs, ?_⟩, ?_⟩
  · by_contra hlater
    exact hbefore ⟨i - 1, by omega, by omega⟩
  · have htr := translate_page s ((q + i) / 1024) (Nat.mod_lt (q + i) (by decide : 0 < 1024))
    rw [hs] at htr
    rw [show q + i = (q + i) / 1024 * 1024 + (q + i) % 1024 by omega]
    exact htr

/-! ## One page -/

/-- With a frame for its table, a page is mapped. -/
theorem kvmmMapPage_of_fresh (hd : DirOk u) {vaddr paddr flags g : Nat} {pmm : Pmm}
    (hv : vaddr % 4096 = 0) (hp : paddr % 4096 = 0) (hwindow : vaddr < windowStart * 4096)
    (hflags : hasFlag flags flagPresent = true)
    (habsent : (u.frames u.cr3 (pdeIndex vaddr)).present = false) (hg : g ≠ 0)
    (hworks : ClearWorks Vmm.clearFreshTable u) (hfirst : IsFirstRun 1 u.pmm.flags g)
    (halloc : u.pmm.allocPages 1 = some (g * kpmmPageSize, pmm))
    (hset : pmm.flags = setRun false u.pmm.flags g 1) :
    ∃ t, u.kvmmMapPage vaddr paddr flags = some (true, t) ∧ t.pmm = pmm := by
  have hfree : u.pmm.flags[g]? = some true := hfirst.1 0 Nat.one_pos
  have hbelow := (Pmm.allocPages_takes hd.below halloc).1
  obtain ⟨s₁, hclear, hcleared⟩ := hworks g pmm hg halloc
  obtain ⟨htable, -⟩ := installTable_spec flags hd (pdeIndex_lt_window hwindow) habsent hfree hset
    hbelow hcleared
  have hcr3 : s₁.cr3 = u.cr3 := hcleared.cr3
  have hself₁ : SelfMapped s₁ := hd.self.congr hcr3 (hcleared.dir 1023)
  have hens := ensureTable_of_clear hd.self flags habsent hg halloc hclear hself₁
  have hslot : (installTable s₁ (pdeIndex vaddr) flags g).frames s₁.cr3 (pdeIndex vaddr) =
      (s₁.frames s₁.cr3 (pdeIndex vaddr)).assign flags g := put_self _ _ _
  have hne : g ≠ s₁.cr3 := by
    rw [hcr3]
    rintro rfl
    exact hd.dir_used hfree
  -- the table is new, so that the entry is not present
  have hpte : ((installTable s₁ (pdeIndex vaddr) flags g).frames g (pteIndex vaddr)).present =
      false := by
    have hkeep : (installTable s₁ (pdeIndex vaddr) flags g).frames g (pteIndex vaddr) =
        s₁.frames g (pteIndex vaddr) := put_of_ne _ _ _ hne
    rw [hkeep]
    exact hcleared.blank _ (pteIndex_lt vaddr)
  have hfill := fillEntry_eq htable.dirOk.self paddr flags
    ((congrArg PageEntry.present hslot).trans hflags)
  have hframe : ((installTable s₁ (pdeIndex vaddr) flags g).frames
      (installTable s₁ (pdeIndex vaddr) flags g).cr3 (pdeIndex vaddr)).frame = g :=
    congrArg PageEntry.frame hslot
  rw [hframe, hpte, if_neg Bool.false_ne_true] at hfill
  refine ⟨withEntry (installTable s₁ (pdeIndex vaddr) flags g) vaddr paddr flags, ?_,
    hcleared.pmm⟩
  rw [Vmm.kvmmMapPage, Vmm.kvmmMapPageVia, if_neg (by omega), hens]
  exact hfill

/-- The slot of a page outside of the recursive window. -/
theorem pdeIndex_page {page : Nat} (hpage : page < windowStart) :
    pdeIndex (page * 4096) = page / 1024 := by
  unfold windowStart at hpage
  rw [pdeIndex_eq (by omega), Nat.mul_div_cancel _ (by decide)]

/-- Page `i` of a range, once the pages before it are mapped: it is mapped or blocked. -/
structure PageMapped (s u t : Vmm) (q f i : Nat) (ok : Bool) : Prop where
  mapped : ok = true → ¬Blocked s q i ∧ RangeDone s t q f (i + 1)
  refused : ok = false → Blocked s q i ∧ SameMap u t

theorem PageMapped.of_blocked (h : Blocked s q i) (hsame : SameMap u t) :
    PageMapped s u t q f i false :=
  ⟨fun hc => absurd hc Bool.false_ne_true, fun _ => ⟨h, hsame⟩⟩

theorem PageMapped.of_mapped (h : ¬Blocked s q i) (hr : RangeDone s t q f (i + 1)) :
    PageMapped s u t q f i true :=
  ⟨fun _ => ⟨h, hr⟩, fun hc => absurd hc.symm Bool.false_ne_true⟩

/-- A page whose slot has its table is blocked if it is mapped already. -/
theorem RangeDone.page_of_present (hr : RangeDone s u q f i) {flags : Nat}
    (hq : q + i < windowStart) {ok : Bool}
    (hstep : MapStep u t ok ((q + i) * 4096) ((f + i) * 4096) flags)
    (hpresent : (u.frames u.cr3 ((q + i) / 1024)).present = true)
    (hcall : u.kvmmMapPage ((q + i) * 4096) ((f + i) * 4096) flags = some (ok, t)) :
    PageMapped s u t q f i ok := by
  have hslot := pdeIndex_page hq
  have hneeds := hr.not_needsTable hq hpresent
  have hsame : u.translate (q + i) = s.translate (q + i) := hr.others _ hq (Or.inr le_rfl)
  have htr := translate_page u ((q + i) / 1024) (pteIndex_lt ((q + i) * 4096))
  have hindex : (q + i) / 1024 * 1024 + pteIndex ((q + i) * 4096) = q + i := by
    rw [pteIndex_eq, Nat.mul_div_cancel _ (by decide)]
    omega
  rw [hindex, if_pos hpresent, hsame] at htr
  have hself := hr.dirOk.self
  rw [kvmmMapPage_of_present hself (by rw [hslot]; exact hpresent) (Nat.mul_mod_left _ _)
    (Nat.mul_mod_left _ _), fillEntry_eq hself _ _ (by rw [hslot]; exact hpresent), hslot] at hcall
  cases hpte : (u.frames (u.frames u.cr3 ((q + i) / 1024)).frame
      (pteIndex ((q + i) * 4096))).present with
  | true =>
    rw [hpte] at hcall htr
    cases hcall
    refine .of_blocked (Or.inl ?_) (.refl _)
    rw [htr]
    exact Option.some_ne_none _
  | false =>
    rw [hpte] at hcall htr
    cases hcall
    refine .of_mapped ?_ (hr.succ hq hstep ?_ Iff.rfl)
    · rintro (hmapped | ⟨hn, -⟩)
      · exact hmapped htr
      · exact hneeds hn
    · rw [if_neg hneeds]
      rfl

/-- A page whose slot has no table is blocked if there is no page for the table. -/
theorem RangeDone.page_of_absent (hr : RangeDone s u q f i) {flags : Nat}
    (hsmall : s.pmm.kpmmFreePagesAmount < 2 ^ 32) (hq : q + i < windowStart)
    (hflags : hasFlag flags flagPresent = true)
    (hworks : ClearWorks Vmm.clearFreshTable u) {ok : Bool}
    (hstep : MapStep u t ok ((q + i) * 4096) ((f + i) * 4096) flags)
    (habsent : (u.frames u.cr3 ((q + i) / 1024)).present = false)
    (hcall : u.kvmmMapPage ((q + i) * 4096) ((f + i) * 4096) flags = some (ok, t)) :
    PageMapped s u t q f i ok := by
  have hslot := pdeIndex_page hq
  obtain ⟨hneeds, hfree⟩ := hr.needsTable hq habsent
  have hcounter := hr.counter
  have habsent' : (u.frames u.cr3 (pdeIndex ((q + i) * 4096))).present = false := by
    rw [hslot]
    exact habsent
  -- what a refused allocation does to the call
  have hrefused : ∀ pmm, u.pmm.allocPages 1 = some (0, pmm) → ok = false := by
    intro pmm halloc
    rw [Vmm.kvmmMapPage, Vmm.kvmmMapPageVia, if_neg (by omega),
      ensureTable_of_no_frame hr.dirOk.self habsent' halloc] at hcall
    cases hcall
    rfl
  cases halloc : u.pmm.allocPages 1 with
  | none =>
    have hnone : u.kvmmMapPage ((q + i) * 4096) ((f + i) * 4096) flags = none := by
      rw [Vmm.kvmmMapPage, Vmm.kvmmMapPageVia, if_neg (by omega)]
      simp [Vmm.ensureTable, hr.dirOk.self.load_pd, habsent', halloc]
    rw [hnone] at hcall
    cases hcall
  | some r =>
    obtain ⟨phys, pmm⟩ := r
    rcases Pmm.allocPages_cases hr.dirOk.below halloc with ⟨hempty, rfl, -⟩ |
        ⟨g, -, hfirst, -, rfl, hset, -, htaken⟩
    · obtain rfl := hrefused pmm halloc
      exact .of_blocked (Or.inr ⟨hneeds, Or.inl (by omega)⟩) (hstep.refused rfl)
    · by_cases hg : g = 0
      · subst hg
        obtain rfl := hrefused pmm halloc
        exact .of_blocked (Or.inr ⟨hneeds, Or.inr (hr.zero.1 (hfirst.1 0 Nat.one_pos))⟩)
          (hstep.refused rfl)
      · have hwindow : (q + i) * 4096 < windowStart * 4096 :=
          Nat.mul_lt_mul_of_pos_right hq (by decide)
        obtain ⟨t', hcall', hpmm⟩ := kvmmMapPage_of_fresh hr.dirOk (Nat.mul_mod_left _ _)
          (Nat.mul_mod_left (f + i) 4096) hwindow hflags habsent' hg hworks hfirst halloc hset
        obtain ⟨rfl, rfl⟩ := Prod.mk.inj (Option.some.inj (hcall.symm.trans hcall'))
        have hsome : u.pmm.kpmmFreePagesAmount ≠ 0 := by
          intro h0
          rw [Pmm.allocPages, if_pos (Or.inr h0)] at halloc
          have hzero : 0 = g * kpmmPageSize := (Prod.mk.inj (Option.some.inj halloc)).1
          exact absurd hzero.symm (Nat.mul_ne_zero hg (by decide))
        have hpage0 : u.pmm.flags[0]? ≠ some true := by
          intro h0
          refine hfirst.2 0 (Nat.pos_of_ne_zero hg) fun j hj => ?_
          obtain rfl : j = 0 := by omega
          exact h0
        refine .of_mapped ?_ (hr.succ hq hstep ?_ ?_)
        · rintro (hmapped | ⟨-, hempty | hnull⟩)
          · exact hmapped hfree
          · omega
          · exact hpage0 (hr.zero.2 hnull)
        · rw [if_pos hneeds, hpmm]
          exact htaken (by omega) (by omega)
        · rw [hpmm, hset, getElem?_setRun false (hfirst.1.le_length Nat.one_pos), if_neg (by omega)]

/-- **One page of the loop.** -/
theorem RangeDone.page (hr : RangeDone s u q f i) {flags : Nat}
    (hsmall : s.pmm.kpmmFreePagesAmount < 2 ^ 32) (hq : q + i < windowStart)
    (hflags : hasFlag flags flagPresent = true)
    (hsafe : NewTableSafe u ((q + i) * 4096) ((f + i) * 4096)) {ok : Bool}
    (hcall : u.kvmmMapPage ((q + i) * 4096) ((f + i) * 4096) flags = some (ok, t)) :
    PageMapped s u t q f i ok := by
  have hwindow : (q + i) * 4096 < windowStart * 4096 :=
    Nat.mul_lt_mul_of_pos_right hq (by decide)
  have hworks := clearWorks_of_safe hr.dirOk hsafe
  rcases kvmmMapPageVia_spec hr.dirOk _ hwindow hflags hworks with
    ⟨hnone, -⟩ | ⟨ok', t', hcall', hstep⟩
  · exact absurd (hcall.symm.trans hnone) (Option.some_ne_none _)
  obtain ⟨rfl, rfl⟩ := Prod.mk.inj (Option.some.inj (hcall.symm.trans hcall'))
  cases hpresent : (u.frames u.cr3 ((q + i) / 1024)).present with
  | true => exact hr.page_of_present hq hstep hpresent hcall
  | false =>
    refine hr.page_of_absent hsmall hq hflags ?_ hstep hpresent hcall
    refine hworks (Nat.mul_mod_left _ _) (Nat.mul_mod_left _ _) ?_
    rw [pdeIndex_page hq]
    exact hpresent

/-! ## The loop -/

/-- How the loop ends: all pages of the range are mapped and none was blocked, or the pages before
the first one that is blocked. -/
structure RangeEnd (s t : Vmm) (q f n : Nat) (ok : Bool) : Prop where
  mapped : ok = true → (∀ j < n, ¬Blocked s q j) ∧ RangeDone s t q f n
  refused : ok = false → ∃ j < n, Blocked s q j ∧ (∀ m < j, ¬Blocked s q m) ∧
    ∃ w, RangeDone s w q f j ∧ SameMap w t

/-- **The loop stops at the first page that is blocked.** -/
theorem mapPages_blocked {flags left : Nat} (hsmall : s.pmm.kpmmFreePagesAmount < 2 ^ 32)
    (hflags : hasFlag flags flagPresent = true) (hq : q + (i + left) ≤ windowStart)
    (hf : f + (i + left) ≤ 2 ^ 20) (hr : RangeDone s u q f i) (hfree : ∀ m < i, ¬Blocked s q m)
    (hsafe : TablesSafe (q * 4096) (f * 4096) flags u i left) {ok : Bool}
    (h : Vmm.mapPages Vmm.clearFreshTable (q * 4096) (f * 4096) flags u i left = some (ok, t)) :
    RangeEnd s t q f (i + left) ok := by
  induction left generalizing u i with
  | zero =>
    cases h
    exact ⟨fun _ => ⟨hfree, hr⟩, fun hc => absurd hc.symm Bool.false_ne_true⟩
  | succ left ih =>
    have hv : u32 (q * 4096 + kpmmPageSize * i) = (q + i) * 4096 := by
      unfold windowStart at hq
      rw [u32_eq (by simp only [kpmmPageSize]; omega)]
      simp only [kpmmPageSize]
      omega
    have hp : u32 (f * 4096 + kpmmPageSize * i) = (f + i) * 4096 := by
      rw [u32_eq (by simp only [kpmmPageSize]; omega)]
      simp only [kpmmPageSize]
      omega
    obtain ⟨hone, hrest⟩ := hsafe
    rw [hv, hp] at hone hrest
    rw [Vmm.mapPages, hv, hp] at h
    obtain ⟨⟨ok₁, u₁⟩, hcall, h⟩ := Option.bind_eq_some_iff.1 h
    have hpage := hr.page hsmall (by omega) hflags hone hcall
    cases ok₁ with
    | false =>
      cases h
      obtain ⟨hblocked, hsame⟩ := hpage.refused rfl
      exact ⟨fun hc => absurd hc Bool.false_ne_true,
        fun _ => ⟨i, by omega, hblocked, hfree, u, hr, hsame⟩⟩
    | true =>
      obtain ⟨hfree₁, hr₁⟩ := hpage.mapped rfl
      have hbefore : ∀ m < i + 1, ¬Blocked s q m := by
        intro m hm
        by_cases hmi : m = i
        · exact hmi ▸ hfree₁
        · exact hfree m (by omega)
      have hend := ih (by omega) (by omega) hr₁ hbefore (hrest u₁ hcall) h
      rwa [show i + 1 + left = i + (left + 1) by omega] at hend

/-! ## All or nothing -/

/-- `kvmm_map_range` maps exactly the pages of the range to the frames from `paddr` on, or changes no
translation. -/
structure AllOrNothing (s t : Vmm) (vaddr paddr amount : Nat) (ok : Bool) : Prop where
  mapped : ok = true → ∀ i < amount, ∃ tr, t.translate (vaddr / 4096 + i) = some tr ∧
    tr.frame = paddr / 4096 + i
  others : ok = true → ∀ page < windowStart,
    page < vaddr / 4096 ∨ vaddr / 4096 + amount ≤ page → t.translate page = s.translate page
  refused : ok = false → SameMap s t

/-- A call of `kvmm_map_range` for a range that does not wrap or reach the recursive window, whose new
tables are cleared without harm. -/
structure RangeCall (s : Vmm) (vaddr paddr flags amount : Nat) : Prop where
  dirOk : DirOk s
  counter : s.pmm.kpmmFreePagesAmount < 2 ^ 32
  vaddr_aligned : vaddr % 4096 = 0
  paddr_aligned : paddr % 4096 = 0
  present : hasFlag flags flagPresent = true
  window : vaddr + 4096 * amount ≤ windowStart * 4096
  wrap : paddr + 4096 * amount ≤ 2 ^ 32
  safe : TablesSafe vaddr paddr flags s 0 amount

/-- **A range is mapped as a whole or not at all exactly if no page of it is blocked, or the first
one is.** -/
theorem allOrNothing_iff {vaddr paddr flags amount : Nat}
    (hrange : RangeCall s vaddr paddr flags amount) {ok : Bool}
    (hcall : s.kvmmMapRange vaddr paddr flags amount = some (ok, t)) :
    AllOrNothing s t vaddr paddr amount ok ↔
      ((∃ i < amount, Blocked s (vaddr / 4096) i) → Blocked s (vaddr / 4096) 0) := by
  obtain ⟨hd, hsmall, hv, hp, hflags, hwindow, hwrap, hsafe⟩ := hrange
  obtain ⟨q, rfl⟩ := Nat.dvd_of_mod_eq_zero hv
  obtain ⟨f, rfl⟩ := Nat.dvd_of_mod_eq_zero hp
  rw [Vmm.kvmmMapRange, Vmm.kvmmMapRangeVia, if_neg (by omega)] at hcall
  rw [Nat.mul_comm 4096 q, Nat.mul_comm 4096 f] at *
  have hend := mapPages_blocked hsmall hflags (by omega) (by omega) (.refl hd q f)
    (fun m hm => absurd hm (Nat.not_lt_zero m)) hsafe hcall
  rw [Nat.zero_add] at hend
  have hq : q * 4096 / 4096 = q := Nat.mul_div_cancel q (by decide)
  have hf : f * 4096 / 4096 = f := Nat.mul_div_cancel f (by decide)
  rw [hq]
  cases ok with
  | true =>
    obtain ⟨hfree, hdone⟩ := hend.mapped rfl
    refine iff_of_true ⟨fun _ => ?_, fun _ => ?_, fun hc => absurd hc.symm Bool.false_ne_true⟩ ?_
    · rw [hq, hf]
      exact hdone.mapped
    · rw [hq]
      exact hdone.others
    · rintro ⟨i, hi, hblocked⟩
      exact absurd hblocked (hfree i hi)
  | false =>
    obtain ⟨j, hj, hblocked, hbefore, w, hdone, hsame⟩ := hend.refused rfl
    by_cases hj0 : j = 0
    · subst hj0
      refine iff_of_true ⟨fun hc => absurd hc Bool.false_ne_true,
        fun hc => absurd hc Bool.false_ne_true, fun _ page hpage => ?_⟩ fun _ => hblocked
      exact (hsame page hpage).trans (hdone.others page hpage (by omega))
    · -- the first page is mapped now, and was not before
      have hfirst := hbefore 0 (Nat.pos_of_ne_zero hj0)
      refine iff_of_false (fun hall => ?_) fun hcond => hfirst (hcond ⟨j, hj, hblocked⟩)
      obtain ⟨tr, htr, -⟩ := hdone.mapped 0 (Nat.pos_of_ne_zero hj0)
      have hpage : q + 0 < windowStart := by omega
      have hnow := (hall.refused rfl _ hpage).symm.trans (hsame _ hpage)
      exact hfirst (Or.inl (by rw [hnow, htr]; exact Option.some_ne_none _))

/-! ## The counter of the free pages -/

/-- The counter has gone down by `n`. -/
def Counted (s t : Vmm) (n : Nat) : Prop :=
  (t.pmm.kpmmFreePagesAmount + n) % 2 ^ 32 = s.pmm.kpmmFreePagesAmount % 2 ^ 32

theorem Counted.trans {m n : Nat} (h₁ : Counted s u m) (h₂ : Counted u t n) :
    Counted s t (m + n) := by
  unfold Counted at *
  omega

theorem counted_zero (h : t.pmm = s.pmm) : Counted s t 0 := by
  unfold Counted
  rw [h]
  rfl

theorem store_pmm {page j : Nat} {e : PageEntry} (h : s.store page j e = some t) :
    t.pmm = s.pmm := by
  obtain ⟨g, -, rfl⟩ := Option.map_eq_some_iff.1 h
  rfl

theorem clearFreshTable_pmm {g : Nat} (h : s.clearFreshTable g = some t) : t.pmm = s.pmm := by
  rcases clearFreshTable_cases h with rfl | ⟨g, rfl⟩
  · rfl
  · rfl

/-- Making sure of a table takes one page at most. -/
theorem ensureTable_counted {k flags : Nat} {ok : Bool}
    (h : s.ensureTable Vmm.clearFreshTable k flags = some (ok, t)) : ∃ n ≤ 1, Counted s t n := by
  obtain ⟨e, -, h⟩ := Option.bind_eq_some_iff.1 h
  split_ifs at h
  · cases h
    exact ⟨0, by decide, counted_zero rfl⟩
  · obtain ⟨⟨phys, pmm⟩, halloc, h⟩ := Option.bind_eq_some_iff.1 h
    have htaken : ∃ n ≤ 1, Counted s { s with pmm := pmm } n := by
      rcases Pmm.allocPages_counter halloc with ⟨-, -, rfl⟩ | ⟨-, -, hcount⟩
      · exact ⟨0, by decide, counted_zero rfl⟩
      · exact ⟨1, le_rfl, hcount⟩
    obtain ⟨n, hn, hcount⟩ := htaken
    dsimp only at h
    split_ifs at h
    · cases h
      exact ⟨n, hn, hcount⟩
    · obtain ⟨s₁, hclear, h⟩ := Option.bind_eq_some_iff.1 h
      obtain ⟨e', -, h⟩ := Option.bind_eq_some_iff.1 h
      obtain ⟨s₂, hstore, h⟩ := Option.bind_eq_some_iff.1 h
      cases h
      exact ⟨n, hn, hcount.trans (counted_zero
        ((store_pmm hstore).trans (clearFreshTable_pmm hclear)))⟩

theorem fillEntry_pmm {vaddr paddr flags : Nat} {ok : Bool}
    (h : s.fillEntry vaddr paddr flags = some (ok, t)) : t.pmm = s.pmm := by
  obtain ⟨e, -, h⟩ := Option.bind_eq_some_iff.1 h
  split_ifs at h
  · cases h
    rfl
  · obtain ⟨u, hstore, h⟩ := Option.bind_eq_some_iff.1 h
    cases h
    exact store_pmm hstore

/-- Mapping a page takes one page at most. -/
theorem kvmmMapPage_counted {vaddr paddr flags : Nat} {ok : Bool}
    (h : s.kvmmMapPage vaddr paddr flags = some (ok, t)) : ∃ n ≤ 1, Counted s t n := by
  unfold Vmm.kvmmMapPage Vmm.kvmmMapPageVia at h
  split_ifs at h
  · cases h
    exact ⟨0, by decide, counted_zero rfl⟩
  · obtain ⟨⟨ok₁, s₁⟩, hens, h⟩ := Option.bind_eq_some_iff.1 h
    obtain ⟨n, hn, hcount⟩ := ensureTable_counted hens
    cases ok₁ with
    | false =>
      cases h
      exact ⟨n, hn, hcount⟩
    | true => exact ⟨n, hn, hcount.trans (counted_zero (fillEntry_pmm h))⟩

/-- Mapping a range takes one page for each page of it at most. -/
theorem mapPages_counted {vaddr paddr flags left : Nat} {ok : Bool}
    (h : Vmm.mapPages Vmm.clearFreshTable vaddr paddr flags s i left = some (ok, t)) :
    ∃ n ≤ left, Counted s t n := by
  induction left generalizing s i with
  | zero =>
    cases h
    exact ⟨0, le_rfl, counted_zero rfl⟩
  | succ left ih =>
    obtain ⟨⟨ok₁, s₁⟩, hone, h⟩ := Option.bind_eq_some_iff.1 h
    obtain ⟨n, hn, hcount⟩ := kvmmMapPage_counted hone
    cases ok₁ with
    | false =>
      cases h
      exact ⟨n, by omega, hcount⟩
    | true =>
      obtain ⟨m, hm, hcount'⟩ := ih h
      exact ⟨n + m, by omega, hcount.trans hcount'⟩

theorem kvmmMapRange_counted {vaddr paddr flags amount : Nat} {ok : Bool}
    (h : s.kvmmMapRange vaddr paddr flags amount = some (ok, t)) : ∃ n ≤ amount, Counted s t n := by
  unfold Vmm.kvmmMapRange Vmm.kvmmMapRangeVia at h
  split_ifs at h
  · cases h
    exact ⟨0, Nat.zero_le _, counted_zero rfl⟩
  · exact mapPages_counted h

/-! ## The heap -/

/-- `kmalloc` finds no free block, takes frames for a new one, and fails to map them. -/
structure MappingFails (h : Heap KernelPages) (size : Nat) (h' : Heap KernelPages) : Prop where
  size_ne : alignUp size 8 ≠ 0
  nothing : findFreeHeapHeader h.mem (alignUp size 8) h.walkFuel h.kernelHeapLh = some 0
  fails : ∃ frame source source',
    u32 (h.kernelHeapBrk + alignUp size 8 + kmallocHeaderSize) ≤ h.kernelHeapLimit ∧
    PageSource.kpmmAllocPages h.pages (pagesToGet (alignUp size 8)) = some (frame, source) ∧
    frame ≠ 0 ∧
    PageSource.kvmmMapRange source h.kernelHeapBrk frame kvmmFlagPresentRw
      (pagesToGet (alignUp size 8)) = some (false, source') ∧ h' = { h with pages := source' }

/-- The counter of the free pages, below a heap. -/
def Heap.freePagesAmount (h : Heap KernelPages) : Nat := h.pages.vmm.pmm.kpmmFreePagesAmount

/-- Frames that could not be mapped are not given back. -/
theorem MappingFails.counter {h h' : Heap KernelPages} {size : Nat} (hf : MappingFails h size h') :
    h'.freePagesAmount ≠ h.freePagesAmount := by
  obtain ⟨frame, source, source', -, halloc, hne, hmap, rfl⟩ := hf.fails
  obtain ⟨⟨phys, s₁⟩, hphys, heq⟩ := Option.map_eq_some_iff.1 halloc
  obtain ⟨rfl, rfl⟩ := Prod.mk.inj heq
  obtain ⟨⟨p, pmm⟩, hpmm, heq⟩ := Option.map_eq_some_iff.1 hphys
  obtain ⟨rfl, rfl⟩ := Prod.mk.inj heq
  obtain ⟨⟨ok, t⟩, htable, heq⟩ := Option.map_eq_some_iff.1 hmap
  obtain ⟨-, rfl⟩ := Prod.mk.inj heq
  obtain ⟨n, hn, hcount⟩ := kvmmMapRange_counted htable
  have hpages : pagesToGet (alignUp size 8) ≤ 2 ^ 20 := by
    unfold pagesToGet u32 kmallocPageSize
    omega
  intro hsame
  rcases Pmm.allocPages_counter hpmm with ⟨-, h0, -⟩ | ⟨hpos, -, htaken⟩
  · exact hne h0
  · unfold Counted at hcount
    unfold Heap.freePagesAmount at hsame
    dsimp only at hcount hsame
    omega

/-- In that case `kmalloc` returns `NULL`. -/
theorem MappingFails.kmalloc {h h' : Heap KernelPages} {size : Nat} (hf : MappingFails h size h') :
    h.kmalloc size = some (0, h') := by
  obtain ⟨frame, source, source', hlimit, halloc, hne, hmap, rfl⟩ := hf.fails
  have hsize : size ≠ 0 := by
    rintro rfl
    exact hf.size_ne rfl
  have hpages : pagesToGet (alignUp size 8) ≠ 0 := by
    intro h0
    obtain ⟨⟨phys, s₁⟩, hphys, heq⟩ := Option.map_eq_some_iff.1 halloc
    obtain ⟨rfl, rfl⟩ := Prod.mk.inj heq
    rw [h0] at hphys
    cases hphys
    exact hne rfl
  simp [Heap.kmalloc, hsize, hf.nothing, Heap.createHeapHeader, hf.size_ne, hpages,
    not_lt.2 hlimit, halloc, hne, hmap]

/-! ## Both -/

/-- **A range is mapped as a whole or not at all exactly if no page of it is blocked, or the first
one is; and a `kmalloc` whose mapping fails never gives its frames back.** -/
theorem range_all_or_nothing_iff (s t : Vmm) (vaddr paddr flags amount : Nat) (ok : Bool) :
    (RangeCall s vaddr paddr flags amount →
      s.kvmmMapRange vaddr paddr flags amount = some (ok, t) →
      (AllOrNothing s t vaddr paddr amount ok ↔
        ((∃ i < amount, Blocked s (vaddr / 4096) i) → Blocked s (vaddr / 4096) 0))) ∧
    ∀ (h h' : Heap KernelPages) (size : Nat), MappingFails h size h' →
      h.kmalloc size = some (0, h') ∧ h'.freePagesAmount ≠ h.freePagesAmount :=
  ⟨fun hrange hcall => allOrNothing_iff hrange hcall,
    fun _ _ _ hf => ⟨hf.kmalloc, hf.counter⟩⟩

/-! ## A heap with an obstacle -/

/-- Two pages of a new slot, in a small machine. -/
theorem rangeCall_smallMachine : RangeCall smallMachine 0xD0000000 0x1C4000 3 2 := by
  have hbuilt := firstDirectory_smallMachine.builtByInit
  refine ⟨hbuilt.dirOk, by decide, rfl, rfl, by decide, by decide, by decide, ?_, fun t ht => ?_⟩
  · exact hbuilt.newTableSafe (by decide +kernel) _ _
  · refine ⟨?_, fun _ _ => trivial⟩
    -- the first page has made the table of the slot
    have hslot : (smallMachine.kvmmMapPage 0xD0000000 0x1C4000 3).map
        (fun r => (r.2.frames r.2.cr3 832).present) = some true := by
      decide +kernel
    intro _ _ habsent
    have hcall : smallMachine.kvmmMapPage 0xD0000000 0x1C4000 3 = some (true, t) := ht
    rw [hcall] at hslot
    exact absurd ((Option.some.inj hslot).symm.trans habsent) (by decide)

/-- The heap of the small machine, where the page behind the first one has been mapped. -/
def obstructedHeap : Option (Heap KernelPages) := do
  let h ← kmallocInit (fun _ => 0) (⟨smallMachine⟩ : KernelPages)
  let (_, s) ← h.pages.vmm.kvmmMapPage 0xD0001000 0x1C6000 kvmmFlagPresentRw
  return { h with pages := ⟨s⟩ }

/-- What a `kmalloc` of two pages comes to there. -/
def obstructedCall (h : Heap KernelPages) : Option (Nat × Bool) := do
  let (frame, source) ← PageSource.kpmmAllocPages h.pages 2
  let (ok, _) ← PageSource.kvmmMapRange source h.kernelHeapBrk frame kvmmFlagPresentRw 2
  return (frame, ok)

theorem mappingFails_obstructedHeap :
    ∃ h h', obstructedHeap = some h ∧ MappingFails h 5000 h' := by
  have hrun : obstructedHeap.map (fun h => (findFreeHeapHeader h.mem 5000 h.walkFuel h.kernelHeapLh,
      decide (u32 (h.kernelHeapBrk + 5000 + 12) ≤ h.kernelHeapLimit), obstructedCall h)) =
        some (some 0, true, some (0x1C2000, false)) := by
    decide +kernel
  obtain ⟨h, hh, hres⟩ := Option.map_eq_some_iff.1 hrun
  obtain ⟨hfind, hres⟩ := Prod.mk.inj hres
  obtain ⟨hlimit, hcall⟩ := Prod.mk.inj hres
  obtain ⟨⟨frame, source⟩, halloc, hcall⟩ := Option.bind_eq_some_iff.1 hcall
  obtain ⟨⟨ok, source'⟩, hmap, hcall⟩ := Option.bind_eq_some_iff.1 hcall
  obtain ⟨rfl, rfl⟩ := Prod.mk.inj (Option.some.inj hcall)
  exact ⟨h, { h with pages := source' }, hh, by decide, hfind, _, source, source',
    of_decide_eq_true hlimit, halloc, by decide, hmap, rfl⟩

/-- A range that is mapped, and a `kmalloc` that is not given its pages. -/
theorem range_all_or_nothing_smallMachine :
    (∃ t, AllOrNothing smallMachine t 0xD0000000 0x1C4000 2 true) ∧
    ∃ h h' : Heap KernelPages,
      h.kmalloc 5000 = some (0, h') ∧ h'.freePagesAmount ≠ h.freePagesAmount := by
  constructor
  · have hcall : (smallMachine.kvmmMapRange 0xD0000000 0x1C4000 3 2).map Prod.fst = some true := by
      decide +kernel
    obtain ⟨⟨ok, t⟩, ht, rfl⟩ := Option.map_eq_some_iff.1 hcall
    refine ⟨t, ((range_all_or_nothing_iff _ _ _ _ _ _ _).1 rangeCall_smallMachine ht).2 ?_⟩
    have hfree : ∀ i < 2, ¬Blocked smallMachine (0xD0000000 / 4096) i := by decide +kernel
    rintro ⟨i, hi, hblocked⟩
    exact absurd hblocked (hfree i hi)
  · obtain ⟨h, h', -, hf⟩ := mappingFails_obstructedHeap
    exact ⟨h, h', (range_all_or_nothing_iff smallMachine smallMachine 0 0 0 0 true).2 h h' 5000 hf⟩

/-- **A range whose second page is mapped already**: the first one is mapped, and stays so.  And a
`kmalloc` that comes upon such a page loses its frames. -/
theorem range_left_half_mapped :
    (∃ s t, RangeCall s 0xD0000000 0x1C4000 3 2 ∧
      s.kvmmMapRange 0xD0000000 0x1C4000 3 2 = some (false, t) ∧
      ¬AllOrNothing s t 0xD0000000 0x1C4000 2 false) ∧
    ∃ h h' : Heap KernelPages, MappingFails h 5000 h' ∧
      h.kmalloc 5000 = some (0, h') ∧ h'.freePagesAmount ≠ h.freePagesAmount := by
  constructor
  · have hfirst : (smallMachine.kvmmMapPage 0xD0001000 0x1C6000 3).map (fun r =>
        ((r.2.frames r.2.cr3 832).present, decide (r.2.pmm.kpmmFreePagesAmount < 2 ^ 32),
          (r.2.translate 0xD0000).isSome)) = some (true, true, false) := by
      decide +kernel
    have hthen : ((smallMachine.kvmmMapPage 0xD0001000 0x1C6000 3).bind fun r =>
        (r.2.kvmmMapRange 0xD0000000 0x1C4000 3 2).map fun q =>
          (q.1, (q.2.translate 0xD0000).isSome)) = some (false, true) := by
      decide +kernel
    obtain ⟨⟨ok, s⟩, hs, hres⟩ := Option.map_eq_some_iff.1 hfirst
    obtain ⟨hslot, hres⟩ := Prod.mk.inj hres
    obtain ⟨hcounter, hbefore⟩ := Prod.mk.inj hres
    rw [hs, Option.bind_some] at hthen
    obtain ⟨⟨ok', t⟩, ht, hres⟩ := Option.map_eq_some_iff.1 hthen
    obtain ⟨rfl, hafter⟩ := Prod.mk.inj hres
    have hdir := (kvmmMapPage_effect firstDirectory_smallMachine.builtByInit.dirOk (by decide)
      (by decide) hs).table.dirOk
    have htable : ∀ r : Vmm, (r.frames r.cr3 832).present = true → ∀ page paddr,
        pdeIndex page = 832 → NewTableSafe r page paddr := by
      intro r hr page paddr hpage _ _ habsent
      rw [hpage] at habsent
      exact absurd (hr.symm.trans habsent) (by decide)
    refine ⟨s, t, ⟨hdir, of_decide_eq_true hcounter, rfl, rfl, by decide, by decide, by decide,
      ⟨htable s hslot _ _ (by decide), fun r hr => ⟨?_, fun _ _ => trivial⟩⟩⟩, ht, fun hall => ?_⟩
    · have hstep := (kvmmMapPage_effect hdir (by decide) (by decide) hr).present rfl
      exact htable r hstep _ _ (by decide)
    · have hsame := hall.refused rfl 0xD0000 (by decide)
      have hsome := congrArg Option.isSome hsame
      exact Bool.false_ne_true ((hbefore.symm.trans hsome.symm).trans hafter)
  · obtain ⟨h, h', -, hf⟩ := mappingFails_obstructedHeap
    exact ⟨h, h', hf, hf.kmalloc, hf.counter⟩

end DelOs
