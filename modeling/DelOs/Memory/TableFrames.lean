import DelOs.Memory.FreshTable
import DelOs.Memory.HeapFrames

/-!
# What mapping does to the frames

`Memory.VmmMap` reads `kvmm_map_page` as an update of the address map, where the clearing of a
new table works.  Here nothing is assumed of the clearing: whatever frame it reaches, the
directory stays well formed, and every entry of every other frame is as it was or cleared,
except the one that is filled.

* `Faded` — an entry is as it was, or cleared.
* `ensureTable_effect`, `kvmmMapPage_effect` — **what `kvmm_map_page` does to the frames**.
* `kvmmUnmapPage_eq` — `kvmm_unmap_page` clears one entry.
* `TableStep.trans` — the changes to the directory compose.
-/

namespace DelOs

open FlagRuns TwoLevel

variable {r s t : Vmm}

/-! ## Entries that fade -/

/-- An entry is as it was, or cleared. -/
def Faded (e e' : PageEntry) : Prop := e' = e ∨ e' = PageEntry.zero

theorem Faded.refl (e : PageEntry) : Faded e e := Or.inl rfl

theorem Faded.trans {e e' e'' : PageEntry} (h₁ : Faded e e') (h₂ : Faded e' e'') :
    Faded e e'' := by
  rcases h₂ with rfl | rfl
  · exact h₁
  · exact Or.inr rfl

/-- What is present has not faded. -/
theorem Faded.eq_of_present {e e' : PageEntry} (h : Faded e e') (hp : e'.present = true) :
    e' = e := by
  rcases h with h | rfl
  · exact h
  · cases hp

theorem Faded.user_eq_false {e e' : PageEntry} (h : Faded e e') (hu : e.user = false) :
    e'.user = false := by
  rcases h with rfl | rfl
  · exact hu
  · rfl

/-! ## Changes to the directory -/

/-- A change that leaves the directory and the bitmap alone. -/
theorem TableStep.of_leaf (hd : DirOk s) (hcr3 : t.cr3 = s.cr3) (hpmm : t.pmm = s.pmm)
    (hdir : ∀ j, t.frames s.cr3 j = s.frames s.cr3 j) (k flags : Nat) :
    TableStep s t k flags := by
  have hsame : ∀ j, t.frames t.cr3 j = s.frames s.cr3 j := fun j => hcr3 ▸ hdir j
  refine ⟨?_, hcr3, fun x _ => by rw [hpmm], fun j _ => hsame j, fun _ => hsame k, ?_⟩
  · refine hd.congr hcr3 hdir (hpmm ▸ hd.below) ?_
    intro x hx
    rw [hpmm]
    exact hx
  · intro h1 h2
    rw [hsame k, h1] at h2
    cases h2

theorem TableStep.trans {k flags : Nat} (h₁ : TableStep r s k flags)
    (h₂ : TableStep s t k flags) : TableStep r t k flags := by
  refine ⟨h₂.dirOk, h₂.cr3.trans h₁.cr3, ?_, ?_, ?_, ?_⟩
  · intro x hx
    have hs := h₁.used x hx
    rw [h₂.used x (hs.trans_ne hx), hs]
  · intro j hj
    exact (h₂.slots j hj).trans (h₁.slots j hj)
  · intro hr
    have hs := h₁.slot hr
    exact (h₂.slot (hs ▸ hr)).trans hs
  · intro hr ht
    cases hp : (s.frames s.cr3 k).present with
    | true =>
      rw [h₂.slot hp]
      exact h₁.fresh hr hp
    | false =>
      obtain ⟨hfree, hrights⟩ := h₂.fresh hp ht
      refine ⟨?_, hrights⟩
      -- what is free after the first change was free before it
      by_contra hc
      exact hc ((h₁.used _ hc) ▸ hfree)

/-- What was free at the end was free at the start. -/
theorem TableStep.free {k flags x : Nat} (h : TableStep s t k flags)
    (hx : t.pmm.flags[x]? = some true) : s.pmm.flags[x]? = some true := by
  by_contra hc
  exact hc ((h.used x hc) ▸ hx)

/-! ## Making sure of a table -/

theorem clearFreshTable_cases {f : Nat} (h : s.clearFreshTable f = some t) :
    t = s ∨ ∃ g, t = s.clearFrame g := by
  unfold Vmm.clearFreshTable at h
  split_ifs at h
  · exact Or.inl (Option.some.inj h).symm
  · obtain ⟨g, -, hg⟩ := Option.map_eq_some_iff.1 h
    exact Or.inr ⟨g, hg.symm⟩

theorem faded_clearFrame (s : Vmm) (g x i : Nat) :
    Faded (s.frames x i) ((s.clearFrame g).frames x i) := by
  by_cases hx : x = g
  · subst hx
    exact Or.inr (wipe_self x i _)
  · exact Or.inl (wipe_of_ne i _ hx)

/-- Making sure of a table, whatever its clearing reaches. -/
theorem ensureTable_effect (hd : DirOk s) {k flags : Nat} {ok : Bool} (hk : k < 1023)
    (hflags : hasFlag flags flagPresent = true)
    (h : s.ensureTable Vmm.clearFreshTable k flags = some (ok, t)) :
    TableStep s t k flags ∧ (∀ x ≠ s.cr3, ∀ i, Faded (s.frames x i) (t.frames x i)) ∧
      (ok = true → (t.frames t.cr3 k).present = true) := by
  cases hp : (s.frames s.cr3 k).present with
  | true =>
    rw [ensureTable_of_present hd.self hp] at h
    cases h
    exact ⟨.refl hd k flags, fun x _ i => .refl _, fun _ => hp⟩
  | false =>
    cases halloc : s.pmm.allocPages 1 with
    | none =>
      simp [Vmm.ensureTable, hd.self.load_pd, hp, halloc] at h
    | some a =>
      obtain ⟨p, pmm⟩ := a
      by_cases hp0 : p = 0
      · subst hp0
        rw [ensureTable_of_no_frame hd.self hp halloc] at h
        cases h
        exact ⟨tableStep_allocPages hd halloc, fun x _ i => .refl _, fun hc => by cases hc⟩
      rcases Pmm.allocPages_cases hd.below halloc with ⟨-, h0, -⟩ |
          ⟨f, -, hfirst, -, rfl, hset, -, -⟩
      · exact absurd h0 hp0
      have hf : f ≠ 0 := by
        rintro rfl
        exact hp0 (Nat.zero_mul _)
      rw [ensureTable_of_frame hd.self hp hf halloc] at h
      obtain ⟨s₁, hclear, h⟩ := Option.bind_eq_some_iff.1 h
      -- the directory is not what the clearing reaches, since it is read next
      have hs₁ : s₁.cr3 = s.cr3 ∧ s₁.pmm = pmm ∧ (∀ j, s₁.frames s.cr3 j = s.frames s.cr3 j) ∧
          ∀ x i, Faded (s.frames x i) (s₁.frames x i) := by
        rcases clearFreshTable_cases hclear with rfl | ⟨g, rfl⟩
        · exact ⟨rfl, rfl, fun _ => rfl, fun x i => .refl _⟩
        · refine ⟨rfl, rfl, ?_, fun x i => faded_clearFrame s g x i⟩
          intro j
          refine wipe_of_ne j _ ?_
          rintro rfl
          rw [show Vmm.load _ recursivePd k = none from
            load_pd_clearFrame { s with pmm := pmm } k] at h
          cases h
      obtain ⟨hcr3, hpmm, hdir, hfaded⟩ := hs₁
      have hself : SelfMapped s₁ := hd.self.congr hcr3 (hdir 1023)
      have hens := ensureTable_of_clear hd.self flags hp hf halloc hclear hself
      rw [ensureTable_of_frame hd.self hp hf halloc, hclear] at hens
      obtain ⟨rfl, rfl⟩ := Prod.mk.inj (Option.some.inj (h.symm.trans hens))
      obtain ⟨-, -, hstep⟩ := tableStep_installTable flags hd hk hp (hfirst.1 0 (by decide)) hset
        (Pmm.allocPages_takes hd.below halloc).1 hcr3 hpmm hdir
      refine ⟨hstep, ?_, ?_⟩
      · intro x hx i
        have hout : (installTable s₁ k flags f).frames x i = s₁.frames x i :=
          put_of_ne _ _ _ (hcr3 ▸ hx)
        rw [hout]
        exact hfaded x i
      · intro _
        have hslot : (installTable s₁ k flags f).frames s₁.cr3 k =
            (s₁.frames s₁.cr3 k).assign flags f := put_self _ _ _
        show ((installTable s₁ k flags f).frames s₁.cr3 k).present = true
        rw [hslot]
        exact hflags

/-! ## Mapping and unmapping -/

/-- What a mapping does to the frames: outside the directory every entry fades at most, but for
the one that is filled. -/
structure MapEffect (s t : Vmm) (ok : Bool) (vaddr paddr flags : Nat) : Prop where
  table : TableStep s t (pdeIndex vaddr) flags
  refused : ok = false → ∀ x ≠ s.cr3, ∀ i, Faded (s.frames x i) (t.frames x i)
  others : ∀ x ≠ s.cr3, ∀ i,
    ¬ (x = (t.frames t.cr3 (pdeIndex vaddr)).frame ∧ i = pteIndex vaddr) →
    Faded (s.frames x i) (t.frames x i)
  present : ok = true → (t.frames t.cr3 (pdeIndex vaddr)).present = true
  filled : ok = true →
    ∃ attrs, t.frames (t.frames t.cr3 (pdeIndex vaddr)).frame (pteIndex vaddr) =
      ⟨hasFlag flags flagPresent, hasFlag flags flagRw, hasFlag flags flagUser, attrs,
        paddr / kpmmPageSize⟩

theorem MapEffect.of_refused {vaddr paddr flags : Nat} (h : TableStep s t (pdeIndex vaddr) flags)
    (hfaded : ∀ x ≠ s.cr3, ∀ i, Faded (s.frames x i) (t.frames x i)) :
    MapEffect s t false vaddr paddr flags :=
  ⟨h, fun _ => hfaded, fun x hx i _ => hfaded x hx i, fun hc => absurd hc Bool.false_ne_true,
    fun hc => absurd hc Bool.false_ne_true⟩

/-- **What `kvmm_map_page` does to the frames.** -/
theorem kvmmMapPage_effect (hd : DirOk s) {vaddr paddr flags : Nat} {ok : Bool}
    (hv : vaddr < windowStart * 4096) (hflags : hasFlag flags flagPresent = true)
    (h : s.kvmmMapPage vaddr paddr flags = some (ok, t)) : MapEffect s t ok vaddr paddr flags := by
  have hk := pdeIndex_lt_window hv
  unfold Vmm.kvmmMapPage Vmm.kvmmMapPageVia at h
  split_ifs at h with hal
  · cases h
    exact .of_refused (.refl hd _ _) fun x _ i => .refl _
  obtain ⟨⟨ok₁, s₁⟩, hens, h⟩ := Option.bind_eq_some_iff.1 h
  obtain ⟨hstep, hfaded, hpresent⟩ := ensureTable_effect hd hk hflags hens
  cases ok₁ with
  | false =>
    cases h
    exact .of_refused hstep hfaded
  | true =>
    have hp := hpresent rfl
    have h' : s₁.fillEntry vaddr paddr flags = some (ok, t) := h
    rw [fillEntry_eq hstep.dirOk.self paddr flags hp] at h'
    split_ifs at h'
    · cases h'
      exact .of_refused hstep hfaded
    · cases h'
      have hdir := withEntry_dir hstep.dirOk paddr flags hv hp
      have hslot : (withEntry s₁ vaddr paddr flags).frames (withEntry s₁ vaddr paddr flags).cr3
          (pdeIndex vaddr) = s₁.frames s₁.cr3 (pdeIndex vaddr) := hdir _
      refine ⟨hstep.withEntry paddr flags hv hp, fun hc => absurd hc.symm Bool.false_ne_true, ?_, ?_, ?_⟩
      · intro x hx i hne
        rw [hslot] at hne
        have hout : (withEntry s₁ vaddr paddr flags).frames x i = s₁.frames x i := if_neg hne
        rw [hout]
        exact hfaded x hx i
      · intro _
        rw [hslot]
        exact hp
      · intro _
        rw [hslot]
        exact ⟨_, put_self _ _ _⟩

/-- `kvmm_unmap_page` clears an entry that is present. -/
theorem kvmmUnmapPage_eq (h : SelfMapped s) {vaddr : Nat} (hv : vaddr % 4096 = 0) :
    s.kvmmUnmapPage vaddr =
      if (s.frames s.cr3 (pdeIndex vaddr)).present ∧
        (s.frames (s.frames s.cr3 (pdeIndex vaddr)).frame (pteIndex vaddr)).present
      then some (true, { s with
        frames := put s.frames (s.frames s.cr3 (pdeIndex vaddr)).frame (pteIndex vaddr)
          PageEntry.zero })
      else some (false, s) := by
  have hk := pdeIndex_lt vaddr
  unfold Vmm.kvmmUnmapPage
  rw [if_neg (by omega), h.load_pd, Option.bind_eq_bind, Option.bind_some]
  cases hp : (s.frames s.cr3 (pdeIndex vaddr)).present with
  | false => simp
  | true =>
    rw [h.load_pt hk hp, h.store_pt hk hp]
    cases hpte : (s.frames (s.frames s.cr3 (pdeIndex vaddr)).frame (pteIndex vaddr)).present <;>
      simp [hpte]

/-- ... so that nothing else fades. -/
theorem kvmmUnmapPage_effect (hd : DirOk s) {vaddr : Nat} (flags : Nat) {ok : Bool}
    (hv0 : vaddr % 4096 = 0) (hv : vaddr < windowStart * 4096)
    (h : s.kvmmUnmapPage vaddr = some (ok, t)) :
    TableStep s t (pdeIndex vaddr) flags ∧ ∀ x i, Faded (s.frames x i) (t.frames x i) := by
  rw [kvmmUnmapPage_eq hd.self hv0] at h
  split_ifs at h with hp
  · obtain ⟨-, rfl⟩ := Prod.mk.inj (Option.some.inj h)
    have hne := hd.tidy.ne_root _ (pdeIndex_lt_window hv) hp.1
    refine ⟨?_, ?_⟩
    · refine TableStep.of_leaf hd ?_ ?_ ?_ _ _
      · rfl
      · rfl
      intro j
      exact put_of_ne (pteIndex vaddr) j PageEntry.zero hne.symm
    · intro x i
      by_cases hx : x = (s.frames s.cr3 (pdeIndex vaddr)).frame ∧ i = pteIndex vaddr
      · exact Or.inr (if_pos hx)
      · exact Or.inl (if_neg hx)
  · cases h
    exact ⟨.refl hd _ _, fun x i => .refl _⟩

end DelOs
