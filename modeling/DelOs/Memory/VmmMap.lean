import DelOs.Memory.Vmm

/-!
# Mapping a page, seen as a change of the address map

What `kvmm_map_page` and `kvmm_unmap_page` do to the map from pages to frames and rights that
the processor reads off the page tables.

* `DirOk` — what `kvmm_init` sets up and every mapping keeps: the directory maps itself, the
  page tables are distinct, their frames are not free, and free frames lie below 4 GiB.
* `SameMap` — no translation outside the recursive window differs.
* `kvmmMapPageVia_spec` — **a mapping whose clearing of a new table works is an update of one
  page**, and what it does besides is listed in `TableStep`.
* `kvmmUnmapPage_spec` — `kvmm_unmap_page` removes one page.
-/

namespace DelOs

open FlagRuns TwoLevel

/-! ## Directories -/

/-- The directory slot 1023 names the directory. -/
structure SelfMapped (s : Vmm) : Prop where
  present : (s.frames s.cr3 1023).present = true
  frame : (s.frames s.cr3 1023).frame = s.cr3

/-- A directory as the kernel builds it: it maps itself, its tables are distinct, and neither
they nor the directory lie in a free frame; free frames lie below 4 GiB. -/
structure DirOk (s : Vmm) : Prop where
  self : SelfMapped s
  tidy : Tidy (fun k => k < 1023) s.frames s.cr3
  below : s.pmm.Below4G
  dir_used : s.pmm.flags[s.cr3]? ≠ some true
  table_used : ∀ k < 1023, (s.frames s.cr3 k).present = true →
    s.pmm.flags[(s.frames s.cr3 k).frame]? ≠ some true

/-- The first page of the recursive window. -/
def windowStart : Nat := 0xFFC00

/-- Two address maps agree outside the recursive window. -/
def SameMap (s t : Vmm) : Prop := ∀ page < windowStart, t.translate page = s.translate page

/-- A frame that, as a page table, maps nothing. -/
def Blank (s : Vmm) (frame : Nat) : Prop := ∀ i < 1024, (s.frames frame i).present = false

theorem SameMap.refl (s : Vmm) : SameMap s s := fun _ _ => rfl

theorem SameMap.trans {r s t : Vmm} (h₁ : SameMap r s) (h₂ : SameMap s t) : SameMap r t :=
  fun page hp => (h₂ page hp).trans (h₁ page hp)

/-! ## Accesses through the recursive mapping -/

namespace SelfMapped

variable {s : Vmm}

/-- The slot stays, and the directory is the same. -/
theorem congr {t : Vmm} (h : SelfMapped s) (hcr3 : t.cr3 = s.cr3)
    (hslot : t.frames s.cr3 1023 = s.frames s.cr3 1023) : SelfMapped t := by
  constructor
  · rw [hcr3, hslot]
    exact h.present
  · rw [hcr3, hslot]
    exact h.frame

/-- The page of a table in the window: the slot of the table is its page entry. -/
theorem walk_recursivePt (h : SelfMapped s) {k : Nat} (hk : k < 1024) :
    s.walk (recursivePt k) =
      if (s.frames s.cr3 k).present = true then some (s.frames s.cr3 k).frame else none := by
  have hdiv : recursivePt k / 1024 = 1023 := by
    unfold recursivePt
    omega
  have hmod : recursivePt k % 1024 = k := by
    unfold recursivePt
    omega
  have hself : TableEntry.present (s.frames s.cr3 1023) = true := h.present
  have hnext : TableEntry.next (s.frames s.cr3 1023) = s.cr3 := h.frame
  have hleaf : TableEntry.present (s.frames s.cr3 k) = (s.frames s.cr3 k).present := rfl
  simp only [Vmm.walk, Vmm.entries, lookup, hdiv, hmod, hself, hnext, hleaf, if_true]
  split_ifs
  · rfl
  · rfl

theorem walk_window (h : SelfMapped s) {k : Nat} (hk : k < 1024)
    (hp : (s.frames s.cr3 k).present = true) :
    s.walk (recursivePt k) = some (s.frames s.cr3 k).frame := by
  rw [h.walk_recursivePt hk, if_pos hp]

theorem walk_pd (h : SelfMapped s) : s.walk recursivePd = some s.cr3 := by
  have hw := h.walk_window (by decide : 1023 < 1024) h.present
  rw [h.frame] at hw
  exact hw

theorem load_pd (h : SelfMapped s) (k : Nat) :
    s.load recursivePd k = some (s.frames s.cr3 k) := by
  rw [Vmm.load, h.walk_pd]
  rfl

theorem store_pd (h : SelfMapped s) (k : Nat) (e : PageEntry) :
    s.store recursivePd k e = some { s with frames := put s.frames s.cr3 k e } := by
  rw [Vmm.store, h.walk_pd]
  rfl

theorem load_pt (h : SelfMapped s) {k : Nat} (hk : k < 1024)
    (hp : (s.frames s.cr3 k).present = true) (i : Nat) :
    s.load (recursivePt k) i = some (s.frames (s.frames s.cr3 k).frame i) := by
  rw [Vmm.load, h.walk_window hk hp]
  rfl

theorem store_pt (h : SelfMapped s) {k : Nat} (hk : k < 1024)
    (hp : (s.frames s.cr3 k).present = true) (i : Nat) (e : PageEntry) :
    s.store (recursivePt k) i e =
      some { s with frames := put s.frames (s.frames s.cr3 k).frame i e } := by
  rw [Vmm.store, h.walk_window hk hp]
  rfl

end SelfMapped

/-! ## The steps of a mapping -/

section Steps

variable {s t : Vmm} {clear : Vmm → Nat → Option Vmm}

theorem ensureTable_of_present (h : SelfMapped s) {k flags : Nat}
    (hp : (s.frames s.cr3 k).present = true) :
    s.ensureTable clear k flags = some (true, s) := by
  simp [Vmm.ensureTable, h.load_pd, hp]

theorem ensureTable_of_no_frame (h : SelfMapped s) {k flags : Nat} {pmm : Pmm}
    (hp : (s.frames s.cr3 k).present = false) (halloc : s.pmm.allocPages 1 = some (0, pmm)) :
    s.ensureTable clear k flags = some (false, { s with pmm := pmm }) := by
  simp [Vmm.ensureTable, h.load_pd, hp, halloc]

/-- With a frame for the new table, what happens depends on the clearing. -/
theorem ensureTable_of_frame (h : SelfMapped s) {k flags f : Nat} {pmm : Pmm}
    (hp : (s.frames s.cr3 k).present = false) (hf : f ≠ 0)
    (halloc : s.pmm.allocPages 1 = some (f * kpmmPageSize, pmm)) :
    s.ensureTable clear k flags = (clear { s with pmm := pmm } f).bind fun s => do
      let pde ← s.load recursivePd k
      let s ← s.store recursivePd k (pde.assign flags f)
      return (true, s) := by
  have hne : f * kpmmPageSize ≠ 0 := Nat.mul_ne_zero hf (by decide)
  have hdiv : f * kpmmPageSize / kpmmPageSize = f := Nat.mul_div_cancel _ (by decide)
  simp [Vmm.ensureTable, h.load_pd, hp, halloc, hne, hdiv]

/-- The directory after a new table is installed. -/
def installTable (s : Vmm) (k flags f : Nat) : Vmm :=
  { s with frames := put s.frames s.cr3 k ((s.frames s.cr3 k).assign flags f) }

theorem ensureTable_of_clear (h : SelfMapped s) (flags : Nat) {k f : Nat} {pmm : Pmm} {s₁ : Vmm}
    (hp : (s.frames s.cr3 k).present = false) (hf : f ≠ 0)
    (halloc : s.pmm.allocPages 1 = some (f * kpmmPageSize, pmm))
    (hclear : clear { s with pmm := pmm } f = some s₁) (h₁ : SelfMapped s₁) :
    s.ensureTable clear k flags = some (true, installTable s₁ k flags f) := by
  rw [ensureTable_of_frame h hp hf halloc, hclear]
  simp [h₁.load_pd, h₁.store_pd, installTable]

/-- The tables after an entry is filled. -/
def withEntry (s : Vmm) (vaddr paddr flags : Nat) : Vmm :=
  { s with
    frames := put s.frames (s.frames s.cr3 (pdeIndex vaddr)).frame (pteIndex vaddr)
      ((s.frames (s.frames s.cr3 (pdeIndex vaddr)).frame (pteIndex vaddr)).assign flags
        (paddr / kpmmPageSize)) }

theorem pdeIndex_lt (vaddr : Nat) : pdeIndex vaddr < 1024 := Nat.mod_lt _ (by decide)

theorem pteIndex_lt (vaddr : Nat) : pteIndex vaddr < 1024 := Nat.mod_lt _ (by decide)

theorem fillEntry_eq (h : SelfMapped s) {vaddr : Nat} (paddr flags : Nat)
    (hp : (s.frames s.cr3 (pdeIndex vaddr)).present = true) :
    s.fillEntry vaddr paddr flags =
      if (s.frames (s.frames s.cr3 (pdeIndex vaddr)).frame (pteIndex vaddr)).present
      then some (false, s) else some (true, withEntry s vaddr paddr flags) := by
  have hk := pdeIndex_lt vaddr
  simp only [Vmm.fillEntry, h.load_pt hk hp, h.store_pt hk hp, Option.bind_eq_bind,
    Option.bind_some]
  split_ifs <;> rfl

/-- A mapping in a table that is there. -/
theorem kvmmMapPage_of_present (h : SelfMapped s) {vaddr paddr flags : Nat}
    (hp : (s.frames s.cr3 (pdeIndex vaddr)).present = true) (hv : vaddr % 4096 = 0)
    (hpaddr : paddr % 4096 = 0) :
    s.kvmmMapPage vaddr paddr flags = s.fillEntry vaddr paddr flags := by
  unfold Vmm.kvmmMapPage Vmm.kvmmMapPageVia
  rw [if_neg (by omega), ensureTable_of_present h hp]
  rfl

end Steps

/-! ## What the steps do to the address map -/

section Effects

variable {s t : Vmm}

/-- The clearing of a new table did what it is for: the frame maps nothing, and otherwise the
address map and the directory are as before. -/
structure Cleared (s t : Vmm) (f : Nat) : Prop where
  cr3 : t.cr3 = s.cr3
  pmm : t.pmm = s.pmm
  dir : ∀ k, t.frames s.cr3 k = s.frames s.cr3 k
  blank : Blank t f
  map : SameMap s t

/-- What making sure of a table in slot `k` does besides: frames only get used, the other slots
stay, and a new table lies in a frame that was free. -/
structure TableStep (s t : Vmm) (k flags : Nat) : Prop where
  dirOk : DirOk t
  cr3 : t.cr3 = s.cr3
  used : ∀ x : Nat, s.pmm.flags[x]? ≠ some true → t.pmm.flags[x]? = s.pmm.flags[x]?
  slots : ∀ j, j ≠ k → t.frames t.cr3 j = s.frames s.cr3 j
  slot : (s.frames s.cr3 k).present = true → t.frames t.cr3 k = s.frames s.cr3 k
  fresh : (s.frames s.cr3 k).present = false → (t.frames t.cr3 k).present = true →
    s.pmm.flags[(t.frames t.cr3 k).frame]? = some true ∧
    (t.frames t.cr3 k).rw = hasFlag flags flagRw ∧ (t.frames t.cr3 k).user = hasFlag flags flagUser

theorem TableStep.refl (hd : DirOk s) (k flags : Nat) : TableStep s s k flags :=
  ⟨hd, rfl, fun _ _ => rfl, fun _ _ => rfl, fun _ => rfl, fun h1 h2 => by rw [h1] at h2; cases h2⟩

theorem pdeIndex_eq {vaddr : Nat} (hv : vaddr < 2 ^ 32) :
    pdeIndex vaddr = vaddr / 4096 / 1024 := by
  unfold pdeIndex
  omega

theorem pteIndex_eq (vaddr : Nat) : pteIndex vaddr = vaddr / 4096 % 1024 := rfl

/-- A page address below the recursive window has its slot among the first 1023. -/
theorem pdeIndex_lt_window {vaddr : Nat} (hv : vaddr < windowStart * 4096) :
    pdeIndex vaddr < 1023 := by
  unfold windowStart at hv
  rw [pdeIndex_eq (by omega)]
  omega

/-- The translation that a filled entry gives its page. -/
def newTranslation (s : Vmm) (vaddr paddr flags : Nat) : Translation :=
  ⟨paddr / kpmmPageSize, hasFlag flags flagRw, hasFlag flags flagUser,
    (s.frames s.cr3 (pdeIndex vaddr)).rw, (s.frames s.cr3 (pdeIndex vaddr)).user⟩

/-- The translation of a page, by its two entries. -/
theorem translate_page (s : Vmm) (k : Nat) {i : Nat} (hi : i < 1024) :
    s.translate (k * 1024 + i) =
      if (s.frames s.cr3 k).present then
        if (s.frames (s.frames s.cr3 k).frame i).present then
          some ⟨(s.frames (s.frames s.cr3 k).frame i).frame,
            (s.frames (s.frames s.cr3 k).frame i).rw, (s.frames (s.frames s.cr3 k).frame i).user,
            (s.frames s.cr3 k).rw, (s.frames s.cr3 k).user⟩
        else none
      else none := by
  have hdiv : (k * 1024 + i) / 1024 = k := by omega
  have hmod : (k * 1024 + i) % 1024 = i := by omega
  unfold Vmm.translate Vmm.entries lookup
  rw [hdiv, hmod]
  have h1 : ∀ e : PageEntry, TableEntry.present e = e.present := fun _ => rfl
  have h2 : ∀ e : PageEntry, TableEntry.next e = e.frame := fun _ => rfl
  simp only [h1, h2]
  split_ifs <;> rfl

theorem walk_eq_translate (s : Vmm) (page : Nat) :
    s.walk page = (s.translate page).map Translation.frame := by
  unfold Vmm.translate Vmm.walk
  rw [Option.map_map]
  rfl

/-- The frame of a page, by its two entries. -/
theorem walk_page (s : Vmm) (k : Nat) {i : Nat} (hi : i < 1024) :
    s.walk (k * 1024 + i) =
      if (s.frames s.cr3 k).present ∧ (s.frames (s.frames s.cr3 k).frame i).present
      then some (s.frames (s.frames s.cr3 k).frame i).frame else none := by
  rw [walk_eq_translate, translate_page s k hi]
  split_ifs with h1 h2 h3 h3 <;> simp_all

/-- A page translates if both of its entries are present. -/
theorem translate_ne_none {k i : Nat} (hi : i < 1024) :
    s.translate (k * 1024 + i) ≠ none ↔ (s.frames s.cr3 k).present = true ∧
      (s.frames (s.frames s.cr3 k).frame i).present = true := by
  rw [translate_page s k hi]
  cases (s.frames s.cr3 k).present <;>
    cases (s.frames (s.frames s.cr3 k).frame i).present <;> simp

/-- The page of an address, by its two indices. -/
theorem page_eq {vaddr : Nat} (hv : vaddr < windowStart * 4096) :
    vaddr / 4096 = pdeIndex vaddr * 1024 + pteIndex vaddr := by
  rw [pdeIndex_eq (by unfold windowStart at hv; omega), pteIndex_eq]
  omega

/-- Writing an entry of a table in use changes the translation of one page. -/
theorem translate_put (ht : Tidy (fun k => k < 1023) s.frames s.cr3) {vaddr page : Nat} {e : PageEntry}
    (hv : vaddr < windowStart * 4096) (hpage : page < windowStart)
    (hp : (s.frames s.cr3 (pdeIndex vaddr)).present = true) :
    Vmm.translate { s with
        frames := put s.frames (s.frames s.cr3 (pdeIndex vaddr)).frame (pteIndex vaddr) e } page =
      if page = vaddr / 4096 then
        (if e.present then
          some ⟨e.frame, e.rw, e.user, (s.frames s.cr3 (pdeIndex vaddr)).rw,
            (s.frames s.cr3 (pdeIndex vaddr)).user⟩
        else none)
      else s.translate page := by
  have hslot : page / 1024 < 1023 := by
    unfold windowStart at hpage
    omega
  have hpde := @pdeIndex_eq vaddr (by unfold windowStart at hv; omega)
  have hpte := pteIndex_eq vaddr
  have hone := lookup_put_leaf (l := page % 1024) (e := e) (j := pteIndex vaddr) ht
    (pdeIndex_lt_window hv) hslot hp
  have hiff : page / 1024 = pdeIndex vaddr ∧ page % 1024 = pteIndex vaddr ↔
      page = vaddr / 4096 := by omega
  simp only [Vmm.translate, Vmm.entries]
  show (lookup (put s.frames (s.frames s.cr3 (pdeIndex vaddr)).frame (pteIndex vaddr) e) s.cr3
    (page / 1024) (page % 1024)).map _ = _
  rw [show (s.frames s.cr3 (pdeIndex vaddr)).frame =
    TableEntry.next (s.frames s.cr3 (pdeIndex vaddr)) from rfl, hone]
  simp only [hiff]
  by_cases hpv : page = vaddr / 4096
  · have hpe : TableEntry.present e = e.present := rfl
    rw [if_pos hpv, if_pos hpv, hpe]
    cases e.present <;> rfl
  · rw [if_neg hpv, if_neg hpv]

/-- **Filling an entry is an update of the address map.** -/
theorem translate_withEntry (ht : Tidy (fun k => k < 1023) s.frames s.cr3) {vaddr paddr flags page : Nat}
    (hv : vaddr < windowStart * 4096) (hpage : page < windowStart)
    (hp : (s.frames s.cr3 (pdeIndex vaddr)).present = true)
    (hflags : hasFlag flags flagPresent = true) :
    (withEntry s vaddr paddr flags).translate page =
      if page = vaddr / 4096 then some (newTranslation s vaddr paddr flags)
      else s.translate page := by
  rw [withEntry, translate_put ht hv hpage hp]
  simp only [PageEntry.assign, hflags, newTranslation]
  rfl

/-- Filling an entry leaves the directory as it is. -/
theorem withEntry_dir (hd : DirOk s) {vaddr : Nat} (paddr flags : Nat) (hv : vaddr < windowStart * 4096)
    (hp : (s.frames s.cr3 (pdeIndex vaddr)).present = true) (k : Nat) :
    (withEntry s vaddr paddr flags).frames s.cr3 k = s.frames s.cr3 k :=
  put_of_ne _ _ _ (hd.tidy.ne_root _ (pdeIndex_lt_window hv) hp).symm

/-- A directory stays well formed while its slots and the bitmap stay. -/
theorem DirOk.congr (hd : DirOk s) (hcr3 : t.cr3 = s.cr3)
    (hdir : ∀ k, t.frames s.cr3 k = s.frames s.cr3 k) (hbelow : t.pmm.Below4G)
    (hused : ∀ x : Nat, s.pmm.flags[x]? ≠ some true → t.pmm.flags[x]? ≠ some true) :
    DirOk t := by
  refine ⟨⟨?_, ?_⟩, ?_, hbelow, ?_, ?_⟩
  · rw [hcr3, hdir]
    exact hd.self.present
  · rw [hcr3, hdir]
    exact hd.self.frame
  · rw [hcr3]
    exact hd.tidy.congr hdir
  · rw [hcr3]
    exact hused _ hd.dir_used
  · intro k hk hp
    rw [hcr3, hdir] at hp ⊢
    exact hused _ (hd.table_used k hk hp)

/-- Installing a new table in a slot that has none, whatever its clearing has done to the other
frames. -/
theorem tableStep_installTable (flags : Nat) (hd : DirOk s) {k f : Nat} {pmm : Pmm} {s₁ : Vmm}
    (hk : k < 1023) (habsent : (s.frames s.cr3 k).present = false)
    (hfree : s.pmm.flags[f]? = some true) (hflags : pmm.flags = setRun false s.pmm.flags f 1)
    (hbelow : pmm.Below4G) (hcr3 : s₁.cr3 = s.cr3) (hpmm : s₁.pmm = pmm)
    (hdir : ∀ j, s₁.frames s.cr3 j = s.frames s.cr3 j) :
    DirOk s₁ ∧ f ≠ s₁.cr3 ∧ TableStep s (installTable s₁ k flags f) k flags := by
  have hend : f + 1 ≤ s.pmm.flags.length := (List.getElem?_eq_some_iff.1 hfree).1
  have hget : ∀ x : Nat, s₁.pmm.flags[x]? = if x = f then some false else s.pmm.flags[x]? := by
    intro x
    have hiff : f ≤ x ∧ x < f + 1 ↔ x = f := by omega
    rw [hpmm, hflags, getElem?_setRun false hend]
    simp only [hiff]
  have hused : ∀ x : Nat, s.pmm.flags[x]? ≠ some true → s₁.pmm.flags[x]? = s.pmm.flags[x]? := by
    intro x hx
    rw [hget, if_neg]
    rintro rfl
    exact hx hfree
  have hd₁ : DirOk s₁ := by
    refine hd.congr hcr3 hdir ?_ ?_
    · rw [hpmm]
      exact hbelow
    · intro x hx
      rw [hused x hx]
      exact hx
  have hne : f ≠ s₁.cr3 := by
    rintro rfl
    exact hd₁.dir_used (by rw [hcr3] at hfree ⊢; exact absurd hfree hd.dir_used)
  have hfresh : ∀ j, j < 1023 → (s₁.frames s₁.cr3 j).present = true →
      (s₁.frames s₁.cr3 j).frame ≠ f := by
    intro j hj hp hjf
    rw [hcr3, hdir] at hp hjf
    rw [← hjf] at hfree
    exact hd.table_used j hj hp hfree
  have hslots : ∀ j, j ≠ k → (installTable s₁ k flags f).frames s₁.cr3 j = s₁.frames s₁.cr3 j :=
    fun j hj => put_of_index_ne _ hj
  have hslot : (installTable s₁ k flags f).frames s₁.cr3 k =
      (s₁.frames s₁.cr3 k).assign flags f := put_self _ _ _
  refine ⟨hd₁, hne, ⟨⟨?_, ?_⟩, ?_, hd₁.below, hd₁.dir_used, ?_⟩, hcr3, hused, ?_, ?_, ?_⟩
  · exact (congrArg PageEntry.present (hslots 1023 (by omega))).trans hd₁.self.present
  · exact (congrArg PageEntry.frame (hslots 1023 (by omega))).trans hd₁.self.frame
  · exact hd₁.tidy.put_root hne hfresh
  · intro j hj hp
    show s₁.pmm.flags[((installTable s₁ k flags f).frames s₁.cr3 j).frame]? ≠ some true
    by_cases hjk : j = k
    · subst hjk
      rw [hslot]
      show s₁.pmm.flags[f]? ≠ some true
      rw [hget, if_pos rfl]
      simp
    · have hp' : (s₁.frames s₁.cr3 j).present = true := (hslots j hjk) ▸ hp
      rw [hslots j hjk]
      exact hd₁.table_used j hj hp'
  · intro j hj
    have h := hslots j hj
    rw [hcr3] at h
    show (installTable s₁ k flags f).frames s₁.cr3 j = _
    rw [hcr3, h, hdir]
  · intro hp
    rw [habsent] at hp
    cases hp
  · intro _ _
    have h := hslot
    show s.pmm.flags[((installTable s₁ k flags f).frames s₁.cr3 k).frame]? = some true ∧
      ((installTable s₁ k flags f).frames s₁.cr3 k).rw = _ ∧
      ((installTable s₁ k flags f).frames s₁.cr3 k).user = _
    rw [h]
    exact ⟨hfree, rfl, rfl⟩

/-- **Installing a cleared table changes no translation.** -/
theorem installTable_spec (flags : Nat) (hd : DirOk s) {k f : Nat} {pmm : Pmm} {s₁ : Vmm}
    (hk : k < 1023) (habsent : (s.frames s.cr3 k).present = false)
    (hfree : s.pmm.flags[f]? = some true) (hflags : pmm.flags = setRun false s.pmm.flags f 1)
    (hbelow : pmm.Below4G) (hclear : Cleared { s with pmm := pmm } s₁ f) :
    TableStep s (installTable s₁ k flags f) k flags ∧ SameMap s (installTable s₁ k flags f) := by
  have hcr3 : s₁.cr3 = s.cr3 := hclear.cr3
  have hdir : ∀ j, s₁.frames s.cr3 j = s.frames s.cr3 j := hclear.dir
  obtain ⟨hd₁, hne, hstep⟩ := tableStep_installTable flags hd hk habsent hfree hflags hbelow hcr3
    hclear.pmm hdir
  refine ⟨hstep, ?_⟩
  have habsent₁ : (s₁.frames s₁.cr3 k).present = false := by
    rw [hcr3, hdir]
    exact habsent
  intro page hpage
  have hslot' : page / 1024 < 1023 := by
    unfold windowStart at hpage
    omega
  have hsame := lookup_put_root (k := page / 1024) (l := page % 1024)
    (e := (s₁.frames s₁.cr3 k).assign flags f) hd₁.tidy hslot' habsent₁ hne
    (hclear.blank _ (Nat.mod_lt _ (by decide)))
  have hmap := hclear.map page hpage
  have htr : (installTable s₁ k flags f).translate page = s₁.translate page :=
    congrArg (Option.map _) hsame
  exact htr.trans hmap

theorem TableStep.withEntry {k flags vaddr : Nat} (h : TableStep s t k flags) (paddr flags' : Nat)
    (hv : vaddr < windowStart * 4096) (hp : (t.frames t.cr3 (pdeIndex vaddr)).present = true) :
    TableStep s (withEntry t vaddr paddr flags') k flags := by
  have hdir : ∀ j, (DelOs.withEntry t vaddr paddr flags').frames t.cr3 j = t.frames t.cr3 j :=
    withEntry_dir h.dirOk paddr flags' hv hp
  refine ⟨h.dirOk.congr rfl hdir h.dirOk.below fun _ hx => hx, h.cr3, h.used, ?_, ?_, ?_⟩
  · intro j hj
    exact (hdir j).trans (h.slots j hj)
  · intro hs
    exact (hdir k).trans (h.slot hs)
  · intro h1 h2
    have hk := hdir k
    show s.pmm.flags[((DelOs.withEntry t vaddr paddr flags').frames t.cr3 k).frame]? = some true ∧
      ((DelOs.withEntry t vaddr paddr flags').frames t.cr3 k).rw = _ ∧
      ((DelOs.withEntry t vaddr paddr flags').frames t.cr3 k).user = _
    rw [hk]
    exact h.fresh h1 (hk ▸ h2)

/-- An allocation, with no table made of it. -/
theorem tableStep_allocPages (hd : DirOk s) {k f n p : Nat} {pmm : Pmm}
    (halloc : s.pmm.allocPages n = some (p, pmm)) :
    TableStep s { s with pmm := pmm } k f := by
  obtain ⟨hbelow, hused, -⟩ := Pmm.allocPages_takes hd.below halloc
  refine ⟨hd.congr rfl (fun _ => rfl) hbelow ?_, rfl, hused, fun _ _ => rfl, fun _ => rfl, ?_⟩
  · intro x hx
    show pmm.flags[x]? ≠ some true
    rw [hused x hx]
    exact hx
  · intro h1 h2
    have h3 : (s.frames s.cr3 k).present = true := h2
    rw [h1] at h3
    cases h3

/-- The clearing works on the frame that a new table would get. -/
def ClearWorks (clear : Vmm → Nat → Option Vmm) (s : Vmm) : Prop :=
  ∀ f pmm, f ≠ 0 → s.pmm.allocPages 1 = some (f * kpmmPageSize, pmm) →
    ∃ s₁, clear { s with pmm := pmm } f = some s₁ ∧ Cleared { s with pmm := pmm } s₁ f

/-- Making sure of a table changes no translation; it fails to return only when the page
allocator panics. -/
theorem ensureTable_spec {clear : Vmm → Nat → Option Vmm} (hd : DirOk s) {k flags : Nat}
    (hk : k < 1023) (hflags : hasFlag flags flagPresent = true)
    (hclear : (s.frames s.cr3 k).present = false → ClearWorks clear s) :
    (s.ensureTable clear k flags = none ∧ (s.frames s.cr3 k).present = false ∧
      s.pmm.allocPages 1 = none) ∨
    ∃ ok t, s.ensureTable clear k flags = some (ok, t) ∧ TableStep s t k flags ∧ SameMap s t ∧
      (ok = true → (t.frames t.cr3 k).present = true) := by
  cases hp : (s.frames s.cr3 k).present with
  | true =>
    exact Or.inr ⟨true, s, ensureTable_of_present hd.self hp, .refl hd k flags, .refl s,
      fun _ => hp⟩
  | false =>
    cases halloc : s.pmm.allocPages 1 with
    | none => exact Or.inl ⟨by simp [Vmm.ensureTable, hd.self.load_pd, hp, halloc], rfl, rfl⟩
    | some r =>
      right
      obtain ⟨p, pmm⟩ := r
      by_cases hp0 : p = 0
      · subst hp0
        exact ⟨false, _, ensureTable_of_no_frame hd.self hp halloc,
          tableStep_allocPages hd halloc, fun _ _ => rfl, fun hc => by cases hc⟩
      · rcases Pmm.allocPages_cases hd.below halloc with ⟨-, h0, -⟩ |
            ⟨f, -, hfirst, -, rfl, hset, -, -⟩
        · exact absurd h0 hp0
        have hf : f ≠ 0 := by
          rintro rfl
          exact hp0 (Nat.zero_mul _)
        obtain ⟨s₁, hs₁, hcleared⟩ := hclear hp f pmm hf halloc
        have hself₁ : SelfMapped s₁ := hd.self.congr hcleared.cr3 (hcleared.dir 1023)
        obtain ⟨hstep, hmap⟩ :=
          installTable_spec flags hd hk hp (hfirst.1 0 (by decide)) hset
            (Pmm.allocPages_takes hd.below halloc).1 hcleared
        refine ⟨true, _, ensureTable_of_clear hd.self flags hp hf halloc hs₁ hself₁, hstep, hmap, ?_⟩
        intro _
        show ((installTable s₁ k flags f).frames s₁.cr3 k).present = true
        rw [show (installTable s₁ k flags f).frames s₁.cr3 k =
          (s₁.frames s₁.cr3 k).assign flags f from put_self _ _ _]
        exact hflags

/-- What a mapping that returns has done. -/
structure MapStep (s t : Vmm) (ok : Bool) (vaddr paddr flags : Nat) : Prop where
  table : TableStep s t (pdeIndex vaddr) flags
  refused : ok = false → SameMap s t
  mapped : ok = true → vaddr % 4096 = 0 ∧ (t.frames t.cr3 (pdeIndex vaddr)).present = true ∧
    s.translate (vaddr / 4096) = none ∧
    ∀ page < windowStart, t.translate page =
      if page = vaddr / 4096 then some (newTranslation t vaddr paddr flags) else s.translate page

/-- **A mapping whose clearing works is an update of one page**; it fails to return only when
the page allocator panics. -/
theorem kvmmMapPageVia_spec {clear : Vmm → Nat → Option Vmm} (hd : DirOk s)
    {vaddr flags : Nat} (paddr : Nat) (hv : vaddr < windowStart * 4096)
    (hflags : hasFlag flags flagPresent = true)
    (hclear : vaddr % 4096 = 0 → paddr % 4096 = 0 →
      (s.frames s.cr3 (pdeIndex vaddr)).present = false → ClearWorks clear s) :
    (s.kvmmMapPageVia clear vaddr paddr flags = none ∧
      (s.frames s.cr3 (pdeIndex vaddr)).present = false ∧ s.pmm.allocPages 1 = none) ∨
    ∃ ok t, s.kvmmMapPageVia clear vaddr paddr flags = some (ok, t) ∧
      MapStep s t ok vaddr paddr flags := by
  have hk := pdeIndex_lt_window hv
  unfold Vmm.kvmmMapPageVia
  by_cases hal : vaddr % 4096 ≠ 0 ∨ paddr % 4096 ≠ 0
  · rw [if_pos hal]
    exact Or.inr ⟨false, s, rfl, .refl hd _ _, fun _ => .refl s, fun hc => by cases hc⟩
  · rw [if_neg hal]
    obtain ⟨hv0, hp0⟩ := not_or.1 hal
    rw [not_not] at hv0 hp0
    rcases ensureTable_spec hd hk hflags (hclear hv0 hp0) with ⟨hnone, habsent, halloc⟩ |
        ⟨ok, t, hens, hstep, hmap, hpres⟩
    · exact Or.inl ⟨by rw [hnone]; rfl, habsent, halloc⟩
    right
    rw [hens]
    cases ok with
    | false => exact ⟨false, t, rfl, hstep, fun _ => hmap, fun hc => by cases hc⟩
    | true =>
      have hp := hpres rfl
      have hfill := fillEntry_eq hstep.dirOk.self paddr flags hp
      cases hpte : (t.frames (t.frames t.cr3 (pdeIndex vaddr)).frame (pteIndex vaddr)).present with
      | true =>
        refine ⟨false, t, ?_, hstep, fun _ => hmap, fun hc => by cases hc⟩
        rw [hpte] at hfill
        exact hfill
      | false =>
        refine ⟨true, withEntry t vaddr paddr flags, ?_, hstep.withEntry paddr flags hv hp,
          fun hc => absurd hc (by decide), ?_⟩
        · rw [hpte] at hfill
          exact hfill
        · intro _
          have hdir := withEntry_dir hstep.dirOk paddr flags hv hp
          refine ⟨hv0, ?_, ?_, ?_⟩
          · show ((withEntry t vaddr paddr flags).frames t.cr3 (pdeIndex vaddr)).present = true
            rw [hdir]
            exact hp
          · rw [← hmap _ (by omega), page_eq hv, translate_page _ _ (pteIndex_lt vaddr), hp, hpte]
            rfl
          · intro page hpage
            rw [translate_withEntry hstep.dirOk.tidy hv hpage hp hflags, hmap page hpage]
            have hnew : newTranslation (withEntry t vaddr paddr flags) vaddr paddr flags =
                newTranslation t vaddr paddr flags := by
              simp only [newTranslation]
              rw [show (withEntry t vaddr paddr flags).cr3 = t.cr3 from rfl, hdir]
            rw [hnew]

/-! ## Unmapping -/

/-- **`kvmm_unmap_page` removes one page from the address map**, and answers whether it was
there. -/
theorem kvmmUnmapPage_spec (hd : DirOk s) {vaddr : Nat} (hv : vaddr < windowStart * 4096) :
    ∃ ok t, s.kvmmUnmapPage vaddr = some (ok, t) ∧ (ok = false → t = s) ∧
      (ok = true → ∀ page < windowStart,
        t.translate page = if page = vaddr / 4096 then none else s.translate page) ∧
      (ok = true ↔ vaddr % 4096 = 0 ∧ s.translate (vaddr / 4096) ≠ none) := by
  have hk := pdeIndex_lt vaddr
  have htr := translate_page s (pdeIndex vaddr) (pteIndex_lt vaddr)
  rw [← page_eq hv] at htr
  unfold Vmm.kvmmUnmapPage
  by_cases hal : vaddr % 4096 ≠ 0
  · rw [if_pos hal]
    exact ⟨false, s, rfl, fun _ => rfl, fun hc => absurd hc (by decide),
      fun hc => absurd hc (by decide), fun hc => absurd hc.1 hal⟩
  rw [if_neg hal, hd.self.load_pd]
  rw [not_not] at hal
  simp only [Option.bind_eq_bind, Option.bind_some]
  cases hp : (s.frames s.cr3 (pdeIndex vaddr)).present with
  | false =>
    rw [if_pos rfl]
    rw [hp] at htr
    exact ⟨false, s, rfl, fun _ => rfl, fun hc => absurd hc (by decide),
      fun hc => absurd hc (by decide), fun hc => absurd htr hc.2⟩
  | true =>
    rw [if_neg (by decide), hd.self.load_pt hk hp]
    simp only [Option.bind_some]
    rw [hp] at htr
    cases hpte : (s.frames (s.frames s.cr3 (pdeIndex vaddr)).frame (pteIndex vaddr)).present with
    | false =>
      rw [if_pos rfl]
      rw [hpte] at htr
      exact ⟨false, s, rfl, fun _ => rfl, fun hc => absurd hc (by decide),
        fun hc => absurd hc (by decide), fun hc => absurd htr hc.2⟩
    | true =>
      rw [if_neg (by decide), hd.self.store_pt hk hp]
      refine ⟨true, _, rfl, fun hc => absurd hc (by decide), ?_, fun _ => ⟨hal, ?_⟩, fun _ => rfl⟩
      · intro _ page hpage
        exact translate_put hd.tidy hv hpage hp
      · rw [htr, hpte]
        exact Option.some_ne_none _

end Effects

end DelOs
