import Mathlib.Tactic

/-!
# Two-level tables

A table is a numbered frame of entries.  An entry is present or not, and a present entry of
the root table names a second-level table; looking up a pair of indices reads an entry of the
root and then an entry of the table it names.  Only some root indices are looked up (`D`), so
that the others are free for other uses, such as an entry that names the root itself.

* `put`, `wipe`, `paste` — write one entry, clear one frame, copy one.
* `lookup` — the two reads.
* `Tidy` — the tables in use are distinct from one another and from the root.
* `lookup_put_leaf` — **writing an entry of a table in use changes one lookup**.
* `lookup_put_root` — installing an empty table changes none.
* `lookup_wipe` — clearing a frame that no lookup goes through changes none.
-/

namespace TwoLevel

variable {E : Type}

/-! ## Frames of entries -/

/-- The entries of every frame. -/
abbrev Frames (E : Type) := Nat → Nat → E

/-- Write entry `i` of frame `f`. -/
def put (m : Frames E) (f i : Nat) (e : E) : Frames E :=
  fun g j => if g = f ∧ j = i then e else m g j

/-- Give every entry of frame `f` the value `e`. -/
def wipe (m : Frames E) (f : Nat) (e : E) : Frames E := fun g j => if g = f then e else m g j

/-- Give frame `f` the entries of frame `g`. -/
def paste (m : Frames E) (f g : Nat) : Frames E := fun h j => if h = f then m g j else m h j

variable {m : Frames E} {root : Nat} {D : Nat → Prop}

theorem put_of_ne {f g : Nat} (i j : Nat) (e : E) (h : g ≠ f) : put m f i e g j = m g j :=
  if_neg fun hc => h hc.1

@[simp] theorem put_self (f i : Nat) (e : E) : put m f i e f i = e := if_pos ⟨rfl, rfl⟩

theorem put_of_index_ne {f i j : Nat} (e : E) (h : j ≠ i) : put m f i e f j = m f j :=
  if_neg fun hc => h hc.2

theorem wipe_of_ne {f g : Nat} (j : Nat) (e : E) (h : g ≠ f) : wipe m f e g j = m g j :=
  if_neg h

@[simp] theorem wipe_self (f j : Nat) (e : E) : wipe m f e f j = e := if_pos rfl

theorem paste_of_ne {f h : Nat} (g j : Nat) (hne : h ≠ f) : paste m f g h j = m h j := if_neg hne

@[simp] theorem paste_self (f g j : Nat) : paste m f g f j = m g j := if_pos rfl

/-! ## Lookups -/

/-- Entries that are present or not, and name a frame. -/
class TableEntry (E : Type) where
  present : E → Bool
  next : E → Nat

variable [TableEntry E]

open TableEntry

/-- The two entries that a pair of indices leads to, if both are present. -/
def lookup (m : Frames E) (root i j : Nat) : Option (E × E) :=
  if present (m root i) then
    if present (m (next (m root i)) j) then some (m root i, m (next (m root i)) j) else none
  else none

/-- The second-level tables at the root indices in `D` are distinct from each other and from
the root. -/
structure Tidy (D : Nat → Prop) (m : Frames E) (root : Nat) : Prop where
  ne_root : ∀ i, D i → present (m root i) = true → next (m root i) ≠ root
  distinct : ∀ i j, D i → D j → present (m root i) = true → present (m root j) = true →
    next (m root i) = next (m root j) → i = j

/-- A lookup reads the root and one table. -/
theorem lookup_congr {m' : Frames E} {i j : Nat} (hroot : m' root i = m root i)
    (hleaf : present (m root i) = true →
      m' (next (m root i)) j = m (next (m root i)) j) :
    lookup m' root i j = lookup m root i j := by
  unfold lookup
  rw [hroot]
  cases hp : present (m root i) with
  | false => rfl
  | true => rw [hleaf hp]

/-- **Writing an entry of a table in use changes one lookup.** -/
theorem lookup_put_leaf (ht : Tidy D m root) {i j k l : Nat} {e : E} (hi : D i) (hk : D k)
    (hp : present (m root i) = true) :
    lookup (put m (next (m root i)) j e) root k l =
      if k = i ∧ l = j then (if present e then some (m root i, e) else none)
      else lookup m root k l := by
  have hroot : ∀ k, put m (next (m root i)) j e root k = m root k := fun k =>
    put_of_ne j k e (ht.ne_root i hi hp).symm
  by_cases hkl : k = i ∧ l = j
  · obtain ⟨rfl, rfl⟩ := hkl
    rw [if_pos ⟨rfl, rfl⟩, lookup, hroot, if_pos hp, put_self]
  · rw [if_neg hkl]
    refine lookup_congr (hroot k) ?_
    intro hpk
    by_cases hki : k = i
    · subst hki
      exact put_of_index_ne e fun hl => hkl ⟨rfl, hl⟩
    · exact put_of_ne j l e fun hc => hki (ht.distinct k i hk hi hpk hp hc)

/-- Installing an empty table changes no lookup. -/
theorem lookup_put_root (ht : Tidy D m root) {i k l : Nat} {e : E} (hk : D k)
    (habsent : present (m root i) = false) (hne : next e ≠ root)
    (hempty : present (m (next e) l) = false) :
    lookup (put m root i e) root k l = lookup m root k l := by
  by_cases hki : k = i
  · subst hki
    have hleaf : put m root k e (next e) l = m (next e) l := put_of_ne k l e hne
    simp [lookup, habsent, hleaf, hempty]
  · refine lookup_congr (put_of_index_ne e hki) ?_
    intro hpk
    exact put_of_ne i l e (ht.ne_root k hk hpk)

/-- ... and leaves the tables tidy, if it is in use nowhere else. -/
theorem Tidy.put_root (ht : Tidy D m root) {i : Nat} {e : E} (hne : next e ≠ root)
    (hfresh : ∀ k, D k → present (m root k) = true → next (m root k) ≠ next e) :
    Tidy D (put m root i e) root := by
  constructor
  · intro k hk hp
    by_cases hki : k = i
    · subst hki
      rw [put_self]
      exact hne
    · rw [put_of_index_ne e hki] at hp ⊢
      exact ht.ne_root k hk hp
  · intro j k hj hk hpj hpk heq
    by_cases hji : j = i
    · by_cases hki : k = i
      · rw [hji, hki]
      · rw [hji, put_self, put_of_index_ne e hki] at heq
        rw [put_of_index_ne e hki] at hpk
        exact absurd heq.symm (hfresh k hk hpk)
    · by_cases hki : k = i
      · rw [hki, put_self, put_of_index_ne e hji] at heq
        rw [put_of_index_ne e hji] at hpj
        exact absurd heq (hfresh j hj hpj)
      · rw [put_of_index_ne e hji] at hpj heq
        rw [put_of_index_ne e hki] at hpk heq
        exact ht.distinct j k hj hk hpj hpk heq

/-- Tables stay tidy when the root stays as it is. -/
theorem Tidy.congr {m' : Frames E} (ht : Tidy D m root) (h : ∀ i, m' root i = m root i) :
    Tidy D m' root := by
  constructor
  · intro i hi hp
    rw [h] at hp ⊢
    exact ht.ne_root i hi hp
  · intro i j hi hj hpi hpj heq
    rw [h] at hpi heq
    rw [h] at hpj heq
    exact ht.distinct i j hi hj hpi hpj heq

/-- Clearing a frame that no lookup goes through changes no lookup. -/
theorem lookup_wipe {f k l : Nat} {e : E} (hne : f ≠ root) (he : present e = false)
    (hunused : present (m root k) = true → next (m root k) = f → present (m f l) = false) :
    lookup (wipe m f e) root k l = lookup m root k l := by
  have hroot : wipe m f e root k = m root k := wipe_of_ne k e hne.symm
  by_cases hf : present (m root k) = true ∧ next (m root k) = f
  · have habsent := hunused hf.1 hf.2
    simp [lookup, hroot, hf.2, he, habsent]
  · refine lookup_congr hroot ?_
    intro hp
    exact wipe_of_ne l e fun hc => hf ⟨hp, hc⟩

end TwoLevel
