import Mathlib.Data.List.Nodup
import Mathlib.Data.List.Iterate
import Mathlib.Tactic.Common

/-!
# Rings of links

A function `next` links the elements of a type; a ring is a list whose elements are linked in
their order, the last one to the first.

* `Path` — the links from one element visit those of a list and arrive at another.
* `IsRing`, `IsRing.swap`, `IsRing.snoc` — rings, where one starts to read them, and how one
  grows at its end.
* `isRing_of_next` — a list is a ring when every element is linked to the one after it.
* `search`, `search_eq_find` — the loop that follows the links up to the first element with a
  property.
* `IsRing.iterate_perm` — **following the links once for each element visits each of them once**.
-/

namespace Ring

universe u

variable {α : Type u} {next next' : α → α}

/-! ## Paths -/

/-- The links from `p` on visit the elements of the list, and then arrive at `q`. -/
def Path (next : α → α) : α → List α → α → Prop
  | p, [], q => p = q
  | p, x :: l, q => p = x ∧ Path next (next x) l q

theorem path_append {p q : α} {l l' : List α} :
    Path next p (l ++ l') q ↔ ∃ r, Path next p l r ∧ Path next r l' q := by
  induction l generalizing p with
  | nil => simp [Path]
  | cons x l ih =>
    simp only [List.cons_append, Path, ih]
    constructor
    · rintro ⟨hp, r, hl, hl'⟩
      exact ⟨r, ⟨hp, hl⟩, hl'⟩
    · rintro ⟨r, ⟨hp, hl⟩, hl'⟩
      exact ⟨hp, r, hl, hl'⟩

/-- A path starts with its first element. -/
theorem Path.head_eq {p q : α} {l : List α} (h : Path next p l q) (hl : l ≠ []) :
    l.head? = some p := by
  obtain ⟨x, l, rfl⟩ := List.exists_cons_of_ne_nil hl
  obtain ⟨rfl, -⟩ := h
  rfl

/-- A path depends on the links of its own elements only. -/
theorem Path.congr {p q : α} {l : List α} (h : Path next p l q)
    (hnext : ∀ x ∈ l, next' x = next x) : Path next' p l q := by
  induction l generalizing p with
  | nil => exact h
  | cons x l ih =>
    obtain ⟨hp, hl⟩ := h
    refine ⟨hp, ?_⟩
    rw [hnext x List.mem_cons_self]
    exact ih hl fun y hy => hnext y (List.mem_cons_of_mem x hy)

/-- The elements of a path are what one finds when following the links. -/
theorem Path.iterate_eq {p q : α} {l : List α} (h : Path next p l q) :
    List.iterate next p l.length = l := by
  induction l generalizing p with
  | nil => rfl
  | cons x l ih =>
    obtain ⟨rfl, hl⟩ := h
    simp [List.iterate, ih hl]

/-! ## Rings -/

/-- The elements of the list are distinct, each linked to the one after it and the last one to
the first. -/
structure IsRing (next : α → α) (l : List α) : Prop where
  nodup : l.Nodup
  path : ∃ a, l.head? = some a ∧ Path next a l a

/-- A ring of one element. -/
theorem IsRing.single {a : α} (h : next a = a) : IsRing next [a] :=
  ⟨List.nodup_singleton a, a, rfl, rfl, h⟩

/-- A ring of two elements. -/
theorem IsRing.pair {a b : α} (hne : a ≠ b) (hab : next a = b) (hba : next b = a) :
    IsRing next [a, b] :=
  ⟨by simpa using hne, a, rfl, rfl, hab, hba⟩

/-- A ring read from another element on. -/
theorem IsRing.swap {l₁ l₂ : List α} (h : IsRing next (l₁ ++ l₂)) : IsRing next (l₂ ++ l₁) := by
  obtain ⟨hnodup, a, ha, hpath⟩ := h
  refine ⟨(List.nodup_append_comm.1 hnodup), ?_⟩
  cases l₂ with
  | nil => exact ⟨a, by simpa using ha, by simpa using hpath⟩
  | cons x l₂ =>
    obtain ⟨r, hl₁, hl₂⟩ := path_append.1 hpath
    obtain rfl : r = x := hl₂.1
    exact ⟨r, rfl, path_append.2 ⟨a, hl₂, hl₁⟩⟩

/-- From the successor of an element on, a ring is read up to that element. -/
theorem IsRing.path_next {l₁ l₂ : List α} {x : α} (h : IsRing next (l₁ ++ x :: l₂)) :
    Path next (next x) (l₂ ++ l₁ ++ [x]) (next x) := by
  obtain ⟨-, a, ha, -, hpath⟩ := IsRing.swap h
  obtain rfl : x = a := by simpa using ha
  exact path_append.2 ⟨x, hpath, rfl, rfl⟩

/-- Every element of a ring is linked to the one after it. -/
theorem IsRing.next_eq {l₁ l₂ : List α} {x : α} (h : IsRing next (l₁ ++ x :: l₂)) :
    (l₂ ++ l₁ ++ [x]).head? = some (next x) :=
  h.path_next.head_eq (by simp)

/-- A list is a ring when every element is linked to the one after it. -/
theorem isRing_of_next {l : List α} (hne : l ≠ []) (hnodup : l.Nodup)
    (hnext : ∀ l₁ x l₂, l = l₁ ++ x :: l₂ → (l₂ ++ l₁ ++ [x]).head? = some (next x)) :
    IsRing next l := by
  obtain ⟨a, l', rfl⟩ := List.exists_cons_of_ne_nil hne
  -- the links from an element on, up to the end of the list
  have hsuffix : ∀ l₂ l₁ x, a :: l' = l₁ ++ x :: l₂ → Path next x (x :: l₂) a := by
    intro l₂
    induction l₂ with
    | nil =>
      intro l₁ x hl
      have hx := hnext l₁ x [] hl
      refine ⟨rfl, ?_⟩
      cases l₁ with
      | nil =>
        obtain ⟨rfl, -⟩ := List.cons.inj hl
        simpa [Path] using hx.symm
      | cons y l₁ =>
        obtain ⟨rfl, -⟩ := List.cons.inj hl
        simpa [Path] using hx.symm
    | cons y l₂ ih =>
      intro l₁ x hl
      have hx : y = next x := by simpa using hnext l₁ x (y :: l₂) hl
      refine ⟨rfl, ?_⟩
      rw [← hx]
      apply ih (l₁ ++ [x])
      simpa using hl
  exact ⟨hnodup, a, rfl, hsuffix l' [] a rfl⟩

/-- A ring grows at its end: the new element is linked to the first one, and the last one to
the new element. -/
theorem IsRing.snoc {l : List α} {a b x : α} (h : IsRing next (l ++ [b]))
    (ha : (l ++ [b]).head? = some a) (hx : x ∉ l ++ [b]) (hlink : next' x = a)
    (hlast : next' b = x) (hother : ∀ y ∈ l, next' y = next y) :
    IsRing next' (l ++ [b] ++ [x]) := by
  obtain ⟨hnodup, a', ha', hpath⟩ := h
  obtain rfl : a = a' := by simpa [ha] using ha'
  refine ⟨?_, a, by rw [List.head?_append, ha, Option.some_or], ?_⟩
  · rw [List.nodup_append_comm]
    simpa using ⟨by simpa using hx, hnodup⟩
  · obtain ⟨r, hl, hb, -⟩ := path_append.1 hpath
    refine path_append.2 ⟨x, path_append.2 ⟨r, hl.congr hother, hb, hlast⟩, rfl, hlink⟩

/-- **Following the links once for each element visits each of them once.** -/
theorem IsRing.iterate_perm {l : List α} {x : α} (h : IsRing next l) (hx : x ∈ l) :
    (List.iterate next (next x) l.length).Perm l := by
  obtain ⟨l₁, l₂, rfl⟩ := List.append_of_mem hx
  have hperm : (l₂ ++ l₁ ++ [x]).Perm (l₁ ++ x :: l₂) := by
    calc (l₂ ++ l₁ ++ [x]).Perm ([x] ++ (l₂ ++ l₁)) := List.perm_append_comm
      _ = (x :: l₂) ++ l₁ := by simp
      _ |>.Perm (l₁ ++ x :: l₂) := List.perm_append_comm
  have hpath := h.path_next.iterate_eq
  rw [hperm.length_eq] at hpath
  rw [hpath]
  exact hperm

/-! ## Searching along the links -/

/-- Follow the links from an element up to the first one with the property; `none` when the
fuel runs out. -/
def search (next : α → α) (P : α → Bool) : Nat → α → Option α
  | 0, _ => none
  | n + 1, p => if P p then some p else search next P n (next p)

/-- With as much fuel as there are elements, the search finds what the list finds. -/
theorem search_eq_find {P : α → Bool} {p q : α} {l : List α} (h : Path next p l q)
    (hex : ∃ x ∈ l, P x = true) {n : Nat} (hn : l.length ≤ n) :
    search next P n p = l.find? P := by
  induction l generalizing p n with
  | nil => simp at hex
  | cons x l ih =>
    obtain ⟨rfl, hl⟩ := h
    obtain ⟨m, rfl⟩ : ∃ m, n = m + 1 := Nat.exists_eq_add_one.2 (by simp at hn; omega)
    cases hp : P p with
    | true => simp [search, hp]
    | false =>
      have hex' : ∃ x ∈ l, P x = true := by simpa [hp] using hex
      have hm : l.length ≤ m := by simpa using hn
      simpa [search, hp] using ih hl hex' hm

end Ring
