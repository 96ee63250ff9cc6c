import Mathlib.Tactic

/-!
# Linked lists in a store

Cells of a store that are linked by pointers: `next` gives the link of a cell, `none` for what
is no cell, and the pointer `0` ends a list.

* `IsList` — the cells from a pointer on, up to the end, are those of a given list.
* `IsList.unique`, `IsList.nodup` — a store determines the list at a pointer, so that no cell
  is in it twice.
* `IsList.congr` — the list depends on the links of its own cells only.
* `IsList.unlink` — taking a cell out by changing the link before it.
-/

namespace LinkedList

variable {next next' : Nat → Option Nat}

/-- The cells from `p` on are those of the list. -/
def IsList (next : Nat → Option Nat) : Nat → List Nat → Prop
  | p, [] => p = 0
  | p, q :: l => p = q ∧ q ≠ 0 ∧ ∃ r, next q = some r ∧ IsList next r l

theorem IsList.eq_zero_iff {p : Nat} {l : List Nat} (h : IsList next p l) : p = 0 ↔ l = [] := by
  cases l with
  | nil => simpa [IsList] using h
  | cons q l =>
    obtain ⟨rfl, hne, -⟩ := h
    simp [hne]

/-- The list depends on the links of its own cells only. -/
theorem IsList.congr {p : Nat} {l : List Nat} (h : IsList next p l)
    (hnext : ∀ q ∈ l, next' q = next q) : IsList next' p l := by
  induction l generalizing p with
  | nil => exact h
  | cons q l ih =>
    obtain ⟨hp, hne, r, hr, hl⟩ := h
    refine ⟨hp, hne, r, ?_, ih hl fun x hx => hnext x (List.mem_cons_of_mem q hx)⟩
    rw [hnext q List.mem_cons_self, hr]

/-- A store determines the list at a pointer. -/
theorem IsList.unique {p : Nat} {l l' : List Nat} (h : IsList next p l) (h' : IsList next p l') :
    l = l' := by
  induction l generalizing p l' with
  | nil =>
    have hp : p = 0 := h
    exact (h'.eq_zero_iff.1 hp).symm
  | cons q l ih =>
    obtain ⟨rfl, hne, r, hr, hl⟩ := h
    cases l' with
    | nil => exact absurd h' hne
    | cons q' l' =>
      obtain ⟨rfl, -, r', hr', hl'⟩ := h'
      obtain rfl : r = r' := by simpa [hr] using hr'
      rw [ih hl hl']

/-- The rest of a list from one of its cells on. -/
theorem IsList.suffix {p q : Nat} {l₁ l₂ : List Nat} (h : IsList next p (l₁ ++ q :: l₂)) :
    IsList next q (q :: l₂) := by
  induction l₁ generalizing p with
  | nil =>
    obtain ⟨rfl, h⟩ := h
    exact ⟨rfl, h⟩
  | cons x l₁ ih =>
    obtain ⟨-, -, r, -, hl⟩ := h
    exact ih hl

/-- No cell is in a list twice: the list would go on from the second as from the first. -/
theorem IsList.nodup {p : Nat} {l : List Nat} (h : IsList next p l) : l.Nodup := by
  induction l generalizing p with
  | nil => exact List.nodup_nil
  | cons q l ih =>
    obtain ⟨rfl, hne, r, hr, hl⟩ := h
    refine List.nodup_cons.2 ⟨?_, ih hl⟩
    intro hq
    obtain ⟨l₁, l₂, rfl⟩ := List.append_of_mem hq
    have hfirst : IsList next p (p :: (l₁ ++ p :: l₂)) := ⟨rfl, hne, r, hr, hl⟩
    have hlen := congrArg List.length (hfirst.unique hl.suffix)
    simp only [List.length_cons, List.length_append] at hlen
    omega

/-- Taking an element out from between others that differ from it. -/
theorem erase_append_cons {α : Type*} [DecidableEq α] {x : α} {l₁ l₂ : List α}
    (h : (l₁ ++ x :: l₂).Nodup) : (l₁ ++ x :: l₂).erase x = l₁ ++ l₂ := by
  have hx : x ∉ l₁ := fun hmem => List.disjoint_of_nodup_append h hmem List.mem_cons_self
  rw [List.erase_append_right _ hx, List.erase_cons_head]

theorem IsList.ne_zero {p q : Nat} {l : List Nat} (h : IsList next p l) (hq : q ∈ l) : q ≠ 0 := by
  obtain ⟨l₁, l₂, rfl⟩ := List.append_of_mem hq
  exact h.suffix.2.1

/-- A list of cells below a bound is no longer than that. -/
theorem IsList.length_le {p n : Nat} {l : List Nat} (h : IsList next p l)
    (hn : ∀ q ∈ l, q ≤ n) : l.length ≤ n := by
  have hsub : l.toFinset ⊆ Finset.Icc 1 n := by
    intro q hq
    have hmem := List.mem_toFinset.1 hq
    have := h.ne_zero hmem
    have := hn q hmem
    simp only [Finset.mem_Icc]
    omega
  calc l.length = l.toFinset.card := (List.toFinset_card_of_nodup h.nodup).symm
    _ ≤ (Finset.Icc 1 n).card := Finset.card_le_card hsub
    _ = n := by simp

/-- Where the first pointer of a list goes. -/
theorem IsList.head {p q : Nat} {l : List Nat} (h : IsList next p (q :: l)) : p = q := h.1

/-- Taking out the first cell: the list starts at its link. -/
theorem IsList.tail {p q r : Nat} {l : List Nat} (h : IsList next p (q :: l))
    (hr : next q = some r) : IsList next r l := by
  obtain ⟨-, -, r', hr', hl⟩ := h
  obtain rfl : r' = r := by simpa [hr] using hr'.symm
  exact hl

/-- Taking out a later cell: the cell before it gets its link. -/
theorem IsList.unlink {p x y r : Nat} {l₁ l₂ : List Nat}
    (h : IsList next p (l₁ ++ y :: x :: l₂)) (hx : next x = some r)
    (hnext : ∀ q, q ≠ x → next' q = if q = y then some r else next q) :
    IsList next' p (l₁ ++ y :: l₂) := by
  have hnodup := h.nodup
  induction l₁ generalizing p with
  | nil =>
    obtain ⟨hp, hne, r', -, hl⟩ := h
    simp only [List.nil_append, List.nodup_cons, List.mem_cons, not_or] at hnodup
    obtain ⟨⟨hyx, hyl⟩, hxl, -⟩ := hnodup
    refine ⟨hp, hne, r, by rw [hnext y hyx, if_pos rfl], ?_⟩
    refine (hl.tail hx).congr ?_
    intro q hq
    rw [hnext q (by rintro rfl; exact hxl hq), if_neg (by rintro rfl; exact hyl hq)]
  | cons z l₁ ih =>
    obtain ⟨hp, hne, r', hr', hl⟩ := h
    simp only [List.cons_append, List.nodup_cons, List.mem_append, List.mem_cons, not_or]
      at hnodup
    obtain ⟨⟨-, hzy, hzx, -⟩, hrest⟩ := hnodup
    refine ⟨hp, hne, r', ?_, ih hl hrest⟩
    rw [hnext z hzx, if_neg hzy, hr']

end LinkedList
