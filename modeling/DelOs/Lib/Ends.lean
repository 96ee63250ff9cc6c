import Mathlib.Tactic.Common

/-!
# What a computation ends in

A computation that may stop for good is an `Option` of its result, which holds the state after it.
`Ends x Q` says that `Q` holds of the result if there is one.

* `Ends.bind` — **the rule of composition**; `ends_read` for a step that leaves the state alone.
* `ends_some`, `ends_guard`, `ends_ite`, `Ends.map` — the other forms of a computation.
-/

universe u v

variable {α : Type u} {β : Type v}

/-- If the computation has a result, `Q` holds of it. -/
structure Ends (x : Option α) (Q : α → Prop) : Prop where
  result : ∀ a, x = some a → Q a

variable {x : Option α} {Q : α → Prop} {P : β → Prop}

theorem ends_none : Ends none Q := ⟨fun _ h => by cases h⟩

theorem ends_some {a : α} (h : Q a) : Ends (some a) Q := by
  constructor
  intro b hb
  cases hb
  exact h

/-- **The rule of composition.** -/
theorem Ends.bind (hx : Ends x Q) {f : α → Option β} (hf : ∀ a, Q a → Ends (f a) P) :
    Ends (x.bind f) P := by
  constructor
  intro b hb
  obtain ⟨a, ha, hb⟩ := Option.bind_eq_some_iff.1 hb
  exact (hf a (hx.result a ha)).result b hb

/-- A step of which nothing is known but its result. -/
theorem ends_read {f : α → Option β} (hf : ∀ a, x = some a → Ends (f a) P) :
    Ends (x.bind f) P := by
  constructor
  intro b hb
  obtain ⟨a, ha, hb⟩ := Option.bind_eq_some_iff.1 hb
  exact (hf a ha).result b hb

theorem Ends.map (hx : Ends x Q) {f : α → β} (hf : ∀ a, Q a → P (f a)) : Ends (x.map f) P := by
  constructor
  intro b hb
  obtain ⟨a, ha, rfl⟩ := Option.map_eq_some_iff.1 hb
  exact hf a (hx.result a ha)

theorem ends_ite {c : Prop} [Decidable c] {y : Option α} (hx : c → Ends x Q)
    (hy : ¬c → Ends y Q) : Ends (if c then x else y) Q := by
  by_cases hc : c
  · rw [if_pos hc]
    exact hx hc
  · rw [if_neg hc]
    exact hy hc

/-- A test that ends the computation early. -/
theorem ends_guard {c : Prop} [Decidable c] {a : α} (ha : Q a) (hx : ¬c → Ends x Q) :
    Ends (if c then some a else x) Q :=
  ends_ite (fun _ => ends_some ha) hx
