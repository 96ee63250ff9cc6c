import Mathlib.Logic.Function.Basic
import Mathlib.Tactic.Common

/-!
# Handing a resource over

A table says which resources are allocated.  A procedure that works its way from one resource to
the next allocates the next one, gives back the one that it comes from, and at the end the last
one: the table is then what it was.

* `Adds` — a table has one key more than another; a key that nothing is allocated at stands for
  none.
* `Adds.remove` — giving the key back.
* `Adds.handover` — **from one key to the next.**
-/

universe u v

namespace Handover

variable {κ : Type u} {α : Type v} {f g g' : κ → Option α} {k next : κ}

/-- The table `g` has what `f` has, and `k` perhaps, where `f` has nothing. -/
structure Adds (f g : κ → Option α) (k : κ) : Prop where
  other : ∀ p, p ≠ k → g p = f p
  free : f k = none

theorem adds_refl (h : f k = none) : Adds f f k := ⟨fun _ _ => rfl, h⟩

/-- A key at which there is nothing has not been added. -/
theorem Adds.eq_of_none (h : Adds f g k) (hk : g k = none) : g = f := by
  funext p
  by_cases hp : p = k
  · rw [hp, hk, h.free]
  · exact h.other p hp

theorem Adds.mem (h : Adds f g k) {p : κ} (hp : f p ≠ none) : g p = f p := by
  refine h.other p ?_
  rintro rfl
  exact hp h.free

variable [DecidableEq κ]

theorem adds_update {a : Option α} (h : f k = none) : Adds f (Function.update f k a) k :=
  ⟨fun p hp => by rw [Function.update_of_ne hp], h⟩

/-- What is given back was not there before. -/
theorem Adds.remove (h : Adds f g k) : Function.update g k none = f := by
  funext p
  by_cases hp : p = k
  · rw [hp, Function.update_self, h.free]
  · rw [Function.update_of_ne hp, h.other p hp]

/-- **The next key in the place of the one before.** -/
theorem Adds.handover (h : Adds f g k) (h' : Adds g g' next) (hne : k ≠ next) :
    Adds f (Function.update g' k none) next := by
  constructor
  · intro p hp
    by_cases hk : p = k
    · rw [hk, Function.update_self, h.free]
    · rw [Function.update_of_ne hk, h'.other p hp, h.other p hk]
  · rw [← h.other next (Ne.symm hne), h'.free]

end Handover
