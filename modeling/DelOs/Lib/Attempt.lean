import Mathlib.Tactic.Common

/-!
# Computations that may refuse

A C function that answers "no" part of the way through has changed the state by then; one that
faults has no answer at all.  An `Attempt` keeps the two apart: from a state it faults (`none`),
refuses in some state (`some (none, t)`), or succeeds (`some (some a, t)`), and what follows a
refusal is not run.

* `call`, `check`, `read`, `write`, `refuse` — how functions of the state become attempts.
* `Ensures` — what holds of the state however an attempt ends, and of the value and the state
  when it succeeds.
* `Ensures.bind` — **the rule of composition**, beside the rules for calls, checks and refusals.
-/

/-- An attempt to compute an `α` over a state. -/
abbrev Attempt (σ α : Type) := OptionT (StateT σ Option) α

namespace Attempt

variable {σ α β : Type}

/-! ## Attempts -/

/-- How an attempt ends. -/
def outcome (x : Attempt σ α) (s : σ) : Option (Option α × σ) := x.run.run s

/-- The answer "no". -/
def refuse : Attempt σ α := failure

/-- A call whose result is a value. -/
def call (f : σ → Option (α × σ)) : Attempt σ α :=
  OptionT.mk fun s => (f s).map fun r => (some r.1, r.2)

/-- A call whose result says whether it worked. -/
def check (f : σ → Option (Bool × σ)) : Attempt σ Unit :=
  OptionT.mk fun s => (f s).map fun r => (if r.1 then some () else none, r.2)

/-- A read of the state. -/
def read (f : σ → Option α) : Attempt σ α := call fun s => (f s).map fun a => (a, s)

/-- A write to the state. -/
def write (f : σ → Option σ) : Attempt σ Unit := call fun s => (f s).map fun t => ((), t)

variable {x : Attempt σ α} {f : α → Attempt σ β} {s : σ}

@[simp] theorem outcome_pure (a : α) (s : σ) : outcome (pure a : Attempt σ α) s = some (some a, s) :=
  rfl

@[simp] theorem outcome_refuse (s : σ) : outcome (refuse : Attempt σ α) s = some (none, s) := rfl

theorem outcome_bind (x : Attempt σ α) (f : α → Attempt σ β) (s : σ) :
    outcome (x >>= f) s = (outcome x s).bind fun r => match r.1 with
      | some a => outcome (f a) r.2
      | none => some (none, r.2) := by
  show ((x.run >>= fun r => match r with
    | some a => (f a).run
    | none => pure none).run s) = _
  rw [StateT.run_bind]
  refine congrArg _ (funext fun r => ?_)
  cases r.1 <;> rfl

/-- After a success comes the rest. -/
theorem outcome_bind_some {a : α} {t : σ} (h : outcome x s = some (some a, t)) :
    outcome (x >>= f) s = outcome (f a) t := by
  rw [outcome_bind, h]
  rfl

/-! ## What an attempt ensures -/

/-- However the attempt ends, `R` holds of the state; when it succeeds, `Q` holds besides. -/
def Ensures (x : Attempt σ α) (s : σ) (R : σ → Prop) (Q : α → σ → Prop) : Prop :=
  ∀ r t, outcome x s = some (r, t) → R t ∧ ∀ a, r = some a → Q a t

variable {R R' : σ → Prop} {Q Q' : α → σ → Prop} {P : β → σ → Prop}

theorem ensures_pure {a : α} (hr : R s) (hq : Q a s) : Ensures (pure a) s R Q := by
  intro r t h
  cases h
  exact ⟨hr, fun b hb => by cases hb; exact hq⟩

theorem ensures_refuse (hr : R s) : Ensures refuse s R Q := by
  intro r t h
  cases h
  exact ⟨hr, fun b hb => by cases hb⟩

theorem ensures_call {g : σ → Option (α × σ)} (h : ∀ a t, g s = some (a, t) → R t ∧ Q a t) :
    Ensures (call g) s R Q := by
  intro r t hc
  obtain ⟨⟨a, u⟩, hg, heq⟩ := Option.map_eq_some_iff.1 hc
  cases heq
  obtain ⟨hr, hq⟩ := h a u hg
  exact ⟨hr, fun b hb => by cases hb; exact hq⟩

theorem ensures_check {g : σ → Option (Bool × σ)} {Q : Unit → σ → Prop}
    (h : ∀ b t, g s = some (b, t) → R t ∧ (b = true → Q () t)) : Ensures (check g) s R Q := by
  intro r t hc
  obtain ⟨⟨b, u⟩, hg, heq⟩ := Option.map_eq_some_iff.1 hc
  obtain ⟨rfl, rfl⟩ := Prod.mk.inj heq
  obtain ⟨hr, hq⟩ := h b u hg
  refine ⟨hr, ?_⟩
  intro _ hb
  cases b with
  | true => exact hq rfl
  | false => cases hb

/-- **The rule of composition.** -/
theorem Ensures.bind (hx : Ensures x s R' Q') (hend : ∀ t, R' t → R t)
    (hf : ∀ a t, R' t → Q' a t → Ensures (f a) t R P) : Ensures (x >>= f) s R P := by
  intro r t h
  rw [outcome_bind] at h
  obtain ⟨⟨ra, u⟩, hu, h⟩ := Option.bind_eq_some_iff.1 h
  obtain ⟨hr, hq⟩ := hx ra u hu
  cases ra with
  | none =>
    cases h
    exact ⟨hend u hr, fun b hb => by cases hb⟩
  | some a => exact hf a u hr (hq a rfl) r t h

/-- A success that is known. -/
theorem ensures_of_outcome {a : α} {t : σ} (hx : outcome x s = some (some a, t)) (hr : R t)
    (hq : Q a t) : Ensures x s R Q := by
  intro r u h
  rw [hx] at h
  cases h
  exact ⟨hr, fun b hb => by cases hb; exact hq⟩

theorem Ensures.after {a : α} {t : σ} (hf : Ensures (f a) t R P)
    (hx : outcome x s = some (some a, t)) : Ensures (x >>= f) s R P := by
  intro r u h
  rw [outcome_bind_some hx] at h
  exact hf r u h

theorem Ensures.mono (hx : Ensures x s R' Q') (hend : ∀ t, R' t → R t)
    (hdone : ∀ a t, R' t → Q' a t → Q a t) : Ensures x s R Q := by
  intro r t h
  obtain ⟨hr, hq⟩ := hx r t h
  exact ⟨hend t hr, fun a ha => hdone a t hr (hq a ha)⟩

end Attempt
