import Mathlib.Tactic.Common

/-!
# Machines that take a list of inputs

A program that is called again and again is a step function `σ → ι → Option σ`: the state
before, the call, and the state after, `none` when the call never returns to its caller
(it stops the machine, or it does something the language gives no meaning to).

* `run` — the calls of a list, one after the other.
* `Admissible` — every call of the list meets a side condition at the state it is made in.
* `run_invariant` — **the invariant rule**: what every admissible step preserves holds in the
  last state of every admissible run, hence in every state a run passes through, which is the
  last state of a shorter run.  `run_total` proves besides that the run has such a state.
* `outputs` and `outputs_simulates` — the same for machines whose calls return something: a
  simulation between two machines makes them return the same results.
-/

namespace Transition

universe u v w

variable {σ τ : Type u} {ι : Type v} {ω : Type w}

/-! ## Runs -/

/-- Run a machine over a list of inputs; `none` as soon as one step has no result. -/
def run (step : σ → ι → Option σ) : σ → List ι → Option σ
  | s, [] => some s
  | s, i :: is => (step s i).bind fun t => run step t is

/-- Every input meets `Ok` at the state it is given to. -/
def Admissible (step : σ → ι → Option σ) (Ok : σ → ι → Prop) : σ → List ι → Prop
  | _, [] => True
  | s, i :: is => Ok s i ∧ ∀ t, step s i = some t → Admissible step Ok t is

/-- The states an admissible run can end in. -/
def Reachable (step : σ → ι → Option σ) (Ok : σ → ι → Prop) (s t : σ) : Prop :=
  ∃ is, Admissible step Ok s is ∧ run step s is = some t

variable {step : σ → ι → Option σ} {Ok Ok' : σ → ι → Prop}

/-- The admissibility of a concrete run is decided by running it. -/
instance decidableAdmissible [∀ s i, Decidable (Ok s i)] :
    ∀ (s : σ) (is : List ι), Decidable (Admissible step Ok s is)
  | _, [] => isTrue trivial
  | s, i :: is =>
    match h : step s i with
    | none => decidable_of_iff (Ok s i) (by simp [Admissible, h])
    | some t =>
      have := decidableAdmissible t is
      decidable_of_iff (Ok s i ∧ Admissible step Ok t is) (by simp [Admissible, h])

@[simp] theorem run_nil (s : σ) : run step s [] = some s := rfl

theorem run_cons_some {s t : σ} {i : ι} {is : List ι} :
    run step s (i :: is) = some t ↔ ∃ r, step s i = some r ∧ run step r is = some t := by
  simp [run, Option.bind_eq_some_iff]

theorem run_singleton (s : σ) (i : ι) : run step s [i] = step s i := by
  rw [run]
  cases step s i <;> rfl

/-- A run is a run of its first part, and then one of the rest. -/
theorem run_append (s : σ) (is js : List ι) :
    run step s (is ++ js) = (run step s is).bind fun t => run step t js := by
  induction is generalizing s with
  | nil => rfl
  | cons i is ih =>
    rw [List.cons_append, run, run, Option.bind_assoc]
    exact congrArg _ (funext ih)

theorem Admissible.mono (hok : ∀ s i, Ok s i → Ok' s i) {s : σ} {is : List ι}
    (h : Admissible step Ok s is) : Admissible step Ok' s is := by
  induction is generalizing s with
  | nil => trivial
  | cons i is ih => exact ⟨hok s i h.1, fun t ht => ih (h.2 t ht)⟩

/-- Two conditions are met together. -/
theorem Admissible.and {s : σ} {is : List ι} (h : Admissible step Ok s is)
    (h' : Admissible step Ok' s is) : Admissible step (fun s i => Ok s i ∧ Ok' s i) s is := by
  induction is generalizing s with
  | nil => trivial
  | cons i is ih => exact ⟨⟨h.1, h'.1⟩, fun t ht => ih (h.2 t ht) (h'.2 t ht)⟩

/-- A side condition that always holds makes every run admissible. -/
theorem admissible_of_forall (hok : ∀ s i, Ok s i) (s : σ) (is : List ι) :
    Admissible step Ok s is := by
  induction is generalizing s with
  | nil => trivial
  | cons i is ih => exact ⟨hok s i, fun t _ => ih t⟩

/-- So does a condition on the inputs alone that all of them meet. -/
theorem admissible_of_mem {s : σ} {is : List ι} (hok : ∀ i ∈ is, ∀ s, Ok s i) :
    Admissible step Ok s is := by
  induction is generalizing s with
  | nil => trivial
  | cons i is ih =>
    exact ⟨hok i List.mem_cons_self s, fun t _ => ih fun j hj => hok j (List.mem_cons_of_mem i hj)⟩

/-- **The invariant rule.**  What every admissible step preserves, every admissible run
preserves. -/
theorem run_invariant {Inv : σ → Prop}
    (hstep : ∀ s i t, Inv s → Ok s i → step s i = some t → Inv t) {s t : σ} {is : List ι}
    (hs : Inv s) (hadm : Admissible step Ok s is) (hrun : run step s is = some t) : Inv t := by
  induction is generalizing s with
  | nil =>
    obtain rfl : s = t := by simpa using hrun
    exact hs
  | cons i is ih =>
    obtain ⟨r, hr, hrest⟩ := run_cons_some.1 hrun
    exact ih (hstep s i r hs hadm.1 hr) (hadm.2 r hr) hrest

/-- What the invariant gives at every call of an admissible run. -/
theorem admissible_of_invariant {Inv : σ → Prop}
    (hstep : ∀ s i t, Inv s → Ok s i → step s i = some t → Inv t)
    (hok : ∀ s i, Inv s → Ok s i → Ok' s i) {s : σ} {is : List ι} (hs : Inv s)
    (hadm : Admissible step Ok s is) : Admissible step Ok' s is := by
  induction is generalizing s with
  | nil => trivial
  | cons i is ih =>
    exact ⟨hok s i hs hadm.1, fun t ht => ih (hstep s i t hs hadm.1 ht) (hadm.2 t ht)⟩

/-- The invariant rule, for a machine that is not known to go on: if every admissible step from
the invariant has a result and preserves it, so has every admissible run. -/
theorem run_total {P : σ → Prop}
    (hstep : ∀ s i, P s → Ok s i → ∃ t, step s i = some t ∧ P t) {s : σ} {is : List ι}
    (hs : P s) (hadm : Admissible step Ok s is) : ∃ t, run step s is = some t ∧ P t := by
  induction is generalizing s with
  | nil => exact ⟨s, rfl, hs⟩
  | cons i is ih =>
    obtain ⟨r, hr, hinv⟩ := hstep s i hs hadm.1
    obtain ⟨t, ht, hinv'⟩ := ih hinv (hadm.2 r hr)
    exact ⟨t, run_cons_some.2 ⟨r, hr, ht⟩, hinv'⟩

/-- The invariant rule, for the set of reachable states. -/
theorem reachable_invariant {Inv : σ → Prop}
    (hstep : ∀ s i t, Inv s → Ok s i → step s i = some t → Inv t) {s t : σ}
    (hs : Inv s) (h : Reachable step Ok s t) : Inv t := by
  obtain ⟨is, hadm, hrun⟩ := h
  exact run_invariant hstep hs hadm hrun

/-! ## Runs with results -/

/-- The results of the calls of a list, and the state after the last of them. -/
def outputs (step : σ → ι → Option (ω × σ)) : σ → List ι → Option (List ω × σ)
  | s, [] => some ([], s)
  | s, i :: is => do
      let (o, t) ← step s i
      let (os, r) ← outputs step t is
      return (o :: os, r)

/-- **The simulation rule.**  If every step of the first machine from related states is a
step of the second with the same result into related states, the second machine returns,
call by call, what the first one returns. -/
theorem outputs_simulates {step₁ : σ → ι → Option (ω × σ)} {step₂ : τ → ι → Option (ω × τ)}
    {R : σ → τ → Prop} {Ok : σ → ι → Prop}
    (hsim : ∀ s t i, R s t → Ok s i →
      ∃ o s' t', step₁ s i = some (o, s') ∧ step₂ t i = some (o, t') ∧ R s' t')
    {s : σ} {t : τ} {is : List ι} (hR : R s t)
    (hadm : Admissible (fun s i => (step₁ s i).map Prod.snd) Ok s is) :
    ∃ os s' t', outputs step₁ s is = some (os, s') ∧ outputs step₂ t is = some (os, t') ∧
      R s' t' := by
  induction is generalizing s t with
  | nil => exact ⟨[], s, t, rfl, rfl, hR⟩
  | cons i is ih =>
    obtain ⟨o, s', t', h₁, h₂, hR'⟩ := hsim s t i hR hadm.1
    obtain ⟨os, s'', t'', hs, ht, hR''⟩ := ih hR' (hadm.2 s' (by simp [h₁]))
    exact ⟨o :: os, s'', t'', by simp [outputs, h₁, hs], by simp [outputs, h₂, ht], hR''⟩

end Transition
