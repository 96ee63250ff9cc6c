import Mathlib.Tactic

/-!
# Runs of set flags

A pool of numbered items is a list of flags: the flag of an item is `true` while the item is
free.  The file has the search for a run of free items and the change of a whole run.

* `FreeRun`, `IsFirstRun` — `n` free items in a row, and the first place where there are.
* `search` — one pass over the flags that counts how many were free in a row.
* `search_eq_some`, `search_eq_none` — **the pass finds the first run**, and misses none.
* `setRun` — give the flags of a run one value: what it changes (`getElem?_setRun`) and how
  many items are free afterwards (`count_setRun_false`, `count_setRun_true`).
-/

namespace FlagRuns

/-! ## Searching -/

/-- The `n` items from `s` on exist and are free. -/
def FreeRun (n : Nat) (flags : List Bool) (s : Nat) : Prop :=
  ∀ i < n, flags[s + i]? = some true

/-- The first run of `n` free items. -/
def IsFirstRun (n : Nat) (flags : List Bool) (s : Nat) : Prop :=
  FreeRun n flags s ∧ ∀ r < s, ¬ FreeRun n flags r

/-- A run ends where the flags do, or before. -/
theorem FreeRun.le_length {n : Nat} {flags : List Bool} {s : Nat} (h : FreeRun n flags s)
    (hn : 0 < n) : s + n ≤ flags.length := by
  have hlast := (List.getElem?_eq_some_iff.1 (h (n - 1) (by omega))).1
  omega

/-- One pass over the flags from item `k` on: `count` items before `k` are free in a row,
starting at `start`. -/
def search (n : Nat) : List Bool → Nat → Nat → Nat → Option Nat
  | [], _, _, _ => none
  | true :: flags, k, start, count =>
      if n ≤ count + 1 then some (if count = 0 then k else start)
      else search n flags (k + 1) (if count = 0 then k else start) (count + 1)
  | false :: flags, k, start, _ => search n flags (k + 1) start 0

/-- What the pass knows at item `k`: the `count` items before it are free, and no run of `n`
free items begins before those. -/
structure Scanned (n : Nat) (flags : List Bool) (k start count : Nat) : Prop where
  count_le : count ≤ k
  short : count < n
  start_eq : count ≠ 0 → start = k - count
  free : ∀ i, k - count ≤ i → i < k → flags[i]? = some true
  none_before : ∀ r < k - count, ¬ FreeRun n flags r

variable {n : Nat} {flags : List Bool}

theorem Scanned.free_item {k start count : Nat} (h : Scanned n flags k start count)
    (hk : flags[k]? = some true) (hn : ¬ n ≤ count + 1) :
    Scanned n flags (k + 1) (if count = 0 then k else start) (count + 1) := by
  have hsub : k + 1 - (count + 1) = k - count := by omega
  refine ⟨by have := h.count_le; omega, by omega, ?_, ?_, ?_⟩
  · intro _
    have := h.start_eq
    have := h.count_le
    split_ifs <;> omega
  · intro i h1 h2
    rw [hsub] at h1
    by_cases hi : i = k
    · rw [hi]
      exact hk
    · exact h.free i h1 (by omega)
  · rw [hsub]
    exact h.none_before

theorem Scanned.used_item {k start count : Nat} (h : Scanned n flags k start count)
    (hk : flags[k]? ≠ some true) : Scanned n flags (k + 1) start 0 := by
  have hpos := h.short
  refine ⟨by omega, by omega, fun hc => absurd rfl hc, ?_, ?_⟩
  · intro i h1 h2
    omega
  · -- a run that begins among the free items before `k` would reach `k`
    intro r hr hrun
    by_cases hbefore : r < k - count
    · exact h.none_before r hbefore hrun
    · have hat := hrun (k - r) (by have := h.count_le; omega)
      rw [show r + (k - r) = k by omega] at hat
      exact hk hat

/-- The pass finds the first run. -/
theorem Scanned.search_spec {rest : List Bool} {k start count : Nat}
    (h : Scanned n flags k start count) (hrest : flags.drop k = rest) :
    (∀ s, search n rest k start count = some s → IsFirstRun n flags s) ∧
      (search n rest k start count = none → ∀ s, ¬ FreeRun n flags s) := by
  have hget : flags[k]? = rest.head? := by rw [← hrest, List.head?_drop]
  induction rest generalizing k start count with
  | nil =>
    refine ⟨fun s hs => by simp [search] at hs, ?_⟩
    intro _ s hrun
    have hlen : flags.length ≤ k := List.drop_eq_nil_iff.1 hrest
    by_cases hbefore : s < k - count
    · exact h.none_before s hbefore hrun
    · have hshort := h.short
      have hcount := h.count_le
      have hat := hrun (n - 1) (by omega)
      rw [List.getElem?_eq_none (by omega)] at hat
      cases hat
  | cons flag rest ih =>
    have hdrop : flags.drop (k + 1) = rest := by
      rw [← List.drop_drop, hrest]
      rfl
    have hhead : flags[k + 1]? = rest.head? := by rw [← hdrop, List.head?_drop]
    cases flag with
    | false =>
      refine ih (h.used_item ?_) hdrop hhead
      rw [hget]
      simp
    | true =>
      by_cases hn : n ≤ count + 1
      · rw [search, if_pos hn]
        refine ⟨?_, fun hc => by cases hc⟩
        intro s hs
        obtain rfl := Option.some.inj hs
        have hshort := h.short
        have hcount := h.count_le
        have hstart : (if count = 0 then k else start) = k - count := by
          have := h.start_eq
          split_ifs <;> omega
        rw [hstart]
        refine ⟨?_, h.none_before⟩
        intro i hi
        by_cases hlast : k - count + i = k
        · rw [hlast, hget]
          rfl
        · exact h.free _ (by omega) (by omega)
      · rw [search, if_neg hn]
        exact ih (h.free_item (by rw [hget]; rfl) hn) hdrop hhead

theorem scanned_zero (hn : 0 < n) : Scanned n flags 0 0 0 :=
  ⟨le_rfl, hn, fun h => absurd rfl h, fun i _ hi => absurd hi (Nat.not_lt_zero i),
    fun r hr => absurd hr (Nat.not_lt_zero r)⟩

theorem IsFirstRun.unique {s t : Nat} (hs : IsFirstRun n flags s) (ht : IsFirstRun n flags t) :
    s = t := by
  rcases lt_trichotomy s t with hlt | heq | hgt
  · exact absurd hs.1 (ht.2 s hlt)
  · exact heq
  · exact absurd ht.1 (hs.2 t hgt)

/-- **The pass finds the first run of free items.** -/
theorem search_eq_some (hn : 0 < n) {s : Nat} :
    search n flags 0 0 0 = some s ↔ IsFirstRun n flags s := by
  obtain ⟨hsome, hnone⟩ := (@scanned_zero n flags hn).search_spec List.drop_zero
  refine ⟨hsome s, ?_⟩
  intro hs
  cases hres : search n flags 0 0 0 with
  | none => exact absurd hs.1 (hnone hres s)
  | some t => rw [(hsome t hres).unique hs]

/-- **The pass fails only if there is no run.** -/
theorem search_eq_none (hn : 0 < n) :
    search n flags 0 0 0 = none ↔ ∀ s, ¬ FreeRun n flags s := by
  obtain ⟨hsome, hnone⟩ := (@scanned_zero n flags hn).search_spec List.drop_zero
  refine ⟨hnone, ?_⟩
  intro hall
  cases hres : search n flags 0 0 0 with
  | none => rfl
  | some t => exact absurd (hsome t hres).1 (hall t)

/-! ## Changing a run -/

/-- Give the `n` flags from `s` on the value `b`, one after the other. -/
def setRun (b : Bool) (flags : List Bool) (s : Nat) : Nat → List Bool
  | 0 => flags
  | n + 1 => setRun b (flags.set s b) (s + 1) n

@[simp] theorem length_setRun (b : Bool) (flags : List Bool) (s n : Nat) :
    (setRun b flags s n).length = flags.length := by
  induction n generalizing flags s with
  | zero => rfl
  | succ n ih => rw [setRun, ih, List.length_set]

/-- Reading over the change of a run. -/
theorem getElem?_setRun (b : Bool) {flags : List Bool} {s n : Nat} (hn : s + n ≤ flags.length)
    (k : Nat) :
    (setRun b flags s n)[k]? = if s ≤ k ∧ k < s + n then some b else flags[k]? := by
  induction n generalizing flags s with
  | zero => rw [setRun, if_neg (by omega)]
  | succ n ih =>
    rw [setRun, ih (by rw [List.length_set]; omega), List.getElem?_set]
    by_cases hin : s + 1 ≤ k ∧ k < s + 1 + n
    · rw [if_pos hin, if_pos (by omega)]
    · rw [if_neg hin]
      by_cases hs : s = k
      · rw [if_pos hs, if_pos (by omega), if_pos (by omega)]
      · rw [if_neg hs, if_neg (by omega)]

/-- Taking a run of free items takes as many as it is long. -/
theorem count_setRun_false {s : Nat} (h : FreeRun n flags s) :
    (setRun false flags s n).count true + n = flags.count true := by
  induction n generalizing flags s with
  | zero => rfl
  | succ n ih =>
    have hhere : flags[s]? = some true := h 0 (by omega)
    obtain ⟨hlt, hval⟩ := List.getElem?_eq_some_iff.1 hhere
    have hpos : 0 < flags.count true := List.count_pos_iff.2 (hval ▸ List.getElem_mem hlt)
    have hrest : FreeRun n (flags.set s false) (s + 1) := by
      intro i hi
      rw [List.getElem?_set_ne (by omega), show s + 1 + i = s + (i + 1) by omega]
      exact h (i + 1) (by omega)
    have hih := ih hrest
    rw [List.count_set hlt, hval] at hih
    rw [setRun]
    simp at hih
    omega

/-- Giving back a run of taken items frees as many as it is long. -/
theorem count_setRun_true {s : Nat} (h : ∀ i < n, flags[s + i]? = some false) :
    (setRun true flags s n).count true = flags.count true + n := by
  induction n generalizing flags s with
  | zero => rfl
  | succ n ih =>
    have hhere : flags[s]? = some false := h 0 (by omega)
    obtain ⟨hlt, hval⟩ := List.getElem?_eq_some_iff.1 hhere
    have hrest : ∀ i < n, (flags.set s true)[s + 1 + i]? = some false := by
      intro i hi
      rw [List.getElem?_set_ne (by omega), show s + 1 + i = s + (i + 1) by omega]
      exact h (i + 1) (by omega)
    rw [setRun, ih hrest, List.count_set hlt, hval]
    simp
    omega

end FlagRuns
