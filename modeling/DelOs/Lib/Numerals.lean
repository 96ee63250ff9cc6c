import Mathlib.Data.Nat.Digits.Lemmas
import Mathlib.Tactic

/-!
# Numerals

Numbers written in a base, the most significant digit first: what a run of digits is worth, and
the one way to write a number without a leading zero.

* `value` — what a run of digits is worth; `value_append` and `value_le_append` say what further
  digits add.
* `numeral` — the digits of a number; `value_numeral` reads them back, and `numeral_head` is that
  no zero stands in front.
* `numeral_step` — the last digit is the remainder, the ones before it are those of the quotient.
* `step_le_iff` — **a digit may be added below a limit** just if the quotient and the remainder of
  the limit allow it.
* `readTo`, `readTo_eq` — reading digits one by one up to a limit fails exactly at the numbers
  beyond it.
-/

namespace Numerals

variable {base : Nat}

/-- What a run of digits is worth. -/
def value (base : Nat) (ds : List Nat) : Nat := ds.foldl (fun v d => v * base + d) 0

/-- The digits of a number, without a leading zero; zero has one digit. -/
def numeral (base n : Nat) : List Nat := if n = 0 then [0] else (Nat.digits base n).reverse

@[simp] theorem value_nil : value base [] = 0 := rfl

/-- Digits behind a number that is already read. -/
theorem foldl_eq (v : Nat) (ds : List Nat) :
    ds.foldl (fun v d => v * base + d) v = v * base ^ ds.length + value base ds := by
  induction ds generalizing v with
  | nil => simp
  | cons d ds ih =>
    have hone := ih (0 * base + d)
    rw [value, List.foldl_cons, List.foldl_cons, ih (v * base + d), hone, List.length_cons,
      Nat.pow_succ]
    ring

theorem value_append (front ds : List Nat) :
    value base (front ++ ds) = value base front * base ^ ds.length + value base ds := by
  rw [value, List.foldl_append, foldl_eq]
  rfl

theorem value_snoc (ds : List Nat) (d : Nat) : value base (ds ++ [d]) = value base ds * base + d :=
  List.foldl_append

/-- Further digits make no number smaller. -/
theorem value_le_append (hbase : 0 < base) (front ds : List Nat) :
    value base front ≤ value base (front ++ ds) := by
  rw [value_append]
  exact (Nat.le_mul_of_pos_right _ (Nat.pow_pos hbase)).trans (Nat.le_add_right _ _)

/-- The value, from the last digit on. -/
theorem value_eq_ofDigits (ds : List Nat) : value base ds = Nat.ofDigits base ds.reverse := by
  induction ds using List.reverseRecOn with
  | nil => rfl
  | append_singleton ds d ih =>
    rw [value_snoc, List.reverse_append, List.reverse_singleton, List.singleton_append,
      Nat.ofDigits_cons, ih, Nat.mul_comm, Nat.add_comm]

/-- A run of digits is worth 0 just if all of them are 0. -/
theorem value_eq_zero (hbase : 0 < base) (ds : List Nat) :
    value base ds = 0 ↔ ∀ d ∈ ds, d = 0 := by
  induction ds using List.reverseRecOn with
  | nil => simp
  | append_singleton ds d ih =>
    rw [value_snoc, Nat.add_eq_zero_iff, Nat.mul_eq_zero, ih, List.forall_mem_append]
    simp [hbase.ne']

/-- **A numeral is read back.** -/
theorem value_numeral (n : Nat) : value base (numeral base n) = n := by
  unfold numeral
  split_ifs with h
  · simp [value, h]
  · rw [value_eq_ofDigits, List.reverse_reverse, Nat.ofDigits_digits]

theorem numeral_ne_nil (n : Nat) : numeral base n ≠ [] := by
  unfold numeral
  split_ifs with h
  · simp
  · rwa [ne_eq, List.reverse_eq_nil_iff, Nat.digits_eq_nil_iff_eq_zero]

theorem numeral_lt (hbase : 1 < base) {n d : Nat} (hd : d ∈ numeral base n) : d < base := by
  unfold numeral at hd
  split_ifs at hd with h
  · rw [List.mem_singleton.1 hd]
    exact hbase.trans' Nat.zero_lt_one
  · exact Nat.digits_lt_base hbase (List.mem_reverse.1 hd)

/-- Only zero has a numeral that begins with a zero. -/
theorem numeral_head {n : Nat} (h : (numeral base n).head? = some 0) : numeral base n = [0] := by
  unfold numeral at h ⊢
  split_ifs at h ⊢ with h0
  · rfl
  · have hlast := Nat.getLast_digit_ne_zero base h0
    rw [List.head?_reverse, List.getLast?_eq_some_getLast (Nat.digits_ne_nil_iff_ne_zero.2 h0)] at h
    exact absurd (Option.some.inj h) hlast

/-- The last digit is the remainder, the ones before it are those of the quotient. -/
theorem numeral_step (hbase : 1 < base) {n : Nat} (hn : 0 < n) :
    (Nat.digits base n).reverse = (Nat.digits base (n / base)).reverse ++ [n % base] := by
  rw [Nat.digits_def' hbase hn, List.reverse_cons]

/-! ## Limits -/

/-- **A digit may be added below a limit** just if the quotient and the remainder of the limit allow
it. -/
theorem step_le_iff {limit v d : Nat} (hd : d < base) :
    v * base + d ≤ limit ↔ v < limit / base ∨ (v = limit / base ∧ d ≤ limit % base) := by
  have hsplit := Nat.div_add_mod limit base
  have hrem := Nat.mod_lt limit (Nat.zero_lt_of_lt hd)
  rw [Nat.mul_comm] at hsplit
  constructor
  · intro h
    rcases Nat.lt_trichotomy v (limit / base) with hlt | heq | hgt
    · exact .inl hlt
    · refine .inr ⟨heq, ?_⟩
      rw [heq] at h
      omega
    · have hmul : (limit / base + 1) * base ≤ v * base := Nat.mul_le_mul_right _ hgt
      rw [Nat.add_mul, Nat.one_mul] at hmul
      omega
  · rintro (hlt | ⟨rfl, hle⟩)
    · have hmul : (v + 1) * base ≤ limit / base * base := Nat.mul_le_mul_right _ hlt
      rw [Nat.add_mul, Nat.one_mul] at hmul
      omega
    · omega

/-- Read digits one by one behind the number `v`; `none` as soon as the limit is passed. -/
def readTo (limit base : Nat) : Nat → List Nat → Option Nat
  | v, [] => some v
  | v, d :: ds => if v * base + d ≤ limit then readTo limit base (v * base + d) ds else none

/-- **Reading digit by digit fails exactly at the numbers beyond the limit.** -/
theorem readTo_eq (hbase : 0 < base) {limit : Nat} (front ds : List Nat)
    (hfront : value base front ≤ limit) :
    readTo limit base (value base front) ds =
      if value base (front ++ ds) ≤ limit then some (value base (front ++ ds)) else none := by
  induction ds generalizing front with
  | nil => rw [readTo, List.append_nil, if_pos hfront]
  | cons d ds ih =>
    have hassoc : front ++ d :: ds = (front ++ [d]) ++ ds := by simp
    rw [readTo, ← value_snoc, hassoc]
    split_ifs with hstep hall hall
    · rw [ih _ hstep, if_pos hall]
    · rw [ih _ hstep, if_neg hall]
    · exact absurd ((value_le_append hbase _ _).trans hall) hstep
    · rfl

end Numerals
