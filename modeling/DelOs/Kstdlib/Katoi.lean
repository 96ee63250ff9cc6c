import DelOs.Kstdlib.Kprintf
import DelOs.Lib.Numerals
import Mathlib.Data.List.TakeWhile

/-!
# `katoi`

The parser that the shell reads counts with.  A pointer into the string is what is left of it from
there, and reading behind the terminator gives `none`; the signed arithmetic of 32 bits wraps.

* `kisdigit`, `katoi` — the functions of those names.
* `leadOf`, `firstRun` — what stands in front of the first digit, and the run of digits from there.
* `katoi_of_digit` — the answer, if there is a digit.
* `katoi_iff` — **`katoi` stays inside the string exactly if there is a digit in it**.
* `katoi_word` — `"abc"`, where it runs past the end.
-/

namespace DelOs

open Numerals

/-! ## The parser -/

/-- `kisdigit`. -/
def kisdigit (c : UInt8) : Bool := 0x30 ≤ c && c ≤ 0x39

/-- The result of an operation on `int32_t`. -/
def wrap32 (v : Int) : Int := Int.bmod v (2 ^ 32)

/-- The first loop of `katoi`: `minus_count`, and where it leaves the pointer. -/
def skipToDigit : Int → List UInt8 → Option (Int × List UInt8)
  | _, [] => none
  | minusCount, c :: buffer =>
    if kisdigit c then some (minusCount, c :: buffer)
    else skipToDigit (if c = 0x2d then wrap32 (minusCount + 1) else minusCount) buffer

/-- The second loop of `katoi`. -/
def readDigits : Int → List UInt8 → Option Int
  | _, [] => none
  | result, c :: buffer =>
    if c = 0 then some result
    else if kisdigit c = false then some result
    else readDigits (wrap32 (wrap32 (result * 10) + (c.toNat - 0x30))) buffer

/-- `katoi`. -/
def katoi (buffer : List UInt8) : Option Int := do
  let (minusCount, buffer) ← skipToDigit 0 buffer
  let result ← readDigits 0 buffer
  return wrap32 (result * if Int.tmod minusCount 2 = 0 then 1 else -1)

/-! ## What a string says -/

/-- What stands in front of the first digit. -/
def leadOf (text : CString) : CString := text.takeWhile fun c => !kisdigit c

/-- The first run of digits. -/
def firstRun (text : CString) : CString :=
  (text.dropWhile fun c => !kisdigit c).takeWhile kisdigit

/-- The number that the first run of digits says. -/
def firstNumber (text : CString) : Nat := value 10 ((firstRun text).map fun c => c.toNat - 0x30)

/-- **`katoi` is safe on a string**: it stays inside it, and gives 0 if there is no digit, or else
the first number, if that is not too large, with the sign that the `'-'` in front of it make. -/
def KatoiSafe (text : CString) : Prop :=
  ∃ r, katoi (text ++ [0]) = some r ∧ ((∀ c ∈ text, kisdigit c = false) → r = 0) ∧
    ((∃ c ∈ text, kisdigit c = true) → firstNumber text ≤ 2147483647 →
      r = if (leadOf text).count 0x2d % 2 = 0 then (firstNumber text : Int) else -firstNumber text)

/-! ## The loops -/

theorem skipToDigit_none {text : CString} (htext : ∀ c ∈ text, kisdigit c = false) (n : Int) :
    skipToDigit n (text ++ [0]) = none := by
  induction text generalizing n with
  | nil => rfl
  | cons c text ih =>
    rw [List.cons_append, skipToDigit, htext c List.mem_cons_self, if_neg Bool.false_ne_true]
    exact ih (fun c' h => htext c' (List.mem_cons_of_mem c h)) _

/-- The first loop stops at a digit, with the `'-'` in front of it counted. -/
theorem skipToDigit_eq {lead : CString} (hlead : ∀ c ∈ lead, kisdigit c = false) {d : UInt8}
    (hd : kisdigit d = true) (rest : CString) (n : Int) :
    skipToDigit (wrap32 n) (lead ++ d :: rest) =
      some (wrap32 (n + lead.count 0x2d), d :: rest) := by
  induction lead generalizing n with
  | nil => rw [List.nil_append, skipToDigit, if_pos hd, List.count_nil, Nat.cast_zero, Int.add_zero]
  | cons c lead ih =>
    have hlead' := fun c' h => hlead c' (List.mem_cons_of_mem c h)
    rw [List.cons_append, skipToDigit, hlead c List.mem_cons_self, if_neg Bool.false_ne_true]
    by_cases hc : c = 0x2d
    · have hwrap : wrap32 (wrap32 n + 1) = wrap32 (n + 1) := Int.bmod_add_bmod
      rw [if_pos hc, hwrap, ih hlead', hc, List.count_cons_self]
      congr 3
      omega
    · rw [if_neg hc, ih hlead', List.count_cons_of_ne hc]

/-- A digit in the wrapping arithmetic. -/
theorem wrap32_digit {c : UInt8} (hc : kisdigit c = true) (v : Nat) :
    wrap32 (wrap32 (wrap32 v * 10) + (c.toNat - 0x30)) =
      wrap32 ((v * 10 + (c.toNat - 0x30) : Nat) : Int) := by
  have hle : 0x30 ≤ c.toNat := by
    have h : 0x30 ≤ c := by
      rw [kisdigit, Bool.and_eq_true, decide_eq_true_eq] at hc
      exact hc.1
    exact UInt8.le_iff_toNat_le.1 h
  unfold wrap32
  rw [Int.bmod_mul_bmod, Int.bmod_add_bmod]
  congr 1
  omega

/-- The second loop reads the run of digits; wrapping at each of them is wrapping once. -/
theorem readDigits_eq {run rest : CString} (hrun : ∀ c ∈ run, kisdigit c = true)
    (hrest : ∀ c, rest.head? = some c → kisdigit c = false) (front : List Nat) :
    readDigits (wrap32 (value 10 front)) (run ++ (rest ++ [0])) =
      some (wrap32 (value 10 (front ++ run.map fun c => c.toNat - 0x30))) := by
  induction run generalizing front with
  | nil =>
    rw [List.map_nil, List.append_nil, List.nil_append]
    cases rest with
    | nil => rfl
    | cons c rest =>
      rw [List.cons_append, readDigits, hrest c rfl, if_pos rfl]
      split_ifs <;> rfl
  | cons c run ih =>
    have hc := hrun c List.mem_cons_self
    have hne : c ≠ 0 := by
      rintro rfl
      exact absurd hc (by decide)
    have hassoc : front ++ (c :: run).map (fun c => c.toNat - 0x30) =
        (front ++ [c.toNat - 0x30]) ++ run.map fun c => c.toNat - 0x30 := by
      simp
    rw [List.cons_append, readDigits, if_neg hne, if_neg (by simp [hc]), wrap32_digit hc,
      ← value_snoc, hassoc]
    exact ih (fun c' h => hrun c' (List.mem_cons_of_mem c h)) _

/-! ## The whole parser -/

theorem wrap32_eq {v : Int} (hlow : -2 ^ 31 ≤ v) (hhigh : v < 2 ^ 31) : wrap32 v = v :=
  Int.bmod_eq_of_le (by omega) (by omega)

/-- Wrapping keeps a count odd or even. -/
theorem wrap32_tmod_two (n : Nat) : Int.tmod (wrap32 n) 2 = 0 ↔ n % 2 = 0 := by
  rw [← Int.dvd_iff_tmod_eq_zero, wrap32, Int.bmod_def]
  split_ifs <;> omega

/-- **The answer, if there is a digit**: the first number, with the sign that the `'-'` in front of
it make. -/
theorem katoi_of_digit {text : CString} (h : ∃ c ∈ text, kisdigit c = true) :
    katoi (text ++ [0]) = some (wrap32 (wrap32 (firstNumber text) *
      if (leadOf text).count 0x2d % 2 = 0 then 1 else -1)) := by
  have hne : text.dropWhile (fun c => !kisdigit c) ≠ [] := by
    obtain ⟨c, hc, hdigit⟩ := h
    rw [ne_eq, List.dropWhile_eq_nil_iff]
    exact fun hall => by simpa [hdigit] using hall c hc
  obtain ⟨d, more, hmore⟩ := List.exists_cons_of_ne_nil hne
  have hd : kisdigit d = true := by
    have := List.head_dropWhile_not (fun c => !kisdigit c) hne
    simpa [hmore] using this
  have htext : text ++ [0] = leadOf text ++ d :: (more ++ [0]) := by
    rw [← List.cons_append, ← hmore, ← List.append_assoc, leadOf, List.takeWhile_append_dropWhile]
  have hlead : ∀ c ∈ leadOf text, kisdigit c = false := by
    intro c hc
    simpa using List.mem_takeWhile_imp hc
  have hrun : d :: (more ++ [0]) =
      firstRun text ++ ((d :: more).dropWhile kisdigit ++ [0]) := by
    rw [firstRun, hmore, ← List.append_assoc, List.takeWhile_append_dropWhile]
    rfl
  have hrest : ∀ c, ((d :: more).dropWhile kisdigit).head? = some c → kisdigit c = false := by
    intro c hc
    have h := List.head?_dropWhile_not kisdigit (d :: more)
    rwa [hc] at h
  have hskip := skipToDigit_eq hlead hd (more ++ [0]) 0
  rw [Int.zero_add] at hskip
  have hdigits : ∀ c ∈ firstRun text, kisdigit c = true := fun c hc => List.mem_takeWhile_imp hc
  have hread := readDigits_eq hdigits hrest []
  rw [← hrun, List.nil_append, ← firstNumber] at hread
  have hsign :
      (if Int.tmod (wrap32 ((leadOf text).count 0x2d : Nat)) 2 = 0 then (1 : Int) else -1) =
        if (leadOf text).count 0x2d % 2 = 0 then 1 else -1 := by
    simp only [wrap32_tmod_two]
  have hzero : wrap32 0 = 0 := rfl
  rw [hzero] at hskip
  rw [value_nil, Nat.cast_zero, hzero] at hread
  rw [katoi, htext, hskip, Option.bind_eq_bind, Option.bind_some]
  simp only [hread, hsign]
  rfl

/-- **`katoi` is safe exactly if there is a digit in the string**: its first loop does not look for
the end. -/
theorem katoi_iff (text : CString) : KatoiSafe text ↔ ∃ c ∈ text, kisdigit c = true := by
  constructor
  · rintro ⟨r, hr, -, -⟩
    by_contra hnone
    have hall : ∀ c ∈ text, kisdigit c = false := by
      intro c hc
      by_contra hdigit
      exact hnone ⟨c, hc, by simpa using hdigit⟩
    rw [katoi, skipToDigit_none hall] at hr
    cases hr
  · intro h
    refine ⟨_, katoi_of_digit h, fun hnone => ?_, fun _ hmax => ?_⟩
    · obtain ⟨c, hc, hdigit⟩ := h
      rw [hnone c hc] at hdigit
      exact absurd hdigit Bool.false_ne_true
    · have hnumber : wrap32 (firstNumber text) = firstNumber text :=
        wrap32_eq (by omega) (by omega)
      rw [hnumber]
      split_ifs
      · rw [Int.mul_one, wrap32_eq (by omega) (by omega)]
      · rw [Int.mul_neg_one, wrap32_eq (by omega) (by omega)]

/-- **`katoi("abc")`** runs past the end of the string. -/
theorem katoi_word : ¬ ∀ text : CString, 0 ∉ text → KatoiSafe text := by
  intro h
  obtain ⟨r, hr, -, -⟩ := h [0x61, 0x62, 0x63] (by decide)
  have hnone : katoi ([0x61, 0x62, 0x63] ++ [0]) = none := by decide
  rw [hnone] at hr
  cases hr

end DelOs
