import DelOs.Kstdlib.SprintfText
import Mathlib.Data.List.TakeWhile

/-!
# `kstrtol`

The parser of `src/utils/kstdlib/kstdlib/kstrtol.c`.  A pointer into the string is what is left of
it from there; reading behind the terminator gives `none`, and so does a signed operation of 64 bits
that overflows.

* `skipSpaces`, `charToDigit`, `detectBase`, `accumulate`, `kstrtol` — the functions of those names.
* `digitRun`, `readNumeral` — the longest run of digits of a base, and the answer it deserves.
* `accumulate_eq` — **the limit is exact**: a digit is taken just if the number stays below it.
* `kstrtol_exact` — **in an explicit base, every string gets the answer it deserves.**
* `Announced`, `kstrtol_announced_iff` — **base 0 reads the numerals that it announces, but for a
  lone `0`**; `kstrtol_lone_zero` is that one.
* `kstrtol_printed_iff` — **what `%ld` prints is read back, but for the least number**;
  `kstrtol_printed_min` is that one.
-/

namespace DelOs

open Numerals

/-! ## The parser -/

/-- `K_LONG_MAX`. -/
def K_LONG_MAX : Nat := 0x7FFFFFFFFFFFFFFF

/-- `K_LONG_MIN`. -/
def K_LONG_MIN : Int := -K_LONG_MAX - 1

/-- The result of a signed operation of 64 bits. -/
def int64 (v : Int) : Option Int := if -2 ^ 63 ≤ v ∧ v < 2 ^ 63 then some v else none

/-- `skip_spaces`. -/
def skipSpaces : List UInt8 → Option (List UInt8)
  | [] => none
  | c :: p => if c = 0x20 ∨ c = 0x09 then skipSpaces p else some (c :: p)

/-- `char_to_digit`. -/
def charToDigit (c : UInt8) : Int :=
  if 0x30 ≤ c ∧ c ≤ 0x39 then c.toNat - 0x30
  else if 0x61 ≤ c ∧ c ≤ 0x66 then c.toNat - 0x61 + 10
  else if 0x41 ≤ c ∧ c ≤ 0x46 then c.toNat - 0x41 + 10
  else -1

/-- `detect_base`: where it leaves the pointer, and the base. -/
def detectBase (p : List UInt8) (base : Int) : Option (List UInt8 × Int) :=
  if base ≠ 0 then some (p, base)
  else
    match p with
    | [] => none
    | c :: p =>
      if c = 0x30 then
        match p with
        | [] => none
        | x :: q => if x = 0x78 ∨ x = 0x58 then some (q, 16) else some (x :: q, 8)
      else some (c :: p, 10)

/-- `accumulate`: what it returns, and the value it leaves. -/
def accumulate (value base digit : Int) : Option (Bool × Int) :=
  let (limit, limitRem) := kdivmodU64 K_LONG_MAX (base % 2 ^ 32).toNat
  if value > Int.bmod limit (2 ^ 64) then some (false, value)
  else if value = Int.bmod limit (2 ^ 64) ∧ digit > Int.bmod limitRem (2 ^ 32) then
    some (false, value)
  else do
    let product ← int64 (value * base)
    let sum ← int64 (product + digit)
    return (true, sum)

/-- The loop of `kstrtol`: the value and `parsed` behind it, or nothing if it returns 0 at once. -/
def kstrtolLoop (base : Int) : Int → Bool → List UInt8 → Option (Option (Int × Bool))
  | _, _, [] => none
  | value, parsed, c :: p =>
    if c = 0 then some (some (value, parsed))
    else if charToDigit c < 0 ∨ charToDigit c ≥ base then some (some (value, parsed))
    else do
      let (fits, value) ← accumulate value base (charToDigit c)
      if fits then kstrtolLoop base value true p else some none

/-- The sign in front of the number, and where the pointer is behind it. -/
def takeSign : List UInt8 → Option (Int × List UInt8)
  | [] => none
  | c :: p =>
    if c = 0x2d then some (-1, p) else if c = 0x2b then some (1, p) else some (1, c :: p)

/-- `kstrtol` of a string that is not `NULL`: the result, and what is stored in `*ok`. -/
def kstrtol (str : List UInt8) (base : Int) : Option (Int × Bool) := do
  let p ← skipSpaces str
  let (sign, p) ← takeSign p
  let (p, base) ← detectBase p base
  if base < 2 ∨ base > 16 then return (0, false)
  match ← kstrtolLoop base 0 false p with
  | none => return (0, false)
  | some (value, parsed) =>
    if parsed = false then return (0, false)
    let result ← int64 (value * sign)
    return (result, true)

/-! ## What a string says -/

def isBlank (c : UInt8) : Bool := c == 0x20 || c == 0x09

/-- The number that a character is the digit of, in small or in large letters. -/
def digitValue (c : UInt8) : Option Nat :=
  (digitChars false).idxOf? c <|> (digitChars true).idxOf? c

def isDigitOf (base : Nat) (c : UInt8) : Bool := (digitValue c).any (· < base)

/-- The longest run of digits of a base at the start of a text. -/
def digitRun (base : Nat) (text : CString) : List Nat :=
  (text.takeWhile (isDigitOf base)).map fun c => (digitValue c).getD 0

def signOf (text : CString) : Int := if text.head? = some 0x2d then -1 else 1

def afterSign (text : CString) : CString :=
  if text.head? = some 0x2d ∨ text.head? = some 0x2b then text.tail else text

/-- **The answer that a text deserves** in a base: the number that its digits say, with the sign, if
there are any and it is not too large. -/
def readNumeral (base : Nat) (sign : Int) (text : CString) : Int × Bool :=
  if digitRun base text ≠ [] ∧ value base (digitRun base text) ≤ K_LONG_MAX then
    (sign * value base (digitRun base text), true)
  else (0, false)

/-! ## Digits -/

theorem charToDigit_ofNat : ∀ n < 256, charToDigit (UInt8.ofNat n) =
    ((digitValue (UInt8.ofNat n)).map Nat.cast).getD (-1) := by
  decide +kernel

/-- `char_to_digit` says which digit a character is, and -1 if it is none. -/
theorem charToDigit_eq (c : UInt8) :
    charToDigit c = ((digitValue c).map Nat.cast).getD (-1) := by
  have h := charToDigit_ofNat c.toNat c.toNat_lt
  rwa [UInt8.ofNat_toNat] at h

/-- The loop of `kstrtol` goes on exactly at a digit of the base. -/
theorem isDigitOf_iff {base : Nat} {c : UInt8} :
    isDigitOf base c = true ↔ ¬ (charToDigit c < 0 ∨ charToDigit c ≥ (base : Int)) := by
  rw [charToDigit_eq, isDigitOf]
  cases digitValue c with
  | none => simp
  | some d => simp

theorem digitRun_cons {base : Nat} {c : UInt8} {text : CString} (h : isDigitOf base c = true) :
    digitRun base (c :: text) = (charToDigit c).toNat :: digitRun base text := by
  have hc : (charToDigit c).toNat = (digitValue c).getD 0 := by
    rw [charToDigit_eq]
    cases hd : digitValue c with
    | none => simp [isDigitOf, hd] at h
    | some d => simp
  rw [digitRun, List.takeWhile_cons_of_pos h, List.map_cons, hc]
  rfl

theorem digitRun_stop {base : Nat} {text : CString}
    (h : ∀ c, text.head? = some c → isDigitOf base c = false) : digitRun base text = [] := by
  cases text with
  | nil => rfl
  | cons c text => rw [digitRun, List.takeWhile_cons_of_neg (by simp [h c rfl]), List.map_nil]

/-! ## The loop -/

theorem int64_some {v : Int} (h : -2 ^ 63 ≤ v ∧ v < 2 ^ 63) : int64 v = some v := if_pos h

/-- **The limit is exact**: a digit is taken just if the number stays below it, and then nothing
overflows. -/
theorem accumulate_eq {v base d : Nat} (h2 : 2 ≤ base) (h16 : base ≤ 16) (hd : d < base) :
    accumulate v base d =
      some (if v * base + d ≤ K_LONG_MAX then (true, ((v * base + d : Nat) : Int))
        else (false, v)) := by
  have hbase : ((base : Int) % 2 ^ 32).toNat = base := by omega
  have hquotient : K_LONG_MAX / base < 2 ^ 62 := by
    rw [Nat.div_lt_iff_lt_mul (by omega)]
    exact (by decide : K_LONG_MAX < 2 ^ 62 * 2).trans_le (Nat.mul_le_mul_left _ h2)
  have hrem : K_LONG_MAX % base < base := Nat.mod_lt _ (by omega)
  have hlimit : ∀ q : Nat, q < 2 ^ 62 → Int.bmod q (2 ^ 64) = q := fun q hq =>
    Int.bmod_eq_of_le (by omega) (by omega)
  have hlimitRem : ∀ r : Nat, r < base → Int.bmod r (2 ^ 32) = r := fun r hr =>
    Int.bmod_eq_of_le (by omega) (by omega)
  have hstep : v * base + d ≤ K_LONG_MAX ↔ _ := step_le_iff hd
  unfold accumulate
  rw [hbase, kdivmodU64_eq (by omega) (by decide)]
  dsimp only
  rw [hlimit _ hquotient, hlimitRem _ hrem]
  generalize K_LONG_MAX / base = limit at *
  generalize K_LONG_MAX % base = limitRem at *
  by_cases hfits : v * base + d ≤ K_LONG_MAX
  · have hmax : v * base + d < 2 ^ 63 := hfits.trans_lt (by decide)
    have hcast : ((v * base : Nat) : Int) = (v : Int) * base := Nat.cast_mul v base
    have hproduct : int64 ((v : Int) * base) = some ((v : Int) * base) := int64_some (by omega)
    have hsum : int64 ((v : Int) * base + d) = some ((v : Int) * base + d) :=
      int64_some (by omega)
    have hlow := hstep.1 hfits
    rw [if_neg (by omega), if_neg (by omega), if_pos hfits, hproduct, Option.bind_eq_bind,
      Option.bind_some, hsum, Nat.cast_add, hcast]
    rfl
  · have hhigh := mt hstep.2 hfits
    rw [if_neg hfits]
    by_cases hover : v > limit
    · rw [if_pos (by omega)]
    · rw [if_neg (by omega), if_pos (by omega)]

/-- **The loop reads the longest run of digits**, up to the limit. -/
theorem kstrtolLoop_eq {base : Nat} (h2 : 2 ≤ base) (h16 : base ≤ 16) (text : CString) (v : Nat)
    (parsed : Bool) :
    kstrtolLoop base v parsed (text ++ [0]) =
      some ((readTo K_LONG_MAX base v (digitRun base text)).map fun n : Nat =>
        ((n : Int), parsed || !(digitRun base text).isEmpty)) := by
  have hstop : ∀ (p : List UInt8) {c : UInt8}, isDigitOf base c = false → ∀ v' parsed',
      kstrtolLoop base v' parsed' (c :: p) = some (some (v', parsed')) := by
    intro p c hc v' parsed'
    rw [kstrtolLoop]
    split_ifs with hzero hdigit
    · rfl
    · rfl
    · exact absurd (isDigitOf_iff.2 hdigit) (by simp [hc])
  induction text generalizing v parsed with
  | nil =>
    rw [List.nil_append, hstop [] (by rfl), digitRun_stop (by simp)]
    simp [readTo]
  | cons c text ih =>
    rw [List.cons_append]
    by_cases hc : isDigitOf base c = true
    · have hdigit := isDigitOf_iff.1 hc
      have hne : c ≠ 0 := by
        rintro rfl
        exact hdigit (.inl (by decide))
      obtain ⟨d, hd⟩ : ∃ d : Nat, charToDigit c = d := ⟨(charToDigit c).toNat, by omega⟩
      rw [digitRun_cons hc, hd, Int.toNat_natCast, readTo, kstrtolLoop, if_neg hne, if_neg hdigit,
        hd, accumulate_eq h2 h16 (by omega), Option.bind_eq_bind, Option.bind_some]
      split_ifs with hfits
      · show kstrtolLoop base ((v * base + d : Nat) : Int) true (text ++ [0]) = _
        rw [ih]
        simp
      · rfl
    · have hc' : isDigitOf base c = false := by simpa using hc
      rw [hstop _ hc', digitRun_stop (by simpa using hc')]
      simp [readTo]

/-! ## The whole parser -/

theorem skipSpaces_eq (text : CString) :
    skipSpaces (text ++ [0]) = some (text.dropWhile isBlank ++ [0]) := by
  induction text with
  | nil => rfl
  | cons c text ih =>
    rw [List.cons_append, skipSpaces]
    split_ifs with hc
    · rw [ih, List.dropWhile_cons_of_pos (by simpa [isBlank] using hc)]
    · rw [List.dropWhile_cons_of_neg (by simpa [isBlank] using hc)]
      rfl

theorem takeSign_eq (text : CString) :
    takeSign (text ++ [0]) = some (signOf text, afterSign text ++ [0]) := by
  cases text with
  | nil => rfl
  | cons c text =>
    rw [List.cons_append, takeSign, signOf, afterSign, List.head?_cons, List.tail_cons]
    by_cases hminus : c = 0x2d
    · simp [hminus]
    · by_cases hplus : c = 0x2b
      · simp [hplus]
      · simp [hminus, hplus]

/-- What a string says in front of the number. -/
theorem kstrtol_of_detected {text q : CString} {asked : Int} {base : Nat} (h2 : 2 ≤ base)
    (h16 : base ≤ 16)
    (hdetect : detectBase (afterSign (text.dropWhile isBlank) ++ [0]) asked =
      some (q ++ [0], (base : Int))) :
    kstrtol (text ++ [0]) asked =
      some (readNumeral base (signOf (text.dropWhile isBlank)) q) := by
  have hsign : ∀ n : Nat, n ≤ K_LONG_MAX → int64 (n * signOf (text.dropWhile isBlank)) =
      some (signOf (text.dropWhile isBlank) * n) := by
    intro n hn
    have hmax : n < 2 ^ 63 := hn.trans_lt (by decide)
    rw [Int.mul_comm, int64_some]
    unfold signOf
    split_ifs <;> constructor <;> omega
  have hloop := kstrtolLoop_eq h2 h16 q 0 false
  have hread := readTo_eq (Nat.zero_lt_of_lt h2) [] (digitRun base q) (Nat.zero_le K_LONG_MAX)
  rw [value_nil, List.nil_append] at hread
  rw [hread, Nat.cast_zero] at hloop
  unfold kstrtol
  rw [skipSpaces_eq]
  simp only [Option.bind_eq_bind, Option.bind_some, takeSign_eq, hdetect]
  rw [if_neg (by omega), hloop, readNumeral]
  by_cases hmax : value base (digitRun base q) ≤ K_LONG_MAX
  · by_cases hrun : digitRun base q = []
    · simp [hrun]
    · simp [hmax, hrun, hsign _ hmax]
  · simp [hmax]

/-- **`kstrtol` is exact in an explicit base**: for every string it reads up to the terminator at
most, no signed operation overflows, and it gives the answer that the string deserves. -/
theorem kstrtol_exact (text : CString) {base : Nat} (h2 : 2 ≤ base) (h16 : base ≤ 16) :
    kstrtol (text ++ [0]) base = some (readNumeral base (signOf (text.dropWhile isBlank))
      (afterSign (text.dropWhile isBlank))) :=
  kstrtol_of_detected h2 h16 (if_pos (by omega))

/-- `" -7Fg"` in base 16. -/
theorem kstrtol_exact_hex : kstrtol ([0x20, 0x2d, 0x37, 0x46, 0x67] ++ [0]) (16 : Nat) =
    some (readNumeral 16 (signOf (([0x20, 0x2d, 0x37, 0x46, 0x67] : CString).dropWhile isBlank))
      (afterSign (([0x20, 0x2d, 0x37, 0x46, 0x67] : CString).dropWhile isBlank))) :=
  kstrtol_exact [0x20, 0x2d, 0x37, 0x46, 0x67] (by decide) (by decide)

example : kstrtol [0x20, 0x2d, 0x37, 0x46, 0x67, 0] 16 = some (-127, true) := by decide

/-! ## Base 0 -/

/-- The notations that base 0 tells apart. -/
inductive Radix
  | decimal
  | octal
  | hex
  | upperHex
  deriving DecidableEq, Repr

namespace Radix

def base : Radix → Nat
  | decimal => 10
  | octal => 8
  | hex => 16
  | upperHex => 16

/-- What marks a notation. -/
def lead : Radix → CString
  | decimal => []
  | octal => [0x30]
  | hex => [0x30, 0x78]
  | upperHex => [0x30, 0x58]

/-- The digits that may follow: a decimal numeral does not start with 0, and an octal one may be the
0 alone. -/
def Admits : Radix → CString → Prop
  | decimal, digits => digits ≠ [] ∧ digits.head? ≠ some 0x30
  | octal, _ => True
  | hex, digits => digits ≠ []
  | upperHex, digits => digits ≠ []

theorem two_le_base (r : Radix) : 2 ≤ r.base := by
  cases r <;> decide

theorem base_le (r : Radix) : r.base ≤ 16 := by
  cases r <;> decide

end Radix

/-- Blanks, a sign and a numeral in one of the notations, in front of anything that does not go on
with it. -/
structure Announced where
  blanks : CString
  sign : CString
  radix : Radix
  digits : CString
  rest : CString
  blank : ∀ c ∈ blanks, isBlank c = true
  signed : sign = [] ∨ sign = [0x2d] ∨ sign = [0x2b]
  isDigit : ∀ c ∈ digits, isDigitOf radix.base c = true
  admits : radix.Admits digits
  stops : ∀ c, rest.head? = some c → isDigitOf radix.base c = false

namespace Announced

variable (a : Announced)

/-- What follows the sign. -/
def body : CString := a.radix.lead ++ (a.digits ++ a.rest)

def text : CString := a.blanks ++ (a.sign ++ a.body)

/-- The number; the 0 that marks an octal one adds nothing to it. -/
def magnitude : Nat := value a.radix.base (a.digits.map fun c => (digitValue c).getD 0)

def signedNumber : Int := if a.sign = [0x2d] then -a.magnitude else a.magnitude

/-- The numeral is the digit 0 alone. -/
def LoneZero : Prop := a.radix = .octal ∧ a.digits = []

/-- What follows a lone 0 makes it a hexadecimal 0. -/
def GoesOnAsHexZero : Prop :=
  ∃ mark more, a.rest = mark :: more ∧ (mark = 0x78 ∨ mark = 0x58) ∧ digitRun 16 more ≠ [] ∧
    ∀ d ∈ digitRun 16 more, d = 0

theorem digitRun_digits : digitRun a.radix.base (a.digits ++ a.rest) =
    a.digits.map fun c => (digitValue c).getD 0 := by
  rw [digitRun, List.takeWhile_append_of_pos a.isDigit]
  cases hrest : a.rest with
  | nil => simp
  | cons c rest =>
    have hc := a.stops c (by rw [hrest]; rfl)
    rw [List.takeWhile_cons_of_neg (by simp [hc]), List.append_nil]

end Announced

theorem not_isDigitOf {base : Nat} {c : UInt8} (h : digitValue c = none) :
    isDigitOf base c = false := by
  rw [isDigitOf, h]
  rfl

/-- A character in front of a number: no blank and no sign. -/
def Begins (c : UInt8) : Prop := isBlank c = false ∧ c ≠ 0x2d ∧ c ≠ 0x2b

theorem begins_of_isDigitOf {base : Nat} {c : UInt8} (h : isDigitOf base c = true) : Begins c := by
  have hne : ∀ {b : UInt8}, digitValue b = none → c ≠ b := by
    rintro b hb rfl
    rw [not_isDigitOf hb] at h
    exact Bool.false_ne_true h
  have hspace : c ≠ 0x20 := hne (by decide)
  have htab : c ≠ 0x09 := hne (by decide)
  exact ⟨by simp [isBlank, hspace, htab], hne (by decide), hne (by decide)⟩

namespace Announced

variable (a : Announced)

theorem body_begins : ∃ c body, a.body = c :: body ∧ Begins c := by
  have hadmits := a.admits
  have hdigit := a.isDigit
  unfold body
  cases hradix : a.radix with
  | decimal =>
    rw [hradix] at hadmits
    obtain ⟨c, digits, hdigits⟩ := List.exists_cons_of_ne_nil hadmits.1
    exact ⟨c, digits ++ a.rest, by rw [hdigits]; rfl,
      begins_of_isDigitOf (hdigit c (hdigits ▸ List.mem_cons_self))⟩
  | octal => exact ⟨0x30, _, rfl, by unfold Begins; decide⟩
  | hex => exact ⟨0x30, _, rfl, by unfold Begins; decide⟩
  | upperHex => exact ⟨0x30, _, rfl, by unfold Begins; decide⟩

theorem dropWhile_text : a.text.dropWhile isBlank = a.sign ++ a.body := by
  obtain ⟨c, body, hbody, hbegins⟩ := a.body_begins
  rw [text, List.dropWhile_append_of_pos a.blank, hbody]
  rcases a.signed with h | h | h <;> rw [h]
  · exact List.dropWhile_cons_of_neg (by simp [hbegins.1])
  · rfl
  · rfl

/-- The number with the sign that is read. -/
theorem signedNumber_eq : a.signedNumber = signOf (a.sign ++ a.body) * a.magnitude := by
  obtain ⟨c, body, hbody, hbegins⟩ := a.body_begins
  rw [signedNumber, hbody, signOf]
  rcases a.signed with h | h | h <;> simp [h, hbegins.2.1]

theorem afterSign_text : afterSign (a.sign ++ a.body) = a.body := by
  obtain ⟨c, body, hbody, hbegins⟩ := a.body_begins
  rw [hbody, afterSign]
  rcases a.signed with h | h | h
  · simp [h, hbegins.2.1, hbegins.2.2]
  · simp [h]
  · simp [h]

/-- **The base is detected**, and the pointer left at the digits. -/
theorem detectBase_body (h : ¬ a.LoneZero) :
    detectBase (a.body ++ [0]) 0 = some ((a.digits ++ a.rest) ++ [0], (a.radix.base : Int)) := by
  have hadmits := a.admits
  have hdigit := a.isDigit
  unfold body
  cases hradix : a.radix with
  | decimal =>
    rw [hradix] at hadmits
    obtain ⟨hne, hhead⟩ := hadmits
    obtain ⟨c, digits, hdigits⟩ := List.exists_cons_of_ne_nil hne
    have hc : c ≠ 0x30 := by
      rintro rfl
      exact hhead (by rw [hdigits]; rfl)
    rw [hdigits]
    simp [detectBase, Radix.lead, Radix.base, hc]
  | octal =>
    obtain ⟨c, digits, hdigits⟩ := List.exists_cons_of_ne_nil fun hnil => h ⟨hradix, hnil⟩
    have hc := hdigit c (hdigits ▸ List.mem_cons_self)
    -- a digit behind the 0 is no mark of the hexadecimal numbers
    have hmark : ¬ (c = 0x78 ∨ c = 0x58) := by
      rintro (rfl | rfl) <;> rw [not_isDigitOf (by decide)] at hc <;> exact Bool.false_ne_true hc
    rw [hdigits]
    simp [detectBase, Radix.lead, Radix.base, hmark]
  | hex => simp [detectBase, Radix.lead, Radix.base]
  | upperHex => simp [detectBase, Radix.lead, Radix.base]

/-- **An announced numeral is read**, but for the lone 0. -/
theorem kstrtol_read (h : ¬ a.LoneZero) (hmax : a.magnitude ≤ K_LONG_MAX) :
    kstrtol (a.text ++ [0]) 0 = some (a.signedNumber, true) := by
  have hdetect := a.detectBase_body h
  rw [← a.afterSign_text, ← a.dropWhile_text] at hdetect
  have hrun : a.digits.map (fun c => (digitValue c).getD 0) ≠ [] := by
    have hadmits := a.admits
    rw [ne_eq, List.map_eq_nil_iff]
    cases hradix : a.radix with
    | octal => exact fun hnil => h ⟨hradix, hnil⟩
    | decimal =>
      rw [hradix] at hadmits
      exact hadmits.1
    | hex =>
      rw [hradix] at hadmits
      exact hadmits
    | upperHex =>
      rw [hradix] at hadmits
      exact hadmits
  rw [kstrtol_of_detected a.radix.two_le_base a.radix.base_le hdetect, readNumeral,
    a.digitRun_digits, if_pos ⟨hrun, hmax⟩, a.dropWhile_text, a.signedNumber_eq]
  rfl

theorem readNumeral_zero_iff {base : Nat} (hbase : 0 < base) (text : CString) {sign : Int}
    (hsign : sign ≠ 0) :
    readNumeral base sign text = (0, true) ↔
      digitRun base text ≠ [] ∧ ∀ d ∈ digitRun base text, d = 0 := by
  rw [readNumeral, ← value_eq_zero hbase]
  split_ifs with h
  · simp [hsign, h.1]
  · refine iff_of_false (by simp) fun hzero => h ⟨hzero.1, ?_⟩
    rw [hzero.2]
    exact Nat.zero_le _

theorem signOf_ne_zero (text : CString) : signOf text ≠ 0 := by
  unfold signOf
  split_ifs <;> decide

/-- **The lone 0 is taken for the mark of an octal number without digits**; it is read only if what
follows makes it a hexadecimal 0. -/
theorem kstrtol_loneZero_iff (h : a.LoneZero) :
    kstrtol (a.text ++ [0]) 0 = some (a.signedNumber, true) ↔ a.GoesOnAsHexZero := by
  obtain ⟨hradix, hdigits⟩ := h
  have hstops := a.stops
  rw [hradix] at hstops
  have hbody : a.body = 0x30 :: a.rest := by
    rw [body, hradix, hdigits]
    rfl
  have hnumber : a.signedNumber = 0 := by
    rw [signedNumber_eq, magnitude, hdigits]
    simp
  have hread : ∀ (q : CString) (base : Nat), 2 ≤ base → base ≤ 16 →
      detectBase ((0x30 :: a.rest) ++ [0]) 0 = some (q ++ [0], (base : Int)) →
      (kstrtol (a.text ++ [0]) 0 = some (a.signedNumber, true) ↔
        digitRun base q ≠ [] ∧ ∀ d ∈ digitRun base q, d = 0) := by
    intro q base h2 h16 hdetect
    rw [← hbody, ← a.afterSign_text, ← a.dropWhile_text] at hdetect
    rw [kstrtol_of_detected h2 h16 hdetect, hnumber, Option.some_inj]
    exact readNumeral_zero_iff (Nat.zero_lt_of_lt h2) _ (signOf_ne_zero _)
  by_cases hmark : ∃ mark more, a.rest = mark :: more ∧ (mark = 0x78 ∨ mark = 0x58)
  · obtain ⟨mark, more, hrest, hmark⟩ := hmark
    rw [hread more 16 (by decide) (by decide) (by simp [hrest, detectBase, hmark])]
    constructor
    · exact fun hzero => ⟨mark, more, hrest, hmark, hzero⟩
    · rintro ⟨mark', more', hrest', -, hzero⟩
      obtain ⟨-, rfl⟩ := List.cons.inj (hrest.symm.trans hrest')
      exact hzero
  · have hdetect : detectBase ((0x30 :: a.rest) ++ [0]) 0 =
        some (a.rest ++ [0], ((8 : Nat) : Int)) := by
      cases hrest : a.rest with
      | nil => rfl
      | cons c more =>
        have hc : ¬ (c = 0x78 ∨ c = 0x58) := fun hc => hmark ⟨c, more, hrest, hc⟩
        simp [detectBase, hc]
    have hrun : digitRun 8 a.rest = [] := digitRun_stop hstops
    rw [hread _ 8 (by decide) (by decide) hdetect, hrun]
    refine iff_of_false (fun hzero => hzero.1 rfl) ?_
    rintro ⟨mark, more, hrest, hc, -⟩
    exact hmark ⟨mark, more, hrest, hc⟩

end Announced

/-- **Base 0 reads the numerals that it announces, but for a lone `0`** (which is read only where it
goes on as `0x0`). -/
theorem kstrtol_announced_iff (a : Announced) (hmax : a.magnitude ≤ K_LONG_MAX) :
    kstrtol (a.text ++ [0]) 0 = some (a.signedNumber, true) ↔
      (a.LoneZero → a.GoesOnAsHexZero) := by
  by_cases h : a.LoneZero
  · rw [a.kstrtol_loneZero_iff h]
    exact ⟨fun hzero _ => hzero, fun hzero => hzero h⟩
  · exact iff_of_true (a.kstrtol_read h hmax) fun h' => absurd h' h

theorem stops_nil {base : Nat} (c : UInt8) (hc : ([] : CString).head? = some c) :
    isDigitOf base c = false := by
  cases hc

theorem seven_isDigit : ∀ c ∈ ([0x37] : CString), isDigitOf 10 c = true :=
  List.forall_mem_singleton.2 rfl

theorem seven_admits : Radix.decimal.Admits [0x37] := ⟨by decide, by decide⟩

/-- `"7"` -/
def sevenText : Announced :=
  ⟨[], [], .decimal, [0x37], [], List.forall_mem_nil _, .inl rfl, seven_isDigit, seven_admits,
    stops_nil⟩

/-- `"0"` -/
def zeroText : Announced :=
  ⟨[], [], .octal, [], [], List.forall_mem_nil _, .inl rfl, List.forall_mem_nil _, trivial,
    stops_nil⟩

theorem kstrtol_announced_iff_seven :
    kstrtol (sevenText.text ++ [0]) 0 = some (sevenText.signedNumber, true) ↔
      (sevenText.LoneZero → sevenText.GoesOnAsHexZero) :=
  kstrtol_announced_iff sevenText (by decide)

/-- **`kstrtol("0", 0, &ok)`** fails. -/
theorem kstrtol_lone_zero :
    ¬ ∀ a : Announced, a.magnitude ≤ K_LONG_MAX →
      kstrtol (a.text ++ [0]) 0 = some (a.signedNumber, true) := by
  intro h
  have hcode : kstrtol (zeroText.text ++ [0]) 0 = some (0, false) := by decide
  have hclaim := h zeroText (by decide)
  rw [hcode] at hclaim
  exact absurd hclaim (by decide)

/-! ## Printing and parsing -/

theorem digitValue_digitChar {i : Nat} (hi : i < 16) : digitValue (digitChar false i) = some i := by
  interval_cases i <;> decide

/-- **The digits that are printed are read back.** -/
theorem digitRun_numeralChars {base : Nat} (hbase : 1 < base) (h16 : base ≤ 16) (n : Nat) :
    digitRun base (numeralChars base false n) = numeral base n := by
  have hdigit : ∀ i ∈ numeral base n, digitValue (digitChar false i) = some i := fun i hi =>
    digitValue_digitChar ((numeral_lt hbase hi).trans_le h16)
  have hall : ∀ c ∈ numeralChars base false n, isDigitOf base c = true := by
    intro c hc
    obtain ⟨i, hi, rfl⟩ := List.mem_map.1 hc
    rw [isDigitOf, hdigit i hi]
    simpa using numeral_lt hbase hi
  rw [digitRun, List.takeWhile_eq_self_iff.2 hall, numeralChars, List.map_map]
  calc _ = (numeral base n).map id := List.map_congr_left fun i hi => by simp [hdigit i hi]
    _ = numeral base n := List.map_id _

/-- The two words that a number of 64 bits is passed in. -/
def longArgs (v : Int) : VaArgs :=
  { noArgs with
    word := fun i => [(v % 2 ^ 64).toNat % 2 ^ 32, (v % 2 ^ 64).toNat / 2 ^ 32].getD i 0 }

theorem arg64_longArgs (v : Int) : (longArgs v).arg64 0 = (v % 2 ^ 64).toNat := by
  simp only [VaArgs.arg64, VaArgs.arg32, longArgs, List.getD_cons_zero, List.getD_cons_succ]
  omega

theorem signedValue_longArgs {v : Int} (hlow : -2 ^ 63 ≤ v) (hhigh : v < 2 ^ 63) :
    signedValue 64 ((longArgs v).arg64 0) = v := by
  rw [arg64_longArgs, signedValue]
  split_ifs with h
  · omega
  · omega

/-- `"%ld"` -/
def longFormat : CString := [0x25, 0x6c, 0x64]

theorem numeralChars_begins (n : Nat) :
    ∃ c rest, numeralChars 10 false n = c :: rest ∧ Begins c := by
  have hne : numeral 10 n ≠ [] := numeral_ne_nil n
  obtain ⟨i, more, hmore⟩ := List.exists_cons_of_ne_nil hne
  have hi : i < 10 := numeral_lt (by decide) (n := n) (by rw [hmore]; exact List.mem_cons_self)
  refine ⟨digitChar false i, more.map (digitChar false), by rw [numeralChars, hmore]; rfl, ?_⟩
  have hdigit : isDigitOf 10 (digitChar false i) = true := by
    rw [isDigitOf, digitValue_digitChar (by omega)]
    simpa using hi
  exact begins_of_isDigitOf hdigit

/-- What `%ld` prints of a number. -/
theorem ksprintf_long {v : Int} (hlow : -2 ^ 63 ≤ v) (hhigh : v < 2 ^ 63) :
    ∃ p, ksprintf longFormat (longArgs v) = some p ∧
      p.text = signChars v ++ numeralChars 10 false v.natAbs := by
  have hword := kitoa64_eq ((longArgs v).arg64_lt 0)
  rw [signedValue_longArgs hlow hhigh] at hword
  refine ⟨_, rfl, ?_⟩
  show (Ksprintf.padded (kitoa64 _) 0 (padByte false)).text ++ [] = _
  rw [hword, padded_signed, List.append_nil]
  exact padLeft_eq_append (Nat.zero_le _) false

/-- **What `%ld` prints is read back exactly if it is not the least number**: the parser reads the
digits before it gives them the sign, and they pass its limit. -/
theorem kstrtol_printed_iff {v : Int} (hlow : -2 ^ 63 ≤ v) (hhigh : v < 2 ^ 63) :
    (∃ p, ksprintf longFormat (longArgs v) = some p ∧ kstrtol p.stored 10 = some (v, true)) ↔
      v ≠ K_LONG_MIN := by
  obtain ⟨p, hp, htext⟩ := ksprintf_long hlow hhigh
  obtain ⟨c, rest, hdigits, hbegins⟩ := numeralChars_begins v.natAbs
  have hblank : (signChars v ++ numeralChars 10 false v.natAbs).dropWhile isBlank =
      signChars v ++ numeralChars 10 false v.natAbs := by
    rcases signChars_cases v with h | h
    · rw [h, hdigits]
      exact List.dropWhile_cons_of_neg (by simp [hbegins.1])
    · rw [h]
      rfl
  have hafter : afterSign (signChars v ++ numeralChars 10 false v.natAbs) =
      numeralChars 10 false v.natAbs := by
    rw [hdigits, afterSign]
    rcases signChars_cases v with h | h
    · simp [h, hbegins.2.1, hbegins.2.2]
    · simp [h]
  have hsign : signOf (signChars v ++ numeralChars 10 false v.natAbs) * v.natAbs = v := by
    rw [hdigits, signOf, signChars]
    by_cases hneg : v < 0
    · simp only [hneg, if_true, List.singleton_append, List.head?_cons]
      omega
    · simp only [hneg, if_false, List.nil_append, List.head?_cons, Option.some.injEq, hbegins.2.1]
      omega
  have hread : kstrtol (p.text ++ [0]) 10 = _ :=
    kstrtol_of_detected (show 2 ≤ 10 by decide) (by decide) rfl
  rw [htext, hblank, hafter, readNumeral, digitRun_numeralChars (by decide) (by decide),
    value_numeral, hsign] at hread
  have hmax : v.natAbs ≤ K_LONG_MAX ↔ v ≠ K_LONG_MIN := by
    simp only [K_LONG_MAX, K_LONG_MIN]
    omega
  rw [← hmax]
  constructor
  · rintro ⟨q, hq, hback⟩
    rw [hp] at hq
    rw [← Option.some.inj hq, Printed.stored, htext, hread] at hback
    by_contra hover
    rw [if_neg fun h => hover h.2] at hback
    exact absurd (Option.some.inj hback) (by simp)
  · intro hle
    refine ⟨p, hp, ?_⟩
    rw [Printed.stored, htext, hread, if_pos ⟨numeral_ne_nil _, hle⟩]

theorem kstrtol_printed_iff_minus :
    (∃ p, ksprintf longFormat (longArgs (-42)) = some p ∧ kstrtol p.stored 10 = some (-42, true)) ↔
      -42 ≠ K_LONG_MIN :=
  kstrtol_printed_iff (by decide) (by decide)

/-- **The least number** is printed as `-9223372036854775808` and not read back. -/
theorem kstrtol_printed_min :
    ¬ ∀ v : Int, -2 ^ 63 ≤ v → v < 2 ^ 63 →
      ∃ p, ksprintf longFormat (longArgs v) = some p ∧ kstrtol p.stored 10 = some (v, true) := by
  intro h
  obtain ⟨p, hp, hback⟩ := h (-2 ^ 63) (by decide) (by decide)
  have hcode : (ksprintf longFormat (longArgs (-2 ^ 63))).bind (fun p => kstrtol p.stored 10) =
      some (0, false) := by
    decide +kernel
  rw [hp, Option.bind_some, hback] at hcode
  exact absurd hcode (by decide)

end DelOs
