import DelOs.Kstdlib.PrintfAgree
import DelOs.Lib.Numerals

/-!
# What `ksprintf` writes

The documentation of `kprintf` and `ksprintf` gives each directive a text: digits in a base, `0x` or
`0X` in front of the hexadecimal ones, the sign in front of the zeros, and spaces or zeros on the
left up to the width.

* `FormatField`, `FormatItem` — the pieces of a format, well formed by construction.
* `padLeft`, `FormatField.rendered`, `documented` — the texts that the documentation promises.
* `kuitoa_eq`, `kuitoa64_eq`, `kitoa_eq`, `kitoa64_eq` — **the numbers are written right**.
* `FormatField.InWidth` — where the width of a prefixed number is not more than it should be.
* `ksprintf_documented_iff` — **`ksprintf` writes what is documented exactly if no number with a
  prefix is padded** (a pointer may be padded with zeros).
* `ksprintf_padded_hex` — `"%5x"`, where the number is two characters too wide.
-/

namespace DelOs

open Numerals

/-! ## Formats -/

/-- The conversions that the documentation lists. -/
inductive Specifier
  | d
  | ld
  | x
  | lx
  | X
  | b
  | p
  | s
  | c
  deriving DecidableEq, Repr

/-- The letters of a conversion. -/
def Specifier.letters : Specifier → CString
  | .d => [0x64]
  | .ld => [0x6c, 0x64]
  | .x => [0x78]
  | .lx => [0x6c, 0x78]
  | .X => [0x58]
  | .b => [0x62]
  | .p => [0x70]
  | .s => [0x73]
  | .c => [0x63]

/-- The words that the argument of a conversion takes. -/
def Specifier.words : Specifier → Nat
  | .ld => 2
  | .lx => 2
  | _ => 1

/-- The width that a run of digits says. -/
def decimalWidth (digits : CString) : Nat := value 10 (digits.map fun c => c.toNat - 0x30)

/-- `%[0][width]conv`. -/
structure FormatField where
  zero : Bool
  digits : CString
  specifier : Specifier
  isDigit : ∀ c ∈ digits, isWidthDigit c = true
  -- a zero in front of the width is the flag
  flag : zero = false → digits.head? ≠ some 0x30
  small : decimalWidth digits < 2 ^ 31

namespace FormatField

def width (f : FormatField) : Nat := decimalWidth f.digits

/-- A field, behind its `'%'`. -/
def text (f : FormatField) : CString :=
  (if f.zero then [0x30] else []) ++ (f.digits ++ f.specifier.letters)

end FormatField

/-- A piece of a format. -/
inductive FormatItem
  | char (c : UInt8) (ordinary : c ≠ 0x25 ∧ c ≠ 0)
  | percent
  | field (f : FormatField)

namespace FormatItem

def text : FormatItem → CString
  | char c _ => [c]
  | percent => [0x25, 0x25]
  | field f => 0x25 :: f.text

def words : FormatItem → Nat
  | field f => f.specifier.words
  | _ => 0

end FormatItem

/-- The format that is made of some pieces. -/
def formatOf (items : List FormatItem) : CString := items.flatMap FormatItem.text

/-! ## What is documented -/

/-- The digits of a number. -/
def numeralChars (base : Nat) (uppercase : Bool) (n : Nat) : CString :=
  (numeral base n).map (digitChar uppercase)

/-- A text with a sign or a prefix in front of it, padded on the left: zeros go behind the sign or
the prefix. -/
def padLeft (zero : Bool) (width : Nat) (lead body : CString) : CString :=
  if zero then lead ++ (List.replicate (width - (lead.length + body.length)) 0x30 ++ body)
  else List.replicate (width - (lead.length + body.length)) 0x20 ++ (lead ++ body)

/-- The number that a word of some bits stands for. -/
def signedValue (bits word : Nat) : Int := if 2 ^ (bits - 1) ≤ word then word - 2 ^ bits else word

/-- The sign of a number. -/
def signChars (v : Int) : CString := if v < 0 then [0x2d] else []

namespace FormatField

/-- What a field becomes, with its argument at `va`. -/
def rendered (f : FormatField) (args : VaArgs) (va : Nat) : CString :=
  match f.specifier with
  | .d =>
    let v := signedValue 32 (args.arg32 va)
    padLeft f.zero f.width (signChars v) (numeralChars 10 false v.natAbs)
  | .ld =>
    let v := signedValue 64 (args.arg64 va)
    padLeft f.zero f.width (signChars v) (numeralChars 10 false v.natAbs)
  | .x => padLeft f.zero f.width hexPrefix (numeralChars 16 false (args.arg32 va))
  | .lx => padLeft f.zero f.width hexPrefix (numeralChars 16 false (args.arg64 va))
  | .X => padLeft f.zero f.width upperHexPrefix (numeralChars 16 true (args.arg32 va))
  | .b => padLeft f.zero f.width [] (numeralChars 2 false (args.arg32 va))
  | .p => padLeft f.zero f.width hexPrefix (numeralChars 16 false (args.arg32 va))
  | .s => padLeft false f.width [] (args.string va)
  | .c => padLeft false f.width [] [args.char va]

/-- The field asks for no padding that the prefix gets in the way of. -/
def InWidth (f : FormatField) (args : VaArgs) (va : Nat) : Prop :=
  match f.specifier with
  | .x | .X => f.width ≤ (numeral 16 (args.arg32 va)).length
  | .lx => f.width ≤ (numeral 16 (args.arg64 va)).length
  | .p => f.zero = true ∨ f.width ≤ (numeral 16 (args.arg32 va)).length + 2
  | _ => True

end FormatField

/-- What a piece of a format becomes. -/
def FormatItem.rendered (args : VaArgs) (va : Nat) : FormatItem → CString
  | char c _ => [c]
  | percent => [0x25]
  | field f => f.rendered args va

/-- The text that is documented for a format, with the next argument at `va`. -/
def documented (args : VaArgs) : List FormatItem → Nat → CString
  | [], _ => []
  | item :: items, va => item.rendered args va ++ documented args items (va + item.words)

/-- The fields of a format, each with the first word of its argument. -/
def fieldsOf : List FormatItem → Nat → List (FormatField × Nat)
  | [], _ => []
  | .field f :: items, va => (f, va) :: fieldsOf items (va + f.specifier.words)
  | _ :: items, va => fieldsOf items va

/-- What `ksprintf` leaves in its buffer, up to `*out = '\0'`. -/
def Printed.stored (p : Printed) : List UInt8 := p.text ++ [0]

/-- **`ksprintf` meets its documentation** on a format: it stores the text that is documented and a
NUL, and returns the number of bytes in front of that. -/
def MeetsDocumentation (items : List FormatItem) (args : VaArgs) : Prop :=
  ∃ p, ksprintf (formatOf items) args = some p ∧ p.stored = documented args items 0 ++ [0] ∧
    p.count = (documented args items 0).length

/-! ## Numbers -/

theorem kuitoaDigits_eq {base : Nat} (hbase : 1 < base) (uppercase : Bool) (fuel n : Nat)
    (digits : List UInt8) (hn : n < base ^ fuel) :
    kuitoaDigits base uppercase fuel n digits =
      (Nat.digits base n).reverse.map (digitChar uppercase) ++ digits := by
  induction fuel generalizing n digits with
  | zero =>
    obtain rfl : n = 0 := by simpa using hn
    simp [kuitoaDigits]
  | succ fuel ih =>
    rw [kuitoaDigits]
    split_ifs with h0
    · simp [h0]
    · have hdiv : n / base < base ^ fuel := Nat.div_lt_of_lt_mul (by rwa [← Nat.pow_succ'])
      rw [ih _ _ hdiv, numeral_step hbase (Nat.pos_of_ne_zero h0)]
      simp

theorem digitChar_zero (uppercase : Bool) : digitChar uppercase 0 = 0x30 := by
  cases uppercase <;> rfl

/-- **`kuitoa` writes the digits of its value.** -/
theorem kuitoa_eq {base : Nat} (hbase : 1 < base) (uppercase : Bool) {n : Nat} (hn : n < 2 ^ 32) :
    kuitoa n base uppercase = numeralChars base uppercase n := by
  unfold kuitoa numeralChars numeral
  split_ifs with h0
  · simp [digitChar_zero]
  · rw [kuitoaDigits_eq hbase _ _ _ _ (hn.trans_le (Nat.pow_le_pow_left hbase 32))]
    simp

/-- **`kuitoa64` does so too**; `temp` is long enough from base 4 on. -/
theorem kuitoa64_eq {base : Nat} (hbase : 4 ≤ base) (uppercase : Bool) {n : Nat}
    (hn : n < 2 ^ 64) : kuitoa64 n base uppercase = numeralChars base uppercase n := by
  have hlarge : 2 ^ 64 ≤ base ^ 32 := (by decide : 2 ^ 64 ≤ 4 ^ 32).trans
    (Nat.pow_le_pow_left hbase 32)
  unfold kuitoa64 numeralChars numeral
  split_ifs with h0
  · simp [digitChar_zero]
  · rw [kuitoa64Digits_eq (by omega) _ _ _ _ hn,
      kuitoaDigits_eq (by omega) _ _ _ _ (hn.trans_le hlarge)]
    simp

theorem signedValue_nonneg (bits : Nat) {word : Nat} (h : ¬ 2 ^ (bits - 1) ≤ word) :
    signChars (signedValue bits word) = [] ∧ (signedValue bits word).natAbs = word := by
  rw [signedValue, if_neg h]
  exact ⟨if_neg (by omega), Int.natAbs_natCast word⟩

theorem signedValue_neg (bits : Nat) {word : Nat} (h : 2 ^ (bits - 1) ≤ word)
    (hword : word < 2 ^ bits) :
    signChars (signedValue bits word) = [0x2d] ∧
      (signedValue bits word).natAbs = 2 ^ bits - word := by
  have hlt : (word : Int) < 2 ^ bits := by exact_mod_cast hword
  rw [signedValue, if_pos h]
  refine ⟨if_pos (by omega), ?_⟩
  rw [← Int.natAbs_neg, neg_sub]
  have hcast : ((2 : Int) ^ bits - word) = ((2 ^ bits - word : Nat) : Int) := by
    rw [Nat.cast_sub hword.le]
    simp
  rw [hcast, Int.natAbs_natCast]

/-- **`kitoa` writes the sign and the digits**, also of the least number. -/
theorem kitoa_eq {word : Nat} (hword : word < 2 ^ 32) :
    kitoa word = signChars (signedValue 32 word) ++
      numeralChars 10 false (signedValue 32 word).natAbs := by
  unfold kitoa
  split_ifs with hneg
  · obtain ⟨hsign, habs⟩ := signedValue_neg 32 hneg hword
    rw [hsign, habs, kuitoa_eq (by decide) false (by omega)]
    rfl
  · obtain ⟨hsign, habs⟩ := signedValue_nonneg 32 hneg
    rw [hsign, habs, kuitoa_eq (by decide) false hword]
    rfl

theorem kitoa64_eq {word : Nat} (hword : word < 2 ^ 64) :
    kitoa64 word = signChars (signedValue 64 word) ++
      numeralChars 10 false (signedValue 64 word).natAbs := by
  unfold kitoa64
  split_ifs with hneg
  · obtain ⟨hsign, habs⟩ := signedValue_neg 64 hneg hword
    rw [hsign, habs, kuitoa64_eq (by decide) false (by omega)]
    rfl
  · obtain ⟨hsign, habs⟩ := signedValue_nonneg 64 hneg
    rw [hsign, habs, kuitoa64_eq (by decide) false hword]
    rfl

theorem length_numeralChars (base : Nat) (uppercase : Bool) (n : Nat) :
    (numeralChars base uppercase n).length = (numeral base n).length :=
  List.length_map _

/-- A numeral has no sign in it. -/
theorem numeralChars_no_minus {base : Nat} (hbase : 1 < base) (h16 : base ≤ 16) (uppercase : Bool)
    (n : Nat) : (0x2d : UInt8) ∉ numeralChars base uppercase n := by
  intro hmem
  obtain ⟨i, hi, hminus⟩ := List.mem_map.1 hmem
  have hlt : i < 16 := (numeral_lt hbase hi).trans_le h16
  revert hminus
  cases uppercase <;> interval_cases i <;> decide

/-! ## Padding -/

/-- The byte that a field is padded with. -/
def padByte (zero : Bool) : UInt8 := if zero then 0x30 else 0x20

namespace Ksprintf

/-- **`kprint_padded` pads on the left**, behind a sign if it pads with zeros. -/
theorem padded_text {lead body : CString} (hlead : lead = [] ∨ lead = [0x2d])
    (hbody : (0x2d : UInt8) ∉ body) (zero : Bool) (width : Nat) :
    (padded (lead ++ body) width (padByte zero)).text = padLeft zero width lead body := by
  have hpadding : ∀ len : Nat, (if width > len then width - len else 0) = width - len := by
    intro len
    split_ifs <;> omega
  unfold padded kprintPadded padLeft padByte kbufWrite
  simp only [hpadding]
  rcases hlead with rfl | rfl
  · have hhead : (([] ++ body) ++ [0] : CString).head? ≠ some 0x2d := by
      cases body with
      | nil => simp
      | cons c body => simpa using fun h : c = 0x2d => hbody (h ▸ List.mem_cons_self)
    rw [if_neg fun h => hhead h.1]
    cases zero <;> simp
  · cases zero with
    | false => simp [Nat.add_comm 1]
    | true =>
      by_cases hroom : width - (1 + body.length) > 0
      · have hroom' : 0 < width - (body.length + 1) := by omega
        simp [hroom', Nat.add_comm 1]
      · have hroom' : width - (body.length + 1) = 0 := by omega
        simp [hroom', Nat.add_comm 1]

/-- Text without a sign is padded with spaces in any case. -/
theorem padded_spaces (s : CString) (width : Nat) :
    (padded s width 0x20).text = padLeft false width [] s := by
  have hpadding : (if width > s.length then width - s.length else 0) = width - s.length := by
    split_ifs <;> omega
  unfold padded kprintPadded padLeft kbufWrite
  simp [hpadding]

/-- **The count is the length of the text**, as a 32-bit word. -/
theorem padded_count (s : CString) (width : Nat) (padChar : UInt8) :
    (padded s width padChar).count = u32 (padded s width padChar).text.length := by
  unfold padded kprintPadded kbufWrite
  dsimp only
  split_ifs with h1 h2 h2 <;> cases s <;> simp [Nat.add_comm, Nat.add_left_comm]

end Ksprintf

theorem u32_add_u32 (a b : Nat) : u32 (a + u32 b) = u32 (a + b) := by
  unfold u32
  omega

theorem Printed.prefixed_count {q : Printed} (hq : q.count = u32 q.text.length) {lead : CString}
    (hlead : lead.length = 2) :
    (q.prefixed lead).count = u32 (q.prefixed lead).text.length := by
  rw [prefixed, hq, u32_add_u32, List.length_append, hlead]

/-! ## One field -/

/-- How a text compares with the one that is documented: it is no shorter, and it is the same
exactly if `same` holds. -/
structure Compares (text promised : List UInt8) (same : Prop) : Prop where
  length : promised.length ≤ text.length
  text : text = promised ↔ same

theorem Compares.of_eq {text promised : List UInt8} (h : text = promised) :
    Compares text promised True :=
  ⟨h ▸ le_rfl, iff_of_true h trivial⟩

/-- **Texts that are never too short are equal only piece by piece.** -/
theorem Compares.append {text promised text' promised' : List UInt8} {same same' : Prop}
    (h : Compares text promised same) (h' : Compares text' promised' same') :
    Compares (text ++ text') (promised ++ promised') (same ∧ same') := by
  have hlength := h.length
  have hlength' := h'.length
  refine ⟨by rw [List.length_append, List.length_append]; omega, ?_⟩
  rw [← h.text, ← h'.text]
  refine ⟨fun heq => ?_, fun heq => by rw [heq.1, heq.2]⟩
  have htotal := congrArg List.length heq
  rw [List.length_append, List.length_append] at htotal
  exact List.append_inj heq (by omega)

theorem length_padLeft (zero : Bool) (width : Nat) (lead body : CString) :
    (padLeft zero width lead body).length = max width (lead.length + body.length) := by
  unfold padLeft
  split_ifs <;> simp only [List.length_append, List.length_replicate] <;> omega

/-- Without padding. -/
theorem padLeft_eq_append {width : Nat} {lead body : CString}
    (h : width ≤ lead.length + body.length) (zero : Bool) :
    padLeft zero width lead body = lead ++ body := by
  have hnone : width - (lead.length + body.length) = 0 := by omega
  unfold padLeft
  split_ifs <;> simp [hnone]

/-- A prefix in front of a number that is padded to the whole width. -/
theorem compares_prefixed {lead : CString} (hlead : lead.length = 2) (zero : Bool) (width : Nat)
    (body : CString) :
    Compares (lead ++ padLeft zero width [] body) (padLeft zero width lead body)
      (width ≤ body.length) := by
  have hlength : (lead ++ padLeft zero width [] body).length = 2 + max width body.length := by
    rw [List.length_append, hlead, length_padLeft, List.length_nil, Nat.zero_add]
  have hpromised := length_padLeft zero width lead body
  rw [hlead] at hpromised
  refine ⟨by omega, fun heq => ?_, fun hle => ?_⟩
  · have := congrArg List.length heq
    omega
  · rw [padLeft_eq_append (by simpa using hle), padLeft_eq_append (by omega), List.nil_append]

/-- The prefix of a pointer, in front of a number that is padded to two less. -/
theorem compares_pointer (zero : Bool) (width : Nat) (body : CString) :
    Compares (hexPrefix ++ padLeft zero (pointerWidth width) [] body)
      (padLeft zero width hexPrefix body) (zero = true ∨ width ≤ body.length + 2) := by
  have hwidth : pointerWidth width - (0 + body.length) = width - (2 + body.length) := by
    unfold pointerWidth
    split_ifs <;> omega
  have hlead : hexPrefix.length = 2 := rfl
  have hcode : padLeft zero (pointerWidth width) [] body =
      List.replicate (width - (2 + body.length)) (padByte zero) ++ body := by
    unfold padLeft padByte
    rw [List.length_nil, hwidth]
    split_ifs <;> simp
  refine ⟨?_, ?_⟩
  · rw [hcode, length_padLeft]
    simp only [List.length_append, List.length_replicate, hlead]
    omega
  · rw [hcode]
    cases zero with
    | true => simp [padLeft, padByte, hlead]
    | false =>
      by_cases hle : width ≤ body.length + 2
      · have hnone : width - (2 + body.length) = 0 := by omega
        simp [padLeft, hlead, hnone, hle]
      · -- the documented text starts with a space, the other one with the prefix
        obtain ⟨n, hn⟩ : ∃ n, width - (2 + body.length) = n + 1 :=
          ⟨width - (2 + body.length) - 1, by omega⟩
        refine iff_of_false (fun heq => ?_) (by simpa using hle)
        rw [padLeft, if_neg (by decide), hlead, hn, List.replicate_succ] at heq
        exact absurd (List.cons.inj heq).1 (by decide)

/-! ## Reading a field -/

/-- What `khandle_format` finds for a field. -/
def FormatField.directive (f : FormatField) (rest : CString) : Directive :=
  ⟨f.width, padByte f.zero, f.specifier.words == 2, f.specifier.letters.getLastD 0, rest⟩

/-- The width is read digit by digit. -/
theorem parseWidth_digits (front : CString) {digits rest : CString}
    (hdigits : ∀ c ∈ digits, isWidthDigit c = true)
    (hrest : ∀ c, rest.head? = some c → isWidthDigit c = false)
    (hsmall : decimalWidth (front ++ digits) < 2 ^ 32) :
    parseWidth (decimalWidth front) (digits ++ rest) = (decimalWidth (front ++ digits), rest) := by
  induction digits generalizing front with
  | nil =>
    rw [List.nil_append, List.append_nil]
    cases rest with
    | nil => rfl
    | cons c rest => rw [parseWidth, hrest c rfl, if_neg Bool.false_ne_true]
  | cons c digits ih =>
    have hassoc : front ++ c :: digits = (front ++ [c]) ++ digits := by simp
    have hstep : decimalWidth (front ++ [c]) = decimalWidth front * 10 + (c.toNat - 0x30) := by
      rw [decimalWidth, List.map_append, List.map_singleton, value_snoc]
      rfl
    have hle : decimalWidth (front ++ [c]) ≤ decimalWidth ((front ++ [c]) ++ digits) := by
      have h := value_le_append (show 0 < 10 by decide)
        ((front ++ [c]).map fun c => c.toNat - 0x30) (digits.map fun c => c.toNat - 0x30)
      rwa [← List.map_append] at h
    rw [hassoc] at hsmall ⊢
    rw [List.cons_append, parseWidth, if_pos (hdigits c List.mem_cons_self), ← hstep, u32,
      Nat.mod_eq_of_lt (hle.trans_lt hsmall)]
    exact ih _ (fun c' h => hdigits c' (List.mem_cons_of_mem c h)) hsmall

/-- The letters behind the width are no digits. -/
theorem Specifier.head_letters (spec : Specifier) (rest : CString) :
    ∃ c, (spec.letters ++ rest).head? = some c ∧ isWidthDigit c = false ∧ c ≠ 0x30 := by
  cases spec <;> exact ⟨_, rfl, by decide, by decide⟩

/-- **`khandle_format` finds the flag, the width and the conversion of a field.** -/
theorem parseDirective_field (f : FormatField) (rest : CString) :
    parseDirective (f.text ++ rest) = some (f.directive rest) := by
  obtain ⟨c, hc, hdigit, hzero⟩ := f.specifier.head_letters rest
  have hwidth : parseWidth 0 (f.digits ++ (f.specifier.letters ++ rest)) =
      (f.width, f.specifier.letters ++ rest) :=
    parseWidth_digits [] f.isDigit
      (fun c' h => by rw [Option.some.inj (h.symm.trans hc)]; exact hdigit)
      (f.small.trans (by decide))
  have hparse : kparseFormat (f.text ++ rest) =
      (f.width, f.zero, f.specifier.letters ++ rest) := by
    unfold kparseFormat FormatField.text
    cases hflag : f.zero with
    | true => simp [hwidth]
    | false =>
      have hhead : (f.digits ++ (f.specifier.letters ++ rest)).head? ≠ some 0x30 := by
        cases hdigits : f.digits with
        | nil =>
          rw [List.nil_append, hc]
          exact fun h => hzero (Option.some.inj h)
        | cons d digits =>
          have := f.flag hflag
          rw [hdigits] at this
          exact this
      rw [if_neg Bool.false_ne_true, List.nil_append, List.append_assoc, if_neg hhead, hwidth]
  unfold parseDirective FormatField.directive
  rw [hparse]
  cases f.specifier <;> rfl

/-! ## Writing a field -/

theorem VaArgs.arg32_lt (args : VaArgs) (va : Nat) : args.arg32 va < 2 ^ 32 :=
  Nat.mod_lt _ (by decide)

theorem signChars_cases (v : Int) : signChars v = [] ∨ signChars v = [0x2d] := by
  unfold signChars
  split_ifs
  · exact .inr rfl
  · exact .inl rfl

/-- A number with its sign. -/
theorem padded_signed (v : Int) (zero : Bool) (width : Nat) :
    (Ksprintf.padded (signChars v ++ numeralChars 10 false v.natAbs) width (padByte zero)).text =
      padLeft zero width (signChars v) (numeralChars 10 false v.natAbs) :=
  Ksprintf.padded_text (signChars_cases v)
    (numeralChars_no_minus (by decide) (by decide) false _) zero width

/-- A number without a sign. -/
theorem padded_numeral {base : Nat} (hbase : 1 < base) (h16 : base ≤ 16) (uppercase : Bool)
    (n : Nat) (zero : Bool) (width : Nat) :
    (Ksprintf.padded (numeralChars base uppercase n) width (padByte zero)).text =
      padLeft zero width [] (numeralChars base uppercase n) :=
  Ksprintf.padded_text (.inl rfl) (numeralChars_no_minus hbase h16 uppercase n) zero width

variable (args : VaArgs) (va : Nat)

/-- A hexadecimal number with its prefix. -/
theorem compares_hex {lead : CString} (hlead : lead.length = 2) (uppercase : Bool) (n : Nat)
    (zero : Bool) (width : Nat) :
    Compares
      ((Ksprintf.padded (numeralChars 16 uppercase n) width (padByte zero)).prefixed lead).text
      (padLeft zero width lead (numeralChars 16 uppercase n)) (width ≤ (numeral 16 n).length) := by
  rw [Printed.prefixed, padded_numeral (by decide) (by decide), ← length_numeralChars 16 uppercase]
  exact compares_prefixed hlead _ _ _

/-- **What `khandle_format` writes for a field**, compared with what is documented. -/
theorem khandleFormat_field (f : FormatField) (rest : CString) :
    Compares (Ksprintf.khandleFormat args va (f.directive rest)).1.text (f.rendered args va)
        (f.InWidth args va) ∧
      (Ksprintf.khandleFormat args va (f.directive rest)).1.count =
        u32 (Ksprintf.khandleFormat args va (f.directive rest)).1.text.length ∧
      (Ksprintf.khandleFormat args va (f.directive rest)).2 = va + f.specifier.words := by
  have h32 := args.arg32_lt va
  have h64 := args.arg64_lt va
  have hcount := Ksprintf.padded_count
  unfold Ksprintf.khandleFormat FormatField.rendered FormatField.InWidth FormatField.directive
  cases f.specifier with
  | d =>
    refine ⟨Compares.of_eq ?_, hcount _ _ _, rfl⟩
    show (Ksprintf.padded (kitoa _) _ _).text = _
    rw [kitoa_eq h32]
    exact padded_signed _ _ _
  | ld =>
    refine ⟨Compares.of_eq ?_, hcount _ _ _, rfl⟩
    show (Ksprintf.padded (kitoa64 _) _ _).text = _
    rw [kitoa64_eq h64]
    exact padded_signed _ _ _
  | x =>
    refine ⟨?_, Printed.prefixed_count (hcount _ _ _) rfl, rfl⟩
    show Compares ((Ksprintf.padded (kuitoa _ 16 false) _ _).prefixed hexPrefix).text _ _
    rw [kuitoa_eq (by decide) false h32]
    exact compares_hex rfl _ _ _ _
  | lx =>
    refine ⟨?_, Printed.prefixed_count (hcount _ _ _) rfl, rfl⟩
    show Compares ((Ksprintf.padded (kuitoa64 _ 16 false) _ _).prefixed hexPrefix).text _ _
    rw [kuitoa64_eq (by decide) false h64]
    exact compares_hex rfl _ _ _ _
  | X =>
    refine ⟨?_, Printed.prefixed_count (hcount _ _ _) rfl, rfl⟩
    show Compares ((Ksprintf.padded (kuitoa _ 16 true) _ _).prefixed upperHexPrefix).text _ _
    rw [kuitoa_eq (by decide) true h32]
    exact compares_hex rfl _ _ _ _
  | b =>
    refine ⟨Compares.of_eq ?_, hcount _ _ _, rfl⟩
    show (Ksprintf.padded (kuitoa _ 2 false) _ _).text = _
    rw [kuitoa_eq (by decide) false h32]
    exact padded_numeral (by decide) (by decide) _ _ _ _
  | p =>
    refine ⟨?_, Printed.prefixed_count (hcount _ _ _) rfl, rfl⟩
    show Compares ((Ksprintf.padded (kuitoa _ 16 false) _ _).prefixed hexPrefix).text _ _
    rw [kuitoa_eq (by decide) false h32, Printed.prefixed, padded_numeral (by decide) (by decide)]
    have h := compares_pointer f.zero f.width (numeralChars 16 false (args.arg32 va))
    rwa [length_numeralChars] at h
  | s => exact ⟨Compares.of_eq (Ksprintf.padded_spaces _ _), hcount _ _ _, rfl⟩
  | c =>
    exact ⟨Compares.of_eq (Ksprintf.padded_spaces [args.char va] f.width),
      hcount [args.char va] f.width 0x20, rfl⟩

/-! ## The whole format -/

variable {args va}

/-- A round of the loop at a directive. -/
theorem loop_directive {format : CString} {d : Directive} {fuel : Nat} {more : Printed}
    (hd : parseDirective format = some d)
    (hmore : Ksprintf.loop args fuel d.rest (Ksprintf.khandleFormat args va d).2 = some more) :
    Ksprintf.loop args (fuel + 1) (0x25 :: format) va =
      some ⟨(Ksprintf.khandleFormat args va d).1.text ++ more.text,
        u32 ((Ksprintf.khandleFormat args va d).1.count + more.count)⟩ := by
  have hne : format ≠ [] := by
    rintro rfl
    cases hd
  simp [Ksprintf.loop, hne, hd, hmore]

theorem parseDirective_percent (rest : CString) :
    parseDirective (0x25 :: rest) = some ⟨0, 0x20, false, 0x25, rest⟩ := rfl

/-- The counts of two texts, one behind the other. -/
theorem count_append {text more : List UInt8} {n k : Nat} (hn : n = u32 text.length)
    (hk : k = u32 more.length) : u32 (n + k) = u32 (text ++ more).length := by
  rw [hn, hk, List.length_append]
  unfold u32
  omega

variable (args)

/-- **The loop of `ksprintf` over the pieces of a format.** -/
theorem loop_items (items : List FormatItem) (va fuel : Nat)
    (hfuel : (formatOf items).length ≤ fuel) :
    ∃ q, Ksprintf.loop args fuel (formatOf items) va = some q ∧ q.count = u32 q.text.length ∧
      Compares q.text (documented args items va)
        (∀ f ∈ fieldsOf items va, f.1.InWidth args f.2) := by
  induction items generalizing va fuel with
  | nil => exact ⟨⟨[], 0⟩, by cases fuel <;> rfl, rfl, le_rfl, by simp [documented, fieldsOf]⟩
  | cons item items ih =>
    have hformat : formatOf (item :: items) = item.text ++ formatOf items := List.flatMap_cons
    rw [hformat, List.length_append] at hfuel
    rw [hformat]
    cases item with
    | char c ordinary =>
      obtain ⟨n, rfl⟩ : ∃ n, fuel = n + 1 := ⟨fuel - 1, by simp [FormatItem.text] at hfuel; omega⟩
      obtain ⟨q, hq, hcount, hcompares⟩ := ih va n (by simp [FormatItem.text] at hfuel; omega)
      refine ⟨⟨[c] ++ q.text, u32 (1 + q.count)⟩, ?_, count_append rfl hcount, ?_⟩
      · simp [FormatItem.text, Ksprintf.loop, ordinary.1, hq]
      · have h := (Compares.of_eq (rfl : [c] = [c])).append hcompares
        rwa [true_and] at h
    | percent =>
      obtain ⟨n, rfl⟩ : ∃ n, fuel = n + 1 := ⟨fuel - 1, by simp [FormatItem.text] at hfuel; omega⟩
      obtain ⟨q, hq, hcount, hcompares⟩ := ih va n (by simp [FormatItem.text] at hfuel; omega)
      refine ⟨⟨[0x25] ++ q.text, u32 (1 + q.count)⟩,
        loop_directive (parseDirective_percent _) hq, count_append rfl hcount, ?_⟩
      have h := (Compares.of_eq (rfl : ([0x25] : CString) = [0x25])).append hcompares
      rwa [true_and] at h
    | field f =>
      obtain ⟨n, rfl⟩ : ∃ n, fuel = n + 1 := ⟨fuel - 1, by simp [FormatItem.text] at hfuel; omega⟩
      obtain ⟨htext, hwritten, hnext⟩ := khandleFormat_field args va f (formatOf items)
      obtain ⟨q, hq, hcount, hcompares⟩ := ih (va + f.specifier.words) n (by
        simp [FormatItem.text] at hfuel
        omega)
      rw [← hnext] at hq
      refine ⟨_, loop_directive (parseDirective_field f _) hq, count_append hwritten hcount, ?_⟩
      show Compares _ _ (∀ g ∈ (f, va) :: fieldsOf items (va + f.specifier.words), _)
      rw [List.forall_mem_cons]
      exact htext.append hcompares

/-- **`ksprintf` writes what is documented exactly if the prefix of no number gets in the way of its
padding.**  Any format and arguments will do, as long as the text has a length. -/
theorem ksprintf_documented_iff (items : List FormatItem)
    (hfits : (documented args items 0).length < 2 ^ 32) :
    MeetsDocumentation items args ↔ ∀ f ∈ fieldsOf items 0, f.1.InWidth args f.2 := by
  obtain ⟨q, hq, hcount, hcompares⟩ := loop_items args items 0 _ le_rfl
  rw [← hcompares.text]
  constructor
  · rintro ⟨q', hq', htext, -⟩
    rw [ksprintf, hq] at hq'
    rw [Option.some.inj hq']
    exact List.append_cancel_right htext
  · intro htext
    refine ⟨q, hq, by rw [Printed.stored, htext], ?_⟩
    rw [hcount, htext, u32, Nat.mod_eq_of_lt hfits]

/-- The width `5`. -/
theorem five_isDigit : ∀ c ∈ ([0x35] : CString), isWidthDigit c = true :=
  List.forall_mem_singleton.2 rfl

theorem five_ne_flag : ([0x35] : CString).head? ≠ some 0x30 := by decide

theorem five_small : decimalWidth [0x35] < 2 ^ 31 := by decide

/-- `%05ld` -/
def longField : FormatField := ⟨true, [0x35], .ld, five_isDigit, fun _ => five_ne_flag, five_small⟩

/-- `%5x` -/
def hexField : FormatField := ⟨false, [0x35], .x, five_isDigit, fun _ => five_ne_flag, five_small⟩

/-- The two words of -42. -/
def minusArgs : VaArgs := { noArgs with word := fun i => [2 ^ 32 - 42, 2 ^ 32 - 1].getD i 0 }

/-- `"%05ld"` of -42: the zeros stand between the sign and the digits. -/
theorem ksprintf_documented_iff_long :
    MeetsDocumentation [.field longField] minusArgs ↔
      ∀ f ∈ fieldsOf [.field longField] 0, f.1.InWidth minusArgs f.2 :=
  ksprintf_documented_iff minusArgs _ (by decide)

/-- **`"%5x"` of 255**: the documentation says `" 0xff"`, and the buffer gets `"0x   ff"`. -/
theorem ksprintf_padded_hex :
    ¬ ∀ (items : List FormatItem) (args : VaArgs), (documented args items 0).length < 2 ^ 32 →
      MeetsDocumentation items args := by
  intro h
  have hcode : ksprintf (formatOf [.field hexField]) { noArgs with word := fun _ => 255 } =
      some ⟨[0x30, 0x78, 0x20, 0x20, 0x20, 0x66, 0x66], 7⟩ := by decide
  obtain ⟨p, hp, htext, -⟩ := h [.field hexField] { noArgs with word := fun _ => 255 } (by decide)
  obtain rfl : p = _ := Option.some.inj (hp.symm.trans hcode)
  exact absurd htext (by decide)

end DelOs
