import DelOs.Kstdlib.SprintfText
import DelOs.Lib.ByteMem

/-!
# Digits of numbers

`kuitoa`, `kdivmod_u64` and `kuitoa64` of `src/utils/kstdlib/kstdio/kprintf`, with the machine words
and the arrays that they work on.  `none` is a carry that leaves its 64 bits, a digit behind the
table of digits, or an access outside `temp`.  Both files have the same functions.

* `kdivmodU64`, `kuitoa`, `kuitoa64` — the functions of those names.
* `kdivmodU64_eq_some` — **the long division divides**, and its carry stays below the base.
* `kuitoa_spec`, `kuitoa64_spec` — the string in the buffer, and the returned length.
* `kuitoa_eq_text`, `kuitoa64_eq_text` — this is the text that the formatters are given.
* `Canonical` — a buffer with the digits of a number in a base.
* `digits_canonical` — **all conversions that are used leave the one canonical string.**
-/

namespace DelOs.DigitStrings

open Numerals ByteMem

/-! ## The functions -/

/-- The loop of `kdivmod_u64`, from bit `i - 1` of the value down. -/
def divmodLoop (value base : Nat) : Nat → Nat → Nat → Option (Nat × Nat)
  | 0, quotient, carry => some (quotient, carry)
  | i + 1, quotient, carry =>
    if 2 ^ 64 ≤ carry <<< 1 then none
    else
      let carry := (carry <<< 1) ||| ((value >>> i) &&& 1)
      if carry ≥ base then divmodLoop value base i (quotient ||| 1 <<< i) (carry - base)
      else divmodLoop value base i quotient carry

/-- `kdivmod_u64`: the quotient, and the word that it stores through `rem`. -/
def kdivmodU64 (value base : Nat) : Option (Nat × Nat) := do
  let (quotient, carry) ← divmodLoop value base 64 0 0
  return (quotient, u32 carry)

/-- `char temp[32]`. -/
abbrev Temp := Vector UInt8 32

/-- `digits[i]`; the table is a string. -/
def digitAt (uppercase : Bool) (i : Nat) : Option UInt8 := (digitChars uppercase ++ [0])[i]?

/-- `temp[i] = c`. -/
def storeTemp (temp : Temp) (i : Nat) (c : UInt8) : Option Temp :=
  if h : i < 32 then some (temp.set i c h) else none

/-- `while (value > 0)`, with the division of the value by the base; `temp` is full before the
fuel is used up. -/
def digitLoop (divmod : Nat → Option (Nat × Nat)) (uppercase : Bool) :
    Nat → Nat → Temp → Nat → Option (Temp × Nat)
  | 0, _, _, _ => none
  | fuel + 1, value, temp, i =>
    if value = 0 then some (temp, i)
    else do
      let (quotient, remainder) ← divmod value
      let digit ← digitAt uppercase remainder
      let temp ← storeTemp temp i digit
      digitLoop divmod uppercase fuel quotient temp (i + 1)

/-- `while (i > 0) { buffer[j++] = temp[--i]; }`, and the terminator. -/
def reverseLoop (temp : Temp) : Nat → Nat → Mem → Option (Nat × Mem)
  | 0, j, buffer => some (j, fun x => if x = j then 0 else buffer x)
  | i + 1, j, buffer => do
    let c ← temp[i]?
    reverseLoop temp i (j + 1) (fun x => if x = j then c else buffer x)

/-- The body of `kuitoa` and of `kuitoa64`: the length, and the bytes from `buffer` on, which may be
a null pointer. -/
def kuitoaVia (divmod : Nat → Option (Nat × Nat)) (value : Nat) (buffer : Option Mem)
    (uppercase : Bool) (temp : Temp) : Option (Nat × Option Mem) :=
  match buffer with
  | none => some (0, none)
  | some buffer =>
    if value = 0 then
      some (1, some fun x => if x = 1 then 0 else if x = 0 then 0x30 else buffer x)
    else do
      let (temp, i) ← digitLoop divmod uppercase 33 value temp 0
      let (j, buffer) ← reverseLoop temp i 0 buffer
      return (j, some buffer)

/-- `kuitoa`, which divides with `/` and `%`. -/
def kuitoa (value base : Nat) (buffer : Option Mem) (uppercase : Bool) (temp : Temp) :
    Option (Nat × Option Mem) :=
  kuitoaVia (fun value => if base = 0 then none else some (value / base, value % base)) value buffer
    uppercase temp

/-- `kuitoa64`, which divides with `kdivmod_u64`. -/
def kuitoa64 (value base : Nat) (buffer : Option Mem) (uppercase : Bool) (temp : Temp) :
    Option (Nat × Option Mem) :=
  kuitoaVia (fun value => kdivmodU64 value base) value buffer uppercase temp

/-! ## The long division -/

/-- Shifting a bit into the carry. -/
theorem shift_in (carry value i : Nat) :
    (carry <<< 1) ||| ((value >>> i) &&& 1) = 2 * carry + value / 2 ^ i % 2 := by
  have hbit : value / 2 ^ i % 2 < 2 ^ 1 := Nat.mod_lt _ Nat.zero_lt_two
  have hor := Nat.two_pow_add_eq_or_of_lt hbit carry
  rw [Nat.shiftLeft_eq, Nat.shiftRight_eq_div_pow, Nat.and_one_is_mod, Nat.mul_comm carry, ← hor,
    Nat.pow_one]

/-- Setting a bit below all the others. -/
theorem set_bit {quotient i : Nat} (h : 2 ^ (i + 1) ∣ quotient) :
    quotient ||| 1 <<< i = quotient + 2 ^ i := by
  obtain ⟨high, rfl⟩ := h
  have hlow : 2 ^ i < 2 ^ (i + 1) := Nat.pow_lt_pow_succ Nat.one_lt_two
  rw [Nat.one_shiftLeft, Nat.two_pow_add_eq_or_of_lt hlow]

/-- **The carry stays below the base, so that no shift overflows**, and the bits of the quotient are
set from the highest one down. -/
theorem divmodLoop_eq {value base : Nat} (hbase : base < 2 ^ 32) (i quotient carry : Nat)
    (hcarry : carry < base) (hquotient : 2 ^ i ∣ quotient) :
    divmodLoop value base i quotient carry = some (kdivmodLoop value base i quotient carry) := by
  induction i generalizing quotient carry with
  | zero => rfl
  | succ i ih =>
    have hshift : ¬ 2 ^ 64 ≤ carry <<< 1 := by
      rw [Nat.shiftLeft_eq]
      omega
    have hbit : value / 2 ^ i % 2 < 2 := Nat.mod_lt _ Nat.zero_lt_two
    have hhigh : 2 ^ i ∣ quotient := (Nat.pow_dvd_pow 2 (Nat.le_succ i)).trans hquotient
    simp only [divmodLoop, kdivmodLoop, if_neg hshift, shift_in, set_bit hquotient, ge_iff_le]
    split_ifs with hle
    · exact ih _ _ (by omega) (Nat.dvd_add hhigh (Nat.dvd_refl _))
    · exact ih _ _ (Nat.not_le.1 hle) hhigh

/-- **The long division divides.** -/
theorem kdivmodU64_eq_some {value base : Nat} (hvalue : value < 2 ^ 64) (hpos : 0 < base)
    (hbase : base < 2 ^ 32) : kdivmodU64 value base = some (value / base, value % base) := by
  have hrem : u32 (value % base) = value % base := u32_eq ((Nat.mod_lt _ hpos).trans hbase)
  have hloop : kdivmodLoop value base 64 0 0 = (value / base, value % base) :=
    kdivmodU64_eq hpos hvalue
  rw [kdivmodU64, divmodLoop_eq hbase 64 0 0 hpos (Nat.dvd_zero _), hloop]
  simp only [Option.bind_eq_bind, Option.bind_some, hrem, Option.pure_def]

/-! ## The two loops -/

theorem digitAt_eq (uppercase : Bool) {i : Nat} (hi : i < 16) :
    digitAt uppercase i = some (digitChar uppercase i) := by
  have hlength : (digitChars uppercase).length = 16 := by cases uppercase <;> rfl
  rw [digitAt, List.getElem?_append_left (hlength ▸ hi), digitChar, List.getD_eq_getElem?_getD,
    List.getElem?_eq_getElem (hlength ▸ hi), Option.getD_some]

/-- A store behind what `temp` begins with. -/
theorem storeTemp_eq {temp : Temp} {front : List UInt8} (hfront : front <+: temp.toList)
    (hroom : front.length < 32) (c : UInt8) :
    ∃ temp', storeTemp temp front.length c = some temp' ∧ front ++ [c] <+: temp'.toList := by
  refine ⟨temp.set front.length c hroom, dif_pos hroom, ?_⟩
  obtain ⟨rest, hrest⟩ := hfront
  have hlength : front.length + rest.length = 32 := by
    rw [← List.length_append, hrest, Vector.length_toList]
  rw [Vector.toList_set, ← hrest]
  cases rest with
  | nil =>
    rw [List.length_nil] at hlength
    omega
  | cons r rest =>
    rw [List.set_append_right _ _ le_rfl, Nat.sub_self, List.set_cons_zero]
    exact ⟨rest, by rw [List.append_assoc, List.singleton_append]⟩

/-- A division that is right for the values below a bound. -/
def DividesBelow (bound base : Nat) (divmod : Nat → Option (Nat × Nat)) : Prop :=
  ∀ value < bound, divmod value = some (value / base, value % base)

section Loops

variable {bound base : Nat} {divmod : Nat → Option (Nat × Nat)}

/-- **The digits are stored from the last one on**, each behind those that are already found. -/
theorem digitLoop_eq (hdivmod : DividesBelow bound base divmod) (hbase : 1 < base)
    (h16 : base ≤ 16) (uppercase : Bool) (fuel : Nat) {value : Nat} (hvalue : value < bound)
    {temp : Temp} {front : List UInt8} (hfront : front <+: temp.toList)
    (hfuel : (Nat.digits base value).length < fuel)
    (hroom : front.length + (Nat.digits base value).length ≤ 32) :
    ∃ temp', digitLoop divmod uppercase fuel value temp front.length =
        some (temp', front.length + (Nat.digits base value).length) ∧
      front ++ (Nat.digits base value).map (digitChar uppercase) <+: temp'.toList := by
  induction fuel generalizing value temp front with
  | zero => exact absurd hfuel (Nat.not_lt_zero _)
  | succ fuel ih =>
    rw [digitLoop]
    split_ifs with h0
    · subst h0
      exact ⟨temp, by simp, by simpa using hfront⟩
    · have hdigits := Nat.digits_def' hbase (Nat.pos_of_ne_zero h0)
      rw [hdigits, List.length_cons] at hfuel hroom
      obtain ⟨temp₁, hstore, hfront₁⟩ :=
        storeTemp_eq hfront (by omega) (digitChar uppercase (value % base))
      obtain ⟨temp', hloop, htemp'⟩ := ih (Nat.div_le_self value base |>.trans_lt hvalue) hfront₁
        (by omega) (by rw [List.length_append, List.length_singleton]; omega)
      have hdigit := digitAt_eq uppercase
        ((Nat.mod_lt value (Nat.zero_lt_of_lt hbase)).trans_le h16)
      refine ⟨temp', ?_, ?_⟩
      · rw [List.length_append, List.length_singleton] at hloop
        simp only [hdivmod value hvalue, Option.bind_eq_bind, Option.bind_some, hdigit, hstore,
          hloop, hdigits, List.length_cons]
        congr 2
        omega
      · rwa [hdigits, List.map_cons, List.append_cons]

/-- **The second loop turns the order round** and ends the string. -/
theorem reverseLoop_eq {temp : Temp} {ds : List UInt8} (hds : ds <+: temp.toList) (j : Nat)
    (buffer : Mem) :
    reverseLoop temp ds.length j buffer =
      some (j + ds.length, writeBytes buffer j (ds.reverse ++ [0])) := by
  induction ds using List.reverseRecOn generalizing j buffer with
  | nil =>
    rw [List.reverse_nil, List.nil_append, writeBytes_cons, writeBytes_nil]
    rfl
  | append_singleton ds c ih =>
    have hlast : temp[ds.length]? = some c := by
      rw [← Vector.getElem?_toList, List.prefix_iff_getElem?.1 hds ds.length (by simp),
        List.getElem_concat_length rfl]
    have hfront : ds <+: temp.toList := (List.prefix_append ds [c]).trans hds
    rw [List.length_append, List.length_singleton, reverseLoop, hlast, Option.bind_eq_bind,
      Option.bind_some, ih hfront, List.reverse_append, List.reverse_singleton,
      List.singleton_append, List.cons_append, writeBytes_cons]
    congr 2
    omega

/-- The string that is left in the buffer, if `temp` has room for the largest value. -/
theorem kuitoaVia_eq (hdivmod : DividesBelow bound base divmod) (hbase : 1 < base) (h16 : base ≤ 16)
    (hbound : bound ≤ base ^ 32) (uppercase : Bool) {value : Nat} (hvalue : value < bound)
    (buffer : Mem) (temp : Temp) :
    kuitoaVia divmod value (some buffer) uppercase temp =
      some ((numeralChars base uppercase value).length,
        some (writeBytes buffer 0 (numeralChars base uppercase value ++ [0]))) := by
  rw [kuitoaVia, numeralChars, numeral]
  split_ifs with h0
  · rw [List.map_singleton, digitChar_zero, List.singleton_append, writeBytes_cons,
      writeBytes_cons, writeBytes_nil]
    rfl
  · have hroom : (Nat.digits base value).length ≤ 32 :=
      (Nat.digits_length_le_iff hbase value).2 (hvalue.trans_le hbound)
    obtain ⟨temp', hloop, hdigits⟩ := digitLoop_eq hdivmod hbase h16 uppercase 33 hvalue
      (List.nil_prefix (l := temp.toList)) (by omega) (by rw [List.length_nil]; omega)
    rw [List.length_nil, Nat.zero_add] at hloop
    have hreverse := reverseLoop_eq hdigits 0 buffer
    rw [List.nil_append, List.length_map, Nat.zero_add] at hreverse
    simp only [hloop, Option.bind_eq_bind, Option.bind_some, hreverse, Option.pure_def,
      List.length_map, List.length_reverse, List.map_reverse]

end Loops

/-! ## The functions that are called -/

section Strings

variable {value base : Nat} (uppercase : Bool) (buffer : Mem) (temp : Temp)

/-- **`kuitoa`**: 32 binary digits just fit. -/
theorem kuitoa_spec (hbase : 1 < base) (h16 : base ≤ 16) (hvalue : value < 2 ^ 32) :
    kuitoa value base (some buffer) uppercase temp =
      some ((numeralChars base uppercase value).length,
        some (writeBytes buffer 0 (numeralChars base uppercase value ++ [0]))) :=
  kuitoaVia_eq (fun _ _ => if_neg (by omega)) hbase h16 (Nat.pow_le_pow_left hbase 32) uppercase
    hvalue buffer temp

/-- **`kuitoa64`**: from base 4 on, 32 digits are enough. -/
theorem kuitoa64_spec (hbase : 4 ≤ base) (h16 : base ≤ 16) (hvalue : value < 2 ^ 64) :
    kuitoa64 value base (some buffer) uppercase temp =
      some ((numeralChars base uppercase value).length,
        some (writeBytes buffer 0 (numeralChars base uppercase value ++ [0]))) := by
  have hroom : 2 ^ 64 ≤ base ^ 32 :=
    (Nat.pow_mul 2 2 32).le.trans (Nat.pow_le_pow_left hbase 32)
  exact kuitoaVia_eq (fun _ hv => kdivmodU64_eq_some hv (by omega) (by omega)) (by omega) h16 hroom
    uppercase hvalue buffer temp

/-- What the formatters print is what stands in the buffer. -/
theorem kuitoa_eq_text (hbase : 1 < base) (h16 : base ≤ 16) (hvalue : value < 2 ^ 32) :
    kuitoa value base (some buffer) uppercase temp =
      some ((DelOs.kuitoa value base uppercase).length,
        some (writeBytes buffer 0 (DelOs.kuitoa value base uppercase ++ [0]))) := by
  rw [kuitoa_spec uppercase buffer temp hbase h16 hvalue, kuitoa_eq hbase uppercase hvalue]

theorem kuitoa64_eq_text (hbase : 4 ≤ base) (h16 : base ≤ 16) (hvalue : value < 2 ^ 64) :
    kuitoa64 value base (some buffer) uppercase temp =
      some ((DelOs.kuitoa64 value base uppercase).length,
        some (writeBytes buffer 0 (DelOs.kuitoa64 value base uppercase ++ [0]))) := by
  rw [kuitoa64_spec uppercase buffer temp hbase h16 hvalue, kuitoa64_eq hbase uppercase hvalue]

end Strings

/-! ## Canonical strings -/

/-- A buffer begins with the digits `ds` of the number `n`, as a string of `len` characters, and is
otherwise as before. -/
structure Canonical (base : Nat) (uppercase : Bool) (n : Nat) (before : Mem) (len : Nat)
    (after : Mem) (ds : List Nat) : Prop where
  digit : ∀ d ∈ ds, d < base
  denotes : value base ds = n
  nonempty : ds ≠ []
  noLeadingZero : ds.head? = some 0 → ds = [0]
  count : len = ds.length
  string : readBytes after 0 (len + 1) = ds.map (digitChar uppercase) ++ [0]
  noZero : 0 ∉ ds.map (digitChar uppercase)
  frame : ∀ x, len < x → after x = before x

theorem zero_not_mem_digitChars (uppercase : Bool) {ds : List Nat} (h : ∀ d ∈ ds, d < 16) :
    0 ∉ ds.map (digitChar uppercase) := by
  intro hzero
  obtain ⟨d, hd, hchar⟩ := List.mem_map.1 hzero
  exact digitChar_ne_zero uppercase (h d hd) hchar

/-- Storing the numeral and a terminator leaves the canonical string. -/
theorem canonical_writeBytes {base : Nat} (hbase : 1 < base) (h16 : base ≤ 16) (uppercase : Bool)
    (n : Nat) (buffer : Mem) :
    Canonical base uppercase n buffer (numeralChars base uppercase n).length
      (writeBytes buffer 0 (numeralChars base uppercase n ++ [0])) (numeral base n) where
  digit _ hd := numeral_lt hbase hd
  denotes := value_numeral n
  nonempty := numeral_ne_nil n
  noLeadingZero := numeral_head
  count := List.length_map _
  string := by
    have h := readBytes_writeBytes buffer 0 (numeralChars base uppercase n ++ [0])
    rwa [List.length_append, List.length_singleton] at h
  noZero := zero_not_mem_digitChars uppercase fun _ hd => (numeral_lt hbase hd).trans_le h16
  frame x hx := by
    refine writeBytes_of_outside buffer (Or.inr ?_)
    rw [List.length_append, List.length_singleton]
    omega

/-- **Numbers are converted to canonical digits**: the division is exact and its carry does not
overflow, whatever the base; the string has no leading zero, its digits are worth the value, the
returned count is its length, and no store leaves `temp`. -/
theorem digits_canonical (uppercase : Bool) (temp : Temp) (buffer : Mem) :
    (∀ value base, value < 2 ^ 64 → 2 ≤ base → base < 2 ^ 32 →
      kdivmodU64 value base = some (value / base, value % base)) ∧
    (∀ value base, value < 2 ^ 32 → base = 2 ∨ base = 10 ∨ base = 16 →
      ∃ len after ds, kuitoa value base (some buffer) uppercase temp = some (len, some after) ∧
        Canonical base uppercase value buffer len after ds) ∧
    (∀ value base, value < 2 ^ 64 → base = 10 ∨ base = 16 →
      ∃ len after ds, kuitoa64 value base (some buffer) uppercase temp = some (len, some after) ∧
        Canonical base uppercase value buffer len after ds) := by
  refine ⟨fun value base hvalue h2 h32 => ?_, fun value base hvalue hbase => ?_,
    fun value base hvalue hbase => ?_⟩
  · exact kdivmodU64_eq_some hvalue (by omega) h32
  · exact ⟨_, _, _, kuitoa_spec uppercase buffer temp (by omega) (by omega) hvalue,
      canonical_writeBytes (by omega) (by omega) uppercase value buffer⟩
  · exact ⟨_, _, _, kuitoa64_spec uppercase buffer temp (by omega) (by omega) hvalue,
      canonical_writeBytes (by omega) (by omega) uppercase value buffer⟩

/-- The largest base, and the value whose binary digits fill `temp`. -/
theorem digits_canonical_largest :
    kdivmodU64 (2 ^ 64 - 1) (2 ^ 32 - 1) = some (2 ^ 32 + 1, 0) ∧
      ∃ len after ds,
        kuitoa (2 ^ 32 - 1) 2 (some fun _ => 0) false (Vector.replicate 32 0) =
          some (len, some after) ∧
        Canonical 2 false (2 ^ 32 - 1) (fun _ => 0) len after ds := by
  have h := digits_canonical false (Vector.replicate 32 0) fun _ => 0
  exact ⟨h.1 _ _ (by norm_num) (by norm_num) (by norm_num),
    h.2.1 _ _ (by norm_num) (Or.inl rfl)⟩

end DelOs.DigitStrings
