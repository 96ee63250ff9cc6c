import DelOs.Kstdlib.Kprintf

/-!
# Two copies of one formatter

`ksprintf` is documented to support the same directives as `kprintf`.

* `kdivmodU64_eq` — the long division of the 64-bit numbers.
* `padded_eq` — the two copies of `kprint_padded` agree on every string.
* `directives` — the directives of a format, and where their arguments are.
* `printf_agree_iff` — **the two print the same text exactly if no unknown directive has text behind
  it**, and always return the same count.
* `printf_unknown_differs` — a format on which they differ.
-/

namespace DelOs

/-! ## Numbers -/

/-- The bits that are left, below the carry. -/
theorem kdivmodLoop_eq {value base : Nat} (hbase : 0 < base) (i quotient carry : Nat)
    (hcarry : carry < base) :
    kdivmodLoop value base i quotient carry =
      (quotient + (carry * 2 ^ i + value % 2 ^ i) / base,
        (carry * 2 ^ i + value % 2 ^ i) % base) := by
  induction i generalizing quotient carry with
  | zero =>
    have hlast : carry * 2 ^ 0 + value % 2 ^ 0 = carry := by
      rw [Nat.pow_zero, Nat.mod_one, Nat.mul_one, Nat.add_zero]
    rw [hlast, Nat.div_eq_of_lt hcarry, Nat.mod_eq_of_lt hcarry]
    rfl
  | succ i ih =>
    have hbit : value / 2 ^ i % 2 < 2 := Nat.mod_lt _ (by decide)
    have hsplit : value % 2 ^ (i + 1) = value % 2 ^ i + 2 ^ i * (value / 2 ^ i % 2) := by
      rw [Nat.pow_succ, Nat.mod_mul]
    have hsum : carry * 2 ^ (i + 1) + value % 2 ^ (i + 1) =
        (2 * carry + value / 2 ^ i % 2) * 2 ^ i + value % 2 ^ i := by
      rw [hsplit]
      ring
    have hnext : 2 * carry + value / 2 ^ i % 2 < 2 * base := by omega
    rw [hsum]
    simp only [kdivmodLoop]
    generalize 2 * carry + value / 2 ^ i % 2 = next at *
    split_ifs with hle
    · have hpeel : next * 2 ^ i + value % 2 ^ i =
          ((next - base) * 2 ^ i + value % 2 ^ i) + base * 2 ^ i := by
        have : next * 2 ^ i = (next - base) * 2 ^ i + base * 2 ^ i := by
          rw [← Nat.add_mul, Nat.sub_add_cancel hle]
        omega
      rw [ih _ _ (by omega), hpeel, Nat.add_mul_div_left _ _ hbase, Nat.add_mul_mod_self_left]
      congr 1
      omega
    · exact ih _ _ (not_le.1 hle)

/-- **The long division divides.** -/
theorem kdivmodU64_eq {value base : Nat} (hbase : 0 < base) (hvalue : value < 2 ^ 64) :
    kdivmodU64 value base = (value / base, value % base) := by
  rw [kdivmodU64, kdivmodLoop_eq hbase _ _ _ hbase, Nat.mod_eq_of_lt hvalue]
  simp

/-- The digits of the two widths are found in the same way. -/
theorem kuitoa64Digits_eq {base : Nat} (hbase : 0 < base) (uppercase : Bool) (fuel value : Nat)
    (digits : List UInt8) (hvalue : value < 2 ^ 64) :
    kuitoa64Digits base uppercase fuel value digits =
      kuitoaDigits base uppercase fuel value digits := by
  induction fuel generalizing value digits with
  | zero => rfl
  | succ fuel ih =>
    rw [kuitoa64Digits, kuitoaDigits, kdivmodU64_eq hbase hvalue]
    split_ifs with h0
    · rfl
    · exact ih _ _ ((Nat.div_le_self _ _).trans_lt hvalue)

theorem digitChar_ne_zero (uppercase : Bool) {i : Nat} (hi : i < 16) :
    digitChar uppercase i ≠ 0 := by
  cases uppercase <;> interval_cases i <;> decide

/-- A number has no zero byte. -/
theorem zero_not_mem_kuitoaDigits {base : Nat} (hbase : 0 < base) (h16 : base ≤ 16)
    (uppercase : Bool) (fuel value : Nat) {digits : List UInt8} (hdigits : (0 : UInt8) ∉ digits) :
    (0 : UInt8) ∉ kuitoaDigits base uppercase fuel value digits := by
  induction fuel generalizing value digits with
  | zero => exact hdigits
  | succ fuel ih =>
    rw [kuitoaDigits]
    split_ifs with h0
    · exact hdigits
    · refine ih _ fun hmem => ?_
      rcases List.mem_cons.1 hmem with hzero | hmem
      · exact digitChar_ne_zero uppercase ((Nat.mod_lt _ hbase).trans_le h16) hzero.symm
      · exact hdigits hmem

theorem zero_not_mem_kuitoa {base : Nat} (hbase : 0 < base) (h16 : base ≤ 16) (uppercase : Bool)
    (value : Nat) : (0 : UInt8) ∉ kuitoa value base uppercase := by
  unfold kuitoa
  split_ifs
  · decide
  · exact zero_not_mem_kuitoaDigits hbase h16 _ _ _ List.not_mem_nil

theorem zero_not_mem_kuitoa64 {base : Nat} (hbase : 0 < base) (h16 : base ≤ 16)
    (uppercase : Bool) {value : Nat} (hvalue : value < 2 ^ 64) :
    (0 : UInt8) ∉ kuitoa64 value base uppercase := by
  unfold kuitoa64
  split_ifs
  · decide
  · rw [kuitoa64Digits_eq hbase _ _ _ _ hvalue]
    exact zero_not_mem_kuitoaDigits hbase h16 _ _ _ List.not_mem_nil

theorem zero_not_mem_kitoa (value : Nat) : (0 : UInt8) ∉ kitoa value := by
  have hdigits := zero_not_mem_kuitoa (show 0 < 10 by decide) (by decide) false
  unfold kitoa
  split_ifs
  · exact fun hmem => (List.mem_cons.1 hmem).elim (by decide) (hdigits _)
  · exact hdigits _

theorem zero_not_mem_kitoa64 {value : Nat} (hvalue : value < 2 ^ 64) :
    (0 : UInt8) ∉ kitoa64 value := by
  have hdigits := fun {v : Nat} (hv : v < 2 ^ 64) =>
    zero_not_mem_kuitoa64 (show 0 < 10 by decide) (by decide) false hv
  unfold kitoa64
  split_ifs
  · exact fun hmem => (List.mem_cons.1 hmem).elim (by decide) (hdigits (by omega))
  · exact hdigits hvalue

theorem VaArgs.arg64_lt (args : VaArgs) (va : Nat) : args.arg64 va < 2 ^ 64 := by
  have h1 : args.arg32 va < 2 ^ 32 := Nat.mod_lt _ (by decide)
  have h2 : args.arg32 (va + 1) < 2 ^ 32 := Nat.mod_lt _ (by decide)
  unfold VaArgs.arg64
  omega

theorem VaArgs.zero_not_mem_string (args : VaArgs) (va : Nat) :
    (0 : UInt8) ∉ args.string va := by
  unfold VaArgs.string
  split_ifs
  · decide
  · exact (args.str _).2

/-! ## One directive -/

/-- What is sent of a string in a buffer is what is stored of it. -/
theorem kttyPuts_eq_kbufWrite {s : CString} (hs : (0 : UInt8) ∉ s) :
    Kprintf.kttyPuts (s ++ [0]) = Ksprintf.kbufWrite (s ++ [0]) s.length := by
  have hall : ∀ c ∈ s, decide (c ≠ 0) = true := by
    intro c hc
    simp only [decide_eq_true_eq]
    rintro rfl
    exact hs hc
  rw [Kprintf.kttyPuts, Ksprintf.kbufWrite, List.takeWhile_append_of_pos hall, List.take_left]
  simp

/-- **The two copies of `kprint_padded` agree** on a string in a buffer. -/
theorem padded_eq {s : CString} (hs : (0 : UInt8) ∉ s) (width : Nat) (padChar : UInt8) :
    Kprintf.padded s width padChar = Ksprintf.padded s width padChar := by
  unfold Kprintf.padded Ksprintf.padded Kprintf.kprintPadded Ksprintf.kprintPadded
  cases s with
  | nil =>
    have := kttyPuts_eq_kbufWrite hs
    simp only [List.nil_append] at this ⊢
    simp [this]
  | cons c s =>
    have htail := kttyPuts_eq_kbufWrite (s := s) fun h => hs (List.mem_cons_of_mem c h)
    have hall := kttyPuts_eq_kbufWrite hs
    have hminus : Kprintf.kttyPuts [0x2d] = [0x2d] := by decide
    simp only [List.cons_append, List.tail_cons, List.length_cons, Nat.add_sub_cancel] at *
    rw [htail, hall, hminus]
    rfl

/-- The argument words that a directive takes. -/
def argWords (d : Directive) : Nat :=
  match conversionOf d.letter with
  | .decimal => if d.isLong then 2 else 1
  | .hex => if d.isLong then 2 else 1
  | .percent => 0
  | .unknown => 0
  | _ => 1

theorem khandleFormat_args (args : VaArgs) (va : Nat) (d : Directive) :
    (Kprintf.khandleFormat args va d).2 = va + argWords d ∧
      (Ksprintf.khandleFormat args va d).2 = va + argWords d := by
  unfold Kprintf.khandleFormat Ksprintf.khandleFormat argWords
  cases conversionOf d.letter <;> cases d.isLong <;> exact ⟨rfl, rfl⟩

/-- **A known directive prints the same.** -/
theorem khandleFormat_known (args : VaArgs) (va : Nat) {d : Directive}
    (hknown : conversionOf d.letter ≠ .unknown)
    (hchar : conversionOf d.letter = .char → args.char va ≠ 0) :
    Kprintf.khandleFormat args va d = Ksprintf.khandleFormat args va d := by
  have h16 : ∀ {uppercase value}, (0 : UInt8) ∉ kuitoa value 16 uppercase :=
    zero_not_mem_kuitoa (by decide) (by decide) _ _
  unfold Kprintf.khandleFormat Ksprintf.khandleFormat
  cases hconv : conversionOf d.letter with
  | decimal =>
    simp only [padded_eq (zero_not_mem_kitoa _), padded_eq (zero_not_mem_kitoa64 (args.arg64_lt va))]
  | hex =>
    simp only [padded_eq h16, padded_eq (zero_not_mem_kuitoa64 (show 0 < 16 by decide) (by decide)
      false (args.arg64_lt va))]
  | upperHex => simp only [padded_eq h16]
  | binary =>
    simp only [padded_eq (zero_not_mem_kuitoa (show 0 < 2 by decide) (by decide) false _)]
  | pointer => simp only [padded_eq h16]
  | string => simp only [padded_eq (args.zero_not_mem_string va)]
  | char =>
    have hne := hchar hconv
    have hs : (0 : UInt8) ∉ [args.char va] := by simpa using hne.symm
    exact congrArg (fun p => (p, va + 1)) (padded_eq hs d.width 0x20)
  | percent => rfl
  | unknown => exact absurd hconv hknown

/-! ## A whole format -/

/-- The directives of a format, each with the first of its arguments; `none` if the format ends
inside one. -/
def directives : Nat → CString → Nat → Option (List (Directive × Nat))
  | _, [], _ => some []
  | 0, _, _ => none
  | fuel + 1, c :: format, va =>
    if c = 0x25 ∧ format ≠ [] then do
      let d ← parseDirective format
      let more ← directives fuel d.rest (va + argWords d)
      return (d, va) :: more
    else directives fuel format va

/-- What the two formatters have printed: the same count, the text of the second one no longer, and
the same text exactly if `same` holds. -/
structure Agree (p q : Printed) (same : Prop) : Prop where
  count : p.count = q.count
  length : q.text.length ≤ p.text.length
  text : p.text = q.text ↔ same

/-- Behind the same text. -/
theorem Agree.after {p q : Printed} {same : Prop} (h : Agree p q same) (text : List UInt8)
    (n : Nat) : Agree ⟨text ++ p.text, u32 (n + p.count)⟩ ⟨text ++ q.text, u32 (n + q.count)⟩ same :=
  ⟨by rw [h.count], by simpa using h.length, by rw [List.append_cancel_left_eq, h.text]⟩

/-- The loops agree as long as the unknown directives are the last ones. -/
theorem loop_agree (args : VaArgs) (fuel : Nat) (format : CString) (va : Nat)
    {ds : List (Directive × Nat)} (hds : directives fuel format va = some ds)
    (hchar : ∀ d ∈ ds, conversionOf d.1.letter = .char → args.char d.2 ≠ 0) :
    ∃ p q, Kprintf.loop args fuel format va = some p ∧ Ksprintf.loop args fuel format va = some q ∧
      Agree p q (∀ d ∈ ds, conversionOf d.1.letter = .unknown → d.1.rest = []) := by
  induction fuel generalizing format va ds with
  | zero =>
    cases format with
    | nil =>
      obtain rfl : [] = ds := by simpa [directives] using hds
      exact ⟨⟨[], 0⟩, ⟨[], 0⟩, rfl, rfl, rfl, le_rfl, by simp⟩
    | cons c format => cases hds
  | succ fuel ih =>
    cases format with
    | nil =>
      obtain rfl : [] = ds := by simpa [directives] using hds
      exact ⟨⟨[], 0⟩, ⟨[], 0⟩, rfl, rfl, rfl, le_rfl, by simp⟩
    | cons c format =>
      rw [directives] at hds
      by_cases hdir : c = 0x25 ∧ format ≠ []
      · rw [if_pos hdir] at hds
        obtain ⟨d, hd, hds⟩ := Option.bind_eq_some_iff.1 hds
        obtain ⟨more, hmore, hds⟩ := Option.bind_eq_some_iff.1 hds
        obtain rfl : (d, va) :: more = ds := Option.some.inj hds
        obtain ⟨p, q, hp, hq, hagree⟩ := ih d.rest _ hmore fun e he =>
          hchar e (List.mem_cons_of_mem _ he)
        obtain ⟨hva, hva'⟩ := khandleFormat_args args va d
        refine ⟨⟨(Kprintf.khandleFormat args va d).1.text ++ p.text,
            u32 ((Kprintf.khandleFormat args va d).1.count + p.count)⟩,
          ⟨(Ksprintf.khandleFormat args va d).1.text ++ q.text,
            u32 ((Ksprintf.khandleFormat args va d).1.count + q.count)⟩, ?_, ?_, ?_⟩
        · simp [Kprintf.loop, hdir, hd, hva, hp]
        · simp [Ksprintf.loop, hdir, hd, hva', hq]
        by_cases hknown : conversionOf d.letter = .unknown
        · -- an unknown letter: the text behind it is printed at once, and then again
          have hprint : (Kprintf.khandleFormat args va d).1 = ⟨0x25 :: d.letter :: d.rest, 2⟩ := by
            simp [Kprintf.khandleFormat, hknown, Kprintf.kttyPuts]
          have hstore : (Ksprintf.khandleFormat args va d).1 = ⟨[0x25, d.letter], 2⟩ := by
            simp [Ksprintf.khandleFormat, hknown]
          have hlength := hagree.length
          refine ⟨by rw [hprint, hstore, hagree.count], ?_, ?_⟩
          · rw [hprint, hstore]
            simp only [List.cons_append, List.length_cons, List.length_append, List.nil_append]
            omega
          · rw [hprint, hstore, List.forall_mem_cons]
            by_cases hrest : d.rest = []
            · simp [hrest, hagree.text]
            · have hpos := List.length_pos_iff.2 hrest
              refine ⟨fun heq => ?_, fun hall => absurd (hall.1 hknown) hrest⟩
              have := congrArg List.length heq
              simp only [List.cons_append, List.length_cons, List.length_append,
                List.nil_append] at this
              omega
        · rw [khandleFormat_known args va hknown (hchar (d, va) List.mem_cons_self)]
          have h := hagree.after (Ksprintf.khandleFormat args va d).1.text
            (Ksprintf.khandleFormat args va d).1.count
          refine ⟨h.count, h.length, h.text.trans ?_⟩
          rw [List.forall_mem_cons]
          exact ⟨fun hall => ⟨fun hu => absurd hu hknown, hall⟩, fun hall => hall.2⟩
      · rw [if_neg hdir] at hds
        obtain ⟨p, q, hp, hq, hagree⟩ := ih format va hds hchar
        refine ⟨⟨[c] ++ p.text, u32 (1 + p.count)⟩, ⟨[c] ++ q.text, u32 (1 + q.count)⟩, ?_, ?_,
          hagree.after [c] 1⟩
        · simp [Kprintf.loop, hdir, hp]
        · simp [Ksprintf.loop, hdir, hq]

/-- **The two formatters print the same text exactly if no unknown directive has text behind it**,
and return the same count in any case, for every format whose last directive is complete and all
arguments whose characters are not 0. -/
theorem printf_agree_iff (format : CString) (args : VaArgs) {ds : List (Directive × Nat)}
    (hcomplete : directives format.length format 0 = some ds)
    (hchar : ∀ d ∈ ds, conversionOf d.1.letter = .char → args.char d.2 ≠ 0) :
    ∃ p q, kprintf format args = some p ∧ ksprintf format args = some q ∧ p.count = q.count ∧
      (p.text = q.text ↔ ∀ d ∈ ds, conversionOf d.1.letter = .unknown → d.1.rest = []) := by
  obtain ⟨p, q, hp, hq, hagree⟩ := loop_agree args format.length format 0 hcomplete hchar
  exact ⟨p, q, hp, hq, hagree.count, hagree.text⟩

/-- No arguments worth mentioning. -/
def noArgs : VaArgs := ⟨fun _ => 0, fun _ => ⟨[], List.not_mem_nil⟩⟩

/-- `"%d%%"`: the zero and a percent sign, from both. -/
theorem printf_agree_percent :
    ∃ p q, kprintf [0x25, 0x64, 0x25, 0x25] noArgs = some p ∧
      ksprintf [0x25, 0x64, 0x25, 0x25] noArgs = some q ∧ p.count = q.count ∧ p.text = q.text := by
  obtain ⟨p, q, hp, hq, hcount, htext⟩ := printf_agree_iff [0x25, 0x64, 0x25, 0x25] noArgs
    (show directives 4 [0x25, 0x64, 0x25, 0x25] 0 =
      some [(⟨0, 0x20, false, 0x64, [0x25, 0x25]⟩, 0), (⟨0, 0x20, false, 0x25, []⟩, 1)] by decide)
    (by decide)
  exact ⟨p, q, hp, hq, hcount, htext.2 (by decide)⟩

/-- **`"%ux"`**: `kprintf` prints the text behind the unknown letter twice. -/
theorem printf_unknown_differs :
    ∃ ds, directives 3 [0x25, 0x75, 0x78] 0 = some ds ∧
      (∀ d ∈ ds, conversionOf d.1.letter = .char → noArgs.char d.2 ≠ 0) ∧
      kprintf [0x25, 0x75, 0x78] noArgs = some ⟨[0x25, 0x75, 0x78, 0x78], 3⟩ ∧
      ksprintf [0x25, 0x75, 0x78] noArgs = some ⟨[0x25, 0x75, 0x78], 3⟩ :=
  ⟨[(⟨0, 0x20, false, 0x75, [0x78]⟩, 0)], by decide, by decide, by decide, by decide⟩

end DelOs
