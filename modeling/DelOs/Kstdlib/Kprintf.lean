import DelOs.Fs.State

/-!
# `kprintf` and `ksprintf`

The two formatters of `src/utils/kstdlib/kstdio/kprintf`: one sends its characters to the terminal,
the other one writes them to a buffer.  Each file has a copy of every helper.

* `kuitoa`, `kuitoa64`, `kitoa`, `kitoa64`, `kdivmodU64`, `kparseFormat` — the helpers whose copies
  are the same.
* `Kprintf.kprintPadded`, `Kprintf.khandleFormat`, `kprintf` — the formatter for the terminal.
* `Ksprintf.kprintPadded`, `Ksprintf.khandleFormat`, `ksprintf` — the formatter for a buffer.
* `parseDirective` — what a directive asks for, up to the `switch` of `khandle_format`.

A formatter returns the characters that it sends or stores, and its result.  It returns `none` if
the format ends inside a directive: the loop then goes on behind the terminator.
-/

namespace DelOs

/-! ## Numbers -/

/-- `digits` of `kuitoa`. -/
def digitChars (uppercase : Bool) : List UInt8 :=
  if uppercase then
    [0x30, 0x31, 0x32, 0x33, 0x34, 0x35, 0x36, 0x37, 0x38, 0x39, 0x41, 0x42, 0x43, 0x44, 0x45, 0x46]
  else
    [0x30, 0x31, 0x32, 0x33, 0x34, 0x35, 0x36, 0x37, 0x38, 0x39, 0x61, 0x62, 0x63, 0x64, 0x65, 0x66]

/-- `digits[i]`. -/
def digitChar (uppercase : Bool) (i : Nat) : UInt8 := (digitChars uppercase).getD i 0

/-- The two loops of `kuitoa`: the digits of a value, the first one last found; `temp` has room for
`fuel` of them. -/
def kuitoaDigits (base : Nat) (uppercase : Bool) : Nat → Nat → List UInt8 → List UInt8
  | 0, _, digits => digits
  | fuel + 1, value, digits =>
    if value = 0 then digits
    else kuitoaDigits base uppercase fuel (value / base) (digitChar uppercase (value % base) :: digits)

/-- `kuitoa`: the string that it leaves in the buffer. -/
def kuitoa (value base : Nat) (uppercase : Bool) : CString :=
  if value = 0 then [0x30] else kuitoaDigits base uppercase 32 value []

/-- The loop of `kdivmod_u64`, from bit `i - 1` of the value down. -/
def kdivmodLoop (value base : Nat) : Nat → Nat → Nat → Nat × Nat
  | 0, quotient, carry => (quotient, carry)
  | i + 1, quotient, carry =>
    let carry := 2 * carry + value / 2 ^ i % 2
    if base ≤ carry then kdivmodLoop value base i (quotient + 2 ^ i) (carry - base)
    else kdivmodLoop value base i quotient carry

/-- `kdivmod_u64`: the quotient and the remainder. -/
def kdivmodU64 (value base : Nat) : Nat × Nat := kdivmodLoop value base 64 0 0

/-- The two loops of `kuitoa64`. -/
def kuitoa64Digits (base : Nat) (uppercase : Bool) : Nat → Nat → List UInt8 → List UInt8
  | 0, _, digits => digits
  | fuel + 1, value, digits =>
    if value = 0 then digits
    else
      let (value, remainder) := kdivmodU64 value base
      kuitoa64Digits base uppercase fuel value (digitChar uppercase remainder :: digits)

/-- `kuitoa64`. -/
def kuitoa64 (value base : Nat) (uppercase : Bool) : CString :=
  if value = 0 then [0x30] else kuitoa64Digits base uppercase 32 value []

/-- `kitoa`, of the word that holds the value; negation wraps. -/
def kitoa (value : Nat) : CString :=
  if 2 ^ 31 ≤ value then 0x2d :: kuitoa (2 ^ 32 - value) 10 false else kuitoa value 10 false

/-- `kitoa64`. -/
def kitoa64 (value : Nat) : CString :=
  if 2 ^ 63 ≤ value then 0x2d :: kuitoa64 (2 ^ 64 - value) 10 false else kuitoa64 value 10 false

/-! ## Directives -/

/-- A digit of the width. -/
def isWidthDigit (c : UInt8) : Bool := 0x30 ≤ c && c ≤ 0x39

/-- The loop of `kparse_format` that reads the width; it also returns the rest of the format. -/
def parseWidth : Nat → CString → Nat × CString
  | width, [] => (width, [])
  | width, c :: format =>
    if isWidthDigit c then parseWidth (u32 (width * 10 + (c.toNat - 0x30))) format
    else (width, c :: format)

/-- `kparse_format`: the width, whether to pad with zeros, and the rest of the format. -/
def kparseFormat (format : CString) : Nat × Bool × CString :=
  if format.head? = some 0x30 then
    let (width, format) := parseWidth 0 format.tail
    (width, true, format)
  else
    let (width, format) := parseWidth 0 format
    (width, false, format)

/-- The cases of the `switch` in `khandle_format`. -/
inductive Conversion
  | decimal
  | hex
  | upperHex
  | binary
  | pointer
  | string
  | char
  | percent
  | unknown
  deriving DecidableEq, Repr

/-- The case that a letter selects. -/
def conversionOf (letter : UInt8) : Conversion :=
  if letter = 0x64 then .decimal
  else if letter = 0x78 then .hex
  else if letter = 0x58 then .upperHex
  else if letter = 0x62 then .binary
  else if letter = 0x70 then .pointer
  else if letter = 0x73 then .string
  else if letter = 0x63 then .char
  else if letter = 0x25 then .percent
  else .unknown

/-- A directive, behind its `'%'`: its letter, and what comes before and after that. -/
structure Directive where
  width : Nat
  padChar : UInt8
  isLong : Bool
  letter : UInt8
  rest : CString
  deriving DecidableEq, Repr

/-- `khandle_format` up to its `switch`. -/
def parseDirective (format : CString) : Option Directive :=
  let (width, padZero, format) := kparseFormat format
  let padChar : UInt8 := if padZero then 0x30 else 0x20
  let isLong := format.head? == some 0x6c
  match if isLong then format.tail else format with
  | [] => none
  | letter :: rest => some ⟨width, padChar, isLong, letter, rest⟩

/-! ## Arguments -/

/-- The variadic arguments: the words on the stack behind the format, and the strings that the
pointers among them point to. -/
structure VaArgs where
  word : Nat → Nat
  str : Nat → { s : CString // (0 : UInt8) ∉ s }

/-- `KVA_ARG` of 32 bits. -/
def VaArgs.arg32 (args : VaArgs) (va : Nat) : Nat := args.word va % 2 ^ 32

/-- `KVA_ARG` of 64 bits: two words. -/
def VaArgs.arg64 (args : VaArgs) (va : Nat) : Nat :=
  args.arg32 va + 2 ^ 32 * args.arg32 (va + 1)

/-- `"(null)"` -/
def nullName : CString := [0x28, 0x6e, 0x75, 0x6c, 0x6c, 0x29]

/-- The string that `%s` prints. -/
def VaArgs.string (args : VaArgs) (va : Nat) : CString :=
  if args.arg32 va = 0 then nullName else (args.str (args.arg32 va)).1

/-- The character that `%c` prints. -/
def VaArgs.char (args : VaArgs) (va : Nat) : UInt8 := UInt8.ofNat (args.arg32 va)

/-- `"0x"` -/
def hexPrefix : CString := [0x30, 0x78]

/-- `"0X"` -/
def upperHexPrefix : CString := [0x30, 0x58]

/-- `width > 2 ? width - 2 : 0` -/
def pointerWidth (width : Nat) : Nat := if width > 2 then width - 2 else 0

/-! ## The formatter for the terminal -/

/-- What a function of a formatter has sent or stored, and what it returns. -/
structure Printed where
  text : List UInt8
  count : Nat
  deriving DecidableEq, Repr

/-- `2 + ...` behind a prefix. -/
def Printed.prefixed (p : Printed) (text : CString) : Printed := ⟨text ++ p.text, u32 (2 + p.count)⟩

namespace Kprintf

/-- What `ktty_puts` sends of a buffer: the bytes before the first zero. -/
def kttyPuts (buffer : List UInt8) : List UInt8 := buffer.takeWhile (· ≠ 0)

/-- `kprint_padded`. -/
def kprintPadded (str : List UInt8) (len width : Nat) (padChar : UInt8) : Printed :=
  let padding := if width > len then width - len else 0
  let minus := str.head? = some 0x2d ∧ padChar = 0x30 ∧ padding > 0
  if minus then
    ⟨kttyPuts [0x2d] ++ List.replicate padding padChar ++ kttyPuts str.tail,
      u32 (1 + padding + (len - 1))⟩
  else ⟨List.replicate padding padChar ++ kttyPuts str, u32 (padding + len)⟩

/-- `kprint_padded` of a string in a buffer. -/
def padded (s : CString) (width : Nat) (padChar : UInt8) : Printed :=
  kprintPadded (s ++ [0]) s.length width padChar

/-- `khandle_format`: what it prints, and the arguments that it has taken. -/
def khandleFormat (args : VaArgs) (va : Nat) (d : Directive) : Printed × Nat :=
  match conversionOf d.letter with
  | .decimal =>
    if d.isLong then (padded (kitoa64 (args.arg64 va)) d.width d.padChar, va + 2)
    else (padded (kitoa (args.arg32 va)) d.width d.padChar, va + 1)
  | .hex =>
    if d.isLong then
      ((padded (kuitoa64 (args.arg64 va) 16 false) d.width d.padChar).prefixed hexPrefix, va + 2)
    else ((padded (kuitoa (args.arg32 va) 16 false) d.width d.padChar).prefixed hexPrefix, va + 1)
  | .upperHex =>
    ((padded (kuitoa (args.arg32 va) 16 true) d.width d.padChar).prefixed upperHexPrefix, va + 1)
  | .binary => (padded (kuitoa (args.arg32 va) 2 false) d.width d.padChar, va + 1)
  | .pointer =>
    ((padded (kuitoa (args.arg32 va) 16 false) (pointerWidth d.width) d.padChar).prefixed hexPrefix,
      va + 1)
  | .string => (padded (args.string va) d.width 0x20, va + 1)
  | .char => (kprintPadded [args.char va, 0] 1 d.width 0x20, va + 1)
  | .percent => (⟨kttyPuts [0x25], 1⟩, va)
  -- the string behind `&format[*i]` is the whole rest of the format
  | .unknown => (⟨kttyPuts [0x25] ++ d.letter :: d.rest, 2⟩, va)

/-- The loop of `kprintf` over the rest of the format. -/
def loop (args : VaArgs) : Nat → CString → Nat → Option Printed
  | _, [], _ => some ⟨[], 0⟩
  | 0, _, _ => none
  | fuel + 1, c :: format, va =>
    if c = 0x25 ∧ format ≠ [] then do
      let d ← parseDirective format
      let (printed, va) := khandleFormat args va d
      let more ← loop args fuel d.rest va
      return ⟨printed.text ++ more.text, u32 (printed.count + more.count)⟩
    else do
      -- no character of the format is 0, so that `ktty_puts` sends it
      let more ← loop args fuel format va
      return ⟨c :: more.text, u32 (1 + more.count)⟩

end Kprintf

/-- `kprintf`: the characters sent to the terminal, and the count returned. -/
def kprintf (format : CString) (args : VaArgs) : Option Printed :=
  Kprintf.loop args format.length format 0

/-! ## The formatter for a buffer -/

namespace Ksprintf

/-- What `kbuf_write` stores. -/
def kbufWrite (buffer : List UInt8) (len : Nat) : List UInt8 := buffer.take len

/-- `kprint_padded`. -/
def kprintPadded (str : List UInt8) (len width : Nat) (padChar : UInt8) : Printed :=
  let padding := if width > len then width - len else 0
  let minus := str.head? = some 0x2d ∧ padChar = 0x30 ∧ padding > 0
  if minus then
    ⟨[0x2d] ++ List.replicate padding padChar ++ kbufWrite str.tail (len - 1),
      u32 (1 + padding + (len - 1))⟩
  else ⟨List.replicate padding padChar ++ kbufWrite str len, u32 (padding + len)⟩

/-- `kprint_padded` of a string in a buffer. -/
def padded (s : CString) (width : Nat) (padChar : UInt8) : Printed :=
  kprintPadded (s ++ [0]) s.length width padChar

/-- `khandle_format`: what it stores, and the arguments that it has taken. -/
def khandleFormat (args : VaArgs) (va : Nat) (d : Directive) : Printed × Nat :=
  match conversionOf d.letter with
  | .decimal =>
    if d.isLong then (padded (kitoa64 (args.arg64 va)) d.width d.padChar, va + 2)
    else (padded (kitoa (args.arg32 va)) d.width d.padChar, va + 1)
  | .hex =>
    if d.isLong then
      ((padded (kuitoa64 (args.arg64 va) 16 false) d.width d.padChar).prefixed hexPrefix, va + 2)
    else ((padded (kuitoa (args.arg32 va) 16 false) d.width d.padChar).prefixed hexPrefix, va + 1)
  | .upperHex =>
    ((padded (kuitoa (args.arg32 va) 16 true) d.width d.padChar).prefixed upperHexPrefix, va + 1)
  | .binary => (padded (kuitoa (args.arg32 va) 2 false) d.width d.padChar, va + 1)
  | .pointer =>
    ((padded (kuitoa (args.arg32 va) 16 false) (pointerWidth d.width) d.padChar).prefixed hexPrefix,
      va + 1)
  | .string => (padded (args.string va) d.width 0x20, va + 1)
  | .char => (kprintPadded [args.char va, 0] 1 d.width 0x20, va + 1)
  | .percent => (⟨[0x25], 1⟩, va)
  -- here it is the letter alone
  | .unknown => (⟨[0x25, d.letter], 2⟩, va)

/-- The loop of `ksprintf` over the rest of the format. -/
def loop (args : VaArgs) : Nat → CString → Nat → Option Printed
  | _, [], _ => some ⟨[], 0⟩
  | 0, _, _ => none
  | fuel + 1, c :: format, va =>
    if c = 0x25 ∧ format ≠ [] then do
      let d ← parseDirective format
      let (printed, va) := khandleFormat args va d
      let more ← loop args fuel d.rest va
      return ⟨printed.text ++ more.text, u32 (printed.count + more.count)⟩
    else do
      let more ← loop args fuel format va
      return ⟨c :: more.text, u32 (1 + more.count)⟩

end Ksprintf

/-- `ksprintf`: the bytes stored before the terminator, and the count returned. -/
def ksprintf (format : CString) (args : VaArgs) : Option Printed :=
  Ksprintf.loop args format.length format 0

end DelOs
