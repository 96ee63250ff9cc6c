import DelOs.Kstdlib.PrintfText
import DelOs.Shell.FileCommands
import DelOs.Tty.Sheet
import Mathlib.Data.List.TakeWhile

/-!
# What the commands print

The `KPRINTF_` macros of `utils/misc/print.h` over `kprintf` and the terminal.

* `kttyPuts`, `kprintfTo`, `kprintfDate`, `kprintfLabel`, `Terminal.print` — the calls and macros of
  those names.
* `filled` — a format whose `%s` are replaced by strings.
* `Print.cells` — the characters of a print and their colours.
* `kprintf_filled`, `kprintf_date` — what `kprintf` prints of such a format, and of the date.
* `Renders.prints` — **the screen shows what is printed**, character by character.
-/

namespace DelOs

open Transition

/-! ## Formats of strings -/

/-- A format whose directives are replaced by strings, in turn. -/
def filled : CString → List CString → CString
  | [], _ => []
  | [c], _ => [c]
  | c :: d :: format, args =>
    if c = 0x25 then args.headD [] ++ filled format args.tail else c :: filled (d :: format) args

/-- The directives of a format are `n` times `%s`. -/
def stringFormat : CString → Nat → Bool
  | [], n => n == 0
  | [c], n => c != 0x25 && n == 0
  | c :: d :: format, n =>
    if c = 0x25 then d == 0x73 && n != 0 && stringFormat format (n - 1)
    else stringFormat (d :: format) n

/-- The arguments from `va` on are these strings. -/
def StringsAt (args : VaArgs) : Nat → List CString → Prop
  | _, [] => True
  | va, s :: ss => args.string va = s ∧ StringsAt args (va + 1) ss

/-- A `%s` without a width prints its string. -/
theorem khandleFormat_string (args : VaArgs) (va : Nat) (rest : CString) :
    ∃ n, Kprintf.khandleFormat args va ⟨0, 0x20, false, 0x73, rest⟩ =
      (⟨args.string va, n⟩, va + 1) := by
  have hconv : conversionOf 0x73 = .string := rfl
  have hs := args.zero_not_mem_string va
  unfold Kprintf.khandleFormat
  rw [hconv]
  simp only [Kprintf.padded, Kprintf.kprintPadded]
  rw [if_neg (by simp), kttyPuts_eq_kbufWrite hs]
  simp [Ksprintf.kbufWrite]

/-- **`kprintf` finds the strings one after the other.**  By induction on the format. -/
theorem loop_filled (args : VaArgs) (format : CString) (ss : List CString) (va fuel : Nat)
    (hfuel : format.length ≤ fuel) (hargs : StringsAt args va ss)
    (hformat : stringFormat format ss.length = true) :
    ∃ p, Kprintf.loop args fuel format va = some p ∧ p.text = filled format ss := by
  induction format, ss using filled.induct generalizing va fuel with
  | case1 ss => exact ⟨⟨[], 0⟩, by cases fuel <;> rfl, rfl⟩
  | case2 c ss =>
    obtain ⟨n, rfl⟩ : ∃ n, fuel = n + 1 := Nat.exists_eq_add_of_le' hfuel
    have hnil : Kprintf.loop args n [] va = some ⟨[], 0⟩ := by cases n <;> rfl
    exact ⟨⟨[c], u32 (1 + 0)⟩, by simp [Kprintf.loop, hnil], rfl⟩
  | case3 d format ss ih =>
    obtain ⟨n, rfl⟩ : ∃ n, fuel = n + 1 :=
      Nat.exists_eq_add_of_le' (Nat.le_trans (Nat.succ_pos _) hfuel)
    simp only [stringFormat, if_true, Bool.and_eq_true, beq_iff_eq] at hformat
    obtain ⟨⟨rfl, hne⟩, hrest⟩ := hformat
    cases ss with
    | nil => simp at hne
    | cons s ss =>
      obtain ⟨hs, hss⟩ := hargs
      obtain ⟨k, hhandled⟩ := khandleFormat_string args va format
      obtain ⟨p, hp, htext⟩ := ih (va + 1) n (by simp at hfuel; omega) hss hrest
      have hparse : parseDirective (0x73 :: format) = some ⟨0, 0x20, false, 0x73, format⟩ := rfl
      refine ⟨⟨s ++ p.text, u32 (k + p.count)⟩, ?_, ?_⟩
      · simp [Kprintf.loop, hparse, hhandled, hp, hs]
      · rw [htext]
        rfl
  | case4 c d format ss hc ih =>
    obtain ⟨n, rfl⟩ : ∃ n, fuel = n + 1 :=
      Nat.exists_eq_add_of_le' (Nat.le_trans (Nat.succ_pos _) hfuel)
    rw [stringFormat, if_neg hc] at hformat
    obtain ⟨p, hp, htext⟩ := ih va n (by simp at hfuel ⊢; omega) hargs hformat
    refine ⟨⟨c :: p.text, u32 (1 + p.count)⟩, by simp [Kprintf.loop, hc, hp], ?_⟩
    rw [htext, filled, if_neg hc]

/-- The bytes of an argument up to its terminator. -/
def untilNul (s : CString) : { s : CString // (0 : UInt8) ∉ s } :=
  ⟨Kprintf.kttyPuts s, fun h => by simpa using List.mem_takeWhile_imp h⟩

/-- Strings as arguments: their pointers are 1, 2, ... -/
def stringArgs (args : List CString) : VaArgs where
  word i := i + 1
  str w := untilNul (args.getD (w - 1) [])

theorem stringsAt_stringArgs (front args : List CString)
    (h : front.length + args.length < 2 ^ 32) :
    StringsAt (stringArgs (front ++ args)) front.length (args.map fun s => (untilNul s).1) := by
  induction args generalizing front with
  | nil => trivial
  | cons s args ih =>
    rw [List.length_cons] at h
    have hsmall : front.length + 1 < 2 ^ 32 := by omega
    have hword : (stringArgs (front ++ s :: args)).arg32 front.length = front.length + 1 :=
      Nat.mod_eq_of_lt hsmall
    refine ⟨?_, ?_⟩
    · rw [VaArgs.string, hword, if_neg (Nat.succ_ne_zero _)]
      simp [stringArgs]
    · have hrest := ih (front ++ [s]) (by simp; omega)
      rwa [List.append_assoc, List.length_append] at hrest

/-- **What `kprintf` prints of some strings.** -/
theorem kprintf_filled {format : CString} {args : List CString} (hargs : args.length < 2 ^ 32)
    (hformat : stringFormat format args.length = true) :
    ∃ p, kprintf format (stringArgs args) = some p ∧
      p.text = filled format (args.map fun s => (untilNul s).1) := by
  have hstrings := stringsAt_stringArgs [] args (by simpa using hargs)
  exact loop_filled _ format _ 0 _ le_rfl hstrings (by rwa [List.length_map])

namespace Tty

/-! ## The macros -/

def VGA_TEXT_SUCCESS_COLOR : UInt8 := 0x0a
def VGA_TEXT_ERROR_COLOR : UInt8 := 0x0c
def VGA_TEXT_DEBUG_COLOR : UInt8 := 0x05
def VGA_TEXT_WARN_COLOR : UInt8 := 0x0e
def VGA_TEXT_INFO_COLOR : UInt8 := 0x03
def VGA_TEXT_DATE_COLOR : UInt8 := 0x07

def PIT_TARGET_FREQUENCY : UInt32 := 100

/-- What stands in `seconds_count` and `ticks_count`. -/
structure Clock where
  secondsCount : UInt32
  ticksCount : UInt32

/-- A text in a colour. -/
def colored (color : UInt8) (text : CString) : List Cell := text.map fun c => (c, color)

/-- `ktty_puts`. -/
def kttyPuts (t : Terminal) (text : CString) (color : UInt8) : Option Terminal :=
  run kttyPutc t (colored color (Kprintf.kttyPuts text))

/-- `kprintf` with its colour. -/
def kprintfTo (t : Terminal) (color : UInt8) (format : CString) (args : VaArgs) :
    Option Terminal := do
  let printed ← kprintf format args
  run kttyPutc t (colored color printed.text)

/-- `seconds_count` and `ticks_count % PIT_TARGET_FREQUENCY`, as arguments. -/
def Clock.args (clock : Clock) : VaArgs where
  word i := if i = 0 then clock.secondsCount.toNat
    else (clock.ticksCount % PIT_TARGET_FREQUENCY).toNat
  str := noArgs.str

/-- `KPRINTF_DATE`. -/
def kprintfDate (t : Terminal) (clock : Clock) : Option Terminal :=
  kprintfTo t VGA_TEXT_DATE_COLOR (Shell.bytesOf "[%05d.%02d] ") clock.args

end Tty

/-- The text of a label and its colour. -/
def LogLevel.label : LogLevel → CString × UInt8
  | info => (Shell.bytesOf "INFO", Tty.VGA_TEXT_INFO_COLOR)
  | warn => (Shell.bytesOf "WARN", Tty.VGA_TEXT_WARN_COLOR)
  | debug => (Shell.bytesOf "DEBUG", Tty.VGA_TEXT_DEBUG_COLOR)
  | ok => (Shell.bytesOf "OK", Tty.VGA_TEXT_SUCCESS_COLOR)
  | error => (Shell.bytesOf "ERROR", Tty.VGA_TEXT_ERROR_COLOR)

/-- The colour of the text behind the label. -/
def LogLevel.color : LogLevel → UInt8
  | error => Tty.VGA_TEXT_ERROR_COLOR
  | _ => Tty.VGA_TEXT_DEFAULT_COLOR

namespace Tty

/-- `_KPRINTF_LABEL_INFO` and the others. -/
def kprintfLabel (t : Terminal) (level : LogLevel) : Option Terminal := do
  let t ← kttyPutc t (0x5b, VGA_TEXT_DEFAULT_COLOR)
  let t ← kttyPuts t (Shell.bytesOf " ") VGA_TEXT_DEFAULT_COLOR
  let t ← kttyPuts t level.label.1 level.label.2
  let t ← kttyPuts t (Shell.bytesOf " ") VGA_TEXT_DEFAULT_COLOR
  let t ← kttyPutc t (0x5d, VGA_TEXT_DEFAULT_COLOR)
  kttyPutc t (0x20, VGA_TEXT_DEFAULT_COLOR)

/-- What a command prints, on the terminal. -/
def Terminal.print (t : Terminal) (clock : Clock) : Print → Option Terminal
  | .log level format args => do
    let t ← kprintfDate t clock
    let t ← kprintfLabel t level
    let t ← kprintfTo t level.color format (stringArgs args)
    kttyPutc t (0x0a, level.color)
  | .date => kprintfDate t clock
  | .puts text => kttyPuts t text VGA_TEXT_DEFAULT_COLOR
  | .putc c => kttyPutc t (c, VGA_TEXT_DEFAULT_COLOR)

/-- Some prints, each with what it finds in the counts of the timer. -/
def Terminal.prints (t : Terminal) (clock : Nat → Clock) : List Print → Option Terminal
  | [] => some t
  | print :: prints => do
    let t ← t.print (clock 0) print
    t.prints (fun n => clock (n + 1)) prints

/-! ## The characters of a print -/

/-- The date: five digits of the seconds, which are signed, and two of the ticks. -/
def Clock.text (clock : Clock) : CString :=
  let seconds := signedValue 32 clock.secondsCount.toNat
  [0x5b] ++ padLeft true 5 (signChars seconds) (numeralChars 10 false seconds.natAbs) ++ [0x2e] ++
    padLeft true 2 [] (numeralChars 10 false (clock.ticksCount % PIT_TARGET_FREQUENCY).toNat) ++
    [0x5d, 0x20]

/-- `[ INFO ] ` and the others. -/
def labelCells (level : LogLevel) : List Cell :=
  colored VGA_TEXT_DEFAULT_COLOR (Shell.bytesOf "[ ") ++ colored level.label.2 level.label.1 ++
    colored VGA_TEXT_DEFAULT_COLOR (Shell.bytesOf " ] ")

end Tty

/-- **The characters of a print**, with their colours. -/
def Print.cells (clock : Tty.Clock) : Print → List Tty.Cell
  | .log level format args =>
    Tty.colored Tty.VGA_TEXT_DATE_COLOR clock.text ++ Tty.labelCells level ++
      Tty.colored level.color (filled format (args.map fun s => (untilNul s).1) ++ [0x0a])
  | .date => Tty.colored Tty.VGA_TEXT_DATE_COLOR clock.text
  | .puts text => Tty.colored Tty.VGA_TEXT_DEFAULT_COLOR (untilNul text).1
  | .putc c => [(c, Tty.VGA_TEXT_DEFAULT_COLOR)]

/-- A print with as many strings as its format asks for. -/
def Print.complete : Print → Bool
  | .log _ format args => stringFormat format args.length && args.length < 2 ^ 32
  | _ => true

/-- The characters of some prints. -/
def printCells (clock : Nat → Tty.Clock) : List Print → List Tty.Cell
  | [] => []
  | print :: prints => print.cells (clock 0) ++ printCells (fun n => clock (n + 1)) prints

/-! ## Showing the prints -/

theorem decimalWidth_digit_lt (digit : UInt8) : decimalWidth [digit] < 2 ^ 31 := by
  have hlt := digit.toNat_lt
  simp only [decimalWidth, Numerals.value, List.map_cons, List.map_nil, List.foldl_cons,
    List.foldl_nil]
  omega

/-- `%0nd` for a digit `n`. -/
def zeroField (digit : UInt8) (h : isWidthDigit digit = true) : FormatField :=
  ⟨true, [digit], .d, List.forall_mem_singleton.2 h, fun hzero => Bool.noConfusion hzero,
    decimalWidth_digit_lt digit⟩

theorem ordinary_of_ne {c : UInt8} (h : (c != 0x25 && c != 0) = true) : c ≠ 0x25 ∧ c ≠ 0 := by
  simpa using h

/-- A character that is no conversion. -/
def plainItem (c : UInt8) (h : (c != 0x25 && c != 0) = true) : FormatItem :=
  .char c (ordinary_of_ne h)

/-- `"[%05d.%02d] "` in pieces. -/
def dateItems : List FormatItem :=
  [plainItem 0x5b rfl, .field (zeroField 0x35 rfl), plainItem 0x2e rfl, .field (zeroField 0x32 rfl),
    plainItem 0x5d rfl, plainItem 0x20 rfl]

namespace Tty

variable {t : Terminal} {s : Sheet}

/-- A number below 2^31 has no sign. -/
theorem signedValue_small {word : Nat} (h : word < 2 ^ 31) : signedValue 32 word = word :=
  if_neg (Nat.not_le.2 h)

theorem signChars_natCast (n : Nat) : signChars n = [] :=
  if_neg (Int.not_lt.2 n.cast_nonneg)

/-- **The date is printed as it is documented.** -/
theorem kprintf_date (clock : Clock) :
    ∃ p, kprintf (Shell.bytesOf "[%05d.%02d] ") clock.args = some p ∧ p.text = clock.text := by
  have hformat : Shell.bytesOf "[%05d.%02d] " = formatOf dateItems := by decide
  have hchars : CharsShown clock.args dateItems := by
    intro f hf hspec
    fin_cases hf <;> cases hspec
  have hinside : ∀ f ∈ fieldsOf dateItems 0, f.1.InWidth clock.args f.2 := by
    intro f hf
    fin_cases hf <;> trivial
  have hticks : (clock.ticksCount % PIT_TARGET_FREQUENCY).toNat < 2 ^ 31 := by
    rw [UInt32.toNat_mod]
    exact (Nat.mod_lt _ (by decide)).trans (by decide)
  have hword0 : clock.args.arg32 0 = clock.secondsCount.toNat :=
    Nat.mod_eq_of_lt clock.secondsCount.toNat_lt
  have hword1 : clock.args.arg32 1 = (clock.ticksCount % PIT_TARGET_FREQUENCY).toNat :=
    Nat.mod_eq_of_lt (hticks.trans (by decide))
  have hfive : decimalWidth [0x35] = 5 := by decide
  have htwo : decimalWidth [0x32] = 2 := by decide
  have hdocumented : documented clock.args dateItems 0 = clock.text := by
    simp only [documented, dateItems, plainItem, zeroField, FormatItem.rendered,
      FormatField.rendered, FormatItem.words, FormatField.width, Specifier.words, Nat.add_zero,
      Nat.zero_add, hword0, hword1, hfive, htwo, signedValue_small hticks, signChars_natCast,
      Int.natAbs_natCast, Clock.text, List.append_assoc, List.cons_append, List.nil_append]
  obtain ⟨p, hp, -, htext⟩ := kprintf_items dateItems hchars
  exact ⟨p, by rw [hformat, hp], (htext.2 hinside).trans hdocumented⟩

theorem kprintfDate_eq (t : Terminal) (clock : Clock) :
    kprintfDate t clock = run kttyPutc t (colored VGA_TEXT_DATE_COLOR clock.text) := by
  obtain ⟨p, hp, htext⟩ := kprintf_date clock
  rw [kprintfDate, kprintfTo, hp, ← htext]
  rfl

theorem kprintfLabel_eq (t : Terminal) (level : LogLevel) :
    kprintfLabel t level = run kttyPutc t (labelCells level) := by
  have hspace : Kprintf.kttyPuts (Shell.bytesOf " ") = Shell.bytesOf " " := by decide
  have hlabel : Kprintf.kttyPuts level.label.1 = level.label.1 := by
    cases level <;> decide
  have hcells : labelCells level = [(0x5b, VGA_TEXT_DEFAULT_COLOR)] ++
      (colored VGA_TEXT_DEFAULT_COLOR (Shell.bytesOf " ") ++ (colored level.label.2 level.label.1 ++
        (colored VGA_TEXT_DEFAULT_COLOR (Shell.bytesOf " ") ++
          ([(0x5d, VGA_TEXT_DEFAULT_COLOR)] ++ [(0x20, VGA_TEXT_DEFAULT_COLOR)])))) := by
    cases level <;> decide
  unfold kprintfLabel kttyPuts
  simp only [hcells, run_append, run_singleton, hspace, hlabel, Option.bind_eq_bind]

/-- **A print puts its characters on the terminal**, one after the other. -/
theorem print_eq (t : Terminal) (clock : Clock) {print : Print} (h : print.complete = true) :
    t.print clock print = run kttyPutc t (print.cells clock) := by
  cases print with
  | log level format args =>
    obtain ⟨hformat, hargs⟩ := Bool.and_eq_true_iff.1 h
    obtain ⟨p, hp, htext⟩ := kprintf_filled (decide_eq_true_iff.1 hargs) hformat
    have hcells : Print.cells clock (.log level format args) =
        colored VGA_TEXT_DATE_COLOR clock.text ++ (labelCells level ++
          (colored level.color p.text ++ [(0x0a, level.color)])) := by
      rw [Print.cells, htext, colored, colored, colored, List.map_append, List.append_assoc]
      rfl
    simp only [Terminal.print, kprintfTo, hp, hcells, run_append, run_singleton, kprintfDate_eq,
      kprintfLabel_eq, Option.bind_eq_bind, Option.bind_some]
  | date => exact kprintfDate_eq t clock
  | puts text => rfl
  | putc c =>
    rw [Print.cells, run_singleton]
    rfl

/-- Some prints put theirs on the terminal.  By induction on the prints. -/
theorem prints_eq (t : Terminal) (clock : Nat → Clock) {prints : List Print}
    (h : ∀ print ∈ prints, print.complete = true) :
    t.prints clock prints = run kttyPutc t (printCells clock prints) := by
  induction prints generalizing t clock with
  | nil => rfl
  | cons print prints ih =>
    rw [Terminal.prints, printCells, run_append, print_eq t _ (h print List.mem_cons_self)]
    exact congrArg _ (funext fun mid => ih mid _ fun p hp => h p (List.mem_cons_of_mem print hp))

/-- The sheet takes what is printed. -/
def Sheet.prints (s : Sheet) (clock : Nat → Clock) (prints : List Print) : Sheet :=
  (printCells clock prints).foldl Sheet.putc s

/-- **The screen shows what is printed.** -/
theorem Renders.prints (h : Renders t s) (clock : Nat → Clock) {prints : List Print}
    (hprints : ∀ print ∈ prints, print.complete = true) :
    ∃ t', t.prints clock prints = some t' ∧ Renders t' (s.prints clock prints) := by
  rw [prints_eq t clock hprints]
  exact h.run_putc _

end Tty

end DelOs
