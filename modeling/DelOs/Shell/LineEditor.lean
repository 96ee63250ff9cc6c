import DelOs.Lib.Transition
import DelOs.Shell.Arguments

/-!
# The line editor

The loop of `kshell_start`: keys go into the prompt buffer and are echoed on the terminal, a
backspace takes the last one back, and a tab completes the line to the name of a command.

* `kstrncmp`, `kstrcat`, `kshellParseAutocomplete`, `kshellRound` — the functions of those names,
  and one round of the loop.  Reading or storing outside an array gives `none`.
* `shown` — what is left of an echo after its backspaces.
* `Shows` — the buffer, up to the index, is what is shown.
* `Shows.round` — **every key keeps the buffer and the screen in step.**
* `line_is_shown` — so it is after any keys but NUL and newline: **the line that runs is the one
  that is shown.**
-/

namespace DelOs.Shell

open Transition

/-! ## Strings -/

/-- The value of a `char`. -/
def charValue (c : UInt8) : Int := c.toInt8.toInt

/-- The loop of `kstrncmp`. -/
def kstrncmpFrom : Nat → Buffer → Buffer → Option Int
  | n, a :: stringA, b :: stringB =>
    if a = b ∧ a ≠ 0 ∧ n > 1 then kstrncmpFrom (n - 1) stringA stringB
    else some (charValue a - charValue b)
  | _, _, _ => none

/-- `kstrncmp`. -/
def kstrncmp (stringA stringB : Buffer) (n : Nat) : Option Int :=
  if n = 0 then some 0 else kstrncmpFrom n stringA stringB

/-- `buffer[i] = c`. -/
def storeAt (buffer : Buffer) (i : Nat) (c : UInt8) : Option Buffer :=
  if i < buffer.length then some (buffer.set i c) else none

/-- The second loop of `kstrcat`, with the terminator stored behind it. -/
def storeString (stringA : Buffer) (i : Nat) : Buffer → Option Buffer
  | [] => none
  | b :: stringB =>
    if b = 0 then storeAt stringA i 0
    else do
      let stringA ← storeAt stringA i b
      storeString stringA (i + 1) stringB

/-- `kstrcat`. -/
def kstrcat (stringA stringB : Buffer) : Option Buffer := do
  let i ← kstrlen stringA
  storeString stringA i stringB

/-! ## The loop -/

/-- The bytes of a text. -/
def bytesOf (text : String) : Buffer := text.toList.map fun c => UInt8.ofNat c.toNat

/-- The names in `shell_commands`, up to the `NULL` entry. -/
def shellCommands : List Buffer :=
  ["help", "reboot", "clear", "uptime", "timer", "shutdown", "panictest", "repeat", "loadkeys",
    "debug", "memdump", "pmmdump", "bitmapdump", "heapdump", "ls", "mkdir", "touch", "cat",
    "unlink", "rmdir", "pwd", "cd", "ps"].map bytesOf

/-- `buffer` and `index` of `kshell_start`, and what has been sent to the terminal since the
prompt. -/
structure Prompt where
  buffer : Buffer
  index : Nat
  echo : List UInt8
  deriving DecidableEq, Repr

/-- The loop of `kshell_parse_autocomplete` over the rest of the commands; a name stands in
memory with its terminator. -/
def autocompleteFrom (s : Prompt) : List Buffer → Option Prompt
  | [] => some s
  | command :: commands => do
    let difference ← kstrncmp s.buffer (command ++ [0]) s.index
    if difference = 0 then
      let suffix ← if s.index ≤ command.length then some (command.drop s.index) else none
      let buffer ← storeAt s.buffer 0 0
      let buffer ← kstrcat buffer (command ++ [0])
      let length ← kstrlen buffer
      return ⟨buffer, length, s.echo ++ suffix⟩
    else autocompleteFrom s commands

/-- `kshell_parse_autocomplete`. -/
def kshellParseAutocomplete (s : Prompt) : Option Prompt :=
  if s.index = 0 then some s else autocompleteFrom s shellCommands

/-- What a round of the loop does: it goes on reading, or it runs the command in the buffer. -/
inductive Round
  | reads (s : Prompt)
  | runs (buffer : Buffer)
  deriving DecidableEq, Repr

/-- One round of the loop of `kshell_start`, up to the call of `setup_run_shell_command`. -/
def kshellRound (s : Prompt) (c : UInt8) : Option Round :=
  if c = 0x0a then (storeAt s.buffer s.index 0).map .runs
  else if c = 0x08 then
    if s.index > 0 then some (.reads { s with index := s.index - 1, echo := s.echo ++ [0x08] })
    else some (.reads s)
  else if c = 0x09 then (kshellParseAutocomplete s).map .reads
  else if s.index < KERNEL_SHELL_BUFFER_SIZE - 1 then
    (storeAt s.buffer s.index c).map fun buffer =>
      .reads ⟨buffer, s.index + 1, s.echo ++ [c]⟩
  else some (.reads s)

/-- A key that leaves the loop reading. -/
def kshellKey (s : Prompt) (c : UInt8) : Option Prompt :=
  match kshellRound s c with
  | some (.reads t) => some t
  | _ => none

/-- Behind the prompt: nothing is typed, and the buffer holds whatever the last line left. -/
def prompt (buffer : Buffer) : Prompt := ⟨buffer, 0, []⟩

/-! ## What is shown -/

/-- One character on the line: a backspace erases the last remaining one. -/
def showChar (text : Buffer) (c : UInt8) : Buffer := if c = 0x08 then text.dropLast else text ++ [c]

/-- What is left of an echo on the line. -/
def shown (echo : List UInt8) : Buffer := echo.foldl showChar []

@[simp] theorem shown_append (echo more : List UInt8) :
    shown (echo ++ more) = more.foldl showChar (shown echo) :=
  List.foldl_append

/-- Text without a backspace is shown as it is. -/
theorem foldl_showChar {more : List UInt8} (hmore : 0x08 ∉ more) (text : Buffer) :
    more.foldl showChar text = text ++ more := by
  induction more generalizing text with
  | nil => simp
  | cons c more ih =>
    obtain ⟨hc, hmore⟩ := not_or.1 (mt List.mem_cons.2 hmore)
    rw [List.foldl_cons, showChar, if_neg (Ne.symm hc), ih hmore, List.append_assoc]
    rfl

/-- **The buffer and the screen are in step**: what is shown is in front of the index, it has no
NUL in it, and there is room for a terminator behind it. -/
structure Shows (s : Prompt) : Prop where
  size : s.buffer.length = KERNEL_SHELL_BUFFER_SIZE
  room : s.index < KERNEL_SHELL_BUFFER_SIZE
  shown : shown s.echo = s.buffer.take s.index
  text : 0 ∉ s.buffer.take s.index

/-! ## Completing -/

theorem charValue_sub_eq_zero {a b : UInt8} : charValue a - charValue b = 0 ↔ a = b := by
  refine ⟨fun h => ?_, fun h => by rw [h, sub_self]⟩
  have hvalue : a.toInt8 = b.toInt8 := Int8.toInt_inj.1 (sub_eq_zero.1 h)
  rw [← UInt8.toUInt8_toInt8 a, ← UInt8.toUInt8_toInt8 b, hvalue]

/-- `kstrncmp` of a whole text with a name: nothing behind the text and nothing behind the
terminator of the name is read. -/
theorem kstrncmpFrom_spec {text : Buffer} (name rest : Buffer) (htext : 0 ∉ text)
    (hne : text ≠ []) : ∃ d, kstrncmpFrom text.length (text ++ rest) (name ++ [0]) = some d ∧
      (d = 0 ↔ text <+: name) := by
  induction text generalizing name with
  | nil => exact absurd rfl hne
  | cons a text ih =>
    obtain ⟨ha, htext⟩ := not_or.1 (mt List.mem_cons.2 htext)
    cases name with
    | nil =>
      refine ⟨charValue a - charValue 0, ?_, ?_⟩
      · rw [List.cons_append, List.nil_append, kstrncmpFrom, if_neg fun h => ha h.1.symm]
      · rw [charValue_sub_eq_zero]
        exact ⟨fun h => absurd h.symm ha, fun h => absurd (List.prefix_nil.1 h) (by simp)⟩
    | cons b name =>
      rw [List.cons_append, List.cons_append, kstrncmpFrom, List.cons_prefix_cons]
      by_cases hmore : a = b ∧ text ≠ []
      · obtain ⟨hab, hmore⟩ := hmore
        obtain ⟨d, hd, hzero⟩ := ih name htext hmore
        have hpos := List.length_pos_iff.2 hmore
        refine ⟨d, ?_, by simp [hab, hzero]⟩
        rw [if_pos ⟨hab, Ne.symm ha, by rw [List.length_cons]; omega⟩]
        exact hd
      · -- the texts differ here, or this was the last byte to look at
        refine ⟨charValue a - charValue b, ?_, ?_⟩
        · rw [if_neg]
          rintro ⟨hab, -, hlong⟩
          refine hmore ⟨hab, ?_⟩
          rintro rfl
          simp at hlong
        · rw [charValue_sub_eq_zero]
          refine ⟨fun hab => ⟨hab, ?_⟩, And.left⟩
          rw [not_not.1 (not_and.1 hmore hab)]
          exact List.nil_prefix

/-- Storing a string with its terminator. -/
theorem storeString_eq {name : Buffer} (hname : 0 ∉ name) {buffer : Buffer} {i : Nat}
    (hroom : i + name.length < buffer.length) :
    storeString buffer i (name ++ [0]) =
      some (buffer.take i ++ (name ++ 0 :: buffer.drop (i + name.length + 1))) := by
  induction name generalizing buffer i with
  | nil =>
    rw [List.length_nil, Nat.add_zero] at hroom
    rw [List.nil_append, storeString, if_pos rfl, storeAt, if_pos hroom,
      List.set_eq_take_append_cons_drop, if_pos hroom]
    rfl
  | cons b name ih =>
    obtain ⟨hb, hname⟩ := not_or.1 (mt List.mem_cons.2 hname)
    rw [List.length_cons] at hroom
    have hi : i < buffer.length := by omega
    have hstored : storeAt buffer i b = some (buffer.set i b) := if_pos hi
    have htake : (buffer.set i b).take (i + 1) = buffer.take i ++ [b] := by
      rw [List.take_add_one, List.take_set_of_le le_rfl]
      simp [hi]
    rw [List.cons_append, storeString, if_neg (Ne.symm hb), hstored, Option.bind_eq_bind,
      Option.bind_some, ih hname (by rw [List.length_set]; omega), htake,
      List.drop_set_of_lt (by omega), List.length_cons]
    simp only [List.append_assoc, List.cons_append, List.nil_append]
    rw [show i + 1 + name.length + 1 = i + (name.length + 1) + 1 by omega]

/-- What the names of the commands are like. -/
def IsCommandName (name : Buffer) : Prop :=
  0 ∉ name ∧ 0x08 ∉ name ∧ name.length < KERNEL_SHELL_BUFFER_SIZE

theorem shellCommands_isCommandName : ∀ name ∈ shellCommands, IsCommandName name := by
  unfold IsCommandName
  decide

/-- The buffer behind a completion. -/
theorem kstrcat_name {name : Buffer} (hname : 0 ∉ name) {buffer : Buffer}
    (hroom : name.length < buffer.length) :
    kstrcat (buffer.set 0 0) (name ++ [0]) =
      some (name ++ 0 :: buffer.drop (name.length + 1)) := by
  cases buffer with
  | nil => simp at hroom
  | cons c buffer =>
    have hend : kstrlen (0 :: buffer) = some 0 := rfl
    rw [List.set_cons_zero, kstrcat, hend, Option.bind_eq_bind, Option.bind_some,
      storeString_eq hname (by simpa using hroom)]
    simp

/-- A completed line is shown as it stands in the buffer. -/
theorem Shows.completed {s : Prompt} (hs : Shows s) {name : Buffer} (hname : IsCommandName name)
    (hbegun : s.buffer.take s.index <+: name) :
    Shows ⟨name ++ 0 :: s.buffer.drop (name.length + 1), name.length,
      s.echo ++ name.drop s.index⟩ := by
  obtain ⟨hzero, hback, hlong⟩ := hname
  have hsize := hs.size
  have hroom := hs.room
  have hfront : s.buffer.take s.index = name.take s.index := by
    have hlength : (s.buffer.take s.index).length = s.index := by
      rw [List.length_take]
      omega
    rw [List.prefix_iff_eq_take.1 hbegun, hlength]
  refine ⟨?_, hlong, ?_, ?_⟩
  · simp only [List.length_append, List.length_cons, List.length_drop]
    omega
  · rw [shown_append, foldl_showChar fun h => hback (List.mem_of_mem_drop h), hs.shown, hfront,
      List.take_append_drop, List.take_left]
  · rw [List.take_left]
    exact hzero

/-- **A tab completes the line on the screen too**, or changes nothing. -/
theorem Shows.autocompleteFrom {s : Prompt} (hs : Shows s) (hindex : s.index ≠ 0)
    {commands : List Buffer} (hcommands : ∀ name ∈ commands, IsCommandName name) :
    ∃ t, autocompleteFrom s commands = some t ∧ Shows t := by
  induction commands with
  | nil => exact ⟨s, rfl, hs⟩
  | cons name commands ih =>
    have hname := hcommands name List.mem_cons_self
    have hlength : (s.buffer.take s.index).length = s.index := by
      have := hs.size
      have := hs.room
      rw [List.length_take]
      omega
    obtain ⟨d, hd, hzero⟩ := kstrncmpFrom_spec name (s.buffer.drop s.index) hs.text
      (fun h => hindex (by rw [← hlength, h]; rfl))
    rw [hlength, List.take_append_drop] at hd
    have hcompare : kstrncmp s.buffer (name ++ [0]) s.index = some d := (if_neg hindex).trans hd
    rw [Shell.autocompleteFrom, hcompare, Option.bind_eq_bind, Option.bind_some]
    by_cases hbegun : s.buffer.take s.index <+: name
    · have hle : s.index ≤ name.length := hlength ▸ hbegun.length_le
      have hfirst : storeAt s.buffer 0 0 = some (s.buffer.set 0 0) :=
        if_pos (by rw [hs.size]; decide)
      have hroom : name.length < s.buffer.length := hname.2.2.trans_eq hs.size.symm
      have hcat := kstrcat_name hname.1 hroom
      refine ⟨_, ?_, hs.completed hname hbegun⟩
      rw [if_pos (hzero.2 hbegun), if_pos hle]
      simp [hfirst, hcat, kstrlen_string hname.1]
    · rw [if_neg fun h => hbegun (hzero.1 h)]
      exact ih fun name' h => hcommands name' (List.mem_cons_of_mem name h)

theorem Shows.kshellParseAutocomplete {s : Prompt} (hs : Shows s) :
    ∃ t, kshellParseAutocomplete s = some t ∧ Shows t := by
  by_cases hindex : s.index = 0
  · exact ⟨s, if_pos hindex, hs⟩
  · obtain ⟨t, ht, hshows⟩ := hs.autocompleteFrom hindex shellCommands_isCommandName
    exact ⟨t, (if_neg hindex).trans ht, hshows⟩

/-! ## Typing -/

theorem Shows.prompt {buffer : Buffer} (hbuffer : buffer.length = KERNEL_SHELL_BUFFER_SIZE) :
    Shows (prompt buffer) :=
  ⟨hbuffer, Nat.succ_pos _, by simp [Shell.prompt, Shell.shown], by simp [Shell.prompt]⟩

/-- **A backspace takes the last character off the screen and off the line.** -/
theorem Shows.erased {s : Prompt} (hs : Shows s) :
    Shows { s with index := s.index - 1, echo := s.echo ++ [0x08] } := by
  have hsize := hs.size
  have hroom := hs.room
  have hdrop : (s.buffer.take s.index).dropLast = s.buffer.take (s.index - 1) := by
    rw [List.dropLast_take (by omega)]
  refine ⟨hsize, by dsimp only; omega, ?_, ?_⟩
  · rw [shown_append, hs.shown, ← hdrop]
    rfl
  · rw [← hdrop]
    exact fun h => hs.text (List.mem_of_mem_dropLast h)

/-- **A letter is put behind the line and echoed.** -/
theorem Shows.typed {s : Prompt} (hs : Shows s) {c : UInt8} (hzero : c ≠ 0) (hback : c ≠ 0x08)
    (hfull : s.index < KERNEL_SHELL_BUFFER_SIZE - 1) :
    Shows ⟨s.buffer.set s.index c, s.index + 1, s.echo ++ [c]⟩ := by
  have hi : s.index < s.buffer.length := hs.room.trans_eq hs.size.symm
  have htake : (s.buffer.set s.index c).take (s.index + 1) = s.buffer.take s.index ++ [c] := by
    rw [List.take_add_one, List.take_set_of_le le_rfl]
    simp [hi]
  refine ⟨(List.length_set).trans hs.size, by dsimp only; omega, ?_, ?_⟩
  · rw [shown_append, hs.shown, htake, foldl_showChar (by simpa using hback.symm)]
  · rw [htake]
    intro h
    rcases List.mem_append.1 h with h | h
    · exact hs.text h
    · exact hzero (List.mem_singleton.1 h).symm

/-- **Every key keeps the buffer and the screen in step**, whatever the buffer holds behind the
line. -/
theorem Shows.round {s : Prompt} (hs : Shows s) {c : UInt8} (hzero : c ≠ 0) (hline : c ≠ 0x0a) :
    ∃ t, kshellRound s c = some (.reads t) ∧ Shows t := by
  rw [kshellRound, if_neg hline]
  by_cases hback : c = 0x08
  · rw [if_pos hback]
    by_cases hindex : s.index > 0
    · exact ⟨_, if_pos hindex, hs.erased⟩
    · exact ⟨s, if_neg hindex, hs⟩
  rw [if_neg hback]
  by_cases htab : c = 0x09
  · obtain ⟨t, ht, hshows⟩ := hs.kshellParseAutocomplete
    exact ⟨t, by rw [if_pos htab, ht]; rfl, hshows⟩
  rw [if_neg htab]
  by_cases hfull : s.index < KERNEL_SHELL_BUFFER_SIZE - 1
  · have hstore : storeAt s.buffer s.index c = some (s.buffer.set s.index c) :=
      if_pos (hs.room.trans_eq hs.size.symm)
    exact ⟨_, by rw [if_pos hfull, hstore]; rfl, hs.typed hzero hback hfull⟩
  · exact ⟨s, if_neg hfull, hs⟩

/-- The line that runs at a newline. -/
theorem Shows.newline {s : Prompt} (hs : Shows s) :
    ∃ buffer, kshellRound s 0x0a = some (.runs buffer) ∧ line buffer = Shell.shown s.echo := by
  have hi : s.index < s.buffer.length := hs.room.trans_eq hs.size.symm
  refine ⟨s.buffer.set s.index 0, ?_, ?_⟩
  · rw [kshellRound, if_pos rfl, storeAt, if_pos hi]
    rfl
  · rw [List.set_eq_take_append_cons_drop, if_pos hi, hs.shown]
    exact takeWhile_string hs.text _

/-- **The line editor executes what is shown.**  From any buffer, after any keys but NUL and
newline, the index is in the buffer, nothing was stored outside, and what is shown since the prompt
is the buffer up to the index; a newline then runs the line that is shown. -/
theorem line_is_shown {buffer : Buffer} (hbuffer : buffer.length = KERNEL_SHELL_BUFFER_SIZE)
    {keys : List UInt8} (hkeys : ∀ c ∈ keys, c ≠ 0 ∧ c ≠ 0x0a) :
    ∃ s, run kshellKey (prompt buffer) keys = some s ∧ s.index ≤ 511 ∧
      s.buffer.length = KERNEL_SHELL_BUFFER_SIZE ∧ shown s.echo = s.buffer.take s.index ∧
      ∃ command, kshellRound s 0x0a = some (.runs command) ∧ line command = shown s.echo := by
  have hstep : ∀ (s : Prompt) (c : UInt8), Shows s → (c ≠ 0 ∧ c ≠ 0x0a) →
      ∃ t, kshellKey s c = some t ∧ Shows t := by
    intro s c hs hc
    obtain ⟨t, ht, hshows⟩ := hs.round hc.1 hc.2
    exact ⟨t, by rw [kshellKey, ht], hshows⟩
  obtain ⟨s, hrun, hs⟩ := run_total hstep (Shows.prompt hbuffer)
    (admissible_of_mem fun c hc _ => hkeys c hc)
  exact ⟨s, hrun, Nat.le_of_lt_succ hs.room, hs.size, hs.shown, hs.newline⟩

/-- A typed `l`, an erased and a completed line. -/
theorem line_is_shown_completed :
    ∃ s, run kshellKey (prompt (List.replicate 512 0x41)) [0x6c, 0x08, 0x63, 0x6c, 0x09] =
        some s ∧ s.index ≤ 511 ∧ s.buffer.length = KERNEL_SHELL_BUFFER_SIZE ∧
      shown s.echo = s.buffer.take s.index ∧
      ∃ command, kshellRound s 0x0a = some (.runs command) ∧ line command = shown s.echo :=
  line_is_shown List.length_replicate (by simp)

end DelOs.Shell
