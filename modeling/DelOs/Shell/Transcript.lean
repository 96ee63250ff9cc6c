import DelOs.Shell.Machine
import DelOs.Shell.PrintedBytes
import DelOs.Tty.Page

/-!
# The transcript on the screen

What is on the screen is what has been printed up to the last prompt, and behind it the line as it
would be run: a character that was typed and erased again has left no trace.

* `TranscriptMachine` — the queue, the files by path with the line, and all that was printed up to
  the prompt.
* `ShowsTranscript` — the sheet shows the transcript and the line, from some row on, and the line
  begins on the screen.
* `ShowsTranscript.echo`, `ShowsTranscript.newline` — a key of the line, and a newline.
* `machine_shows_transcript` — **the bytes of the text buffer are those of the transcript and the
  line**, over every orderly run.
-/

namespace DelOs

open Keyboard Transition Tty
open Shell (bytesOf)

/-! ## What the machine is for -/

/-- The characters that wait, the files by path with the line, and what has been printed up to the
prompt. -/
structure TranscriptMachine where
  queue : TypedQueue
  shell : PathShell
  printed : List Cell

/-- All that is to be seen. -/
def TranscriptMachine.text (m : TranscriptMachine) : List Cell :=
  m.printed ++ colored VGA_TEXT_DEFAULT_COLOR m.shell.text

/-- A newline prints behind the line; any other key changes nothing but the line. -/
noncomputable def TranscriptMachine.step (proc : Nat) (m : TranscriptMachine) :
    MachineEvent → Option (List Print × TranscriptMachine)
  | .code code => some ([], { m with queue := m.queue.code code })
  | .round halts pages junk clock =>
    match m.queue.getchar halts with
    | (none, queue) => some ([], { m with queue := queue })
    | (some key, queue) =>
      (m.shell.round proc ⟨key, pages, junk⟩).map fun y =>
        (y.1, ⟨queue, y.2, if key = 0x0a then m.text ++ printCells clock y.1 else m.printed⟩)

/-- No backspace. -/
def NoBackspace (c : UInt8) : Prop := c ≠ 0x08

theorem noBackspace_of_plain (c : UInt8) (h : isPlain c = true) : NoBackspace c := by
  rintro rfl
  cases h

/-- **The sheet shows the transcript and the line.**  The line has no newline, it fits the prompt
buffer, and its first character is on the screen; and no name and no file holds a backspace. -/
structure ShowsTranscript (s : Sheet) (m : TranscriptMachine) : Prop where
  pages : ∃ top, Pages s m.text top ∧ top ≤ (layout m.printed).finished.length
  line : ∀ c ∈ m.shell.text, c ≠ 0x08 ∧ c ≠ 0x0a
  fits : m.shell.text.length ≤ 511
  files : m.shell.fs.MadeOf NoBackspace

/-! ## The line -/

/-- A row that goes on has room. -/
theorem layout_current_lt (text : List Cell) : (layout text).current.length < VGA_COLUMNS_MAX := by
  induction text using List.reverseRecOn with
  | nil => exact Nat.succ_pos _
  | append_singleton text cell ih =>
    rw [layout_snoc, feed]
    split_ifs
    · exact Nat.succ_pos _
    · exact Nat.succ_pos _
    · rw [List.length_append, List.length_singleton]
      omega

/-- A command is short, and its name has no special characters. -/
theorem shellCommands_plain : ∀ name ∈ Shell.shellCommands,
    name.length ≤ 511 ∧ ∀ c ∈ name, c ≠ 0 ∧ c ≠ 0x08 ∧ c ≠ 0x0a := by
  decide +kernel

/-- A completion is what is missing of a command. -/
theorem completion_spec (text : CString) :
    (∀ c ∈ completion text, c ≠ 0 ∧ c ≠ 0x08 ∧ c ≠ 0x0a) ∧
      (text ++ completion text).length ≤ max text.length 511 := by
  unfold completion
  split_ifs with hnil
  · exact ⟨fun c hc => absurd hc List.not_mem_nil, by rw [List.append_nil]; exact le_max_left _ _⟩
  cases hfind : Shell.shellCommands.find? fun name => text.isPrefixOf name with
  | none =>
    rw [Option.getD_none, List.drop_length, List.append_nil]
    exact ⟨fun c hc => absurd hc List.not_mem_nil, le_max_left _ _⟩
  | some name =>
    obtain ⟨hshort, hchars⟩ := shellCommands_plain name (List.mem_of_find?_eq_some hfind)
    have hprefix : text <+: name :=
      List.isPrefixOf_iff_prefix.1 (List.find?_some (p := fun name => text.isPrefixOf name) hfind)
    rw [Option.getD_some]
    refine ⟨fun c hc => hchars c (List.mem_of_mem_drop hc), ?_⟩
    rw [List.length_append, List.length_drop, Nat.add_sub_cancel' hprefix.length_le]
    exact hshort.trans (le_max_right _ _)

/-- The characters that an echo prints. -/
theorem printCells_echo (clock : Nat → Clock) (key : UInt8) {echo : List UInt8}
    (hzero : 0 ∉ echo) :
    printCells clock (echoPrints key echo) = colored VGA_TEXT_DEFAULT_COLOR echo := by
  unfold echoPrints
  split_ifs with hnil htab
  · rw [hnil]
    rfl
  · have hwhole : (untilNul echo).1 = echo :=
      List.takeWhile_eq_self_iff.2 fun c hc => decide_eq_true fun h0 => hzero (h0 ▸ hc)
    rw [printCells, Print.cells, hwhole, printCells, List.append_nil]
  · clear hzero hnil
    induction echo generalizing clock with
    | nil => rfl
    | cons c echo ih =>
      rw [List.map_cons, printCells, ih]
      rfl

variable {s : Sheet} {m : TranscriptMachine} {proc : Nat}

/-- A key other than a backspace writes behind the line. -/
theorem ShowsTranscript.typed (h : ShowsTranscript s m) {echo : List UInt8}
    (hchars : ∀ c ∈ echo, c ≠ 0 ∧ c ≠ 0x08 ∧ c ≠ 0x0a) (hfits : (m.shell.text ++ echo).length ≤ 511)
    (queue : TypedQueue) :
    ShowsTranscript ((colored VGA_TEXT_DEFAULT_COLOR echo).foldl Sheet.putc s)
      ⟨queue, ⟨m.shell.fs, echo.foldl Shell.showChar m.shell.text⟩, m.printed⟩ := by
  obtain ⟨⟨top, hpages, htop⟩, hline, -, hfiles⟩ := h
  have hback : (0x08 : UInt8) ∉ echo := fun hc => (hchars _ hc).2.1 rfl
  obtain ⟨top', hshown, htop'⟩ := hpages.run
    (forall_mem_colored (P := NoBackspace) fun c hc => (hchars c hc).2.1)
  have hall : ∀ c ∈ m.shell.text ++ echo, c ≠ 0x08 ∧ c ≠ 0x0a :=
    List.forall_mem_append.2 ⟨hline, fun c hc => (hchars c hc).2⟩
  have htext : m.text ++ colored VGA_TEXT_DEFAULT_COLOR echo =
      m.printed ++ colored VGA_TEXT_DEFAULT_COLOR (m.shell.text ++ echo) := by
    rw [TranscriptMachine.text, colored, colored, colored, List.map_append, List.append_assoc]
  rw [Shell.foldl_showChar hback]
  rw [htext] at hshown htop'
  refine ⟨⟨top', hshown, htop'.trans ?_⟩, hall, hfits, hfiles⟩
  exact nextTop_line_le m.printed (forall_mem_colored (P := (· ≠ 0x0a)) fun c hc => (hall c hc).2)
    (by rw [colored, List.length_map]; exact hfits) (layout_current_lt _) htop

/-- **A backspace takes the last character of the line.** -/
theorem ShowsTranscript.erased (h : ShowsTranscript s m) (hne : m.shell.text ≠ [])
    (queue : TypedQueue) :
    ShowsTranscript (s.putc (0x08, VGA_TEXT_DEFAULT_COLOR))
      ⟨queue, ⟨m.shell.fs, m.shell.text.dropLast⟩, m.printed⟩ := by
  obtain ⟨⟨top, hpages, htop⟩, hline, hfits, hfiles⟩ := h
  obtain ⟨front, last, hsplit⟩ : ∃ front last, m.shell.text = front ++ [last] :=
    ⟨_, _, (List.dropLast_append_getLast hne).symm⟩
  rw [hsplit] at hline hfits ⊢
  rw [TranscriptMachine.text, hsplit, colored, List.map_append, List.map_singleton,
    ← List.append_assoc] at hpages
  rw [List.dropLast_concat]
  have hshown :
      top ≤ (layout (m.printed ++ colored VGA_TEXT_DEFAULT_COLOR front)).finished.length :=
    htop.trans (layout_finished_le _ _)
  refine ⟨⟨top, hpages.erase ?_ hshown _, htop⟩,
    fun c hc => hline c (List.mem_append_left _ hc), ?_, hfiles⟩
  · exact (hline last (by simp)).2
  · rw [List.length_append] at hfits
    exact (Nat.le_add_right _ _).trans hfits

/-- **A key of the line** does to the screen what it does to the line. -/
theorem ShowsTranscript.echo (h : ShowsTranscript s m) (clock : Nat → Clock) {key : UInt8}
    (hzero : key ≠ 0) (hline : key ≠ 0x0a) (queue : TypedQueue) :
    ShowsTranscript (s.prints clock (echoPrints key (keyEcho m.shell.text key)))
      ⟨queue, ⟨m.shell.fs, (keyEcho m.shell.text key).foldl Shell.showChar m.shell.text⟩,
        m.printed⟩ := by
  have hnothing := h.typed (List.forall_mem_nil _)
    (by rw [List.append_nil]; exact h.fits) queue
  unfold keyEcho
  rw [Sheet.prints]
  split_ifs with hback hempty htab hroom
  · rw [printCells_echo _ _ List.not_mem_nil]
    exact hnothing
  · rw [printCells_echo _ _ (by decide)]
    exact h.erased hempty queue
  · obtain ⟨hchars, hlength⟩ := completion_spec m.shell.text
    rw [printCells_echo _ _ fun h0 => (hchars 0 h0).1 rfl]
    exact h.typed hchars (hlength.trans (max_le h.fits le_rfl)) queue
  · rw [printCells_echo _ _ (by simpa using hzero.symm)]
    refine h.typed (List.forall_mem_singleton.2 ⟨hzero, hback, hline⟩) ?_ queue
    rw [List.length_append]
    exact hroom
  · rw [printCells_echo _ _ List.not_mem_nil]
    exact hnothing

/-- **A newline prints behind the line**, and a new one begins. -/
theorem ShowsTranscript.newline (h : ShowsTranscript s m) (clock : Nat → Clock)
    {y : (Nat × List Print) × PathFs}
    (hy : m.shell.fs.execute proc (Words.words Shell.kshellParseIsDelimiter m.shell.text) = some y)
    (queue : TypedQueue) :
    ShowsTranscript (s.prints clock (.puts [0x0a] :: y.1.2 ++ printShellPrompt))
      ⟨queue, ⟨y.2, []⟩,
        m.text ++ printCells clock (.puts [0x0a] :: y.1.2 ++ printShellPrompt)⟩ := by
  obtain ⟨⟨top, hpages, -⟩, hline, -, hfiles⟩ := h
  have hwords : ∀ word ∈ Words.words Shell.kshellParseIsDelimiter m.shell.text,
      Made NoBackspace word := fun word hword c hc =>
    (hline c (Words.mem_of_mem_words hword hc)).1
  obtain ⟨hkept, hmade⟩ := hfiles.execute noBackspace_of_plain hwords hy
  have hprompt : MadePrints NoBackspace printShellPrompt :=
    List.forall_mem_cons.2 ⟨trivial,
      madePrints_singleton (Made.of_all noBackspace_of_plain (by decide))⟩
  have hout : MadePrints NoBackspace (.puts [0x0a] :: y.1.2 ++ printShellPrompt) :=
    List.forall_mem_append.2 ⟨List.forall_mem_cons.2
      ⟨Made.of_all noBackspace_of_plain (by decide), hmade⟩, hprompt⟩
  obtain ⟨top', hshown, -⟩ := hpages.run (printCells_made noBackspace_of_plain clock hout)
  refine ⟨⟨top', ?_, hshown.top_le⟩, fun c hc => absurd hc List.not_mem_nil, Nat.zero_le _, hkept⟩
  rw [TranscriptMachine.text, colored, List.map_nil, List.append_nil]
  exact hshown

/-- What waits is not on the screen. -/
theorem ShowsTranscript.withQueue (h : ShowsTranscript s m) (queue : TypedQueue) :
    ShowsTranscript s { m with queue := queue } :=
  ⟨h.pages, h.line, h.fits, h.files⟩

/-! ## The machine -/

/-- The keyboard and the shell stand for the queue and the files by path, and **the text buffer
holds the transcript and the line**. -/
structure MachineTranscribes (m : Machine) (B : TranscriptMachine) : Prop where
  keys : Types m.keys B.queue
  shell : ShellShows m.shell B.shell
  screen : ∃ s, Renders m.terminal s ∧ ShowsTranscript s B

/-- **A step of the machine is a step of the transcript.** -/
theorem MachineTranscribes.step {m : Machine} {B : TranscriptMachine} (h : MachineTranscribes m B)
    {e : MachineEvent} (he : MachineOrderly proc m e) :
    ∃ out m' B', m.step proc e = some (out, m') ∧ B.step proc e = some (out, B') ∧
      MachineTranscribes m' B' := by
  obtain ⟨s, hrenders, hshows⟩ := h.screen
  obtain ⟨out, m', A', hm', hA', hparts⟩ :=
    MachineShows.step (A := ⟨B.queue, B.shell, s⟩) ⟨h.keys, h.shell, hrenders⟩ he
  cases e with
  | code code =>
    obtain ⟨rfl, rfl⟩ := Prod.mk.inj (Option.some.inj hA')
    exact ⟨[], m', { B with queue := B.queue.code code }, hm', rfl, hparts.keys, hparts.shell, s,
      hparts.terminal, hshows.withQueue _⟩
  | round halts pages junk clock =>
    obtain ⟨keys, hkeys, -⟩ := h.keys.kkeyboardGetchar halts
    cases hchar : B.queue.getchar halts with
    | mk key queue =>
    rw [hchar] at hkeys
    simp only [PathMachine.step, hchar] at hA'
    cases key with
    | none =>
      obtain ⟨rfl, rfl⟩ := Prod.mk.inj (Option.some.inj hA')
      exact ⟨[], m', { B with queue := queue }, hm', by simp [TranscriptMachine.step, hchar],
        hparts.keys, hparts.shell, s, hparts.terminal, hshows.withQueue queue⟩
    | some key =>
      obtain ⟨⟨printed, shell⟩, hround, heq⟩ := Option.map_eq_some_iff.1 hA'
      obtain ⟨rfl, rfl⟩ := Prod.mk.inj heq
      refine ⟨printed, m', ⟨queue, shell,
        if key = 0x0a then B.text ++ printCells clock printed else B.printed⟩, hm',
        by simp [TranscriptMachine.step, hchar, hround], hparts.keys, hparts.shell, _,
        hparts.terminal, ?_⟩
      rw [PathShell.round] at hround
      split_ifs at hround with hline
      · obtain ⟨y, hexecute, heq⟩ := Option.map_eq_some_iff.1 hround
        obtain ⟨rfl, rfl⟩ := Prod.mk.inj heq
        rw [if_pos hline]
        exact hshows.newline clock hexecute queue
      · obtain ⟨rfl, rfl⟩ := Prod.mk.inj (Option.some.inj hround)
        rw [if_neg hline]
        exact hshows.echo clock (he key keys hkeys).key hline queue

/-- Nothing is typed, there are no files, and the prompt has been printed behind some text. -/
def TranscriptMachine.start (text : List Cell) (clock : Nat → Clock) : TranscriptMachine :=
  ⟨TypedQueue.initial, ⟨PathFs.empty, []⟩, text ++ printCells clock kshellStart⟩

end DelOs
