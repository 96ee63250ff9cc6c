import DelOs.Fs.PathMachine
import DelOs.Fs.PathShows
import DelOs.Shell.FileCommands

/-!
# The file commands by path

What the file commands are for, as commands on files by path.

* `PathFs.opened` — what an `open` for reading leads to.
* `PathFs.ls`, `PathFs.cat`, `PathFs.touch`, … — the commands: `ls` and `cat` leave everything as it
  is.
* `PathFs.execute` — the dispatch by name.
* `keyEcho`, `PathShell.round` — what is typed is what is shown, and a newline runs it.
-/

namespace DelOs

open Shell (bytesOf lineWords KERNEL_SHELL_BUFFER_SIZE)

namespace PathFs

variable (A : PathFs) (proc : Nat)

/-! ## The commands -/

/-- What an `open` for reading leads to, if there is a descriptor for it. -/
def opened (path : CString) (flags : Nat) : Option (List CString) :=
  (A.openAt path flags).1.filter fun _ => (A.freeFd proc).isSome

/-- The names in a directory, with a slash behind those of directories. -/
def listing (path : List CString) : List Print :=
  if A.tree path = some .dir then (A.list path).map fun name => Fs.lsPrint (A.dirent path name) else []

/-- `ls`. -/
def ls (path : CString) : Nat × List Print :=
  match A.opened proc path (KVFS_O_RDONLY ||| KVFS_O_DIRECTORY) with
  | none => (1, kprintfError "ls: cannot open directory")
  | some p => (0, A.listing p)

/-- The bytes of a file, up to the first zero, and a newline if the last one is none. -/
def contents (path : CString) (bytes : List UInt8) : List Print :=
  [.log .ok (bytesOf "%s") [path], .puts (Shell.line bytes)] ++
    if bytes.getLast? = some 0x0a then [] else [.putc 0x0a]

/-- `cat`.  A directory and an empty file print nothing. -/
def cat (path : CString) : Nat × List Print :=
  match A.opened proc path KVFS_O_RDONLY with
  | none => (1, kprintfError "cat: no such file or directory")
  | some p =>
    match A.tree p with
    | some (.file bytes) => (0, if bytes = [] then [] else contents path bytes)
    | _ => (0, [])

/-- What is printed of a command that may fail. -/
def complains (ok : Bool) (text : String) : Nat × List Print :=
  if ok then (0, []) else (1, kprintfError text)

/-- `touch`. -/
def touch (path : CString) : (Nat × List Print) × PathFs :=
  let (p, B) := A.openAt path KVFS_O_CREAT
  (complains (p.isSome && (B.freeFd proc).isSome) "touch: cannot create the file", B)

/-- `mkdir`. -/
def mkdir (path : CString) : (Nat × List Print) × PathFs :=
  let (r, B) := A.kmkdir proc path
  (complains (r ≠ -1) "mkdir: error while creating the directory", B)

/-- `rmdir`. -/
noncomputable def rmdir (path : CString) : (Nat × List Print) × PathFs :=
  let (r, B) := A.krmdir path
  (complains (r ≠ -1) "rmdir: error while removing the directory", B)

/-- `unlink`. -/
def unlink (path : CString) : (Nat × List Print) × PathFs :=
  let (unlinked, B) := A.kvfsUnlink path
  (complains unlinked "unlink: error while unlinking", B)

/-- `cd`. -/
def cd (path : CString) : (Nat × List Print) × PathFs :=
  let (r, B) := A.kvfsChdir path
  (complains (r ≠ -1) "cd: error while changing directory", B)

/-- `pwd`. -/
def pwd : Nat × List Print :=
  (0, [.log .info (bytesOf "%s") [Shell.line (joinedPath A.cwd)]])

/-! ## The dispatch -/

/-- A command with the path that it is about, or without one. -/
noncomputable def shellFunc : Option CString → ShellFunc → Option ((Nat × List Print) × PathFs)
  | path, .kshellLs => some (A.ls proc (path.getD dotName), A)
  | path, .kshellCd => some (A.cd (path.getD [slash]))
  | _, .kshellPwd => some (A.pwd, A)
  | some path, .kshellMkdir => some (A.mkdir proc path)
  | some path, .kshellTouch => some (A.touch proc path)
  | some path, .kshellCat => some (A.cat proc path, A)
  | some path, .kshellUnlink => some (A.unlink path)
  | some path, .kshellRmdir => some (A.rmdir path)
  | none, .kshellMkdir => some ((1, kprintfError "usage: mkdir <path>"), A)
  | none, .kshellTouch => some ((1, kprintfErrorText "usage: touch <path>"), A)
  | none, .kshellCat => some ((1, kprintfError "usage: cat <path>"), A)
  | none, .kshellUnlink => some ((1, kprintfErrorText "usage: unlink <path>"), A)
  | none, .kshellRmdir => some ((1, kprintfErrorText "usage: rmdir <path>"), A)
  | _, _ => none

/-- The command of a name. -/
def commandOf (name : CString) : Option ShellFunc :=
  (shellCommandTable.find? (·.1 = name)).map Prod.snd

/-- A command by its words. -/
noncomputable def execute : List CString → Option ((Nat × List Print) × PathFs)
  | [] => some ((0, []), A)
  | name :: args =>
    match commandOf name with
    | some func => A.shellFunc proc args.head? func
    | none => some ((1, [.log .warn (bytesOf "Command not found: %s") [name]]), A)

/-! ## Opening for a while -/

variable {A : PathFs} {proc fd flags : Nat} {path : CString} {o : OpenFile}

/-- Without `KVFS_O_CREAT` nothing is made. -/
theorem openAt_read (hcreat : flagSet flags KVFS_O_CREAT = false) :
    (A.openAt path flags).2 = A := by
  unfold openAt
  by_cases hpath : path = []
  · rw [if_pos hpath]
  · rw [if_neg hpath]
    cases A.walk (A.start path) (components path).dropLast with
    | none => rfl
    | some parent =>
      unfold openNamed
      simp only [hcreat]
      cases A.tree.enter dotName dotDotName parent ((components path).getLastD [slash]) <;> simp

theorem file_setFile (hfd : fd < KFD_MAX_COUNT) :
    (A.setFile proc fd (some o)).file proc fd = some o := by
  unfold file
  rw [if_neg (by omega), Int.toNat_natCast, setFile_files, if_pos ⟨rfl, rfl⟩]

/-- A descriptor that is closed again. -/
theorem kfdClose_setFile (hfd : fd < KFD_MAX_COUNT) (hnone : A.files proc fd = none) :
    (A.setFile proc fd (some o)).kfdClose proc fd = (true, A) := by
  rw [kfdClose, file_setFile hfd, Int.toNat_natCast]
  show (true, (A.setFile proc fd (some o)).setFile proc fd none) = (true, A)
  rw [setFile_setFile, ← hnone, setFile_self]

/-- A place of the table that is free. -/
structure FreeFile (A : PathFs) (proc fd : Nat) : Prop where
  bound : fd < KFD_MAX_COUNT
  none : A.files proc fd = none

theorem natCast_ne_error (fd : Nat) : (fd : Int) ≠ KFD_ERROR := by
  simp [KFD_ERROR]

/-- An `open` fails, or the file that it leads to gets a descriptor. -/
theorem kfdOpen_cases (proc : Nat) {found : Option (List CString)} {B : PathFs}
    (hat : A.openAt path flags = (found, B)) :
    ((found.isSome && (B.freeFd proc).isSome) = false ∧
        A.kfdOpen proc path flags = (KFD_ERROR, B)) ∨
      ∃ p fd, found = some p ∧ (B.freeFd proc).isSome = true ∧ FreeFile B proc fd ∧
        A.kfdOpen proc path flags = ((fd : Int), B.setFile proc fd (some ⟨p, 0, flags⟩)) := by
  unfold kfdOpen
  rw [hat]
  cases found with
  | none => exact Or.inl ⟨rfl, rfl⟩
  | some p =>
    cases hfree : B.freeFd proc with
    | none => exact Or.inl ⟨rfl, by simp [kfdCreate, hfree]⟩
    | some fd =>
      exact Or.inr ⟨p, fd, rfl, rfl, ⟨List.mem_range.1 (List.mem_of_find?_eq_some hfree),
        by simpa using List.find?_some hfree⟩, by simp [kfdCreate, hfree]⟩

/-- An `open` for reading leaves the files as they are. -/
theorem kfdOpen_read (A : PathFs) (proc : Nat) (path : CString)
    (hcreat : flagSet flags KVFS_O_CREAT = false) :
    (A.opened proc path flags = none ∧ A.kfdOpen proc path flags = (KFD_ERROR, A)) ∨
      ∃ p fd, A.opened proc path flags = some p ∧ FreeFile A proc fd ∧
        A.kfdOpen proc path flags = ((fd : Int), A.setFile proc fd (some ⟨p, 0, flags⟩)) := by
  have hat : A.openAt path flags = ((A.openAt path flags).1, A) := by
    conv_lhs => rw [← Prod.mk.eta (p := A.openAt path flags), openAt_read hcreat]
  unfold opened
  rcases kfdOpen_cases proc hat with ⟨hno, hopen⟩ | ⟨p, fd, hfound, hfree, hnew, hopen⟩
  · refine Or.inl ⟨?_, hopen⟩
    cases hfound : (A.openAt path flags).1 with
    | none => rfl
    | some p =>
      rw [hfound, Option.isSome_some, Bool.true_and] at hno
      simp [hno]
  · exact Or.inr ⟨p, fd, by simp [hfound, hfree], hnew, hopen⟩

end PathFs

/-! ## The line -/

/-- What is missing of the name of the first command that begins with a text. -/
def completion (text : CString) : CString :=
  if text = [] then []
  else ((Shell.shellCommands.find? fun name => text.isPrefixOf name).getD text).drop text.length

/-- What a key puts on the screen behind the text of a line. -/
def keyEcho (text : CString) (key : UInt8) : List UInt8 :=
  if key = 0x08 then (if text = [] then [] else [0x08])
  else if key = 0x09 then completion text
  else if text.length < KERNEL_SHELL_BUFFER_SIZE - 1 then [key] else []

/-- What the shell is to who types: the files by path, and the text of the line. -/
structure PathShell where
  fs : PathFs
  text : CString

/-- A key: what it puts on the screen is the line, and a newline runs the words of the line. -/
noncomputable def PathShell.round (proc : Nat) (s : PathShell) (i : Keystroke) :
    Option (List Print × PathShell) :=
  if i.key = 0x0a then
    (s.fs.execute proc (Words.words Shell.kshellParseIsDelimiter s.text)).map fun y =>
      (.puts [0x0a] :: y.1.2 ++ printShellPrompt, ⟨y.2, []⟩)
  else
    some (echoPrints i.key (keyEcho s.text i.key),
      ⟨s.fs, (keyEcho s.text i.key).foldl Shell.showChar s.text⟩)

/-! ## The words of a line -/

theorem kstrcmp_eq_zero {a b : CString} (ha : 0 ∉ a) (hb : 0 ∉ b) : kstrcmp a b = 0 ↔ a = b := by
  induction a generalizing b with
  | nil =>
    cases b with
    | nil => simp [kstrcmp]
    | cons c b =>
      have hc : Shell.charValue 0 - Shell.charValue c = 0 ↔ 0 = c := Shell.charValue_sub_eq_zero
      have hzero : (0 : UInt8) ≠ c := fun h => hb (h ▸ List.mem_cons_self)
      have hneg : - Shell.charValue c = Shell.charValue 0 - Shell.charValue c := by
        rw [show Shell.charValue 0 = 0 from rfl, Int.zero_sub]
      simp [kstrcmp, hneg, hc, hzero]
  | cons c a ih =>
    have hac : (0 : UInt8) ∉ a := fun h => ha (List.mem_cons_of_mem _ h)
    cases b with
    | nil =>
      have hc : Shell.charValue c - Shell.charValue 0 = 0 ↔ c = 0 := Shell.charValue_sub_eq_zero
      rw [show Shell.charValue 0 = 0 from rfl, Int.sub_zero] at hc
      have hzero : c ≠ 0 := fun h => ha (h ▸ List.mem_cons_self)
      simp [kstrcmp, hc, hzero]
    | cons d b =>
      by_cases hcd : c = d
      · simp [kstrcmp, hcd, ih hac fun h => hb (List.mem_cons_of_mem _ h)]
      · simp [kstrcmp, hcd, Shell.charValue_sub_eq_zero]

/-- **The dispatch finds the command of the name.** -/
theorem find_shellCommandTable {name : CString} (hname : 0 ∉ name) :
    (shellCommandTable.find? fun command => kstrcmp name command.1 = 0).map Prod.snd =
      PathFs.commandOf name := by
  have hzero : ∀ command ∈ shellCommandTable, 0 ∉ command.1 := fun command h =>
    (Shell.shellCommands_isCommandName _ (List.of_mem_zip h).1).1
  rw [PathFs.commandOf]
  congr 1
  refine List.find?_congr fun command h => ?_
  rw [Bool.eq_iff_iff, decide_eq_true_iff, decide_eq_true_iff, kstrcmp_eq_zero hname (hzero _ h),
    eq_comm]

/-- The strings at the places in the front of a list of pointers. -/
theorem filterMap_pointers {α β : Type} (f : α → β) {ws : List β} {argv : List (Option α)}
    (h : ∀ i (hi : i < ws.length), ∃ pos, argv[i]? = some (some pos) ∧ f pos = ws[i]) :
    (argv.take ws.length).filterMap (Option.map f) = ws := by
  induction ws generalizing argv with
  | nil => rfl
  | cons w ws ih =>
    obtain ⟨pos, hpos, hf⟩ := h 0 (Nat.succ_pos _)
    cases argv with
    | nil => cases hpos
    | cons a argv =>
      obtain rfl : a = some pos := by simpa using hpos
      have hrest := ih fun i hi => by simpa using h (i + 1) (Nat.succ_lt_succ hi)
      simp only [List.length_cons, List.take_succ_cons, List.filterMap_cons, Option.map_some, hrest]
      rw [hf]
      rfl

/-- **The commands get the words of a line that is parsed.** -/
theorem arguments_eq {line : Shell.Buffer} (h : Shell.ParsesLine line) :
    ∃ r, Shell.setupRunShellCommand line = some r ∧ r.arguments = lineWords line := by
  obtain ⟨r, hr, hargc, hargs, -⟩ := h
  exact ⟨r, hr, by rw [Shell.Command.arguments, hargc, filterMap_pointers r.string hargs]⟩

end DelOs
