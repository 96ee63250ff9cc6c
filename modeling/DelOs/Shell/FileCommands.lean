import DelOs.Fs.Calls
import DelOs.Shell.LineEditor
import DelOs.Shell.Pwd
import DelOs.Sys.Syscall

/-!
# The shell's file commands

`src/kernel/shell/commands/fs` and the dispatch of `kshell_execute_command`.

* `LogLevel`, `Print` — what a command sends to the terminal.
* `Ran` — what a command returns, prints and leaves.
* `Fs.kfdOpendir`, `Fs.kfdClosedir` — a directory as an iterator.
* `Fs.kshellLs`, `Fs.kshellMkdir`, `Fs.kshellTouch`, `Fs.kshellCat`, `Fs.kshellUnlink`,
  `Fs.kshellRmdir`, `Fs.kshellPwdCommand`, `Fs.kshellCd` — the commands.
* `ShellFunc`, `shellCommandTable`, `Fs.kshellExecuteCommand` — `shell_commands`, and the dispatch.
* `ShellState.round` — the loop of `kshell_start`.

The arguments of a command are a list of strings; `argc` is its length.
-/

namespace DelOs

open Shell (bytesOf charValue)

/-! ## The terminal -/

/-- The label of a `KPRINTF_` macro. -/
inductive LogLevel
  | info
  | warn
  | debug
  | ok
  | error
  deriving DecidableEq, Repr

/-- What the commands call: a `KPRINTF_` macro with its format and its strings, `KPRINTF_DATE`,
`ktty_puts`, `ktty_putc`. -/
inductive Print
  | log (level : LogLevel) (format : CString) (args : List CString)
  | date
  | puts (text : CString)
  | putc (c : UInt8)
  deriving DecidableEq, Repr

/-- `KPRINTF_ERROR` of a text without directives. -/
def kprintfError (text : String) : List Print := [.log .error (bytesOf text) []]

/-- `KPRINTF_ERROR("%s", ...)`. -/
def kprintfErrorText (text : String) : List Print := [.log .error (bytesOf "%s") [bytesOf text]]

/-- What a command returns, what it prints, and what it leaves. -/
structure Ran where
  code : Nat
  out : List Print
  fs : Fs

namespace Fs

variable (s : Fs) (proc : Nat)

/-! ## Directories -/

/-- `sizeof(fd_dir_t)`. -/
def sizeofFdDir : Nat := 4

/-- `kfd_opendir`: the structure and its descriptor.  Without memory the descriptor is stored through
a null pointer. -/
def kfdOpendir (path : CString) : Option (Option (Ptr × Int) × Fs) := do
  let (dir, s) := s.new sizeofFdDir .raw
  if dir = 0 then none
  let (fd, s) ← s.kfdOpen proc path (KVFS_O_RDONLY ||| KVFS_O_DIRECTORY) 0
  if fd = KFD_ERROR then return (none, s.kfree dir)
  return (some (dir, fd), s)

/-- `kfd_closedir`. -/
def kfdClosedir (dir : Ptr × Int) : Option (Bool × Fs) := do
  let (closed, s) ← s.kfdClose proc dir.2
  if closed = false then return (false, s)
  return (true, s.kfree dir.1)

/-- What `kshell_ls` prints of a name. -/
def lsPrint (d : Dirent) : Print :=
  .log .info (bytesOf "%s%s") [d.name, if d.type = KVFS_STAT_IFDIR then [slash] else []]

/-- The loop of `kshell_ls`.  It ends after as many rounds as the heap has blocks at most. -/
def lsLoop (proc : Nat) (fd : Int) : Nat → Fs → Option (List Print × Fs)
  | 0, _ => none
  | fuel + 1, s => do
    match ← s.kfdReaddir proc fd with
    | (none, s) => return ([], s)
    | (some dirent, s) =>
      let (out, s) ← lsLoop proc fd fuel s
      return (lsPrint dirent :: out, s)

/-- `kshell_ls`. -/
def kshellLs (args : List CString) : Option Ran := do
  match ← s.kfdOpendir proc (args.getD 1 dotName) with
  | (none, s) => return ⟨1, kprintfError "ls: cannot open directory", s⟩
  | (some dir, s) =>
    let (out, s) ← lsLoop proc dir.2 (s.heap.length + 1) s
    let (_, s) ← s.kfdClosedir proc dir
    return ⟨0, out, s⟩

/-- `kshell_mkdir`. -/
def kshellMkdir : List CString → Option Ran
  | _ :: path :: _ => do
    let (r, s) ← s.kmkdir proc path
    if r = -1 then return ⟨1, kprintfError "mkdir: error while creating the directory", s⟩
    return ⟨0, [], s⟩
  | _ => some ⟨1, kprintfError "usage: mkdir <path>", s⟩

/-- `kshell_rmdir`. -/
def kshellRmdir : List CString → Option Ran
  | _ :: path :: _ => do
    let (r, s) ← s.krmdir path
    if r = -1 then return ⟨1, kprintfError "rmdir: error while removing the directory", s⟩
    return ⟨0, [], s⟩
  | _ => some ⟨1, kprintfErrorText "usage: rmdir <path>", s⟩

/-- `kshell_cd`. -/
def kshellCd (args : List CString) : Option Ran := do
  let (r, s) ← s.kvfsChdir (args.getD 1 [slash])
  if r = -1 then return ⟨1, kprintfError "cd: error while changing directory", s⟩
  return ⟨0, [], s⟩

/-- `kshell_pwd`, with what it prints. -/
def kshellPwdCommand : Option Ran := do
  let (code, buffer, s) ← s.kshellPwd
  if code ≠ 0 then
    return ⟨1, kprintfErrorText "pwd: failed to resolve current directory", s⟩
  return ⟨0, [.log .info (bytesOf "%s") [Shell.line buffer]], s⟩

/-! ## Files -/

/-- `kshell_touch`. -/
def kshellTouch : List CString → Option Ran
  | _ :: path :: _ => do
    let (fd, s) ← s.kfdOpen proc path KVFS_O_CREAT 0o644
    if fd = KFD_ERROR then return ⟨1, kprintfError "touch: cannot create the file", s⟩
    let (_, s) ← s.kfdClose proc fd
    return ⟨0, [], s⟩
  | _ => some ⟨1, kprintfErrorText "usage: touch <path>", s⟩

/-- `kshell_unlink`. -/
def kshellUnlink : List CString → Option Ran
  | _ :: path :: _ => do
    let (unlinked, s) ← s.kvfsUnlink path
    if unlinked = false then return ⟨1, kprintfError "unlink: error while unlinking", s⟩
    return ⟨0, [], s⟩
  | _ => some ⟨1, kprintfErrorText "usage: unlink <path>", s⟩

/-- What `kshell_cat` prints of a buffer of `len` bytes and a terminator. -/
def catPrints (path : CString) (buffer : List UInt8) (len : Nat) : List Print :=
  [.log .ok (bytesOf "%s") [path], .puts (Shell.line buffer)] ++
    if buffer.getD (len - 1) 0 ≠ 0x0a then [.putc 0x0a] else []

/-- `kshell_cat`. -/
def kshellCat : List CString → Option Ran
  | _ :: path :: _ => do
    let (fd, s) ← s.kfdOpen proc path KVFS_O_RDONLY 0
    if fd = KFD_ERROR then return ⟨1, kprintfError "cat: no such file or directory", s⟩
    match ← s.kfdStat proc fd with
    | none =>
      let (_, s) ← s.kfdClose proc fd
      return ⟨1, [], s⟩
    | some st =>
      let len := u32 st.size
      if len = 0 then
        let (_, s) ← s.kfdClose proc fd
        return ⟨0, [], s⟩
      let (buffer, s) := s.new (u32 (len + 1)) .raw
      if buffer = 0 then
        let (_, s) ← s.kfdClose proc fd
        return ⟨1, kprintfError "cat: failed to read, no more memory space available", s⟩
      let (bytes, s) ← s.kfdRead proc fd len
      -- behind the terminator stands whatever the block held
      let out := catPrints path (s.readBytes (bytes ++ [0]) (len + 1)) len
      let (_, s) ← (s.kfree buffer).kfdClose proc fd
      return ⟨0, out, s⟩
  | _ => some ⟨1, kprintfError "usage: cat <path>", s⟩

end Fs

/-! ## The dispatch -/

/-- `kstrcmp` of two strings. -/
def kstrcmp : CString → CString → Int
  | [], [] => 0
  | [], b :: _ => - charValue b
  | a :: _, [] => charValue a
  | a :: as, b :: bs => if a = b then kstrcmp as bs else charValue a - charValue b

/-- The functions in `shell_commands`. -/
inductive ShellFunc
  | kshellHelp
  | kshellReboot
  | kshellClear
  | kshellUptime
  | kshellTimer
  | kshellShutdown
  | kshellPanicTest
  | kshellRepeat
  | kshellLoadkeys
  | kshellDebug
  | kshellMemDump
  | kshellPmmDump
  | kshellBitmapDump
  | kshellHeapDump
  | kshellLs
  | kshellMkdir
  | kshellTouch
  | kshellCat
  | kshellUnlink
  | kshellRmdir
  | kshellPwd
  | kshellCd
  | kshellPs
  deriving DecidableEq, Repr

/-- `shell_commands`, up to the `NULL` entry. -/
def shellCommandTable : List (CString × ShellFunc) :=
  Shell.shellCommands.zip
    [.kshellHelp, .kshellReboot, .kshellClear, .kshellUptime, .kshellTimer, .kshellShutdown,
      .kshellPanicTest, .kshellRepeat, .kshellLoadkeys, .kshellDebug, .kshellMemDump,
      .kshellPmmDump, .kshellBitmapDump, .kshellHeapDump, .kshellLs, .kshellMkdir, .kshellTouch,
      .kshellCat, .kshellUnlink, .kshellRmdir, .kshellPwd, .kshellCd, .kshellPs]

namespace Fs

variable (s : Fs) (proc : Nat)

/-- A function of `shell_commands`.  Those that are no file commands are not part of the model. -/
def shellFunc (args : List CString) : ShellFunc → Option Ran
  | .kshellLs => s.kshellLs proc args
  | .kshellMkdir => s.kshellMkdir proc args
  | .kshellTouch => s.kshellTouch proc args
  | .kshellCat => s.kshellCat proc args
  | .kshellUnlink => s.kshellUnlink args
  | .kshellRmdir => s.kshellRmdir args
  | .kshellPwd => s.kshellPwdCommand
  | .kshellCd => s.kshellCd args
  | _ => none

/-- `kshell_execute_command`. -/
def kshellExecuteCommand : List CString → Option Ran
  | [] => some ⟨0, [], s⟩
  | name :: args =>
    match shellCommandTable.find? fun command => kstrcmp name command.1 = 0 with
    | some (_, func) => s.shellFunc proc (name :: args) func
    | none => some ⟨1, [.log .warn (bytesOf "Command not found: %s") [name]], s⟩

end Fs

/-- The strings of `argv`, as many as `argc` says. -/
def Shell.Command.arguments (r : Shell.Command) : List CString :=
  (r.argv.take r.argc).filterMap (Option.map r.string)

/-- `print_shell_prompt`. -/
def printShellPrompt : List Print := [.date, .puts (bytesOf "$> ")]

/-- What the shell works on: the file system, and the prompt of `kshell_start`. -/
structure ShellState where
  fs : Fs
  prompt : Shell.Prompt

/-- A key, and what the command that it may run finds: the answers of the page layer, and what lies
in memory. -/
structure Keystroke where
  key : UInt8
  pages : Nat → Bool
  junk : Nat → UInt8

/-- What a round of the loop sends to the terminal for a key that runs nothing: a completion is one
string. -/
def echoPrints (key : UInt8) (echo : List UInt8) : List Print :=
  if echo = [] then [] else if key = 0x09 then [.puts echo] else echo.map .putc

/-- A round of the loop of `kshell_start`: what it prints, and what it leaves.  The buffer of the
next line is the one that the parser has worked on. -/
def ShellState.round (proc : Nat) (s : ShellState) (i : Keystroke) :
    Option (List Print × ShellState) := do
  let fs := { s.fs with pages := i.pages, junk := i.junk }
  match ← Shell.kshellRound s.prompt i.key with
  | .reads prompt => return (echoPrints i.key (prompt.echo.drop s.prompt.echo.length), ⟨fs, prompt⟩)
  | .runs buffer =>
    let command ← Shell.setupRunShellCommand buffer
    let ran ← fs.kshellExecuteCommand proc command.arguments
    return (.puts [0x0a] :: ran.out ++ printShellPrompt, ⟨ran.fs, Shell.prompt command.buffer⟩)

end DelOs
