import DelOs.Fs.Calls

/-!
# System calls

`kernel/interruption/isr/isr_syscall.c`, `kernel/sys/syscall/` and what `ksys_read` and `ksys_stat`
run, with the bytes that they store through the caller's pointer.

* `Syscall`, `syscallsArray`, `isrSyscall` — the dispatch by the `_eax` of the caller.
* `Fs.kfdReadDev` — `kfd_read` with the devices of `/dev`.
* `Fs.kfdStat`, `Fs.kstat` — metadata.
* `Stored`, `ksysRead`, `ksysStat` — the two calls that store through a pointer of the caller.
-/

namespace DelOs

/-- `KERNEL_VIRTUAL_BASE` -/
def KERNEL_VIRTUAL_BASE : Nat := 0xC0000000

/-! ## The dispatch -/

/-- The functions of `syscalls_array`. -/
inductive Syscall where
  | ksysExit
  | ksysOpen
  | ksysClose
  | ksysChdir
  | ksysMkdir
  | ksysRmdir
  | ksysStat
  | ksysFstat
  | ksysUnlink
  | ksysWrite
  | ksysRead
  deriving DecidableEq, Repr

/-- `syscalls_array` -/
def syscallsArray : List Syscall :=
  [.ksysExit, .ksysOpen, .ksysClose, .ksysChdir, .ksysMkdir, .ksysRmdir, .ksysStat, .ksysFstat,
    .ksysUnlink, .ksysWrite, .ksysRead]

/-- What `isr_syscall` calls: a function of the array, or whatever the word is that it reads as
the array's element at an index that the array does not have. -/
inductive Target where
  | function (f : Syscall)
  | outside (index : Int)
  deriving DecidableEq, Repr

/-- A word read as an `int32_t`. -/
def int32 (w : UInt32) : Int := if w.toNat < 2 ^ 31 then w.toNat else (w.toNat : Int) - 2 ^ 32

/-- `isr_syscall`: the element of `syscalls_array` that it calls. -/
def isrSyscall (eax : UInt32) : Target :=
  let syscallId := int32 eax
  if syscallId < 0 then .outside syscallId
  else
    match syscallsArray[syscallId.toNat]? with
    | some f => .function f
    | none => .outside syscallId

/-! ## Reading -/

namespace Fs

/-- `kfs_keyboard_read`: every byte of the buffer gets a character of `kkeyboard_getchar`. -/
def kfsKeyboardRead (keys : Nat → UInt8) (len : Nat) : List UInt8 := (List.range len).map keys

/-- `ktmpfs_read` with its character devices: the bytes read, and the new offset. -/
def ktmpfsReadDev (s : Fs) (keys : Nat → UInt8) (node : Ptr) (offset len : Nat) :
    Option (List UInt8 × Nat × Fs) := do
  if node = 0 ∨ len = 0 then return ([], offset, s)
  let n ← s.nodeAt node
  if n.priv = 0 then return ([], offset, s)
  let entry ← s.entryAt n.priv
  if kvfsStatIsChr entry.stat.mode then
    match entry.chrRead with
    | some .kfsKeyboardRead =>
        let s := s.put n.priv (.entry { entry with stat := kvfsStatUpdateAtime entry.stat })
        return (kfsKeyboardRead keys len, u32 (offset + len), s)
    | some .kfsVgaWrite => none
    | none => return ([], offset, s)
  else s.ktmpfsRead node offset len

/-- `kvfs_read` with character devices. -/
def kvfsReadDev (s : Fs) (keys : Nat → UInt8) (node : Ptr) (offset len : Nat) :
    Option (List UInt8 × Nat × Fs) := do
  if node = 0 ∨ len = 0 then return ([], offset, s)
  match ← s.kvfsGetStat node with
  | none => return ([], offset, s)
  | some st =>
    if kvfsStatCanRead st Cred.root = false then return ([], offset, s)
    s.ktmpfsReadDev keys node offset len

/-- `kfd_read` with character devices: the bytes that it stores in the buffer. -/
def kfdReadDev (s : Fs) (proc : Nat) (keys : Nat → UInt8) (fd : Int) (buffer : Ptr) (len : Nat) :
    Option (List UInt8 × Fs) := do
  if buffer = 0 ∨ len = 0 then return ([], s)
  match ← s.kfdAccess proc fd KFD_ACCESS_READ (kvfsStatCanRead · Cred.root) with
  | none => return ([], s)
  | some d =>
    let (bytes, offset, s) ← s.kvfsReadDev keys d.node d.offset len
    return (bytes, ← s.setOffset (s.kfdGet proc fd) offset)

/-! ## Metadata -/

/-- `kfd_stat` with a buffer: what it stores there. -/
def kfdStat (s : Fs) (proc : Nat) (fd : Int) : Option (Option VfsStat) := do
  let desc := s.kfdGet proc fd
  if desc = 0 then return none
  let d ← s.descAt desc
  if d.node = 0 then return none
  s.kvfsStatFromNode d.node

/-- `kstat` with a path: its result, and what it stores in the buffer.  The descriptor stays
open. -/
def kstat (s : Fs) (proc : Nat) (path : CString) (statPtr : Ptr) :
    Option (Int × Option VfsStat × Fs) := do
  if statPtr = 0 then return (-1, none, s)
  let (fd, s) ← s.kfdOpen proc path KVFS_O_RDONLY 0
  if fd = -1 then return (-1, none, s)
  match ← s.kfdStat proc fd with
  | none => return (-1, none, s)
  | some st => return (0, some st, s)

end Fs

/-! ## The calls that store through a pointer -/

/-- The bytes of a `vfs_stat_t`, as `kvfs_stat_copy` stores them. -/
def statBytes (st : VfsStat) : List UInt8 :=
  let word64 := fun n => Fs.wordBytes n ++ Fs.wordBytes (n / 2 ^ 32)
  Fs.wordBytes st.mode ++ Fs.wordBytes st.nlink ++ word64 st.size ++ word64 st.atime ++
    word64 st.mtime ++ word64 st.ctime ++ Fs.wordBytes st.uid ++ Fs.wordBytes st.gid

/-- `sizeof(vfs_stat_t)` -/
def sizeofVfsStat : Nat := 48

/-- The process that makes a call, and what it brings: the strings in memory and the characters
that are typed. -/
structure Caller where
  proc : Nat
  string : Ptr → CString
  keys : Nat → UInt8

/-- What a call comes to: its result, and the bytes that it stores from an address on. -/
structure Stored where
  result : Int
  dest : Nat
  bytes : List UInt8
  fs : Fs

/-- `ksys_read(fd, buffer, len)` -/
def ksysRead (c : Caller) (s : Fs) (a1 a2 a3 : UInt32) : Option Stored := do
  let (bytes, s) ← s.kfdReadDev c.proc c.keys (int32 a1) a2.toNat a3.toNat
  return ⟨int32 (UInt32.ofNat bytes.length), a2.toNat, bytes, s⟩

/-- `ksys_stat(path, stat_ptr)` -/
def ksysStat (c : Caller) (s : Fs) (a1 a2 : UInt32) : Option Stored := do
  if a1.toNat = 0 then return ⟨-1, a2.toNat, [], s⟩
  let (result, st, s) ← s.kstat c.proc (c.string a1.toNat) a2.toNat
  return ⟨result, a2.toNat, (st.map statBytes).getD [], s⟩

end DelOs
