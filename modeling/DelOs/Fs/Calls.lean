import DelOs.Fs.Vfs
import DelOs.Lib.Transition

/-!
# File descriptors and the calls of the file system

`src/kernel/fs/fd/` and `src/kernel/fs/fs_utils.c`: the descriptor table of each process, and
the calls that the rest of the kernel makes.

* `Fs.kfdCreateForProcess`, `Fs.kfdOpen`, `Fs.kfdClose`, `Fs.kfdRead`, `Fs.kfdWrite`,
  `Fs.kfdReaddir` — descriptors.
* `Fs.kmkdir`, `Fs.krmdir` — directories by path.
* `Call`, `Fs.call` — one call of the kernel; `Input`, `Fs.step` — one call in its
  surroundings, as a step of a machine.

The current task always has a process here; `proc` is that process.
-/

namespace DelOs

def KFD_MAX_COUNT : Nat := 32
def KFD_ERROR : Int := -1
def KFD_ACCESS_READ : Nat := 1
def KFD_ACCESS_WRITE : Nat := 2

namespace Fs

/-! ## Descriptors -/

/-- `table[fd] = desc`. -/
def setFd (s : Fs) (proc fd : Nat) (desc : Ptr) : Fs :=
  { s with fds := fun p i => if p = proc ∧ i = fd then desc else s.fds p i }

/-- `kfd_create_for_process`. -/
def kfdCreateForProcess (s : Fs) (proc : Nat) (node : Ptr) (flags : Nat) : Int × Fs :=
  if node = 0 then (KFD_ERROR, s)
  else
    match (List.range KFD_MAX_COUNT).find? fun fd => s.fds proc fd = 0 with
    | none => (KFD_ERROR, s)
    | some fd =>
      let (desc, s) :=
        s.new sizeofFileDesc (.desc { node := node, offset := 0, flags := flags, refcount := 1 })
      if desc = 0 then (KFD_ERROR, s) else (fd, s.setFd proc fd desc)

/-- `kfd_get_from_process`. -/
def kfdGet (s : Fs) (proc : Nat) (fd : Int) : Ptr :=
  if fd < 0 ∨ fd ≥ KFD_MAX_COUNT then 0 else s.fds proc fd.toNat

/-- `kfd_check_access_from_process`, for a descriptor that is there. -/
def kfdCheckAccess (desc : FileDesc) (requiredAccess : Nat) : Bool :=
  let accmode := desc.flags &&& KVFS_O_ACCMODE
  let allowed :=
    if accmode = KVFS_O_WRONLY then KFD_ACCESS_WRITE
    else if accmode = KVFS_O_RDWR then KFD_ACCESS_READ ||| KFD_ACCESS_WRITE
    else KFD_ACCESS_READ
  allowed &&& requiredAccess == requiredAccess

/-- `kfd_open_for_process`. -/
def kfdOpen (s : Fs) (proc : Nat) (path : CString) (flags mode : Nat) : Option (Int × Fs) := do
  let (node, s) ← s.kvfsOpen path flags mode
  if node = 0 then return (KFD_ERROR, s)
  return s.kfdCreateForProcess proc node flags

/-- `kfd_close_for_process`. -/
def kfdClose (s : Fs) (proc : Nat) (fd : Int) : Option (Bool × Fs) := do
  let desc := s.kfdGet proc fd
  if desc = 0 then return (false, s)
  let d ← s.descAt desc
  if d.refcount > 1 then
    return (true, s.put desc (.desc { d with refcount := d.refcount - 1 }))
  let s ← s.kvfsClose d.node
  return (true, (s.kfree desc).setFd proc fd.toNat 0)

/-- What `kfd_read`, `kfd_write` and `kfd_readdir` share: the descriptor, if the access is
allowed and its node has metadata `st` for which `permitted` holds. -/
def kfdAccess (s : Fs) (proc : Nat) (fd : Int) (requiredAccess : Nat)
    (permitted : VfsStat → Bool) : Option (Option FileDesc) := do
  let desc := s.kfdGet proc fd
  if desc = 0 then return none
  let d ← s.descAt desc
  if d.node = 0 then return none
  if kfdCheckAccess d requiredAccess = false then return none
  match ← s.kvfsGetStat d.node with
  | none => return none
  | some st => return if permitted st then some d else none

/-- Store the offset that an operation leaves in the descriptor. -/
def setOffset (s : Fs) (desc : Ptr) (offset : Nat) : Option Fs := do
  let d ← s.descAt desc
  return s.put desc (.desc { d with offset := offset })

/-- `kfd_read`: the bytes read. -/
def kfdRead (s : Fs) (proc : Nat) (fd : Int) (len : Nat) : Option (List UInt8 × Fs) := do
  if len = 0 then return ([], s)
  match ← s.kfdAccess proc fd KFD_ACCESS_READ (kvfsStatCanRead · Cred.root) with
  | none => return ([], s)
  | some d =>
    let (bytes, offset, s) ← s.kvfsRead d.node d.offset len
    return (bytes, ← s.setOffset (s.kfdGet proc fd) offset)

/-- `kfd_write`: the number of bytes written. -/
def kfdWrite (s : Fs) (proc : Nat) (fd : Int) (buffer : List UInt8) : Option (Nat × Fs) := do
  if buffer.length = 0 then return (0, s)
  match ← s.kfdAccess proc fd KFD_ACCESS_WRITE (kvfsStatCanWrite · Cred.root) with
  | none => return (0, s)
  | some d =>
    let (written, offset, s) ← s.kvfsWrite d.node d.offset buffer
    return (written, ← s.setOffset (s.kfdGet proc fd) offset)

/-- `kfd_readdir`. -/
def kfdReaddir (s : Fs) (proc : Nat) (fd : Int) : Option (Option Dirent × Fs) := do
  match ← s.kfdAccess proc fd KFD_ACCESS_READ (kvfsStatIsDir ·.mode) with
  | none => return (none, s)
  | some d =>
    let (out, offset, s) ← s.kvfsReaddir d.node d.offset
    return (out, ← s.setOffset (s.kfdGet proc fd) offset)

/-! ## Directories by path -/

/-- The paths that `kmkdir` and `krmdir` refuse. -/
def refusedPath (path : CString) : Bool :=
  path == dotDotName || path == dotName || path == [slash]

/-- `kmkdir`. -/
def kmkdir (s : Fs) (proc : Nat) (path : CString) : Option (Int × Fs) := do
  if refusedPath path then return (-1, s)
  let (dir, s) ←
    s.kfdOpen proc path (KVFS_O_CREAT ||| KVFS_O_DIRECTORY ||| KVFS_O_EXCL) 0o666
  if dir = KFD_ERROR then return (-1, s)
  let (_, s) ← s.kfdClose proc dir
  return (0, s)

/-- `krmdir`. -/
def krmdir (s : Fs) (path : CString) : Option (Int × Fs) := do
  if refusedPath path then return (-1, s)
  let (removed, s) ← s.kvfsRmdir path
  return (if removed then 0 else -1, s)

end Fs

/-! ## The machine -/

/-- A call to the file system; the last one is a `kvfs_lookup_open` and the `kvfs_close` of what
it returns. -/
inductive Call
  | kfdOpen (path : CString) (flags mode : Nat)
  | kfdClose (fd : Int)
  | kfdRead (fd : Int) (len : Nat)
  | kfdWrite (fd : Int) (buffer : List UInt8)
  | kfdReaddir (fd : Int)
  | kmkdir (path : CString)
  | krmdir (path : CString)
  | kvfsUnlink (path : CString)
  | kvfsChdir (path : CString)
  | lookupOpenClose (path : CString)
  deriving DecidableEq, Repr

/-- What a call returns. -/
inductive Result
  | code (n : Int)
  | status (ok : Bool)
  | bytes (bytes : List UInt8)
  | count (n : Nat)
  | dirent (d : Option Dirent)
  deriving DecidableEq, Repr

/-- A call of a process, with the answers that the page layers give to its allocations and the
bytes that lie behind the data it reads. -/
structure Input where
  proc : Nat
  call : Call
  pages : Nat → Bool
  junk : Nat → UInt8

namespace Fs

/-- One call. -/
def call (s : Fs) (proc : Nat) : Call → Option (Result × Fs)
  | .kfdOpen path flags mode => (s.kfdOpen proc path flags mode).map (Prod.map .code id)
  | .kfdClose fd => (s.kfdClose proc fd).map (Prod.map .status id)
  | .kfdRead fd len => (s.kfdRead proc fd len).map (Prod.map .bytes id)
  | .kfdWrite fd buffer => (s.kfdWrite proc fd buffer).map (Prod.map .count id)
  | .kfdReaddir fd => (s.kfdReaddir proc fd).map (Prod.map .dirent id)
  | .kmkdir path => (s.kmkdir proc path).map (Prod.map .code id)
  | .krmdir path => (s.krmdir path).map (Prod.map .code id)
  | .kvfsUnlink path => (s.kvfsUnlink path).map (Prod.map .status id)
  | .kvfsChdir path => (s.kvfsChdir path).map (Prod.map .code id)
  | .lookupOpenClose path => do
      let (node, s) ← s.kvfsLookupOpen path
      return (.status (node ≠ 0), ← s.kvfsClose node)

/-- The state with the surroundings of an input. -/
def withInput (s : Fs) (i : Input) : Fs := { s with pages := i.pages, junk := i.junk }

/-- One call in its surroundings. -/
def stepResult (s : Fs) (i : Input) : Option (Result × Fs) := (s.withInput i).call i.proc i.call

/-- One call in its surroundings, its result left out. -/
def step (s : Fs) (i : Input) : Option Fs := (s.stepResult i).map Prod.snd

/-- The state from which a run starts: the root file system mounted on a heap on which no
record of the file system is in use, and no descriptor open. -/
def FreshMount (s : Fs) : Prop :=
  ∃ s₀ : Fs, (∀ p o, s₀.obj p = some o → o = .raw) ∧ (∀ proc fd, s₀.fds proc fd = 0) ∧
    s₀.kvfsMount = some s

end Fs

end DelOs
