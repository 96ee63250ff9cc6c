import DelOs.Fs.Path
import DelOs.Fs.Tmpfs

/-!
# The virtual file system

`src/kernel/fs/vfs/`: nodes, paths resolved to nodes, and the operations that check permissions
and call those of the file system below.

* `Fs.kvfsGetStat`, `Fs.kvfsLookup`, `Fs.kvfsClose` — one node.
* `Fs.kvfsResolveFrom`, `Fs.kvfsResolveParentFrom` — the walk of a path.
* `Fs.kvfsLookupOpen`, `Fs.kvfsOpen` — a path to a node, the second with the flags of `open`.
* `Fs.kvfsCreate`, `Fs.kvfsMkdir`, `Fs.kvfsUnlink`, `Fs.kvfsRmdir`, `Fs.kvfsRead`,
  `Fs.kvfsWrite`, `Fs.kvfsReaddir`, `Fs.kvfsChdir` — the operations.
* `Fs.kvfsMount` — the mount of the tmpfs that `kfs_init` starts from.

Paths and names are never `NULL` here.  A null pointer returned is `0`.
-/

namespace DelOs

namespace Fs

/-! ## Nodes -/

/-- `kvfs_get_stat`. -/
def kvfsGetStat (s : Fs) (node : Ptr) : Option (Option VfsStat) :=
  if node = 0 then some none
  else do
    let n ← s.nodeAt node
    match n.ops with
    | .null => return none
    | .ktmpfsOperations => s.ktmpfsStat node
    | .wild => none

/-- `kvfs_stat_from_node`. -/
def kvfsStatFromNode (s : Fs) (node : Ptr) : Option (Option VfsStat) :=
  if node = 0 then some none
  else do
    let n ← s.nodeAt node
    if n.ops = .ktmpfsOperations then s.ktmpfsStat node else none

/-- `kvfs_lookup`. -/
def kvfsLookup (s : Fs) (node : Ptr) (nextLevel : CString) : Option (Ptr × Fs) := do
  match ← s.kvfsGetStat node with
  | none => return (0, s)
  | some st =>
    if kvfsStatCanExec st Cred.root = false then return (0, s)
    s.ktmpfsLookup node nextLevel

/-- `kvfs_close`. -/
def kvfsClose (s : Fs) (node : Ptr) : Option Fs := do
  if node = 0 ∨ node = s.kvfsRootMountDir then return s
  let n ← s.nodeAt node
  if n.refcount = 0 then return s
  let s ← s.setRefcount node (n.refcount - 1)
  return if n.refcount - 1 = 0 then s.kfree node else s

/-! ## Paths -/

/-- `if (node != start) kvfs_close(node)`. -/
def closeUnless (s : Fs) (start node : Ptr) : Option Fs :=
  if node ≠ start then s.kvfsClose node else some s

/-- The loop of the two resolving functions: look the names up one after the other, and close
every node on the way but `start`. -/
def walkParts (s : Fs) (start : Ptr) : Ptr → List CString → Option (Ptr × Fs)
  | tmpNode, [] => some (tmpNode, s)
  | tmpNode, part :: parts => do
    let (next, t) ← s.kvfsLookup tmpNode part
    let t ← t.closeUnless start tmpNode
    if next = 0 then return (0, t)
    walkParts t start next parts

/-- Where a path starts: the root for an absolute one. -/
def resolveStart (s : Fs) (start : Ptr) (path : CString) : Ptr :=
  if kvfsIsAbsolutePath path = true ∨ start = 0 then s.kvfsRootMountDir else start

/-- `path_parts[part_index ..]`: the parts without the leading `"/"`. -/
def pathSteps (parts : List CString) : List CString :=
  if (parts.headD []).headD 0 = slash then parts.drop 1 else parts

/-- `kvfs_resolve_from`. -/
def kvfsResolveFrom (s : Fs) (start : Ptr) (path : CString) : Option (Ptr × Fs) := do
  let start := s.resolveStart start path
  if start = 0 then return (0, s)
  let parts := kvfsSplitPath path
  if parts.length = 0 then return (0, s)
  s.walkParts start start (pathSteps parts)

/-- `kvfs_resolve_parent_from`: the parent, and the last part of the path, which the source
copies to `out_name`. -/
def kvfsResolveParentFrom (s : Fs) (start : Ptr) (path : CString) :
    Option (Ptr × CString × Fs) := do
  let start := s.resolveStart start path
  if start = 0 then return (0, [], s)
  let parts := kvfsSplitPath path
  if parts.length = 0 then return (0, [], s)
  let outName := parts.getLastD []
  -- `part_index` is counted from the whole table, the last part of which stays out
  let steps := if (parts.headD []).headD 0 = slash then parts.dropLast.drop 1 else parts.dropLast
  let (node, s) ← s.walkParts start start steps
  return (node, outName, s)

/-- `kvfs_lookup_open`. -/
def kvfsLookupOpen (s : Fs) (path : CString) : Option (Ptr × Fs) :=
  s.kvfsResolveFrom (if kvfsIsAbsolutePath path then 0 else s.kvfsCwd) path

/-! ## Opening -/

/-- `kvfs_create`. -/
def kvfsCreate (s : Fs) (parent : Ptr) (name : CString) (mode : Nat) : Option (Bool × Fs) := do
  match ← s.kvfsGetStat parent with
  | none => return (false, s)
  | some st =>
    if kvfsStatCanWrite st Cred.root = false then return (false, s)
    s.ktmpfsCreate parent name (kvfsStatModeMaskIt mode ||| KVFS_STAT_IFREG)

/-- `kvfs_mkdir`. -/
def kvfsMkdir (s : Fs) (parent : Ptr) (name : CString) (mode : Nat) : Option (Bool × Fs) := do
  match ← s.kvfsGetStat parent with
  | none => return (false, s)
  | some st =>
    if kvfsStatCanWrite st Cred.root = false ∨ kvfsStatCanExec st Cred.root = false then
      return (false, s)
    s.ktmpfsMkdir parent name (kvfsStatModeMaskIt mode ||| KVFS_STAT_IFDIR)

/-- `kvfs_open`: make the file, or the directory. -/
def openMake (s : Fs) (parent : Ptr) (fileName : CString) (flags mode : Nat) :
    Option (Bool × Fs) :=
  if flagSet flags KVFS_O_DIRECTORY then s.kvfsMkdir parent fileName mode
  else s.kvfsCreate parent fileName mode

/-- `kvfs_open`, the part under `flags & KVFS_O_CREAT`: make the file if there is none, and say
whether the call goes on; if it does not, `parent` is closed. -/
def openCreat (s : Fs) (parent : Ptr) (st : VfsStat) (fileName : CString) (flags mode : Nat) :
    Option (Bool × Fs) := do
  if flagSet flags KVFS_O_CREAT = false then return (true, s)
  if kvfsStatCanWrite st Cred.root = false ∨ kvfsStatCanExec st Cred.root = false then
    return (false, ← s.kvfsClose parent)
  let (node, s) ← s.kvfsLookup parent fileName
  if node ≠ 0 then
    let s ← s.kvfsClose node
    if flagSet flags KVFS_O_EXCL then return (false, ← s.kvfsClose parent)
    return (true, s)
  else
    let (made, s) ← s.openMake parent fileName flags mode
    if made = false then return (false, ← s.kvfsClose parent)
    return (true, s)

/-- The permissions that the access mode asks for. -/
def accmodeAllowed (st : VfsStat) (accmode : Nat) : Bool :=
  if accmode = KVFS_O_RDONLY then kvfsStatCanRead st Cred.root
  else if accmode = KVFS_O_WRONLY then kvfsStatCanWrite st Cred.root
  else if accmode = KVFS_O_RDWR then
    kvfsStatCanRead st Cred.root && kvfsStatCanWrite st Cred.root
  else true

/-- `kvfs_open`, from the second lookup on. -/
def openNode (s : Fs) (parent : Ptr) (fileName : CString) (flags : Nat) : Option (Ptr × Fs) := do
  let (node, s) ← s.kvfsLookup parent fileName
  if node = 0 then return (0, ← s.kvfsClose parent)
  match ← s.kvfsGetStat node with
  | none => return (0, ← s.kvfsClose node)
  | some st =>
    if accmodeAllowed st (flags &&& KVFS_O_ACCMODE) = false then
      let s ← s.kvfsClose node
      return (0, ← s.kvfsClose parent)
    return (node, ← s.closeUnless s.kvfsCwd parent)

/-- `kvfs_open`; `KVFS_O_TRUNC` does nothing yet. -/
def kvfsOpen (s : Fs) (path : CString) (flags mode : Nat) : Option (Ptr × Fs) := do
  let (parent, fileName, s) ←
    s.kvfsResolveParentFrom (if kvfsIsAbsolutePath path then 0 else s.kvfsCwd) path
  if parent = 0 then return (0, s)
  match ← s.kvfsGetStat parent with
  | none => return (0, ← s.kvfsClose parent)
  | some st =>
    let (goesOn, s) ← s.openCreat parent st fileName flags mode
    if goesOn = false then return (0, s)
    s.openNode parent fileName flags

/-! ## Removing -/

/-- What `kvfs_unlink` and `kvfs_rmdir` share: resolve the path, check the kind of the file, call
the operation.  The node stays open when the kind or the operation is at fault. -/
def removeAt (s : Fs) (path : CString) (isKind : Nat → Bool)
    (operation : Fs → Ptr → Option (Bool × Fs)) : Option (Bool × Fs) := do
  let (node, s) ← s.kvfsLookupOpen path
  if node = 0 then return (false, s)
  match ← s.kvfsGetStat node with
  | none => return (false, ← s.kvfsClose node)
  | some st =>
    if kvfsStatCanWrite st Cred.root = false then return (false, ← s.kvfsClose node)
    if isKind st.mode = false then return (false, s)
    let (removed, s) ← operation s node
    if removed = false then return (false, s)
    return (true, ← s.kvfsClose node)

/-- `kvfs_unlink`. -/
def kvfsUnlink (s : Fs) (path : CString) : Option (Bool × Fs) :=
  s.removeAt path kvfsStatIsReg ktmpfsUnlink

/-- `kvfs_rmdir`. -/
def kvfsRmdir (s : Fs) (path : CString) : Option (Bool × Fs) :=
  s.removeAt path kvfsStatIsDir ktmpfsRmdir

/-! ## The other operations -/

/-- `kvfs_read`: the bytes read, and the new offset. -/
def kvfsRead (s : Fs) (node : Ptr) (offset len : Nat) : Option (List UInt8 × Nat × Fs) := do
  if node = 0 ∨ len = 0 then return ([], offset, s)
  match ← s.kvfsGetStat node with
  | none => return ([], offset, s)
  | some st =>
    if kvfsStatCanRead st Cred.root = false then return ([], offset, s)
    s.ktmpfsRead node offset len

/-- `kvfs_write`: the number of bytes written, and the new offset. -/
def kvfsWrite (s : Fs) (node : Ptr) (offset : Nat) (buffer : List UInt8) :
    Option (Nat × Nat × Fs) := do
  if node = 0 ∨ buffer.length = 0 then return (0, offset, s)
  match ← s.kvfsGetStat node with
  | none => return (0, offset, s)
  | some st =>
    if kvfsStatCanWrite st Cred.root = false then return (0, offset, s)
    s.ktmpfsWrite node offset buffer

/-- `kvfs_readdir`: the entry read, and the new offset. -/
def kvfsReaddir (s : Fs) (node : Ptr) (offset : Nat) : Option (Option Dirent × Nat × Fs) := do
  if node = 0 then return (none, offset, s)
  match ← s.kvfsGetStat node with
  | none => return (none, offset, s)
  | some st =>
    if kvfsStatIsDir st.mode = false then return (none, offset, s)
    if kvfsStatCanRead st Cred.root = false ∨ kvfsStatCanExec st Cred.root = false then
      return (none, offset, s)
    s.ktmpfsReaddir node offset

/-- `kvfs_chdir`. -/
def kvfsChdir (s : Fs) (path : CString) : Option (Int × Fs) := do
  let (dirToCd, s) ← s.kvfsLookupOpen path
  if dirToCd = 0 then return (-1, s)
  match ← s.kvfsStatFromNode dirToCd with
  | none => return (-1, ← s.kvfsClose dirToCd)
  | some st =>
    if kvfsStatIsDir st.mode = false then return (-1, ← s.kvfsClose dirToCd)
    let s ← s.kvfsClose s.kvfsCwd
    return (0, { s with kvfsCwd := dirToCd })

/-- The mount of the root file system in `kfs_init`, which also makes it the working
directory; `none` if the mount fails. -/
def kvfsMount (s : Fs) : Option Fs :=
  let (root, s) := s.ktmpfsMount [slash]
  if root = 0 then none else some { s with kvfsRootMountDir := root, kvfsCwd := root }

end Fs

end DelOs
