import DelOs.Fs.State
import DelOs.Lib.Splice

/-!
# The temporary file system

`src/kernel/fs/tmpfs/`: a tree of entries linked through `_dir._child` and `_next`, reached
through VFS nodes whose `_private` points to an entry.

* `Fs.ktmpfsCreateVfsNode`, `Fs.ktmpfsCreateEntry`, `Fs.ktmpfsRemoveFromParentLl` — the helpers.
* `Fs.ktmpfsLookup`, `Fs.ktmpfsCreate`, `Fs.ktmpfsMkdir`, `Fs.ktmpfsRmdir`, `Fs.ktmpfsUnlink`,
  `Fs.ktmpfsRead`, `Fs.ktmpfsWrite`, `Fs.ktmpfsReaddir`, `Fs.ktmpfsStat` — the operations.
* `Fs.ktmpfsMount` — the root directory.

A walk of a list of children gives up (`none`) after more steps than the heap has blocks, which
happens on a cycle only, where the source runs forever.
-/

namespace DelOs

open Splice

/-- `"."` -/
def dotName : CString := [0x2e]

/-- `".."` -/
def dotDotName : CString := [0x2e, 0x2e]

/-- `dirent_t`. -/
structure Dirent where
  inode : Nat
  type : Nat
  name : CString
  deriving DecidableEq, Repr

namespace Fs

/-! ## Helpers -/

/-- `ktmpfs_create_vfs_node`; the registry has the driver `"tmpfs"` that it asks for. -/
def ktmpfsCreateVfsNode (s : Fs) (entry : Ptr) : Ptr × Fs :=
  if entry = 0 then (0, s)
  else s.new sizeofVfsNode (.node { refcount := 1, ops := .ktmpfsOperations, priv := entry })

/-- `ktmpfs_create_entry`: the entry of the kind that `mode` asks for, at the head of the
children of `parent`. -/
def ktmpfsCreateEntry (s : Fs) (parent : Ptr) (name : CString) (mode : Nat) :
    Option (Ptr × Fs) := do
  if parent = 0 then return (0, s)
  let dir ← s.entryAt parent
  if dir.isDir = false then return (0, s)
  let (entry, s) := s.kcallocEntry
  if entry = 0 then return (0, s)
  -- `kcalloc` may have handed out the block of `parent`, if that was free
  let dir ← s.entryAt parent
  let s := s.put entry (.entry { TmpfsEntry.zero with name := name, next := dir.child })
  let dir ← s.entryAt parent
  let s := s.put parent (.entry { dir with child := entry })
  let e ← s.entryAt entry
  -- whatever the kind, the member of the union that it uses is cleared
  let s := s.put entry
    (.entry { TmpfsEntry.zero with
      name := e.name, next := e.next, parent := parent, stat := kvfsStatCreate mode })
  return (entry, s)

/-- The walk of a list of children: the entry `tmp` from which `stop` holds, and the one before
it; `tmp` is `NULL` if there is none. -/
def walkChildren (s : Fs) (stop : Ptr → TmpfsEntry → Bool) :
    Nat → Ptr → Ptr → Option (Ptr × Ptr)
  | 0, _, _ => none
  | fuel + 1, prev, tmp =>
    if tmp = 0 then some (prev, 0)
    else do
      let e ← s.entryAt tmp
      if stop tmp e then return (prev, tmp)
      walkChildren s stop fuel tmp e.next

/-- Take an entry out of a list of children: `prev` is the entry before it, `NULL` if it is the
first one, and `next` the one after it. -/
def unlinkChild (s : Fs) (parent prev next : Ptr) : Option Fs :=
  if prev = 0 then
    (s.entryAt parent).map fun dir => s.put parent (.entry { dir with child := next })
  else
    (s.entryAt prev).map fun before => s.put prev (.entry { before with next := next })

/-- `ktmpfs_remove_from_parent_ll`. -/
def ktmpfsRemoveFromParentLl (s : Fs) (parent entry : Ptr) : Option (Bool × Fs) := do
  if parent = 0 ∨ entry = 0 then return (false, s)
  let dir ← s.entryAt parent
  let (prev, tmp) ← s.walkChildren (fun p _ => p == entry) (s.heap.length + 1) 0 dir.child
  if tmp = 0 then return (false, s)
  let e ← s.entryAt tmp
  let s ← s.unlinkChild parent prev e.next
  let s := s.kfree tmp
  let dir ← s.entryAt parent
  return (true, s.put parent (.entry { dir with stat := kvfsStatDecNlink dir.stat }))

/-! ## Operations on directories -/

/-- The entry that a directory has under a name, `NULL` if it has none: the part of
`ktmpfs_lookup` before the node is made. -/
def findEntry (s : Fs) (dir : Ptr) (name : CString) : Option Ptr := do
  let entry ← s.entryAt dir
  if entry.isDir = false then return 0
  if name = dotName then return dir
  if name = dotDotName then return if entry.parent = 0 then dir else entry.parent
  let (_, child) ←
    s.walkChildren (fun _ e => e.name == name) (s.heap.length + 1) 0 entry.child
  return child

/-- `ktmpfs_lookup`. -/
def ktmpfsLookup (s : Fs) (node : Ptr) (nextLevel : CString) : Option (Ptr × Fs) := do
  if node = 0 then return (0, s)
  let n ← s.nodeAt node
  if n.priv = 0 then return (0, s)
  let child ← s.findEntry n.priv nextLevel
  return s.ktmpfsCreateVfsNode child

/-- `kvfs_stat_inc_nlink(&((tmpfs_entry_t *) parent->_private)->_stat)`. -/
def incNlink (s : Fs) (parent : Ptr) : Option Fs := do
  let n ← s.nodeAt parent
  let dir ← s.entryAt n.priv
  return s.put n.priv (.entry { dir with stat := kvfsStatIncNlink dir.stat })

/-- `ktmpfs_create`. -/
def ktmpfsCreate (s : Fs) (parent : Ptr) (name : CString) (mode : Nat) : Option (Bool × Fs) := do
  if parent = 0 then return (false, s)
  let n ← s.nodeAt parent
  let (entry, s) ← s.ktmpfsCreateEntry n.priv name mode
  if entry = 0 then return (false, s)
  return (true, ← s.incNlink parent)

/-- `ktmpfs_mkdir`. -/
def ktmpfsMkdir (s : Fs) (parent : Ptr) (name : CString) (mode : Nat) : Option (Bool × Fs) := do
  let mode := kvfsStatModeMaskIt mode
  if parent = 0 then return (false, s)
  let n ← s.nodeAt parent
  let (entry, s) ← s.ktmpfsCreateEntry n.priv name (mode ||| KVFS_STAT_IFDIR)
  if entry = 0 then return (false, s)
  return (true, ← s.incNlink parent)

/-- `ktmpfs_unlink`. -/
def ktmpfsUnlink (s : Fs) (node : Ptr) : Option (Bool × Fs) := do
  if node = 0 then return (false, s)
  let n ← s.nodeAt node
  if n.priv = 0 then return (false, s)
  let entry ← s.entryAt n.priv
  if entry.parent = 0 then return (false, s)
  s.ktmpfsRemoveFromParentLl entry.parent n.priv

/-- `ktmpfs_rmdir`. -/
def ktmpfsRmdir (s : Fs) (dir : Ptr) : Option (Bool × Fs) := do
  if dir = 0 then return (false, s)
  let n ← s.nodeAt dir
  if n.priv = 0 then return (false, s)
  let entry ← s.entryAt n.priv
  if entry.parent = 0 then return (false, s)
  if entry.child ≠ 0 then return (false, s)
  s.ktmpfsRemoveFromParentLl entry.parent n.priv

/-- `ktmpfs_stat`. -/
def ktmpfsStat (s : Fs) (node : Ptr) : Option (Option VfsStat) := do
  if node = 0 then return none
  let n ← s.nodeAt node
  let entry ← s.entryAt n.priv
  return some entry.stat

/-- `child = child->_next`, `index` times or until the end of the list. -/
def nthChild (s : Fs) : Nat → Ptr → Option Ptr
  | 0, child => some child
  | index + 1, child =>
    if child = 0 then some 0
    else do
      let e ← s.entryAt child
      nthChild s index e.next

/-- `fill_out_dirent`. -/
def fillOutDirent (s : Fs) (res : Ptr) : Option (Option Dirent) := do
  if res = 0 then return none
  let e ← s.entryAt res
  return some { inode := 0, type := kvfsStatType e.stat.mode, name := e.name }

/-- `ktmpfs_readdir`: the entry read, and the new offset. -/
def ktmpfsReaddir (s : Fs) (dir : Ptr) (offset : Nat) : Option (Option Dirent × Nat × Fs) := do
  if dir = 0 then return (none, offset, s)
  let n ← s.nodeAt dir
  let entry ← s.entryAt n.priv
  let s := s.put n.priv (.entry { entry with stat := kvfsStatUpdateAtime entry.stat })
  let child ← s.nthChild offset entry.child
  return (← s.fillOutDirent child, u32 (offset + 1), s)

/-! ## Reading and writing -/

/-- `kmemcpy(buffer, &data_ptr[offset], n)`; nothing is read through `data_ptr` if `n` is 0. -/
def copyOut (s : Fs) (dataPtr : Ptr) (offset n : Nat) : Option (List UInt8) :=
  if n = 0 then some []
  else do
    let data ← s.dataAt dataPtr
    if offset + n ≤ data.length then some ((data.drop offset).take n) else none

/-- `ktmpfs_read`: the bytes read, and the new offset.  The functions of a character device are
not part of the model. -/
def ktmpfsRead (s : Fs) (node : Ptr) (offset len : Nat) :
    Option (List UInt8 × Nat × Fs) := do
  if node = 0 ∨ len = 0 then return ([], offset, s)
  let n ← s.nodeAt node
  if n.priv = 0 then return ([], offset, s)
  let entry ← s.entryAt n.priv
  if kvfsStatIsChr entry.stat.mode then
    match entry.chrRead with
    | none => return ([], offset, s)
    | some _ => none
  else if entry.isReg = false then return ([], offset, s)
  else if offset > entry.size then return ([], offset, s)
  else
    let readContent := if entry.size - offset > len then len else entry.size - offset
    let bytes ← s.copyOut entry.dataPtr offset readContent
    let s := s.put n.priv (.entry { entry with stat := kvfsStatUpdateAtime entry.stat })
    return (bytes, u32 (offset + readContent), s)

/-- `ktmpfs_write`, the part under `new_size > _capacity`: a larger block for the data, unless
`krealloc` gets none. -/
def growData (s : Fs) (file : Ptr) (entry : TmpfsEntry) (newSize : Nat) : Option (Bool × Fs) := do
  if newSize ≤ entry.capacity then return (true, s)
  let (tmpPtr, s) ← s.krealloc entry.dataPtr newSize
  if tmpPtr = 0 then return (false, s)
  let entry ← s.entryAt file
  return (true, s.put file (.entry { entry with dataPtr := tmpPtr, capacity := newSize }))

/-- `ktmpfs_write`, where there is room: copy the bytes and update the sizes. -/
def storeBytes (s : Fs) (file : Ptr) (offset : Nat) (buffer : List UInt8) (newSize : Nat) :
    Option Fs := do
  let entry ← s.entryAt file
  let data ← s.dataAt entry.dataPtr
  if data.length < offset + buffer.length then none
  else
    let s := s.put entry.dataPtr (.data (splice data offset buffer))
    let size := max newSize entry.size
    return s.put file
      (.entry { entry with size := size, stat := kvfsStatUpdateSize entry.stat size })

/-- `ktmpfs_write`: the number of bytes written, and the new offset.  `buffer` holds the `len`
bytes to write. -/
def ktmpfsWrite (s : Fs) (node : Ptr) (offset : Nat) (buffer : List UInt8) :
    Option (Nat × Nat × Fs) := do
  if node = 0 ∨ buffer.length = 0 then return (0, offset, s)
  let n ← s.nodeAt node
  if n.priv = 0 then return (0, offset, s)
  let entry ← s.entryAt n.priv
  if kvfsStatIsChr entry.stat.mode then
    match entry.chrWrite with
    | none => return (0, offset, s)
    | some _ => none
  else if entry.isReg = false then return (0, offset, s)
  else
    let newSize := u32 (offset + buffer.length)
    let (room, s) ← s.growData n.priv entry newSize
    if room = false then return (0, offset, s)
    let s ← s.storeBytes n.priv offset buffer newSize
    return (buffer.length, u32 (offset + buffer.length), s)

/-! ## Mounting -/

/-- `create_root_entry`. -/
def createRootEntry (s : Fs) (loc : CString) : Ptr × Fs :=
  s.new sizeofTmpfsEntry
    (.entry { TmpfsEntry.zero with
      name := loc, stat := kvfsStatCreate (0o755 ||| KVFS_STAT_IFDIR) })

/-- `ktmpfs_mount`. -/
def ktmpfsMount (s : Fs) (loc : CString) : Ptr × Fs :=
  let (rootEntry, s) := s.createRootEntry loc
  if rootEntry = 0 then (0, s)
  else
    let (rootNode, s) := s.ktmpfsCreateVfsNode rootEntry
    if rootNode = 0 then (0, s.kfree rootEntry) else (rootNode, s)

end Fs

end DelOs
