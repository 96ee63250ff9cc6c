import DelOs.Fs.Vfs

/-!
# The boot archive

`tools/mkinitrd.c` writes it, and `src/kernel/fs/initrd/initrd.c` unpacks it into the mounted root.

* `writeEntry`, `endEntry` — the bytes that the tool writes for an entry, and at the end.
* `InitrdEntry`, `readEntry` — `initrd_entry_t`, as the kernel reads it at its cursor.
* `Fs.kinitrdEnsureDirectory`, `Fs.kinitrdUnpackDirectory`, `Fs.kinitrdUnpackFile`,
  `Fs.kinitrdUnpackEntry` — one entry.
* `Fs.kinitrdUnpack` — the image, a list of bytes; the cursor is what is left of it.

Names, nodes and images are never `NULL` here where the source checks for it, but for the nodes
that a lookup has not found.
-/

namespace DelOs

def KINITRD_NAME_MAX : Nat := 64
def KINITRD_FILE : Nat := 0
def KINITRD_DIR : Nat := 1

/-- `sizeof(initrd_entry_t)`: the name and two words. -/
def sizeofInitrdEntry : Nat := 72

/-! ## The tool -/

/-- `strncpy(entry._name, name, KINITRD_NAME_MAX - 1)`, into a buffer of zeros. -/
def nameBuffer (name : CString) : List UInt8 :=
  name.take (KINITRD_NAME_MAX - 1) ++
    List.replicate (KINITRD_NAME_MAX - (name.take (KINITRD_NAME_MAX - 1)).length) 0

/-- An `initrd_entry_t` in memory. -/
def entryBytes (name : CString) (size type : Nat) : List UInt8 :=
  nameBuffer name ++ Fs.wordBytes size ++ Fs.wordBytes type

/-- `write_entry`: what it writes to the file. -/
def writeEntry (name : CString) (type : Nat) (data : List UInt8) (size : Nat) : List UInt8 :=
  entryBytes name size type ++ if type = KINITRD_FILE ∧ size > 0 then data.take size else []

/-- `initrd_entry_t end = {0}`. -/
def endEntry : List UInt8 := entryBytes [] 0 0

/-! ## Entries in the kernel -/

/-- `initrd_entry_t`; the name is the string that begins at the entry. -/
structure InitrdEntry where
  name : CString
  size : Nat
  type : Nat
  deriving DecidableEq, Repr

/-- `entry = (const initrd_entry_t *) cursor`. -/
def readEntry (cursor : List UInt8) : InitrdEntry :=
  { name := cursor.takeWhile (· ≠ 0)
    size := Fs.nameWord cursor KINITRD_NAME_MAX
    type := Fs.nameWord cursor (KINITRD_NAME_MAX + 4) }

/-- `kinitrd_get_entry_mode`: the type is a mode, or one of the two codes of the tool. -/
def kinitrdGetEntryMode (entry : InitrdEntry) : Nat :=
  if kvfsStatType entry.type ≠ 0 then entry.type
  else if entry.type = 1 then KVFS_STAT_IFDIR else KVFS_STAT_IFREG

/-- `kinitrd_is_end_marker`. -/
def kinitrdIsEndMarker (entry : InitrdEntry) : Bool :=
  entry.name == [] && entry.size == 0 && entry.type == 0

/-- `kinitrd_has_valid_path`. -/
def kinitrdHasValidPath (entry : InitrdEntry) : Bool := kvfsIsAbsolutePath entry.name

/-- `kinitrd_get_first_part_index`. -/
def kinitrdGetFirstPartIndex (parts : List CString) : Nat :=
  if (parts.headD []).headD 0 = slash then 1 else 0

/-- `kinitrd_split_entry_path`. -/
def kinitrdSplitEntryPath (entry : InitrdEntry) : List CString :=
  if kinitrdHasValidPath entry then kvfsSplitPath entry.name else []

/-- `kinitrd_has_remaining_data`: `rest` is what lies between the cursor and the end. -/
def kinitrdHasRemainingData (rest : List UInt8) (size : Nat) : Bool := size ≤ rest.length

/-- `kinitrd_is_size_valid`. -/
def kinitrdIsSizeValid (imageSize : Nat) : Bool := imageSize ≥ sizeofInitrdEntry

namespace Fs

/-! ## Directories and files on the way -/

/-- What `kinitrd_get_or_create_directory` and `kinitrd_open_or_create_file` share: look the name
up, and if it is not there, make it and look it up again. -/
def lookupOrMake (make : Fs → Ptr → CString → Option (Bool × Fs)) (s : Fs) (parent : Ptr)
    (name : CString) : Option (Ptr × Fs) := do
  if parent = 0 then return (0, s)
  let (child, s) ← s.kvfsLookup parent name
  if child ≠ 0 then return (child, s)
  let (made, s) ← make s parent name
  if made = false then return (0, s)
  s.kvfsLookup parent name

/-- `kinitrd_get_or_create_directory`. -/
def kinitrdGetOrCreateDirectory : Fs → Ptr → CString → Option (Ptr × Fs) :=
  lookupOrMake fun s parent name => s.kvfsMkdir parent name 0o755

/-- `kinitrd_open_or_create_file`. -/
def kinitrdOpenOrCreateFile : Fs → Ptr → CString → Option (Ptr × Fs) :=
  lookupOrMake fun s parent name => s.kvfsCreate parent name (0o644 ||| KVFS_STAT_IFREG)

/-- The loop of `kinitrd_ensure_directory`, from the node `current` on. -/
def ensureParts (root : Ptr) : Fs → Ptr → List CString → Option (Ptr × Fs)
  | s, current, [] => some (current, s)
  | s, current, part :: parts => do
    let (next, s) ← s.kinitrdGetOrCreateDirectory current part
    let s ← s.closeUnless root current
    if next = 0 then return (0, s)
    ensureParts root s next parts

/-- `kinitrd_ensure_directory`. -/
def kinitrdEnsureDirectory (s : Fs) (root : Ptr) (parts : List CString) : Option (Ptr × Fs) :=
  if root = 0 then some (0, s)
  else ensureParts root s root (parts.drop (kinitrdGetFirstPartIndex parts))

/-! ## One entry -/

/-- `kinitrd_unpack_directory`. -/
def kinitrdUnpackDirectory (s : Fs) (root : Ptr) (entry : InitrdEntry) : Option (Bool × Fs) := do
  let parts := kinitrdSplitEntryPath entry
  if parts.length = 0 then return (false, s)
  let (dir, s) ← s.kinitrdEnsureDirectory root parts
  if dir = 0 then return (false, s)
  return (true, ← s.closeUnless root dir)

/-- `kinitrd_resolve_file_parent`: the parent, and the last part, which the source copies to
`out_name`. -/
def kinitrdResolveFileParent (s : Fs) (root : Ptr) (entry : InitrdEntry) :
    Option (Ptr × CString × Fs) := do
  let parts := kinitrdSplitEntryPath entry
  if parts.length < 2 then return (0, [], s)
  let (parent, s) ← s.kinitrdEnsureDirectory root parts.dropLast
  return (parent, parts.getLastD [], s)

/-- `kinitrd_write_file_data`; `data` is what lies in the image from `data_ptr` on. -/
def kinitrdWriteFileData (s : Fs) (file : Ptr) (entry : InitrdEntry) (data : List UInt8) :
    Option (Bool × Fs) := do
  if file = 0 then return (false, s)
  if entry.size = 0 then return (true, s)
  let (written, _, s) ← s.kvfsWrite file 0 (data.take entry.size)
  return (written == entry.size, s)

/-- `kinitrd_unpack_file`. -/
def kinitrdUnpackFile (s : Fs) (root : Ptr) (entry : InitrdEntry) (data : List UInt8) :
    Option (Bool × Fs) := do
  if root = 0 then return (false, s)
  let (parent, fileName, s) ← s.kinitrdResolveFileParent root entry
  if parent = 0 then return (false, s)
  let (file, s) ← s.kinitrdOpenOrCreateFile parent fileName
  if file = 0 then return (false, ← s.closeUnless root parent)
  let (stored, s) ← s.kinitrdWriteFileData file entry data
  -- stored or not, the two nodes are closed
  let s ← s.kvfsClose file
  return (stored, ← s.closeUnless root parent)

/-- `kinitrd_unpack_entry`. -/
def kinitrdUnpackEntry (s : Fs) (root : Ptr) (entry : InitrdEntry) (data : List UInt8) :
    Option (Bool × Fs) :=
  let mode := kinitrdGetEntryMode entry
  if root = 0 then some (false, s)
  else if kvfsStatIsDir mode then s.kinitrdUnpackDirectory root entry
  else if kvfsStatIsReg mode then s.kinitrdUnpackFile root entry data
  else some (false, s)

/-! ## The image -/

/-- The loop of `kinitrd_unpack`.  Each round moves the cursor by the size of an entry at least, so
there are no more rounds than the image has bytes. -/
def unpackLoop (root : Ptr) : Nat → Fs → List UInt8 → Option (Bool × Fs)
  | 0, _, _ => none
  | fuel + 1, s, cursor =>
    if cursor.length < sizeofInitrdEntry then some (false, s)
    else if kinitrdIsEndMarker (readEntry cursor) then some (true, s)
    else
      let entry := readEntry cursor
      let cursor := cursor.drop sizeofInitrdEntry
      if kinitrdHasRemainingData cursor entry.size = false then some (false, s)
      else do
        let (unpacked, s) ← s.kinitrdUnpackEntry root entry cursor
        if unpacked = false then return (false, s)
        unpackLoop root fuel s (cursor.drop entry.size)

/-- `kinitrd_unpack`. -/
def kinitrdUnpack (s : Fs) (root : Ptr) (image : List UInt8) : Option (Bool × Fs) :=
  if root = 0 ∨ kinitrdIsSizeValid image.length = false then some (false, s)
  else unpackLoop root (image.length + 1) s image

end Fs

end DelOs
