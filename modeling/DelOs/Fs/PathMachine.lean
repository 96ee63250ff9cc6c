import DelOs.Fs.TableRuns
import DelOs.Lib.PathWalk
import DelOs.Lib.Splice

/-!
# The file system as its callers see it

Files and directories by path, a working directory, and open files: no heap, no nodes, no
descriptor records.  It says what the calls are for.

* `OpenFile`, `PathFs` — an open file; the whole state.
* `PathFs.resolve` — what a path leads to, from the root or from the working directory.
* `PathFs.openNamed`, `PathFs.openAt` — the file that an `open` finds or makes.
* `PathFs.call`, `PathFs.step` — the calls, and what they return.
-/

namespace DelOs

open PathTree Splice

instance (flags : Nat) : Decidable (Fs.MayRead flags) := inferInstanceAs (Decidable (_ ≠ _))

instance (flags : Nat) : Decidable (Fs.MayWrite flags) := inferInstanceAs (Decidable (_ ∨ _))

/-- An open file: its path, how far it has been read or written, and the flags of its `open`. -/
structure OpenFile where
  path : List CString
  offset : Nat
  flags : Nat

/-- What a file system is to its callers: the directories and files by path, the names in each
directory in the order in which they are listed, the working directory, and the open files. -/
structure PathFs where
  tree : PathTree CString (List UInt8)
  list : List CString → List CString
  cwd : List CString
  files : Nat → Nat → Option OpenFile

namespace PathFs

variable (A : PathFs)

/-- An empty root, which is the working directory; nothing is open. -/
def empty : PathFs where
  tree p := if p = [] then some .dir else none
  list _ := []
  cwd := []
  files _ _ := none

/-! ## Paths -/

/-- Where a path starts. -/
def start (path : CString) : List CString := if kvfsIsAbsolutePath path then [] else A.cwd

/-- The place that a list of names leads to. -/
def walk (here names : List CString) : Option (List CString) :=
  A.tree.walk dotName dotDotName here names

/-- What a path leads to; the empty path leads nowhere. -/
def resolve (path : CString) : Option (List CString) :=
  if path = [] then none else A.walk (A.start path) (components path)

/-! ## Open files -/

/-- The file of a descriptor. -/
def file (proc : Nat) (fd : Int) : Option OpenFile :=
  if fd < 0 ∨ fd ≥ KFD_MAX_COUNT then none else A.files proc fd.toNat

/-- Another file in a place of the table. -/
def setFile (proc fd : Nat) (o : Option OpenFile) : PathFs :=
  { A with files := fun p i => if p = proc ∧ i = fd then o else A.files p i }

/-- The first free place of a table. -/
def freeFd (proc : Nat) : Option Nat :=
  (List.range KFD_MAX_COUNT).find? fun fd => (A.files proc fd).isNone

/-- Make a directory or an empty file: it is listed first. -/
def make (parent : List CString) (name : CString) (n : PathNode (List UInt8)) : PathFs :=
  { A with
    tree := Function.update A.tree (parent ++ [name]) (some n)
    list := fun p =>
      if p = parent then name :: A.list p else if p = parent ++ [name] then [] else A.list p }

/-- The file that an `open` of a name in a directory finds or makes, if it does not fail. -/
def openNamed (parent : List CString) (name : CString) (flags : Nat) :
    Option (List CString) × PathFs :=
  match A.tree.enter dotName dotDotName parent name with
  | some p => (if flagSet flags KVFS_O_CREAT && flagSet flags KVFS_O_EXCL then none else some p, A)
  | none =>
    if flagSet flags KVFS_O_CREAT = true ∧ A.tree parent = some .dir then
      (some (parent ++ [name]),
        A.make parent name (if flagSet flags KVFS_O_DIRECTORY then .dir else .file []))
    else (none, A)

/-- The file that an `open` of a path finds or makes.  A path of slashes opens the name `"/"` in
the root. -/
def openAt (path : CString) (flags : Nat) : Option (List CString) × PathFs :=
  if path = [] then (none, A)
  else
    match A.walk (A.start path) (components path).dropLast with
    | none => (none, A)
    | some parent => A.openNamed parent ((components path).getLastD [slash]) flags

/-- The first free descriptor gets the file at a path. -/
def kfdCreate (proc : Nat) (path : List CString) (flags : Nat) : Int × PathFs :=
  match A.freeFd proc with
  | none => (KFD_ERROR, A)
  | some fd => (fd, A.setFile proc fd (some ⟨path, 0, flags⟩))

/-- Open a file.  What has been made stays, also when there is no free descriptor. -/
def kfdOpen (proc : Nat) (path : CString) (flags : Nat) : Int × PathFs :=
  match A.openAt path flags with
  | (none, B) => (KFD_ERROR, B)
  | (some p, B) => B.kfdCreate proc p flags

/-- Close a descriptor. -/
def kfdClose (proc : Nat) (fd : Int) : Bool × PathFs :=
  match A.file proc fd with
  | none => (false, A)
  | some _ => (true, A.setFile proc fd.toNat none)

/-- Read from a descriptor: only a regular file has bytes. -/
def kfdRead (proc : Nat) (fd : Int) (len : Nat) : List UInt8 × PathFs :=
  match A.file proc fd with
  | none => ([], A)
  | some o =>
    match A.tree o.path with
    | some (.file bytes) =>
      if Fs.MayRead o.flags then
        ((bytes.drop o.offset).take len, A.setFile proc fd.toNat
          (some { o with offset := o.offset + min len (bytes.length - o.offset) }))
      else ([], A)
    | _ => ([], A)

/-- Write to a descriptor. -/
def kfdWrite (proc : Nat) (fd : Int) (buffer : List UInt8) : Nat × PathFs :=
  match A.file proc fd with
  | none => (0, A)
  | some o =>
    match A.tree o.path with
    | some (.file bytes) =>
      if Fs.MayWrite o.flags then
        (buffer.length,
          { A.setFile proc fd.toNat (some { o with offset := o.offset + buffer.length }) with
            tree := A.tree.putFile o.path (splice bytes o.offset buffer) })
      else (0, A)
    | _ => (0, A)

/-- What a directory says of a name in it. -/
def dirent (parent : List CString) (name : CString) : Dirent where
  inode := 0
  type := if A.tree (parent ++ [name]) = some .dir then KVFS_STAT_IFDIR else KVFS_STAT_IFREG
  name := name

/-- Read the next name of a directory. -/
def kfdReaddir (proc : Nat) (fd : Int) : Option Dirent × PathFs :=
  match A.file proc fd with
  | none => (none, A)
  | some o =>
    if A.tree o.path = some .dir ∧ Fs.MayRead o.flags then
      ((A.list o.path)[o.offset]?.map (A.dirent o.path),
        A.setFile proc fd.toNat (some { o with offset := u32 (o.offset + 1) }))
    else (none, A)

/-- Make a directory.  A descriptor has to be free, or the call fails behind what it has made. -/
def kmkdir (proc : Nat) (path : CString) : Int × PathFs :=
  if Fs.refusedPath path then (-1, A)
  else
    match A.openAt path (KVFS_O_CREAT ||| KVFS_O_DIRECTORY ||| KVFS_O_EXCL) with
    | (none, B) => (-1, B)
    | (some _, B) => (if (B.freeFd proc).isSome then 0 else -1, B)

/-- A regular file lies at the path. -/
def isFile (path : List CString) : Bool :=
  match A.tree path with
  | some (.file _) => true
  | _ => false

/-- The file that an `unlink` takes away. -/
def unlinked (path : CString) : Option (List CString) := (A.resolve path).filter A.isFile

open Classical in
/-- An empty directory other than the root lies at the path. -/
noncomputable def isSpare (path : List CString) : Bool :=
  decide (A.tree path = some .dir ∧ path ≠ [] ∧ A.tree.Childless path)

/-- The directory that an `rmdir` takes away. -/
noncomputable def rmdired (path : CString) : Option (List CString) :=
  (A.resolve path).filter A.isSpare

/-- Take away what lies at a path, if there is one. -/
def remove : Option (List CString) → PathFs
  | none => A
  | some p =>
    { A with
      tree := A.tree.erase p
      list := fun q => if q = p.dropLast then (A.list q).filter (· ≠ p.getLastD []) else A.list q }

/-- Take a file away. -/
def kvfsUnlink (path : CString) : Bool × PathFs :=
  ((A.unlinked path).isSome, A.remove (A.unlinked path))

/-- Take an empty directory away. -/
noncomputable def krmdir (path : CString) : Int × PathFs :=
  if Fs.refusedPath path then (-1, A)
  else (if (A.rmdired path).isSome then 0 else -1, A.remove (A.rmdired path))

/-- Change the working directory. -/
def kvfsChdir (path : CString) : Int × PathFs :=
  match A.resolve path with
  | none => (-1, A)
  | some p => if A.tree p = some .dir then (0, { A with cwd := p }) else (-1, A)

/-- One call, and what it returns. -/
noncomputable def call (proc : Nat) : Call → Result × PathFs
  | .kfdOpen path flags _ => (A.kfdOpen proc path flags).map .code id
  | .kfdClose fd => (A.kfdClose proc fd).map .status id
  | .kfdRead fd len => (A.kfdRead proc fd len).map .bytes id
  | .kfdWrite fd buffer => (A.kfdWrite proc fd buffer).map .count id
  | .kfdReaddir fd => (A.kfdReaddir proc fd).map .dirent id
  | .kmkdir path => (A.kmkdir proc path).map .code id
  | .krmdir path => (A.krmdir path).map .code id
  | .kvfsUnlink path => (A.kvfsUnlink path).map .status id
  | .kvfsChdir path => (A.kvfsChdir path).map .code id
  | .lookupOpenClose path => (.status (A.resolve path).isSome, A)

/-- One call of a process. -/
noncomputable def step (A : PathFs) (i : Input) : Option (Result × PathFs) :=
  some (A.call i.proc i.call)

end PathFs

end DelOs
