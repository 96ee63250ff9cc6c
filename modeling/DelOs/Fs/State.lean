import DelOs.Fs.Stat
import DelOs.Memory.BlockHeap

/-!
# The state of the file system

The records that the file system keeps on the kernel heap, and the heap itself as a list of
blocks (`FirstFit`), each of which holds one record.  A pointer is the place of its block.

* `VfsNode`, `TmpfsEntry`, `FileDesc` — `vfs_node_t`, `tmpfs_entry_t`, `file_desc_t`.
* `Obj` — what a block holds; `Fs` — the heap, the root mount, the working directory, the
  descriptor tables of the processes.
* `Fs.load` — the record at a pointer, whether its block is in use or not: `kfree` leaves the
  bytes of a block as they are.
* `Fs.obj` — the record at a pointer whose block is in use.
* `Fs.kmalloc`, `Fs.kcalloc`, `Fs.kfree`, `Fs.krealloc` — the allocator.
* `Fs.nodeAt` — a node as the kernel reads it, also where the block holds an entry by now: the
  fields of a node lie over the first bytes of the entry's name.

A function returns `none` where the source has no meaning that these records can express: it
follows a null pointer, or reads a block as a record of another kind.
-/

namespace DelOs

open FirstFit

/-! ## Records -/

/-- A pointer into the kernel heap; 0 is `NULL`. -/
abbrev Ptr := Nat

/-- The bytes of a C string before its terminator. -/
abbrev CString := List UInt8

/-- `vfs_ops_t *`: the only table there is, `NULL`, or a word that is neither. -/
inductive VfsOps
  | null
  | ktmpfsOperations
  | wild
  deriving DecidableEq, Repr

/-- `vfs_node_t`; `_fs` is written and never read. -/
structure VfsNode where
  refcount : Nat
  ops : VfsOps
  priv : Ptr
  deriving DecidableEq, Repr

/-- The functions that a character device of the tmpfs may call. -/
inductive CharDevice
  | kfsVgaWrite
  | kfsKeyboardRead
  deriving DecidableEq, Repr

/-- `tmpfs_entry_t`.  The members of its union are fields of their own: which of them is in use
follows from the mode, which never changes. -/
structure TmpfsEntry where
  name : CString
  stat : VfsStat
  parent : Ptr
  /-- `_file._data_ptr`, `_file._size`, `_file._capacity` -/
  dataPtr : Ptr
  size : Nat
  capacity : Nat
  /-- `_chr._read`, `_chr._write` -/
  chrRead : Option CharDevice
  chrWrite : Option CharDevice
  /-- `_dir._child` -/
  child : Ptr
  next : Ptr
  deriving DecidableEq, Repr

/-- What `kcalloc` leaves in the block of an entry. -/
def TmpfsEntry.zero : TmpfsEntry := ⟨[], VfsStat.zero, 0, 0, 0, 0, none, none, 0, 0⟩

/-- The entry is a directory. -/
def TmpfsEntry.isDir (e : TmpfsEntry) : Bool := kvfsStatIsDir e.stat.mode

/-- The entry is a regular file. -/
def TmpfsEntry.isReg (e : TmpfsEntry) : Bool := kvfsStatIsReg e.stat.mode

/-- `file_desc_t`. -/
structure FileDesc where
  node : Ptr
  offset : Nat
  flags : Nat
  refcount : Nat
  deriving DecidableEq, Repr

/-- What a block of the heap holds: something no file-system call has written, one of the
records, or the data of a file. -/
inductive Obj
  | raw
  | node (n : VfsNode)
  | entry (e : TmpfsEntry)
  | desc (d : FileDesc)
  | data (bytes : List UInt8)
  deriving DecidableEq, Repr

def sizeofVfsNode : Nat := 16
def sizeofTmpfsEntry : Nat := 324
def sizeofFileDesc : Nat := 16

/-- The file system: the heap, `kvfs_root_mount_dir`, `kvfs_cwd`, and the descriptor tables of
the processes.  `pages` holds the answers of the page layers to the allocations to come, and
`junk` the bytes that a block happens to hold behind the ones that were stored in it. -/
structure Fs where
  heap : Blocks Obj
  kvfsRootMountDir : Ptr
  kvfsCwd : Ptr
  fds : Nat → Nat → Ptr
  pages : Nat → Bool
  junk : Nat → UInt8

namespace Fs

/-! ## Reading and writing records -/

/-- The record at a pointer. -/
def load (s : Fs) (p : Ptr) : Option Obj := (get s.heap p).map Block.val

/-- The record at a pointer whose block is in use. -/
def obj (s : Fs) (p : Ptr) : Option Obj :=
  (get s.heap p).bind fun b => if b.free then none else some b.val

/-- Write a record. -/
def put (s : Fs) (p : Ptr) (o : Obj) : Fs :=
  { s with heap := update (fun b => { b with val := o }) s.heap p }

def entryAt (s : Fs) (p : Ptr) : Option TmpfsEntry :=
  match s.load p with
  | some (.entry e) => some e
  | _ => none

def descAt (s : Fs) (p : Ptr) : Option FileDesc :=
  match s.load p with
  | some (.desc d) => some d
  | _ => none

def dataAt (s : Fs) (p : Ptr) : Option (List UInt8) :=
  match s.load p with
  | some (.data bytes) => some bytes
  | _ => none

/-- The four bytes of a word, little end first. -/
def wordBytes (n : Nat) : List UInt8 :=
  [UInt8.ofNat n, UInt8.ofNat (n / 256), UInt8.ofNat (n / 65536), UInt8.ofNat (n / 16777216)]

/-- The little-endian word that four bytes of a name make; the buffer behind a name is zero. -/
def nameWord (name : CString) (i : Nat) : Nat :=
  (name.getD i 0).toNat + 256 * (name.getD (i + 1) 0).toNat +
    65536 * (name.getD (i + 2) 0).toNat + 16777216 * (name.getD (i + 3) 0).toNat

/-- What a reader of a node finds in the block of an entry: `_refcount` lies over the bytes 0
to 3 of the name, `_ops` over the bytes 4 to 7. -/
def nodeOverName (name : CString) : VfsNode :=
  { refcount := nameWord name 0
    ops := if nameWord name 4 = 0 then .null else .wild
    priv := 0 }

/-- The name that storing a word over its first four bytes leaves, if it still is a string with
nothing but zeros behind it. -/
def nameOverwrite (name : CString) (n : Nat) : Option CString :=
  let buffer := wordBytes n ++ name.drop 4
  let text := buffer.takeWhile (· ≠ 0)
  if buffer.drop text.length = List.replicate (buffer.length - text.length) 0 then some text
  else none

/-- The node at a pointer. -/
def nodeAt (s : Fs) (p : Ptr) : Option VfsNode :=
  match s.load p with
  | some (.node n) => some n
  | some (.entry e) => some (nodeOverName e.name)
  | _ => none

/-- `node->_refcount = n`. -/
def setRefcount (s : Fs) (p : Ptr) (n : Nat) : Option Fs :=
  match s.load p with
  | some (.node v) => some (s.put p (.node { v with refcount := n }))
  | some (.entry e) =>
      (nameOverwrite e.name n).map fun name => s.put p (.entry { e with name := name })
  | _ => none

/-! ## The allocator -/

/-- `kmalloc`. -/
def kmalloc (s : Fs) (size : Nat) : Ptr × Fs :=
  let (p, heap) := kmallocBlocks (s.pages 0) Obj.raw s.heap size
  (p, { s with heap := heap, pages := fun k => s.pages (k + 1) })

/-- `kmalloc`, and the record that the caller writes into the block if it gets one. -/
def new (s : Fs) (size : Nat) (o : Obj) : Ptr × Fs :=
  let (p, s) := s.kmalloc size
  if p = 0 then (0, s) else (p, s.put p o)

/-- `kcalloc(sizeof(tmpfs_entry_t))`. -/
def kcallocEntry (s : Fs) : Ptr × Fs := s.new sizeofTmpfsEntry (.entry TmpfsEntry.zero)

/-- `kfree`. -/
def kfree (s : Fs) (p : Ptr) : Fs := { s with heap := kfreeBlocks s.heap p }

/-- `n` bytes from the start of a block that holds `bytes`, and then whatever lies there. -/
def readBytes (s : Fs) (bytes : List UInt8) (n : Nat) : List UInt8 :=
  (List.range n).map fun i => bytes.getD i (s.junk i)

/-- Make `bytes` the data of a block, if they fit in it. -/
def putData (s : Fs) (p : Ptr) (bytes : List UInt8) : Option Fs :=
  match get s.heap p with
  | some b => if bytes.length ≤ b.size then some (s.put p (.data bytes)) else none
  | none => none

/-- The size that `krealloc` allocates: 0 stands for the size of the old block. -/
def reallocSize (s : Fs) (ptr : Ptr) (size : Nat) : Option Nat :=
  if size = 0 then (get s.heap ptr).map Block.size else some size

/-- `krealloc`: it copies `size` bytes whatever the old block holds, and frees the old block
whether or not there is a new one. -/
def krealloc (s : Fs) (ptr : Ptr) (size : Nat) : Option (Ptr × Fs) := do
  let size ← s.reallocSize ptr size
  let (newPtr, s) := s.kmalloc size
  if ptr = 0 then
    if newPtr = 0 then return (0, s)
    return (newPtr, ← s.putData newPtr (s.readBytes [] size))
  else
    if newPtr = 0 then return (0, s.kfree ptr)
    let s ← s.putData newPtr (s.readBytes (← s.dataAt ptr) size)
    return (newPtr, s.kfree ptr)

/-! ## What the operations do to the records in use -/

/-- The page layers grant what the allocations to come ask for. -/
def Granted (s : Fs) : Prop := ∀ k, s.pages k = true

/-- Nothing but records of the heap differs between two states. -/
structure Frame (s t : Fs) : Prop where
  root : t.kvfsRootMountDir = s.kvfsRootMountDir
  cwd : t.kvfsCwd = s.kvfsCwd
  fds : t.fds = s.fds
  junk : t.junk = s.junk
  granted : s.Granted → t.Granted

theorem Frame.refl (s : Fs) : Frame s s := ⟨rfl, rfl, rfl, rfl, id⟩

theorem Frame.trans {s t r : Fs} (h : Frame s t) (h' : Frame t r) : Frame s r :=
  ⟨h'.root.trans h.root, h'.cwd.trans h.cwd, h'.fds.trans h.fds, h'.junk.trans h.junk,
    fun hg => h'.granted (h.granted hg)⟩

theorem frame_put (s : Fs) (p : Ptr) (o : Obj) : Frame s (s.put p o) :=
  ⟨rfl, rfl, rfl, rfl, id⟩

theorem frame_kfree (s : Fs) (p : Ptr) : Frame s (s.kfree p) := ⟨rfl, rfl, rfl, rfl, id⟩

theorem load_of_obj {s : Fs} {p : Ptr} {o : Obj} (h : s.obj p = some o) : s.load p = some o := by
  unfold obj at h
  unfold load
  cases hb : get s.heap p with
  | none => simp [hb] at h
  | some b => cases hf : b.free <;> simp_all

@[simp] theorem obj_zero (s : Fs) : s.obj 0 = none := by simp [obj]

theorem ne_zero_of_obj {s : Fs} {p : Ptr} {o : Obj} (h : s.obj p = some o) : p ≠ 0 := by
  intro hp
  simp [hp] at h

theorem entryAt_of_obj {s : Fs} {p : Ptr} {e : TmpfsEntry} (h : s.obj p = some (.entry e)) :
    s.entryAt p = some e := by
  simp [entryAt, load_of_obj h]

theorem descAt_of_obj {s : Fs} {p : Ptr} {d : FileDesc} (h : s.obj p = some (.desc d)) :
    s.descAt p = some d := by
  simp [descAt, load_of_obj h]

theorem dataAt_of_obj {s : Fs} {p : Ptr} {bytes : List UInt8}
    (h : s.obj p = some (.data bytes)) : s.dataAt p = some bytes := by
  simp [dataAt, load_of_obj h]

theorem nodeAt_of_obj {s : Fs} {p : Ptr} {n : VfsNode} (h : s.obj p = some (.node n)) :
    s.nodeAt p = some n := by
  simp [nodeAt, load_of_obj h]

/-- Writing the record of a block in use. -/
theorem obj_put {s : Fs} {p : Ptr} (h : s.obj p ≠ none) (o' : Obj) :
    (s.put p o').obj = Function.update s.obj p (some o') := by
  funext q
  unfold obj at h ⊢
  simp only [put, get_update, Function.update_apply]
  by_cases hq : q = p
  · subst hq
    cases hb : get s.heap q with
    | none => simp [hb] at h
    | some b => cases hf : b.free <;> simp_all
  · simp [hq]

/-- Writing a record into a block that is not in use. -/
theorem obj_put_dead {s : Fs} {p : Ptr} (h : s.obj p = none) (o : Obj) : (s.put p o).obj = s.obj := by
  funext q
  unfold obj at h ⊢
  simp only [put, get_update]
  by_cases hq : q = p
  · subst hq
    cases hb : get s.heap q with
    | none => simp
    | some b => cases hf : b.free <;> simp_all
  · simp [hq]

theorem obj_kfree (s : Fs) (p : Ptr) : (s.kfree p).obj = Function.update s.obj p none := by
  funext q
  simp only [obj, kfree, get_kfreeBlocks, Function.update_apply]
  by_cases hq : q = p
  · subst hq
    cases get s.heap q <;> simp
  · simp [hq]

/-- What an allocation can come to: nothing, and then the page layers have refused, or the
record `o` in a block that was not in use. -/
structure Alloc (s t : Fs) (p : Ptr) (o : Obj) : Prop where
  frame : Frame s t
  pages : t.pages = fun k => s.pages (k + 1)
  made : (p = 0 ∧ t.obj = s.obj ∧ s.pages 0 = false) ∨
    (p ≠ 0 ∧ s.obj p = none ∧ t.obj = Function.update s.obj p (some o))

theorem kmalloc_frame (s : Fs) (size : Nat) : Frame s (s.kmalloc size).2 :=
  ⟨rfl, rfl, rfl, rfl, fun hg k => hg (k + 1)⟩

/-- An allocation refused changes no block. -/
theorem kmalloc_null {s t : Fs} {size : Nat} (h : s.kmalloc size = (0, t)) :
    t.heap = s.heap := by
  obtain ⟨h1, rfl⟩ := Prod.mk.inj h
  exact kmallocBlocks_null (Prod.ext h1 rfl)

/-- The block of an allocation was not in use, is now, and no other block changes. -/
theorem kmalloc_block {s t : Fs} {size p : Nat} (h : s.kmalloc size = (p, t)) (hp : p ≠ 0) :
    s.obj p = none ∧ (∃ b, get t.heap p = some b ∧ b.free = false) ∧
      ∀ q, q ≠ p → get t.heap q = get s.heap q := by
  obtain ⟨h1, rfl⟩ := Prod.mk.inj h
  have hblocks : kmallocBlocks (s.pages 0) Obj.raw s.heap size = (p, (s.kmalloc size).2.heap) :=
    Prod.ext h1 rfl
  obtain ⟨hdead, hlive⟩ := live_kmallocBlocks hblocks hp
  refine ⟨?_, (hlive p).2 (Or.inl rfl), ?_⟩
  · unfold obj
    cases hg : get s.heap p with
    | none => rfl
    | some c =>
      cases hc : c.free with
      | true => simp [hc]
      | false => exact absurd ⟨c, hg, hc⟩ hdead
  · intro q hq
    exact get_kmallocBlocks_ne hblocks hq

/-- The page layers willing, an allocation of some bytes succeeds. -/
theorem kmalloc_granted {s : Fs} {size : Nat} (h0 : 0 < size) (hs : size ≤ 2 ^ 29)
    (hg : s.pages 0 = true) : (s.kmalloc size).1 ≠ 0 := by
  show (kmallocBlocks (s.pages 0) Obj.raw s.heap size).1 ≠ 0
  have hround := le_alignUp hs
  have hpages := le_pagesToGet (alignUp_le hs)
  simp only [kmallocHeaderSize, kmallocPageSize] at hpages
  unfold kmallocBlocks
  rw [if_neg (by omega)]
  split_ifs with hf hr
  · exact hf
  · rcases hr with hr | hr | hr
    · omega
    · omega
    · rw [hg] at hr
      exact absurd hr (by decide)
  · exact Nat.succ_ne_zero _

/-- An allocation and the record stored in its block. -/
theorem new_alloc {s t : Fs} {size p : Nat} {o : Obj} (h0 : 0 < size) (hs : size ≤ 2 ^ 29)
    (h : s.new size o = (p, t)) : Alloc s t p o := by
  rcases hk : s.kmalloc size with ⟨q, r⟩
  have hframe : Frame s r := by simpa [hk] using kmalloc_frame s size
  have hpages : r.pages = fun k => s.pages (k + 1) := by
    rw [← show (s.kmalloc size).2 = r by rw [hk]]
    rfl
  simp only [new, hk] at h
  split_ifs at h with hq
  · subst hq
    obtain ⟨rfl, rfl⟩ := Prod.mk.inj h
    refine ⟨hframe, hpages, Or.inl ⟨rfl, ?_, ?_⟩⟩
    · funext x
      simp [obj, kmalloc_null hk]
    · cases hg : s.pages 0 with
      | false => rfl
      | true => exact absurd (by rw [hk]) (kmalloc_granted h0 hs hg)
  · obtain ⟨rfl, rfl⟩ := Prod.mk.inj h
    obtain ⟨hdead, ⟨b, hb, hfree⟩, hrest⟩ := kmalloc_block hk hq
    refine ⟨hframe.trans (frame_put r q o), hpages, Or.inr ⟨hq, hdead, ?_⟩⟩
    rw [obj_put (by simp [obj, hb, hfree])]
    funext x
    by_cases hx : x = q
    · simp [hx]
    · simp [hx, obj, hrest x hx]

end Fs

end DelOs
