import DelOs.Memory.Kmalloc

/-!
# File metadata

`vfs_stat_t` and the functions of `src/kernel/fs/vfs/stat/`, with the masks of
`include/kernel/fs/vfs/vfs_stat.h` and the flags of `include/kernel/fs/vfs/vfs_open.h`.

* `VfsStat` — the metadata of a file; `kvfsStatCreate` — that of a new one.
* `kvfsStatCanRead`, `kvfsStatCanWrite`, `kvfsStatCanExec` — the permission checks.
* `isDir_mask_or`, `isReg_mask_or` — the type of a file is the one its creation gives it,
  whatever the mode asked for.

The clock is not read yet: the source stores 0 in every time field.  A link count is a
natural number, since each link is an entry that takes at least a page of the heap.
-/

namespace DelOs

/-! ## Modes and flags -/

def KVFS_STAT_IFMT : Nat := 0o170000
def KVFS_STAT_IFREG : Nat := 0o100000
def KVFS_STAT_IFDIR : Nat := 0o040000
def KVFS_STAT_IFCHR : Nat := 0o020000

/-- `KVFS_STAT_MODE_MASK_IT`. -/
def kvfsStatModeMaskIt (mode : Nat) : Nat := mode &&& 0o777

/-- `KVFS_STAT_TYPE`. -/
def kvfsStatType (mode : Nat) : Nat := mode &&& KVFS_STAT_IFMT

/-- `KVFS_STAT_ISREG`. -/
def kvfsStatIsReg (mode : Nat) : Bool := kvfsStatType mode == KVFS_STAT_IFREG

/-- `KVFS_STAT_ISDIR`. -/
def kvfsStatIsDir (mode : Nat) : Bool := kvfsStatType mode == KVFS_STAT_IFDIR

/-- `KVFS_STAT_ISCHR`. -/
def kvfsStatIsChr (mode : Nat) : Bool := kvfsStatType mode == KVFS_STAT_IFCHR

def KVFS_O_ACCMODE : Nat := 0x0003
def KVFS_O_RDONLY : Nat := 0x0000
def KVFS_O_WRONLY : Nat := 0x0001
def KVFS_O_RDWR : Nat := 0x0002
def KVFS_O_CREAT : Nat := 0x0040
def KVFS_O_EXCL : Nat := 0x0080
def KVFS_O_DIRECTORY : Nat := 0x10000

/-- `flags & f`, as a condition. -/
def flagSet (flags f : Nat) : Bool := flags &&& f != 0

/-! ## The metadata of a file -/

/-- `vfs_stat_t`. -/
structure VfsStat where
  mode : Nat
  nlink : Nat
  size : Nat
  atime : Nat
  mtime : Nat
  ctime : Nat
  uid : Nat
  gid : Nat
  deriving DecidableEq, Repr

/-- `vfs_stat_t st = {0}`. -/
def VfsStat.zero : VfsStat := ⟨0, 0, 0, 0, 0, 0, 0, 0⟩

/-- `cred_t`. -/
structure Cred where
  uid : Nat
  gid : Nat
  deriving DecidableEq, Repr

/-- `const cred_t cred = {0, 0}`, the credentials every call of the kernel checks with. -/
def Cred.root : Cred := ⟨0, 0⟩

def kvfsStatUpdateAtime (st : VfsStat) : VfsStat := { st with atime := 0 }

def kvfsStatUpdateMtime (st : VfsStat) : VfsStat := { st with mtime := 0, ctime := 0 }

def kvfsStatUpdateCtime (st : VfsStat) : VfsStat := { st with ctime := 0 }

def kvfsStatIncNlink (st : VfsStat) : VfsStat :=
  kvfsStatUpdateCtime { st with nlink := st.nlink + 1 }

def kvfsStatDecNlink (st : VfsStat) : VfsStat :=
  kvfsStatUpdateCtime (if st.nlink > 0 then { st with nlink := st.nlink - 1 } else st)

def kvfsStatSetNlink (st : VfsStat) (nlink : Nat) : VfsStat :=
  kvfsStatUpdateCtime { st with nlink := nlink }

def kvfsStatUpdateSize (st : VfsStat) (newSize : Nat) : VfsStat :=
  if st.size ≠ newSize then kvfsStatUpdateMtime { st with size := newSize } else st

def kvfsStatChmod (st : VfsStat) (mode : Nat) : VfsStat :=
  kvfsStatUpdateCtime { st with mode := (st.mode &&& KVFS_STAT_IFMT) ||| mode }

/-- The metadata of a new file: a directory starts with two links, any other file with one. -/
def kvfsStatCreate (mode : Nat) : VfsStat :=
  let st := kvfsStatChmod (kvfsStatUpdateMtime (kvfsStatUpdateAtime VfsStat.zero)) mode
  if kvfsStatIsDir mode then kvfsStatSetNlink st 2 else kvfsStatSetNlink st 1

/-- The three permission checks: `usr`, `grp` and `oth` are the permission bits asked for. -/
def kvfsStatCan (usr grp oth : Nat) (st : VfsStat) (cred : Cred) : Bool :=
  cred.uid == 0 || (st.uid == cred.uid && flagSet st.mode usr) ||
    (st.gid == cred.gid && flagSet st.mode grp) || flagSet st.mode oth

def kvfsStatCanRead : VfsStat → Cred → Bool := kvfsStatCan 0o400 0o040 0o004

def kvfsStatCanWrite : VfsStat → Cred → Bool := kvfsStatCan 0o200 0o020 0o002

def kvfsStatCanExec : VfsStat → Cred → Bool := kvfsStatCan 0o100 0o010 0o001

/-! ## Lemmas -/

/-- The kernel's own credentials pass every check. -/
@[simp] theorem kvfsStatCan_root (usr grp oth : Nat) (st : VfsStat) :
    kvfsStatCan usr grp oth st Cred.root = true := by
  simp [kvfsStatCan, Cred.root]

@[simp] theorem kvfsStatCanRead_root (st : VfsStat) : kvfsStatCanRead st Cred.root = true :=
  kvfsStatCan_root _ _ _ st

@[simp] theorem kvfsStatCanWrite_root (st : VfsStat) : kvfsStatCanWrite st Cred.root = true :=
  kvfsStatCan_root _ _ _ st

@[simp] theorem kvfsStatCanExec_root (st : VfsStat) : kvfsStatCanExec st Cred.root = true :=
  kvfsStatCan_root _ _ _ st

/-- Masking a mode leaves no type bit in it. -/
theorem kvfsStatType_mask_or (mode kind : Nat) :
    kvfsStatType (kvfsStatModeMaskIt mode ||| kind) = kind &&& KVFS_STAT_IFMT := by
  have hmask : mode &&& 0o777 &&& KVFS_STAT_IFMT = 0 := by
    rw [Nat.and_assoc, show 0o777 &&& KVFS_STAT_IFMT = 0 from rfl, Nat.and_zero]
  rw [kvfsStatType, kvfsStatModeMaskIt, Nat.and_or_distrib_right, hmask, Nat.zero_or]

theorem isDir_mask_or (mode : Nat) :
    kvfsStatIsDir (kvfsStatModeMaskIt mode ||| KVFS_STAT_IFDIR) = true := by
  rw [kvfsStatIsDir, kvfsStatType_mask_or]
  rfl

theorem isReg_mask_or (mode : Nat) :
    kvfsStatIsReg (kvfsStatModeMaskIt mode ||| KVFS_STAT_IFREG) = true := by
  rw [kvfsStatIsReg, kvfsStatType_mask_or]
  rfl

/-- A file has one type. -/
theorem isDir_of_isReg {mode : Nat} (h : kvfsStatIsReg mode = true) :
    kvfsStatIsDir mode = false := by
  simp only [kvfsStatIsReg, kvfsStatIsDir, beq_iff_eq, beq_eq_false_iff_ne] at h ⊢
  rw [h]
  decide

theorem isChr_of_isReg {mode : Nat} (h : kvfsStatIsReg mode = true) :
    kvfsStatIsChr mode = false := by
  simp only [kvfsStatIsReg, kvfsStatIsChr, beq_iff_eq, beq_eq_false_iff_ne] at h ⊢
  rw [h]
  decide

theorem isChr_of_isDir {mode : Nat} (h : kvfsStatIsDir mode = true) :
    kvfsStatIsChr mode = false := by
  have htype : kvfsStatType mode = KVFS_STAT_IFDIR := by simpa [kvfsStatIsDir] using h
  rw [kvfsStatIsChr, htype]
  decide

theorem isReg_of_isDir {mode : Nat} (h : kvfsStatIsDir mode = true) :
    kvfsStatIsReg mode = false := by
  cases hr : kvfsStatIsReg mode with
  | false => rfl
  | true => rw [isDir_of_isReg hr] at h; exact absurd h (by decide)

@[simp] theorem kvfsStatCreate_mode (mode : Nat) : (kvfsStatCreate mode).mode = mode := by
  have h : (kvfsStatChmod (kvfsStatUpdateMtime (kvfsStatUpdateAtime VfsStat.zero)) mode).mode =
      mode := by
    simp [kvfsStatChmod, kvfsStatUpdateMtime, kvfsStatUpdateAtime, kvfsStatUpdateCtime,
      VfsStat.zero]
  unfold kvfsStatCreate
  split <;> simpa [kvfsStatSetNlink, kvfsStatUpdateCtime] using h

theorem kvfsStatCreate_nlink (mode : Nat) :
    (kvfsStatCreate mode).nlink = if kvfsStatIsDir mode then 2 else 1 := by
  unfold kvfsStatCreate
  split <;> rfl

@[simp] theorem kvfsStatCreate_size (mode : Nat) : (kvfsStatCreate mode).size = 0 := by
  unfold kvfsStatCreate
  split <;> rfl

@[simp] theorem kvfsStatIncNlink_mode (st : VfsStat) : (kvfsStatIncNlink st).mode = st.mode := rfl

@[simp] theorem kvfsStatIncNlink_nlink (st : VfsStat) :
    (kvfsStatIncNlink st).nlink = st.nlink + 1 := rfl

@[simp] theorem kvfsStatDecNlink_mode (st : VfsStat) : (kvfsStatDecNlink st).mode = st.mode := by
  unfold kvfsStatDecNlink
  split <;> rfl

@[simp] theorem kvfsStatDecNlink_nlink (st : VfsStat) :
    (kvfsStatDecNlink st).nlink = st.nlink - 1 := by
  unfold kvfsStatDecNlink
  split
  · rfl
  · simp only [kvfsStatUpdateCtime]
    omega

@[simp] theorem kvfsStatDecNlink_size (st : VfsStat) : (kvfsStatDecNlink st).size = st.size := by
  unfold kvfsStatDecNlink
  split <;> rfl

@[simp] theorem kvfsStatUpdateSize_size (st : VfsStat) (n : Nat) :
    (kvfsStatUpdateSize st n).size = n := by
  unfold kvfsStatUpdateSize
  split_ifs with h
  · rfl
  · simpa using h

@[simp] theorem kvfsStatUpdateSize_mode (st : VfsStat) (n : Nat) :
    (kvfsStatUpdateSize st n).mode = st.mode := by
  unfold kvfsStatUpdateSize
  split <;> rfl

@[simp] theorem kvfsStatUpdateSize_nlink (st : VfsStat) (n : Nat) :
    (kvfsStatUpdateSize st n).nlink = st.nlink := by
  unfold kvfsStatUpdateSize
  split <;> rfl

end DelOs
