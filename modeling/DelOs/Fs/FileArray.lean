import DelOs.Fs.FileData

/-!
# A regular file is an array of bytes

Any number of descriptors, of any processes, open on one regular file.

* `FileArray`, `arrayStep` — the abstract file: an array of bytes, and for each descriptor an
  offset and what it may be used for.
* `Stores` — the state of the kernel stores such a file.
* `FileCall` — a read or a write through one of the descriptors, within 32 bits and with the
  memory that it needs.
* `file_refines_array` — **over any interleaving, each call returns what the array returns**,
  whatever the blocks that `krealloc` hands out contain.
-/

namespace DelOs

open Splice Transition

/-! ## The abstract file -/

/-- A descriptor of the abstract file. -/
structure Handle where
  offset : Nat
  readable : Bool
  writable : Bool
  deriving DecidableEq

/-- The abstract file: its bytes, and the descriptors of each process. -/
structure FileArray where
  bytes : List UInt8
  handle : Nat → Nat → Handle

/-- Advance one descriptor. -/
def FileArray.advance (a : FileArray) (proc fd n : Nat) : Nat → Nat → Handle := fun p i =>
  if p = proc ∧ i = fd then { a.handle p i with offset := (a.handle p i).offset + n }
  else a.handle p i

/-- Write at the offset of a descriptor: replace the bytes there, extend the array when needed,
and advance that descriptor by the length written. -/
def FileArray.write (a : FileArray) (proc fd : Nat) (buffer : List UInt8) : Nat × FileArray :=
  if (a.handle proc fd).writable then
    (buffer.length,
      { bytes := splice a.bytes (a.handle proc fd).offset buffer
        handle := a.advance proc fd buffer.length })
  else (0, a)

/-- Read at the offset of a descriptor: the slice of `len` bytes there, or as many as there are,
and advance that descriptor by the length read. -/
def FileArray.read (a : FileArray) (proc fd len : Nat) : List UInt8 × FileArray :=
  if (a.handle proc fd).readable then
    ((a.bytes.drop (a.handle proc fd).offset).take len,
      { a with handle :=
        a.advance proc fd (min len (a.bytes.length - (a.handle proc fd).offset)) })
  else ([], a)

/-- A call on the abstract file. -/
def arrayStep (a : FileArray) (i : Input) : Option (Result × FileArray) :=
  match i.call with
  | .kfdRead fd len => some (Prod.map .bytes id (a.read i.proc fd.toNat len))
  | .kfdWrite fd buffer => some (Prod.map .count id (a.write i.proc fd.toNat buffer))
  | _ => none

@[simp] theorem FileArray.advance_zero (a : FileArray) (proc fd : Nat) :
    a.advance proc fd 0 = a.handle := by
  funext p i
  simp [FileArray.advance]

@[simp] theorem FileArray.write_nil (a : FileArray) (proc fd : Nat) :
    a.write proc fd [] = (0, a) := by
  simp [FileArray.write]

@[simp] theorem FileArray.read_zero (a : FileArray) (proc fd : Nat) :
    a.read proc fd 0 = ([], a) := by
  simp [FileArray.read]

namespace Fs

/-! ## The file in the kernel -/

/-- The descriptor `fd` of `proc` is open on the entry at `file`. -/
def OpenOn (s : Fs) (file : Ptr) (proc fd : Nat) : Prop :=
  fd < KFD_MAX_COUNT ∧ ∃ d, s.obj (s.fds proc fd) = some (.desc d) ∧ s.Refers d.node file

/-- A descriptor as the abstract file sees it. -/
def handleOf (d : FileDesc) : Handle :=
  ⟨d.offset, kfdCheckAccess d KFD_ACCESS_READ, kfdCheckAccess d KFD_ACCESS_WRITE⟩

/-- The state stores the abstract file `a` at `file`: the file holds its bytes, and the
descriptors open on it have its offsets, none of them past the end, in records of their own. -/
structure Stores (s : Fs) (file : Ptr) (a : FileArray) : Prop where
  holds : s.FileHolds file a.bytes
  handle : ∀ p i d, s.OpenOn file p i → s.obj (s.fds p i) = some (.desc d) →
    a.handle p i = handleOf d ∧ d.offset ≤ a.bytes.length
  apart : ∀ p i p' i', s.OpenOn file p i → s.OpenOn file p' i' → s.fds p i = s.fds p' i' →
    p = p' ∧ i = i'

/-- The offset of a descriptor. -/
def offsetOf (s : Fs) (proc : Nat) (fd : Int) : Nat :=
  ((s.descAt (s.kfdGet proc fd)).map FileDesc.offset).getD 0

/-- The capacity of a file. -/
def capacityOf (s : Fs) (file : Ptr) : Nat :=
  ((s.entryAt file).map TmpfsEntry.capacity).getD 0

/-- A read or a write through a descriptor open on `file` that stays below 4 GiB, and for which
`kmalloc` gives a block with room if the file has to grow. -/
def FileCall (file : Ptr) (s : Fs) (i : Input) : Prop :=
  match i.call with
  | .kfdRead fd len =>
      0 ≤ fd ∧ s.OpenOn file i.proc fd.toNat ∧ s.offsetOf i.proc fd + len < 2 ^ 32
  | .kfdWrite fd buffer =>
      0 ≤ fd ∧ s.OpenOn file i.proc fd.toNat ∧ s.offsetOf i.proc fd + buffer.length < 2 ^ 32 ∧
        (s.capacityOf file < s.offsetOf i.proc fd + buffer.length →
          (s.withInput i).Allocates (s.offsetOf i.proc fd + buffer.length))
  | _ => False

instance (s : Fs) (file : Ptr) (proc fd : Nat) : Decidable (s.OpenOn file proc fd) :=
  match h : s.obj (s.fds proc fd) with
  | some (.desc d) =>
      decidable_of_iff (fd < KFD_MAX_COUNT ∧ s.Refers d.node file) (by simp [OpenOn, h])
  | none | some .raw | some (.entry _) | some (.node _) | some (.data _) =>
      isFalse (by simp [OpenOn, h])

instance (file : Ptr) (s : Fs) (i : Input) : Decidable (FileCall file s i) :=
  match h : i.call with
  | .kfdRead fd len => decidable_of_iff
      (0 ≤ fd ∧ s.OpenOn file i.proc fd.toNat ∧ s.offsetOf i.proc fd + len < 2 ^ 32)
      (by simp [FileCall, h])
  | .kfdWrite fd buffer => decidable_of_iff
      (0 ≤ fd ∧ s.OpenOn file i.proc fd.toNat ∧ s.offsetOf i.proc fd + buffer.length < 2 ^ 32 ∧
        (s.capacityOf file < s.offsetOf i.proc fd + buffer.length →
          (s.withInput i).Allocates (s.offsetOf i.proc fd + buffer.length)))
      (by simp [FileCall, h])
  | .kfdOpen .. | .kfdClose _ | .kfdReaddir _ | .kmkdir _ | .krmdir _ | .kvfsUnlink _
  | .kvfsChdir _ | .lookupOpenClose _ => isFalse (by simp [FileCall, h])

/-! ## What a call changes -/

/-- The nodes and the descriptors in use are the same in two states. -/
def SameHandles (s t : Fs) : Prop :=
  ∀ q o, (∀ e, o ≠ Obj.entry e) → (∀ b, o ≠ Obj.data b) → (t.obj q = some o ↔ s.obj q = some o)

theorem SameHandles.refers {s t : Fs} (h : SameHandles s t) {node file : Ptr} :
    t.Refers node file ↔ s.Refers node file := by
  unfold Refers
  constructor
  · rintro ⟨n, hn, hrest⟩
    exact ⟨n, (h node (.node n) (by simp) (by simp)).1 hn, hrest⟩
  · rintro ⟨n, hn, hrest⟩
    exact ⟨n, (h node (.node n) (by simp) (by simp)).2 hn, hrest⟩

theorem Rewrites.sameHandles {s t : Fs} {file : Ptr} {e e' : TmpfsEntry}
    {data bytes : List UInt8} (h : Rewrites s t file e e' data)
    (he : s.obj file = some (.entry e)) (hcon : Content s e bytes) : SameHandles s t := by
  intro q o hentry hdata
  rw [h.obj]
  simp only [Function.update_apply]
  split_ifs with h1 h2 h3
  · subst h1
    simp [he, (hentry _).symm]
  · subst h2
    have hs : s.obj e'.dataPtr ≠ some o := by
      rcases h.block with hb | hb
      · rcases hcon with ⟨hz, -⟩ | ⟨d, hd, -⟩
        · exact absurd (hb.trans hz) h.ne_zero
        · rw [hb, hd]
          simpa using (hdata d).symm
      · simp [hb]
    simp [hs, (hdata _).symm]
  · subst h3
    rcases hcon with ⟨hz, -⟩ | ⟨d, hd, -⟩
    · simp [hz]
    · simp [hd, (hdata d).symm]
  · rfl

theorem sameHandles_put {s : Fs} {file : Ptr} {e e' : TmpfsEntry}
    (he : s.obj file = some (.entry e)) : SameHandles s (s.put file (.entry e')) := by
  intro q o hentry _
  rw [obj_put (by simp [he]), Function.update_apply]
  split_ifs with hq
  · subst hq
    simp [he, (hentry _).symm]
  · rfl

/-! ## Descriptors -/

theorem kfdGet_nat {s : Fs} {proc : Nat} {fd : Int} (h0 : 0 ≤ fd)
    (h : fd.toNat < KFD_MAX_COUNT) : s.kfdGet proc fd = s.fds proc fd.toNat := by
  unfold kfdGet
  rw [if_neg (by omega)]

/-- Access to a descriptor in use of a live node. -/
theorem kfdAccess_spec {s : Fs} {proc : Nat} {fd : Int} {d : FileDesc} {file : Ptr}
    {e : TmpfsEntry} (access : Nat) (permitted : VfsStat → Bool)
    (hd : s.obj (s.kfdGet proc fd) = some (.desc d)) (hnode : s.Refers d.node file)
    (he : s.obj file = some (.entry e)) :
    s.kfdAccess proc fd access permitted =
      some (if kfdCheckAccess d access && permitted e.stat then some d else none) := by
  have hne : d.node ≠ 0 := by
    obtain ⟨n, hn, -⟩ := hnode
    exact ne_zero_of_obj hn
  simp only [kfdAccess, Option.bind_eq_bind, Option.pure_def, if_neg (ne_zero_of_obj hd),
    descAt_of_obj hd, Option.bind_some, if_neg hne, kvfsGetStat_refers hnode he]
  cases kfdCheckAccess d access <;> simp

theorem setOffset_spec {s : Fs} {desc : Ptr} {d : FileDesc} (hd : s.obj desc = some (.desc d))
    (offset : Nat) :
    s.setOffset desc offset = some (s.put desc (.desc { d with offset := offset })) := by
  simp [setOffset, descAt_of_obj hd]

/-- A descriptor advanced after the file has changed. -/
theorem Stores.advance {s t : Fs} {file : Ptr} {a : FileArray} {bytes : List UInt8}
    {proc fd n : Nat} {d : FileDesc} (h : Stores s file a) (hopen : s.OpenOn file proc fd)
    (hd : s.obj (s.fds proc fd) = some (.desc d)) (hframe : Frame s t)
    (hsame : SameHandles s t) (hholds : t.FileHolds file bytes)
    (hlen : a.bytes.length ≤ bytes.length) (hoff : d.offset + n ≤ bytes.length) :
    Stores (t.put (s.fds proc fd) (.desc { d with offset := d.offset + n })) file
      ⟨bytes, a.advance proc fd n⟩ := by
  have hdt : t.obj (s.fds proc fd) = some (.desc d) :=
    (hsame _ _ (by simp) (by simp)).2 hd
  have hobj := obj_put (s := t) (p := s.fds proc fd) (by simp [hdt])
    (.desc { d with offset := d.offset + n })
  -- a descriptor open afterwards was open before, with the same record but for the offset
  have hback : ∀ p i d', t.obj (s.fds p i) = some (.desc d') → s.fds p i ≠ s.fds proc fd →
      s.obj (s.fds p i) = some (.desc d') := fun p i d' h' _ =>
    (hsame _ _ (by simp) (by simp)).1 h'
  have hrefers : ∀ node, (t.put (s.fds proc fd) (.desc { d with offset := d.offset + n })).Refers
      node file ↔ s.Refers node file := by
    intro node
    rw [← hsame.refers]
    unfold Refers
    rw [hobj]
    by_cases hq : node = s.fds proc fd
    · subst hq
      simp [hdt]
    · simp [hq]
  have hopened : ∀ p i, (t.put (s.fds proc fd) (.desc { d with offset := d.offset + n })).OpenOn
      file p i → s.OpenOn file p i := by
    rintro p i ⟨hi, d', hd', hn⟩
    rw [hobj, (show (t.put _ _).fds = s.fds from hframe.fds)] at hd'
    rw [hrefers] at hn
    by_cases hq : s.fds p i = s.fds proc fd
    · rw [hq, Function.update_self] at hd'
      obtain rfl : { d with offset := d.offset + n } = d' := by simpa using hd'
      exact ⟨hi, d, by rw [hq]; exact hd, hn⟩
    · rw [Function.update_of_ne hq] at hd'
      exact ⟨hi, d', hback p i d' hd' hq, hn⟩
  refine ⟨?_, ?_, ?_⟩
  · obtain ⟨e, he, hh⟩ := hholds
    have hfile : file ≠ s.fds proc fd := by
      rintro rfl
      rw [hdt] at he
      cases he
    refine ⟨e, by rw [hobj, Function.update_of_ne hfile, he], hh.congr ?_⟩
    intro data hdata
    rw [hobj, Function.update_of_ne, hdata]
    rintro hq
    rw [hq, hdt] at hdata
    cases hdata
  · intro p i d' hop hd'
    have hop' := hopened p i hop
    rw [hobj, (show (t.put _ _).fds = s.fds from hframe.fds)] at hd'
    by_cases hq : s.fds p i = s.fds proc fd
    · obtain ⟨rfl, rfl⟩ := h.apart p i proc fd hop' hopen hq
      rw [Function.update_self] at hd'
      obtain rfl : { d with offset := d.offset + n } = d' := by simpa using hd'
      obtain ⟨hhandle, -⟩ := h.handle p i d hop' hd
      exact ⟨by simp [FileArray.advance, hhandle, handleOf, kfdCheckAccess], hoff⟩
    · rw [Function.update_of_ne hq] at hd'
      obtain ⟨hhandle, hle⟩ := h.handle p i d' hop' (hback p i d' hd' hq)
      have hne : ¬(p = proc ∧ i = fd) := by
        rintro ⟨rfl, rfl⟩
        exact hq rfl
      exact ⟨by simp [FileArray.advance, hne, hhandle], hle.trans hlen⟩
  · intro p i p' i' hop hop' heq
    rw [(show (t.put _ _).fds = s.fds from hframe.fds)] at heq
    exact h.apart p i p' i' (hopened p i hop) (hopened p' i' hop') heq

/-! ## Calls -/

variable {s : Fs} {file : Ptr} {a : FileArray} {proc : Nat} {fd : Int}

/-- A write through a descriptor is a write of the abstract file. -/
theorem Stores.kfdWrite {buffer : List UInt8} (h : Stores s file a) (h0 : 0 ≤ fd)
    (hopen : s.OpenOn file proc fd.toNat)
    (hfit : s.offsetOf proc fd + buffer.length < 2 ^ 32)
    (halloc : s.capacityOf file < s.offsetOf proc fd + buffer.length →
      s.Allocates (s.offsetOf proc fd + buffer.length)) :
    ∃ t, s.kfdWrite proc fd buffer = some ((a.write proc fd.toNat buffer).1, t) ∧
      Stores t file (a.write proc fd.toNat buffer).2 := by
  have hget : s.kfdGet proc fd = s.fds proc fd.toNat := kfdGet_nat h0 hopen.1
  obtain ⟨d, hd, hnode⟩ := hopen.2
  obtain ⟨e, he, hh⟩ := h.holds
  obtain ⟨hhandle, hoff⟩ := h.handle proc fd.toNat d hopen hd
  simp only [offsetOf, capacityOf, hget, descAt_of_obj hd, entryAt_of_obj he, Option.map_some,
    Option.getD_some] at hfit halloc
  by_cases hlen : buffer.length = 0
  · obtain rfl := List.eq_nil_of_length_eq_zero hlen
    exact ⟨s, by simp [Fs.kfdWrite], by simpa using h⟩
  have hacc : s.kfdAccess proc fd KFD_ACCESS_WRITE (kvfsStatCanWrite · Cred.root) =
      some (if kfdCheckAccess d KFD_ACCESS_WRITE then some d else none) := by
    rw [kfdAccess_spec KFD_ACCESS_WRITE _ (by rw [hget]; exact hd) hnode he]
    simp
  simp only [Fs.kfdWrite, if_neg hlen, hacc, Option.bind_eq_bind, Option.pure_def,
    Option.bind_some, FileArray.write, hhandle, handleOf]
  by_cases hw : kfdCheckAccess d KFD_ACCESS_WRITE = true
  · obtain ⟨t, e', data, hwrite, hrew, hlinks, hholds⟩ :=
      ktmpfsWrite_spec hnode he hh hoff hlen hfit halloc
    have hsame := hrew.sameHandles he hh.content
    have hne : d.node ≠ 0 := by
      obtain ⟨n, hn, -⟩ := hnode
      exact ne_zero_of_obj hn
    have hkvfs : s.kvfsWrite d.node d.offset buffer =
        some (buffer.length, d.offset + buffer.length, t) := by
      simp [Fs.kvfsWrite, hne, hlen, kvfsGetStat_refers hnode he, hwrite]
    have hdt : t.obj (s.fds proc fd.toNat) = some (.desc d) :=
      (hsame _ _ (by simp) (by simp)).2 hd
    have hgett : t.kfdGet proc fd = s.fds proc fd.toNat := by
      rw [← hget, kfdGet, kfdGet, hrew.frame.fds]
    have hnew : t.FileHolds file (splice a.bytes d.offset buffer) :=
      ⟨e', by rw [hrew.obj, Function.update_self], hholds⟩
    have hsize := length_splice buffer hoff
    simp only [hw, if_true]
    refine ⟨_, ?_, h.advance (n := buffer.length) hopen hd hrew.frame hsame hnew (by omega)
      (by omega)⟩
    simp [hkvfs, hgett, setOffset_spec hdt]
  · exact ⟨s, by simp [hw], by simpa [hw] using h⟩

/-- A read through a descriptor is a read of the abstract file. -/
theorem Stores.kfdRead {len : Nat} (h : Stores s file a) (h0 : 0 ≤ fd)
    (hopen : s.OpenOn file proc fd.toNat)
    (hfit : s.offsetOf proc fd + len < 2 ^ 32) :
    ∃ t, s.kfdRead proc fd len = some ((a.read proc fd.toNat len).1, t) ∧
      Stores t file (a.read proc fd.toNat len).2 := by
  have hget : s.kfdGet proc fd = s.fds proc fd.toNat := kfdGet_nat h0 hopen.1
  obtain ⟨d, hd, hnode⟩ := hopen.2
  obtain ⟨e, he, hh⟩ := h.holds
  obtain ⟨hhandle, hoff⟩ := h.handle proc fd.toNat d hopen hd
  simp only [offsetOf, hget, descAt_of_obj hd, Option.map_some, Option.getD_some] at hfit
  by_cases hlen : len = 0
  · subst hlen
    exact ⟨s, by simp [Fs.kfdRead], by simpa using h⟩
  have hacc : s.kfdAccess proc fd KFD_ACCESS_READ (kvfsStatCanRead · Cred.root) =
      some (if kfdCheckAccess d KFD_ACCESS_READ then some d else none) := by
    rw [kfdAccess_spec KFD_ACCESS_READ _ (by rw [hget]; exact hd) hnode he]
    simp
  simp only [Fs.kfdRead, if_neg hlen, hacc, Option.bind_eq_bind, Option.pure_def,
    Option.bind_some, FileArray.read, hhandle, handleOf]
  by_cases hr : kfdCheckAccess d KFD_ACCESS_READ = true
  · have hread := ktmpfsRead_spec hnode he hh hoff hlen
    have hne : d.node ≠ 0 := by
      obtain ⟨n, hn, -⟩ := hnode
      exact ne_zero_of_obj hn
    have hu : u32 (d.offset + min len (a.bytes.length - d.offset)) =
        d.offset + min len (a.bytes.length - d.offset) := u32_eq (by omega)
    have hkvfs : s.kvfsRead d.node d.offset len = some ((a.bytes.drop d.offset).take len,
        d.offset + min len (a.bytes.length - d.offset),
        s.put file (.entry { e with stat := kvfsStatUpdateAtime e.stat })) := by
      simp [Fs.kvfsRead, hne, hlen, kvfsGetStat_refers hnode he, hread, hu]
    have hsame : SameHandles s (s.put file (.entry { e with
        stat := kvfsStatUpdateAtime e.stat })) := sameHandles_put he
    have hdt := (hsame _ _ (by simp) (by simp)).2 hd
    have hgett : (s.put file (.entry { e with stat := kvfsStatUpdateAtime e.stat })).kfdGet
        proc fd = s.fds proc fd.toNat := hget
    have hnew : (s.put file (.entry { e with
        stat := kvfsStatUpdateAtime e.stat })).FileHolds file a.bytes := by
      refine ⟨_, by rw [obj_put (by simp [he]), Function.update_self], ?_⟩
      have hcongr := hh.congr (t := s.put file (.entry { e with
        stat := kvfsStatUpdateAtime e.stat })) ?_
      · exact ⟨hcongr.isReg, hcongr.size, hcongr.statSize, hcongr.content⟩
      · intro data hdata
        rw [obj_put (by simp [he]), Function.update_of_ne, hdata]
        intro hq
        rw [hq, he] at hdata
        cases hdata
    simp only [hr, if_true]
    refine ⟨_, ?_, h.advance (n := min len (a.bytes.length - d.offset)) hopen hd
      (frame_put s file _) hsame hnew le_rfl (by omega)⟩
    simp [hkvfs, hgett, setOffset_spec hdt]
  · exact ⟨s, by simp [hr], by simpa [hr] using h⟩

/-- The surroundings of a call are no part of what the state stores. -/
theorem Stores.withInput (h : Stores s file a) (i : Input) : Stores (s.withInput i) file a := by
  obtain ⟨e, he, hh⟩ := h.holds
  exact ⟨⟨e, he, hh.congr fun _ hdata => hdata⟩, h.handle, h.apart⟩

/-- One call returns what the abstract file returns. -/
theorem stepResult_refines {i : Input} (h : Stores s file a) (hok : FileCall file s i) :
    ∃ o t b, s.stepResult i = some (o, t) ∧ arrayStep a i = some (o, b) ∧ Stores t file b := by
  have hi := h.withInput i
  unfold FileCall at hok
  unfold stepResult arrayStep
  cases hcall : i.call with
  | kfdRead fd len =>
    rw [hcall] at hok
    obtain ⟨h0, hopen, hfit⟩ := hok
    obtain ⟨t, hread, hstores⟩ := hi.kfdRead h0 hopen hfit
    exact ⟨.bytes (a.read i.proc fd.toNat len).1, t, _, by simp [Fs.call, hread], rfl, hstores⟩
  | kfdWrite fd buffer =>
    rw [hcall] at hok
    obtain ⟨h0, hopen, hfit, halloc⟩ := hok
    obtain ⟨t, hwrite, hstores⟩ := hi.kfdWrite h0 hopen hfit halloc
    exact ⟨.count (a.write i.proc fd.toNat buffer).1, t, _, by simp [Fs.call, hwrite], rfl, hstores⟩
  | _ =>
    rw [hcall] at hok
    exact hok.elim

/-- **A regular file refines an array of bytes**: over any interleaving of reads and writes
through the descriptors open on it, each call returns what the array returns, and the state goes
on storing the array, with each descriptor at its own offset. -/
theorem file_refines_array {is : List Input} (h : Stores s file a)
    (hok : Admissible step (FileCall file) s is) :
    ∃ os t b, outputs stepResult s is = some (os, t) ∧ outputs arrayStep a is = some (os, b) ∧
      Stores t file b := by
  have hsim : ∀ s a i, Stores s file a → FileCall file s i → ∃ o t b,
      s.stepResult i = some (o, t) ∧ arrayStep a i = some (o, b) ∧ Stores t file b :=
    fun _ _ _ h hi => stepResult_refines h hi
  exact outputs_simulates hsim h hok

/-! ## Two processes on one file -/

/-- An empty file at 1, open for reading and writing as the descriptor 0 of two processes. -/
def sharedFile : Fs where
  heap :=
    [⟨4084, false, .desc { node := 3, offset := 0, flags := KVFS_O_RDWR, refcount := 1 }⟩,
      ⟨4084, false, .desc { node := 2, offset := 0, flags := KVFS_O_RDWR, refcount := 1 }⟩,
      ⟨4084, false, .node { refcount := 1, ops := .ktmpfsOperations, priv := 1 }⟩,
      ⟨4084, false, .node { refcount := 1, ops := .ktmpfsOperations, priv := 1 }⟩,
      ⟨4084, false, .entry { TmpfsEntry.zero with
        name := [0x61], stat := kvfsStatCreate (0o666 ||| KVFS_STAT_IFREG) }⟩]
  kvfsRootMountDir := 0
  kvfsCwd := 0
  fds := fun proc fd => if fd = 0 then (if proc = 0 then 4 else if proc = 1 then 5 else 0) else 0
  pages := fun _ => false
  junk := fun _ => 0

/-- The array that the file stores. -/
def sharedArray : FileArray := ⟨[], fun _ _ => ⟨0, true, true⟩⟩

theorem stores_sharedFile : Stores sharedFile 1 sharedArray := by
  have hfds : ∀ p i, sharedFile.OpenOn 1 p i → i = 0 ∧ (p = 0 ∨ p = 1) := by
    rintro p i ⟨-, d, hd, -⟩
    by_contra hne
    have hnull : sharedFile.fds p i = 0 := by
      simp only [sharedFile]
      split_ifs <;> simp_all
    rw [hnull, obj_zero] at hd
    cases hd
  refine ⟨⟨_, rfl, by decide, rfl, rfl, Or.inl ⟨rfl, rfl, rfl⟩⟩, ?_, ?_⟩
  · intro p i d hop hd
    obtain ⟨rfl, rfl | rfl⟩ := hfds p i hop
    · cases hd
      exact ⟨by decide, le_rfl⟩
    · cases hd
      exact ⟨by decide, le_rfl⟩
  · intro p i p' i' hop hop' heq
    obtain ⟨rfl, rfl | rfl⟩ := hfds p i hop <;> obtain ⟨rfl, rfl | rfl⟩ := hfds p' i' hop'
    · exact ⟨rfl, rfl⟩
    · exact absurd heq (by decide)
    · exact absurd heq (by decide)
    · exact ⟨rfl, rfl⟩

/-- The first process writes, the second one reads what it wrote and writes on. -/
def sharedCalls : List Input :=
  [⟨0, .kfdWrite 0 [1, 2, 3], fun _ => true, fun i => UInt8.ofNat (100 + i)⟩,
    ⟨1, .kfdRead 0 2, fun _ => true, fun _ => 0⟩,
    ⟨1, .kfdWrite 0 [4, 5], fun _ => true, fun i => UInt8.ofNat (200 + i)⟩,
    ⟨0, .kfdRead 0 9, fun _ => true, fun _ => 0⟩]

theorem file_refines_array_shared :
    Admissible step (FileCall 1) sharedFile sharedCalls ∧
      (outputs stepResult sharedFile sharedCalls).map Prod.fst =
        some [.count 3, .bytes [1, 2], .count 2, .bytes [5]] := by
  have hok : Admissible step (FileCall 1) sharedFile sharedCalls := by decide +kernel
  refine ⟨hok, ?_⟩
  obtain ⟨os, t, b, hrun, harray, -⟩ := file_refines_array stores_sharedFile hok
  have hos : (outputs arrayStep sharedArray sharedCalls).map Prod.fst =
      some [.count 3, .bytes [1, 2], .count 2, .bytes [5]] := rfl
  rw [harray] at hos
  rw [hrun]
  exact hos

end Fs

end DelOs
