import DelOs.Fs.Mount
import DelOs.Sys.Syscall

/-!
# The gate for system calls

What keeps ring 3 inside its own memory when it makes a system call, and what does not.

* `Stored.Confined` — a call stores below `KERNEL_VIRTUAL_BASE`, and does nothing for a request that
  names a buffer elsewhere.
* `Fs.readable` — how many bytes a descriptor has to give.
* `kfdReadDev_length` — **a read stores what is readable**, wherever the buffer is.
* `ksysStat_cases` — **a stat stores as soon as the path opens**, wherever the buffer is.
* `syscall_gate_iff` — when the dispatch stays within the array, and when the two calls are confined.
-/

namespace DelOs

/-! ## Confinement -/

/-- The call stores bytes below `KERNEL_VIRTUAL_BASE` only, and a request for a buffer of `size`
bytes that is not below it fails with `error` and stores nothing. -/
structure Stored.Confined (o : Stored) (size : Nat) (error : Int) : Prop where
  below : ∀ i, i < o.bytes.length → (o.dest + i) % 2 ^ 32 < KERNEL_VIRTUAL_BASE
  refused : KERNEL_VIRTUAL_BASE < o.dest + size → o.result = error ∧ o.bytes = []

/-- How many bytes an entry has to give from an offset on. -/
def TmpfsEntry.readable (e : TmpfsEntry) (offset len : Nat) : Nat :=
  if kvfsStatIsChr e.stat.mode then
    if e.chrRead = some .kfsKeyboardRead then len else 0
  else if e.isReg ∧ offset ≤ e.size then min len (e.size - offset) else 0

namespace Fs

/-- The entry of a node. -/
def entryOf (s : Fs) (node : Ptr) : Option TmpfsEntry :=
  (s.nodeAt node).bind fun n => if n.priv = 0 then none else s.entryAt n.priv

/-- How many bytes a read has to store: nothing without a buffer or without access to the file. -/
def readable (s : Fs) (proc : Nat) (fd : Int) (buffer : Ptr) (len : Nat) : Nat :=
  if buffer = 0 then 0
  else
    match s.kfdAccess proc fd KFD_ACCESS_READ (kvfsStatCanRead · Cred.root) with
    | some (some d) => ((s.entryOf d.node).map fun e => e.readable d.offset len).getD 0
    | _ => 0

end Fs

/-! ## Reading -/

section Read

variable {s t : Fs} {keys : Nat → UInt8} {node : Ptr} {offset offset' len : Nat}
  {bytes : List UInt8}

theorem copyOut_length {dataPtr : Ptr} {n : Nat} (h : s.copyOut dataPtr offset n = some bytes) :
    bytes.length = n := by
  rw [Fs.copyOut] at h
  split_ifs at h with hn
  · obtain rfl := Option.some.inj h
    exact hn.symm
  · simp only [Option.bind_eq_bind, Option.bind_eq_some_iff] at h
    obtain ⟨data, -, h⟩ := h
    split_ifs at h with hlen
    obtain rfl := Option.some.inj h
    simp only [List.length_take, List.length_drop]
    omega

/-- What a read of a node gives. -/
theorem ktmpfsReadDev_length (hnode : node ≠ 0) (hlen : len ≠ 0)
    (h : s.ktmpfsReadDev keys node offset len = some (bytes, offset', t)) :
    bytes.length = ((s.entryOf node).map fun e => e.readable offset len).getD 0 := by
  simp only [Fs.ktmpfsReadDev, hnode, hlen, or_self, if_false, Option.bind_eq_bind,
    Option.pure_def, Option.bind_eq_some_iff] at h
  obtain ⟨n, hn, h⟩ := h
  by_cases hpriv : n.priv = 0
  · rw [if_pos hpriv] at h
    simp only [Option.some.injEq, Prod.mk.injEq] at h
    obtain ⟨rfl, -⟩ := h
    simp [Fs.entryOf, hn, hpriv]
  rw [if_neg hpriv] at h
  simp only [Option.bind_eq_some_iff] at h
  obtain ⟨e, he, h⟩ := h
  have hentry : s.entryOf node = some e := by simp [Fs.entryOf, hn, hpriv, he]
  rw [hentry, Option.map_some, Option.getD_some, TmpfsEntry.readable]
  by_cases hchr : kvfsStatIsChr e.stat.mode = true
  · rw [if_pos hchr] at h ⊢
    cases hread : e.chrRead with
    | none =>
      simp only [hread, Option.some.injEq, Prod.mk.injEq] at h
      obtain ⟨rfl, -⟩ := h
      simp
    | some device =>
      cases device with
      | kfsVgaWrite => simp [hread] at h
      | kfsKeyboardRead =>
        simp only [hread, Option.some.injEq, Prod.mk.injEq] at h
        obtain ⟨rfl, -⟩ := h
        simp [Fs.kfsKeyboardRead]
  · rw [if_neg hchr] at h ⊢
    simp only [Fs.ktmpfsRead, hnode, hlen, or_self, if_false, Option.bind_eq_bind,
      Option.pure_def, hn, hpriv, he, hchr, Option.bind_some, Bool.false_eq_true] at h
    by_cases hreg : e.isReg = false
    · rw [if_pos hreg] at h
      simp only [Option.some.injEq, Prod.mk.injEq] at h
      obtain ⟨rfl, -⟩ := h
      simp [hreg]
    rw [if_neg hreg] at h
    by_cases hoff : offset > e.size
    · rw [if_pos hoff] at h
      simp only [Option.some.injEq, Prod.mk.injEq] at h
      obtain ⟨rfl, -⟩ := h
      rw [if_neg (by omega)]
      rfl
    rw [if_neg hoff] at h
    simp only [Option.bind_eq_some_iff, Option.some.injEq, Prod.mk.injEq] at h
    obtain ⟨content, hcopy, rfl, -⟩ := h
    have hin : e.isReg = true ∧ offset ≤ e.size := ⟨by simpa using hreg, by omega⟩
    rw [if_pos hin, copyOut_length hcopy]
    split_ifs <;> omega

theorem TmpfsEntry.readable_zero (e : TmpfsEntry) (offset : Nat) : e.readable offset 0 = 0 := by
  rw [TmpfsEntry.readable]
  split_ifs <;> simp

/-- Access to a file means that its node has metadata that allow it. -/
theorem kfdAccess_some {proc : Nat} {fd : Int} {access : Nat} {permitted : VfsStat → Bool}
    {d : FileDesc} (h : s.kfdAccess proc fd access permitted = some (some d)) :
    d.node ≠ 0 ∧ ∃ st, s.kvfsGetStat d.node = some (some st) ∧ permitted st = true := by
  simp only [Fs.kfdAccess, Option.bind_eq_bind, Option.pure_def] at h
  split_ifs at h with hdesc
  · cases Option.some.inj h
  · simp only [Option.bind_eq_some_iff] at h
    obtain ⟨d', -, h⟩ := h
    split_ifs at h with hnode hallowed
    · cases Option.some.inj h
    · cases Option.some.inj h
    · simp only [Option.bind_eq_some_iff] at h
      obtain ⟨found, hstat, h⟩ := h
      cases found with
      | none => cases Option.some.inj h
      | some st =>
        have h := Option.some.inj h
        split_ifs at h with hperm
        obtain rfl := Option.some.inj h
        exact ⟨hnode, st, hstat, hperm⟩

/-- **A read stores what is readable**, wherever the buffer is. -/
theorem kfdReadDev_length {proc : Nat} {fd : Int} {buffer : Ptr}
    (h : s.kfdReadDev proc keys fd buffer len = some (bytes, t)) :
    bytes.length = s.readable proc fd buffer len := by
  rw [Fs.readable]
  by_cases hbuf : buffer = 0
  · simp only [Fs.kfdReadDev, hbuf, true_or, if_true, Option.pure_def, Option.some.injEq,
      Prod.mk.injEq] at h
    obtain ⟨rfl, -⟩ := h
    rw [if_pos hbuf]
    rfl
  rw [if_neg hbuf]
  by_cases hlen : len = 0
  · simp only [Fs.kfdReadDev, hlen, or_true, if_true, Option.pure_def, Option.some.injEq,
      Prod.mk.injEq] at h
    obtain ⟨rfl, -⟩ := h
    have hzero : ∀ node offset,
        ((s.entryOf node).map fun e => e.readable offset 0).getD 0 = 0 := by
      intro node offset
      cases s.entryOf node with
      | none => rfl
      | some e => simp [e.readable_zero]
    rw [hlen]
    split
    · rw [hzero]
      rfl
    · rfl
  simp only [Fs.kfdReadDev, hbuf, hlen, or_self, if_false, Option.bind_eq_bind,
    Option.pure_def, Option.bind_eq_some_iff] at h
  obtain ⟨access, haccess, h⟩ := h
  rw [haccess]
  cases access with
  | none =>
    simp only [Option.some.injEq, Prod.mk.injEq] at h
    obtain ⟨rfl, -⟩ := h
    rfl
  | some d =>
    obtain ⟨hnode, st, hstat, hread⟩ := kfdAccess_some haccess
    simp only [Option.bind_eq_some_iff, Option.some.injEq, Prod.mk.injEq] at h
    obtain ⟨⟨content, offset, u⟩, hkvfs, _, -, rfl, -⟩ := h
    simp only [Fs.kvfsReadDev, hnode, hlen, or_self, if_false, hstat, hread,
      Option.bind_eq_bind, Option.bind_some, Bool.true_eq_false] at hkvfs
    exact ktmpfsReadDev_length hnode hlen hkvfs

end Read

/-! ## Metadata -/

section Metadata

variable {c : Caller} {s t : Fs} {a1 a2 : UInt32} {o : Stored}

/-- A descriptor that has been created is there, with the node it was created for. -/
theorem kfdCreateForProcess_get {proc : Nat} {node : Ptr} {flags : Nat} {fd : Int}
    (h : s.kfdCreateForProcess proc node flags = (fd, t)) (hfd : fd ≠ KFD_ERROR) :
    node ≠ 0 ∧ t.kfdGet proc fd ≠ 0 ∧ ∃ d, t.descAt (t.kfdGet proc fd) = some d ∧
      d.node = node := by
  rw [Fs.kfdCreateForProcess] at h
  split_ifs at h with hnode
  · exact absurd (Prod.mk.inj h).1.symm hfd
  refine ⟨hnode, ?_⟩
  cases hfind : (List.range KFD_MAX_COUNT).find? fun fd => decide (s.fds proc fd = 0) with
  | none =>
    rw [hfind] at h
    exact absurd (Prod.mk.inj h).1.symm hfd
  | some i =>
    have hi := List.mem_range.1 (List.mem_of_find?_eq_some hfind)
    rcases hnew : s.new sizeofFileDesc (.desc ⟨node, 0, flags, 1⟩) with ⟨desc, u⟩
    simp only [hfind, hnew] at h
    split_ifs at h with hdesc
    · exact absurd (Prod.mk.inj h).1.symm hfd
    obtain ⟨rfl, rfl⟩ := Prod.mk.inj h
    have halloc := Fs.new_alloc (by decide) (by decide) hnew
    obtain ⟨-, -, hobj⟩ := halloc.made.resolve_left fun h => hdesc h.1
    have hget : (u.setFd proc i desc).kfdGet proc i = desc := by
      have hrange : ¬((i : Int) < 0 ∨ (i : Int) ≥ KFD_MAX_COUNT) := by omega
      rw [Fs.kfdGet, if_neg hrange]
      simp [Fs.setFd]
    rw [hget]
    refine ⟨hdesc, ⟨node, 0, flags, 1⟩, Fs.descAt_of_obj ?_, rfl⟩
    show u.obj desc = _
    rw [hobj, Function.update_self]

/-- The path opens for reading. -/
def Opens (c : Caller) (s : Fs) (path : CString) : Prop :=
  ∃ fd t, s.kfdOpen c.proc path KVFS_O_RDONLY 0 = some (fd, t) ∧ fd ≠ KFD_ERROR

/-- Metadata of an open descriptor with a node. -/
theorem kfdStat_some {proc : Nat} {fd : Int} {r : Option VfsStat} {d : FileDesc}
    (hget : s.kfdGet proc fd ≠ 0) (hd : s.descAt (s.kfdGet proc fd) = some d)
    (hnode : d.node ≠ 0) (h : s.kfdStat proc fd = some r) : ∃ st, r = some st := by
  simp only [Fs.kfdStat, if_neg hget, hd, Option.bind_eq_bind, Option.bind_some, if_neg hnode,
    Fs.kvfsStatFromNode, Option.bind_eq_some_iff] at h
  obtain ⟨n, -, h⟩ := h
  split_ifs at h with hops
  simp only [Fs.ktmpfsStat, if_neg hnode, Option.bind_eq_bind, Option.bind_eq_some_iff,
    Option.pure_def, Option.some.injEq] at h
  obtain ⟨_, -, e, -, rfl⟩ := h
  exact ⟨e.stat, rfl⟩

@[simp] theorem length_statBytes (st : VfsStat) : (statBytes st).length = sizeofVfsStat := rfl

/-- **A stat stores as soon as the path opens**, wherever the buffer is, and otherwise fails and
stores nothing. -/
theorem ksysStat_cases (h : ksysStat c s a1 a2 = some o) : o.dest = a2.toNat ∧
    ((a1.toNat ≠ 0 ∧ a2.toNat ≠ 0 ∧ Opens c s (c.string a1.toNat) ∧
        o.bytes.length = sizeofVfsStat ∧ o.result = 0) ∨
      (¬(a1.toNat ≠ 0 ∧ a2.toNat ≠ 0 ∧ Opens c s (c.string a1.toNat)) ∧
        o.bytes = [] ∧ o.result = -1)) := by
  rw [ksysStat] at h
  by_cases ha1 : a1.toNat = 0
  · rw [if_pos ha1] at h
    obtain rfl := Option.some.inj h
    exact ⟨rfl, Or.inr ⟨fun h => h.1 ha1, rfl, rfl⟩⟩
  rw [if_neg ha1] at h
  simp only [Option.bind_eq_bind, Option.bind_eq_some_iff, Option.pure_def,
    Option.some.injEq] at h
  obtain ⟨⟨result, st, t⟩, hstat, rfl⟩ := h
  refine ⟨rfl, ?_⟩
  rw [Fs.kstat] at hstat
  by_cases ha2 : a2.toNat = 0
  · rw [if_pos ha2] at hstat
    simp only [Option.pure_def, Option.some.injEq, Prod.mk.injEq] at hstat
    obtain ⟨rfl, rfl, -⟩ := hstat
    exact Or.inr ⟨fun h => h.2.1 ha2, rfl, rfl⟩
  rw [if_neg ha2] at hstat
  simp only [Option.bind_eq_bind, Option.bind_eq_some_iff, Option.pure_def] at hstat
  obtain ⟨⟨fd, u⟩, hopen, hstat⟩ := hstat
  by_cases hfd : fd = -1
  · rw [if_pos hfd] at hstat
    simp only [Option.some.injEq, Prod.mk.injEq] at hstat
    obtain ⟨rfl, rfl, -⟩ := hstat
    refine Or.inr ⟨?_, rfl, rfl⟩
    rintro ⟨-, -, fd', t', hopen', hfd'⟩
    rw [hopen] at hopen'
    obtain ⟨rfl, -⟩ := Prod.mk.inj (Option.some.inj hopen')
    exact hfd' hfd
  rw [if_neg hfd] at hstat
  simp only [Option.bind_eq_some_iff] at hstat
  obtain ⟨r, hr, hstat⟩ := hstat
  have hopens : Opens c s (c.string a1.toNat) := ⟨fd, u, hopen, hfd⟩
  -- the descriptor that was opened has metadata
  have hdesc : ∃ st, r = some st := by
    simp only [Fs.kfdOpen, Option.bind_eq_bind, Option.bind_eq_some_iff] at hopen
    obtain ⟨⟨node, v⟩, -, hopen⟩ := hopen
    split_ifs at hopen with hnode
    · simp only [Option.pure_def, Option.some.injEq, Prod.mk.injEq] at hopen
      exact absurd hopen.1.symm hfd
    · obtain ⟨hne, hget, d, hd, rfl⟩ := kfdCreateForProcess_get (Option.some.inj hopen) hfd
      exact kfdStat_some hget hd hne hr
  obtain ⟨st', rfl⟩ := hdesc
  simp only [Option.some.injEq, Prod.mk.injEq] at hstat
  obtain ⟨rfl, rfl, -⟩ := hstat
  exact Or.inl ⟨ha1, ha2, hopens, rfl, rfl⟩

end Metadata

/-! ## The gate -/

/-- The dispatch stays within the array for the eleven numbers. -/
theorem isrSyscall_function_iff (eax : UInt32) :
    (∃ f, isrSyscall eax = .function f) ↔ eax.toNat < 11 := by
  have hlt := eax.toNat_lt
  by_cases hneg : eax.toNat < 2 ^ 31
  · have hid : int32 eax = eax.toNat := if_pos hneg
    have hnonneg : ¬(eax.toNat : Int) < 0 := by omega
    simp only [isrSyscall, hid, if_neg hnonneg, Int.toNat_natCast]
    cases hget : syscallsArray[eax.toNat]? with
    | none =>
      have := List.getElem?_eq_none_iff.1 hget
      simp only [syscallsArray, List.length_cons, List.length_nil] at this
      simp only [reduceCtorEq, exists_false, false_iff]
      omega
    | some f =>
      have := (List.getElem?_eq_some_iff.1 hget).1
      simp only [syscallsArray, List.length_cons, List.length_nil] at this
      simp only [Target.function.injEq, exists_eq', true_iff]
      omega
  · have hid : int32 eax = (eax.toNat : Int) - 2 ^ 32 := if_neg hneg
    have hnegative : (eax.toNat : Int) - 2 ^ 32 < 0 := by omega
    simp only [isrSyscall, hid, if_pos hnegative, reduceCtorEq, exists_false, false_iff]
    omega

/-- A call that stores `n` bytes at the caller's pointer, or fails. -/
theorem confined_iff {o : Stored} {size : Nat} {error : Int} (hdest : o.dest < 2 ^ 32)
    (hsize : o.bytes.length ≤ size) (hfail : o.bytes = [] → o.result = error) :
    o.Confined size error ↔ o.dest + size ≤ KERNEL_VIRTUAL_BASE ∨ o.bytes = [] := by
  constructor
  · intro h
    by_contra hcon
    simp only [not_or] at hcon
    exact hcon.2 (h.refused (by omega)).2
  · rintro (hfit | hnil)
    · refine ⟨fun i hi => ?_, fun h => absurd hfit (by omega)⟩
      simp only [KERNEL_VIRTUAL_BASE] at hfit ⊢
      omega
    · exact ⟨fun i hi => by simp [hnil] at hi, fun _ => ⟨hfail hnil, hnil⟩⟩

theorem TmpfsEntry.readable_le (e : TmpfsEntry) (offset len : Nat) :
    e.readable offset len ≤ len := by
  rw [TmpfsEntry.readable]
  split_ifs <;> omega

/-- A read stores no more than it was asked for. -/
theorem Fs.readable_le (s : Fs) (proc : Nat) (fd : Int) (buffer : Ptr) (len : Nat) :
    s.readable proc fd buffer len ≤ len := by
  rw [Fs.readable]
  split_ifs
  · omega
  split
  · next d _ =>
    cases s.entryOf d.node with
    | none => exact Nat.zero_le len
    | some e => exact e.readable_le d.offset len
  · exact Nat.zero_le len

/-- **The gate.**  The dispatch calls a function of the array exactly for the numbers below eleven.
A read, or a stat, keeps to the memory of ring 3 exactly if its buffer is there, or if there is
nothing to store: no byte that can be read, or a path that does not open. -/
theorem syscall_gate_iff (c : Caller) (s : Fs) (eax a1 a2 a3 : UInt32) :
    ((∃ f, isrSyscall eax = .function f) ↔ eax.toNat < 11) ∧
    (∀ o, ksysRead c s a1 a2 a3 = some o → (o.Confined a3.toNat 0 ↔
      a2.toNat + a3.toNat ≤ KERNEL_VIRTUAL_BASE ∨
        s.readable c.proc (int32 a1) a2.toNat a3.toNat = 0)) ∧
    (∀ o, ksysStat c s a1 a2 = some o → (o.Confined sizeofVfsStat (-1) ↔
      a2.toNat + sizeofVfsStat ≤ KERNEL_VIRTUAL_BASE ∨
        ¬(a1.toNat ≠ 0 ∧ a2.toNat ≠ 0 ∧ Opens c s (c.string a1.toNat)))) := by
  refine ⟨isrSyscall_function_iff eax, ?_, ?_⟩
  · intro o h
    simp only [ksysRead, Option.bind_eq_bind, Option.bind_eq_some_iff, Option.pure_def,
      Option.some.injEq] at h
    obtain ⟨⟨bytes, t⟩, hread, rfl⟩ := h
    have hlen := kfdReadDev_length hread
    have hle := s.readable_le c.proc (int32 a1) a2.toNat a3.toNat
    rw [confined_iff a2.toNat_lt (by simp only; omega) (by rintro ⟨⟩; rfl)]
    rw [← hlen, List.length_eq_zero_iff]
  · intro o h
    obtain ⟨hdest, ⟨ha1, ha2, hopens, hbytes, hres⟩ | ⟨hnot, hbytes, hres⟩⟩ := ksysStat_cases h
    · have hne : o.bytes ≠ [] := by
        rintro hnil
        simp [hnil, sizeofVfsStat] at hbytes
      rw [confined_iff (hdest ▸ a2.toNat_lt) (by omega) (fun h => absurd h hne), hdest]
      constructor
      · rintro (hfit | hnil)
        · exact Or.inl hfit
        · exact absurd hnil hne
      · rintro (hfit | hnot)
        · exact Or.inl hfit
        · exact absurd ⟨ha1, ha2, hopens⟩ hnot
    · rw [confined_iff (hdest ▸ a2.toNat_lt) (by simp [hbytes]) (fun _ => hres)]
      exact ⟨fun _ => Or.inr hnot, fun _ => Or.inr hbytes⟩

/-- A process that has a file of one byte open for reading, as descriptor 1. -/
def oneByteFile : Fs :=
  let path := [slash, 0x66]
  ((Fs.mountedRoot.kfdOpen 0 path (KVFS_O_CREAT ||| KVFS_O_RDWR) 0o666).bind fun r =>
    (r.2.kfdWrite 0 r.1 [42]).bind fun r => (r.2.kfdOpen 0 path KVFS_O_RDONLY 0).map
      Prod.snd).getD Fs.mountedRoot

/-- The caller's strings are all the path of that file. -/
def oneByteCaller : Caller := ⟨0, fun _ => [slash, 0x66], fun _ => 0⟩

/-- A number after the last element, a read into the kernel and a stat into the kernel: the
dispatch leaves the array, and both calls store there. -/
theorem syscall_gate_open :
    isrSyscall 11 = .outside 11 ∧ isrSyscall 0xFFFFFFFF = .outside (-1) ∧
      (∃ o, ksysRead oneByteCaller oneByteFile 1 0xC0100000 1 = some o ∧ ¬o.Confined 1 0) ∧
      ∃ o, ksysStat oneByteCaller oneByteFile 0x8000000 0xC0100000 = some o ∧
        ¬o.Confined sizeofVfsStat (-1) := by
  have hread : ((ksysRead oneByteCaller oneByteFile 1 0xC0100000 1).map
      fun o => (o.dest, o.bytes)) = some (0xC0100000, [42]) := by decide +kernel
  have hstat : ((ksysStat oneByteCaller oneByteFile 0x8000000 0xC0100000).map
      fun o => (o.dest, o.result)) = some (0xC0100000, 0) := by decide +kernel
  refine ⟨by decide +kernel, by decide +kernel, ?_, ?_⟩
  · obtain ⟨o, ho, hval⟩ := Option.map_eq_some_iff.1 hread
    obtain ⟨hdest, hbytes⟩ := Prod.mk.inj hval
    refine ⟨o, ho, fun h => ?_⟩
    have := (h.refused (by rw [hdest]; decide)).2
    rw [hbytes] at this
    cases this
  · obtain ⟨o, ho, hval⟩ := Option.map_eq_some_iff.1 hstat
    obtain ⟨hdest, hresult⟩ := Prod.mk.inj hval
    refine ⟨o, ho, fun h => ?_⟩
    have := (h.refused (by rw [hdest]; decide)).1
    rw [hresult] at this
    revert this
    decide

/-- The same read with a buffer of ring 3 is confined. -/
theorem syscall_gate_user :
    ∃ o, ksysRead oneByteCaller oneByteFile 1 0x8000000 1 = some o ∧ o.Confined 1 0 := by
  have hsome : (ksysRead oneByteCaller oneByteFile 1 0x8000000 1).isSome := by decide +kernel
  obtain ⟨o, ho⟩ := Option.isSome_iff_exists.1 hsome
  exact ⟨o, ho, ((syscall_gate_iff oneByteCaller oneByteFile 10 1 0x8000000 1).2.1 o ho).2
    (Or.inl (by decide))⟩

end DelOs
