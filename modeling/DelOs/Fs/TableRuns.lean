import DelOs.Fs.DescriptorTable
import DelOs.Fs.EntriesInUse

/-!
# The descriptor tables over whole runs

`kfd_open`, `kfd_close`, `kfd_read` and `kfd_write`, by any processes.  Which accesses a descriptor
allows is decided by the flags it was opened with, so a run records these beside the state.

* `Fs.OpenFlags`, `Fs.tableStep` — the flags recorded, and one call with the record kept.
* `Fs.OnTables` — what a call may do to the tables, by its result.
* `Fs.Unshared` — no record of a descriptor stands in two slots.
* `Fs.tables_of_run` — **every call of a run does that, and no record is shared**, as long as each
  write keeps the data of its file.
* `Fs.record_shared` — two writes that get no memory, and then a record in two slots.
-/

namespace DelOs

open Transition

/-- The calls that open, close, read and write. -/
def Call.onDescriptors : Call → Bool
  | .kfdOpen .. | .kfdClose _ | .kfdRead .. | .kfdWrite .. => true
  | _ => false

theorem Call.removes_onDescriptors {c : Call} (h : c.onDescriptors = true) : c.removes = false := by
  cases c <;> first | rfl | cases h

namespace Fs

variable {s r : Fs} {t : OrderedTree Ptr} {proc : Nat}

/-! ## The flags of a descriptor -/

/-- The flags that the descriptor in each slot was opened with. -/
abbrev OpenFlags := Nat → Nat → Nat

/-- The record behind a call: a `kfd_open` that succeeds writes its flags down. -/
def OpenFlags.after (F : OpenFlags) (proc : Nat) : Call → Result → OpenFlags
  | .kfdOpen _ flags _, .code fd =>
      if fd = KFD_ERROR then F else fun p i => if p = proc ∧ i = fd.toNat then flags else F p i
  | _, _ => F

/-- One call in its surroundings, with the flags recorded. -/
def tableStep (x : Fs × OpenFlags) (i : Input) : Option (Fs × OpenFlags) :=
  (x.1.stepResult i).map fun (result, r) => (r, x.2.after i.proc i.call result)

/-- The flags let the descriptor be read. -/
def MayRead (flags : Nat) : Prop := flags &&& KVFS_O_ACCMODE ≠ KVFS_O_WRONLY

/-- The flags let the descriptor be written. -/
def MayWrite (flags : Nat) : Prop :=
  flags &&& KVFS_O_ACCMODE = KVFS_O_WRONLY ∨ flags &&& KVFS_O_ACCMODE = KVFS_O_RDWR

theorem kfdCheckAccess_read (d : FileDesc) :
    kfdCheckAccess d KFD_ACCESS_READ = true ↔ MayRead d.flags := by
  unfold kfdCheckAccess MayRead
  dsimp only
  split_ifs with hw hrw
  · simp [hw, KFD_ACCESS_WRITE, KFD_ACCESS_READ]
  · simp [hw, KFD_ACCESS_WRITE, KFD_ACCESS_READ]
  · simp [hw, KFD_ACCESS_READ]

theorem kfdCheckAccess_write (d : FileDesc) :
    kfdCheckAccess d KFD_ACCESS_WRITE = true ↔ MayWrite d.flags := by
  unfold kfdCheckAccess MayWrite
  dsimp only
  split_ifs with hw hrw
  · simp [hw, KFD_ACCESS_WRITE]
  · simp [hrw, KFD_ACCESS_WRITE, KFD_ACCESS_READ]
  · simp [hw, hrw, KFD_ACCESS_WRITE, KFD_ACCESS_READ]

/-! ## What a call does to the tables -/

/-- `n` is the smallest free slot of the table. -/
structure LeastFree (s : Fs) (proc n : Nat) : Prop where
  bound : n < KFD_MAX_COUNT
  free : s.fds proc n = 0
  least : ∀ m < n, s.fds proc m ≠ 0

/-- Every slot but one stays as it is, in every table. -/
def OnlySlot (s r : Fs) (proc n : Nat) : Prop :=
  ∀ p i, ¬(p = proc ∧ i = n) → r.fds p i = s.fds p i

/-- There is no such descriptor, or its flags do not allow the access. -/
def Barred (s : Fs) (F : OpenFlags) (May : Nat → Prop) (proc : Nat) (fd : Int) : Prop :=
  s.kfdGet proc fd = 0 ∨ ¬May (F proc fd.toNat)

/-- What a call may do, by its result: a `kfd_open` takes the smallest free slot, a `kfd_close`
empties its slot, and an access that is barred has no effect. -/
def OnTables (s r : Fs) (F : OpenFlags) (proc : Nat) : Call → Result → Prop
  | .kfdOpen _ _ _, .code fd =>
      (fd = KFD_ERROR ∧ r.fds = s.fds) ∨
        ∃ n : Nat, fd = n ∧ LeastFree s proc n ∧ r.fds proc n ≠ 0 ∧ OnlySlot s r proc n
  | .kfdClose fd, .status closed =>
      (s.kfdGet proc fd = 0 ∧ closed = false ∧ r = s) ∨
        (s.kfdGet proc fd ≠ 0 ∧ closed = true ∧ r.fds proc fd.toNat = 0 ∧
          OnlySlot s r proc fd.toNat)
  | .kfdRead fd _, .bytes bytes =>
      r.fds = s.fds ∧ (Barred s F MayRead proc fd → bytes = [] ∧ r = s)
  | .kfdWrite fd _, .count written =>
      r.fds = s.fds ∧ (Barred s F MayWrite proc fd → written = 0 ∧ r = s)
  | _, _ => False

/-- No record of a descriptor stands in two slots. -/
def Unshared (s : Fs) : Prop :=
  ∀ p i p' i', s.fds p i ≠ 0 → s.fds p i = s.fds p' i' → p = p' ∧ i = i'

theorem Mounted.unshared (h : Mounted s t) : Unshared s := by
  intro p i p' i' hp heq
  obtain ⟨d, -, hd, -⟩ := h.desc p i hp
  exact h.apart p i p' i' d d hd (heq ▸ hd) rfl

/-- The slot that `kfd_create_for_process` takes. -/
theorem kfdCreateForProcess_leastFree {node : Ptr} {flags n : Nat}
    (h : s.kfdCreateForProcess proc node flags = ((n : Int), r)) : LeastFree s proc n := by
  have hcode : (n : Int) ≠ KFD_ERROR := by simp [KFD_ERROR]
  unfold kfdCreateForProcess at h
  split_ifs at h
  · exact absurd (Prod.mk.inj h).1.symm hcode
  cases hfind : (List.range KFD_MAX_COUNT).find? fun fd => s.fds proc fd = 0 with
  | none =>
    rw [hfind] at h
    exact absurd (Prod.mk.inj h).1.symm hcode
  | some fd =>
    rw [hfind] at h
    dsimp only at h
    split_ifs at h
    · exact absurd (Prod.mk.inj h).1.symm hcode
    · obtain rfl : fd = n := by simpa using (Prod.mk.inj h).1
      obtain ⟨hfree, hmem, hleast⟩ := List.find?_range_eq_some.1 hfind
      exact ⟨List.mem_range.1 hmem, by simpa using hfree, fun m hm => by simpa using hleast m hm⟩

theorem kfdOpen_leastFree {path : CString} {flags mode n : Nat}
    (h : s.kfdOpen proc path flags mode = some ((n : Int), r)) : LeastFree s proc n := by
  obtain ⟨⟨node, r₁⟩, hkvfs, h⟩ := Option.bind_eq_some_iff.1 h
  have hfds : r₁.fds = s.fds := (kvfsOpen_fds rfl path flags mode).result _ hkvfs
  simp only at h
  split_ifs at h
  · have hcode := (Prod.mk.inj (Option.some.inj h)).1
    simp [KFD_ERROR] at hcode
  · obtain ⟨hbound, hfree, hleast⟩ := kfdCreateForProcess_leastFree (Option.some.inj h)
    rw [hfds] at hfree hleast
    exact ⟨hbound, hfree, hleast⟩

/-! ## The flags stay with their records -/

/-- Each record holds the flags that are written down for its slot. -/
def Recorded (s : Fs) (F : OpenFlags) : Prop :=
  ∀ p i d, s.obj (s.fds p i) = some (.desc d) → d.flags = F p i

variable {F : OpenFlags}

/-- The descriptors behind a part of a call that closes none were there before. -/
theorem Keeps.desc_back (hk : Keeps s r) (h : Mounted s t) {p i : Nat} {d : FileDesc}
    (hd : r.obj (r.fds p i) = some (.desc d)) : s.obj (s.fds p i) = some (.desc d) := by
  rw [hk.frame.fds] at hd
  obtain ⟨d₀, -, hd₀, -⟩ := h.desc p i (ne_zero_of_obj hd)
  rw [hk.other _ _ hd₀ (by simp)] at hd
  exact hd₀.trans hd

theorem Recorded.keeps (hF : Recorded s F) (hk : Keeps s r) (h : Mounted s t) : Recorded r F :=
  fun p i d hd => hF p i d (hk.desc_back h hd)

theorem Recorded.rewritten (hF : Recorded s F) (hr : Rewritten s r) : Recorded r F := by
  intro p i d hd
  rw [hr.frame.fds] at hd
  obtain ⟨o, ho⟩ := hr.desc_back _ d hd
  have hflags := hF p i _ ho
  exact hflags

/-- `kfd_open` writes its flags into the record of the slot that it takes. -/
theorem Recorded.opened {path : CString} {d : Ptr} {flags mode : Nat} {fd : Int}
    (hF : Recorded s F) (h : Mounted s t) (hd : StartsAt s path d) (hk : s.KeepsCwd path flags)
    (hopen : s.kfdOpen proc path flags mode = some (fd, r)) :
    Recorded r (F.after proc (.kfdOpen path flags mode) (.code fd)) := by
  obtain ⟨q, r₁, fresh, x, t', hkvfs, hopens, hkeeps⟩ := kvfsOpen_spec h.stands hd flags mode
  have hm₁ : Mounted r₁ t' := h.kept (hkeeps hk) hopens.change
  have hF₁ : Recorded r₁ F := hF.keeps (hkeeps hk) h
  by_cases hq : q = 0
  · simp only [kfdOpen, hkvfs, hq, Option.bind_eq_bind, Option.bind_some, if_true, Option.pure_def,
      Option.some.injEq, Prod.mk.injEq] at hopen
    obtain ⟨rfl, rfl⟩ := hopen
    simpa [OpenFlags.after] using hF₁
  simp only [kfdOpen, hkvfs, hq, Option.bind_eq_bind, Option.bind_some, if_false, Option.pure_def,
    Option.some.injEq] at hopen
  rcases kfdCreateForProcess_spec r₁ proc flags hq with
    ⟨r₂, -, hnone, hk₂, -⟩ | ⟨n, p, r₂, hmade, hdesc⟩
  · rw [hnone] at hopen
    obtain ⟨rfl, rfl⟩ := Prod.mk.inj hopen
    simpa [OpenFlags.after] using hF₁.keeps hk₂ hm₁
  · rw [hmade] at hopen
    obtain ⟨rfl, rfl⟩ := Prod.mk.inj hopen
    have hcode : (n : Int) ≠ KFD_ERROR := by simp [KFD_ERROR]
    intro p' i' d' hd'
    simp only [OpenFlags.after, if_neg hcode, Int.toNat_natCast]
    rcases hdesc.back hm₁ hd' with ⟨rfl, rfl, rfl⟩ | hold
    · rw [if_pos ⟨rfl, rfl⟩]
    · have hne : ¬(p' = proc ∧ i' = n) := by
        rintro ⟨rfl, rfl⟩
        exact ne_zero_of_obj hold hdesc.empty
      rw [if_neg hne]
      exact hF₁ p' i' d' hold

theorem Recorded.closed {fd : Nat} {d : FileDesc} (hF : Recorded s F) (hc : Closed s r proc fd d) :
    Recorded r F :=
  fun p i d' hd' => hF p i d' (hc.desc_back hd')

/-! ## One call -/

theorem kfdOpen_onTables {path : CString} {flags mode : Nat} {fd : Int}
    (hopen : s.kfdOpen proc path flags mode = some (fd, r)) (F : OpenFlags) :
    OnTables s r F proc (.kfdOpen path flags mode) (.code fd) := by
  rcases kfdOpen_fds hopen with ⟨-, hfd, hfds⟩ | ⟨n, -, rfl, hat⟩
  · exact Or.inl ⟨hfd, hfds⟩
  · exact Or.inr ⟨n, rfl, kfdOpen_leastFree hopen, hat.place.taken, hat.place.rest⟩

/-- `kfd_close` of a slot that is taken closes its descriptor. -/
theorem kfdClose_taken (h : Mounted s t) {fd : Int} (hfd : s.kfdGet proc fd ≠ 0) :
    ∃ d r, s.kfdClose proc fd = some (true, r) ∧ Closed s r proc fd.toNat d := by
  rcases kfdClose_spec h proc fd with hnone | ⟨d, r, -, hclose, hc⟩
  · obtain ⟨d, f, hd, hone, hf, -⟩ := h.desc proc fd.toNat (kfdGet_of_ne_zero hfd ▸ hfd)
    rw [← kfdGet_of_ne_zero hfd] at hd
    simp only [kfdClose, if_neg hfd, descAt_of_obj hd, hone, Option.bind_eq_bind, Option.bind_some,
      gt_iff_lt, lt_self_iff_false, if_false, Option.pure_def, Option.bind_eq_some_iff] at hnone
    obtain ⟨_, -, habs⟩ := hnone
    cases habs
  · exact ⟨d, r, hclose, hc⟩

theorem kfdClose_onTables (h : Mounted s t) (hF : Recorded s F) {fd : Int} {closed : Bool}
    (hclose : s.kfdClose proc fd = some (closed, r)) :
    OnTables s r F proc (.kfdClose fd) (.status closed) ∧ Recorded r F := by
  by_cases hfd : s.kfdGet proc fd = 0
  · have hnone : s.kfdClose proc fd = some (false, s) := by simp [kfdClose, hfd]
    obtain ⟨rfl, rfl⟩ := Prod.mk.inj (Option.some.inj (hnone.symm.trans hclose))
    exact ⟨Or.inl ⟨hfd, rfl, rfl⟩, hF⟩
  · obtain ⟨d, r', hclose', hc⟩ := kfdClose_taken h hfd
    obtain ⟨rfl, rfl⟩ := Prod.mk.inj (Option.some.inj (hclose'.symm.trans hclose))
    refine ⟨Or.inr ⟨hfd, rfl, ?_, fun p i hne => ?_⟩, hF.closed hc⟩
    · rw [hc.fds, if_pos ⟨rfl, rfl⟩]
    · rw [hc.fds, if_neg hne]

/-- An access that is barred is refused. -/
theorem kfdAccess_barred (h : Mounted s t) (hl : UsesLive s) (hF : Recorded s F) {access : Nat}
    {May : Nat → Prop} (hmay : ∀ d, kfdCheckAccess d access = true ↔ May d.flags) {fd : Int}
    (hb : Barred s F May proc fd) (permitted : VfsStat → Bool) :
    s.kfdAccess proc fd access permitted = some none := by
  rcases kfdAccess_cases h hl proc fd access permitted with hnone | ⟨d, f, e, hdesc, hcheck, -⟩
  · exact hnone
  have hne := ne_zero_of_obj hdesc.desc
  have hflags : d.flags = F proc fd.toNat := by
    have hd := hdesc.desc
    rw [kfdGet_of_ne_zero hne] at hd
    exact hF _ _ d hd
  rcases hb with h0 | hno
  · exact absurd h0 hne
  · exact absurd (hflags ▸ (hmay d).1 hcheck) hno

/-! ## Runs -/

/-- What a run keeps.  The working directory is the root: no call of these changes it. -/
structure TableInv (s : Fs) (F : OpenFlags) (t : OrderedTree Ptr) : Prop where
  use : UseInv s t
  flags : Recorded s F
  cwd : s.kvfsCwd = s.kvfsRootMountDir

theorem TableInv.rewritten (h : TableInv s F t) (hr : Rewritten s r) (hfiles : FilesSound r) :
    TableInv r F t :=
  ⟨h.use.rewritten hr hfiles, h.flags.rewritten hr, by rw [hr.frame.cwd, hr.frame.root, h.cwd]⟩

theorem TableInv.withInput (h : TableInv s F t) (i : Input) : TableInv (s.withInput i) F t :=
  ⟨h.use.withInput i, h.flags, h.cwd⟩

theorem TableInv.kfdRead (h : TableInv s F t) (proc : Nat) (fd : Int) (len : Nat) :
    ∃ bytes r, s.kfdRead proc fd len = some (bytes, r) ∧ TableInv r F t ∧
      OnTables s r F proc (.kfdRead fd len) (.bytes bytes) := by
  obtain ⟨bytes, r, hread, hrew, hfiles⟩ :=
    kfdRead_rewritten h.use.mounted h.use.live h.use.files proc fd len
  refine ⟨bytes, r, hread, h.rewritten hrew hfiles, hrew.frame.fds, fun hb => ?_⟩
  have hnone := kfdAccess_barred h.use.mounted h.use.live h.flags kfdCheckAccess_read hb
    (kvfsStatCanRead · Cred.root)
  have hrefused : s.kfdRead proc fd len = some ([], s) := by
    simp only [Fs.kfdRead, hnone, Option.bind_eq_bind, Option.bind_some, Option.pure_def, ite_self]
  simpa using hread.symm.trans hrefused

theorem TableInv.kfdWrite (h : TableInv s F t) {fd : Int} {buffer : List UInt8}
    (hkeeps : WriteKeeps s proc fd buffer) :
    ∃ written r, s.kfdWrite proc fd buffer = some (written, r) ∧ TableInv r F t ∧
      OnTables s r F proc (.kfdWrite fd buffer) (.count written) := by
  obtain ⟨written, r, hwrite, hrew, hfiles⟩ :=
    kfdWrite_rewritten h.use.mounted h.use.live h.use.files hkeeps
  refine ⟨written, r, hwrite, h.rewritten hrew hfiles, hrew.frame.fds, fun hb => ?_⟩
  have hnone := kfdAccess_barred h.use.mounted h.use.live h.flags kfdCheckAccess_write hb
    (kvfsStatCanWrite · Cred.root)
  have hrefused : s.kfdWrite proc fd buffer = some (0, s) := by
    simp only [Fs.kfdWrite, hnone, Option.bind_eq_bind, Option.bind_some, Option.pure_def, ite_self]
  simpa using hwrite.symm.trans hrefused

/-- A call by path or of `kfd_close` keeps what a run keeps, but for the flags. -/
theorem TableInv.onTree (h : TableInv s F t) (proc : Nat) {c : Call} (htree : c.onTree = true)
    (hcalls : c.onDescriptors = true) :
    ∃ result r t', s.call proc c = some (result, r) ∧ UseInv r t' ∧
      r.kvfsCwd = r.kvfsRootMountDir := by
  have hok : CallOk s c :=
    ⟨fun path _ => h.use.live.startsInUse h.use.mounted path, fun o _ => Or.inr (Or.inl h.cwd)⟩
  obtain ⟨result, r, t', gone, fresh, hcall, heffect, hcwd, -, hgone⟩ :=
    call_effect h.use.mounted proc htree hok
  have hmoves : c.movesCwd = false := by
    cases c <;> first | rfl | cases hcalls
  obtain rfl : gone = 0 := hgone (Call.removes_onDescriptors hcalls)
  refine ⟨result, r, t', hcall, ⟨heffect.mounted, ?_, h.use.files.effect heffect⟩, ?_⟩
  · refine h.use.live.effect heffect fun x _ hx hgone => ?_
    exact entry_stays h.use.mounted proc htree hok (Call.removes_onDescriptors hcalls) hcall hx hgone
  · rw [hcwd hmoves, heffect.root, h.cwd]

/-- One call keeps it, and does to the tables what it may. -/
theorem TableInv.call (h : TableInv s F t) (proc : Nat) {c : Call}
    (hcalls : c.onDescriptors = true)
    (hdata : ∀ w ∈ c.writes?, WriteKeeps s proc w.1 w.2) :
    ∃ result r t', s.call proc c = some (result, r) ∧ OnTables s r F proc c result ∧
      TableInv r (F.after proc c result) t' := by
  cases c with
  | kfdOpen path flags mode =>
    obtain ⟨result, r, t', hcall, huse, hcwd⟩ := h.onTree proc rfl hcalls
    obtain ⟨⟨fd, r'⟩, hopen, hres⟩ := Option.map_eq_some_iff.1 hcall
    obtain ⟨rfl, rfl⟩ : Result.code fd = result ∧ r' = r := by simpa using hres
    obtain ⟨d, hd⟩ := h.use.mounted.startsAt (h.use.mounted.startsInUse_root h.cwd path)
    exact ⟨_, r', t', hcall, kfdOpen_onTables hopen F, huse,
      h.flags.opened h.use.mounted hd (Or.inr (Or.inl h.cwd)) hopen, hcwd⟩
  | kfdClose fd =>
    obtain ⟨result, r, t', hcall, huse, hcwd⟩ := h.onTree proc rfl hcalls
    obtain ⟨⟨closed, r'⟩, hclose, hres⟩ := Option.map_eq_some_iff.1 hcall
    obtain ⟨rfl, rfl⟩ : Result.status closed = result ∧ r' = r := by simpa using hres
    obtain ⟨hon, hflags⟩ := kfdClose_onTables h.use.mounted h.flags hclose
    exact ⟨_, r', t', hcall, hon, huse, hflags, hcwd⟩
  | kfdRead fd len =>
    obtain ⟨bytes, r, hread, hinv, hon⟩ := h.kfdRead proc fd len
    exact ⟨.bytes bytes, r, t, by simp [Fs.call, hread], hon, hinv⟩
  | kfdWrite fd buffer =>
    obtain ⟨written, r, hwrite, hinv, hon⟩ := h.kfdWrite (hdata (fd, buffer) rfl)
    exact ⟨.count written, r, t, by simp [Fs.call, hwrite], hon, hinv⟩
  | kfdReaddir _ | kmkdir _ | krmdir _ | kvfsUnlink _ | kvfsChdir _ | lookupOpenClose _ =>
    cases hcalls

/-- The input opens, closes, reads or writes, and a write keeps the data of its file. -/
structure OnDescriptors (x : Fs × OpenFlags) (i : Input) : Prop where
  calls : i.call.onDescriptors = true
  data : ∀ w ∈ i.call.writes?, WriteKeeps (x.1.withInput i) i.proc w.1 w.2

instance (x : Fs × OpenFlags) (i : Input) : Decidable (OnDescriptors x i) :=
  decidable_of_iff (i.call.onDescriptors = true ∧
    ∀ w ∈ i.call.writes?, WriteKeeps (x.1.withInput i) i.proc w.1 w.2)
    ⟨fun h => ⟨h.1, h.2⟩, fun h => ⟨h.calls, h.data⟩⟩

/-- No descriptor has been opened. -/
def noFlags : OpenFlags := fun _ _ => 0

/-- **The descriptor tables stay apart, and every call does to them what it may**, in every run in
which each write gets the room that it needs, or has no data to lose. -/
theorem tables_of_run (hs : FreshMount s) {is : List Input}
    (hadm : Admissible tableStep OnDescriptors (s, noFlags) is) :
    ∃ x, run tableStep (s, noFlags) is = some x ∧ Unshared x.1 ∧
      ∀ i, OnDescriptors x i → ∃ result r, x.1.stepResult i = some (result, r) ∧
        OnTables (x.1.withInput i) r x.2 i.proc i.call result := by
  obtain ⟨f, hfresh⟩ := hs.stands
  have hinit : TableInv s noFlags (OrderedTree.single f) := by
    refine ⟨hfresh.useInv, fun p i d hd => ?_, hfresh.cwd⟩
    rw [hfresh.fds] at hd
    exact absurd rfl (ne_zero_of_obj hd)
  obtain ⟨⟨r, F⟩, hrun, t, hr⟩ := run_total (P := fun x => ∃ t, TableInv x.1 x.2 t)
    (fun x i ⟨_, hx⟩ hi => by
      obtain ⟨result, r, t', hcall, -, hinv⟩ := (hx.withInput i).call i.proc hi.calls hi.data
      exact ⟨(r, x.2.after i.proc i.call result), by simp [tableStep, stepResult, hcall], t', hinv⟩)
    ⟨_, hinit⟩ hadm
  refine ⟨(r, F), hrun, hr.use.mounted.unshared, fun i hi => ?_⟩
  obtain ⟨result, r', t', hcall, hon, -⟩ := (hr.withInput i).call i.proc hi.calls hi.data
  exact ⟨result, r', hcall, hon⟩

/-- A file is written to, closed, and opened with the access mode 3. -/
theorem tables_of_run_reopened : ∃ x, run tableStep (mountedRoot, noFlags)
    ([.kfdOpen [slash, 0x66] 0x42 0, .kfdWrite 0 [1, 2], .kfdClose 0,
      .kfdOpen [slash, 0x66] 3 0].map plainInput) = some x ∧ Unshared x.1 ∧
      ∀ i, OnDescriptors x i → ∃ result r, x.1.stepResult i = some (result, r) ∧
        OnTables (x.1.withInput i) r x.2 i.proc i.call result :=
  tables_of_run freshMount_mountedRoot (by decide +kernel)

/-! ## A record in two slots -/

/-- A call to which the page layers grant nothing. -/
def starvedInput (c : Call) : Input := ⟨0, c, fun _ => false, fun _ => 0⟩

/-- The data of `/f` are freed by a write that gets no memory, become the record of descriptor 1,
are freed once more in the same way, and become the record of descriptor 2. -/
def freedTwice : List Input :=
  [plainInput (.kfdOpen [slash, 0x66] 0x42 0), plainInput (.kfdWrite 0 [1]),
    plainInput (.kfdOpen [slash, 0x66] 0 0), plainInput (.kfdOpen [slash, 0x66] 0 0),
    starvedInput (.kfdWrite 0 [1]), plainInput (.kfdClose 1),
    plainInput (.kfdOpen [slash, 0x67] 0x42 0), starvedInput (.kfdWrite 0 [1]),
    plainInput (.kfdClose 2), plainInput (.kfdOpen [slash, 0x68] 0x42 0)]

/-- **A record of a descriptor comes to stand in two slots** when a write gets no memory. -/
theorem record_shared : FreshMount mountedRoot ∧
    (∀ i ∈ freedTwice, i.call.onDescriptors = true) ∧
    ∃ r, run Fs.step mountedRoot freedTwice = some r ∧ ¬Unshared r := by
  have hshared : (run Fs.step mountedRoot freedTwice).any (fun r =>
      decide (r.fds 0 1 ≠ 0) && decide (r.fds 0 1 = r.fds 0 2)) = true := by
    decide +kernel
  obtain ⟨r, hrun, hr⟩ := (Option.any_eq_true _ _).1 hshared
  simp only [Bool.and_eq_true, decide_eq_true_eq] at hr
  refine ⟨freshMount_mountedRoot, by decide, r, hrun, fun hu => ?_⟩
  exact absurd (hu 0 1 0 2 hr.1 hr.2).2 (by decide)

end Fs

end DelOs
