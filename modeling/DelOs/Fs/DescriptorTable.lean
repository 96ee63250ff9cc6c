import DelOs.Fs.HeldNodes
import DelOs.Lib.Ends

/-!
# The descriptor table behind calls by path

Only `kfd_create_for_process` and `kfd_close_for_process` write the descriptor tables.

* `kvfsOpen_fds`, `kvfsUnlink_fds`, `kvfsRmdir_fds`, `kvfsChdir_fds` — **the file system below the
  descriptors leaves the tables alone**, whatever the heap holds.
* `kfdOpen_fds`, `kfdClose_fds` — the two calls that write the tables.
* `kmkdir_fds`, `kstat_fds` — `kmkdir` gives its descriptor back, `kstat` does not.
* `table_unchanged_iff` — **which sequences of calls by path leave a table as they found it**.
-/

namespace DelOs

open FirstFit Transition

namespace Fs

variable {s r : Fs} {T : Nat → Nat → Ptr}

/-! ## Below the descriptors -/

theorem new_fds (s : Fs) (size : Nat) (o : Obj) : (s.new size o).2.fds = s.fds := by
  have hframe := (kmalloc_frame s size).fds
  rcases hk : s.kmalloc size with ⟨p, r⟩
  rw [hk] at hframe
  simp only [new, hk]
  split_ifs
  · exact hframe
  · exact hframe

theorem ktmpfsCreateVfsNode_fds (s : Fs) (entry : Ptr) :
    (s.ktmpfsCreateVfsNode entry).2.fds = s.fds := by
  unfold ktmpfsCreateVfsNode
  split_ifs
  · rfl
  · exact new_fds s _ _

theorem setRefcount_fds (h : s.fds = T) (p : Ptr) (n : Nat) :
    Ends (s.setRefcount p n) (·.fds = T) := by
  unfold setRefcount
  split
  · exact ends_some h
  · exact Ends.map (Q := fun _ => True) ⟨fun _ _ => trivial⟩ fun _ _ => h
  · exact ends_none

theorem kvfsClose_fds (h : s.fds = T) (node : Ptr) : Ends (s.kvfsClose node) (·.fds = T) := by
  refine ends_guard h fun _ => ?_
  apply ends_read
  intro n _
  refine ends_guard h fun _ => ?_
  apply (setRefcount_fds h node _).bind
  intro r hr
  apply ends_some
  split_ifs
  · exact hr
  · exact hr

theorem closeUnless_fds (h : s.fds = T) (start node : Ptr) :
    Ends (s.closeUnless start node) (·.fds = T) :=
  ends_ite (fun _ => kvfsClose_fds h node) fun _ => ends_some h

/-- A node is closed, and the call ends. -/
theorem closed_fds {α : Type} (h : s.fds = T) (node : Ptr) (a : α) :
    Ends ((s.kvfsClose node).bind fun r => some (a, r)) (·.2.fds = T) :=
  (kvfsClose_fds h node).bind fun _ hr => ends_some hr

theorem kvfsLookup_fds (h : s.fds = T) (node : Ptr) (name : CString) :
    Ends (s.kvfsLookup node name) (·.2.fds = T) := by
  apply ends_read
  intro st _
  cases st with
  | none => exact ends_some h
  | some st =>
    refine ends_guard h fun _ => ?_
    refine ends_guard h fun _ => ?_
    apply ends_read
    intro n _
    refine ends_guard h fun _ => ?_
    apply ends_read
    intro child _
    exact ends_some ((ktmpfsCreateVfsNode_fds s child).trans h)

theorem walkParts_fds (start : Ptr) (parts : List CString) :
    ∀ {s : Fs} (_ : s.fds = T) (node : Ptr), Ends (s.walkParts start node parts) (·.2.fds = T) := by
  induction parts with
  | nil => exact fun h node => ends_some h
  | cons part parts ih =>
    intro s h node
    apply (kvfsLookup_fds h node part).bind
    rintro ⟨next, t⟩ ht
    apply (closeUnless_fds ht start node).bind
    intro t ht
    exact ends_guard ht fun _ => ih ht next

theorem kvfsLookupOpen_fds (h : s.fds = T) (path : CString) :
    Ends (s.kvfsLookupOpen path) (·.2.fds = T) :=
  ends_guard h fun _ => ends_guard h fun _ => walkParts_fds _ _ h _

theorem kvfsResolveParentFrom_fds (h : s.fds = T) (start : Ptr) (path : CString) :
    Ends (s.kvfsResolveParentFrom start path) (·.2.2.fds = T) := by
  refine ends_guard h fun _ => ?_
  refine ends_guard h fun _ => ?_
  exact (walkParts_fds _ _ h _).bind fun _ hr => ends_some hr

/-! ## Creating and opening -/

/-- **Operations on entries leave the tables alone.** -/
theorem entrySteps_fds (T : Nat → Nat → Ptr) : EntrySteps fun s => s.fds = T where
  put _ _ h := h
  kfree _ h := h
  kcallocEntry h := (new_fds _ _ _).trans h

theorem openCreat_fds (h : s.fds = T) (parent : Ptr) (st : VfsStat) (name : CString)
    (flags mode : Nat) : Ends (s.openCreat parent st name flags mode) (·.2.fds = T) := by
  refine ends_guard h fun _ => ?_
  apply ends_ite
  · exact fun _ => closed_fds h parent _
  intro _
  apply (kvfsLookup_fds h parent name).bind
  rintro ⟨node, r⟩ hr
  apply ends_ite
  · intro _
    apply (kvfsClose_fds hr node).bind
    intro t ht
    exact ends_ite (fun _ => closed_fds ht parent _) fun _ => ends_some ht
  · intro _
    apply ((entrySteps_fds T).openMake hr parent name flags mode).bind
    rintro ⟨made, t⟩ ht
    exact ends_ite (fun _ => closed_fds ht parent _) fun _ => ends_some ht

theorem openNode_fds (h : s.fds = T) (parent : Ptr) (name : CString) (flags : Nat) :
    Ends (s.openNode parent name flags) (·.2.fds = T) := by
  apply (kvfsLookup_fds h parent name).bind
  rintro ⟨node, r⟩ hr
  apply ends_ite
  · exact fun _ => closed_fds hr parent _
  intro _
  apply ends_read
  intro st _
  cases st with
  | none => exact closed_fds hr node _
  | some st =>
    apply ends_ite
    · intro _
      exact (kvfsClose_fds hr node).bind fun _ ht => closed_fds ht parent _
    · intro _
      exact (closeUnless_fds hr _ parent).bind fun _ ht => ends_some ht

/-- **`kvfs_open` leaves the descriptor tables alone.** -/
theorem kvfsOpen_fds (h : s.fds = T) (path : CString) (flags mode : Nat) :
    Ends (s.kvfsOpen path flags mode) (·.2.fds = T) := by
  apply (kvfsResolveParentFrom_fds h _ path).bind
  rintro ⟨parent, name, r⟩ hr
  refine ends_guard hr fun _ => ?_
  apply ends_read
  intro st _
  cases st with
  | none => exact closed_fds hr parent _
  | some st =>
    apply (openCreat_fds hr parent st name flags mode).bind
    rintro ⟨goesOn, t⟩ ht
    exact ends_guard ht fun _ => openNode_fds ht parent name flags

/-! ## Removing, changing the directory, asking for metadata -/

theorem removeAt_fds (h : s.fds = T) (path : CString) (isKind : Nat → Bool)
    {operation : Fs → Ptr → Option (Bool × Fs)}
    (hop : ∀ {r : Fs} (_ : r.fds = T) (node : Ptr), Ends (operation r node) (·.2.fds = T)) :
    Ends (s.removeAt path isKind operation) (·.2.fds = T) := by
  apply (kvfsLookupOpen_fds h path).bind
  rintro ⟨node, r⟩ hr
  refine ends_guard hr fun _ => ?_
  apply ends_read
  intro st _
  cases st with
  | none => exact closed_fds hr node _
  | some st =>
    refine ends_ite (fun _ => closed_fds hr node _) fun _ => ?_
    refine ends_guard hr fun _ => ?_
    apply (hop hr node).bind
    rintro ⟨removed, t⟩ ht
    exact ends_guard ht fun _ => closed_fds ht node _

/-- **`kvfs_unlink` leaves the descriptor tables alone.** -/
theorem kvfsUnlink_fds (h : s.fds = T) (path : CString) :
    Ends (s.kvfsUnlink path) (·.2.fds = T) :=
  removeAt_fds h path _ (entrySteps_fds T).ktmpfsUnlink

/-- **`kvfs_rmdir` leaves the descriptor tables alone.** -/
theorem kvfsRmdir_fds (h : s.fds = T) (path : CString) : Ends (s.kvfsRmdir path) (·.2.fds = T) :=
  removeAt_fds h path _ (entrySteps_fds T).ktmpfsRmdir

/-- **`kvfs_chdir` leaves the descriptor tables alone.** -/
theorem kvfsChdir_fds (h : s.fds = T) (path : CString) : Ends (s.kvfsChdir path) (·.2.fds = T) := by
  apply (kvfsLookupOpen_fds h path).bind
  rintro ⟨node, r⟩ hr
  refine ends_guard hr fun _ => ?_
  apply ends_read
  intro st _
  cases st with
  | none => exact closed_fds hr node _
  | some st =>
    refine ends_ite (fun _ => closed_fds hr node _) fun _ => ?_
    exact (kvfsClose_fds hr r.kvfsCwd).bind fun _ ht => ends_some ht

/-- **`kvfs_stat` leaves the descriptor tables alone.** -/
theorem kvfsStat_fds (h : s.fds = T) (path : CString) (statPtr : Ptr) :
    Ends (s.kvfsStat path statPtr) (·.2.2.fds = T) := by
  refine ends_guard h fun _ => ?_
  apply (kvfsLookupOpen_fds h path).bind
  rintro ⟨node, r⟩ hr
  refine ends_guard hr fun _ => ?_
  apply ends_read
  intro st _
  exact (kvfsClose_fds hr node).bind fun _ ht => ends_some ht

/-! ## Calls on descriptors -/

/-- One more place of the table of `proc` is taken. -/
structure Taken (T U : Nat → Nat → Ptr) (proc fd : Nat) : Prop where
  empty : T proc fd = 0
  taken : U proc fd ≠ 0
  rest : ∀ p i, ¬(p = proc ∧ i = fd) → U p i = T p i

/-- `kfd_open` of the path gets a descriptor: `kvfs_open` has a node, the table a free place, and
the heap room for the record. -/
def getsDescriptor (s : Fs) (proc : Nat) (path : CString) (flags mode : Nat) : Bool :=
  (s.kvfsOpen path flags mode).any fun (node, r) => decide (node ≠ 0) && !r.descRefused proc

/-- A descriptor that cannot be made is not made. -/
theorem kfdCreateForProcess_refused {proc : Nat} (h : s.descRefused proc = true) (node : Ptr)
    (flags : Nat) : (s.kfdCreateForProcess proc node flags).1 = KFD_ERROR := by
  unfold kfdCreateForProcess
  split_ifs with hnode
  · rfl
  cases hfind : (List.range KFD_MAX_COUNT).find? fun fd => s.fds proc fd = 0 with
  | none => rfl
  | some fd =>
    have hempty : s.fds proc fd = 0 := by simpa using List.find?_some hfind
    have hmem := List.mem_of_find?_eq_some hfind
    have hnull : (s.kmalloc sizeofFileDesc).1 = 0 := by
      rw [descRefused, Bool.or_eq_true] at h
      rcases h with hfull | hnull
      · have hne := List.all_eq_true.1 hfull fd hmem
        simp [hempty] at hne
      · exact of_decide_eq_true hnull
    simp [new, hnull]

/-- A descriptor has been put into the place `n` of the table of `proc`. -/
structure OpenedAt (s r : Fs) (proc n flags : Nat) : Prop where
  bound : n < KFD_MAX_COUNT
  place : Taken s.fds r.fds proc n
  desc : ∃ q, r.descAt (r.fds proc n) = some ⟨q, 0, flags, 1⟩

/-- What `kfd_open` does to the tables. -/
theorem kfdOpen_fds {proc : Nat} {path : CString} {flags mode : Nat} {fd : Int}
    (h : s.kfdOpen proc path flags mode = some (fd, r)) :
    (s.getsDescriptor proc path flags mode = false ∧ fd = KFD_ERROR ∧ r.fds = s.fds) ∨
      ∃ n : Nat, s.getsDescriptor proc path flags mode = true ∧ fd = n ∧
        OpenedAt s r proc n flags := by
  obtain ⟨⟨node, r₁⟩, hkvfs, h⟩ := Option.bind_eq_some_iff.1 h
  have hfds : r₁.fds = s.fds := (kvfsOpen_fds rfl path flags mode).result _ hkvfs
  simp only at h
  split_ifs at h with hnode
  · left
    cases h
    exact ⟨by simp [getsDescriptor, hkvfs, hnode], rfl, hfds⟩
  have hmade : r₁.kfdCreateForProcess proc node flags = (fd, r) := Option.some.inj h
  rcases kfdCreateForProcess_spec r₁ proc flags hnode with
    ⟨r₂, hrefused, hnone, hkeeps, -⟩ | ⟨n, p, r₂, hsome, hdesc⟩
  · left
    obtain ⟨rfl, rfl⟩ := Prod.mk.inj (hnone.symm.trans hmade)
    exact ⟨by simp [getsDescriptor, hkvfs, hrefused], rfl, hkeeps.frame.fds.trans hfds⟩
  · right
    have hgets : r₁.descRefused proc = false := by
      by_contra hno
      have hfail := kfdCreateForProcess_refused (by simpa using hno) node flags
      rw [hsome] at hfail
      exact absurd hfail (by simp [KFD_ERROR])
    obtain ⟨rfl, rfl⟩ := Prod.mk.inj (hsome.symm.trans hmade)
    have hmade := hdesc.made
    refine ⟨n, by simp [getsDescriptor, hkvfs, hnode, hgets], rfl, hdesc.bound, ⟨?_, ?_, ?_⟩,
      node, descAt_of_obj hmade⟩
    · rw [← hfds]
      exact hdesc.empty
    · exact ne_zero_of_obj hmade
    · intro p' i hne
      rw [← hfds, ← hdesc.keeps.frame.fds]
      exact if_neg hne

/-- `kfd_close` of a descriptor that nobody shares clears its place. -/
theorem kfdClose_fds {proc n : Nat} (hn : n < KFD_MAX_COUNT) (hp : s.fds proc n ≠ 0)
    {d : FileDesc} (hd : s.descAt (s.fds proc n) = some d) (hone : d.refcount = 1) :
    Ends (s.kfdClose proc n) fun b => b.2.fds =
      fun p i => if p = proc ∧ i = n then 0 else s.fds p i := by
  have hget : s.kfdGet proc n = s.fds proc n := by simp [kfdGet, hn]
  have hclose : s.kfdClose proc n = (s.kvfsClose d.node).bind fun r =>
      some (true, (r.kfree (s.fds proc n)).setFd proc n 0) := by
    simp [kfdClose, hget, hp, hd, hone]
  rw [hclose]
  apply (kvfsClose_fds rfl d.node).bind
  intro r hr
  apply ends_some
  rw [← hr]
  rfl

/-- **`kmkdir` leaves the tables as it found them.** -/
theorem kmkdir_fds (s : Fs) (proc : Nat) (path : CString) :
    Ends (s.kmkdir proc path) (·.2.fds = s.fds) := by
  refine ends_guard rfl fun _ => ?_
  apply ends_read
  rintro ⟨fd, r⟩ hopen
  rcases kfdOpen_fds hopen with ⟨-, rfl, hfds⟩ | ⟨n, -, rfl, ho⟩
  · exact ends_guard hfds fun hne => absurd rfl hne
  · refine ends_ite (fun herr => absurd herr (by simp [KFD_ERROR])) fun _ => ?_
    obtain ⟨q, hq⟩ := ho.desc
    apply (kfdClose_fds ho.bound ho.place.taken hq rfl).bind
    rintro ⟨closed, t⟩ ht
    apply ends_some
    refine ht.trans (funext fun p => funext fun i => ?_)
    split_ifs with hpi
    · rw [hpi.1, hpi.2]
      exact ho.place.empty.symm
    · exact ho.place.rest p i hpi

/-- `krmdir` leaves the tables alone. -/
theorem krmdir_fds (s : Fs) (path : CString) : Ends (s.krmdir path) (·.2.fds = s.fds) := by
  refine ends_guard rfl fun _ => ?_
  exact (kvfsRmdir_fds rfl path).bind fun _ hr => ends_some hr

/-- **`kstat` keeps the descriptor that it opens.** -/
theorem kstat_fds (s : Fs) (proc : Nat) (path : CString) (statPtr : Ptr) :
    Ends (s.kstat proc path statPtr) fun b =>
      if statPtr ≠ 0 ∧ s.getsDescriptor proc path KVFS_O_RDONLY 0 = true then
        ∃ n, Taken s.fds b.2.2.fds proc n
      else b.2.2.fds = s.fds := by
  refine ends_ite (fun h0 => ends_some (by simp [h0])) fun h0 => ?_
  apply ends_read
  rintro ⟨fd, r⟩ hopen
  rcases kfdOpen_fds hopen with ⟨hgets, rfl, hfds⟩ | ⟨n, hgets, rfl, ho⟩
  · rw [hgets]
    exact ends_guard (by simpa using hfds) fun hne => absurd rfl hne
  · refine ends_ite (fun herr => absurd herr (by omega)) fun _ => ?_
    have htaken : ∃ n, Taken s.fds r.fds proc n := ⟨n, ho.place⟩
    apply ends_read
    intro st _
    cases st with
    | none => exact ends_some (by simpa [h0, hgets] using htaken)
    | some st => exact ends_some (by simpa [h0, hgets] using htaken)

/-! ## Sequences of calls -/

end Fs

/-- The calls that take a path and return no descriptor. -/
def NodeCall.byPath : NodeCall → Bool
  | .kfdOpen _ _ _ | .kfdClose _ => false
  | _ => true

namespace Fs

/-- The call keeps a descriptor: it is a `kstat` that gets one. -/
def keepsDescriptor (s : Fs) (proc : Nat) : NodeCall → Bool
  | .kstat path statPtr => decide (statPtr ≠ 0) && s.getsDescriptor proc path KVFS_O_RDONLY 0
  | _ => false

/-- What a call may do to the tables. -/
def TablesAfter (s : Fs) (proc : Nat) (c : NodeCall) (r : Fs) : Prop :=
  if s.keepsDescriptor proc c = true then ∃ n, Taken s.fds r.fds proc n else r.fds = s.fds

/-- **What one call by path does to the tables**: it takes one place if it keeps a descriptor, and
leaves them alone otherwise. -/
theorem nodeCall_fds (s : Fs) (proc : Nat) {c : NodeCall} (hc : c.byPath = true) :
    Ends (s.nodeCall proc c) (TablesAfter s proc c) := by
  have hsame {c : NodeCall} (hkeeps : s.keepsDescriptor proc c = false) {r : Fs}
      (hr : r.fds = s.fds) : TablesAfter s proc c r := by
    simpa [TablesAfter, hkeeps] using hr
  cases c with
  | kfdOpen | kfdClose => cases hc
  | kstat path statPtr =>
    apply (kstat_fds s proc path statPtr).map
    rintro ⟨code, st, r⟩ hr
    simpa [TablesAfter, keepsDescriptor] using hr
  | kmkdir path => exact (kmkdir_fds s proc path).map fun _ hr => hsame rfl hr
  | krmdir path => exact (krmdir_fds s path).map fun _ hr => hsame rfl hr
  | kvfsUnlink path => exact (kvfsUnlink_fds rfl path).map fun _ hr => hsame rfl hr
  | kvfsStat path statPtr =>
    exact (kvfsStat_fds rfl path statPtr).map fun _ hr => hsame rfl hr
  | kvfsChdir path => exact (kvfsChdir_fds rfl path).map fun _ hr => hsame rfl hr

/-- The call is not one of `proc` that keeps a descriptor. -/
def ReturnsDescriptor (proc : Nat) (s : Fs) (i : NodeInput) : Prop :=
  i.proc = proc → (s.withNodeInput i).keepsDescriptor proc i.call = false

instance (proc : Nat) (s : Fs) (i : NodeInput) : Decidable (ReturnsDescriptor proc s i) :=
  inferInstanceAs (Decidable (_ → _))

/-- A step does to the table of `proc` what the step of a call by path can do: nothing, unless it
is a call of `proc` that keeps a descriptor. -/
theorem nodeStep_fds {i : NodeInput} (hi : i.call.byPath = true) (hstep : s.nodeStep i = some r)
    (proc : Nat) : (ReturnsDescriptor proc s i ∧ r.fds proc = s.fds proc) ∨
      (¬ReturnsDescriptor proc s i ∧ ∃ n, Taken s.fds r.fds proc n) := by
  have hcall := (nodeCall_fds (s.withNodeInput i) i.proc hi).result r hstep
  unfold TablesAfter at hcall
  by_cases hproc : i.proc = proc
  · subst hproc
    split_ifs at hcall with hkeeps
    · exact Or.inr ⟨fun h => by simp [h rfl] at hkeeps, hcall⟩
    · exact Or.inl ⟨fun _ => by simpa using hkeeps, congrFun hcall _⟩
  · refine Or.inl ⟨fun h => absurd h hproc, ?_⟩
    split_ifs at hcall
    · obtain ⟨n, hn⟩ := hcall
      funext i'
      exact hn.rest proc i' fun h => hproc h.1.symm
    · exact congrFun hcall _

/-- No sequence of calls by path gives a place of a table back. -/
theorem run_taken {is : List NodeInput} (hpath : ∀ i ∈ is, i.call.byPath = true)
    (hrun : run nodeStep s is = some r) {proc fd : Nat} (hfd : s.fds proc fd ≠ 0) :
    r.fds proc fd = s.fds proc fd := by
  induction is generalizing s with
  | nil =>
    cases hrun
    rfl
  | cons i is ih =>
    obtain ⟨s₁, hstep, hrest⟩ := run_cons_some.1 hrun
    have hkept : s₁.fds proc fd = s.fds proc fd := by
      rcases nodeStep_fds (hpath i List.mem_cons_self) hstep proc with ⟨-, hsame⟩ | ⟨-, n, hn⟩
      · rw [hsame]
      · refine hn.rest proc fd ?_
        rintro ⟨-, rfl⟩
        exact hfd hn.empty
    rw [ih (fun j hj => hpath j (List.mem_cons_of_mem i hj)) hrest (by rwa [hkept]), hkept]

/-- **A sequence of calls by path leaves the descriptor table of a process as it found it exactly
if none of them is a `kstat` of that process that gets a descriptor.** -/
theorem table_unchanged_iff (s r : Fs) (is : List NodeInput)
    (hpath : ∀ i ∈ is, i.call.byPath = true) (hrun : run nodeStep s is = some r) (proc : Nat) :
    r.fds proc = s.fds proc ↔ Admissible nodeStep (ReturnsDescriptor proc) s is := by
  induction is generalizing s with
  | nil =>
    cases hrun
    exact ⟨fun _ => trivial, fun _ => rfl⟩
  | cons i is ih =>
    obtain ⟨s₁, hstep, hrest⟩ := run_cons_some.1 hrun
    have hpath' : ∀ j ∈ is, j.call.byPath = true := fun j hj => hpath j (List.mem_cons_of_mem i hj)
    have hrec := ih s₁ hpath' hrest
    rcases nodeStep_fds (hpath i List.mem_cons_self) hstep proc with
      ⟨hok, hsame⟩ | ⟨hkeeps, n, hn⟩
    · rw [hsame] at hrec
      constructor
      · intro h
        refine ⟨hok, fun t ht => ?_⟩
        obtain rfl := Option.some.inj (hstep.symm.trans ht)
        exact hrec.1 h
      · rintro ⟨-, hadm⟩
        exact hrec.2 (hadm s₁ hstep)
    · -- the place that the first call takes stays taken
      refine ⟨fun h => ?_, fun h => absurd h.1 hkeeps⟩
      have hlast := run_taken hpath' hrest hn.taken
      rw [h, hn.empty] at hlast
      exact absurd hlast.symm hn.taken

/-- Making and removing a directory leaves the table of the first process alone. -/
theorem table_unchanged_rmdir : ∃ r,
    run nodeStep mountedRoot (plainCalls [.kmkdir [slash, 0x64], .krmdir [slash, 0x64]]) = some r ∧
      r.fds 0 = mountedRoot.fds 0 := by
  have hends : (run nodeStep mountedRoot
      (plainCalls [.kmkdir [slash, 0x64], .krmdir [slash, 0x64]])).isSome = true := by
    decide +kernel
  obtain ⟨r, hrun⟩ := Option.isSome_iff_exists.1 hends
  exact ⟨r, hrun,
    (table_unchanged_iff mountedRoot r _ (by decide) hrun 0).2 (by decide +kernel)⟩

/-- `"/d"` is made, its metadata are asked for 32 times, and no descriptor is left to open it. -/
theorem kstat_exhausts_table : FreshMount mountedRoot ∧ ∃ r,
    run nodeStep mountedRoot (plainCalls (.kmkdir [slash, 0x64] ::
      List.replicate 32 (.kstat [slash, 0x64] 1))) = some r ∧
    r.fds 0 ≠ mountedRoot.fds 0 ∧
    ∃ r', r.kfdOpen 0 [slash, 0x64] KVFS_O_RDONLY 0 = some (KFD_ERROR, r') := by
  have hend : (run nodeStep mountedRoot (plainCalls (.kmkdir [slash, 0x64] ::
      List.replicate 32 (.kstat [slash, 0x64] 1)))).any (fun r => decide (r.fds 0 0 ≠ 0) &&
        (r.kfdOpen 0 [slash, 0x64] KVFS_O_RDONLY 0).any fun b => decide (b.1 = KFD_ERROR)) =
      true := by decide +kernel
  obtain ⟨r, hrun, hr⟩ := (Option.any_eq_true ..).1 hend
  obtain ⟨htaken, hopen⟩ := (Bool.and_eq_true _ _).mp hr
  obtain ⟨⟨fd, r'⟩, hr', hfd⟩ := (Option.any_eq_true ..).1 hopen
  obtain rfl : fd = KFD_ERROR := of_decide_eq_true hfd
  refine ⟨freshMount_mountedRoot, r, hrun, fun h => ?_, r', hr'⟩
  rw [h] at htaken
  exact absurd rfl (of_decide_eq_true htaken)

end Fs

end DelOs
