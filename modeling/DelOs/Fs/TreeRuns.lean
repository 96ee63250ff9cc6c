import DelOs.Fs.Holders

/-!
# Runs of the calls by path

The calls that open, close, create, remove and change the working directory, one after the other.

* `Call.onTree`, `Call.path?`, `Call.opens?`, `Call.removes` — those calls, the path that one walks,
  what it hands to `kvfs_open`, and whether it may remove an entry.
* `CallOk` — the walk starts at an entry in use, and the node of the working directory is not
  closed.
* `call_effect`, `run_mounted` — **such calls keep the holders apart**, one call and a whole run.
* `nodes_live_of_run` — **the nodes of the holders stay in use**.
-/

namespace DelOs

open Transition

/-! ## What a call asks for -/

/-- The calls that do not read or write what a descriptor stands for. -/
def Call.onTree : Call → Bool
  | .kfdRead .. | .kfdWrite .. | .kfdReaddir .. => false
  | _ => true

/-- The path that a call walks. -/
def Call.path? : Call → Option CString
  | .kfdOpen path _ _ | .kvfsUnlink path | .kvfsChdir path | .lookupOpenClose path => some path
  | .kmkdir path | .krmdir path => if Fs.refusedPath path then none else some path
  | _ => none

/-- The path and the flags that a call hands to `kvfs_open`. -/
def Call.opens? : Call → Option (CString × Nat)
  | .kfdOpen path flags _ => some (path, flags)
  | .kmkdir path =>
      if Fs.refusedPath path then none
      else some (path, KVFS_O_CREAT ||| KVFS_O_DIRECTORY ||| KVFS_O_EXCL)
  | _ => none

/-- The call may remove an entry. -/
def Call.removes : Call → Bool
  | .krmdir _ | .kvfsUnlink _ => true
  | _ => false

/-- The call may make another directory the working directory. -/
def Call.movesCwd : Call → Bool
  | .kvfsChdir _ => true
  | _ => false

namespace Fs

variable {s r : Fs} {t : OrderedTree Ptr}

/-- The walk of the path starts at an entry that has not been freed. -/
def StartsInUse (s : Fs) (path : CString) : Prop :=
  kvfsIsAbsolutePath path = true ∨
    ((s.nodeAt s.kvfsCwd).any fun n => (s.entries n.priv).isSome) = true

instance (s : Fs) (path : CString) : Decidable (StartsInUse s path) :=
  inferInstanceAs (Decidable (_ ∨ _))

/-- The call walks from an entry in use, and does not close the node of the working directory. -/
structure CallOk (s : Fs) (c : Call) : Prop where
  starts : ∀ path ∈ c.path?, StartsInUse s path
  keepsCwd : ∀ o ∈ c.opens?, s.KeepsCwd o.1 o.2

instance (s : Fs) (c : Call) : Decidable (CallOk s c) :=
  decidable_of_iff ((∀ path ∈ c.path?, StartsInUse s path) ∧ ∀ o ∈ c.opens?, s.KeepsCwd o.1 o.2)
    ⟨fun h => ⟨h.1, h.2⟩, fun h => ⟨h.starts, h.keepsCwd⟩⟩

/-- A path that starts at an entry in use can be walked. -/
theorem Mounted.startsAt (h : Mounted s t) {path : CString} (hp : StartsInUse s path) :
    ∃ d, StartsAt s path d := by
  by_cases habs : kvfsIsAbsolutePath path = true
  · exact ⟨t.root, h.stands.startsAt habs⟩
  · obtain ⟨f, hf⟩ := h.cwd
    have hpriv : (newNode f).priv = f := rfl
    have huse : (s.entries f).isSome = true := by
      simpa [StartsInUse, habs, nodeAt_of_obj hf, hpriv] using hp
    refine ⟨f, ?_, Option.isSome_iff_exists.1 huse⟩
    rw [startNode, if_neg habs, hf]

/-- The root is always in use. -/
theorem Mounted.startsInUse_root (h : Mounted s t) (hroot : s.kvfsCwd = s.kvfsRootMountDir)
    (path : CString) : StartsInUse s path := by
  have hpriv : (newNode t.root).priv = t.root := rfl
  obtain ⟨e, he⟩ := (h.stands.tree.mem _).1 t.root_mem
  right
  rw [hroot, nodeAt_of_obj h.stands.root]
  simp [hpriv, he]

/-! ## One call -/

/-- **One call keeps the holders apart.**  A new entry is one that `kvfs_open` was asked to make,
and has the last name of the path; an entry goes only if the call removes. -/
theorem call_effect (h : Mounted s t) (proc : Nat) {c : Call} (htree : c.onTree = true)
    (hok : CallOk s c) :
    ∃ result r t' gone fresh, s.call proc c = some (result, r) ∧ Effect s r t t' gone fresh ∧
      (c.movesCwd = false → r.kvfsCwd = s.kvfsCwd) ∧
      (fresh ≠ 0 → ∃ o ∈ c.opens?, flagSet o.2 KVFS_O_CREAT = true ∧
        nameOf r.entries fresh = lastName o.1) ∧
      (c.removes = false → gone = 0) := by
  have hstart := fun path hp => h.startsAt (hok.starts path hp)
  cases c with
  | kfdOpen path flags mode =>
    obtain ⟨d, hd⟩ := hstart path rfl
    obtain ⟨fd, r, t', fresh, hopen, heffect, hnamed⟩ :=
      kfdOpen_effect h hd proc flags mode (hok.keepsCwd (path, flags) rfl)
    exact ⟨.code fd, r, t', 0, fresh, by simp [call, hopen], heffect.toEffect,
      fun _ => heffect.cwd, fun h0 => ⟨(path, flags), rfl, hnamed h0⟩, fun _ => rfl⟩
  | kfdClose fd =>
    obtain ⟨closed, r, hclose, heffect, -⟩ := kfdClose_effect h proc fd
    exact ⟨.status closed, r, t, 0, 0, by simp [call, hclose], heffect.toEffect,
      fun _ => heffect.cwd, fun h0 => absurd rfl h0, fun _ => rfl⟩
  | kfdRead fd len => cases htree
  | kfdWrite fd buffer => cases htree
  | kfdReaddir fd => cases htree
  | kmkdir path =>
    by_cases hrefused : refusedPath path = true
    · exact ⟨.code (-1), s, t, 0, 0, by simp [call, kmkdir, hrefused], (Stationary.refl h).toEffect,
        fun _ => rfl, fun h0 => absurd rfl h0, fun _ => rfl⟩
    · obtain ⟨d, hd⟩ := hstart path (by simp [Call.path?, hrefused])
      have hcreat : flagSet (KVFS_O_CREAT ||| KVFS_O_DIRECTORY ||| KVFS_O_EXCL) KVFS_O_CREAT =
          true := by decide
      have hopens : (path, KVFS_O_CREAT ||| KVFS_O_DIRECTORY ||| KVFS_O_EXCL) ∈
          (Call.kmkdir path).opens? := by simp [Call.opens?, hrefused]
      obtain ⟨code, r, t', fresh, hmk, heffect, hnamed⟩ :=
        kmkdir_effect h hd proc (Or.inr (hok.keepsCwd _ hopens))
      exact ⟨.code code, r, t', 0, fresh, by simp [call, hmk], heffect.toEffect,
        fun _ => heffect.cwd, fun h0 => ⟨_, hopens, hcreat, (hnamed h0).2⟩,
        fun _ => rfl⟩
  | krmdir path =>
    by_cases hrefused : refusedPath path = true
    · exact ⟨.code (-1), s, t, 0, 0, by simp [call, krmdir, hrefused], (Stationary.refl h).toEffect,
        fun _ => rfl, fun h0 => absurd rfl h0, fun _ => rfl⟩
    · obtain ⟨d, hd⟩ := hstart path (by simp [Call.path?, hrefused])
      obtain ⟨code, r, t', gone, hrm, heffect⟩ := krmdir_effect h hd
      exact ⟨.code code, r, t', gone, 0, by simp [call, hrm], heffect.toEffect,
        fun _ => heffect.cwd, fun h0 => absurd rfl h0, fun hkeeps => by cases hkeeps⟩
  | kvfsUnlink path =>
    obtain ⟨d, hd⟩ := hstart path rfl
    obtain ⟨removed, r, t', gone, hunlink, heffect⟩ := kvfsUnlink_effect h hd
    exact ⟨.status removed, r, t', gone, 0, by simp [call, hunlink], heffect.toEffect,
      fun _ => heffect.cwd, fun h0 => absurd rfl h0, fun hkeeps => by cases hkeeps⟩
  | kvfsChdir path =>
    obtain ⟨d, hd⟩ := hstart path rfl
    obtain ⟨code, r, hchdir, heffect⟩ := kvfsChdir_effect h hd
    exact ⟨.code code, r, t, 0, 0, by simp [call, hchdir], heffect,
      fun hmoves => absurd hmoves (by simp [Call.movesCwd]), fun h0 => absurd rfl h0, fun _ => rfl⟩
  | lookupOpenClose path =>
    obtain ⟨d, hd⟩ := hstart path rfl
    obtain ⟨q, r, r', hlook, hclose, heffect⟩ := lookupOpenClose_effect h hd
    exact ⟨.status (q ≠ 0), r', t, 0, 0, by simp [call, hlook, hclose], heffect.toEffect,
      fun _ => heffect.cwd, fun h0 => absurd rfl h0, fun _ => rfl⟩

/-! ## Runs -/

/-- The surroundings of a call are no part of what the holders hold. -/
theorem Mounted.withInput (h : Mounted s t) (i : Input) : Mounted (s.withInput i) t :=
  ⟨⟨h.stands.tree, h.stands.root⟩, h.cwd, h.desc, h.apart⟩

/-- The input is a call by path, and keeps the conditions of `CallOk`. -/
def StepOk (s : Fs) (i : Input) : Prop :=
  i.call.onTree = true ∧ CallOk (s.withInput i) i.call

instance (s : Fs) (i : Input) : Decidable (StepOk s i) := inferInstanceAs (Decidable (_ ∧ _))

/-- A fresh mount has one holder. -/
theorem Fresh.mounted {f : Ptr} (h : Fresh s f) : Mounted s (OrderedTree.single f) := by
  refine ⟨h.stands, ⟨f, ?_⟩, fun p i hp => ?_, fun p i p' i' d d' hd => ?_⟩
  · rw [h.cwd]
    exact h.stands.root
  · exact absurd (h.fds p i) hp
  · rw [h.fds] at hd
    exact absurd rfl (ne_zero_of_obj hd)

/-- **A run keeps the holders apart.** -/
theorem run_mounted (hs : Mounted s t) {is : List Input} (hadm : Admissible step StepOk s is) :
    ∃ r, run step s is = some r ∧ ∃ t', Mounted r t' := by
  apply run_total (P := fun r => ∃ t', Mounted r t') _ ⟨t, hs⟩ hadm
  rintro r i ⟨t', hr⟩ ⟨htree, hok⟩
  obtain ⟨result, r', t'', gone, fresh, hcall, heffect, -⟩ :=
    call_effect (hr.withInput i) i.proc htree hok
  exact ⟨r', by simp [step, stepResult, hcall], t'', heffect.mounted⟩

/-! ## Nodes in use -/

/-- The node of the working directory and those of the open descriptors are in use, each with a
reference. -/
structure NodesLive (s : Fs) : Prop where
  cwd : ∃ n, s.obj s.kvfsCwd = some (.node n) ∧ 1 ≤ n.refcount
  desc : ∀ proc fd, s.fds proc fd ≠ 0 → ∃ d n, s.obj (s.fds proc fd) = some (.desc d) ∧
    s.obj d.node = some (.node n) ∧ 1 ≤ n.refcount

theorem Mounted.nodesLive (h : Mounted s t) : NodesLive s := by
  refine ⟨?_, fun proc fd hfd => ?_⟩
  · obtain ⟨f, hf⟩ := h.cwd
    exact ⟨newNode f, hf, le_rfl⟩
  · obtain ⟨d, f, hd, -, hf, -⟩ := h.desc proc fd hfd
    exact ⟨d, newNode f, hd, hf, le_rfl⟩

/-- **The nodes of the working directory and of the descriptors stay in use** in every run in which
no `kvfs_open` closes the working directory and no walk starts at an entry that has been freed. -/
theorem nodes_live_of_run (hs : FreshMount s) {is : List Input}
    (hadm : Admissible step StepOk s is) : ∃ r, run step s is = some r ∧ NodesLive r := by
  obtain ⟨f, hfresh⟩ := hs.stands
  obtain ⟨r, hrun, t', hr⟩ := run_mounted hfresh.mounted hadm
  exact ⟨r, hrun, hr.nodesLive⟩

/-- A call of the first process, with all the memory there is. -/
def plainInput (c : Call) : Input := ⟨0, c, fun _ => true, fun _ => 0⟩

/-- `mkdir /d`, `chdir /d`, and an attempt to open `n` there. -/
def openMissing : List Input :=
  [plainInput (.kmkdir [slash, 0x64]), plainInput (.kvfsChdir [slash, 0x64]),
    plainInput (.kfdOpen [0x6e] 0 0)]

/-- **A file that is not there takes the working directory with it.** -/
theorem missing_file_frees_cwd :
    FreshMount mountedRoot ∧ ∃ r, run step mountedRoot openMissing = some r ∧ ¬NodesLive r := by
  have hgone : (run step mountedRoot openMissing).any
      (fun r => (r.obj r.kvfsCwd).isNone) = true := by decide +kernel
  obtain ⟨r, hrun, hr⟩ := (Option.any_eq_true _ _).1 hgone
  refine ⟨freshMount_mountedRoot, r, hrun, fun hlive => ?_⟩
  obtain ⟨n, hn, -⟩ := hlive.cwd
  rw [hn] at hr
  cases hr

/-- The same calls, with an absolute path. -/
theorem nodes_live_of_run_absolute : ∃ r, run step mountedRoot
    [plainInput (.kmkdir [slash, 0x64]), plainInput (.kvfsChdir [slash, 0x64]),
      plainInput (.kfdOpen [slash, 0x6e] 0 0)] = some r ∧ NodesLive r :=
  nodes_live_of_run freshMount_mountedRoot (by decide +kernel)

end Fs

end DelOs
