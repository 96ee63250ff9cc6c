import DelOs.Fs.DescriptorCalls
import DelOs.Fs.WholePath

/-!
# Entries in use

`ktmpfs_unlink` and `ktmpfs_rmdir` free an entry whatever still refers to it: neither counts the
descriptors and the working directory that stand for the entry.

* `EntriesLive` — the working directory and the open descriptors stand for entries that have not
  been freed.
* `removalTarget` — the entry that a removing call is going to free.
* `KeepsUsed` — nobody uses that entry; the call does not close the node of the working directory;
  a write keeps the data of its file.
* `entries_live_of_run` — **such calls free no entry in use**, over every run.
* `unlink_frees_open_file` — a file that is open can be unlinked.
-/

namespace DelOs

open Transition

/-- The descriptor that a call writes through, and the bytes. -/
def Call.writes? : Call → Option (Int × List UInt8)
  | .kfdWrite fd buffer => some (fd, buffer)
  | _ => none

namespace Fs

variable {s r : Fs} {t : OrderedTree Ptr}

/-! ## What stays allocated -/

/-- The working directory and each open descriptor have a node whose entry has not been freed. -/
structure EntriesLive (s : Fs) : Prop where
  cwd : ∃ n e, s.obj s.kvfsCwd = some (.node n) ∧ s.obj n.priv = some (.entry e)
  desc : ∀ proc fd, s.fds proc fd ≠ 0 → ∃ d n e, s.obj (s.fds proc fd) = some (.desc d) ∧
    s.obj d.node = some (.node n) ∧ s.obj n.priv = some (.entry e)

theorem UsesLive.entriesLive (hl : UsesLive s) (h : Mounted s t) : EntriesLive s := by
  constructor
  · obtain ⟨f, hf⟩ := h.cwd
    obtain ⟨e, he⟩ := hl f (Or.inl hf)
    exact ⟨newNode f, e, hf, entries_eq_some.1 he⟩
  · intro proc fd hfd
    obtain ⟨d, f, hd, -, hf, -⟩ := h.desc proc fd hfd
    obtain ⟨e, he⟩ := hl f (Or.inr ⟨proc, fd, d, hd, hf⟩)
    exact ⟨d, newNode f, e, hd, hf, entries_eq_some.1 he⟩

/-! ## What a call is going to remove -/

/-- The entry that a removal by path is going to free: the one that the lookup arrives at, if it is
of the right kind and the operation does not refuse it. -/
def removalTarget (s : Fs) (path : CString) (isKind : Nat → Bool) (refuses : TmpfsEntry → Bool) :
    Option Ptr := do
  let (node, r) ← s.kvfsLookupOpen path
  if node = 0 then none
  else
    let n ← r.nodeAt node
    let e ← r.entryAt n.priv
    if isKind e.stat.mode && !refuses e then some n.priv else none

/-- The entry that a call is going to free. -/
def removed? (s : Fs) : Call → Option Ptr
  | .kvfsUnlink path => s.removalTarget path kvfsStatIsReg fun _ => false
  | .krmdir path =>
      if refusedPath path then none else s.removalTarget path kvfsStatIsDir rmdirRefuses
  | _ => none

/-- `ktmpfs_rmdir` removes nothing that it refuses. -/
theorem rmdirRefuses_of_ktmpfsRmdir {node x : Ptr} {e : TmpfsEntry}
    (hnode : s.obj node = some (.node (newNode x))) (he : s.obj x = some (.entry e))
    (h : s.ktmpfsRmdir node = some (true, r)) : rmdirRefuses e = false := by
  have hpriv : (newNode x).priv = x := rfl
  by_contra hno
  have hrefused : ¬e.parent = 0 → ¬e.child = 0 := by simpa [rmdirRefuses] using hno
  simp only [ktmpfsRmdir, Option.bind_eq_bind, Option.pure_def, if_neg (ne_zero_of_obj hnode),
    nodeAt_of_obj hnode, Option.bind_some, hpriv, if_neg (ne_zero_of_obj he),
    entryAt_of_obj he] at h
  split_ifs at h with hparent hchild
  · cases h
  · cases h
  · exact hrefused hparent (not_not.1 hchild)

/-- An entry that is gone after a removal by path is the one it was going to free. -/
theorem removalTarget_of_gone (hs : Stands s t) {path : CString} {d : Ptr}
    (hd : StartsAt s path d) {isKind : Nat → Bool} {refuses : TmpfsEntry → Bool}
    {operation : Fs → Ptr → Option (Bool × Fs)} {removed : Bool} {x : Ptr}
    (hop : ∀ (r r' : Fs) (node x : Ptr) (e : TmpfsEntry), r.obj node = some (.node (newNode x)) →
      r.obj x = some (.entry e) → operation r node = some (true, r') → refuses e = false)
    (h : s.removeAt path isKind operation = some (removed, r))
    (hr : RemovesAt s r t (walkTree s.entries t d (pathNames path)) removed)
    (hx : s.entries x ≠ none) (hgone : r.entries x = none) :
    s.removalTarget path isKind refuses = some x := by
  obtain rfl := hr.gone_eq hx hgone
  obtain ⟨rfl, -⟩ | ⟨-, hsame⟩ := hr.2
  · obtain ⟨q, r₁, hlook, hopen, -⟩ :=
      kvfsLookupOpen_spec hs.tree hs.root_live hd.node hd.entry
    by_cases hq : q = 0
    · simp [removeAt, hlook, hq] at h
    obtain ⟨hnode, e, he⟩ := hopen.node hq
    have he₁ : r₁.obj (walkTree s.entries t d (pathNames path)) = some (.entry e) := by
      rw [← entries_eq_some, hopen.entries, he]
    have hpriv : (newNode (walkTree s.entries t d (pathNames path))).priv =
        walkTree s.entries t d (pathNames path) := rfl
    simp only [removeAt, hlook, Option.bind_eq_bind, Option.bind_some, if_neg hq, Option.pure_def,
      kvfsGetStat_refers (refers_newNode hnode) he₁, kvfsStatCanWrite_root, Bool.true_eq_false,
      if_false] at h
    split_ifs at h with hkind
    · cases h
    · obtain ⟨⟨done, r'⟩, hdone, h⟩ := Option.bind_eq_some_iff.1 h
      cases done with
      | false => cases h
      | true =>
        have hrefuses := hop r₁ r' q _ e hnode he₁ hdone
        simp [removalTarget, hlook, hq, nodeAt_of_obj hnode, hpriv, entryAt_of_obj he₁, hkind,
          hrefuses]
  · exact absurd (hsame ▸ hgone) hx

/-- A call that does not remove frees no entry. -/
theorem entry_stays (h : Mounted s t) (proc : Nat) {c : Call} (htree : c.onTree = true)
    (hok : CallOk s c) (hkeeps : c.removes = false) {result : Result}
    (hcall : s.call proc c = some (result, r)) {x : Ptr} (hx : s.entries x ≠ none) :
    r.entries x ≠ none := by
  obtain ⟨result', r', t', gone, fresh, hcall', heffect, -, -, hgone⟩ :=
    call_effect h proc htree hok
  obtain ⟨-, rfl⟩ : result' = result ∧ r' = r := by simpa [hcall'] using hcall
  obtain ⟨e, he⟩ := Option.ne_none_iff_exists'.1 hx
  have hne : x ≠ gone := hgone hkeeps ▸ ne_zero_of_obj (entries_eq_some.1 he)
  obtain ⟨e', he', -⟩ := heffect.change.kept he hne
  simp [he']

/-- **A call frees no entry but the one it was going to free.** -/
theorem call_removes (h : Mounted s t) (proc : Nat) {c : Call} (htree : c.onTree = true)
    (hok : CallOk s c) {result : Result} (hcall : s.call proc c = some (result, r)) {x : Ptr}
    (hx : s.entries x ≠ none) (hgone : r.entries x = none) : s.removed? c = some x := by
  have hstart := fun path hp => h.startsAt (hok.starts path hp)
  cases c with
  | kvfsUnlink path =>
    obtain ⟨d, hd⟩ := hstart path rfl
    obtain ⟨removed, r', hunlink, hr, -⟩ := kvfsUnlink_spec h.stands hd
    obtain ⟨-, rfl⟩ : Result.status removed = result ∧ r' = r := by
      simpa [call, hunlink] using hcall
    exact removalTarget_of_gone h.stands hd (fun _ _ _ _ _ _ _ _ => rfl) hunlink hr hx hgone
  | krmdir path =>
    by_cases hrefused : refusedPath path = true
    · obtain ⟨-, rfl⟩ : Result.code (-1) = result ∧ s = r := by
        simpa [call, krmdir, hrefused] using hcall
      exact absurd hgone hx
    · obtain ⟨d, hd⟩ := hstart path (by simp [Call.path?, hrefused])
      obtain ⟨removed, r', hrmdir, hr, -⟩ := kvfsRmdir_spec h.stands hd
      obtain ⟨-, rfl⟩ : Result.code (if removed then 0 else -1) = result ∧ r' = r := by
        simpa [call, krmdir, hrefused, hrmdir] using hcall
      rw [removed?, if_neg hrefused]
      exact removalTarget_of_gone h.stands hd
        (fun _ _ _ _ _ hnode he hop => rmdirRefuses_of_ktmpfsRmdir hnode he hop) hrmdir hr hx hgone
  | kfdOpen path flags mode => exact absurd hgone (entry_stays h proc htree hok rfl hcall hx)
  | kfdClose fd => exact absurd hgone (entry_stays h proc htree hok rfl hcall hx)
  | kfdRead fd len => cases htree
  | kfdWrite fd buffer => cases htree
  | kfdReaddir fd => cases htree
  | kmkdir path => exact absurd hgone (entry_stays h proc htree hok rfl hcall hx)
  | kvfsChdir path => exact absurd hgone (entry_stays h proc htree hok rfl hcall hx)
  | lookupOpenClose path => exact absurd hgone (entry_stays h proc htree hok rfl hcall hx)

/-! ## Runs -/

/-- The call frees no entry in use, does not close the node of the working directory, and a write
keeps the data of its file. -/
structure KeepsUsed (s : Fs) (i : Input) : Prop where
  unused : ∀ x ∈ (s.withInput i).removed? i.call, ¬s.InUse x
  cwd : CwdStays s i
  data : ∀ w ∈ i.call.writes?, WriteKeeps (s.withInput i) i.proc w.1 w.2

/-- What a run keeps. -/
structure UseInv (s : Fs) (t : OrderedTree Ptr) : Prop where
  mounted : Mounted s t
  live : UsesLive s
  files : FilesSound s

theorem Fresh.useInv {f : Ptr} (h : Fresh s f) : UseInv s (OrderedTree.single f) :=
  ⟨h.mounted, h.usesLive, h.filesSound⟩

theorem UseInv.withInput (h : UseInv s t) (i : Input) : UseInv (s.withInput i) t :=
  ⟨h.mounted.withInput i, h.live, ⟨h.files.content, h.files.apart⟩⟩

/-- A call through a descriptor keeps it. -/
theorem UseInv.rewritten (h : UseInv s t) (hr : Rewritten s r) (hfiles : FilesSound r) :
    UseInv r t :=
  ⟨h.mounted.rewritten hr, h.live.rewritten hr, hfiles⟩

/-- A call by path that frees no entry in use keeps it. -/
theorem UseInv.call (h : UseInv s t) (proc : Nat) {c : Call} (htree : c.onTree = true)
    (hok : CallOk s c) (hunused : ∀ x ∈ s.removed? c, ¬s.InUse x) :
    ∃ result r t', s.call proc c = some (result, r) ∧ UseInv r t' := by
  obtain ⟨result, r, t', gone, fresh, hcall, heffect, -⟩ := call_effect h.mounted proc htree hok
  refine ⟨result, r, t', hcall, heffect.mounted, h.live.effect heffect fun x hused hx hgone => ?_,
    h.files.effect heffect⟩
  exact hunused x (call_removes h.mounted proc htree hok hcall hx hgone) hused

/-- One call keeps it. -/
theorem UseInv.step (h : UseInv s t) {i : Input} (hi : KeepsUsed s i) :
    ∃ r t', step s i = some r ∧ UseInv r t' := by
  have hin := h.withInput i
  obtain ⟨result, r, t', hcall, hr⟩ : ∃ result r t',
      (s.withInput i).call i.proc i.call = some (result, r) ∧ UseInv r t' := by
    cases hc : i.call with
    | kfdRead fd len =>
      obtain ⟨bytes, r, hread, hrew, hfiles⟩ :=
        kfdRead_rewritten hin.mounted hin.live hin.files i.proc fd len
      exact ⟨.bytes bytes, r, t, by simp [Fs.call, hread], hin.rewritten hrew hfiles⟩
    | kfdWrite fd buffer =>
      obtain ⟨written, r, hwrite, hrew, hfiles⟩ :=
        kfdWrite_rewritten hin.mounted hin.live hin.files
          (hi.data (fd, buffer) (by rw [hc]; rfl))
      exact ⟨.count written, r, t, by simp [Fs.call, hwrite], hin.rewritten hrew hfiles⟩
    | kfdReaddir fd =>
      obtain ⟨out, r, hread, hrew, hfiles⟩ :=
        kfdReaddir_rewritten hin.mounted hin.live hin.files i.proc fd
      exact ⟨.dirent out, r, t, by simp [Fs.call, hread], hin.rewritten hrew hfiles⟩
    | kfdOpen _ _ _ | kfdClose _ | kmkdir _ | krmdir _ | kvfsUnlink _ | kvfsChdir _
    | lookupOpenClose _ =>
      rw [← hc]
      exact hin.call i.proc (by rw [hc]; rfl)
        ⟨fun path _ => hin.live.startsInUse hin.mounted path, hi.cwd⟩ hi.unused
  exact ⟨r, t', by simp [Fs.step, stepResult, hcall], hr⟩

/-- **No entry in use is freed** in any run in which no call removes an entry that a descriptor or
the working directory stands for, no `kvfs_open` closes the working directory, and each write gets
the room that it needs. -/
theorem entries_live_of_run (hs : FreshMount s) {is : List Input}
    (hadm : Admissible Fs.step KeepsUsed s is) : ∃ r, run Fs.step s is = some r ∧ EntriesLive r := by
  obtain ⟨f, hfresh⟩ := hs.stands
  obtain ⟨r, hrun, t, hr⟩ := run_total (P := fun r => ∃ t, UseInv r t)
    (fun r i ⟨_, hr⟩ hi => by
      obtain ⟨r', t', hstep, hr'⟩ := hr.step hi
      exact ⟨r', hstep, t', hr'⟩) ⟨_, hfresh.useInv⟩ hadm
  exact ⟨r, hrun, hr.live.entriesLive hr.mounted⟩

/-! ## Files that are closed and files that are not -/

/-- There is no node of the entry. -/
def noNode (s : Fs) (x : Ptr) : Bool :=
  (List.range (s.heap.length + 1)).all fun q => decide (s.obj q ≠ some (.node (newNode x)))

theorem not_inUse_of_noNode {x : Ptr} (h : s.noNode x = true) : ¬s.InUse x := by
  have hnone : ∀ q, s.obj q ≠ some (.node (newNode x)) := by
    intro q hq
    obtain ⟨b, hb, -⟩ := Option.map_eq_some_iff.1 (load_of_obj hq)
    have hlt : q < s.heap.length + 1 := Nat.lt_succ_of_le (FirstFit.get_bounds hb).2
    simpa [hq] using List.all_eq_true.1 h q (List.mem_range.2 hlt)
  rintro (hx | ⟨p, i, d, -, hx⟩)
  · exact hnone _ hx
  · exact hnone _ hx

theorem keepsUsed_of_noNode {i : Input}
    (h : (∀ x ∈ (s.withInput i).removed? i.call, s.noNode x = true) ∧ CwdStays s i ∧
      ∀ w ∈ i.call.writes?, WriteKeeps (s.withInput i) i.proc w.1 w.2) : KeepsUsed s i :=
  ⟨fun x hx => not_inUse_of_noNode (h.1 x hx), h.2.1, h.2.2⟩

/-- A file is written to, closed, and then unlinked. -/
theorem entries_live_of_run_closed : ∃ r, run Fs.step mountedRoot
    ([.kfdOpen [slash, 0x66] 0x42 0, .kfdWrite 0 [1, 2], .kfdClose 0,
      .kvfsUnlink [slash, 0x66]].map plainInput) = some r ∧ EntriesLive r :=
  entries_live_of_run freshMount_mountedRoot (Admissible.mono (fun _ _ h => keepsUsed_of_noNode h)
    (by decide +kernel))

/-- A file is unlinked before it is closed. -/
def unlinkOpen : List Input :=
  [.kfdOpen [slash, 0x66] 0x42 0, .kvfsUnlink [slash, 0x66]].map plainInput

/-- **The descriptor of a file that has been unlinked stands for an entry that has been freed.** -/
theorem unlink_frees_open_file : FreshMount mountedRoot ∧
    ∃ r, run Fs.step mountedRoot unlinkOpen = some r ∧ ¬EntriesLive r := by
  have hfreed : (run Fs.step mountedRoot unlinkOpen).any (fun r =>
      decide (r.fds 0 0 = 5) && decide (r.obj 5 = some (.desc ⟨4, 0, 0x42, 1⟩)) &&
        decide (r.obj 4 = some (.node (newNode 3))) && (r.obj 3).isNone) = true := by
    decide +kernel
  obtain ⟨r, hrun, hr⟩ := (Option.any_eq_true _ _).1 hfreed
  simp only [Bool.and_eq_true, decide_eq_true_eq, Option.isNone_iff_eq_none] at hr
  obtain ⟨⟨⟨hfd, hdesc⟩, hnode⟩, hgone⟩ := hr
  refine ⟨freshMount_mountedRoot, r, hrun, fun hlive => ?_⟩
  obtain ⟨d, n, e, hd, hn, he⟩ := hlive.desc 0 0 (by simp [hfd])
  rw [hfd, hdesc] at hd
  obtain rfl : ⟨4, 0, 0x42, 1⟩ = d := by simpa using hd
  rw [hnode] at hn
  obtain rfl : newNode 3 = n := by simpa using hn
  have hpriv : (newNode 3).priv = 3 := rfl
  rw [hpriv, hgone] at he
  cases he

end Fs

end DelOs
