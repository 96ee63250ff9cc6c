import DelOs.Fs.TreeRuns
import DelOs.Sys.Syscall

/-!
# Nodes that nobody holds

A node that a call has looked up is given back, or gets a holder, on every way out of the call but
a few.

* `Fs.kvfsStat`, `NodeCall`, `Fs.nodeStep` — the calls by path, with `kstat` and `kvfs_stat`.
* `Held`, `NoLeak` — the holders of a node, and that each node in use has one.
* `openLeaks`, `removalLeaks`, `callLeaks` — the ways out that leave a node behind.
* `call_noLeak` — **any other way leaves none.**
* `no_leak_of_run`, `unlink_directory_leaks` — so does a run that takes no such way; and a run that
  takes one.
-/

namespace DelOs

open Transition

namespace Fs

variable {s r : Fs} {t : OrderedTree Ptr}

/-! ## Holders -/

/-- The root mount, the working directory or an open descriptor holds the node. -/
def Held (s : Fs) (q : Ptr) : Prop :=
  q = s.kvfsRootMountDir ∨ q = s.kvfsCwd ∨
    ∃ proc fd d, s.obj (s.fds proc fd) = some (.desc d) ∧ d.node = q

/-- Each node in use is held, but for `q`. -/
def HeldBut (s : Fs) (q : Ptr) : Prop := ∀ p n, s.obj p = some (.node n) → p = q ∨ s.Held p

/-- Each node in use is held. -/
def NoLeak (s : Fs) : Prop := ∀ p n, s.obj p = some (.node n) → s.Held p

theorem Held.keeps {q : Ptr} (h : s.Held q) (hk : Keeps s r) : r.Held q := by
  rcases h with rfl | rfl | ⟨proc, fd, d, hd, hq⟩
  · exact Or.inl hk.frame.root.symm
  · exact Or.inr (Or.inl hk.frame.cwd.symm)
  · refine Or.inr (Or.inr ⟨proc, fd, d, ?_, hq⟩)
    rw [hk.frame.fds]
    exact hk.other _ _ hd (by simp)

/-- A part of a call that makes the node `q`. -/
theorem NoLeak.heldBut (h : NoLeak s) (hk : Keeps s r) {q : Ptr} (hn : NewNodes s r q) :
    HeldBut r q := by
  intro p n hp
  rcases hn p n hp with hq | ⟨n', hp'⟩
  · exact Or.inl hq
  · exact Or.inr ((h p n' hp').keeps hk)

theorem HeldBut.noLeak (h : HeldBut s 0) : NoLeak s := fun p n hp =>
  (h p n hp).resolve_left (ne_zero_of_obj hp)

/-- A call that makes no node. -/
theorem NoLeak.keeps (h : NoLeak s) (hk : Keeps s r) (hn : NewNodes s r 0) : NoLeak r :=
  (h.heldBut hk hn).noLeak

/-! ## Descriptors -/

/-- The node gets a holder when it gets a descriptor. -/
theorem HeldBut.described {proc fd flags : Nat} {p q : Ptr} (h : HeldBut s q)
    (hd : Described s r proc fd p q flags) : NoLeak (r.setFd proc fd p) := by
  intro p' n hp'
  have hp' : r.obj p' = some (.node n) := hp'
  rw [hd.obj, Function.update_apply] at hp'
  split_ifs at hp' with hpp
  · cases hp'
  rcases h p' n hp' with rfl | hroot | hcwd | ⟨proc', fd', d, hdesc, hnode⟩
  · exact Or.inr (Or.inr ⟨proc, fd, _, hd.made, rfl⟩)
  · exact Or.inl (hroot.trans hd.keeps.frame.root.symm)
  · exact Or.inr (Or.inl (hcwd.trans hd.keeps.frame.cwd.symm))
  · refine Or.inr (Or.inr ⟨proc', fd', d, ?_, hnode⟩)
    have hne : ¬(proc' = proc ∧ fd' = fd) := by
      rintro ⟨rfl, rfl⟩
      rw [hd.empty] at hdesc
      exact ne_zero_of_obj hdesc rfl
    have hfds : (r.setFd proc fd p).fds proc' fd' = r.fds proc' fd' := if_neg hne
    rw [hfds, hd.keeps.frame.fds]
    exact hd.keeps.other _ _ hdesc (by simp)

/-- A descriptor goes with its node. -/
theorem NoLeak.closed {proc fd : Nat} {d : FileDesc} (h : NoLeak s) (hs : Mounted s t)
    (hd : s.obj (s.fds proc fd) = some (.desc d)) (hc : Closed s r proc fd d) : NoLeak r := by
  obtain ⟨d₀, f, hd₀, -, hf, -⟩ := hs.desc proc fd (ne_zero_of_obj hd)
  obtain rfl : d₀ = d := by simpa using hd₀.symm.trans hd
  intro p n hp
  obtain ⟨hps, hne, -⟩ := hc.back p _ hp
  rcases h p n hps with hroot | hcwd | ⟨proc', fd', d', hd', rfl⟩
  · exact Or.inl (hroot.trans hc.root.symm)
  · exact Or.inr (Or.inl (hcwd.trans hc.cwd.symm))
  · have hpi : ¬(proc' = proc ∧ fd' = fd) := by
      rintro ⟨rfl, rfl⟩
      rw [hd] at hd'
      cases hd'
      exact hne rfl
    exact Or.inr (Or.inr ⟨proc', fd', d', (hc.desc_stays hs hd hf hpi hd').1, rfl⟩)

/-- `kfd_open` leaves the node behind that it has opened: it gets no descriptor. -/
def openLeaks (s : Fs) (proc : Nat) (path : CString) (flags mode : Nat) : Bool :=
  (s.kvfsOpen path flags mode).any fun (node, r) => decide (node ≠ 0) && r.descRefused proc

theorem kfdOpen_noLeak (h : Mounted s t) (hl : NoLeak s) {path : CString} {d : Ptr}
    (hd : StartsAt s path d) {proc flags mode : Nat} (hk : s.KeepsCwd path flags)
    (hleak : s.openLeaks proc path flags mode = false) {fd : Int}
    (hopen : s.kfdOpen proc path flags mode = some (fd, r)) : NoLeak r := by
  obtain ⟨q, r₁, fresh, x, t', hkvfs, hopens, hkeeps⟩ := kvfsOpen_spec h.stands hd flags mode
  obtain ⟨f, hf⟩ := h.cwd
  have hheld : HeldBut r₁ q := hl.heldBut (hkeeps hk) (hopens.nodes ⟨_, hf⟩)
  by_cases hq : q = 0
  · simp only [kfdOpen, hkvfs, hq, Option.bind_eq_bind, Option.bind_some, if_true, Option.pure_def,
      Option.some.injEq, Prod.mk.injEq] at hopen
    obtain ⟨-, rfl⟩ := hopen
    subst hq
    exact hheld.noLeak
  · simp only [kfdOpen, hkvfs, hq, Option.bind_eq_bind, Option.bind_some, if_false,
      Option.pure_def, Option.some.injEq] at hopen
    have hgets : r₁.descRefused proc = false := by simpa [openLeaks, hkvfs, hq] using hleak
    rcases kfdCreateForProcess_spec r₁ proc flags hq with
      ⟨r₂, hrefused, -⟩ | ⟨fd', p, r₂, hmade, hdesc⟩
    · rw [hgets] at hrefused
      cases hrefused
    · rw [hmade] at hopen
      obtain ⟨-, rfl⟩ := Prod.mk.inj hopen
      exact hheld.described hdesc

theorem kfdClose_noLeak (h : Mounted s t) (hl : NoLeak s) {proc : Nat} {fd : Int} {closed : Bool}
    (hclose : s.kfdClose proc fd = some (closed, r)) : NoLeak r := by
  rcases kfdClose_spec h proc fd with hnone | ⟨d, r', hd, hdone, hc⟩
  · rw [hnone] at hclose
    cases hclose
    exact hl
  · rw [hdone] at hclose
    cases hclose
    exact hl.closed h hd hc

theorem kmkdir_noLeak (h : Mounted s t) (hl : NoLeak s) {path : CString} {d : Ptr}
    (hd : StartsAt s path d) {proc : Nat} (hrefused : refusedPath path = false)
    (hk : s.KeepsCwd path (KVFS_O_CREAT ||| KVFS_O_DIRECTORY ||| KVFS_O_EXCL))
    (hleak : s.openLeaks proc path (KVFS_O_CREAT ||| KVFS_O_DIRECTORY ||| KVFS_O_EXCL) 0o666 = false)
    {code : Int} (hmk : s.kmkdir proc path = some (code, r)) : NoLeak r := by
  obtain ⟨fd, r₁, t', fresh, hopen, heffect, -⟩ := kfdOpen_effect h hd proc
    (KVFS_O_CREAT ||| KVFS_O_DIRECTORY ||| KVFS_O_EXCL) 0o666 hk
  have hl₁ : NoLeak r₁ := kfdOpen_noLeak h hl hd hk hleak hopen
  simp only [kmkdir, hrefused, Bool.false_eq_true, if_false, hopen, Option.bind_eq_bind,
    Option.bind_some, Option.pure_def] at hmk
  split_ifs at hmk
  · cases hmk
    exact hl₁
  · obtain ⟨⟨closed, r₂⟩, hclose, hmk⟩ := Option.bind_eq_some_iff.1 hmk
    cases hmk
    exact kfdClose_noLeak heffect.mounted hl₁ hclose

/-! ## Nodes that are looked up -/

/-- A node that has been looked up is closed again. -/
theorem NoLeak.closeOpened {r' : Fs} {q f : Ptr} (h : NoLeak s) (hs : Stands s t)
    (hopen : Opened s r q f) (hnodes : NewNodes s r q) (htemp : Temp s q) (hq : q ≠ 0)
    (hclose : r.kvfsClose q = some r') : NoLeak r' := by
  obtain ⟨hnode, -⟩ := hopen.node hq
  obtain ⟨r₁, hclose₁, -, -, -, hkeeps⟩ := kvfsClose_live hnode
  obtain rfl : r₁ = r' := Option.some.inj (hclose₁.symm.trans hclose)
  refine h.keeps (hkeeps s hopen.keeps htemp) (hnodes.close hnode hclose fun hroot => ?_)
  rw [hroot, hopen.keeps.frame.root]
  exact ⟨_, hs.root⟩

/-- What is looked up is closed again, or takes the place of the working directory, which is
closed. -/
theorem kvfsChdir_noLeak (h : Mounted s t) (hl : NoLeak s) {path : CString} {d : Ptr}
    (hd : StartsAt s path d) {code : Int} (hchdir : s.kvfsChdir path = some (code, r)) :
    NoLeak r := by
  obtain ⟨q, r₁, hopen, hnodes, htemp, ⟨rfl, hcall⟩ | ⟨hq, hcall⟩ | ⟨hq, hcall, -⟩⟩ :=
    kvfsChdir_spec h hd
  · rw [hcall] at hchdir
    cases hchdir
    exact hl.keeps hopen.keeps hnodes
  · rw [hcall] at hchdir
    obtain ⟨r₂, hclose, hr⟩ := Option.map_eq_some_iff.1 hchdir
    cases hr
    exact hl.closeOpened h.stands hopen hnodes (htemp hq) hq hclose
  · have hmounted : Mounted r₁ t := h.kept hopen.keeps (.same hopen.entries (G := s.Granted))
    obtain ⟨r₂, hclose, hframe, hstay, hback, hgone⟩ := closeCwd_spec hmounted
    rw [hcall, hclose, Option.map_some] at hchdir
    cases hchdir
    intro p n hp
    rcases hl.heldBut hopen.keeps hnodes p n (hback p _ hp) with
      rfl | hroot | hcwd | ⟨proc, fd, d', hd', hp'⟩
    · exact Or.inr (Or.inl rfl)
    · exact Or.inl (hroot.trans hframe.root.symm)
    · -- the old working directory is closed, unless it is the root
      rcases hgone with hroot | hdead
      · exact Or.inl ((hcwd.trans hroot).trans hframe.root.symm)
      · have hp₂ : r₂.obj p = some (.node n) := hp
        rw [hcwd, hdead] at hp₂
        cases hp₂
    · refine Or.inr (Or.inr ⟨proc, fd, d', ?_, hp'⟩)
      show r₂.obj (r₂.fds proc fd) = some (.desc d')
      rw [hframe.fds]
      refine hstay _ _ hd' (Or.inl ?_)
      obtain ⟨f, hf⟩ := hmounted.cwd
      intro heq
      rw [heq, hf] at hd'
      cases hd'

/-- A lookup and a close leave no node. -/
theorem lookupOpenClose_noLeak (h : Mounted s t) (hl : NoLeak s) {path : CString} {d : Ptr}
    (hd : StartsAt s path d) {q : Ptr} {r₁ : Fs} (hlook : s.kvfsLookupOpen path = some (q, r₁))
    (hclose : r₁.kvfsClose q = some r) : NoLeak r := by
  obtain ⟨q', r', hlook', hopen, hnodes, htemp, -⟩ :=
    kvfsLookupOpen_part h.stands.tree s.includes_entries h.stands.root_live hd.node hd.entry
  rw [hlook'] at hlook
  obtain ⟨rfl, rfl⟩ := Prod.mk.inj (Option.some.inj hlook)
  by_cases hq : q' = 0
  · subst hq
    simp only [kvfsClose, true_or, if_true, Option.pure_def, Option.some.injEq] at hclose
    subst hclose
    exact hl.keeps hopen.keeps hnodes
  · exact hl.closeOpened h.stands hopen hnodes (htemp hq) hq hclose

/-! ## One call -/

/-- The ways out of a call that leave a node behind. -/
def callLeaks (s : Fs) (proc : Nat) : Call → Bool
  | .kfdOpen path flags mode => s.openLeaks proc path flags mode
  | .kmkdir path => !refusedPath path &&
      s.openLeaks proc path (KVFS_O_CREAT ||| KVFS_O_DIRECTORY ||| KVFS_O_EXCL) 0o666
  | .krmdir path => !refusedPath path && s.removalLeaks path kvfsStatIsDir rmdirRefuses
  | .kvfsUnlink path => s.removalLeaks path kvfsStatIsReg fun _ => false
  | _ => false

/-- **A call that takes none of those ways leaves no node behind.** -/
theorem call_noLeak (h : Mounted s t) (hl : NoLeak s) {proc : Nat} {c : Call}
    (htree : c.onTree = true) (hok : CallOk s c) (hleak : s.callLeaks proc c = false)
    {result : Result} (hcall : s.call proc c = some (result, r)) : NoLeak r := by
  have hstart := fun path hp => h.startsAt (hok.starts path hp)
  cases c with
  | kfdOpen path flags mode =>
    obtain ⟨d, hd⟩ := hstart path rfl
    obtain ⟨⟨fd, r'⟩, hopen, hr⟩ := Option.map_eq_some_iff.1 hcall
    cases hr
    exact kfdOpen_noLeak h hl hd (hok.keepsCwd (path, flags) rfl) hleak hopen
  | kfdClose fd =>
    obtain ⟨⟨closed, r'⟩, hclose, hr⟩ := Option.map_eq_some_iff.1 hcall
    cases hr
    exact kfdClose_noLeak h hl hclose
  | kfdRead fd len => cases htree
  | kfdWrite fd buffer => cases htree
  | kfdReaddir fd => cases htree
  | kmkdir path =>
    obtain ⟨⟨code, r'⟩, hmk, hr⟩ := Option.map_eq_some_iff.1 hcall
    cases hr
    cases hrefused : refusedPath path with
    | true =>
      rw [kmkdir, hrefused] at hmk
      cases hmk
      exact hl
    | false =>
      obtain ⟨d, hd⟩ := hstart path (by simp [Call.path?, hrefused])
      exact kmkdir_noLeak h hl hd hrefused
        (hok.keepsCwd (path, _) (by simp [Call.opens?, hrefused]))
        (by simpa [callLeaks, hrefused] using hleak) hmk
  | krmdir path =>
    obtain ⟨⟨code, r'⟩, hrm, hr⟩ := Option.map_eq_some_iff.1 hcall
    cases hr
    cases hrefused : refusedPath path with
    | true =>
      rw [krmdir, hrefused] at hrm
      cases hrm
      exact hl
    | false =>
      obtain ⟨d, hd⟩ := hstart path (by simp [Call.path?, hrefused])
      obtain ⟨removed, r₁, hrmdir, hrem, hnodes⟩ := kvfsRmdir_spec h.stands hd
      rw [krmdir, hrefused, hrmdir] at hrm
      cases hrm
      exact hl.keeps hrem.1 (hnodes (by simpa [callLeaks, hrefused] using hleak))
  | kvfsUnlink path =>
    obtain ⟨d, hd⟩ := hstart path rfl
    obtain ⟨removed, r₁, hunlink, hrem, hnodes⟩ := kvfsUnlink_spec h.stands hd
    rw [call, hunlink] at hcall
    cases hcall
    exact hl.keeps hrem.1 (hnodes hleak)
  | kvfsChdir path =>
    obtain ⟨d, hd⟩ := hstart path rfl
    obtain ⟨⟨code, r'⟩, hchdir, hr⟩ := Option.map_eq_some_iff.1 hcall
    cases hr
    exact kvfsChdir_noLeak h hl hd hchdir
  | lookupOpenClose path =>
    obtain ⟨d, hd⟩ := hstart path rfl
    obtain ⟨⟨q, r₁⟩, hlook, hcall⟩ := Option.bind_eq_some_iff.1 hcall
    obtain ⟨r₂, hclose, hcall⟩ := Option.bind_eq_some_iff.1 hcall
    cases hcall
    exact lookupOpenClose_noLeak h hl hd hlook hclose

/-! ## Metadata -/

/-- `kvfs_stat`: its result, and what it stores in the buffer. -/
def kvfsStat (s : Fs) (path : CString) (statPtr : Ptr) : Option (Bool × Option VfsStat × Fs) := do
  if statPtr = 0 then return (false, none, s)
  let (node, s) ← s.kvfsLookupOpen path
  if node = 0 then return (false, none, s)
  let st ← s.kvfsStatFromNode node
  return (st.isSome, st, ← s.kvfsClose node)

/-- What `kfd_open` returns is the descriptor of a file that has metadata. -/
theorem kfdOpen_stat (h : Mounted s t) {path : CString} {d : Ptr} (hd : StartsAt s path d)
    {proc flags mode : Nat} {fd : Int} (hopen : s.kfdOpen proc path flags mode = some (fd, r))
    (hfd : fd ≠ KFD_ERROR) : ∃ st, r.kfdStat proc fd = some (some st) := by
  obtain ⟨q, r₁, fresh, x, t', hkvfs, hopens, -⟩ := kvfsOpen_spec h.stands hd flags mode
  by_cases hq : q = 0
  · simp only [kfdOpen, hkvfs, hq, Option.bind_eq_bind, Option.bind_some, if_true, Option.pure_def,
      Option.some.injEq, Prod.mk.injEq] at hopen
    exact absurd hopen.1.symm hfd
  simp only [kfdOpen, hkvfs, hq, Option.bind_eq_bind, Option.bind_some, if_false, Option.pure_def,
    Option.some.injEq] at hopen
  obtain ⟨hnode, ⟨e, he⟩, -⟩ := hopens.node hq
  rcases kfdCreateForProcess_spec r₁ proc flags hq with
    ⟨r₂, -, hnone, -⟩ | ⟨fd', p, r₂, hmade, hdesc⟩
  · rw [hnone] at hopen
    exact absurd (Prod.mk.inj hopen).1.symm hfd
  · rw [hmade] at hopen
    obtain ⟨rfl, rfl⟩ := Prod.mk.inj hopen
    have hget : (r₂.setFd proc fd' p).kfdGet proc fd' = p := by
      have hbound := hdesc.bound
      simp [kfdGet, setFd, hbound]
    have hobj : (r₂.setFd proc fd' p).obj p = some (.desc ⟨q, 0, flags, 1⟩) := by
      show r₂.obj p = _
      rw [hdesc.obj, Function.update_self]
    have hrec := descAt_of_obj hobj
    have hstat : (r₂.setFd proc fd' p).kvfsStatFromNode q = some (some e.stat) :=
      kvfsStatFromNode_newNode (x := x) (hdesc.keeps.other _ _ hnode (by simp))
        ((congrFun hdesc.entries x).trans he)
    exact ⟨e.stat, by simp [kfdStat, hget, ne_zero_of_obj hobj, hrec, hq, hstat]⟩

/-! ## Runs -/

end Fs

/-- The calls by path, with those that ask for metadata. -/
inductive NodeCall
  | kfdOpen (path : CString) (flags mode : Nat)
  | kfdClose (fd : Int)
  | kstat (path : CString) (statPtr : Ptr)
  | kmkdir (path : CString)
  | krmdir (path : CString)
  | kvfsUnlink (path : CString)
  | kvfsStat (path : CString) (statPtr : Ptr)
  | kvfsChdir (path : CString)
  deriving DecidableEq, Repr

/-- The call that does to the records what this one does: to ask for the metadata of a file is to
open it. -/
def NodeCall.inner : NodeCall → Option Call
  | .kfdOpen path flags mode => some (.kfdOpen path flags mode)
  | .kfdClose fd => some (.kfdClose fd)
  | .kstat path statPtr => if statPtr = 0 then none else some (.kfdOpen path KVFS_O_RDONLY 0)
  | .kmkdir path => some (.kmkdir path)
  | .krmdir path => some (.krmdir path)
  | .kvfsUnlink path => some (.kvfsUnlink path)
  | .kvfsStat path statPtr => if statPtr = 0 then none else some (.lookupOpenClose path)
  | .kvfsChdir path => some (.kvfsChdir path)

theorem NodeCall.onTree_of_inner {c : NodeCall} {c' : Call} (h : c.inner = some c') :
    c'.onTree = true := by
  cases c with
  | kstat path statPtr | kvfsStat path statPtr =>
    simp only [NodeCall.inner] at h
    split_ifs at h
    cases h
    rfl
  | _ =>
    cases h
    rfl

/-- A call of a process, with the answers of the page layers and the bytes that lie about. -/
structure NodeInput where
  proc : Nat
  call : NodeCall
  pages : Nat → Bool
  junk : Nat → UInt8

namespace Fs

variable {s r : Fs} {t : OrderedTree Ptr}

/-- One call, its result left out. -/
def nodeCall (s : Fs) (proc : Nat) : NodeCall → Option Fs
  | .kfdOpen path flags mode => (s.kfdOpen proc path flags mode).map Prod.snd
  | .kfdClose fd => (s.kfdClose proc fd).map Prod.snd
  | .kstat path statPtr => (s.kstat proc path statPtr).map fun (_, _, s) => s
  | .kmkdir path => (s.kmkdir proc path).map Prod.snd
  | .krmdir path => (s.krmdir path).map Prod.snd
  | .kvfsUnlink path => (s.kvfsUnlink path).map Prod.snd
  | .kvfsStat path statPtr => (s.kvfsStat path statPtr).map fun (_, _, s) => s
  | .kvfsChdir path => (s.kvfsChdir path).map Prod.snd

/-- The state with the surroundings of an input. -/
def withNodeInput (s : Fs) (i : NodeInput) : Fs := { s with pages := i.pages, junk := i.junk }

/-- One call in its surroundings. -/
def nodeStep (s : Fs) (i : NodeInput) : Option Fs := (s.withNodeInput i).nodeCall i.proc i.call

/-- What a call does to the records. -/
theorem nodeCall_inner (h : Mounted s t) (proc : Nat) {c : NodeCall}
    (hok : ∀ c' ∈ c.inner, CallOk s c') :
    s.nodeCall proc c = match c.inner with
      | none => some s
      | some c' => (s.call proc c').map Prod.snd := by
  cases c with
  | kstat path statPtr =>
    by_cases hptr : statPtr = 0
    · simp [nodeCall, kstat, NodeCall.inner, hptr]
    · have hinner : (NodeCall.kstat path statPtr).inner =
          some (.kfdOpen path KVFS_O_RDONLY 0) := if_neg hptr
      have hok' := hok _ hinner
      obtain ⟨d, hd⟩ := h.startsAt (hok'.starts path rfl)
      obtain ⟨fd, r, t', fresh, hopen, -⟩ :=
        kfdOpen_effect h hd proc KVFS_O_RDONLY 0 (hok'.keepsCwd _ rfl)
      rw [hinner]
      by_cases hfd : fd = -1
      · simp [nodeCall, kstat, call, hptr, hopen, hfd]
      · obtain ⟨st, hstat⟩ := kfdOpen_stat h hd hopen hfd
        simp [nodeCall, kstat, call, hptr, hopen, hfd, hstat]
  | kvfsStat path statPtr =>
    by_cases hptr : statPtr = 0
    · simp [nodeCall, kvfsStat, NodeCall.inner, hptr]
    · have hinner : (NodeCall.kvfsStat path statPtr).inner = some (.lookupOpenClose path) :=
        if_neg hptr
      obtain ⟨d, hd⟩ := h.startsAt ((hok _ hinner).starts path rfl)
      obtain ⟨q, r, hlook, hopen, -⟩ :=
        kvfsLookupOpen_spec h.stands.tree h.stands.root_live hd.node hd.entry
      rw [hinner]
      by_cases hq : q = 0
      · simp [nodeCall, kvfsStat, call, hptr, hlook, hq, kvfsClose]
      · obtain ⟨hnode, e, he⟩ := hopen.node hq
        have hstat := kvfsStatFromNode_newNode hnode (by rw [hopen.entries, he])
        obtain ⟨r', hclose, -⟩ := kvfsClose_live hnode
        simp [nodeCall, kvfsStat, call, hptr, hlook, hq, hstat, hclose]
  | _ => simp [nodeCall, call, NodeCall.inner, Function.comp_def]

/-- The call leaves no node behind, and keeps the conditions of `CallOk`. -/
def NodeStepOk (s : Fs) (i : NodeInput) : Prop :=
  ∀ c ∈ i.call.inner, CallOk (s.withNodeInput i) c ∧
    (s.withNodeInput i).callLeaks i.proc c = false

instance (s : Fs) (i : NodeInput) : Decidable (NodeStepOk s i) :=
  inferInstanceAs (Decidable (∀ c ∈ i.call.inner, _))

/-- A mount makes the node that it returns. -/
theorem ktmpfsMount_newNodes {loc : CString} {node : Ptr} (h : s.ktmpfsMount loc = (node, r)) :
    NewNodes s r node := by
  rcases hroot : s.createRootEntry loc with ⟨f, s₁⟩
  have hsize : 0 < sizeofTmpfsEntry ∧ sizeofTmpfsEntry ≤ 2 ^ 29 := by decide
  have hentry : Alloc s s₁ f (.entry (newEntry loc 0 0 (0o755 ||| KVFS_STAT_IFDIR))) :=
    new_alloc hsize.1 hsize.2 hroot
  have hfirst : NewNodes s s₁ 0 := hentry.newNodes (by simp)
  by_cases hf : f = 0
  · simp only [ktmpfsMount, hroot, hf, if_true, Prod.mk.injEq] at h
    obtain ⟨rfl, rfl⟩ := h
    exact hfirst
  rcases hnode : s₁.ktmpfsCreateVfsNode f with ⟨n, s₂⟩
  have hsecond : NewNodes s₁ s₂ n := by
    have hmade := ktmpfsCreateVfsNode_spec (s := s₁) hf
    rw [hnode] at hmade
    exact hmade.newNode
  simp only [ktmpfsMount, hroot, hf, hnode, if_false] at h
  split_ifs at h with hn
  · obtain ⟨rfl, rfl⟩ := Prod.mk.inj h
    rw [hn] at hsecond
    exact hfirst.trans (hsecond.trans (newNodes_kfree _ _))
  · obtain ⟨rfl, rfl⟩ := Prod.mk.inj h
    exact hfirst.trans hsecond

/-- The node of a fresh mount is the root's. -/
theorem FreshMount.noLeak (h : FreshMount s) : NoLeak s := by
  obtain ⟨s₀, hraw, -, hmount⟩ := h
  rcases hroot : s₀.ktmpfsMount [slash] with ⟨node, s₁⟩
  simp only [kvfsMount, hroot] at hmount
  split_ifs at hmount
  cases hmount
  intro p n hp
  rcases ktmpfsMount_newNodes hroot p n hp with hnode | ⟨n', hp'⟩
  · exact Or.inl hnode
  · cases hraw p _ hp'

/-- **No node leaks** in a run in which every removal by path removes what it has looked up, every
file opened gets a descriptor, and the working directory stays in use. -/
theorem no_leak_of_run (hs : FreshMount s) {is : List NodeInput}
    (hadm : Admissible nodeStep NodeStepOk s is) : ∃ r, run nodeStep s is = some r ∧ NoLeak r := by
  obtain ⟨f, hfresh⟩ := hs.stands
  have hrun := run_total (P := fun r => ∃ t', Mounted r t' ∧ NoLeak r) ?_
    ⟨_, hfresh.mounted, hs.noLeak⟩ hadm
  · obtain ⟨r, hr, -, -, hl⟩ := hrun
    exact ⟨r, hr, hl⟩
  · rintro r i ⟨t', hr, hl⟩ hok
    have hr' : Mounted (r.withNodeInput i) t' :=
      ⟨⟨hr.stands.tree, hr.stands.root⟩, hr.cwd, hr.desc, hr.apart⟩
    have hl' : NoLeak (r.withNodeInput i) := hl
    rw [nodeStep, nodeCall_inner hr' i.proc fun c hc => (hok c hc).1]
    cases hc : i.call.inner with
    | none => exact ⟨_, rfl, t', hr', hl'⟩
    | some c =>
      obtain ⟨hcall, hleak⟩ := hok c hc
      have htree := NodeCall.onTree_of_inner hc
      obtain ⟨result, r', t'', gone, fresh, hdone, heffect, -⟩ :=
        call_effect hr' i.proc htree hcall
      exact ⟨r', by simp [hdone], t'', heffect.mounted,
        call_noLeak hr' hl' htree hcall hleak hdone⟩

/-- The calls of the first process, with all the memory there is. -/
def plainCalls (cs : List NodeCall) : List NodeInput := cs.map (⟨0, ·, fun _ => true, fun _ => 0⟩)

/-- `mkdir`, `stat` and `rmdir` of one directory leave no node. -/
theorem no_leak_of_run_rmdir : ∃ r, run nodeStep mountedRoot
    (plainCalls [.kmkdir [slash, 0x64], .kstat [slash, 0x64] 1, .krmdir [slash, 0x64]]) = some r ∧
      NoLeak r :=
  no_leak_of_run freshMount_mountedRoot (by decide +kernel)

/-- **To unlink a directory leaves its node behind**, here that of `"/."`. -/
theorem unlink_directory_leaks : FreshMount mountedRoot ∧ ∃ r,
    run nodeStep mountedRoot (plainCalls [.kvfsUnlink [slash, 0x2e]]) = some r ∧ ¬NoLeak r := by
  obtain ⟨f, hfresh⟩ := freshMount_mountedRoot.stands
  obtain ⟨removed, r, hunlink, ⟨hkeeps, -⟩, -⟩ :=
    kvfsUnlink_spec hfresh.stands (hfresh.stands.startsAt
      (show kvfsIsAbsolutePath [slash, 0x2e] = true from rfl))
  have hnode : (mountedRoot.kvfsUnlink [slash, 0x2e]).any
      (fun unlinked => unlinked.2.obj 3 = some (.node (newNode 1))) = true := by decide +kernel
  have hlive : r.obj 3 = some (.node (newNode 1)) := by simpa [hunlink] using hnode
  have hrun : run nodeStep mountedRoot (plainCalls [.kvfsUnlink [slash, 0x2e]]) = some r := by
    have hstep : nodeStep mountedRoot ⟨0, .kvfsUnlink [slash, 0x2e], fun _ => true, fun _ => 0⟩ =
        (mountedRoot.kvfsUnlink [slash, 0x2e]).map Prod.snd := rfl
    simp [plainCalls, run, hstep, hunlink]
  refine ⟨freshMount_mountedRoot, r, hrun, fun hl => ?_⟩
  rcases hl 3 _ hlive with hroot | hcwd | ⟨proc, fd, d, hd, -⟩
  · exact absurd (hroot.trans hkeeps.frame.root) (by decide)
  · exact absurd (hcwd.trans hkeeps.frame.cwd) (by decide)
  · rw [hkeeps.frame.fds] at hd
    exact ne_zero_of_obj hd rfl

end Fs

end DelOs
