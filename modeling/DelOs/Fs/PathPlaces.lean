import DelOs.Fs.PathOpen

/-!
# What a state of the file system stands for

The relation between the records on the heap and the files by path, and what keeps it.

* `KeepsRaw` — what belongs to other callers of the allocator stays.
* `StandsFor` — a place of a descriptor table stands for an open file.
* `Places` — **the entries hold the tree, the working directory and the descriptors are where the
  paths say**, no file is read or written behind its end.
* `Enlarges` — no file gets shorter.
* `Places.change`, `Places.setOffset`, `Places.described`, `Places.closed`, `Places.setCwd` — the
  steps that the calls are made of.
-/

namespace DelOs

open FirstFit PathTree

/-- No file gets shorter, and all can be allocated. -/
def Enlarges (F F' : PathTree CString (List UInt8)) : Prop :=
  ∀ path bytes', F' path = some (.file bytes') → bytes'.length < 2 ^ 29 ∧
    (F path = none ∨ ∃ bytes, F path = some (.file bytes) ∧ bytes.length ≤ bytes'.length)

namespace PathFs

variable {A : PathFs} {proc fd : Nat}

theorem setFile_files (o : Option OpenFile) (p i : Nat) :
    (A.setFile proc fd o).files p i = if p = proc ∧ i = fd then o else A.files p i := rfl

@[simp] theorem setFile_tree (o : Option OpenFile) : (A.setFile proc fd o).tree = A.tree := rfl

@[simp] theorem setFile_list (o : Option OpenFile) : (A.setFile proc fd o).list = A.list := rfl

@[simp] theorem setFile_cwd (o : Option OpenFile) : (A.setFile proc fd o).cwd = A.cwd := rfl

@[simp] theorem setFile_setFile (o o' : Option OpenFile) :
    (A.setFile proc fd o).setFile proc fd o' = A.setFile proc fd o' := by
  simp only [setFile, mk.injEq, true_and]
  funext p i
  split_ifs <;> rfl

@[simp] theorem setFile_self : A.setFile proc fd (A.files proc fd) = A := by
  have hfiles : (A.setFile proc fd (A.files proc fd)).files = A.files := by
    funext p i
    rw [setFile_files]
    split_ifs with h
    · rw [h.1, h.2]
    · rfl
  cases A
  simpa [setFile] using hfiles

end PathFs

namespace Fs

variable {s r : Fs} {t t' : OrderedTree Ptr} {A B : PathFs}

/-- The blocks that other callers of the allocator have stay as they are. -/
def KeepsRaw (s r : Fs) : Prop := ∀ q, s.obj q = some .raw → r.obj q = some .raw

theorem KeepsRaw.refl (s : Fs) : KeepsRaw s s := fun _ hq => hq

theorem KeepsRaw.trans {u : Fs} (h : KeepsRaw s r) (h' : KeepsRaw r u) : KeepsRaw s u :=
  fun q hq => h' q (h q hq)

theorem Keeps.raw (h : Keeps s r) : KeepsRaw s r := fun q hq => h.other q _ hq (by simp)

theorem keepsRaw_put {p : Ptr} {o : Obj} (hp : s.obj p = some o) (ho : o ≠ .raw) (o' : Obj) :
    KeepsRaw s (s.put p o') := by
  intro q hq
  rw [obj_put (by simp [hp]), Function.update_of_ne, hq]
  rintro rfl
  rw [hp] at hq
  exact ho (Option.some.inj hq)

/-- A place of a descriptor table stands for an open file. -/
structure StandsFor (s : Fs) (t : OrderedTree Ptr) (proc fd : Nat) (o : OpenFile) (d : FileDesc)
    (x : Ptr) : Prop where
  desc : s.obj (s.fds proc fd) = some (.desc d)
  node : s.obj d.node = some (.node (newNode x))
  path : s.At t o.path x
  offset : d.offset = o.offset
  flags : d.flags = o.flags

/-- The state stands for the files by path. -/
structure Places (s : Fs) (t : OrderedTree Ptr) (A : PathFs) : Prop extends Mirrors s t A where
  cwd : ∃ x, s.obj s.kvfsCwd = some (.node (newNode x)) ∧ s.At t A.cwd x
  cwdDir : A.tree A.cwd = some .dir
  unused : ∀ p i, A.files p i = none → s.fds p i = 0
  opened : ∀ p i o, A.files p i = some o → ∃ d x, StandsFor s t p i o d x
  within : ∀ p i o bytes, A.files p i = some o → A.tree o.path = some (.file bytes) →
    o.offset ≤ bytes.length
  small : ∀ path bytes, A.tree path = some (.file bytes) → bytes.length < 2 ^ 29

namespace Places

theorem fds_eq_zero (h : Places s t A) {p i : Nat} : s.fds p i = 0 ↔ A.files p i = none := by
  refine ⟨fun h0 => ?_, h.unused p i⟩
  by_contra hne
  obtain ⟨o, ho⟩ := Option.ne_none_iff_exists'.1 hne
  obtain ⟨d, x, hd⟩ := h.opened p i o ho
  exact ne_zero_of_obj hd.desc h0

/-- An open file is there. -/
theorem opened_ne_none (h : Places s t A) {p i : Nat} {o : OpenFile} (ho : A.files p i = some o) :
    A.tree o.path ≠ none := by
  obtain ⟨d, x, hd⟩ := h.opened p i o ho
  exact h.rep.at_ne_none hd.path

/-- The first free place of a table. -/
theorem freeFd_eq (h : Places s t A) (proc : Nat) :
    A.freeFd proc = (List.range KFD_MAX_COUNT).find? fun fd => s.fds proc fd = 0 := by
  unfold PathFs.freeFd
  congr 1
  funext fd
  rw [Bool.eq_iff_iff, Option.isNone_iff_eq_none, decide_eq_true_iff]
  exact h.fds_eq_zero.symm

/-- A descriptor that is there. -/
theorem kfdGet_eq_zero (h : Places s t A) {proc : Nat} {fd : Int} :
    s.kfdGet proc fd = 0 ↔ A.file proc fd = none := by
  unfold kfdGet PathFs.file
  split_ifs
  · simp
  · exact h.fds_eq_zero

theorem file_eq {proc : Nat} {fd : Int} {o : OpenFile} (ho : A.file proc fd = some o) :
    A.files proc fd.toNat = some o ∧ s.kfdGet proc fd = s.fds proc fd.toNat := by
  unfold PathFs.file at ho
  split_ifs at ho with hbad
  exact ⟨ho, if_neg hbad⟩

/-! ## The steps of the calls -/

/-- A change of entries and data: the nodes and descriptors stay, and so do the paths of the files
that are in use. -/
theorem change (h : Places s t A) (hcwd : r.kvfsCwd = s.kvfsCwd) (hfds : r.fds = s.fds)
    (hnode : ∀ q n, s.obj q = some (.node n) → r.obj q = some (.node n))
    (hdesc : ∀ q d, s.obj q = some (.desc d) → r.obj q = some (.desc d))
    (hcwd' : B.cwd = A.cwd) (hfiles : B.files = A.files) (hm : Mirrors r t' B)
    (hstay : ∀ p x, s.At t p x → s.InUse x → r.At t' p x) (hgrow : Enlarges A.tree B.tree) :
    Places r t' B := by
  have hplace : ∃ x, r.obj r.kvfsCwd = some (.node (newNode x)) ∧ r.At t' B.cwd x := by
    obtain ⟨x, hx, hat⟩ := h.cwd
    exact ⟨x, by rw [hcwd, hnode _ _ hx], by rw [hcwd']; exact hstay _ _ hat (Or.inl hx)⟩
  refine ⟨hm, hplace, ?_, fun p i hp => ?_, fun p i o ho => ?_, fun p i o bytes ho hbytes => ?_,
    fun path bytes hp => (hgrow path bytes hp).1⟩
  · obtain ⟨x, -, hat⟩ := hplace
    obtain ⟨n, hn, -⟩ := hm.rep.node _ x hat
    cases n with
    | dir => exact hn
    | file bytes =>
      have hold := (hgrow _ _ hn).2
      rw [hcwd', h.cwdDir] at hold
      simp at hold
  · rw [hfiles] at hp
    rw [hfds]
    exact h.unused p i hp
  · rw [hfiles] at ho
    obtain ⟨d, x, hd⟩ := h.opened p i o ho
    refine ⟨d, x, by rw [hfds, hdesc _ _ hd.desc], hnode _ _ hd.node, ?_, hd.offset, hd.flags⟩
    exact hstay _ _ hd.path (Or.inr ⟨p, i, d, hd.desc, hd.node⟩)
  · rw [hfiles] at ho
    obtain ⟨-, hnone | ⟨old, hold, hle⟩⟩ := hgrow _ _ hbytes
    · exact absurd hnone (h.opened_ne_none ho)
    · exact (h.within p i o old ho hold).trans hle

/-- A change that keeps all records but entries. -/
theorem keeps (h : Places s t A) (hk : Keeps s r) (hcwd' : B.cwd = A.cwd)
    (hfiles : B.files = A.files) (hm : Mirrors r t' B)
    (hstay : ∀ p x, s.At t p x → s.InUse x → r.At t' p x) (hgrow : Enlarges A.tree B.tree) :
    Places r t' B :=
  h.change hk.frame.cwd hk.frame.fds (fun _ _ hq => hk.other _ _ hq (by simp))
    (fun _ _ hq => hk.other _ _ hq (by simp)) hcwd' hfiles hm hstay hgrow

/-- Any tree that the entries store will do. -/
theorem of_stored (h : Places s t A) (ht : TreeStored s.entries t') : Places s t' A := by
  obtain ⟨hroot, hkids⟩ := h.rep.tree.unique ht
  have hat : ∀ {p x}, s.At t p x → s.At t' p x := fun hp => hp.of_kids hroot hkids
  refine ⟨⟨h.rep.of_stored ht, h.lists.of_kids hroot hkids, h.unsized⟩, ?_, h.cwdDir, h.unused, fun p i o ho => ?_,
    h.within, h.small⟩
  · obtain ⟨x, hx, hpx⟩ := h.cwd
    exact ⟨x, hx, hat hpx⟩
  · obtain ⟨d, x, hd⟩ := h.opened p i o ho
    exact ⟨d, x, hd.desc, hd.node, hat hd.path, hd.offset, hd.flags⟩

/-- A call that leaves all there is. -/
theorem same (h : Places s t A) (hk : Keeps s r) (hent : r.entries = s.entries) :
    Places r t A := by
  have hat : ∀ p x, s.At t p x → s.InUse x → r.At t p x := fun p x hx _ => by rwa [At, hent]
  refine h.keeps hk rfl rfl (h.toMirrors.congr hent fun p bytes hp => hk.other _ _ hp (by simp)) hat
    fun path bytes hp => ⟨h.small path bytes hp, Or.inr ⟨bytes, hp, le_rfl⟩⟩

/-- A descriptor moves on. -/
theorem setOffset (h : Places s t A) (hm : Mounted s t) {proc fd : Nat} {o : OpenFile}
    (ho : A.files proc fd = some o) {d : FileDesc} (hd : s.obj (s.fds proc fd) = some (.desc d))
    {n : Nat} (hn : ∀ bytes, A.tree o.path = some (.file bytes) → n ≤ bytes.length) :
    Places (s.put (s.fds proc fd) (.desc { d with offset := n })) t
      (A.setFile proc fd (some { o with offset := n })) := by
  have hobj := obj_put (s := s) (p := s.fds proc fd) (by simp [hd]) (.desc { d with offset := n })
  have hother : ∀ {q ob}, s.obj q = some ob → (∀ d', ob ≠ .desc d') →
      (s.put (s.fds proc fd) (.desc { d with offset := n })).obj q = some ob := by
    intro q ob hq hne
    rw [hobj, Function.update_of_ne, hq]
    rintro rfl
    rw [hd] at hq
    exact hne d (by simpa using hq.symm)
  have hent : (s.put (s.fds proc fd) (.desc { d with offset := n })).entries = s.entries :=
    entries_update hobj (by simp [hd]) (by simp)
  have hat : ∀ {p x}, s.At t p x →
      (s.put (s.fds proc fd) (.desc { d with offset := n })).At t p x := fun hx => by rwa [At, hent]
  refine ⟨(h.toMirrors.congr hent fun p bytes hp => hother hp (by simp)).of_eq rfl rfl, ?_, h.cwdDir,
    fun p i hp => ?_, fun p i o' ho' => ?_, fun p i o' bytes ho' hbytes => ?_, h.small⟩
  · obtain ⟨x, hx, hpx⟩ := h.cwd
    exact ⟨x, hother hx (by simp), hat hpx⟩
  · rw [PathFs.setFile_files] at hp
    split_ifs at hp
    exact h.unused p i hp
  · rw [PathFs.setFile_files] at ho'
    obtain ⟨d₀, x₀, h₀⟩ := h.opened proc fd o ho
    obtain rfl : d₀ = d := by simpa using h₀.desc.symm.trans hd
    split_ifs at ho' with hpi
    · obtain rfl := Option.some.inj ho'
      obtain ⟨rfl, rfl⟩ := hpi
      exact ⟨{ d₀ with offset := n }, x₀,
        (congrFun hobj _).trans (Function.update_self _ _ _), hother h₀.node (by simp),
        hat h₀.path, rfl, h₀.flags⟩
    · obtain ⟨d', x, hd'⟩ := h.opened p i o' ho'
      refine ⟨d', x, ?_, hother hd'.node (by simp), hat hd'.path, hd'.offset, hd'.flags⟩
      refine (congrFun hobj _).trans ((Function.update_of_ne ?_ _ _).trans hd'.desc)
      -- another place of the tables has a record of its own
      intro heq
      have hrec := hd'.desc
      rw [show s.fds p i = s.fds proc fd from heq, hd] at hrec
      obtain rfl : d₀ = d' := by simpa using hrec
      exact hpi (hm.apart p i proc fd d₀ d₀ hd'.desc hd rfl)
  · rw [PathFs.setFile_files] at ho'
    split_ifs at ho' with hpi
    · obtain rfl := Option.some.inj ho'
      exact hn bytes hbytes
    · exact h.within p i o' bytes ho' hbytes

/-- A new descriptor, of a node of the entry at a path. -/
theorem described (h : Places s t A) {proc fd flags : Nat} {p q x : Ptr}
    (hnew : Described s r proc fd p q flags) {path : List CString}
    (hq : s.obj q = some (.node (newNode x))) (hat : s.At t path x) :
    Places (r.setFd proc fd p) t (A.setFile proc fd (some ⟨path, 0, flags⟩)) := by
  have hk := hnew.keeps
  have hent : (r.setFd proc fd p).entries = s.entries := hnew.entries
  have hat' : ∀ {p' y}, s.At t p' y → (r.setFd proc fd p).At t p' y := fun hy => by rwa [At, hent]
  refine ⟨(h.toMirrors.congr hent fun a bytes ha => hk.other _ _ ha (by simp)).of_eq rfl rfl, ?_, h.cwdDir,
    fun p' i hp' => ?_, fun p' i o ho => ?_, fun p' i o bytes ho hbytes => ?_, h.small⟩
  · obtain ⟨y, hy, hpy⟩ := h.cwd
    refine ⟨y, ?_, hat' hpy⟩
    show r.obj r.kvfsCwd = _
    rw [hk.frame.cwd]
    exact hk.other _ _ hy (by simp)
  · rw [PathFs.setFile_files] at hp'
    split_ifs at hp' with hpi
    show (if p' = proc ∧ i = fd then p else r.fds p' i) = 0
    rw [if_neg hpi, hk.frame.fds]
    exact h.unused p' i hp'
  · rw [PathFs.setFile_files] at ho
    split_ifs at ho with hpi
    · obtain rfl := Option.some.inj ho
      obtain ⟨rfl, rfl⟩ := hpi
      exact ⟨⟨q, 0, flags, 1⟩, x, hnew.made, hk.other _ _ hq (by simp), hat' hat, rfl, rfl⟩
    · obtain ⟨d, y, hd⟩ := h.opened p' i o ho
      exact ⟨d, y, hnew.stays hd.desc, hk.other _ _ hd.node (by simp), hat' hd.path, hd.offset,
        hd.flags⟩
  · rw [PathFs.setFile_files] at ho
    split_ifs at ho with hpi
    · obtain rfl := Option.some.inj ho
      exact Nat.zero_le _
    · exact h.within p' i o bytes ho hbytes

/-- A descriptor less. -/
theorem closed (h : Places s t A) (hm : Mounted s t) {proc fd : Nat} {d : FileDesc}
    (hc : Closed s r proc fd d) (hd : s.obj (s.fds proc fd) = some (.desc d)) :
    Places r t (A.setFile proc fd none) := by
  obtain ⟨d₀, f, hd₀, -, hf, hroot, hcwd⟩ := hm.desc proc fd (ne_zero_of_obj hd)
  obtain rfl : d₀ = d := by simpa using hd₀.symm.trans hd
  have hent := hc.entries hd hf
  have hat : ∀ {p x}, s.At t p x → r.At t p x := fun hx => by rwa [At, hent]
  refine ⟨(h.toMirrors.congr hent fun p bytes hp => hc.stay p _ hp ?_ ?_).of_eq rfl rfl, ?_, h.cwdDir,
    fun p i hp => ?_, fun p i o ho => ?_, fun p i o bytes ho hbytes => ?_, h.small⟩
  · rintro rfl
    rw [hf] at hp
    cases hp
  · rintro rfl
    rw [hd] at hp
    cases hp
  · obtain ⟨x, hx, hpx⟩ := h.cwd
    exact ⟨x, by rw [hc.cwd]; exact hc.node_stays hd hx hcwd.symm, hat hpx⟩
  · rw [PathFs.setFile_files] at hp
    rw [hc.fds]
    split_ifs at hp ⊢ with hpi
    · rfl
    · exact h.unused p i hp
  · rw [PathFs.setFile_files] at ho
    split_ifs at ho with hpi
    obtain ⟨d', x, hd'⟩ := h.opened p i o ho
    obtain ⟨hstays, hne⟩ := hc.desc_stays hm hd hf hpi hd'.desc
    exact ⟨d', x, hstays, hc.node_stays hd hd'.node hne, hat hd'.path, hd'.offset, hd'.flags⟩
  · rw [PathFs.setFile_files] at ho
    split_ifs at ho with hpi
    exact h.within p i o bytes ho hbytes

/-- Another working directory, whose node nobody holds, or the root. -/
theorem setCwd (h : Places s t A) (hm : Mounted s t) {q x : Ptr} {path : List CString}
    (hq : s.obj q = some (.node (newNode x))) (hat : s.At t path x) (hdir : A.tree path = some .dir)
    (hfree : q ≠ s.kvfsCwd ∨ q = s.kvfsRootMountDir) (hclose : s.kvfsClose s.kvfsCwd = some r) :
    Places { r with kvfsCwd := q } t { A with cwd := path } := by
  obtain ⟨r₀, hclose₀, hframe, hkeep, hback, -⟩ := closeCwd_spec hm
  obtain rfl : r₀ = r := Option.some.inj (hclose₀.symm.trans hclose)
  obtain ⟨c, hc⟩ := hm.cwd
  have hother : ∀ {a o}, s.obj a = some o → (∀ n, o ≠ .node n) → r₀.obj a = some o := by
    intro a o ha ho
    refine hkeep a o ha (Or.inl ?_)
    rintro rfl
    rw [hc] at ha
    exact ho _ (by simpa using ha.symm)
  have hent : ({ r₀ with kvfsCwd := q } : Fs).entries = s.entries :=
    entries_congr fun a e => ⟨fun ha => hback a _ ha, fun ha => hother ha (by simp)⟩
  have hat' : ∀ {p y}, s.At t p y → ({ r₀ with kvfsCwd := q } : Fs).At t p y := fun hy => by
    rwa [At, hent]
  refine ⟨(h.toMirrors.congr hent fun p bytes hp => hother hp (by simp)).of_eq rfl rfl,
    ⟨x, hkeep q _ hq hfree, hat' hat⟩, hdir, fun p i hp => ?_, fun p i o ho => ?_, h.within, h.small⟩
  · show r₀.fds p i = 0
    rw [hframe.fds]
    exact h.unused p i hp
  · obtain ⟨d, y, hd⟩ := h.opened p i o ho
    obtain ⟨d', f, hd', -, -, -, hne⟩ := hm.desc p i (ne_zero_of_obj hd.desc)
    obtain rfl : d = d' := by simpa using hd.desc.symm.trans hd'
    refine ⟨d, y, ?_, hkeep _ _ hd.node (Or.inl hne), hat' hd.path, hd.offset, hd.flags⟩
    show r₀.obj (r₀.fds p i) = _
    rw [hframe.fds]
    exact hother hd.desc (by simp)

end Places

end Fs

end DelOs
