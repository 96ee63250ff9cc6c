import DelOs.Fs.Archive
import DelOs.Fs.OpenAgrees
import DelOs.Fs.PathContents
import DelOs.Fs.PathMachine

/-!
# Opening, seen from the tree of paths

With memory for its nodes, `kvfs_open` finds or makes what `PathFs.openAt` says, and returns a node
of it.

* `CreatExact`, `openCreat_exact` — the part under `KVFS_O_CREAT`: the name is there, or it is made,
  or the parent is no directory.
* `AtParent`, `AtParent.opens` — the rest of the call, from the parent and the last name.
* `OpensIn`, `kvfsOpen_opensIn` — **the call does to the tree of paths what it should**.
-/

namespace DelOs

open FirstFit PathTree

namespace Fs

variable {s r : Fs} {t : OrderedTree Ptr} {A B : PathFs}

/-! ## With memory for the nodes -/

/-- A lookup finds what there is. -/
theorem kvfsLookup_granted (ht : TreeStored r.entries t) {parent d : Ptr}
    (hparent : r.obj parent = some (.node (newNode d))) (hd : ∃ e, r.entries d = some e)
    (hg : r.Granted) (name : CString) :
    (findIn r.entries t d name = 0 ∧ r.kvfsLookup parent name = some (0, r)) ∨
      ∃ p r', findIn r.entries t d name ≠ 0 ∧ r.kvfsLookup parent name = some (p, r') ∧ p ≠ 0 ∧
        r'.Granted ∧ r'.entries = r.entries ∧ r.obj p = none ∧
        r'.obj = Function.update r.obj p (some (.node (newNode (findIn r.entries t d name)))) := by
  obtain ⟨p, r', hlook, ⟨hx, rfl, rfl⟩ | ⟨hx, halloc⟩⟩ := kvfsLookup_spec ht hparent hd name
  · exact Or.inl ⟨hx, hlook⟩
  · rcases halloc.made with ⟨-, -, hno⟩ | ⟨hp, hdead, hobj⟩
    · rw [hg 0] at hno
      cases hno
    · exact Or.inr ⟨p, r', hx, hlook, hp, halloc.frame.granted hg,
        entries_update hobj (by simp [hdead]) (by simp), hdead, hobj⟩

/-- What the part of `kvfs_open` under `KVFS_O_CREAT` comes to, with memory for its nodes. -/
inductive CreatExact (r : Fs) (t : OrderedTree Ptr) (parent d : Ptr) (e : TmpfsEntry)
    (name : CString) (flags : Nat) (done : Option (Bool × Fs)) : Prop
  | found (r' : Fs) (hx : findIn r.entries t d name ≠ 0) (hexcl : flagSet flags KVFS_O_EXCL = false)
      (hdone : done = some (true, r')) (hent : r'.entries = r.entries) (hg : r'.Granted)
      (hparent : r'.obj parent = some (.node (newNode d)))
  | exists_already (r' : Fs) (hx : findIn r.entries t d name ≠ 0)
      (hexcl : flagSet flags KVFS_O_EXCL = true) (hdone : done = some (false, r'))
      (hent : r'.entries = r.entries)
  | notDir (r' : Fs) (hx : findIn r.entries t d name = 0) (hdir : e.isDir = false)
      (hdone : done = some (false, r')) (hent : r'.entries = r.entries)
  | made (r' : Fs) (y : Ptr) (kind : Nat) (hx : findIn r.entries t d name = 0) (hdir : e.isDir = true)
      (hy : y ≠ 0) (hnew : r.entries y = none) (hdone : done = some (true, r'))
      (hent : r'.entries = insertEntry r.entries d y e name kind)
      (hkind : if flagSet flags KVFS_O_DIRECTORY = true then kvfsStatIsDir kind = true
        else kvfsStatIsReg kind = true)
      (hg : r'.Granted) (hparent : r'.obj parent = some (.node (newNode d)))

theorem openCreat_exact (ht : TreeStored r.entries t) {parent d : Ptr}
    (hparent : r.obj parent = some (.node (newNode d))) {e : TmpfsEntry}
    (hd : r.entries d = some e) (hg : r.Granted) (st : VfsStat) (name : CString) {flags : Nat}
    (mode : Nat) (hcreat : flagSet flags KVFS_O_CREAT = true) :
    CreatExact r t parent d e name flags (r.openCreat parent st name flags mode) := by
  rcases kvfsLookup_granted ht hparent ⟨e, hd⟩ hg name with
    ⟨hx, hlook⟩ | ⟨p, r₁, hx, hlook, hp, hg₁, hent₁, hdead, hobj₁⟩
  · rcases openMake_spec hparent hd name flags mode with
      ⟨hdir, hmake⟩ | ⟨y, r₁, kind, hdir, hmake, hkind, hmade⟩
    · obtain ⟨r₂, hclose, hent, -⟩ := kvfsClose_live hparent
      exact .notDir r₂ hx hdir (by simp [openCreat, hcreat, hlook, hmake, hclose]) hent
    · rcases hmade.made with ⟨-, -, hno⟩ | ⟨hy, hdead, hent⟩
      · rw [hg 0] at hno
        cases hno
      · exact .made r₁ y kind hx hdir hy (by simp [entries, hdead])
          (by simp [openCreat, hcreat, hlook, hmake, hy]) hent hkind
          (hmade.keeps.frame.granted hg) (hmade.keeps.other _ _ hparent (by simp))
  · have hnode₁ : r₁.obj p = some (.node (newNode (findIn r.entries t d name))) := by
      rw [hobj₁, Function.update_self]
    have hpp : parent ≠ p := by
      rintro rfl
      rw [hdead] at hparent
      cases hparent
    have hparent₁ : r₁.obj parent = some (.node (newNode d)) := by
      rw [hobj₁, Function.update_of_ne hpp, hparent]
    obtain ⟨r₂, hclose, hent₂, hpages, hother, -⟩ := kvfsClose_live hnode₁
    have hparent₂ : r₂.obj parent = some (.node (newNode d)) := by rw [hother parent hpp, hparent₁]
    have hg₂ : r₂.Granted := fun k => by rw [hpages, hg₁]
    cases hexcl : flagSet flags KVFS_O_EXCL with
    | false =>
      exact .found r₂ hx hexcl (by simp [openCreat, hcreat, hlook, hp, hclose, hexcl])
        (hent₂.trans hent₁) hg₂ hparent₂
    | true =>
      obtain ⟨r₃, hclose₃, hent₃, -⟩ := kvfsClose_live hparent₂
      exact .exists_already r₃ hx hexcl
        (by simp [openCreat, hcreat, hlook, hp, hclose, hexcl, hclose₃])
        (hent₃.trans (hent₂.trans hent₁))

/-- The second lookup of `kvfs_open` finds what there is. -/
theorem openNode_exact (ht : TreeStored r.entries t) {parent d : Ptr}
    (hparent : r.obj parent = some (.node (newNode d))) (hd : ∃ e, r.entries d = some e)
    (hg : r.Granted) (name : CString) (flags : Nat) :
    ∃ q r', r.openNode parent name flags = some (q, r') ∧ r'.entries = r.entries ∧
      (q = 0 ↔ findIn r.entries t d name = 0) ∧
      (q ≠ 0 → r'.obj q = some (.node (newNode (findIn r.entries t d name)))) := by
  obtain ⟨q, r', hopen, hent, hq, hnull, -⟩ := openNode_spec ht hparent hd name flags
  refine ⟨q, r', hopen, hent, ⟨fun h0 => ?_, fun hx => ?_⟩, fun h0 => (hq h0).2.2⟩
  · by_contra hx
    have hpages := hnull h0 hx
    rw [hg 0] at hpages
    cases hpages
  · by_contra h0
    exact (hq h0).2.1 hx

/-! ## The whole call -/

/-- The entries are the directories and files by path, and listed in their order. -/
structure Mirrors (s : Fs) (t : OrderedTree Ptr) (A : PathFs) : Prop where
  rep : Represents s t A.tree
  lists : t.Lists (nameOf s.entries) A.list
  unsized : Unsized s.entries

/-- They stay so as long as the entries and their data stay. -/
theorem Mirrors.congr (h : Mirrors s t A) (hent : r.entries = s.entries)
    (hdata : ∀ p bytes, s.obj p = some (.data bytes) → r.obj p = some (.data bytes)) :
    Mirrors r t A :=
  ⟨h.rep.congr hent hdata, by rw [hent]; exact h.lists, by rw [hent]; exact h.unsized⟩

theorem Mirrors.of_eq (h : Mirrors s t A) (htree : B.tree = A.tree) (hlist : B.list = A.list) :
    Mirrors s t B :=
  ⟨htree ▸ h.rep, hlist ▸ h.lists, h.unsized⟩

/-- What a call of `kvfs_open` has come to: the files by path, in which what was there is where it
was, and the path of what it opened. -/
structure OpensIn (s r : Fs) (t t' : OrderedTree Ptr) (B : PathFs)
    (opened : Option (List CString)) (q : Ptr) : Prop where
  mirrors : Mirrors r t' B
  null : opened = none → q = 0
  node : ∀ p ∈ opened, ∃ x, r.obj q = some (.node (newNode x)) ∧ r.At t' p x
  stay : ∀ p y, s.At t p y → r.At t' p y

/-- A call that has changed no entry. -/
theorem OpensIn.same (h : Mirrors s t A) (hkeeps : Keeps s r) (hent : r.entries = s.entries)
    {opened : Option (List CString)} {q : Ptr} (hnull : opened = none → q = 0)
    (hnode : ∀ p ∈ opened, ∃ x, r.obj q = some (.node (newNode x)) ∧ s.At t p x) :
    OpensIn s r t t A opened q := by
  have hat : ∀ p x, r.At t p x ↔ s.At t p x := fun p x => by rw [At, At, hent]
  refine ⟨h.congr hent fun p bytes hp => hkeeps.other _ _ hp (by simp), hnull, fun p hp => ?_,
    fun p y hy => (hat p y).2 hy⟩
  obtain ⟨x, hx, hpx⟩ := hnode p hp
  exact ⟨x, hx, (hat p x).2 hpx⟩

/-- A path that fits has all its components in the table. -/
theorem Fits.pathNames {path : CString} (h : Fits path) : pathNames path = components path := by
  rw [Fs.pathNames, splitParts_eq _ h.1, List.take_of_length_le h.2]

/-- What is new is a directory or an empty file. -/
theorem isNode_newEntry {y d next : Ptr} {name : CString} {kind flags : Nat}
    (hy : s.entries y = some (newEntry name next d kind))
    (hkind : if flagSet flags KVFS_O_DIRECTORY = true then kvfsStatIsDir kind = true
      else kvfsStatIsReg kind = true) :
    s.IsNode y (if flagSet flags KVFS_O_DIRECTORY then .dir else .file []) := by
  split_ifs at hkind ⊢
  · exact ⟨_, hy, by simpa [TmpfsEntry.isDir, newEntry] using hkind⟩
  · exact ⟨_, entries_eq_some.1 hy, holds_newEntry s name next d hkind⟩

/-- A path has a part, if only the `"/"`. -/
theorem splitPath_ne_nil {path : CString} (hpath : path ≠ []) : kvfsSplitPath path ≠ [] := by
  intro h0
  have hcomp := (components_of_kvfsSplitPath h0).1
  rw [kvfsSplitPath_eq, List.append_eq_nil_iff] at h0
  cases path with
  | nil => exact hpath rfl
  | cons c rest =>
    by_cases hc : c = slash
    · simp [kvfsIsAbsolutePath, hc] at h0
    · obtain ⟨run, rest', heq, hne, hrun, hrest⟩ := exists_run rest hc
      rw [heq, components_run hne hrun hrest] at hcomp
      cases hcomp

/-- The last name of a path that fits. -/
theorem Fits.lastName_eq {path : CString} (h : Fits path) (hpath : path ≠ []) :
    lastName path = (components path).getLastD [slash] ∧ lastName path ≠ [] ∧
      FitsName (lastName path) := by
  have hsplit := splitPath_ne_nil hpath
  by_cases hne : components path = []
  · have hnames := h.pathNames
    have hlast : lastName path = [slash] := by
      rw [kvfsSplitPath_eq, show splitParts (partsRoom path) (skipSlashes path) = [] from
        hnames.trans hne] at hsplit
      rw [lastName, kvfsSplitPath_eq, show splitParts (partsRoom path) (skipSlashes path) = [] from
        hnames.trans hne]
      split_ifs at hsplit ⊢
      · rfl
      · exact absurd rfl hsplit
    rw [hlast, hne]
    exact ⟨rfl, by simp, by decide⟩
  · have hnames := h.pathNames
    have hsnoc := pathNames_snoc (show Fs.pathNames path ≠ [] by rwa [hnames])
    rw [hnames] at hsnoc
    have hlast : lastName path = (components path).getLastD [slash] := by
      rw [hsnoc, List.getLastD_concat]
    have hmem : lastName path ∈ components path := by
      rw [hlast, List.getLastD_eq_getLast?, List.getLast?_eq_some_getLast hne, Option.getD_some]
      exact List.getLast_mem hne
    exact ⟨hlast, by simpa using (List.mem_filter.1 hmem).2, h.1 _ hmem⟩

/-- `kvfs_open` has a node of the parent `f` of what it opens, which lies at the place `p`. -/
structure AtParent (s r : Fs) (t : OrderedTree Ptr) (path : CString) (p : List CString)
    (parent f : Ptr) (e : TmpfsEntry) : Prop where
  resolve : s.kvfsResolveParentFrom (if kvfsIsAbsolutePath path then 0 else s.kvfsCwd) path =
    some (parent, lastName path, r)
  node : r.obj parent = some (.node (newNode f))
  entries : r.entries = s.entries
  granted : r.Granted
  entry : s.entries f = some e
  place : s.At t p f

namespace AtParent

variable {path : CString} {p p' : List CString} {parent f : Ptr} {e : TmpfsEntry} {r₂ : Fs}
  {flags mode : Nat}

theorem stored (h : AtParent s r t path p parent f e) (hs : TreeStored s.entries t) :
    TreeStored r.entries t := by
  rw [h.entries]
  exact hs

theorem entry_after (h : AtParent s r t path p parent f e) : r.entries f = some e := by
  rw [h.entries, h.entry]

/-- What is left of the call. -/
theorem kvfsOpen_eq (h : AtParent s r t path p parent f e) {goesOn : Bool}
    (hcreat : r.openCreat parent e.stat (lastName path) flags mode = some (goesOn, r₂)) :
    s.kvfsOpen path flags mode =
      if goesOn = false then some (0, r₂) else r₂.openNode parent (lastName path) flags := by
  have hstat := kvfsGetStat_refers (refers_newNode h.node) (entries_eq_some.1 h.entry_after)
  cases goesOn <;> simp [kvfsOpen, h.resolve, ne_zero_of_obj h.node, hstat, hcreat]

/-- Without `KVFS_O_CREAT` there is only the lookup. -/
theorem openCreat_eq (hcreat : flagSet flags KVFS_O_CREAT = false) :
    r.openCreat parent e.stat (lastName path) flags mode = some (true, r) := by
  simp [openCreat, hcreat]

/-- The call gives up. -/
theorem stops (h : AtParent s r t path p parent f e) (hm : Mirrors s t A)
    (hkeeps : ∀ {q r}, s.kvfsOpen path flags mode = some (q, r) → Keeps s r)
    (hcreat : r.openCreat parent e.stat (lastName path) flags mode = some (false, r₂))
    (hent : r₂.entries = r.entries) :
    ∃ q r t', s.kvfsOpen path flags mode = some (q, r) ∧ Keeps s r ∧ OpensIn s r t t' A none q := by
  have hopen : s.kvfsOpen path flags mode = some (0, r₂) := by
    rw [h.kvfsOpen_eq hcreat, if_pos rfl]
  exact ⟨0, r₂, t, hopen, hkeeps hopen, .same hm (hkeeps hopen) (hent.trans h.entries)
    (fun _ => rfl) fun _ hp => absurd hp (by simp)⟩

/-- The call goes on to a lookup in the same entries. -/
theorem looks (h : AtParent s r t path p parent f e) (hm : Mirrors s t A)
    (hkeeps : ∀ {q r}, s.kvfsOpen path flags mode = some (q, r) → Keeps s r)
    (hcreat : r.openCreat parent e.stat (lastName path) flags mode = some (true, r₂))
    (hent : r₂.entries = r.entries) (hg : r₂.Granted)
    (hnode : r₂.obj parent = some (.node (newNode f))) :
    ∃ q r t', s.kvfsOpen path flags mode = some (q, r) ∧ Keeps s r ∧
      OpensIn s r t t' A (A.tree.enter dotName dotDotName p (lastName path)) q := by
  have hentries := hent.trans h.entries
  obtain ⟨q, r', hlook, hent', hiff, hq⟩ := openNode_exact (by rw [hentries]; exact hm.rep.tree) hnode
    ⟨e, by rw [hentries, h.entry]⟩ hg (lastName path) flags
  rw [hentries] at hiff hq
  have hopen : s.kvfsOpen path flags mode = some (q, r') := by
    rw [h.kvfsOpen_eq hcreat, if_neg (by simp), hlook]
  refine ⟨q, r', t, hopen, hkeeps hopen,
    .same hm (hkeeps hopen) (hent'.trans hentries) (fun hnone => ?_) fun p' hp' => ?_⟩
  · rcases hm.rep.enter h.place (lastName path) with ⟨p', hp', -⟩ | ⟨-, hzero⟩
    · rw [hp'] at hnone
      cases hnone
    · exact hiff.2 hzero
  · rcases hm.rep.enter h.place (lastName path) with ⟨p'', hp'', hat⟩ | ⟨hnone, -⟩
    · obtain rfl : p'' = p' := by simpa [hp''] using hp'
      obtain ⟨e', he'⟩ := (hm.rep.tree.mem _).1 hat.mem
      have hx : findIn s.entries t f (lastName path) ≠ 0 := ne_zero_of_obj (entries_eq_some.1 he')
      exact ⟨_, hq (mt hiff.1 hx), hat⟩
    · rw [hnone] at hp'
      cases hp'

/-- The call looks up what it has made. -/
theorem makes (h : AtParent s r t path p parent f e) (hm : Mirrors s t A)
    (hkeeps : ∀ {q r}, s.kvfsOpen path flags mode = some (q, r) → Keeps s r)
    (hname : Proper (lastName path)) (hx : findIn s.entries t f (lastName path) = 0)
    (hdir : e.isDir = true) {y : Ptr} {kind : Nat} (hy : y ≠ 0) (hnew : s.entries y = none)
    (hcreat : r.openCreat parent e.stat (lastName path) flags mode = some (true, r₂))
    (hent : r₂.entries = insertEntry s.entries f y e (lastName path) kind)
    (hkind : if flagSet flags KVFS_O_DIRECTORY = true then kvfsStatIsDir kind = true
      else kvfsStatIsReg kind = true)
    (hg : r₂.Granted) (hnode : r₂.obj parent = some (.node (newNode f))) :
    ∃ q r t', s.kvfsOpen path flags mode = some (q, r) ∧ Keeps s r ∧
      OpensIn s r t t'
        (A.make p (lastName path) (if flagSet flags KVFS_O_DIRECTORY then .dir else .file []))
        (some (p ++ [lastName path])) q := by
  have hnot := hm.rep.tree.not_mem hnew
  have hfy : f ≠ y := by
    rintro rfl
    rw [h.entry] at hnew
    cases hnew
  have hmade := hm.rep.tree.insert h.entry hdir hnew hy (lastName path) (isDir_or_isReg hkind)
    h.place.mem hnot
  have hfind : findIn (insertEntry s.entries f y e (lastName path) kind)
      (t.insertLeaf f y h.place.mem hnot) f (lastName path) = y :=
    findIn_insert hm.rep.tree h.entry hdir hnew h.place.mem hnot hx
  rw [← hent] at hfind hmade
  obtain ⟨q, r', hlook, hent', hiff, hq⟩ := openNode_exact hmade hnode
    ⟨_, by rw [hent, insertEntry_dir]⟩ hg (lastName path) flags
  rw [hfind] at hiff hq
  have hopen : s.kvfsOpen path flags mode = some (q, r') := by
    rw [h.kvfsOpen_eq hcreat, if_neg (by simp), hlook]
  have hentries := hent'.trans hent
  obtain ⟨t', hrep', hat', hstay, -⟩ := hm.rep.make h.place h.entry hdir hnew hy hname
    (isDir_or_isReg hkind) hx (hkeeps hopen) hentries
    (isNode_newEntry (by rw [hentries, insertEntry_new hfy]) hkind)
  have hlists := hm.rep.lists_make hm.lists h.place h.entry hdir hnew hx hentries hrep'.tree
    (by rw [hent']; exact hmade)
  have hunsized : Unsized r'.entries := by
    rw [hentries]
    exact hm.unsized.make h.entry _ _
  refine ⟨q, r', t', hopen, hkeeps hopen, ⟨hrep', hlists, hunsized⟩, fun h0 => absurd h0 (by simp),
    fun p' hp' => ?_, hstay⟩
  obtain rfl : p ++ [lastName path] = p' := by simpa using hp'
  exact ⟨y, hq (mt hiff.1 hy), hat'⟩

/-- **The call finds or makes the name that is opened.** -/
theorem opens (h : AtParent s r t path p parent f e) (hm : Mirrors s t A)
    (hkeeps : ∀ {q r}, s.kvfsOpen path flags mode = some (q, r) → Keeps s r)
    (hname : lastName path ≠ [] ∧ FitsName (lastName path)) :
    ∃ q r t', s.kvfsOpen path flags mode = some (q, r) ∧ Keeps s r ∧
      OpensIn s r t t' (A.openNamed p (lastName path) flags).2
        (A.openNamed p (lastName path) flags).1 q := by
  have hdirIff : A.tree p = some .dir ↔ e.isDir = true := by
    constructor
    · intro hF
      obtain ⟨e', he', hdir⟩ := hm.rep.isDir h.place hF
      obtain rfl : e = e' := by simpa [h.entry] using he'
      exact hdir
    · exact fun hdir => hm.rep.eq_some_iff.2 ⟨f, h.place, e, h.entry, hdir⟩
  have henter := hm.rep.enter h.place (lastName path)
  unfold PathFs.openNamed
  cases hcreat : flagSet flags KVFS_O_CREAT with
  | false =>
    have hlooks := h.looks hm hkeeps (openCreat_eq hcreat) rfl h.granted h.node
    cases hp : A.tree.enter dotName dotDotName p (lastName path) with
    | none => simpa [hp] using hlooks
    | some p' => simpa [hp] using hlooks
  | true =>
    have hexact := openCreat_exact (h.stored hm.rep.tree) h.node h.entry_after h.granted e.stat
      (lastName path) mode hcreat
    cases hexact with
    | found r₂ hx hexcl hdone hent hg hnode =>
      rw [h.entries] at hx
      have hlooks := h.looks hm hkeeps hdone hent hg hnode
      rcases henter with ⟨p', hp', -⟩ | ⟨-, hzero⟩
      · simpa [hp', hexcl] using hlooks
      · exact absurd hzero hx
    | exists_already r₂ hx hexcl hdone hent =>
      rw [h.entries] at hx
      rcases henter with ⟨p', hp', -⟩ | ⟨-, hzero⟩
      · simpa [hp', hexcl] using h.stops hm hkeeps hdone hent
      · exact absurd hzero hx
    | notDir r₂ hx hdir hdone hent =>
      rw [h.entries] at hx
      rcases henter with ⟨p', -, hat⟩ | ⟨hnone, -⟩
      · rw [hx] at hat
        obtain ⟨e', he'⟩ := (hm.rep.tree.mem _).1 hat.mem
        exact absurd rfl (ne_zero_of_obj (entries_eq_some.1 he'))
      · simpa [hnone, hdirIff, hdir] using h.stops hm hkeeps hdone hent
    | made r₂ y kind hx hdir hy hnew hdone hent hkind hg hnode =>
      rw [h.entries] at hx hnew hent
      have hproper : Proper (lastName path) := by
        obtain ⟨hdot, hdots, -⟩ := findIn_eq_zero hm.rep.tree h.entry hdir hx
        exact ⟨hname.1, hname.2, hdot, hdots⟩
      rcases henter with ⟨p', -, hat⟩ | ⟨hnone, -⟩
      · rw [hx] at hat
        obtain ⟨e', he'⟩ := (hm.rep.tree.mem _).1 hat.mem
        exact absurd rfl (ne_zero_of_obj (entries_eq_some.1 he'))
      · simpa [hnone, hdirIff, hdir] using
          h.makes hm hkeeps hproper hx hdir hy hnew hdone hent hkind hg hnode

end AtParent

/-- **With memory for its nodes, `kvfs_open` finds or makes what the tree of paths says**, unless it
closes the working directory. -/
theorem kvfsOpen_opensIn (h : Mirrors s t A) (hs : Stands s t) {path : CString} {d : Ptr}
    (hd : StartsAt s path d) (hat : s.At t (A.start path) d) (hg : s.Granted)
    {flags : Nat} (hcwd : s.KeepsCwd path flags) (hfits : Fits path) (mode : Nat) :
    ∃ q r t', s.kvfsOpen path flags mode = some (q, r) ∧ Keeps s r ∧
      OpensIn s r t t' (A.openAt path flags).2 (A.openAt path flags).1 q := by
  -- the records that stay are known for the call as a whole
  have hkeeps : ∀ {q r}, s.kvfsOpen path flags mode = some (q, r) → Keeps s r := by
    intro q r hopen
    obtain ⟨q₀, r₀, -, -, -, hopen₀, -, hkeeps⟩ := kvfsOpen_spec hs hd flags mode
    obtain ⟨-, rfl⟩ : q₀ = q ∧ r₀ = r := by simpa [hopen₀] using hopen
    exact hkeeps hcwd
  by_cases hpath : path = []
  · subst hpath
    have hcall : s.kvfsOpen [] flags mode = some (0, s) := by
      have hparts : kvfsSplitPath [] = [] := rfl
      simp [kvfsOpen, kvfsResolveParentFrom, hparts]
    exact ⟨0, s, t, hcall, Keeps.refl s, .same h (Keeps.refl s) rfl (fun _ => rfl)
      fun _ hp => absurd hp (by simp [PathFs.openAt])⟩
  obtain ⟨hlast, hname⟩ := hfits.lastName_eq hpath
  have hsplit := splitPath_ne_nil hpath
  obtain ⟨parent, r, hresolve, hopen, -, -, hnull⟩ :=
    kvfsResolveParentFrom_spec hs.tree hs.root_live hd.node hd.entry
  rw [hfits.pathNames] at hopen hnull
  have hwalk : _ ∨ _ := h.rep.walk hat (components path).dropLast
  generalize walkTree s.entries t d (components path).dropLast = f at hopen hnull hwalk
  rw [PathFs.openAt, if_neg hpath]
  unfold PathFs.walk
  rcases hwalk with ⟨p, hp, hpat⟩ | ⟨hnone, hzero⟩
  · obtain ⟨e, he⟩ := (h.rep.tree.mem f).1 hpat.mem
    have hp0 : parent ≠ 0 := fun h0 => hnull h0 hsplit (ne_zero_of_obj (entries_eq_some.1 he)) hg
    have hparent : AtParent s r t path p parent f e :=
      ⟨hresolve, (hopen.node hp0).1, hopen.entries, hopen.keeps.frame.granted hg, he, hpat⟩
    simpa only [hp, ← hlast] using hparent.opens h hkeeps hname
  · -- there is no parent
    have hp0 : parent = 0 := by
      by_contra hp0
      obtain ⟨-, e, he⟩ := hopen.node hp0
      rw [hzero, h.rep.tree.zero] at he
      cases he
    have hcall : s.kvfsOpen path flags mode = some (0, r) := by simp [kvfsOpen, hresolve, hp0]
    simp only [hnone]
    exact ⟨0, r, t, hcall, hkeeps hcall,
      .same h (hkeeps hcall) hopen.entries (fun _ => rfl) fun _ hp => absurd hp (by simp)⟩

end Fs

end DelOs
