import DelOs.Fs.FileArray
import DelOs.Fs.OpenAgrees
import DelOs.Fs.TreeRuns

/-!
# Creation and removal cancel

A path whose last name is new names nothing but the new entry, before and after it is created: the
removal by the same path takes out what the creation put in.

* `removeEntry_insertEntry` — the entries after both, a change time apart.
* `walkTree_insert` — **what a path leads to is not changed by a name that it does not look up**.
* `openCreat_excl`, `kvfsOpen_excl` — what `kvfs_open` has made when it succeeds exclusively.
* `Settled`, `openClose_settled` — a descriptor that is opened and closed.
* `removeAt_removes` — a removal by path, of an entry that is there.
* `creation_cancels` — **`kmkdir` and `krmdir`, `kfd_open` and `kvfs_unlink` cancel**.
-/

namespace DelOs

open FirstFit LinkedList

variable {m : Entries} {t : OrderedTree Ptr}

/-! ## The entries -/

/-- A link counted up and down again. -/
theorem kvfsStatDecNlink_inc (st : VfsStat) :
    kvfsStatDecNlink (kvfsStatIncNlink st) = kvfsStatUpdateCtime st := by
  simp [kvfsStatDecNlink, kvfsStatIncNlink, kvfsStatUpdateCtime]

/-- **Taking the new head out again** leaves the entries as they were, but for the change time of
the directory. -/
theorem removeEntry_insertEntry {d x : Ptr} {e : TmpfsEntry} (hx : m x = none) (hdx : d ≠ x)
    (name : CString) (mode : Nat) :
    removeEntry (insertEntry m d x e name mode) d x [] e.child =
      Function.update m d (some { e with stat := kvfsStatUpdateCtime e.stat }) := by
  funext q
  by_cases hqd : q = d
  · subst hqd
    simp [removeEntry, relink, insertEntry_dir, kvfsStatDecNlink_inc]
  · by_cases hqx : q = x
    · subst hqx
      simp [removeEntry, hqd, hx]
    · simp [removeEntry, relink, insertEntry_of_ne hqd hqx, hqd, hqx]

/-- A name that is found is found behind the creation of another. -/
theorem findIn_insert_ne {d x : Ptr} {e : TmpfsEntry} (hd : m d = some e)
    (hx : m x = none) {name : CString} {mode : Nat} (hmem : t.Mem d) (hnew : ¬ t.Mem x)
    (hfree : findIn m t d name = 0) {a : Ptr} {part : CString} (hne : findIn m t a part ≠ 0) :
    findIn (insertEntry m d x e name mode) (t.insertLeaf d x hmem hnew) a part =
      findIn m t a part := by
  obtain ⟨ea, hea⟩ : ∃ ea, m a = some ea := by
    cases hm : m a with
    | none => simp [findIn, hm] at hne
    | some ea => exact ⟨ea, rfl⟩
  have hax : a ≠ x := by
    rintro rfl
    rw [hx] at hea
    cases hea
  have hisDir : ((insertEntry m d x e name mode a).map TmpfsEntry.isDir).getD false =
      ((m a).map TmpfsEntry.isDir).getD false := by
    by_cases had : a = d
    · rw [had, insertEntry_dir, hd]
      rfl
    · rw [insertEntry_of_ne had hax]
  have hparent : (t.insertLeaf d x hmem hnew).parent a = t.parent a :=
    Function.update_of_ne hax _ _
  have hroot : (t.insertLeaf d x hmem hnew).root = t.root := rfl
  have hnames : ∀ q ∈ t.kids a, nameOf (insertEntry m d x e name mode) q = nameOf m q := by
    intro q hq
    refine nameOf_insertEntry hd ?_
    rintro rfl
    exact hnew (t.kid_mem hq).2.1
  have hold : ((t.kids a).find? fun q => nameOf (insertEntry m d x e name mode) q = part) =
      (t.kids a).find? fun q => nameOf m q = part :=
    List.find?_congr fun q hq => by rw [hnames q hq]
  -- the new entry is passed over where it is listed
  have hkids : ((t.insertLeaf d x hmem hnew).kids a).find?
      (fun q => nameOf (insertEntry m d x e name mode) q = part) =
        (t.kids a).find? fun q => nameOf m q = part := by
    by_cases had : a = d
    · subst had
      have hpart : name ≠ part := by
        rintro rfl
        exact hne hfree
      have hname : nameOf (insertEntry m a x e name mode) x = name := nameOf_insertEntry_new hax
      have hlist : (t.insertLeaf a x hmem hnew).kids a = x :: t.kids a := by
        simp [OrderedTree.insertLeaf]
      rw [hlist, List.find?_cons_of_neg (by simpa [hname] using hpart), hold]
    · have hlist : (t.insertLeaf d x hmem hnew).kids a = t.kids a := by
        simp [OrderedTree.insertLeaf, had]
      rw [hlist, hold]
  rw [findIn, findIn, hisDir, hparent, hroot, hkids]

/-- **What a path leads to is not changed** by a name that it does not look up. -/
theorem walkTree_insert {d x : Ptr} {e : TmpfsEntry} (ht : TreeStored m t) (hd : m d = some e)
    (hx : m x = none) {name : CString} {mode : Nat} (hmem : t.Mem d) (hnew : ¬ t.Mem x)
    (hfree : findIn m t d name = 0) {a : Ptr} {names : List CString}
    (hne : walkTree m t a names ≠ 0) :
    walkTree (insertEntry m d x e name mode) (t.insertLeaf d x hmem hnew) a names =
      walkTree m t a names := by
  induction names generalizing a with
  | nil => rfl
  | cons part names ih =>
    have hstep : findIn m t a part ≠ 0 := by
      intro h0
      refine hne ?_
      show walkTree m t (findIn m t a part) names = 0
      rw [h0, Fs.walkTree_zero ht.zero]
    show walkTree _ _ (findIn _ _ a part) names = walkTree m t (findIn m t a part) names
    rw [findIn_insert_ne hd hx hmem hnew hfree hstep]
    exact ih hne

namespace Fs

variable {s r r' : Fs}

/-! ## Opening what is not there -/

/-- **The part of `kvfs_open` under `KVFS_O_CREAT`, when it goes on with `KVFS_O_EXCL`**: the parent
is a directory without the name, and there is a new entry at the head of its children. -/
theorem openCreat_excl (ht : TreeStored r.entries t) {parent f : Ptr}
    (hparent : r.obj parent = some (.node (newNode f))) {e : TmpfsEntry}
    (hf : r.entries f = some e) (st : VfsStat) {name : CString} {flags mode : Nat}
    (hcreat : flagSet flags KVFS_O_CREAT = true) (hexcl : flagSet flags KVFS_O_EXCL = true)
    (hg : r.Granted) (h : r.openCreat parent st name flags mode = some (true, r')) :
    e.isDir = true ∧ findIn r.entries t f name = 0 ∧ ∃ x kind, x ≠ 0 ∧
      Made r r' x (insertEntry r.entries f x e name kind) ∧
      if flagSet flags KVFS_O_DIRECTORY = true then kvfsStatIsDir kind = true
        else kvfsStatIsReg kind = true := by
  obtain ⟨p, r₁, hlook, hfound⟩ := kvfsLookup_spec ht hparent ⟨e, hf⟩ name
  have hroot : ∀ st, kvfsStatCanWrite st Cred.root = true ∧ kvfsStatCanExec st Cred.root = true :=
    fun st => ⟨kvfsStatCanWrite_root st, kvfsStatCanExec_root st⟩
  by_cases hp : p = 0
  · subst hp
    -- nothing is found, and no memory has been asked for
    obtain ⟨hfind, rfl⟩ : findIn r.entries t f name = 0 ∧ r₁ = r := by
      rcases hfound with ⟨hf0, -, hr⟩ | ⟨-, halloc⟩
      · exact ⟨hf0, hr⟩
      · rcases halloc.made with ⟨-, -, hno⟩ | ⟨hp', -⟩
        · rw [hg 0] at hno
          cases hno
        · exact absurd rfl hp'
    rcases openMake_spec hparent hf name flags mode with
      ⟨-, hmake⟩ | ⟨x, r₂, kind, hdir, hmake, hkind, hmade⟩
    · simp only [openCreat, hcreat, (hroot st).1, (hroot st).2, hlook, hmake,
        Option.bind_eq_bind, Option.bind_some, Option.pure_def, ne_eq, not_true, if_false, if_true,
        Bool.true_eq_false, or_self] at h
      obtain ⟨r₃, -, h⟩ := Option.bind_eq_some_iff.1 h
      cases h
    · by_cases hx : x = 0
      · simp only [openCreat, hcreat, (hroot st).1, (hroot st).2, hlook, hmake, hx, decide_false,
          Option.bind_eq_bind, Option.bind_some, Option.pure_def, ne_eq, not_true, if_false,
          if_true, Bool.true_eq_false, or_self] at h
        obtain ⟨r₃, -, h⟩ := Option.bind_eq_some_iff.1 h
        cases h
      · obtain rfl : r₂ = r' := by
          simpa [openCreat, hcreat, hlook, hmake, hx] using h
        exact ⟨hdir, hfind, x, kind, hx, hmade, hkind⟩
  · simp only [openCreat, hcreat, hexcl, (hroot st).1, (hroot st).2, hlook, ne_eq, hp, not_false_eq_true,
      Option.bind_eq_bind, Option.bind_some, Option.pure_def, if_true, Bool.true_eq_false, or_self,
      if_false] at h
    obtain ⟨r₂, -, h⟩ := Option.bind_eq_some_iff.1 h
    obtain ⟨r₃, -, h⟩ := Option.bind_eq_some_iff.1 h
    cases h

/-- What an exclusive `kvfs_open` that succeeds has made: the entry `x` of the last name, at the
head of the children of the directory `f` that the other names lead to, and the node `q` of it. -/
structure Created (s r : Fs) (t : OrderedTree Ptr) (path : CString) (d : Ptr) (flags : Nat)
    (q f x : Ptr) (e : TmpfsEntry) (kind : Nat) : Prop where
  keeps : Keeps s r
  parent : f = walkTree s.entries t d (pathNames path).dropLast
  dir : s.entries f = some e
  isDir : e.isDir = true
  free : findIn s.entries t f (lastName path) = 0
  fresh : s.entries x = none ∧ x ≠ 0
  entries : r.entries = insertEntry s.entries f x e (lastName path) kind
  kind : if flagSet flags KVFS_O_DIRECTORY = true then kvfsStatIsDir kind = true
    else kvfsStatIsReg kind = true
  node : r.obj q = some (.node (newNode x))
  dead : ∀ n, s.obj q ≠ some (.node n)
  name : lastName path ∈ kvfsSplitPath path

/-- **`kvfs_open` with `KVFS_O_CREAT` and `KVFS_O_EXCL`**, when it returns a node. -/
theorem kvfsOpen_excl (hs : Stands s t) {path : CString} {d : Ptr} (hd : StartsAt s path d)
    (hg : s.Granted) {flags mode : Nat} (hcreat : flagSet flags KVFS_O_CREAT = true)
    (hexcl : flagSet flags KVFS_O_EXCL = true) {q : Ptr}
    (h : s.kvfsOpen path flags mode = some (q, r)) (hq : q ≠ 0) :
    ∃ f x e kind, Created s r t path d flags q f x e kind := by
  obtain ⟨parent, r₁, hresolve, hopen, hlast, hparent, -⟩ :=
    kvfsResolveParentFrom_spec hs.tree hs.root_live hd.node hd.entry
  have hp0 : parent ≠ 0 := by
    rintro rfl
    obtain ⟨h0, -⟩ : 0 = q ∧ r₁ = r := by simpa [kvfsOpen, hresolve] using h
    exact hq h0.symm
  obtain ⟨hnode, e, he⟩ := hopen.node hp0
  generalize hfd : walkTree s.entries t d (pathNames path).dropLast = f at hnode he
  have hent := hopen.entries
  have ht₁ : TreeStored r₁.entries t := hent ▸ hs.tree
  have he₁ : r₁.entries f = some e := hent ▸ he
  have hstat := kvfsGetStat_refers (refers_newNode hnode) (entries_eq_some.1 he₁)
  simp only [kvfsOpen, hresolve, Option.bind_eq_bind, Option.bind_some, if_neg hp0, hstat,
    Option.pure_def] at h
  obtain ⟨⟨goesOn, r₂⟩, hcr, h⟩ := Option.bind_eq_some_iff.1 h
  cases goesOn with
  | false =>
    obtain ⟨h0, -⟩ : 0 = q ∧ r₂ = r := by simpa using h
    exact absurd h0.symm hq
  | true =>
    obtain ⟨hdir, hfree, x, kind, hx, hmade, hkind⟩ := openCreat_excl ht₁ hnode he₁ e.stat hcreat
      hexcl (hopen.keeps.frame.granted hg) hcr
    obtain ⟨-, hdead, hent₂⟩ := hmade.made.resolve_left fun h => hx h.1
    rw [hent] at hfree hent₂
    have hxm : s.entries x = none := by
      rw [← hent]
      unfold entries
      rw [hdead]
    have hmem : t.Mem f := (hs.tree.mem f).2 ⟨e, he⟩
    have hnew := hs.tree.not_mem hxm
    have hkind' := isDir_or_isReg hkind
    have ht₂ : TreeStored r₂.entries (t.insertLeaf f x hmem hnew) :=
      hent₂ ▸ hs.tree.insert he hdir hxm hx (lastName path) hkind' hmem hnew
    have hparent₂ := hmade.keeps.other _ _ hnode (by simp)
    have hf₂ : ∃ e', r₂.entries f = some e' := by
      rw [hent₂]
      exact ⟨_, Function.update_self ..⟩
    obtain ⟨q', r₃, hopenNode, hent₃, hq', -, hkeeps₃⟩ :=
      openNode_spec ht₂ hparent₂ hf₂ (lastName path) flags
    obtain ⟨rfl, rfl⟩ : q' = q ∧ r₃ = r := by simpa [hopenNode] using h
    obtain ⟨hdead', -, hnode'⟩ := hq' hq
    have hkeeps := hopen.keeps.trans hmade.keeps
    rw [hent₂, findIn_insert hs.tree he hdir hxm hmem hnew hfree] at hnode'
    refine ⟨f, x, e, kind, hkeeps₃ s hkeeps ?_, hfd.symm, he, hdir, hfree, ⟨hxm, hx⟩,
      hent₃.trans hent₂, hkind, hnode', hkeeps.not_node hdead', hlast hp0⟩
    rcases hparent hp0 with htemp | ⟨hcwd, -⟩
    · exact Or.inl htemp
    · exact Or.inr ⟨hcwd, hq⟩

/-! ## Opening and closing -/

/-- The starts of a walk, and the records that are no entries, are what they were. -/
structure Settled (s r : Fs) : Prop where
  root : r.kvfsRootMountDir = s.kvfsRootMountDir
  cwd : r.kvfsCwd = s.kvfsCwd
  granted : s.Granted → r.Granted
  other : ∀ q o, s.obj q = some o → (∀ e, o ≠ .entry e) → r.obj q = some o

theorem Settled.trans_keeps (h : Settled s r) (h' : Keeps r r') : Settled s r' :=
  ⟨h'.frame.root.trans h.root, h'.frame.cwd.trans h.cwd, fun hg => h'.frame.granted (h.granted hg),
    fun q o hq ho => h'.other q o (h.other q o hq ho) ho⟩

theorem Settled.startsAt (h : Settled s r) {path : CString} {d : Ptr} (hd : StartsAt s path d)
    (hentry : ∃ e, r.entries d = some e) : StartsAt r path d := by
  have hstart : r.startNode path = s.startNode path := by
    rw [startNode, startNode, h.root, h.cwd]
  exact ⟨hstart ▸ h.other _ _ hd.node (by simp), hentry⟩

/-- **A descriptor that `kfd_open` has made is closed**, with its node; what it has created is
there. -/
theorem kfdOpen_excl (hs : Stands s t) {path : CString} {d : Ptr} (hd : StartsAt s path d)
    (hg : s.Granted) {proc flags mode : Nat} (hcreat : flagSet flags KVFS_O_CREAT = true)
    (hexcl : flagSet flags KVFS_O_EXCL = true) {fd : Int}
    (h : s.kfdOpen proc path flags mode = some (fd, r)) (hfd : fd ≠ KFD_ERROR) :
    ∃ f x e kind q r₁ r', Created s r₁ t path d flags q f x e kind ∧
      r.kfdClose proc fd = some (true, r') ∧ Settled s r' ∧ r'.entries = r₁.entries := by
  obtain ⟨⟨q, r₁⟩, hopen, h⟩ := Option.bind_eq_some_iff.1 h
  by_cases hq : q = 0
  · obtain ⟨h0, -⟩ : KFD_ERROR = fd ∧ r₁ = r := by simpa [hq] using h
    exact absurd h0.symm hfd
  obtain ⟨f, x, e, kind, hmade⟩ := kvfsOpen_excl hs hd hg hcreat hexcl hopen hq
  simp only [if_neg hq, Option.pure_def] at h
  rcases kfdCreateForProcess_spec r₁ proc flags hq with
    ⟨r₂, -, hrefused, -⟩ | ⟨n, p, r₂, hdesc, hplace⟩
  · obtain ⟨h0, -⟩ : KFD_ERROR = fd ∧ r₂ = r := by simpa [hrefused] using h
    exact absurd h0.symm hfd
  obtain ⟨rfl, rfl⟩ : (n : Int) = fd ∧ r₂.setFd proc n p = r := by simpa [hdesc] using h
  -- the node of the descriptor is not the root's
  have hnode₂ : (r₂.setFd proc n p).obj q = some (.node (newNode x)) :=
    hplace.keeps.other _ _ hmade.node (by simp)
  have hkeeps := hmade.keeps.trans hplace.keeps
  have hroot : q ≠ (r₂.setFd proc n p).kvfsRootMountDir := by
    rintro rfl
    refine hmade.dead (newNode t.root) ?_
    show s.obj r₂.kvfsRootMountDir = _
    rw [hkeeps.frame.root, hs.root]
  obtain ⟨r₃, hclose, hframe, -, hobj⟩ := kvfsClose_spec hnode₂ hroot
  have hget : (r₂.setFd proc n p).kfdGet proc n = p := by
    rw [kfdGet_nat (Int.natCast_nonneg n) (by simpa using hplace.bound)]
    simp [setFd]
  have hrec : (r₂.setFd proc n p).obj p = some (.desc ⟨q, 0, flags, 1⟩) := by
    have hput := hplace.made
    rwa [show (r₂.setFd proc n p).fds proc n = p by simp [setFd]] at hput
  have hobj' : ((r₃.kfree p).setFd proc n 0).obj =
      Function.update (Function.update r₂.obj q none) p none := by
    show (r₃.kfree p).obj = _
    rw [obj_kfree, hobj]
    rfl
  refine ⟨f, x, e, kind, q, r₁, (r₃.kfree p).setFd proc n 0, hmade, ?_,
    ⟨hframe.root.trans hkeeps.frame.root, hframe.cwd.trans hkeeps.frame.cwd,
      fun hg => hframe.granted (hkeeps.frame.granted hg), fun y o hy ho => ?_⟩, ?_⟩
  · have hone : ¬(⟨q, 0, flags, 1⟩ : FileDesc).refcount > 1 := Nat.lt_irrefl 1
    simp only [kfdClose, hget, if_neg (ne_zero_of_obj hrec), descAt_of_obj hrec, hone, if_false,
      hclose, Option.bind_eq_bind, Option.bind_some, Option.pure_def, Int.toNat_natCast]
  · have hy₁ := hmade.keeps.other y o hy ho
    have hyq : y ≠ q := by
      rintro rfl
      rw [hmade.node] at hy₁
      obtain rfl := Option.some.inj hy₁
      exact hmade.dead _ hy
    have hyp : y ≠ p := by
      rintro rfl
      rw [hplace.dead] at hy₁
      cases hy₁
    rw [hobj', Function.update_of_ne hyp, Function.update_of_ne hyq]
    exact hkeeps.other y o hy ho
  · rw [← hplace.entries]
    refine entries_congr fun y e => ?_
    rw [hobj', Function.update_apply]
    split_ifs with hyp
    · have hrec' : r₂.obj p = some (.desc ⟨q, 0, flags, 1⟩) := hrec
      simp [hyp, hrec']
    · rw [Function.update_apply]
      split_ifs with hyq
      · have hnode' : r₂.obj q = some (.node (newNode x)) := hnode₂
        simp [hyq, hnode']
      · rfl

/-! ## Removing what is there -/

/-- **A removal by path** that arrives at an entry of its kind, which the operation takes out. -/
theorem removeAt_removes (hs : Stands s t) {path : CString} {d x : Ptr} (hd : StartsAt s path d)
    (hg : s.Granted) (hnames : kvfsSplitPath path ≠ [])
    (hwalk : walkTree s.entries t d (pathNames path) = x) {ex : TmpfsEntry}
    (hx : s.entries x = some ex) {isKind : Nat → Bool} (hkind : isKind ex.stat.mode = true)
    {operation : Fs → Ptr → Option (Bool × Fs)} {m' : Entries}
    (hop : ∀ r node, r.entries = s.entries → r.obj node = some (.node (newNode x)) →
      ∃ r', operation r node = some (true, r') ∧ Keeps r r' ∧ r'.entries = m') :
    ∃ r, s.removeAt path isKind operation = some (true, r) ∧ Keeps s r ∧ r.entries = m' := by
  obtain ⟨q, r₁, hlook, hopen, htemp, hnull⟩ :=
    kvfsLookupOpen_spec hs.tree hs.root_live hd.node hd.entry
  rw [hwalk] at hopen hnull
  have hx0 : x ≠ 0 := ne_zero_of_obj (entries_eq_some.1 hx)
  have hq : q ≠ 0 := fun hq => hnull hq hnames hx0 hg
  obtain ⟨hnode, -⟩ := hopen.node hq
  have hx₁ : r₁.entries x = some ex := hopen.entries ▸ hx
  have hstat := kvfsGetStat_refers (refers_newNode hnode) (entries_eq_some.1 hx₁)
  obtain ⟨r₂, hremove, hkeeps, hent⟩ := hop r₁ q hopen.entries hnode
  obtain ⟨r₃, hclose, hent₃, -, -, hkeeps₃⟩ := kvfsClose_live (hkeeps.other _ _ hnode (by simp))
  exact ⟨r₃, by simp [removeAt, hlook, hq, hstat, hkind, hremove, hclose],
    hkeeps₃ s (hopen.keeps.trans hkeeps) (htemp hq), hent₃.trans hent⟩

/-! ## The tree before and after -/

/-- The tree is the one before: the entries have the same links in the same order, and hold the same
data; one directory has a new change time, which is the old one where no clock runs. -/
structure Restored (s r : Fs) (t : OrderedTree Ptr) : Prop where
  tree : TreeStored r.entries t
  entries : ∃ f e, s.entries f = some e ∧ r.entries =
    Function.update s.entries f (some { e with stat := kvfsStatUpdateCtime e.stat })
  data : ∀ q bytes, s.obj q = some (.data bytes) → r.obj q = some (.data bytes)
  exact : (∀ q e, s.entries q = some e → e.stat.ctime = 0) → r.entries = s.entries

theorem restored_of_update {f : Ptr} {e : TmpfsEntry} (ht : TreeStored s.entries t)
    (hf : s.entries f = some e) (hset : Settled s r)
    (hent : r.entries = Function.update s.entries f
      (some { e with stat := kvfsStatUpdateCtime e.stat })) : Restored s r t := by
  refine ⟨?_, ⟨f, e, hf, hent⟩, fun q bytes hq => hset.other q _ hq (by simp), fun hzero => ?_⟩
  · rw [hent]
    exact ht.congr (samePlaces_update hf ⟨rfl, rfl, rfl, rfl, rfl, rfl⟩)
  · have hsame : { e with stat := kvfsStatUpdateCtime e.stat } = e := by
      have hctime := hzero f e hf
      rw [kvfsStatUpdateCtime, ← hctime]
    rw [hent, hsame, ← hf, Function.update_eq_self]

/-- **What has been created is removed by the same path.** -/
theorem Created.cancels (hs : Stands s t) {path : CString} {d q f x : Ptr} {e : TmpfsEntry}
    {flags kind : Nat} (hd : StartsAt s path d) (hg : s.Granted) (hpath : pathNames path ≠ [])
    {r₁ : Fs} (h : Created s r₁ t path d flags q f x e kind) (hset : Settled s r)
    (hent : r.entries = r₁.entries) {isKind : Nat → Bool} (hkind : isKind kind = true)
    {operation : Fs → Ptr → Option (Bool × Fs)}
    (hop : ∀ u node, u.obj node = some (.node (newNode x)) →
      u.entries x = some (newEntry (lastName path) e.child f kind) →
      operation u node = u.ktmpfsRemoveFromParentLl f x) :
    ∃ r', r.removeAt path isKind operation = some (true, r') ∧ Restored s r' t := by
  have hx := h.fresh.1
  have hfx : f ≠ x := by
    intro heq
    rw [← heq, h.dir] at hx
    cases hx
  have hmem : t.Mem f := (hs.tree.mem f).2 ⟨e, h.dir⟩
  have hnew := hs.tree.not_mem hx
  have hkind' := isDir_or_isReg h.kind
  rw [h.entries] at hent
  have ht₁ : TreeStored r.entries (t.insertLeaf f x hmem hnew) :=
    hent ▸ hs.tree.insert h.dir h.isDir hx h.fresh.2 (lastName path) hkind' hmem hnew
  have hs₁ : Stands r (t.insertLeaf f x hmem hnew) := by
    refine ⟨ht₁, ?_⟩
    rw [hset.root]
    exact hset.other _ _ hs.root (by simp)
  have hdir₁ : r.entries f = some { e with child := x, stat := kvfsStatIncNlink e.stat } := by
    rw [hent, insertEntry_dir]
  have hx₁ : r.entries x = some (newEntry (lastName path) e.child f kind) := by
    rw [hent, insertEntry_new hfx]
  have hstart : StartsAt r path d := by
    refine hset.startsAt hd ?_
    obtain ⟨ed, hed⟩ := hd.entry
    by_cases hdf : d = f
    · exact ⟨_, hdf ▸ hdir₁⟩
    · have hdx : d ≠ x := by
        rintro rfl
        rw [hx] at hed
        cases hed
      exact ⟨ed, by rw [hent, insertEntry_of_ne hdf hdx, hed]⟩
  -- the path leads to the directory, and on to the new entry
  have hwalk : walkTree r.entries (t.insertLeaf f x hmem hnew) d (pathNames path) = x := by
    have hf0 : walkTree s.entries t d (pathNames path).dropLast ≠ 0 := by
      rw [← h.parent]
      exact ne_zero_of_obj (entries_eq_some.1 h.dir)
    have hprefix : walkTree (insertEntry s.entries f x e (lastName path) kind)
        (t.insertLeaf f x hmem hnew) d (pathNames path).dropLast =
          walkTree s.entries t d (pathNames path).dropLast :=
      walkTree_insert hs.tree h.dir hx hmem hnew h.free hf0
    rw [pathNames_snoc hpath, walkTree_append, hent, hprefix, ← h.parent]
    exact findIn_insert hs.tree h.dir h.isDir hx hmem hnew h.free
  have hlist : IsList (nextOf r.entries) x ([] ++ x :: t.kids f) := by
    have hkids := ht₁.child f _ hdir₁
    simpa [OrderedTree.insertLeaf] using hkids
  have hself : f ∉ [] ++ x :: t.kids f := by
    simpa using ⟨hfx, t.not_mem_kids_self f⟩
  obtain ⟨r', hremove, hkeeps, hent'⟩ : ∃ r', r.removeAt path isKind operation = some (true, r') ∧
      Keeps r r' ∧ r'.entries =
        Function.update s.entries f (some { e with stat := kvfsStatUpdateCtime e.stat }) := by
    refine removeAt_removes hs₁ hstart (hset.granted hg) (List.ne_nil_of_mem h.name) hwalk hx₁
      (by rwa [newEntry, kvfsStatCreate_mode]) fun u node hu hnode => ?_
    rw [hop u node hnode (hu ▸ hx₁)]
    obtain ⟨u', ex, hdone, hkeeps, hex, hent', -⟩ :=
      ktmpfsRemoveFromParentLl_list (hu ▸ hdir₁) (hu ▸ hlist) hself
    obtain rfl : newEntry (lastName path) e.child f kind = ex := by
      rw [hu, hx₁] at hex
      exact Option.some.inj hex
    refine ⟨u', hdone, hkeeps, ?_⟩
    rw [hent', hu, hent]
    exact removeEntry_insertEntry hx hfx (lastName path) kind
  exact ⟨r', hremove, restored_of_update hs.tree h.dir (hset.trans_keeps hkeeps) hent'⟩

/-- `ktmpfs_unlink` and `ktmpfs_rmdir` of a new entry take it out of its directory. -/
theorem ktmpfsUnlink_new {node f x : Ptr} {name : CString} {next mode : Nat} (hf : f ≠ 0)
    (hnode : s.obj node = some (.node (newNode x)))
    (hx : s.entries x = some (newEntry name next f mode)) :
    s.ktmpfsUnlink node = s.ktmpfsRemoveFromParentLl f x ∧
      s.ktmpfsRmdir node = s.ktmpfsRemoveFromParentLl f x := by
  have hobj := entries_eq_some.1 hx
  have hpriv : (newNode x).priv = x := rfl
  have hparent : (newEntry name next f mode).parent = f := rfl
  have hchild : (newEntry name next f mode).child = 0 := rfl
  constructor
  · simp [ktmpfsUnlink, ne_zero_of_obj hnode, nodeAt_of_obj hnode, hpriv, ne_zero_of_obj hobj,
      entryAt_of_obj hobj, hparent, hf]
  · simp [ktmpfsRmdir, ne_zero_of_obj hnode, nodeAt_of_obj hnode, hpriv, ne_zero_of_obj hobj,
      entryAt_of_obj hobj, hparent, hchild, hf]

/-- **Creation and removal cancel**, for a path of at least one name: `krmdir` takes away what
`kmkdir` has made, `kvfs_unlink` what an exclusive `kfd_open` has made. -/
theorem creation_cancels (hs : Stands s t) {path : CString} {d : Ptr} (hd : StartsAt s path d)
    (hg : s.Granted) (hpath : components path ≠ []) (proc : Nat) :
    (∀ r, s.kmkdir proc path = some (0, r) →
      ∃ r', r.krmdir path = some (0, r') ∧ Restored s r' t) ∧
    ∀ mode fd r, s.kfdOpen proc path (KVFS_O_CREAT ||| KVFS_O_EXCL) mode = some (fd, r) →
      fd ≠ KFD_ERROR → ∃ r₁ r₂, r.kfdClose proc fd = some (true, r₁) ∧
        r₁.kvfsUnlink path = some (true, r₂) ∧ Restored s r₂ t := by
  have hnames : pathNames path ≠ [] := mt pathNames_eq_nil.1 hpath
  have hf0 : ∀ {r₁ : Fs} {flags q f x kind : Nat} {e : TmpfsEntry},
      Created s r₁ t path d flags q f x e kind → f ≠ 0 := fun h =>
    ne_zero_of_obj (entries_eq_some.1 h.dir)
  constructor
  · intro r hmkdir
    have hrefused : refusedPath path = false := by
      by_contra hno
      have hno : refusedPath path = true := by simpa using hno
      simp [kmkdir, hno] at hmkdir
    simp only [kmkdir, hrefused, Bool.false_eq_true, if_false] at hmkdir
    obtain ⟨⟨fd, r₁⟩, hopen, hmkdir⟩ := Option.bind_eq_some_iff.1 hmkdir
    by_cases hfd : fd = KFD_ERROR
    · simp [hfd] at hmkdir
    obtain ⟨f, x, e, kind, q, r₂, r₃, hmade, hclose, hset, hent⟩ :=
      kfdOpen_excl hs hd hg (by decide) (by decide) hopen hfd
    obtain rfl : r₃ = r := by simpa [hfd, hclose] using hmkdir
    have hkind : kvfsStatIsDir kind = true := by
      have hif := hmade.kind
      rwa [if_pos (by decide)] at hif
    obtain ⟨r', hremove, hrestored⟩ := hmade.cancels hs hd hg hnames hset hent hkind
      fun u node hnode hx => (ktmpfsUnlink_new (hf0 hmade) hnode hx).2
    exact ⟨r', by simp [krmdir, hrefused, kvfsRmdir, hremove], hrestored⟩
  · intro mode fd r hopen hfd
    obtain ⟨f, x, e, kind, q, r₂, r₃, hmade, hclose, hset, hent⟩ :=
      kfdOpen_excl hs hd hg (by decide) (by decide) hopen hfd
    have hkind : kvfsStatIsReg kind = true := by
      have hif := hmade.kind
      rwa [if_neg (by decide)] at hif
    obtain ⟨r', hremove, hrestored⟩ := hmade.cancels hs hd hg hnames hset hent hkind
      fun u node hnode hx => (ktmpfsUnlink_new (hf0 hmade) hnode hx).1
    exact ⟨r₃, r', hclose, hremove, hrestored⟩

/-- A directory made in the root and removed again. -/
theorem creation_cancels_root : ∃ r r', mountedRoot.kmkdir 0 [slash, 0x64] = some (0, r) ∧
    r.krmdir [slash, 0x64] = some (0, r') ∧ r'.entries = mountedRoot.entries := by
  obtain ⟨f, hfresh⟩ := freshMount_mountedRoot.stands
  have hmade : (mountedRoot.kmkdir 0 [slash, 0x64]).any (fun o => decide (o.1 = 0)) = true := by
    decide +kernel
  obtain ⟨⟨code, r⟩, hmkdir, hcode⟩ := (Option.any_eq_true _ _).1 hmade
  obtain rfl : code = 0 := of_decide_eq_true hcode
  obtain ⟨r', hrmdir, hrestored⟩ := (creation_cancels hfresh.stands
    (hfresh.stands.startsAt rfl) (fun _ => rfl) (by decide) 0).1 r hmkdir
  refine ⟨r, r', hmkdir, hrmdir, hrestored.exact fun q e he => ?_⟩
  rw [hfresh.entries, Function.update_apply] at he
  split_ifs at he
  obtain rfl := Option.some.inj he
  rfl

end Fs

end DelOs
