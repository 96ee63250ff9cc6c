import DelOs.Fs.DirOps
import DelOs.Fs.NewNodes

/-!
# Calls by path

What `kvfs_unlink`, `kvfs_rmdir` and `kvfs_open` do to a file system that stores a tree, for any
path.

* `Stands` — the file system stores the tree, and its root node is the root of the tree.
* `StartsAt` — the entry from which a path is walked is there.
* `kvfsUnlink_spec`, `kvfsRmdir_spec` — **the two calls remove at most the entry that the names in
  the table lead to**.
* `openMake_spec`, `openCreat_spec`, `openNode_spec` — the parts of `kvfs_open`.
* `kvfsOpen_spec` — **`kvfs_open` returns a new node**, adds at most one new leaf to the tree, and
  leaves the other records alone, unless it closes the working directory.
-/

namespace DelOs

open FirstFit LinkedList

namespace Fs

variable {s r : Fs} {m : Entries} {t : OrderedTree Ptr}

/-- The file system stores the tree, and its root node is there. -/
structure Stands (s : Fs) (t : OrderedTree Ptr) : Prop where
  tree : TreeStored s.entries t
  root : s.obj s.kvfsRootMountDir = some (.node (newNode t.root))

/-- The walk of the path starts at the entry `d`, which is there. -/
structure StartsAt (s : Fs) (path : CString) (d : Ptr) : Prop where
  node : s.obj (s.startNode path) = some (.node (newNode d))
  entry : ∃ e, s.entries d = some e

theorem Stands.root_live (h : Stands s t) : s.obj s.kvfsRootMountDir ≠ none := by
  simp [h.root]

/-- An absolute path starts at the root. -/
theorem Stands.startsAt (h : Stands s t) {path : CString}
    (hp : kvfsIsAbsolutePath path = true) : StartsAt s path t.root := by
  refine ⟨?_, (h.tree.mem _).1 t.root_mem⟩
  rw [startNode, if_pos hp, h.root]

/-! ## Removing -/

/-- What removing by path comes to: the entry `x` is taken away, or no entry changes. -/
def RemovesAt (s r : Fs) (t : OrderedTree Ptr) (x : Ptr) (removed : Bool) : Prop :=
  Keeps s r ∧ ((removed = true ∧ x ≠ 0 ∧ ∀ G, ∃ t', TreeChange G s.entries r.entries t x 0 t') ∨
    (removed = false ∧ r.entries = s.entries))

/-- What `ktmpfs_rmdir` does not remove: the root, and a directory with something in it. -/
def rmdirRefuses (e : TmpfsEntry) : Bool := decide (e.parent = 0) || decide (e.child ≠ 0)

/-- Removing by path leaves the node open that it has looked up: the file is of another kind, or
one that the operation refuses to remove.  The root's own node stays open anyway. -/
def removalLeaks (s : Fs) (path : CString) (isKind : Nat → Bool) (refuses : TmpfsEntry → Bool) :
    Bool :=
  (s.kvfsLookupOpen path).any fun (node, r) =>
    decide (node ≠ 0) && decide (node ≠ s.kvfsRootMountDir) && (r.nodeAt node).any fun n =>
      (r.entryAt n.priv).any fun e => !isKind e.stat.mode || refuses e

/-- `kvfs_unlink` and `kvfs_rmdir` for an operation that removes the entry of its node or changes
nothing. -/
theorem removeAt_spec (hs : Stands s t) {path : CString} {d : Ptr} (hd : StartsAt s path d)
    (isKind : Nat → Bool) (refuses : TmpfsEntry → Bool)
    (operation : Fs → Ptr → Option (Bool × Fs))
    (hop : ∀ (r : Fs) (node x : Ptr) (ex : TmpfsEntry), TreeStored r.entries t →
      r.obj node = some (.node (newNode x)) → r.entries x = some ex →
      isKind ex.stat.mode = true →
      (∃ r', operation r node = some (true, r') ∧ Removes r r' t x) ∨
        (refuses ex = true ∧ operation r node = some (false, r)))
    (hnodes : ∀ (r : Fs) (node : Ptr) (removed : Bool) (r' : Fs),
      operation r node = some (removed, r') → NewNodes r r' 0) :
    ∃ removed r, s.removeAt path isKind operation = some (removed, r) ∧
      RemovesAt s r t (walkTree s.entries t d (pathNames path)) removed ∧
      (s.removalLeaks path isKind refuses = false → NewNodes s r 0) := by
  obtain ⟨q, r₁, hlook, hopen, hnodes₁, htemp, -⟩ :=
    kvfsLookupOpen_part hs.tree s.includes_entries hs.root_live hd.node hd.entry
  have hsame : RemovesAt s r₁ t (walkTree s.entries t d (pathNames path)) false :=
    ⟨hopen.keeps, Or.inr ⟨rfl, hopen.entries⟩⟩
  by_cases hq : q = 0
  · exact ⟨false, r₁, by simp [removeAt, hlook, hq], hsame, fun _ => hq ▸ hnodes₁⟩
  obtain ⟨hnode, ex, hex⟩ := hopen.node hq
  have hex₁ : r₁.entries (walkTree s.entries t d (pathNames path)) = some ex := by
    rw [hopen.entries, hex]
  have hstat := kvfsGetStat_refers (refers_newNode hnode) (entries_eq_some.1 hex₁)
  -- the node that stays open is the root's, or one that is left over
  have hleft : (isKind ex.stat.mode = false ∨ refuses ex = true) →
      s.removalLeaks path isKind refuses = false → NewNodes s r₁ 0 := by
    intro hrefused hleak p n hp
    rcases hnodes₁ p n hp with rfl | hold
    · by_cases hroot : p = s.kvfsRootMountDir
      · exact Or.inr (hroot ▸ ⟨_, hs.root⟩)
      · exfalso
        have hpriv : (newNode (walkTree s.entries t d (pathNames path))).priv =
            walkTree s.entries t d (pathNames path) := rfl
        simp only [removalLeaks, hlook, Option.any_some, nodeAt_of_obj hnode, hpriv,
          entryAt_of_obj (entries_eq_some.1 hex₁)] at hleak
        rcases hrefused with hkind | hrefuses
        · simp [hq, hroot, hkind] at hleak
        · simp [hq, hroot, hrefuses] at hleak
    · exact Or.inr hold
  by_cases hkind : isKind ex.stat.mode = true
  · rcases hop r₁ q _ ex (by rw [hopen.entries]; exact hs.tree) hnode hex₁ hkind with
      ⟨r₂, hrem, hkeeps, hchange⟩ | ⟨hrefuses, hfail⟩
    · have hnode₂ := hkeeps.other _ _ hnode (by simp)
      obtain ⟨r₃, hclose, hent, -, -, hkeeps₃⟩ := kvfsClose_live hnode₂
      refine ⟨true, r₃, by simp [removeAt, hlook, hq, hstat, hkind, hrem, hclose],
        ⟨hkeeps₃ s (hopen.keeps.trans hkeeps) (htemp hq),
          Or.inl ⟨rfl, ne_zero_of_obj (entries_eq_some.1 hex), fun G => ?_⟩⟩, fun _ => ?_⟩
      · obtain ⟨t', ht'⟩ := hchange G
        rw [hopen.entries] at ht'
        exact ⟨t', by rw [hent]; exact ht'⟩
      · have hnew : NewNodes s r₂ q := by
          intro p n hp
          rcases hnodes r₁ q true r₂ hrem p n hp with h0 | ⟨n', hp'⟩
          · exact absurd h0 (ne_zero_of_obj hp)
          · exact hnodes₁ p n' hp'
        refine hnew.close hnode₂ hclose fun h => ⟨newNode t.root, ?_⟩
        rw [h, hkeeps.frame.root, hopen.keeps.frame.root]
        exact hs.root
    · exact ⟨false, r₁, by simp [removeAt, hlook, hq, hstat, hfail], hsame,
        hleft (Or.inr hrefuses)⟩
  · have hkind' : isKind ex.stat.mode = false := by simpa using hkind
    exact ⟨false, r₁, by simp [removeAt, hlook, hq, hstat, hkind], hsame, hleft (Or.inl hkind')⟩

/-- **`kvfs_unlink` removes at most the entry that the names in the table lead to.** -/
theorem kvfsUnlink_spec (hs : Stands s t) {path : CString} {d : Ptr} (hd : StartsAt s path d) :
    ∃ removed r, s.kvfsUnlink path = some (removed, r) ∧
      RemovesAt s r t (walkTree s.entries t d (pathNames path)) removed ∧
      (s.removalLeaks path kvfsStatIsReg (fun _ => false) = false → NewNodes s r 0) := by
  apply removeAt_spec hs hd
  · intro r node x ex ht hnode hx hreg
    exact Or.inl (ktmpfsUnlink_spec ht hnode hx hreg)
  · exact fun r node removed r' h => ktmpfsUnlink_newNodes h

/-- **`kvfs_rmdir` removes at most the entry that the names in the table lead to.** -/
theorem kvfsRmdir_spec (hs : Stands s t) {path : CString} {d : Ptr} (hd : StartsAt s path d) :
    ∃ removed r, s.kvfsRmdir path = some (removed, r) ∧
      RemovesAt s r t (walkTree s.entries t d (pathNames path)) removed ∧
      (s.removalLeaks path kvfsStatIsDir rmdirRefuses = false → NewNodes s r 0) := by
  apply removeAt_spec hs hd
  · intro r node x ex ht hnode hx _
    rcases ktmpfsRmdir_spec ht hnode hx with ⟨-, -, hrem⟩ | ⟨hrefused, hfail⟩
    · exact Or.inl hrem
    · refine Or.inr ⟨?_, hfail⟩
      by_contra hno
      have hno : ex.parent ≠ 0 ∧ ex.child = 0 := by simpa [rmdirRefuses] using hno
      exact hrefused ⟨mt (ht.parent_eq_zero hx).2 hno.1, ((ht.child x ex hx).eq_zero_iff).1 hno.2⟩
  · exact fun r node removed r' h => ktmpfsRmdir_newNodes h

/-! ## Opening -/

/-- What `kvfs_open` makes is a directory or a regular file. -/
theorem isDir_or_isReg {flags kind : Nat}
    (h : if flagSet flags KVFS_O_DIRECTORY = true then kvfsStatIsDir kind = true
      else kvfsStatIsReg kind = true) :
    kvfsStatIsDir kind = true ∨ kvfsStatIsReg kind = true := by
  split_ifs at h
  · exact Or.inl h
  · exact Or.inr h

/-- Making the file or the directory in the directory that the node stands for. -/
theorem openMake_spec {parent d : Ptr} (hparent : s.obj parent = some (.node (newNode d)))
    {e : TmpfsEntry} (hd : s.entries d = some e) (name : CString) (flags mode : Nat) :
    (e.isDir = false ∧ s.openMake parent name flags mode = some (false, s)) ∨
      ∃ x r kind, e.isDir = true ∧ s.openMake parent name flags mode = some (decide (x ≠ 0), r) ∧
        (if flagSet flags KVFS_O_DIRECTORY = true then kvfsStatIsDir kind = true
          else kvfsStatIsReg kind = true) ∧
        Made s r x (insertEntry s.entries d x e name kind) := by
  by_cases hdir : e.isDir = true
  · right
    unfold openMake
    split_ifs with hflag
    · obtain ⟨x, r, hmk, hmade⟩ := kvfsMkdir_spec hparent hd hdir name mode
      exact ⟨x, r, mkdirMode mode, hdir, hmk, isDir_mask_or _, hmade⟩
    · obtain ⟨x, r, hmk, hmade⟩ := kvfsCreate_spec hparent hd hdir name mode
      exact ⟨x, r, _, hdir, hmk, isReg_mask_or _, hmade⟩
  · left
    have hdir' : e.isDir = false := by simpa using hdir
    refine ⟨hdir', ?_⟩
    unfold openMake
    split_ifs
    · exact kvfsMkdir_notDir hparent hd hdir' name mode
    · exact kvfsCreate_notDir hparent hd hdir' name mode

/-- A name that is found nowhere in a directory is none of the two dotted names. -/
theorem findIn_eq_zero {m : Entries} (ht : TreeStored m t) {d : Ptr} {e : TmpfsEntry}
    (hd : m d = some e) (hdir : e.isDir = true) {name : CString}
    (hfind : findIn m t d name = 0) :
    name ≠ dotName ∧ name ≠ dotDotName ∧ ∀ q ∈ t.kids d, nameOf m q ≠ name := by
  have hd0 : d ≠ 0 := by
    rintro rfl
    rw [ht.zero] at hd
    cases hd
  simp only [findIn, hd, Option.map_some, Option.getD_some, hdir, Bool.true_eq_false,
    if_false] at hfind
  split_ifs at hfind with h1 h2 h3
  · exact absurd hfind hd0
  · exact absurd hfind hd0
  · obtain ⟨ep, hep⟩ := (ht.mem _).1 (t.parent_mem ((ht.mem d).2 ⟨e, hd⟩) h3)
    rw [hfind, ht.zero] at hep
    cases hep
  · refine ⟨h1, h2, fun q hq hname => ?_⟩
    cases hf : (t.kids d).find? fun q => decide (nameOf m q = name) with
    | none => simpa [hname] using List.find?_eq_none.1 hf q hq
    | some x =>
      rw [hf, Option.getD_some] at hfind
      obtain ⟨ex, hex⟩ := (ht.mem x).1 (t.kid_mem (List.mem_of_find?_eq_some hf)).2.1
      rw [hfind, ht.zero] at hex
      cases hex

/-- What is created is found. -/
theorem findIn_insert {m : Entries} (ht : TreeStored m t) {d x : Ptr} {e : TmpfsEntry}
    (hd : m d = some e) (hdir : e.isDir = true) (hx : m x = none) {name : CString} {mode : Nat}
    (hmem : t.Mem d) (hnew : ¬ t.Mem x) (hfind : findIn m t d name = 0) :
    findIn (insertEntry m d x e name mode) (t.insertLeaf d x hmem hnew) d name = x := by
  obtain ⟨h1, h2, -⟩ := findIn_eq_zero ht hd hdir hfind
  have hxd : x ≠ d := by
    rintro rfl
    rw [hx] at hd
    cases hd
  have hat : insertEntry m d x e name mode d =
      some { e with child := x, stat := kvfsStatIncNlink e.stat } := by
    simp [insertEntry]
  have hname : nameOf (insertEntry m d x e name mode) x = name := by
    simp [nameOf, insertEntry, hxd, newEntry]
  have hdir' : TmpfsEntry.isDir { e with child := x, stat := kvfsStatIncNlink e.stat } = true := hdir
  have hkids : (t.insertLeaf d x hmem hnew).kids d = x :: t.kids d := by
    simp [OrderedTree.insertLeaf]
  simp [findIn, hat, hdir', h1, h2, hkids, hname]

@[simp] theorem accmodeAllowed_root (st : VfsStat) (accmode : Nat) :
    accmodeAllowed st accmode = true := by
  unfold accmodeAllowed
  split_ifs <;> simp

/-- **The second lookup of `kvfs_open`**: a new node of the entry found, and the node of the parent
closed, unless that is the working directory and the lookup succeeds. -/
theorem openNode_part (ht : TreeStored m t) (hm : r.Includes m) {parent d : Ptr}
    (hparent : r.obj parent = some (.node (newNode d))) (hd : ∃ e, m d = some e)
    (name : CString) (flags : Nat) :
    ∃ q r', r.openNode parent name flags = some (q, r') ∧ r'.entries = r.entries ∧
      (q ≠ 0 → r.obj q = none ∧ findIn m t d name ≠ 0 ∧
        r'.obj q = some (.node (newNode (findIn m t d name)))) ∧
      (q = 0 → findIn m t d name ≠ 0 → r.pages 0 = false) ∧
      (NewNodes r r' q ∧
        (parent = r.kvfsRootMountDir ∨ parent = r.kvfsCwd ∨ r'.obj parent = none)) ∧
      ∀ s, Keeps s r → (Temp s parent ∨ (parent = s.kvfsCwd ∧ q ≠ 0)) → Keeps s r' := by
  obtain ⟨q, r₁, hlook, hfound⟩ := kvfsLookup_part ht hm hparent hd name
  have hreach := hfound.reached
  have hparent₁ := hreach.keeps.other _ _ hparent (by simp)
  obtain ⟨r₂, hclose, hent, -, hother, hkeeps⟩ := kvfsClose_live hparent₁
  obtain ⟨hnew₂, hgone⟩ := kvfsClose_gone hparent₁ hclose
  rw [hreach.frame.root] at hgone
  -- closing the parent adds no node to the one looked up
  have hnodes : NewNodes r r₂ q := by
    intro p n hp
    rcases hnew₂ p n hp with rfl | ⟨n', hp'⟩
    · exact absurd rfl (ne_zero_of_obj hp)
    · exact hreach.newNodes p n' hp'
  by_cases hq : q = 0
  · refine ⟨0, r₂, by simp [openNode, hlook, hq, hclose], hent.trans hreach.entries,
      fun h => absurd rfl h, fun _ hf => ?_, ⟨hq ▸ hnodes, hgone.imp_right Or.inr⟩,
      fun s hs hp => ?_⟩
    · rcases hfound with ⟨hf0, -⟩ | ⟨-, halloc⟩
      · exact absurd hf0 hf
      · rcases halloc.made with ⟨-, -, hpages⟩ | ⟨hq', -⟩
        · exact hpages
        · exact absurd hq hq'
    · rcases hp with hp | ⟨-, h0⟩
      · exact hkeeps s (hs.trans hreach.keeps) hp
      · exact absurd rfl h0
  · have hf := hreach.ne_zero hq
    obtain ⟨hdead, hnode⟩ := hreach.node hq
    obtain ⟨e, he⟩ := ht.findIn_mem hf
    have hstat := kvfsGetStat_refers (refers_newNode hnode)
      (entries_eq_some.1 (by rw [hreach.entries, hm _ e he]))
    have hqp : q ≠ parent := by
      rintro rfl
      rw [hdead] at hparent
      cases hparent
    by_cases hcwd : parent = r₁.kvfsCwd
    · have hunless : r₁.closeUnless r₁.kvfsCwd parent = some r₁ := by
        simp [closeUnless, hcwd]
      refine ⟨q, r₁, by simp [openNode, hlook, hq, hstat, hunless], hreach.entries,
        fun _ => ⟨hdead, hf, hnode⟩, fun h => absurd h hq,
        ⟨hreach.newNodes, Or.inr (Or.inl (hcwd.trans hreach.frame.cwd))⟩,
        fun s hs _ => hs.trans hreach.keeps⟩
    · refine ⟨q, r₂, by simp [openNode, hlook, hq, hstat, closeUnless, hcwd, hclose],
        hent.trans hreach.entries, fun _ => ⟨hdead, hf, by rw [hother q hqp, hnode]⟩,
        fun h => absurd h hq, ⟨hnodes, hgone.imp_right Or.inr⟩, fun s hs hp => ?_⟩
      have hs' := hs.trans hreach.keeps
      rcases hp with hp | ⟨hp, -⟩
      · exact hkeeps s hs' hp
      · exact absurd (hp.trans hs'.frame.cwd.symm) hcwd

/-- The same, where the entries in use are those of the tree. -/
theorem openNode_spec (ht : TreeStored r.entries t) {parent d : Ptr}
    (hparent : r.obj parent = some (.node (newNode d))) (hd : ∃ e, r.entries d = some e)
    (name : CString) (flags : Nat) :
    ∃ q r', r.openNode parent name flags = some (q, r') ∧ r'.entries = r.entries ∧
      (q ≠ 0 → r.obj q = none ∧ findIn r.entries t d name ≠ 0 ∧
        r'.obj q = some (.node (newNode (findIn r.entries t d name)))) ∧
      (q = 0 → findIn r.entries t d name ≠ 0 → r.pages 0 = false) ∧
      ∀ s, Keeps s r → (Temp s parent ∨ (parent = s.kvfsCwd ∧ q ≠ 0)) → Keeps s r' := by
  obtain ⟨q, r', hopen, hent, hq, hnull, -, hkeeps⟩ :=
    openNode_part ht r.includes_entries hparent hd name flags
  exact ⟨q, r', hopen, hent, hq, hnull, hkeeps⟩

/-- The parent is closed behind a part of `kvfs_open` that has made no node. -/
theorem closeParent {r₁ : Fs} {parent d : Ptr} (hk : Keeps r r₁) (hn : NewNodes r r₁ 0)
    (hparent : r₁.obj parent = some (.node (newNode d))) :
    ∃ r₂, r₁.kvfsClose parent = some r₂ ∧ r₂.entries = r₁.entries ∧ NewNodes r r₂ 0 ∧
      (parent = r.kvfsRootMountDir ∨ r₂.obj parent = none) ∧
      ∀ s, Keeps s r → Temp s parent → Keeps s r₂ := by
  obtain ⟨r₂, hclose, hent, -, -, hkeeps⟩ := kvfsClose_live hparent
  obtain ⟨hnew, hgone⟩ := kvfsClose_gone hparent hclose
  rw [hk.frame.root] at hgone
  exact ⟨r₂, hclose, hent, hn.trans hnew, hgone, fun s hs htemp => hkeeps s (hs.trans hk) htemp⟩

/-- `kvfs_open` goes on behind its part under `KVFS_O_CREAT`: there is at most one new entry, of
the name looked up. -/
structure CreatGoesOn (G : Prop) (r r' : Fs) (t t' : OrderedTree Ptr) (parent d fresh : Ptr)
    (name : CString) (flags : Nat) : Prop where
  change : TreeChange G r.entries r'.entries t 0 fresh t'
  named : fresh ≠ 0 → flagSet flags KVFS_O_CREAT = true ∧ nameOf r'.entries fresh = name
  parent : r'.obj parent = some (.node (newNode d))
  nodes : NewNodes r r' 0
  keeps : Keeps r r'
  same : flagSet flags KVFS_O_CREAT = false → r' = r ∧ t' = t
  found : flagSet flags KVFS_O_CREAT = true → r.pages 0 = true →
    findIn r'.entries t' d name ≠ 0 ∧ r'.pages 0 = r.pages 1

/-- It gives up there: the name is there and must not be, the parent is no directory, or the page
layers refuse. -/
structure CreatStops (r r' : Fs) (t : OrderedTree Ptr) (e : TmpfsEntry) (parent d : Ptr)
    (name : CString) (flags : Nat) : Prop where
  entries : r'.entries = r.entries
  creat : flagSet flags KVFS_O_CREAT = true
  why : r.pages 0 = true → e.isDir = false ∨
    (flagSet flags KVFS_O_EXCL = true ∧ findIn r.entries t d name ≠ 0)
  nodes : NewNodes r r' 0
  closed : parent = r.kvfsRootMountDir ∨ r'.obj parent = none
  keeps : ∀ s, Keeps s r → Temp s parent → Keeps s r'

/-- What the part under `KVFS_O_CREAT` comes to. -/
def CreatDone (G : Prop) (r : Fs) (t : OrderedTree Ptr) (e : TmpfsEntry) (parent d : Ptr)
    (name : CString) (flags : Nat) (done : Option (Bool × Fs)) : Prop :=
  (∃ r' t' fresh, done = some (true, r') ∧ CreatGoesOn G r r' t t' parent d fresh name flags) ∨
    ∃ r', done = some (false, r') ∧ CreatStops r r' t e parent d name flags

/-- The name was not found: it is made. -/
theorem openCreat_absent {G : Prop} (hG : G → r.Granted) (ht : TreeStored r.entries t)
    {parent d : Ptr} (hparent : r.obj parent = some (.node (newNode d))) {e : TmpfsEntry}
    (hd : r.entries d = some e) (st : VfsStat) {name : CString}
    (hname : name ≠ [] ∧ FitsName name) {flags : Nat} (mode : Nat)
    (hcreat : flagSet flags KVFS_O_CREAT = true) {r₁ : Fs}
    (hlook : r.kvfsLookup parent name = some (0, r₁))
    (hfound : Found r r₁ 0 (findIn r.entries t d name)) :
    CreatDone G r t e parent d name flags (r.openCreat parent st name flags mode) := by
  have hreach := hfound.reached
  have hparent₁ := hreach.keeps.other _ _ hparent (by simp)
  have hent₁ := hreach.entries
  have hnodes₁ := hreach.newNodes
  have hfind : r.pages 0 = true → findIn r.entries t d name = 0 ∧ r₁ = r := by
    intro hpages
    rcases hfound with ⟨hf, -, rfl⟩ | ⟨-, halloc⟩
    · exact ⟨hf, rfl⟩
    · rcases halloc.made with ⟨-, -, hno⟩ | ⟨hp', -⟩
      · rw [hno] at hpages
        cases hpages
      · exact absurd rfl hp'
  have hd₁ : r₁.entries d = some e := by rw [hent₁, hd]
  rcases openMake_spec hparent₁ hd₁ name flags mode with
    ⟨hdir, hmake⟩ | ⟨x, r₂, kind, hdir, hmake, hkind, hmade⟩
  · obtain ⟨r₂, hclose, hent, hnodes, hclosed, hkeeps⟩ :=
      closeParent hreach.keeps hnodes₁ hparent₁
    exact Or.inr ⟨r₂, by simp [openCreat, hcreat, hlook, hmake, hclose], hent.trans hent₁, hcreat,
      fun _ => Or.inl hdir, hnodes, hclosed, hkeeps⟩
  have hparent₂ := hmade.keeps.other _ _ hparent₁ (by simp)
  have hkeeps₂ := hreach.keeps.trans hmade.keeps
  have hnodes₂ := hnodes₁.trans (openMake_newNodes hmake)
  by_cases hx : x = 0
  · obtain ⟨r₃, hclose, hent, hnodes, hclosed, hkeeps⟩ := closeParent hkeeps₂ hnodes₂ hparent₂
    have hnone : r₂.entries = r₁.entries ∧ r₁.pages 0 = false := by
      rcases hmade.made with ⟨-, h⟩ | ⟨hx', -⟩
      · exact h
      · exact absurd hx hx'
    refine Or.inr ⟨r₃, by simp [openCreat, hcreat, hlook, hmake, hx, hclose],
      hent.trans (hnone.1.trans hent₁), hcreat, fun hpages => ?_, hnodes, hclosed, hkeeps⟩
    rw [(hfind hpages).2, hpages] at hnone
    cases hnone.2
  · obtain ⟨-, hdead, hent₂⟩ := hmade.made.resolve_left fun h => hx h.1
    have hxm : r.entries x = none := by
      rw [← hent₁]
      unfold entries
      rw [hdead]
    have hmem : t.Mem d := (ht.mem d).2 ⟨e, hd⟩
    have hnew := ht.not_mem hxm
    have hxd : x ≠ d := by
      rintro rfl
      rw [hxm] at hd
      cases hd
    rw [hent₁] at hent₂
    refine Or.inl ⟨r₂, t.insertLeaf d x hmem hnew, x,
      by simp [openCreat, hcreat, hlook, hmake, hx],
      .insert hd hdir hxm hx (isDir_or_isReg hkind) hmem hnew hname
        (fun hg => (hfind (hG hg 0)).1) hent₂,
      fun _ => ⟨hcreat, ?_⟩, hparent₂, hnodes₂, hkeeps₂, fun h => ?_, fun _ hpages => ⟨?_, ?_⟩⟩
    · rw [hent₂]
      simp [nameOf, insertEntry, hxd, newEntry]
    · rw [hcreat] at h
      cases h
    · rw [hent₂, findIn_insert ht hd hdir hxm hmem hnew (hfind hpages).1]
      exact hx
    · rw [hmade.pages, (hfind hpages).2]

/-- The name was found: its node is closed again. -/
theorem openCreat_found {G : Prop} (hroot : r.obj r.kvfsRootMountDir ≠ none) {parent d : Ptr}
    (hparent : r.obj parent = some (.node (newNode d))) {e : TmpfsEntry} (st : VfsStat)
    {name : CString} {flags : Nat} (mode : Nat) (hcreat : flagSet flags KVFS_O_CREAT = true)
    {r₁ : Fs} {p : Ptr} (hlook : r.kvfsLookup parent name = some (p, r₁)) (hp : p ≠ 0)
    (hfound : Found r r₁ p (findIn r.entries t d name)) :
    CreatDone G r t e parent d name flags (r.openCreat parent st name flags mode) := by
  have hreach := hfound.reached
  have hparent₁ := hreach.keeps.other _ _ hparent (by simp)
  have hf := hreach.ne_zero hp
  obtain ⟨hdead, hnode⟩ := hreach.node hp
  obtain ⟨r₂, hclose, hent₂, hpages₂, hother, hkeeps₂⟩ := kvfsClose_live hnode
  have hpp : parent ≠ p := by
    rintro rfl
    rw [hdead] at hparent
    cases hparent
  have hparent₂ : r₂.obj parent = some (.node (newNode d)) := by rw [hother parent hpp, hparent₁]
  have hpages₁ : r₁.pages = fun k => r.pages (k + 1) := by
    rcases hfound with ⟨h0, -⟩ | ⟨-, halloc⟩
    · exact absurd h0 hf
    · exact halloc.pages
  have hkeeps : Keeps r r₂ := hkeeps₂ r hreach.keeps ((Keeps.refl r).temp hdead)
  have hent : r₂.entries = r.entries := hent₂.trans hreach.entries
  have hnodes : NewNodes r r₂ 0 := hreach.newNodes.close hnode hclose fun h => by
    rw [h, hreach.frame.root] at hdead
    exact absurd hdead hroot
  by_cases hexcl : flagSet flags KVFS_O_EXCL = true
  · obtain ⟨r₃, hclose₃, hent₃, hnodes₃, hclosed, hkeeps₃⟩ := closeParent hkeeps hnodes hparent₂
    exact Or.inr ⟨r₃, by simp [openCreat, hcreat, hlook, hp, hclose, hexcl, hclose₃],
      hent₃.trans hent, hcreat, fun _ => Or.inr ⟨hexcl, hf⟩, hnodes₃, hclosed, hkeeps₃⟩
  · refine Or.inl ⟨r₂, t, 0, by simp [openCreat, hcreat, hlook, hp, hclose, hexcl], .same hent,
      fun h => absurd rfl h, hparent₂, hnodes, hkeeps, fun h => ?_, fun _ _ => ⟨?_, ?_⟩⟩
    · rw [hcreat] at h
      cases h
    · rw [hent]
      exact hf
    · rw [hpages₂, hpages₁]

/-- **The part of `kvfs_open` under `KVFS_O_CREAT`** makes at most one new entry, of the name
looked up. -/
theorem openCreat_spec {G : Prop} (hG : G → r.Granted) (ht : TreeStored r.entries t)
    (hroot : r.obj r.kvfsRootMountDir ≠ none) {parent d : Ptr}
    (hparent : r.obj parent = some (.node (newNode d))) {e : TmpfsEntry}
    (hd : r.entries d = some e) (st : VfsStat) {name : CString}
    (hname : name ≠ [] ∧ FitsName name) (flags mode : Nat) :
    CreatDone G r t e parent d name flags (r.openCreat parent st name flags mode) := by
  by_cases hcreat : flagSet flags KVFS_O_CREAT = true
  · obtain ⟨p, r₁, hlook, hfound⟩ := kvfsLookup_spec ht hparent ⟨e, hd⟩ name
    by_cases hp : p = 0
    · subst hp
      exact openCreat_absent hG ht hparent hd st hname mode hcreat hlook hfound
    · exact openCreat_found hroot hparent st mode hcreat hlook hp hfound
  · refine Or.inl ⟨r, t, 0, by simp [openCreat, hcreat], .same rfl, fun h => absurd rfl h, hparent,
      NewNodes.refl r 0, Keeps.refl r, fun _ => ⟨rfl, rfl⟩, fun h => absurd h hcreat⟩

/-- The last step of `kvfs_open` for a name in the working directory succeeds: the name is there,
or it is to be created and can be, and the page layers grant what this takes. -/
def opensInCwd (s : Fs) (name : CString) (flags : Nat) : Bool :=
  (s.nodeAt s.kvfsCwd).any fun n => (s.findEntry n.priv name).any fun found =>
    s.pages 0 &&
      if flagSet flags KVFS_O_CREAT then
        s.pages 1 && if found = 0 then (s.entryAt n.priv).any TmpfsEntry.isDir
          else !flagSet flags KVFS_O_EXCL
      else found ≠ 0

/-- `kvfs_open` of the path does not close the node of the working directory: this happens only
for a path of one name, looked up in a working directory other than the root, when the last step
does not succeed. -/
def KeepsCwd (s : Fs) (path : CString) (flags : Nat) : Prop :=
  kvfsIsAbsolutePath path = true ∨ s.kvfsCwd = s.kvfsRootMountDir ∨
    (kvfsSplitPath path).length ≠ 1 ∨ s.opensInCwd (lastName path) flags = true

instance (s : Fs) (path : CString) (flags : Nat) : Decidable (s.KeepsCwd path flags) :=
  inferInstanceAs (Decidable (_ ∨ _ ∨ _ ∨ _))

theorem opensInCwd_eq (ht : TreeStored s.entries t) {d : Ptr}
    (hnode : s.obj s.kvfsCwd = some (.node (newNode d))) {e : TmpfsEntry}
    (he : s.entries d = some e) (name : CString) (flags : Nat) :
    s.opensInCwd name flags = (s.pages 0 &&
      if flagSet flags KVFS_O_CREAT then
        s.pages 1 && if findIn s.entries t d name = 0 then e.isDir
          else !flagSet flags KVFS_O_EXCL
      else decide (findIn s.entries t d name ≠ 0)) := by
  have hpriv : (newNode d).priv = d := rfl
  simp [opensInCwd, nodeAt_of_obj hnode, hpriv, ht.findEntry he,
    entryAt_of_obj (entries_eq_some.1 he)]

/-- What `kvfs_open` comes to: at most one new entry, of the last name of the path, and `q` is
`NULL` or a new node of the entry `x`. -/
structure Opens (s r : Fs) (t t' : OrderedTree Ptr) (path : CString) (flags : Nat)
    (q fresh x : Ptr) : Prop where
  change : TreeChange s.Granted s.entries r.entries t 0 fresh t'
  named : fresh ≠ 0 → flagSet flags KVFS_O_CREAT = true ∧ nameOf r.entries fresh = lastName path
  node : q ≠ 0 → r.obj q = some (.node (newNode x)) ∧ (∃ e, r.entries x = some e) ∧
    ∀ n, s.obj q ≠ some (.node n)
  nodes : (∃ n, s.obj s.kvfsCwd = some (.node n)) → NewNodes s r q

/-- The parent is given back: the nodes that are left are those from before the walk, and `q`. -/
theorem NewNodes.giveBack {r₁ r₂ : Fs} {parent q : Ptr} (hs : Stands s t)
    (hcwd : ∃ n, s.obj s.kvfsCwd = some (.node n)) (h : NewNodes s r₁ parent)
    (h' : NewNodes r₁ r₂ q)
    (hparent : parent = s.kvfsRootMountDir ∨ parent = s.kvfsCwd ∨ r₂.obj parent = none) :
    NewNodes s r₂ q := by
  intro p n hp
  rcases h' p n hp with hq | ⟨n', hp'⟩
  · exact Or.inl hq
  rcases h p n' hp' with rfl | hold
  · right
    rcases hparent with rfl | rfl | hgone
    · exact ⟨_, hs.root⟩
    · exact hcwd
    · rw [hgone] at hp
      cases hp
  · exact Or.inr hold

/-- A step of `kvfs_open` in the working directory does not fail where `opensInCwd` holds. -/
theorem CreatStops.not_opensInCwd {e : TmpfsEntry} {d : Ptr} {name : CString} {flags : Nat}
    (h : CreatStops s r t e s.kvfsCwd d name flags) (ht : TreeStored s.entries t)
    (hnode : s.obj s.kvfsCwd = some (.node (newNode d))) (he : s.entries d = some e)
    (hopens : s.opensInCwd name flags = true) : False := by
  rw [opensInCwd_eq ht hnode he, h.creat, if_pos rfl] at hopens
  obtain ⟨hpages, -, hopens⟩ : _ ∧ _ ∧ _ := by simpa only [Bool.and_eq_true] using hopens
  rcases h.why hpages with hdir | ⟨hexcl, hfind⟩
  · have hfind : findIn s.entries t d name = 0 := by simp [findIn, he, hdir]
    rw [if_pos hfind, hdir] at hopens
    cases hopens
  · rw [if_neg hfind, hexcl] at hopens
    cases hopens

/-- Nor does the second lookup. -/
theorem CreatGoesOn.opensInCwd {G : Prop} {t' : OrderedTree Ptr} {e : TmpfsEntry} {d fresh : Ptr}
    {name : CString} {flags : Nat} (h : CreatGoesOn G s r t t' s.kvfsCwd d fresh name flags)
    (ht : TreeStored s.entries t) (hnode : s.obj s.kvfsCwd = some (.node (newNode d)))
    (he : s.entries d = some e) (hopens : s.opensInCwd name flags = true) :
    ¬(findIn r.entries t' d name ≠ 0 → r.pages 0 = false) := by
  intro hnull
  rw [opensInCwd_eq ht hnode he] at hopens
  obtain ⟨hpages, hopens⟩ := (Bool.and_eq_true _ _).mp hopens
  by_cases hflag : flagSet flags KVFS_O_CREAT = true
  · obtain ⟨hfind, hpages₂⟩ := h.found hflag hpages
    rw [if_pos hflag, ← hpages₂, hnull hfind] at hopens
    cases hopens
  · obtain ⟨rfl, rfl⟩ := h.same (by simpa using hflag)
    rw [if_neg hflag] at hopens
    rw [hnull (of_decide_eq_true hopens)] at hpages
    cases hpages

/-- **`kvfs_open` returns a new node**, adds at most one entry, and keeps all other records, unless
it closes the working directory. -/
theorem kvfsOpen_spec (hs : Stands s t) {path : CString} {d : Ptr} (hd : StartsAt s path d)
    (flags mode : Nat) :
    ∃ q r fresh x t', s.kvfsOpen path flags mode = some (q, r) ∧
      Opens s r t t' path flags q fresh x ∧ (s.KeepsCwd path flags → Keeps s r) := by
  obtain ⟨parent, r₁, hresolve, hopen, hnodes₁, hlast, hparent, -⟩ :=
    kvfsResolveParentFrom_part hs.tree s.includes_entries hs.root_live hd.node hd.entry
  by_cases hp0 : parent = 0
  · exact ⟨0, r₁, 0, 0, t, by simp [kvfsOpen, hresolve, hp0], ⟨.same hopen.entries,
      fun h => absurd rfl h, fun h => absurd rfl h, fun _ => hp0 ▸ hnodes₁⟩, fun _ => hopen.keeps⟩
  obtain ⟨hnode, e, he⟩ := hopen.node hp0
  have hent₁ := hopen.entries
  generalize walkTree s.entries t d (pathNames path).dropLast = f at hnode he
  have ht₁ : TreeStored r₁.entries t := by rw [hent₁]; exact hs.tree
  have he₁ : r₁.entries f = some e := by rw [hent₁, he]
  have hstat := kvfsGetStat_refers (refers_newNode hnode) (entries_eq_some.1 he₁)
  have hroot₁ : r₁.kvfsRootMountDir = s.kvfsRootMountDir := hopen.keeps.frame.root
  have hroot : r₁.obj r₁.kvfsRootMountDir ≠ none := by
    rw [hroot₁, hopen.keeps.other _ _ hs.root (by simp)]
    simp
  -- the step that looks the name up in the working directory, if there is one
  have hcwd : s.KeepsCwd path flags → Temp s parent ∨ (parent = s.kvfsCwd ∧ r₁ = s ∧
      s.opensInCwd (lastName path) flags = true) := by
    intro hkeeps
    rcases hparent hp0 with htemp | ⟨hpc, hrs, habs, hsplit⟩
    · exact Or.inl htemp
    · rcases hkeeps with h | h | h | h
      · rw [habs] at h
        cases h
      · exact Or.inl (Or.inl (hpc.trans h))
      · exact absurd (by rw [hsplit]; rfl) h
      · exact Or.inr ⟨hpc, hrs, h⟩
  rcases openCreat_spec (G := s.Granted) hopen.keeps.frame.granted ht₁ hroot hnode he₁ e.stat
      (kvfsSplitPath_valid (hlast hp0)) flags mode with
    ⟨r₂, t', fresh, hcreat, hon⟩ | ⟨r₂, hcreat, hoff⟩
  · have hfd : ∃ e', r₂.entries f = some e' := by
      have hf0 : f ≠ 0 := ne_zero_of_obj (entries_eq_some.1 he₁)
      obtain ⟨e', he', -⟩ := hon.change.kept he₁ hf0
      exact ⟨e', he'⟩
    obtain ⟨q, r₃, hopenNode, hent₃, hq, hnull, ⟨hnodes₃, hclosed⟩, hkeeps₃⟩ :=
      openNode_part (hon.change.stored ht₁) r₂.includes_entries hon.parent hfd (lastName path)
        flags
    have hkeeps : Keeps s r₂ := hopen.keeps.trans hon.keeps
    have hchange := hon.change
    rw [← hent₃, hent₁] at hchange
    refine ⟨q, r₃, fresh, findIn r₂.entries t' f (lastName path), t',
      by simp [kvfsOpen, hresolve, hp0, hstat, hcreat, hopenNode], ⟨hchange, fun h => ?_,
        fun hq0 => ?_, fun hc => ?_⟩, fun hk => ?_⟩
    · rw [hent₃]
      exact hon.named h
    · obtain ⟨hdead, hfind, hnode₃⟩ := hq hq0
      refine ⟨hnode₃, ?_, hkeeps.not_node hdead⟩
      rw [hent₃] at hchange ⊢
      exact (hchange.stored hs.tree).findIn_mem hfind
    · rw [hon.keeps.frame.root, hon.keeps.frame.cwd, hroot₁, hopen.keeps.frame.cwd] at hclosed
      exact hnodes₁.giveBack hs hc (hon.nodes.trans hnodes₃) hclosed
    · rcases hcwd hk with htemp | ⟨rfl, rfl, hopens⟩
      · exact hkeeps₃ s hkeeps (Or.inl htemp)
      · refine hkeeps₃ r₁ hkeeps (Or.inr ⟨rfl, fun hq0 => ?_⟩)
        exact hon.opensInCwd ht₁ hnode he hopens (hnull hq0)
  · refine ⟨0, r₂, 0, 0, t, by simp [kvfsOpen, hresolve, hp0, hstat, hcreat],
      ⟨.same (hoff.entries.trans hent₁), fun h => absurd rfl h, fun h => absurd rfl h,
        fun hc => ?_⟩, fun hkeeps => ?_⟩
    · have hclosed := hoff.closed
      rw [hroot₁] at hclosed
      exact hnodes₁.giveBack hs hc hoff.nodes (hclosed.imp_right Or.inr)
    · rcases hcwd hkeeps with htemp | ⟨rfl, rfl, hopens⟩
      · exact hoff.keeps s hopen.keeps htemp
      · exact (hoff.not_opensInCwd ht₁ hnode he hopens).elim

end Fs

end DelOs
