import DelOs.Fs.PathCalls

/-!
# The file that a path names

`kvfs_split_path` cuts a path into a table of at most `KVFS_MAX_PATH_PARTS` names: a component
longer than `KVFS_MAX_NAME_LEN - 1` bytes is cut into several names, and the components for which
the table has no room are dropped.  The functions that walk the table never hear of it.

* `Fits` — the whole path has room in the table.
* `walkTree s.entries t d (components path)` — the entry that the path is meant to name.
* `ActsOnPath` — the calls by path find that entry, or none, and remove no other one.
* `CutHarmless` — the path fits, or what the table keeps of it leads nowhere, or what is dropped
  leads back to where it was dropped.
* `acts_on_path_iff` — **the calls act on the file that the path names if and only if the cut is
  harmless**.
* `long_name_acts_on_other` — a path with a component that is too long, and the file of another
  path that is found and removed in its place.
-/

namespace DelOs

namespace Fs

variable {s : Fs} {t : OrderedTree Ptr}

/-- The names of all entries fit the buffers that hold them. -/
def NamesFit (m : Entries) : Prop := ∀ q e, m q = some e → FitsName e.name

/-- The table of `kvfs_split_path` has room for the whole path. -/
def Fits (path : CString) : Prop :=
  (∀ name ∈ components path, FitsName name) ∧ (components path).length ≤ partsRoom path

instance (path : CString) : Decidable (Fits path) := inferInstanceAs (Decidable (_ ∧ _))

/-- What the table keeps of the path leads to the entry that the whole path leads to: nothing has
been cut, or it leads nowhere, or the names dropped lead from there back to the same entry. -/
def CutHarmless (s : Fs) (t : OrderedTree Ptr) (path : CString) (d : Ptr) : Prop :=
  Fits path ∨ walkTree s.entries t d (pathNames path) = 0 ∨
    ((∀ name ∈ components path, FitsName name) ∧
      walkTree s.entries t (walkTree s.entries t d (pathNames path))
        ((components path).drop (partsRoom path)) = walkTree s.entries t d (pathNames path))

/-- The calls by path act on the entry that the components of the path lead to. -/
structure ActsOnPath (s : Fs) (t : OrderedTree Ptr) (path : CString) (d : Ptr) : Prop where
  lookup : ∃ q r, s.kvfsLookupOpen path = some (q, r) ∧
    (q ≠ 0 → walkTree s.entries t d (components path) ≠ 0 ∧
      r.Refers q (walkTree s.entries t d (components path)))
  unlink : ∃ removed r, s.kvfsUnlink path = some (removed, r) ∧ ∀ x, s.entries x ≠ none →
    r.entries x = none → x = walkTree s.entries t d (components path)
  rmdir : ∃ removed r, s.kvfsRmdir path = some (removed, r) ∧ ∀ x, s.entries x ≠ none →
    r.entries x = none → x = walkTree s.entries t d (components path)

/-! ## The cut -/

/-- No directory has a name that no buffer can hold. -/
theorem findIn_of_not_fits (ht : TreeStored s.entries t) (hfit : NamesFit s.entries) {d : Ptr}
    {name : CString} (hname : ¬ FitsName name) : findIn s.entries t d name = 0 := by
  have hdot : name ≠ dotName := by
    rintro rfl
    exact hname (by decide)
  have hdots : name ≠ dotDotName := by
    rintro rfl
    exact hname (by decide)
  have hnone : ((t.kids d).find? fun q => decide (nameOf s.entries q = name)) = none := by
    rw [List.find?_eq_none]
    intro q hq heq
    obtain ⟨e, he⟩ := (ht.mem q).1 (t.kid_mem hq).2.1
    apply hname
    rw [← of_decide_eq_true heq, nameOf, he]
    exact hfit q e he
  simp [findIn, hdot, hdots, hnone]

/-- A path with a component that no buffer can hold names nothing. -/
theorem walkTree_of_not_fits (ht : TreeStored s.entries t) (hfit : NamesFit s.entries) {d : Ptr}
    {names : List CString} (hnames : ¬ ∀ name ∈ names, FitsName name) :
    walkTree s.entries t d names = 0 := by
  induction names generalizing d with
  | nil => exact absurd (by simp) hnames
  | cons name names ih =>
    show walkTree s.entries t (findIn s.entries t d name) names = 0
    by_cases hname : FitsName name
    · apply ih
      intro hrest
      exact hnames (by simpa [hname] using hrest)
    · rw [findIn_of_not_fits ht hfit hname, walkTree_zero ht.zero]

/-- The cut is harmless if and only if what is kept of the path leads nowhere, or to the entry that
the whole path leads to. -/
theorem cutHarmless_iff (ht : TreeStored s.entries t) (hfit : NamesFit s.entries) {path : CString}
    {d : Ptr} :
    CutHarmless s t path d ↔ walkTree s.entries t d (pathNames path) = 0 ∨
      walkTree s.entries t d (pathNames path) = walkTree s.entries t d (components path) := by
  by_cases hshort : ∀ name ∈ components path, FitsName name
  · have hkept : pathNames path = (components path).take (partsRoom path) :=
      splitParts_eq _ hshort
    have hwhole : walkTree s.entries t d (components path) =
        walkTree s.entries t (walkTree s.entries t d (pathNames path))
          ((components path).drop (partsRoom path)) := by
      rw [hkept, ← walkTree_append, List.take_append_drop]
    constructor
    · rintro (hfits | hnull | ⟨-, hback⟩)
      · right
        rw [hkept, List.take_of_length_le hfits.2]
      · exact Or.inl hnull
      · exact Or.inr (hback.symm.trans hwhole.symm)
    · rintro (hnull | hsame)
      · exact Or.inr (Or.inl hnull)
      · exact Or.inr (Or.inr ⟨hshort, (hsame.trans hwhole).symm⟩)
  · -- a component is too long: the path names nothing
    rw [walkTree_of_not_fits ht hfit hshort, or_self]
    constructor
    · rintro (hfits | hnull | ⟨hshort', -⟩)
      · exact absurd hfits.1 hshort
      · exact hnull
      · exact absurd hshort' hshort
    · exact fun hnull => Or.inr (Or.inl hnull)

/-! ## The calls -/

/-- What one of the two removing calls has removed. -/
theorem RemovesAt.gone_eq {r : Fs} {x y : Ptr} {removed : Bool} (h : RemovesAt s r t x removed)
    (hy : s.entries y ≠ none) (hgone : r.entries y = none) : y = x := by
  by_contra hne
  obtain ⟨e, he⟩ := Option.ne_none_iff_exists'.1 hy
  rcases h.2 with ⟨-, -, hchange⟩ | ⟨-, hsame⟩
  · obtain ⟨t', ht'⟩ := hchange True
    obtain ⟨e', he', -⟩ := ht'.kept he hne
    rw [he'] at hgone
    cases hgone
  · rw [hsame, he] at hgone
    cases hgone

/-- An empty table is one of a path without components. -/
theorem components_of_kvfsSplitPath {path : CString} (h : kvfsSplitPath path = []) :
    components path = [] ∧ pathNames path = [] := by
  rw [kvfsSplitPath_eq, List.append_eq_nil_iff] at h
  refine ⟨?_, h.2⟩
  have habs : kvfsIsAbsolutePath path ≠ true := by
    intro habs
    rw [if_pos habs] at h
    exact absurd h.1 (by simp)
  have hroom : partsRoom path = KVFS_MAX_PATH_PARTS := if_neg habs
  rw [← components_skipSlashes]
  cases hpath : skipSlashes path with
  | nil => rfl
  | cons c rest =>
    rw [hpath, hroom] at h
    exact absurd h.2 (by simp [KVFS_MAX_PATH_PARTS, splitParts])

/-- The calls by path act on the entry that the names in the table lead to. -/
theorem actsOnPath_of_kept (hs : Stands s t) {path : CString} {d : Ptr} (hd : StartsAt s path d)
    (h : walkTree s.entries t d (pathNames path) = 0 ∨
      walkTree s.entries t d (pathNames path) = walkTree s.entries t d (components path)) :
    ActsOnPath s t path d := by
  -- an entry that the kept names lead to is the one that all of them lead to
  have hsame : ∀ {x}, (∃ e, s.entries x = some e) →
      x = walkTree s.entries t d (pathNames path) → x = walkTree s.entries t d (components path) := by
    rintro x ⟨e, he⟩ rfl
    rcases h with h0 | hsame
    · rw [h0, hs.tree.zero] at he
      cases he
    · exact hsame
  obtain ⟨q, r, hlook, hopen, -, -⟩ :=
    kvfsLookupOpen_spec hs.tree hs.root_live hd.node hd.entry
  obtain ⟨unlinked, r₁, hunlink, hrem₁, -⟩ := kvfsUnlink_spec hs hd
  obtain ⟨removed, r₂, hrmdir, hrem₂, -⟩ := kvfsRmdir_spec hs hd
  refine ⟨⟨q, r, hlook, fun hq => ?_⟩, ⟨unlinked, r₁, hunlink, fun x hx hgone => ?_⟩,
    ⟨removed, r₂, hrmdir, fun x hx hgone => ?_⟩⟩
  · obtain ⟨hnode, he⟩ := hopen.node hq
    have hw := hsame he rfl
    rw [← hw]
    refine ⟨?_, refers_newNode hnode⟩
    obtain ⟨e, he⟩ := he
    exact ne_zero_of_obj (entries_eq_some.1 he)
  · exact hsame (Option.ne_none_iff_exists'.1 hx) (hrem₁.gone_eq hx hgone)
  · exact hsame (Option.ne_none_iff_exists'.1 hx) (hrem₂.gone_eq hx hgone)

/-- **The calls by path act on the file that the path names if and only if the cut is harmless**,
whatever the page layers answer. -/
theorem acts_on_path_iff (hs : Stands s t) (hfit : NamesFit s.entries) {path : CString} {d : Ptr}
    (hd : StartsAt s path d) :
    (∀ pages, ActsOnPath { s with pages := pages } t path d) ↔ CutHarmless s t path d := by
  rw [cutHarmless_iff hs.tree hfit]
  constructor
  · intro h
    -- with memory for its nodes, the walk arrives
    obtain ⟨q, r, hlook, hopen, -, hnull⟩ := kvfsLookupOpen_spec (s := { s with
      pages := fun _ => true }) hs.tree hs.root_live hd.node hd.entry
    obtain ⟨q', r', hlook', hright⟩ := (h fun _ => true).lookup
    obtain ⟨rfl, rfl⟩ : q = q' ∧ r = r' := by simpa [hlook] using hlook'
    by_cases hq : q = 0
    · by_cases hparts : kvfsSplitPath path = []
      · obtain ⟨hcomp, hnames⟩ := components_of_kvfsSplitPath hparts
        rw [hcomp, hnames]
        exact Or.inr rfl
      · left
        by_contra hne
        exact hnull hq hparts hne fun _ => rfl
    · right
      obtain ⟨-, n, hn, -, hpriv⟩ := hright hq
      obtain ⟨hnode, -⟩ := hopen.node hq
      rw [hnode] at hn
      obtain rfl : newNode _ = n := by simpa using hn
      exact hpriv
  · intro h pages
    exact actsOnPath_of_kept (s := { s with pages := pages }) ⟨hs.tree, hs.root⟩
      ⟨hd.node, hd.entry⟩ h

/-! ## A component that is too long -/

/-- The longest name that a buffer holds. -/
def longestName : CString := List.replicate 254 0x61

/-- The root with a directory of the longest name, and a file `"b"` in that directory. -/
def longNameTree : Fs where
  heap :=
    [⟨4084, false, .entry (newEntry [0x62] 0 3 (0o644 ||| KVFS_STAT_IFREG))⟩,
      ⟨4084, false, .entry { newEntry longestName 0 1 (0o755 ||| KVFS_STAT_IFDIR) with
        child := 4
        stat := kvfsStatIncNlink (kvfsStatCreate (0o755 ||| KVFS_STAT_IFDIR)) }⟩,
      ⟨4084, false, .node (newNode 1)⟩,
      ⟨4084, false, .entry { newEntry [slash] 0 0 (0o755 ||| KVFS_STAT_IFDIR) with
        child := 3
        stat := kvfsStatIncNlink (kvfsStatCreate (0o755 ||| KVFS_STAT_IFDIR)) }⟩]
  kvfsRootMountDir := 2
  kvfsCwd := 2
  fds := fun _ _ => 0
  pages := fun _ => true
  junk := fun _ => 0

/-- The root alone. -/
def rootEntries : Entries := Function.update (fun _ => none) 1
  (some (newEntry [slash] 0 0 (0o755 ||| KVFS_STAT_IFDIR)))

theorem entries_longNameTree : longNameTree.entries =
    insertEntry (insertEntry rootEntries 1 3 (newEntry [slash] 0 0 (0o755 ||| KVFS_STAT_IFDIR))
      longestName (0o755 ||| KVFS_STAT_IFDIR)) 3 4
        (newEntry longestName 0 1 (0o755 ||| KVFS_STAT_IFDIR)) [0x62]
          (0o644 ||| KVFS_STAT_IFREG) := by
  funext q
  match q with
  | 0 | 1 | 2 | 3 | 4 => rfl
  | q + 5 =>
    have hlen : longNameTree.heap.length < q + 5 := Nat.le_add_left 5 q
    rw [entries_of_length_lt hlen]
    simp [insertEntry, rootEntries]

/-- The tree that `longNameTree` stores. -/
def longNameShape : OrderedTree Ptr :=
  ((OrderedTree.single 1).insertLeaf 1 3 rfl (by show ¬(3 : Nat) = 1; decide)).insertLeaf 3 4
    (Or.inl rfl) (by show ¬((4 : Nat) = 3 ∨ (4 : Nat) = 1); decide)

theorem stands_longNameTree : Stands longNameTree longNameShape := by
  refine ⟨?_, rfl⟩
  rw [entries_longNameTree]
  have h₀ : TreeStored rootEntries (OrderedTree.single 1) :=
    treeStored_single (by decide) (by decide) (by decide) rfl rfl
  have h₁ : TreeStored (insertEntry rootEntries 1 3
      (newEntry [slash] 0 0 (0o755 ||| KVFS_STAT_IFDIR)) longestName (0o755 ||| KVFS_STAT_IFDIR))
        ((OrderedTree.single 1).insertLeaf 1 3 rfl (by show ¬(3 : Nat) = 1; decide)) :=
    h₀.insert rfl (by decide) rfl (by decide) longestName (Or.inl (by decide)) rfl _
  exact h₁.insert rfl (by decide) rfl (by decide) [0x62] (Or.inr (by decide)) (Or.inl rfl) _

theorem NamesFit.insert {m : Entries} (h : NamesFit m) {d x : Ptr} {e : TmpfsEntry}
    (hd : m d = some e) {name : CString} (hname : FitsName name) (mode : Nat) :
    NamesFit (insertEntry m d x e name mode) := by
  intro q e' he'
  simp only [insertEntry, Function.update_apply] at he'
  split_ifs at he'
  · obtain rfl := Option.some.inj he'
    exact h d e hd
  · obtain rfl := Option.some.inj he'
    exact hname
  · exact h q e' he'

theorem namesFit_longNameTree : NamesFit longNameTree.entries := by
  have h₀ : NamesFit rootEntries := by
    intro q e he
    simp only [rootEntries, Function.update_apply] at he
    split_ifs at he
    obtain rfl := Option.some.inj he
    decide
  rw [entries_longNameTree]
  apply NamesFit.insert
  · exact h₀.insert rfl (by decide +kernel) _
  · rfl
  · decide

/-- The path of one name of 255 bytes: the name of the directory and, without a slash between, the
name of the file. -/
def longPath : CString := slash :: (longestName ++ [0x62])

/-- **The calls act on a file that the path does not name**: the name of 255 bytes is cut into the
name of a directory and that of a file in it; the path names nothing, and the file is found and
removed. -/
theorem long_name_acts_on_other :
    Stands longNameTree longNameShape ∧ NamesFit longNameTree.entries ∧
      StartsAt longNameTree longPath 1 ∧
      walkTree longNameTree.entries longNameShape 1 (components longPath) = 0 ∧
      ¬ ActsOnPath longNameTree longNameShape longPath 1 ∧
      ∃ r, longNameTree.kvfsUnlink longPath = some (true, r) ∧
        longNameTree.entries 4 ≠ none ∧ r.entries 4 = none := by
  have hwalk : walkTree longNameTree.entries longNameShape 1 (components longPath) = 0 := by
    decide +kernel
  obtain ⟨r, hunlink, hgone⟩ : ∃ r, longNameTree.kvfsUnlink longPath = some (true, r) ∧
      r.entries 4 = none := by
    have hrun : (longNameTree.kvfsUnlink longPath).map (fun o => (o.1, o.2.entries 4)) =
        some (true, none) := by decide +kernel
    obtain ⟨⟨removed, r⟩, hunlink, heq⟩ := Option.map_eq_some_iff.1 hrun
    obtain ⟨rfl, hgone⟩ := Prod.mk.inj heq
    exact ⟨r, hunlink, hgone⟩
  refine ⟨stands_longNameTree, namesFit_longNameTree, stands_longNameTree.startsAt rfl, hwalk, ?_,
    r, hunlink, by decide, hgone⟩
  intro h
  obtain ⟨removed, r', hunlink', honly⟩ := h.unlink
  obtain ⟨-, rfl⟩ : removed = true ∧ r' = r := by
    simpa [hunlink, eq_comm] using hunlink'
  have := honly 4 (by decide) hgone
  rw [hwalk] at this
  cases this

/-- With the slash in its place the same two names fit, and the calls act on the file. -/
theorem acts_on_path_iff_slash :
    Fits (slash :: (longestName ++ [slash, 0x62])) ∧
      ∀ pages, ActsOnPath { longNameTree with pages := pages } longNameShape
        (slash :: (longestName ++ [slash, 0x62])) 1 := by
  have hfits : Fits (slash :: (longestName ++ [slash, 0x62])) := by decide +kernel
  exact ⟨hfits, (acts_on_path_iff stands_longNameTree namesFit_longNameTree
    (stands_longNameTree.startsAt rfl)).2 (Or.inl hfits)⟩

end Fs

end DelOs
