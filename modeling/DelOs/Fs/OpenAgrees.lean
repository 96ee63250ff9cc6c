import DelOs.Fs.Mount

/-!
# Two ways to a node

`kvfs_lookup_open` walks all the names of a path.  `kvfs_open` resolves the parent, copies the last
name out and looks it up there.

* `kvfsOpen_rdonly` — what `kvfs_open` finds for reading.
* `Agree` — the two return a node for the same paths, and of the same entry.
* `open_agrees_iff` — **they agree if and only if the path is not made of slashes only**: the table
  of parts of such a path holds nothing but the `"/"`, which `kvfs_open` takes for a name.
* `open_root_disagrees` — `"/"` itself.
-/

namespace DelOs

namespace Fs

variable {s : Fs} {t : OrderedTree Ptr}

/-- `kvfs_open` for reading and `kvfs_lookup_open` return a node, or both return `NULL`, and the
nodes are of one entry. -/
def Agree (s : Fs) (path : CString) (mode : Nat) : Prop :=
  ∃ q r q' r', s.kvfsOpen path KVFS_O_RDONLY mode = some (q, r) ∧
    s.kvfsLookupOpen path = some (q', r') ∧ (q ≠ 0 ↔ q' ≠ 0) ∧
      (q ≠ 0 → ∃ x, r.Refers q x ∧ r'.Refers q' x)

/-! ## Names -/

/-- Only slashes have no component. -/
theorem pathNames_eq_nil {path : CString} : pathNames path = [] ↔ components path = [] := by
  obtain ⟨room, hroom⟩ : ∃ room, partsRoom path = room + 1 := by
    unfold partsRoom
    split_ifs
    · exact ⟨14, rfl⟩
    · exact ⟨15, rfl⟩
  rw [← components_skipSlashes, pathNames, hroom]
  cases hpath : skipSlashes path with
  | nil => simp [splitParts]
  | cons c rest =>
    obtain ⟨run, rest', heq, hne, hrun, hrest⟩ := run_of_skipSlashes hpath
    rw [heq, components_run hne hrun hrest, ← heq]
    simp [splitParts]

/-- The last part of a path is the last of its names. -/
theorem pathNames_snoc {path : CString} (h : pathNames path ≠ []) :
    pathNames path = (pathNames path).dropLast ++ [lastName path] := by
  have hlast : lastName path = (pathNames path).getLast h := by
    rw [lastName, kvfsSplitPath_eq, List.getLastD_eq_getLast?]
    show (_ ++ pathNames path).getLast?.getD [] = _
    rw [List.getLast?_append_of_ne_nil _ h, List.getLast?_eq_some_getLast h, Option.getD_some]
  rw [hlast, List.dropLast_append_getLast]

/-! ## Opening for reading -/

/-- **What `kvfs_open` finds for reading**: the entry that the parent has under the last part. -/
theorem kvfsOpen_rdonly (hs : Stands s t) {path : CString} {d : Ptr} (hd : StartsAt s path d)
    (mode : Nat) {x : Ptr} (hx : x = findIn s.entries t
      (walkTree s.entries t d (pathNames path).dropLast) (lastName path)) :
    ∃ q r, s.kvfsOpen path KVFS_O_RDONLY mode = some (q, r) ∧
      (q ≠ 0 → x ≠ 0 ∧ kvfsSplitPath path ≠ [] ∧ r.Refers q x) ∧
      (s.Granted → kvfsSplitPath path ≠ [] → x ≠ 0 → q ≠ 0) := by
  obtain ⟨parent, r₁, hresolve, hopen, hlast, -, hnull⟩ :=
    kvfsResolveParentFrom_spec hs.tree hs.root_live hd.node hd.entry
  generalize walkTree s.entries t d (pathNames path).dropLast = f at hx hopen hnull
  by_cases hp0 : parent = 0
  · refine ⟨0, r₁, by simp [kvfsOpen, hresolve, hp0], fun h => absurd rfl h,
      fun hg hparts hx0 => absurd hg (hnull hp0 hparts fun hf => hx0 ?_)⟩
    rw [hx, hf]
    simp [findIn, hs.tree.zero]
  obtain ⟨hnode, e, he⟩ := hopen.node hp0
  have hent := hopen.entries
  have he₁ : r₁.entries f = some e := by rw [hent, he]
  have hstat := kvfsGetStat_refers (refers_newNode hnode) (entries_eq_some.1 he₁)
  have hcreat : r₁.openCreat parent e.stat (lastName path) KVFS_O_RDONLY mode = some (true, r₁) := by
    have hflag : flagSet KVFS_O_RDONLY KVFS_O_CREAT = false := by decide
    simp [openCreat, hflag]
  obtain ⟨q, r₂, hopenNode, -, hq, hnull₂, -⟩ := openNode_spec (by rw [hent]; exact hs.tree)
    hnode ⟨e, he₁⟩ (lastName path) KVFS_O_RDONLY
  rw [hent, ← hx] at hq hnull₂
  refine ⟨q, r₂, by simp [kvfsOpen, hresolve, hp0, hstat, hcreat, hopenNode], fun hq0 => ?_,
    fun hg _ hx0 hq0 => ?_⟩
  · obtain ⟨-, hx0, hnode₂⟩ := hq hq0
    exact ⟨hx0, List.ne_nil_of_mem (hlast hp0), refers_newNode hnode₂⟩
  · have hpages := hnull₂ hq0 hx0
    rw [hopen.keeps.frame.granted hg 0] at hpages
    cases hpages

/-- A node stands for one entry. -/
theorem refers_unique {node x y : Ptr} (hx : s.Refers node x) (hy : s.Refers node y) : x = y := by
  obtain ⟨n, hn, -, rfl⟩ := hx
  obtain ⟨n', hn', -, rfl⟩ := hy
  obtain rfl : n = n' := by simpa [hn] using hn'
  rfl

/-- A directory has no child of the name `"/"` that is itself. -/
theorem findIn_slash_ne (d : Ptr) (hd : findIn s.entries t d [slash] ≠ 0) :
    findIn s.entries t d [slash] ≠ d := by
  intro heq
  have hdot : [slash] ≠ dotName ∧ [slash] ≠ dotDotName := by decide
  simp only [findIn, hdot.1, hdot.2, if_false] at hd heq
  split_ifs at hd heq
  · exact hd rfl
  · cases hf : (t.kids d).find? fun q => decide (nameOf s.entries q = [slash]) with
    | none => exact hd (by rw [hf, Option.getD_none])
    | some q =>
      have hq := List.mem_of_find?_eq_some hf
      rw [hf, Option.getD_some] at heq
      rw [heq] at hq
      exact t.not_mem_kids_self d hq

/-- A path of slashes only is absolute, and its table holds the `"/"` alone. -/
theorem split_of_slashes {path : CString} (hnames : pathNames path = []) (hne : path ≠ []) :
    kvfsIsAbsolutePath path = true ∧ kvfsSplitPath path = [[slash]] := by
  have habs : kvfsIsAbsolutePath path = true := by
    cases path with
    | nil => exact absurd rfl hne
    | cons c path =>
      by_contra hc
      have hc' : c ≠ slash := by simpa [kvfsIsAbsolutePath] using hc
      obtain ⟨run, rest, heq, hrun, hslash, hrest⟩ := exists_run path hc'
      have hcomp := pathNames_eq_nil.1 hnames
      rw [heq, components_run hrun hslash hrest] at hcomp
      cases hcomp
  refine ⟨habs, ?_⟩
  rw [kvfsSplitPath_eq, if_pos habs]
  show [[slash]] ++ pathNames path = [[slash]]
  rw [hnames]
  rfl

theorem kvfsLookupOpen_nil (s : Fs) : s.kvfsLookupOpen [] = some (0, s) := by
  have hparts : kvfsSplitPath [] = [] := rfl
  simp [kvfsLookupOpen, kvfsResolveFrom, hparts]

/-- **With memory for the nodes, the two ways to a node agree if and only if the path is not made
of slashes only.** -/
theorem open_agrees_iff (hs : Stands s t) (hg : s.Granted) {path : CString} {d : Ptr}
    (hd : StartsAt s path d) (mode : Nat) :
    Agree s path mode ↔ components path ≠ [] ∨ path = [] := by
  obtain ⟨q, r, hopen, hfound, hall⟩ := kvfsOpen_rdonly hs hd mode rfl
  obtain ⟨q', r', hlook, hopen', -, hnull'⟩ :=
    kvfsLookupOpen_spec hs.tree hs.root_live hd.node hd.entry
  have hagree : Agree s path mode ↔ (q ≠ 0 ↔ q' ≠ 0) ∧
      (q ≠ 0 → ∃ x, r.Refers q x ∧ r'.Refers q' x) := by
    constructor
    · rintro ⟨p, u, p', u', hp, hp', h⟩
      obtain ⟨rfl, rfl⟩ : p = q ∧ u = r := by simpa [hopen, eq_comm] using hp
      obtain ⟨rfl, rfl⟩ : p' = q' ∧ u' = r' := by simpa [hlook, eq_comm] using hp'
      exact h
    · exact fun h => ⟨q, r, q', r', hopen, hlook, h⟩
  rw [hagree]
  by_cases hnames : pathNames path = []
  · have hcomp := pathNames_eq_nil.1 hnames
    by_cases hne : path = []
    · -- both return `NULL` for the empty path
      subst hne
      have hq' : q' = 0 := by
        rw [kvfsLookupOpen_nil] at hlook
        exact (congrArg Prod.fst (Option.some.inj hlook)).symm
      have hq : q = 0 := by
        by_contra hq0
        exact (hfound hq0).2.1 rfl
      simp [hq, hq']
    · -- `kvfs_lookup_open` returns the root, `kvfs_open` looks `"/"` up in it
      obtain ⟨habs, hsplit⟩ := split_of_slashes hnames hne
      have hlast : lastName path = [slash] := by rw [lastName, hsplit]; rfl
      have hparts : kvfsSplitPath path ≠ [] := by rw [hsplit]; simp
      have hwalk : walkTree s.entries t d (pathNames path) = d := by rw [hnames]; rfl
      have hdrop : walkTree s.entries t d (pathNames path).dropLast = d := by rw [hnames]; rfl
      have hd0 : d ≠ 0 := by
        obtain ⟨e, he⟩ := hd.entry
        exact ne_zero_of_obj (entries_eq_some.1 he)
      rw [hwalk] at hopen' hnull'
      rw [hdrop, hlast] at hfound
      have hq' : q' ≠ 0 := fun h0 => hnull' h0 hparts hd0 hg
      have hroot := refers_newNode (hopen'.node hq').1
      refine iff_of_false ?_ (by simp [hcomp, hne])
      rintro ⟨hiff, hsame⟩
      obtain ⟨hx0, -, hx⟩ := hfound (hiff.2 hq')
      obtain ⟨y, hy, hy'⟩ := hsame (hiff.2 hq')
      apply findIn_slash_ne d hx0
      rw [← refers_unique hy hx, refers_unique hy' hroot]
  · have hparts : kvfsSplitPath path ≠ [] := by
      rw [kvfsSplitPath_eq]
      exact List.append_ne_nil_of_right_ne_nil _ hnames
    have hlastStep : findIn s.entries t (walkTree s.entries t d (pathNames path).dropLast)
        (lastName path) = walkTree s.entries t d (pathNames path) := by
      conv_rhs => rw [pathNames_snoc hnames]
      exact (walkTree_append d _ [lastName path]).symm
    rw [hlastStep] at hfound hall
    have hq : q ≠ 0 ↔ walkTree s.entries t d (pathNames path) ≠ 0 :=
      ⟨fun h => (hfound h).1, hall hg hparts⟩
    have hq' : q' ≠ 0 ↔ walkTree s.entries t d (pathNames path) ≠ 0 := by
      constructor
      · intro h
        obtain ⟨-, e, he⟩ := hopen'.node h
        exact ne_zero_of_obj (entries_eq_some.1 he)
      · exact fun hx h0 => hnull' h0 hparts hx hg
    refine iff_of_true ⟨hq.trans hq'.symm, fun h => ?_⟩ (Or.inl (mt pathNames_eq_nil.2 hnames))
    exact ⟨_, (hfound h).2.2, refers_newNode (hopen'.node (hq'.2 (hq.1 h))).1⟩

/-- **The root cannot be opened**: `kvfs_lookup_open` finds it, `kvfs_open` does not. -/
theorem open_root_disagrees :
    FreshMount mountedRoot ∧ mountedRoot.Granted ∧ StartsAt mountedRoot [slash] 1 ∧
      (mountedRoot.kvfsOpen [slash] KVFS_O_RDONLY 0).map Prod.fst = some 0 ∧
      (mountedRoot.kvfsLookupOpen [slash]).map Prod.fst = some mountedRoot.kvfsRootMountDir ∧
      ¬ Agree mountedRoot [slash] 0 := by
  have hopen : (mountedRoot.kvfsOpen [slash] KVFS_O_RDONLY 0).map Prod.fst = some 0 := by
    decide +kernel
  have hlook : (mountedRoot.kvfsLookupOpen [slash]).map Prod.fst =
      some mountedRoot.kvfsRootMountDir := by decide +kernel
  refine ⟨freshMount_mountedRoot, fun _ => rfl, ⟨rfl, _, rfl⟩, hopen, hlook, ?_⟩
  rintro ⟨q, r, q', r', hq, hq', hiff, -⟩
  rw [hq] at hopen
  rw [hq'] at hlook
  obtain rfl : q = 0 := by simpa using hopen
  obtain rfl : q' = mountedRoot.kvfsRootMountDir := by simpa using hlook
  exact hiff.2 (by decide) rfl

/-- Under its other name the root is found by both. -/
theorem open_agrees_iff_dot : Agree mountedRoot [slash, 0x2e] 0 := by
  obtain ⟨f, hfresh⟩ := freshMount_mountedRoot.stands
  exact (open_agrees_iff hfresh.stands (fun _ => rfl) (hfresh.stands.startsAt rfl) 0).2
    (Or.inl (by decide))

end Fs

end DelOs
