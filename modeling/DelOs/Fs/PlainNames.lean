import DelOs.Fs.Contents
import DelOs.Fs.OpenAgrees
import DelOs.Fs.TreeRuns

/-!
# Names without slashes

A new entry gets the last part of its path for a name, and that part is `"/"` for a path of slashes
only.

* `onlySlashes`, `lastName_plain` — such paths; the last part of any other path has no slash.
* `joinedPath`, `pathNames_joinedPath` — **a path that joins names is split into them.**
* `PlainNames`, `ReachableByPath` — no name but that of the root has a slash; each entry that is not
  too deep is found under the joined names.
* `plain_names_of_run`, `slash_named_entry` — **both hold** as long as nothing is created by a path of
  slashes only; and an entry that such a path creates.
-/

namespace DelOs

open Transition

/-! ## Splitting and joining -/

/-- The path consists of slashes only, and of one at least. -/
def onlySlashes (path : CString) : Bool := !path.isEmpty && path.all (· == slash)

theorem components_eq_nil {path : CString} : components path = [] ↔ ∀ c ∈ path, c = slash := by
  induction path with
  | nil => simp
  | cons c path ih =>
    by_cases hc : c = slash
    · simp [hc, ih]
    · obtain ⟨run, rest, heq, hne, hrun, hrest⟩ := exists_run path hc
      rw [heq, components_run hne hrun hrest, ← heq]
      simp [hc]

/-- The last part of a path has no slash, unless the path has nothing else. -/
theorem lastName_plain {path : CString} (h : onlySlashes path = false) : slash ∉ Fs.lastName path := by
  by_cases hnames : Fs.pathNames path = []
  · have hall := components_eq_nil.1 (Fs.pathNames_eq_nil.1 hnames)
    have hnil : path = [] := by
      by_contra hne
      simp [onlySlashes, hne] at h
      obtain ⟨c, hc, hslash⟩ := h
      exact hslash (hall c hc)
    subst hnil
    exact List.not_mem_nil
  · have hmem : Fs.lastName path ∈ Fs.pathNames path := by
      rw [Fs.pathNames_snoc hnames]
      exact List.mem_append_right _ List.mem_cons_self
    exact (splitParts_valid _ path _ hmem).2.2

/-- Names with a slash between each two of them. -/
def joinNames : List CString → CString
  | [] => []
  | [name] => name
  | name :: names => name ++ slash :: joinNames names

/-- The path from the root that joins some names. -/
def joinedPath (names : List CString) : CString := slash :: joinNames names

theorem components_joinNames {names : List CString}
    (h : ∀ name ∈ names, name ≠ [] ∧ slash ∉ name) : components (joinNames names) = names := by
  induction names with
  | nil => rfl
  | cons name names ih =>
    obtain ⟨hne, hplain⟩ := h name List.mem_cons_self
    have ih := ih fun name' hname' => h name' (List.mem_cons_of_mem _ hname')
    cases names with
    | nil =>
      have hone : components (name ++ []) = name :: components [] :=
        components_run hne hplain (Or.inl rfl)
      rwa [List.append_nil] at hone
    | cons name' names =>
      rw [joinNames, components_run hne hplain (Or.inr rfl), components_slash, ih]
      simp

/-- **A path that joins names is split into them**, if they are names and not too many. -/
theorem pathNames_joinedPath {names : List CString}
    (h : ∀ name ∈ names, name ≠ [] ∧ FitsName name ∧ slash ∉ name)
    (hlen : names.length ≤ KVFS_MAX_PATH_PARTS - 1) : Fs.pathNames (joinedPath names) = names := by
  have hcomp : components (joinedPath names) = names := by
    rw [joinedPath, components_slash]
    exact components_joinNames fun name hname => ⟨(h name hname).1, (h name hname).2.2⟩
  have hroom : partsRoom (joinedPath names) = KVFS_MAX_PATH_PARTS - 1 := by
    simp [partsRoom, joinedPath, kvfsIsAbsolutePath]
  rw [Fs.pathNames, hroom, splitParts_eq _ (by rw [hcomp]; exact fun name hname => (h name hname).2.1),
    hcomp, List.take_of_length_le hlen]

namespace Fs

variable {s r : Fs} {t t' : OrderedTree Ptr} {gone fresh : Ptr}

/-! ## Names in the tree -/

/-- No entry but the root has a name with a slash. -/
def PlainNames (m : Entries) (t : OrderedTree Ptr) : Prop :=
  ∀ q e, m q = some e → q ≠ t.root → slash ∉ e.name

/-- With memory for the nodes, each entry at depth fifteen at most is what `kvfs_lookup_open` finds
under the path that joins the names from the root. -/
def ReachableByPath (s : Fs) (t : OrderedTree Ptr) : Prop :=
  ∀ names x pages, s.At t names x → names.length ≤ 15 → (∀ k, pages k = true) →
    ∃ q r, ({ s with pages := pages } : Fs).kvfsLookupOpen (joinedPath names) = some (q, r) ∧
      q ≠ 0 ∧ r.Refers q x

/-- The names stay plain when the new one is. -/
theorem PlainNames.change {m m' : Entries} {G : Prop} (h : PlainNames m t)
    (hc : TreeChange G m m' t gone fresh t') (hfresh : fresh ≠ 0 → slash ∉ nameOf m' fresh)
    (hzero : m' 0 = none) : PlainNames m' t' := by
  intro q e hq hroot
  by_cases hqf : q = fresh
  · subst hqf
    have hq0 : q ≠ 0 := by
      rintro rfl
      rw [hzero] at hq
      cases hq
    simpa [nameOf, hq] using hfresh hq0
  · obtain ⟨e₀, he₀, hsame⟩ := hc.back hq hqf
    rw [hsame.name]
    rw [hc.root] at hroot
    exact h q e₀ he₀ hroot

/-- The names of a path from the root lead there. -/
theorem walkTree_at (hn : WellNamed s.entries t) (ht : TreeStored s.entries t)
    {names : List CString} {x : Ptr} (h : s.At t names x) :
    walkTree s.entries t t.root names = x := by
  induction h with
  | root => rfl
  | @kid path path' p q _ hq hpath ih =>
    rw [hpath, walkTree_append, ih]
    exact hn.findIn_kid ht hq

/-- The names on the way to an entry are those of entries. -/
theorem At.names {names : List CString} {x : Ptr} (h : s.At t names x) :
    ∀ name ∈ names, ∃ d q, q ∈ t.kids d ∧ name = nameOf s.entries q := by
  induction h with
  | root => simp
  | @kid path path' p q _ hq hpath ih =>
    intro name hname
    rw [hpath] at hname
    rcases List.mem_append.1 hname with hname | hname
    · exact ih name hname
    · exact ⟨p, q, hq, List.mem_singleton.1 hname⟩

/-- The names on the way to an entry are what `kvfs_split_path` takes for names, if they have no
slash. -/
theorem At.valid (hn : WellNamed s.entries t) {names : List CString} {f : Ptr} (hat : s.At t names f)
    (hplain : ∀ name ∈ names, slash ∉ name) :
    ∀ name ∈ names, name ≠ [] ∧ FitsName name ∧ slash ∉ name := by
  intro name hname
  obtain ⟨d, q, hq, rfl⟩ := hat.names name hname
  have hproper := hn.proper d q hq
  exact ⟨hproper.nonempty, hproper.fits, hplain _ hname⟩

/-- **Plain and distinct names make paths.** -/
theorem reachableByPath (hs : Stands s t) (hn : WellNamed s.entries t)
    (hplain : PlainNames s.entries t) : ReachableByPath s t := by
  intro names x pages hat hlen hpages
  have hvalid := hat.valid hn fun name hname => by
    obtain ⟨d, q, hq, rfl⟩ := hat.names name hname
    obtain ⟨e, he⟩ := (hs.tree.mem q).1 (t.kid_mem hq).2.1
    simpa [nameOf, he] using hplain q e he (t.kid_mem hq).2.2.2
  have hstands : Stands { s with pages := pages } t := ⟨hs.tree, hs.root⟩
  have hstart := hstands.startsAt (show kvfsIsAbsolutePath (joinedPath names) = true from rfl)
  obtain ⟨q, r, hlook, hopen, -, hnull⟩ :=
    kvfsLookupOpen_spec hstands.tree hstands.root_live hstart.node hstart.entry
  have hwalk : walkTree s.entries t t.root (pathNames (joinedPath names)) = x := by
    rw [pathNames_joinedPath hvalid hlen]
    exact walkTree_at hn hs.tree hat
  have hx : x ≠ 0 := by
    obtain ⟨e, he⟩ := (hs.tree.mem x).1 hat.mem
    exact ne_zero_of_obj (entries_eq_some.1 he)
  have hq : q ≠ 0 := by
    intro hq
    refine hnull hq ?_ (by rw [← hwalk] at hx; exact hx) hpages
    rw [kvfsSplitPath_eq]
    simp [joinedPath, kvfsIsAbsolutePath]
  refine ⟨q, r, hlook, hq, ?_⟩
  have hrefers := refers_newNode (hopen.node hq).1
  rw [← hwalk]
  exact hrefers

/-! ## Runs -/

/-- The call opens, closes, creates or removes by path, and creates nothing by a path of slashes
only. -/
structure PlainCall (c : Call) : Prop where
  onTree : c.onTree = true
  staysHome : c.movesCwd = false
  plain : ∀ o ∈ c.opens?, flagSet o.2 KVFS_O_CREAT = true → onlySlashes o.1 = false

/-- The names in the tree are plain, and distinct where the page layers have not refused. -/
structure PlainTree (granted : Prop) (s : Fs) (t : OrderedTree Ptr) : Prop where
  mounted : Mounted s t
  home : s.kvfsCwd = s.kvfsRootMountDir
  plain : PlainNames s.entries t
  named : granted → WellNamed s.entries t

/-- One call keeps the names plain. -/
theorem PlainTree.step {granted : Prop} (h : PlainTree granted s t) {i : Input}
    (hcall : PlainCall i.call) (hpages : granted → ∀ k, i.pages k = true) :
    ∃ r t', step s i = some r ∧ PlainTree granted r t' := by
  have hmounted := h.mounted.withInput i
  have hok : CallOk (s.withInput i) i.call :=
    ⟨fun path _ => hmounted.startsInUse_root h.home path, fun _ _ => Or.inr (Or.inl h.home)⟩
  obtain ⟨result, r, t', gone, fresh, hdone, heffect, hcwd, hnamed, -⟩ :=
    call_effect hmounted i.proc hcall.onTree hok
  have hentries : (s.withInput i).entries = s.entries := rfl
  have hchange := heffect.change
  rw [hentries] at hchange
  refine ⟨r, t', by simp [Fs.step, stepResult, hdone], heffect.mounted, ?_, ?_, fun hg => ?_⟩
  · rw [hcwd hcall.staysHome, heffect.root]
    exact h.home
  · refine h.plain.change hchange (fun h0 => ?_) heffect.mounted.stands.tree.zero
    obtain ⟨o, ho, hcreat, hname⟩ := hnamed h0
    rw [hname]
    exact lastName_plain (hcall.plain o ho hcreat)
  · exact (h.named hg).change h.mounted.stands.tree hchange (hpages hg)

/-- The tree of a fresh mount has no names but that of the root. -/
theorem Fresh.plainTree {f : Ptr} (h : Fresh s f) (granted : Prop) :
    PlainTree granted s (OrderedTree.single f) := by
  refine ⟨h.mounted, h.cwd, fun q e hq hne => ?_, fun _ => wellNamed_single _ _⟩
  exact absurd ((h.stands.tree.mem q).2 ⟨e, hq⟩) hne

/-- **No name but that of the root has a slash, and the joined names lead to each entry**, after any
calls that create nothing by a path of slashes only; the second if the page layers have granted what
the calls asked for, since a name that could not be looked up may be given twice. -/
theorem plain_names_of_run (hs : FreshMount s) {is : List Input}
    (hcalls : ∀ i ∈ is, PlainCall i.call) :
    ∃ r t, run step s is = some r ∧ Stands r t ∧ PlainNames r.entries t ∧
      ((∀ i ∈ is, ∀ k, i.pages k = true) → ReachableByPath r t) := by
  obtain ⟨f, hfresh⟩ := hs.stands
  have hadm : Admissible step (fun _ i => PlainCall i.call ∧
      ((∀ i ∈ is, ∀ k, i.pages k = true) → ∀ k, i.pages k = true)) s is :=
    admissible_of_mem fun i hi _ => ⟨hcalls i hi, fun hpages => hpages i hi⟩
  obtain ⟨r, hrun, t, ht⟩ := run_total
    (P := fun r => ∃ t, PlainTree (∀ i ∈ is, ∀ k, i.pages k = true) r t)
    (fun r i ⟨_, hr⟩ hi => by
      obtain ⟨r', t', hstep, hr'⟩ := hr.step hi.1 hi.2
      exact ⟨r', hstep, t', hr'⟩) ⟨_, hfresh.plainTree _⟩ hadm
  exact ⟨r, t, hrun, ht.mounted.stands, ht.plain,
    fun hpages => reachableByPath ht.mounted.stands (ht.named hpages) ht.plain⟩

/-- A directory and a file in it. -/
theorem plain_names_of_run_two : ∃ r t, run step mountedRoot
    [plainInput (.kmkdir [slash, 0x64]), plainInput (.kfdOpen [slash, 0x64, slash, 0x66] 0x40 0)] =
      some r ∧ Stands r t ∧ PlainNames r.entries t ∧
      ((∀ i ∈ [plainInput (.kmkdir [slash, 0x64]),
        plainInput (.kfdOpen [slash, 0x64, slash, 0x66] 0x40 0)], ∀ k, i.pages k = true) →
        ReachableByPath r t) := by
  refine plain_names_of_run freshMount_mountedRoot fun i hi => ?_
  rcases List.mem_cons.1 hi with rfl | hi
  · exact ⟨rfl, rfl, by decide⟩
  · obtain rfl := List.mem_singleton.1 hi
    exact ⟨rfl, rfl, by decide⟩

/-- **A path of slashes creates an entry with such a name**: here `mkdir` of `"//"`. -/
theorem slash_named_entry : FreshMount mountedRoot ∧ ∃ r,
    run step mountedRoot [plainInput (.kmkdir [slash, slash])] = some r ∧
      ¬∃ t, Stands r t ∧ PlainNames r.entries t := by
  have hmade : (run step mountedRoot [plainInput (.kmkdir [slash, slash])]).any (fun r =>
      decide (r.obj r.kvfsRootMountDir = some (.node (newNode 1))) &&
        (r.entries 3).any fun e => decide (slash ∈ e.name)) = true := by decide +kernel
  obtain ⟨r, hrun, hr⟩ := (Option.any_eq_true _ _).1 hmade
  obtain ⟨hroot, hname⟩ := (Bool.and_eq_true _ _).mp hr
  obtain ⟨e, he, hslash⟩ := (Option.any_eq_true _ _).1 hname
  refine ⟨freshMount_mountedRoot, r, hrun, ?_⟩
  rintro ⟨t, hstands, hplain⟩
  have hnode := hstands.root
  rw [of_decide_eq_true hroot] at hnode
  have ht : t.root = 1 := by simpa [newNode, eq_comm] using hnode
  exact hplain 3 e he (by simp [ht]) (of_decide_eq_true hslash)

end Fs

end DelOs
