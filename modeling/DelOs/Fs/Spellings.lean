import DelOs.Fs.Listing
import DelOs.Fs.OpenAgrees
import DelOs.Fs.WholePath

/-!
# Spellings of one path

A path is walked by its components, so that slashes more or less do not matter; the names `"."` and
`".."` lead to the entry itself and to its parent.

* `components_append_slash`, `components_slashes` — the components of two paths joined by slashes.
* `walkTree_dot`, `walkTree_dotDot` — **a step to the entry itself, and one down and up again**.
* `Fs.entryFrom`, `Fs.entryFrom_eq` — what `kvfs_resolve_from` comes to.
* `Fs.spellings_resolve_alike` — the spellings of a path resolve alike, if there is memory.
* `Fs.dot_needs_more` — where there is memory for one node only, they do not.
-/

namespace DelOs

open FirstFit

variable {m : Entries} {t : OrderedTree Ptr}

/-! ## Components -/

theorem components_append_slash (q r : CString) :
    components (q ++ slash :: r) = components q ++ components r := by
  simp [components, List.splitOn_append_cons_self]

theorem components_slashes (n : Nat) (r : CString) :
    components (List.replicate n slash ++ r) = components r := by
  induction n with
  | zero => rfl
  | succ n ih => rw [List.replicate_succ, List.cons_append, components_slash, ih]

theorem components_append_slashes (p : CString) (n : Nat) :
    components (p ++ List.replicate n slash) = components p := by
  cases n with
  | zero => simp
  | succ n =>
    have hnone : components (List.replicate n slash) = [] := by
      simpa using components_slashes n []
    rw [List.replicate_succ, components_append_slash, hnone, List.append_nil]

/-- A name is a path of one component. -/
theorem components_name {name : CString} (hne : name ≠ []) (hplain : slash ∉ name) :
    components name = [name] := by
  have hone : components (name ++ []) = name :: components [] :=
    components_run hne hplain (Or.inl rfl)
  simpa using hone

/-- A path that does not begin with a slash has a component. -/
theorem components_ne_nil {r : CString} (hne : r ≠ []) (hhead : r.head? ≠ some slash) :
    components r ≠ [] := by
  obtain ⟨c, rest, rfl⟩ := List.exists_cons_of_ne_nil hne
  have hc : c ≠ slash := by simpa using hhead
  obtain ⟨run, rest', heq, hrun, hplain, hrest⟩ := exists_run rest hc
  rw [heq, components_run hrun hplain hrest]
  exact List.cons_ne_nil _ _

/-- Whether a path is absolute is seen before its first slash. -/
theorem kvfsIsAbsolutePath_append (q r r' : CString) :
    kvfsIsAbsolutePath (q ++ slash :: r) = kvfsIsAbsolutePath (q ++ slash :: r') := by
  cases q <;> rfl

/-! ## Steps that lead back -/

theorem findIn_notDir {dir : Ptr} (h : ∀ e, m dir = some e → e.isDir = false) (name : CString) :
    findIn m t dir name = 0 := by
  cases hm : m dir with
  | none => simp [findIn, hm]
  | some e => simp [findIn, hm, h e hm]

/-- **`"."` leads to the entry itself**, or nowhere, as any name does from there. -/
theorem walkTree_dot (ht : TreeStored m t) (a : Ptr) {names : List CString} (hne : names ≠ []) :
    walkTree m t a (dotName :: names) = walkTree m t a names := by
  obtain ⟨name, names, rfl⟩ := List.exists_cons_of_ne_nil hne
  by_cases hdir : ∃ e, m a = some e ∧ e.isDir = true
  · obtain ⟨e, he, hdir⟩ := hdir
    have hdot : findIn m t a dotName = a := by simp [findIn, he, hdir]
    show walkTree m t (findIn m t a dotName) (name :: names) = _
    rw [hdot]
  · have hno : ∀ e, m a = some e → e.isDir = false := fun e he => by
      simpa using fun h => hdir ⟨e, he, h⟩
    show walkTree m t (findIn m t (findIn m t a dotName) name) names =
      walkTree m t (findIn m t a name) names
    rw [findIn_notDir hno, findIn_notDir hno, findIn_notDir fun e he => by
      rw [ht.zero] at he
      cases he]

/-- **The way down to a directory and up again** leads back. -/
theorem walkTree_dotDot (ht : TreeStored m t) {a y : Ptr} {e : TmpfsEntry} {name : CString}
    (hdot : name ≠ dotName) (hdotDot : name ≠ dotDotName) (hy : findIn m t a name = y)
    (he : m y = some e) (hdir : e.isDir = true) (names : List CString) :
    walkTree m t a (name :: dotDotName :: names) = walkTree m t a names := by
  have hy0 : y ≠ 0 := by
    rintro rfl
    rw [ht.zero] at he
    cases he
  have hkid : y ∈ t.kids a := by
    rw [← hy] at hy0 ⊢
    rcases findIn_cases hy0 with ⟨h, -⟩ | ⟨h, -⟩ | ⟨h, -⟩
    · exact absurd h hdot
    · exact absurd h hdotDot
    · exact h
  obtain ⟨-, -, hparent, hroot⟩ := t.kid_mem hkid
  have hne : dotDotName ≠ dotName := by decide
  have hup : findIn m t y dotDotName = a := by
    simp [findIn, he, hdir, hne, hroot, hparent]
  show walkTree m t (findIn m t (findIn m t a name) dotDotName) names = _
  rw [hy, hup]

namespace Fs

variable {s : Fs}

/-! ## What a path resolves to -/

/-- The entry of the node that `kvfs_resolve_from` returns, `0` if it returns `NULL`. -/
def entryFrom (s : Fs) (start : Ptr) (path : CString) : Option Ptr := do
  let (node, r) ← s.kvfsResolveFrom start path
  if node = 0 then return 0
  let n ← r.nodeAt node
  return n.priv

/-- A start is the root, which `NULL` stands for, or the node of an entry. -/
def StartsFrom (s : Fs) (start : Ptr) : Prop :=
  start = 0 ∨ ∃ d e, s.obj start = some (.node (newNode d)) ∧ s.entries d = some e

theorem StartsFrom.resolveStart {start : Ptr} (h : s.StartsFrom start) (hs : Stands s t)
    (path : CString) : ∃ d, s.obj (s.resolveStart start path) = some (.node (newNode d)) ∧
      ∃ e, s.entries d = some e := by
  unfold Fs.resolveStart
  split_ifs with hroot
  · exact ⟨t.root, hs.root, (hs.tree.mem _).1 t.root_mem⟩
  · obtain ⟨d, e, hd, he⟩ := h.resolve_left fun h0 => hroot (Or.inr h0)
    exact ⟨d, hd, e, he⟩

/-- **`kvfs_resolve_from` arrives at the entry that the components lead to**, if the table has room
for the path, and the allocator memory for the nodes. -/
theorem entryFrom_eq (hs : Stands s t) (hg : s.Granted) {start d : Ptr} {path : CString}
    (hd : s.obj (s.resolveStart start path) = some (.node (newNode d)))
    (he : ∃ e, s.entries d = some e) (hpath : components path ≠ []) (hfit : Fits path) :
    s.entryFrom start path = some (walkTree s.entries t d (components path)) := by
  have hnames : pathNames path = components path := by
    rw [pathNames, splitParts_eq _ hfit.1, List.take_of_length_le hfit.2]
  have hparts : (kvfsSplitPath path).length ≠ 0 := by
    have hsteps := pathSteps_kvfsSplitPath path
    intro h0
    rw [List.length_eq_zero_iff.1 h0, hnames] at hsteps
    exact hpath hsteps.symm
  obtain ⟨q, r, hwalk, hreach⟩ := walkParts_spec hs.tree s.includes_entries hs.root_live hd he hpath
  have hresolve : s.kvfsResolveFrom start path = some (q, r) := by
    simp only [kvfsResolveFrom, if_neg (ne_zero_of_obj hd), if_neg hparts, pathSteps_kvfsSplitPath,
      hnames, hwalk]
  rcases hreach.made with ⟨rfl, -, hno⟩ | ⟨hq, -⟩
  · have hzero : walkTree s.entries t d (components path) = 0 := by
      by_contra h0
      exact hno h0 hg
    simp [entryFrom, hresolve, hzero]
  · obtain ⟨-, hnode⟩ := hreach.node hq
    simp [entryFrom, hresolve, hq, nodeAt_of_obj hnode, newNode]

/-- **Equivalent spellings resolve alike**, if there is memory for the nodes: slashes repeated or
appended, `"."` between two parts of the path, a directory and `".."` between them. -/
theorem spellings_resolve_alike (hs : Stands s t) (hg : s.Granted) {start : Ptr}
    (hstart : s.StartsFrom start) {q r : CString} (hr : r ≠ []) (hhead : r.head? ≠ some slash)
    (hfit : Fits (q ++ slash :: r)) :
    ∃ x, s.entryFrom start (q ++ slash :: r) = some x ∧
      (∀ n, s.entryFrom start (q ++ slash :: (List.replicate n slash ++ r)) = some x) ∧
      (∀ n, s.entryFrom start (q ++ slash :: (r ++ List.replicate n slash)) = some x) ∧
      (Fits (q ++ slash :: (dotName ++ slash :: r)) →
        s.entryFrom start (q ++ slash :: (dotName ++ slash :: r)) = some x) ∧
      ∀ name y e, name ≠ [] → slash ∉ name → name ≠ dotName → name ≠ dotDotName →
        Fits (q ++ slash :: (name ++ slash :: (dotDotName ++ slash :: r))) →
        s.entryFrom start (q ++ slash :: name) = some y → s.entries y = some e → e.isDir = true →
        s.entryFrom start (q ++ slash :: (name ++ slash :: (dotDotName ++ slash :: r))) =
          some x := by
  obtain ⟨d, hd, he⟩ := hstart.resolveStart hs (q ++ slash :: r)
  have habs := kvfsIsAbsolutePath_append q r
  have hd' : ∀ path, s.obj (s.resolveStart start (q ++ slash :: path)) =
      some (.node (newNode d)) := by
    intro path
    rw [Fs.resolveStart, ← habs path]
    exact hd
  have hroom : ∀ path, partsRoom (q ++ slash :: path) = partsRoom (q ++ slash :: r) := by
    intro path
    rw [partsRoom, partsRoom, habs path]
  have hcr := components_ne_nil hr hhead
  -- a path of components before those of `r`
  have hspell : ∀ path names, components (q ++ slash :: path) = components q ++ names → names ≠ [] →
      Fits (q ++ slash :: path) → s.entryFrom start (q ++ slash :: path) =
        some (walkTree s.entries t (walkTree s.entries t d (components q)) names) := by
    intro path names hcomp hne hfits
    rw [entryFrom_eq hs hg (hd' path) he (by rw [hcomp]; simp [hne]) hfits, hcomp, walkTree_append]
  have hsame : ∀ path, components path = components r → Fits (q ++ slash :: path) := by
    intro path hcomp
    have hall : components (q ++ slash :: path) = components (q ++ slash :: r) := by
      rw [components_append_slash, components_append_slash, hcomp]
    unfold Fits at hfit ⊢
    rwa [hall, hroom path]
  refine ⟨_, hspell r _ (components_append_slash q r) hcr hfit, fun n => ?_, fun n => ?_,
    fun hfits => ?_, fun name y e hname hplain hdot hdotDot hfits hy hey hdir => ?_⟩
  · have hcomp := components_slashes n r
    exact hspell _ _ (by rw [components_append_slash, hcomp]) hcr (hsame _ hcomp)
  · have hcomp := components_append_slashes r n
    exact hspell _ _ (by rw [components_append_slash, hcomp]) hcr (hsame _ hcomp)
  · have hone : components dotName = [dotName] := by decide
    rw [hspell _ (dotName :: components r)
      (by rw [components_append_slash, components_append_slash, hone]; rfl) (by simp) hfits,
      walkTree_dot hs.tree _ hcr]
  · have hone : components name = [name] := components_name hname hplain
    have htwo : components dotDotName = [dotDotName] := by decide
    have hpath : components (q ++ slash :: (name ++ slash :: (dotDotName ++ slash :: r))) =
        components q ++ name :: dotDotName :: components r := by
      simp [components_append_slash, hone, htwo]
    have hfits' : Fits (q ++ slash :: name) := by
      have hcomp : components (q ++ slash :: name) = components q ++ [name] := by
        rw [components_append_slash, hone]
      rw [Fits, hpath, hroom] at hfits
      rw [Fits, hcomp, hroom]
      refine ⟨fun part hpart => hfits.1 part ?_, ?_⟩
      · simp only [List.mem_append, List.mem_singleton] at hpart
        rcases hpart with hpart | rfl
        · exact List.mem_append_left _ hpart
        · simp
      · have hlen := hfits.2
        simp only [List.length_append, List.length_cons, List.length_nil] at hlen ⊢
        omega
    rw [hspell name [name] (by rw [components_append_slash, hone]) (by simp) hfits'] at hy
    rw [hspell _ (name :: dotDotName :: components r) hpath (by simp) hfits,
      walkTree_dotDot hs.tree hdot hdotDot (Option.some.inj hy) hey hdir]

/-! ## Memory for one node -/

/-- The root with a file `f`, one free block, and no page for the allocations to come. -/
def tightRoot : Fs := { fullRoot with heap := ⟨4084, true, .raw⟩ :: fullRoot.heap }

theorem entries_tightRoot : tightRoot.entries =
    insertEntry (Function.update (fun _ => none) 1 (some rootEntry)) 1 3 rootEntry [0x66]
      KVFS_STAT_IFREG := by
  funext q
  match q with
  | 0 | 1 | 2 | 3 | 4 | 5 | 6 => rfl
  | q + 7 =>
    have hlen : tightRoot.heap.length < q + 7 := Nat.le_add_left 7 q
    rw [entries_of_length_lt hlen]
    simp [insertEntry]

theorem mem_single : (OrderedTree.single (1 : Ptr)).Mem 1 := rfl

theorem not_mem_single : ¬(OrderedTree.single (1 : Ptr)).Mem 3 := by
  show ¬(3 : Nat) = 1
  decide

/-- The tree that it stores. -/
def tightShape : OrderedTree Ptr :=
  (OrderedTree.single 1).insertLeaf 1 3 mem_single not_mem_single

theorem stands_tightRoot (pages : Nat → Bool) :
    Stands { tightRoot with pages := pages } tightShape := by
  refine ⟨?_, rfl⟩
  show TreeStored tightRoot.entries tightShape
  rw [entries_tightRoot]
  have h₀ : TreeStored (Function.update (fun _ => none) 1 (some rootEntry)) (OrderedTree.single 1) :=
    treeStored_single (by decide) (by decide) (by decide) rfl rfl
  exact h₀.insert rfl (by decide) rfl (by decide) [0x66] (Or.inr (by decide)) rfl _

/-- The file `f` by two of its names, where there is memory for the nodes. -/
theorem spellings_resolve_alike_dot :
    ∃ x, entryFrom { tightRoot with pages := fun _ => true } 0 [slash, 0x66] = some x ∧
      entryFrom { tightRoot with pages := fun _ => true } 0 [slash, 0x2e, slash, 0x66] = some x := by
  obtain ⟨x, hx, -, -, hdot, -⟩ := spellings_resolve_alike (stands_tightRoot fun _ => true)
    (fun _ => rfl) (Or.inl rfl) (q := []) (r := [0x66]) (by decide) (by decide) (by decide)
  exact ⟨x, hx, hdot (by decide)⟩

/-- **`/f` resolves to the file, `/./f` to nothing**, where there is memory for one node: the walk
holds the node of `"."` while it makes the next one. -/
theorem dot_needs_more : Stands tightRoot tightShape ∧ tightRoot.StartsFrom 0 ∧
    Fits [slash, 0x2e, slash, 0x66] ∧ tightRoot.entryFrom 0 [slash, 0x66] = some 3 ∧
      tightRoot.entryFrom 0 [slash, 0x2e, slash, 0x66] = some 0 :=
  ⟨stands_tightRoot fun _ => false, Or.inl rfl, by decide, by decide +kernel, by decide +kernel⟩

end Fs

end DelOs
