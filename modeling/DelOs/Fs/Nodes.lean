import DelOs.Fs.Tree

/-!
# Nodes and the walk of a path

A lookup makes a node of its own for the entry that it finds, and a walk of a path gives back
each node on its way.

* `newNode` — the node that a lookup makes.
* `Temp` — a node that a call may close: it was no node in use before the call, or it is the
  root, which is never freed.
* `Keeps` — the records in use that are no entries stay as they are.
* `kvfsLookup_spec`, `kvfsClose_spec` — one lookup, one close.
* `Reached`, `walkParts_spec` — **a walk ends at a new node of the entry that the tree has under
  the names**, and all other records are what they were.
* `kvfsLookupOpen_spec`, `kvfsResolveParentFrom_spec` — the two ways in which a path is walked.
-/

namespace DelOs

open FirstFit LinkedList

/-- The node that `ktmpfs_create_vfs_node` makes. -/
def newNode (entry : Ptr) : VfsNode :=
  { refcount := 1, ops := .ktmpfsOperations, priv := entry }

/-- The entry that a list of names leads to, one directory after the other; `0` if there is
none. -/
def walkTree (m : Entries) (t : OrderedTree Ptr) (dir : Ptr) (names : List CString) : Ptr :=
  names.foldl (findIn m t) dir

namespace Fs

variable {s r r' : Fs} {m : Entries} {t : OrderedTree Ptr}

/-- The node is the root, or it is no node in use in `s`. -/
def Temp (s : Fs) (node : Ptr) : Prop :=
  node = s.kvfsRootMountDir ∨ ∀ n, s.obj node ≠ some (.node n)

/-- The records of `s` that are no entries are records of `r`. -/
structure Keeps (s r : Fs) : Prop where
  frame : Frame s r
  other : ∀ q o, s.obj q = some o → (∀ e, o ≠ .entry e) → r.obj q = some o

theorem Keeps.refl (s : Fs) : Keeps s s := ⟨Frame.refl s, fun _ _ h _ => h⟩

theorem Keeps.trans (h : Keeps s r) (h' : Keeps r r') : Keeps s r' :=
  ⟨h.frame.trans h'.frame, fun q o hq ho => h'.other q o (h.other q o hq ho) ho⟩

/-- What is not in use now was no node before. -/
theorem Keeps.not_node (h : Keeps s r) {node : Ptr} (hdead : r.obj node = none) (n : VfsNode) :
    s.obj node ≠ some (.node n) := by
  intro hn
  rw [h.other node _ hn (by simp)] at hdead
  cases hdead

theorem Keeps.temp (h : Keeps s r) {node : Ptr} (hdead : r.obj node = none) : Temp s node :=
  Or.inr (h.not_node hdead)

/-- The nodes in use in `r` were nodes in use in `s`, but for `q`. -/
def NewNodes (s r : Fs) (q : Ptr) : Prop :=
  ∀ p n, r.obj p = some (.node n) → p = q ∨ ∃ n', s.obj p = some (.node n')

theorem NewNodes.refl (s : Fs) (q : Ptr) : NewNodes s s q := fun _ n hp => Or.inr ⟨n, hp⟩

/-- No new node, and then one. -/
theorem NewNodes.trans {q : Ptr} (h : NewNodes s r 0) (h' : NewNodes r r' q) :
    NewNodes s r' q := by
  intro p n hp
  rcases h' p n hp with hq | ⟨n', hp'⟩
  · exact Or.inl hq
  · rcases h p n' hp' with rfl | hs
    · exact absurd rfl (ne_zero_of_obj hp')
    · exact Or.inr hs

/-- A change of one block. -/
theorem newNodes_update {q : Ptr} {o : Option Obj} (hobj : r.obj = Function.update s.obj q o) :
    NewNodes s r q := by
  intro p n hp
  rw [hobj, Function.update_apply] at hp
  split_ifs at hp with hq
  · exact Or.inl hq
  · exact Or.inr ⟨n, hp⟩

/-- A change of one block to something that is no node. -/
theorem newNodes_update_other {q : Ptr} {o : Option Obj}
    (hobj : r.obj = Function.update s.obj q o) (ho : ∀ n, o ≠ some (.node n)) :
    NewNodes s r 0 := by
  intro p n hp
  rw [hobj, Function.update_apply] at hp
  split_ifs at hp
  · exact absurd hp (ho n)
  · exact Or.inr ⟨n, hp⟩

theorem refers_newNode {node entry : Ptr} (h : s.obj node = some (.node (newNode entry))) :
    s.Refers node entry :=
  ⟨newNode entry, h, rfl, rfl⟩

/-! ## One lookup -/

theorem ktmpfsCreateVfsNode_spec {f : Ptr} (hf : f ≠ 0) :
    Alloc s (s.ktmpfsCreateVfsNode f).2 (s.ktmpfsCreateVfsNode f).1 (.node (newNode f)) := by
  simp only [ktmpfsCreateVfsNode, if_neg hf]
  have hsize : 0 < sizeofVfsNode ∧ sizeofVfsNode ≤ 2 ^ 29 := by decide
  exact new_alloc hsize.1 hsize.2 rfl

/-- What a lookup comes to: there is no entry, or a new node of the entry `f`. -/
def Found (s r : Fs) (p f : Ptr) : Prop :=
  (f = 0 ∧ p = 0 ∧ r = s) ∨ (f ≠ 0 ∧ Alloc s r p (.node (newNode f)))

/-- A lookup comes down to a node for the entry that the directory has under the name. -/
theorem kvfsLookup_eq (ht : TreeStored m t) (hm : s.Includes m) {node dir : Ptr}
    (hnode : s.obj node = some (.node (newNode dir))) (hdir : ∃ e, m dir = some e)
    (name : CString) :
    s.kvfsLookup node name = some (s.ktmpfsCreateVfsNode (findIn m t dir name)) := by
  obtain ⟨e, he⟩ := hdir
  have hentry := entries_eq_some.1 (hm dir e he)
  have hstat := kvfsGetStat_refers (refers_newNode hnode) hentry
  have hpriv : (newNode dir).priv = dir := rfl
  simp [kvfsLookup, hstat, ktmpfsLookup, ne_zero_of_obj hnode, nodeAt_of_obj hnode, hpriv,
    ne_zero_of_obj hentry, ht.findEntry_part hm he name]

/-- **A lookup makes a node of the entry that the directory has under the name**, in any tree
among those that the entries in use make up. -/
theorem kvfsLookup_part (ht : TreeStored m t) (hm : s.Includes m) {node dir : Ptr}
    (hnode : s.obj node = some (.node (newNode dir))) (hdir : ∃ e, m dir = some e)
    (name : CString) :
    ∃ p r, s.kvfsLookup node name = some (p, r) ∧ Found s r p (findIn m t dir name) := by
  refine ⟨(s.ktmpfsCreateVfsNode (findIn m t dir name)).1,
    (s.ktmpfsCreateVfsNode (findIn m t dir name)).2, kvfsLookup_eq ht hm hnode hdir name, ?_⟩
  by_cases hf : findIn m t dir name = 0
  · exact Or.inl ⟨hf, by simp [hf, ktmpfsCreateVfsNode], by simp [hf, ktmpfsCreateVfsNode]⟩
  · exact Or.inr ⟨hf, ktmpfsCreateVfsNode_spec hf⟩

/-- The same, where the entries in use are those of the tree. -/
theorem kvfsLookup_spec (ht : TreeStored s.entries t) {node dir : Ptr}
    (hnode : s.obj node = some (.node (newNode dir))) (hdir : ∃ e, s.entries dir = some e)
    (name : CString) :
    ∃ p r, s.kvfsLookup node name = some (p, r) ∧ Found s r p (findIn s.entries t dir name) :=
  kvfsLookup_part ht s.includes_entries hnode hdir name

/-! ## One close -/

/-- Closing a node that one holder has frees it. -/
theorem kvfsClose_spec {node f : Ptr} (h : s.obj node = some (.node (newNode f)))
    (hne : node ≠ s.kvfsRootMountDir) :
    ∃ r, s.kvfsClose node = some r ∧ Frame s r ∧ r.pages = s.pages ∧
      r.obj = Function.update s.obj node none := by
  refine ⟨(s.put node (.node { newNode f with refcount := 0 })).kfree node, ?_,
    (frame_put s node (.node { newNode f with refcount := 0 })).trans (frame_kfree _ node), rfl,
    ?_⟩
  · have hone : (newNode f).refcount = 1 := rfl
    simp [kvfsClose, ne_zero_of_obj h, hne, nodeAt_of_obj h, hone, setRefcount, load_of_obj h]
  · rw [obj_kfree, obj_put (by simp [h])]
    simp

/-- The root is never freed. -/
theorem kvfsClose_root (s : Fs) : s.kvfsClose s.kvfsRootMountDir = some s := by
  simp [kvfsClose]

/-- A node in use can be closed.  **Closing one that the call has opened**, or the root, takes
nothing from the state before the call. -/
theorem kvfsClose_live {q f : Ptr} (hlive : r.obj q = some (.node (newNode f))) :
    ∃ r', r.kvfsClose q = some r' ∧ r'.entries = r.entries ∧ r'.pages = r.pages ∧
      (∀ p, p ≠ q → r'.obj p = r.obj p) ∧ ∀ s, Keeps s r → Temp s q → Keeps s r' := by
  by_cases hroot : q = r.kvfsRootMountDir
  · exact ⟨r, by rw [hroot, kvfsClose_root], rfl, rfl, fun _ _ => rfl, fun _ h _ => h⟩
  · obtain ⟨r', hclose, hframe, hpages, hobj⟩ := kvfsClose_spec hlive hroot
    refine ⟨r', hclose, entries_update hobj (by simp [hlive]) (by simp), hpages, fun p hp => ?_,
      fun s h hq => ⟨h.frame.trans hframe, fun p o hp ho => ?_⟩⟩
    · rw [hobj, Function.update_of_ne hp]
    · have hpq : p ≠ q := by
        rintro rfl
        rcases hq with hq | hq
        · exact hroot (hq.trans h.frame.root.symm)
        · rw [h.other p o hp ho] at hlive
          exact hq (newNode f) (hp.trans hlive)
      rw [hobj, Function.update_of_ne hpq]
      exact h.other p o hp ho

/-- A node that is closed is there no longer, unless it is the root. -/
theorem kvfsClose_gone {q f : Ptr} (hlive : r.obj q = some (.node (newNode f)))
    (hclose : r.kvfsClose q = some r') :
    NewNodes r r' 0 ∧ (q = r.kvfsRootMountDir ∨ r'.obj q = none) := by
  by_cases hroot : q = r.kvfsRootMountDir
  · rw [hroot, kvfsClose_root] at hclose
    exact ⟨Option.some.inj hclose ▸ NewNodes.refl r 0, Or.inl hroot⟩
  · obtain ⟨r₁, hclose₁, -, -, hobj⟩ := kvfsClose_spec hlive hroot
    obtain rfl : r₁ = r' := Option.some.inj (hclose₁.symm.trans hclose)
    exact ⟨newNodes_update_other hobj (by simp), Or.inr (by rw [hobj, Function.update_self])⟩

/-- Closing the only new node. -/
theorem NewNodes.close {q f : Ptr} (h : NewNodes s r q)
    (hlive : r.obj q = some (.node (newNode f))) (hclose : r.kvfsClose q = some r')
    (hq : q = r.kvfsRootMountDir → ∃ n, s.obj q = some (.node n)) : NewNodes s r' 0 := by
  obtain ⟨hnew, hgone⟩ := kvfsClose_gone hlive hclose
  intro p n hp
  rcases hnew p n hp with h0 | ⟨n', hp'⟩
  · exact Or.inl h0
  · rcases h p n' hp' with rfl | hs
    · rcases hgone with hroot | hdead
      · exact Or.inr (hq hroot)
      · rw [hdead] at hp
        cases hp
    · exact Or.inr hs

/-! ## A walk -/

/-- What a walk comes to: nothing, and then there is no such entry or the page layers have
refused, or a new node of the entry `f`. -/
structure Reached (s r : Fs) (q f : Ptr) : Prop where
  frame : Frame s r
  made : (q = 0 ∧ r.obj = s.obj ∧ (f ≠ 0 → ¬ s.Granted)) ∨
    (q ≠ 0 ∧ f ≠ 0 ∧ s.obj q = none ∧
      r.obj = Function.update s.obj q (some (.node (newNode f))))

theorem Found.reached {p f : Ptr} (h : Found s r p f) : Reached s r p f := by
  rcases h with ⟨rfl, rfl, rfl⟩ | ⟨hf, hframe, -, hmade⟩
  · exact ⟨Frame.refl r, Or.inl ⟨rfl, rfl, fun h => absurd rfl h⟩⟩
  · refine ⟨hframe, ?_⟩
    rcases hmade with ⟨hp, hobj, hpages⟩ | ⟨hp, hdead, hobj⟩
    · refine Or.inl ⟨hp, hobj, fun _ hg => ?_⟩
      rw [hg 0] at hpages
      cases hpages
    · exact Or.inr ⟨hp, hf, hdead, hobj⟩

/-- A walk changes no entry. -/
theorem Reached.entries {q f : Ptr} (h : Reached s r q f) : r.entries = s.entries := by
  rcases h.made with ⟨-, hobj, -⟩ | ⟨-, -, hdead, hobj⟩
  · exact entries_congr fun q e => by rw [hobj]
  · exact entries_update hobj (by simp [hdead]) (by simp)

theorem Reached.newNodes {q f : Ptr} (h : Reached s r q f) : NewNodes s r q := by
  rcases h.made with ⟨-, hobj, -⟩ | ⟨-, -, -, hobj⟩
  · exact fun p n hp => Or.inr ⟨n, by rw [← hobj, hp]⟩
  · exact newNodes_update hobj

theorem Reached.keeps {q f : Ptr} (h : Reached s r q f) : Keeps s r := by
  refine ⟨h.frame, ?_⟩
  intro x o hx _
  rcases h.made with ⟨-, hobj, -⟩ | ⟨-, -, hdead, hobj⟩
  · rw [hobj, hx]
  · rw [hobj, Function.update_of_ne, hx]
    rintro rfl
    rw [hdead] at hx
    cases hx

/-- The node at the end of a walk. -/
theorem Reached.node {q f : Ptr} (h : Reached s r q f) (hq : q ≠ 0) :
    s.obj q = none ∧ r.obj q = some (.node (newNode f)) := by
  rcases h.made with ⟨h0, -⟩ | ⟨-, -, hdead, hobj⟩
  · exact absurd h0 hq
  · exact ⟨hdead, by rw [hobj, Function.update_self]⟩

/-- What a walk leaves, without the node at its end, is what was there before it. -/
theorem Reached.back {q f : Ptr} (h : Reached s r q f) (hq : q ≠ 0) :
    Function.update r.obj q none = s.obj := by
  rcases h.made with ⟨h0, -⟩ | ⟨-, -, hdead, hobj⟩
  · exact absurd h0 hq
  · rw [hobj, Function.update_idem, ← hdead, Function.update_eq_self]

/-- The node at the end of a walk is not that of the root. -/
theorem Reached.ne_root {q f : Ptr} (h : Reached s r q f) (hq : q ≠ 0)
    (hroot : s.obj s.kvfsRootMountDir ≠ none) : q ≠ r.kvfsRootMountDir := by
  rw [h.frame.root]
  rintro rfl
  exact hroot (h.node hq).1

/-- A walk that has come to nothing goes nowhere. -/
theorem Reached.null {f f' : Ptr} (h : Reached s r 0 f) (hf : f = 0 → f' = 0) :
    Reached s r 0 f' := by
  refine ⟨h.frame, ?_⟩
  rcases h.made with ⟨-, hobj, hg⟩ | ⟨h0, -⟩
  · exact Or.inl ⟨rfl, hobj, fun hf' => hg (mt hf hf')⟩
  · exact absurd rfl h0

/-- A node at the end of a walk is the node of an entry. -/
theorem Reached.ne_zero {q f : Ptr} (h : Reached s r q f) (hq : q ≠ 0) : f ≠ 0 := by
  rcases h.made with ⟨h0, -⟩ | ⟨-, hf, -⟩
  · exact absurd h0 hq
  · exact hf

theorem walkTree_append {m : Entries} (d : Ptr) (names names' : List CString) :
    walkTree m t d (names ++ names') = walkTree m t (walkTree m t d names) names' :=
  List.foldl_append

/-- From nowhere a walk leads nowhere. -/
theorem walkTree_zero {m : Entries} (h0 : m 0 = none) (names : List CString) :
    walkTree m t 0 names = 0 := by
  induction names with
  | nil => rfl
  | cons name names ih =>
    have hfind : findIn m t 0 name = 0 := by simp [findIn, h0]
    show walkTree m t (findIn m t 0 name) names = 0
    rw [hfind]
    exact ih

/-- The step of the walk: a lookup from a node of the walk, which is closed behind it. -/
theorem Reached.step (ht : TreeStored m t) (hm : s.Includes m)
    (hroot : s.obj s.kvfsRootMountDir ≠ none) {cur f : Ptr} (h : Reached s r cur f)
    (hcur : cur ≠ 0) (hf : ∃ e, m f = some e) (name : CString) :
    ∃ p r₁ r₂, r.kvfsLookup cur name = some (p, r₁) ∧ r₁.kvfsClose cur = some r₂ ∧
      Reached s r₂ p (findIn m t f name) := by
  have hent := h.entries
  obtain ⟨-, hlive⟩ := h.node hcur
  have hback := h.back hcur
  have hm₁ : r.Includes m := fun q e hq => by rw [hent, hm q e hq]
  obtain ⟨p, r₁, hlook, hfound⟩ := kvfsLookup_part ht hm₁ hlive hf name
  have hreach := hfound.reached
  have hlive₁ : r₁.obj cur = some (.node (newNode f)) :=
    hreach.keeps.other _ _ hlive (by simp)
  have hne : cur ≠ r₁.kvfsRootMountDir := by
    rw [hreach.frame.root]
    exact h.ne_root hcur hroot
  obtain ⟨r₂, hclose, hframe, -, hobj⟩ := kvfsClose_spec hlive₁ hne
  refine ⟨p, r₁, r₂, hlook, hclose, h.frame.trans (hreach.frame.trans hframe), ?_⟩
  rcases hreach.made with ⟨hp, hobj₁, hg⟩ | ⟨hp, hf', hdead', hobj₁⟩
  · refine Or.inl ⟨hp, by rw [hobj, hobj₁, hback], fun hne hgr => ?_⟩
    exact hg hne (h.frame.granted hgr)
  · have hpc : p ≠ cur := by
      rintro rfl
      rw [hdead'] at hlive
      cases hlive
    refine Or.inr ⟨hp, hf', by rw [← hback, Function.update_of_ne hpc, hdead'], ?_⟩
    rw [hobj, hobj₁, Function.update_comm hpc, hback]

/-- **A walk from a node of its own ends at a new node of the entry that the tree has under the
names.** -/
theorem walkParts_reached (ht : TreeStored m t) (hm : s.Includes m)
    (hroot : s.obj s.kvfsRootMountDir ≠ none) {start cur f : Ptr} (hstart : s.obj start ≠ none)
    (names : List CString) (h : Reached s r cur f) (hcur : cur ≠ 0)
    (hf : ∃ e, m f = some e) :
    ∃ q r', r.walkParts start cur names = some (q, r') ∧
      Reached s r' q (walkTree m t f names) := by
  induction names generalizing r cur f with
  | nil => exact ⟨cur, r, rfl, h⟩
  | cons name names ih =>
    obtain ⟨p, r₁, r₂, hlook, hclose, hreach⟩ := h.step ht hm hroot hcur hf name
    have hne : cur ≠ start := by
      rintro rfl
      exact hstart (h.node hcur).1
    have hunless : r₁.closeUnless start cur = some r₂ := by
      simp [closeUnless, hne, hclose]
    by_cases hp : p = 0
    · subst hp
      refine ⟨0, r₂, by simp [walkParts, hlook, hunless], hreach.null fun h0 => ?_⟩
      show walkTree m t (findIn m t f name) names = 0
      rw [h0, walkTree_zero ht.zero]
    · obtain ⟨q, r', hwalk, hreach'⟩ := ih hreach hp (ht.findIn_mem (hreach.ne_zero hp))
      exact ⟨q, r', by simp [walkParts, hlook, hunless, hp, hwalk], hreach'⟩

/-- A walk of some names from a node that stays open. -/
theorem walkParts_spec (ht : TreeStored m t) (hm : s.Includes m)
    (hroot : s.obj s.kvfsRootMountDir ≠ none) {start d : Ptr}
    (hstart : s.obj start = some (.node (newNode d))) (hd : ∃ e, m d = some e)
    {names : List CString} (hne : names ≠ []) :
    ∃ q r, s.walkParts start start names = some (q, r) ∧
      Reached s r q (walkTree m t d names) := by
  obtain ⟨name, names, rfl⟩ := List.exists_cons_of_ne_nil hne
  obtain ⟨p, r₁, hlook, hfound⟩ := kvfsLookup_part ht hm hstart hd name
  have hreach := hfound.reached
  by_cases hp : p = 0
  · subst hp
    refine ⟨0, r₁, by simp [walkParts, hlook, closeUnless], hreach.null fun h0 => ?_⟩
    show walkTree m t (findIn m t d name) names = 0
    rw [h0, walkTree_zero ht.zero]
  · have hlive : s.obj start ≠ none := by simp [hstart]
    obtain ⟨q, r', hwalk, hreach'⟩ := walkParts_reached ht hm hroot hlive names hreach hp
      (ht.findIn_mem (hreach.ne_zero hp))
    exact ⟨q, r', by simp [walkParts, hlook, closeUnless, hp, hwalk], hreach'⟩

/-! ## Paths -/

/-- Where a walk arrives, there is an entry. -/
theorem walkTree_mem {m : Entries} (ht : TreeStored m t) {d : Ptr} (hd : ∃ e, m d = some e)
    {names : List CString} (hne : walkTree m t d names ≠ 0) :
    ∃ e, m (walkTree m t d names) = some e := by
  induction names generalizing d with
  | nil => exact hd
  | cons name names ih =>
    refine ih (ht.findIn_mem fun h0 => hne ?_) hne
    show walkTree m t (findIn m t d name) names = 0
    rw [h0, walkTree_zero ht.zero]

/-- The names that are looked up for a path: those in the table behind the `"/"`. -/
def pathNames (path : CString) : List CString := splitParts (partsRoom path) (skipSlashes path)

/-- `kvfs_resolve_from` leaves the `"/"` out, and nothing else. -/
theorem pathSteps_kvfsSplitPath (path : CString) :
    pathSteps (kvfsSplitPath path) = pathNames path := by
  rw [kvfsSplitPath_eq]
  by_cases hp : kvfsIsAbsolutePath path = true
  · simp [pathSteps, hp, pathNames]
  · simp only [hp, Bool.false_eq_true, if_false, List.nil_append, pathSteps, pathNames]
    split_ifs with hs
    · exfalso
      cases hparts : splitParts (partsRoom path) (skipSlashes path) with
      | nil =>
        rw [hparts] at hs
        exact absurd hs (by decide)
      | cons name names =>
        have hvalid := splitParts_valid (partsRoom path) path name (by simp [hparts])
        rw [hparts] at hs
        cases name with
        | nil => exact hvalid.1 rfl
        | cons c name =>
          have hc : c = slash := hs
          exact hvalid.2.2 (hc ▸ List.mem_cons_self)
    · rfl

/-- The node from which a path is walked. -/
def startNode (s : Fs) (path : CString) : Ptr :=
  if kvfsIsAbsolutePath path then s.kvfsRootMountDir else s.kvfsCwd

/-- The state after a path has been walked: `q` is `NULL` or a node of the entry `f`. -/
structure Opened (s r : Fs) (q f : Ptr) : Prop where
  keeps : Keeps s r
  entries : r.entries = s.entries
  node : q ≠ 0 → r.obj q = some (.node (newNode f)) ∧ ∃ e, s.entries f = some e

theorem Reached.opened {q f : Ptr} (h : Reached s r q f)
    (hf : f ≠ 0 → ∃ e, s.entries f = some e) : Opened s r q f :=
  ⟨h.keeps, h.entries, fun hq => ⟨(h.node hq).2, hf (h.ne_zero hq)⟩⟩

/-- The start of a walk, when the node it starts from is there. -/
theorem resolveStart_eq {path : CString} (h : s.startNode path ≠ 0) :
    s.resolveStart (if kvfsIsAbsolutePath path then 0 else s.kvfsCwd) path = s.startNode path := by
  unfold resolveStart startNode at *
  by_cases habs : kvfsIsAbsolutePath path = true
  · simp [habs]
  · simp only [habs, Bool.false_eq_true, if_false] at h
    simp [habs, h]

/-- **`kvfs_lookup_open` returns a new node of the entry that the names in the table lead to**,
or the root, or nothing. -/
theorem kvfsLookupOpen_part (ht : TreeStored m t) (hm : s.Includes m)
    (hroot : s.obj s.kvfsRootMountDir ≠ none) {path : CString} {d : Ptr}
    (hstart : s.obj (s.startNode path) = some (.node (newNode d)))
    (hd : ∃ e, m d = some e) :
    ∃ q r, s.kvfsLookupOpen path = some (q, r) ∧
      Opened s r q (walkTree m t d (pathNames path)) ∧ NewNodes s r q ∧ (q ≠ 0 → Temp s q) ∧
      (q = 0 → kvfsSplitPath path ≠ [] → walkTree m t d (pathNames path) ≠ 0 →
        ¬ s.Granted) := by
  have hne := ne_zero_of_obj hstart
  have hd' := hm.entry hd
  simp only [kvfsLookupOpen, kvfsResolveFrom, resolveStart_eq hne, if_neg hne,
    pathSteps_kvfsSplitPath, Option.pure_def]
  by_cases hparts : kvfsSplitPath path = []
  · exact ⟨0, s, by simp [hparts], ⟨Keeps.refl s, rfl, fun h => absurd rfl h⟩,
      NewNodes.refl s 0, fun h => absurd rfl h, fun _ h => absurd hparts h⟩
  have hlen : (kvfsSplitPath path).length ≠ 0 := by simpa using hparts
  rw [if_neg hlen]
  by_cases hnames : pathNames path = []
  · -- only the root is named by a table of `"/"` alone
    have habs : kvfsIsAbsolutePath path = true := by
      by_contra habs
      rw [kvfsSplitPath_eq, if_neg habs] at hparts
      exact hparts hnames
    have hq : s.startNode path = s.kvfsRootMountDir := by simp [startNode, habs]
    refine ⟨s.startNode path, s, by simp [hnames, walkParts], ⟨Keeps.refl s, rfl, fun _ => ?_⟩,
      NewNodes.refl s _, fun _ => Or.inl hq, fun h0 => absurd h0 hne⟩
    rw [hnames]
    exact ⟨hstart, hd'⟩
  · obtain ⟨q, r, hwalk, hreach⟩ := walkParts_spec ht hm hroot hstart hd hnames
    refine ⟨q, r, hwalk, hreach.opened fun h0 => hm.entry (walkTree_mem ht hd h0),
      hreach.newNodes, fun hq => (Keeps.refl s).temp (hreach.node hq).1, fun hq _ hf => ?_⟩
    rcases hreach.made with ⟨-, -, hg⟩ | ⟨hq', -⟩
    · exact hg hf
    · exact absurd hq hq'

/-- The same, where the entries in use are those of the tree. -/
theorem kvfsLookupOpen_spec (ht : TreeStored s.entries t)
    (hroot : s.obj s.kvfsRootMountDir ≠ none) {path : CString} {d : Ptr}
    (hstart : s.obj (s.startNode path) = some (.node (newNode d)))
    (hd : ∃ e, s.entries d = some e) :
    ∃ q r, s.kvfsLookupOpen path = some (q, r) ∧
      Opened s r q (walkTree s.entries t d (pathNames path)) ∧ (q ≠ 0 → Temp s q) ∧
      (q = 0 → kvfsSplitPath path ≠ [] → walkTree s.entries t d (pathNames path) ≠ 0 →
        ¬ s.Granted) := by
  obtain ⟨q, r, hlook, hopen, -, hrest⟩ := kvfsLookupOpen_part ht s.includes_entries hroot hstart hd
  exact ⟨q, r, hlook, hopen, hrest⟩

/-- The part of a path that names the file itself. -/
def lastName (path : CString) : CString := (kvfsSplitPath path).getLastD []

theorem kvfsSplitPath_snoc {path : CString} (h : kvfsSplitPath path ≠ []) :
    kvfsSplitPath path = (kvfsSplitPath path).dropLast ++ [lastName path] := by
  rw [lastName, List.getLastD_eq_getLast?, List.getLast?_eq_some_getLast h, Option.getD_some,
    List.dropLast_append_getLast]

/-- **`kvfs_resolve_parent_from` returns a new node of the entry that all the names but the last
lead to**, or the node that the walk starts from, or nothing; the start is the working directory
for a relative path of one name only. -/
theorem kvfsResolveParentFrom_part (ht : TreeStored m t) (hm : s.Includes m)
    (hroot : s.obj s.kvfsRootMountDir ≠ none) {path : CString} {d : Ptr}
    (hstart : s.obj (s.startNode path) = some (.node (newNode d)))
    (hd : ∃ e, m d = some e) :
    ∃ p r, s.kvfsResolveParentFrom (if kvfsIsAbsolutePath path then 0 else s.kvfsCwd) path =
        some (p, lastName path, r) ∧
      Opened s r p (walkTree m t d (pathNames path).dropLast) ∧ NewNodes s r p ∧
      (p ≠ 0 → lastName path ∈ kvfsSplitPath path) ∧
      (p ≠ 0 → Temp s p ∨ (p = s.kvfsCwd ∧ r = s ∧ kvfsIsAbsolutePath path = false ∧
        kvfsSplitPath path = [lastName path])) ∧
      (p = 0 → kvfsSplitPath path ≠ [] →
        walkTree m t d (pathNames path).dropLast ≠ 0 → ¬ s.Granted) := by
  have hne := ne_zero_of_obj hstart
  have hd' := hm.entry hd
  have hsteps : (if ((kvfsSplitPath path).headD []).headD 0 = slash then
      (kvfsSplitPath path).dropLast.drop 1 else (kvfsSplitPath path).dropLast) =
        (pathNames path).dropLast := by
    rw [← pathSteps_kvfsSplitPath, pathSteps]
    split_ifs
    · rw [List.drop_one, List.drop_one, List.tail_dropLast]
    · rfl
  simp only [kvfsResolveParentFrom, resolveStart_eq hne, if_neg hne, hsteps, Option.pure_def]
  by_cases hparts : kvfsSplitPath path = []
  · exact ⟨0, s, by simp [hparts, lastName], ⟨Keeps.refl s, rfl, fun h => absurd rfl h⟩,
      NewNodes.refl s 0, fun h => absurd rfl h, fun h => absurd rfl h, fun _ h => absurd hparts h⟩
  have hlen : (kvfsSplitPath path).length ≠ 0 := by simpa using hparts
  have hlast : lastName path ∈ kvfsSplitPath path := by
    rw [kvfsSplitPath_snoc hparts]
    exact List.mem_append_right _ List.mem_cons_self
  rw [if_neg hlen]
  by_cases hnames : (pathNames path).dropLast = []
  · rw [hnames]
    refine ⟨s.startNode path, s, by simp [walkParts, lastName],
      ⟨Keeps.refl s, rfl, fun _ => ⟨hstart, hd'⟩⟩, NewNodes.refl s _, fun _ => hlast,
      fun _ => ?_, fun h0 => absurd h0 hne⟩
    by_cases habs : kvfsIsAbsolutePath path = true
    · exact Or.inl (Or.inl (by simp [startNode, habs]))
    · right
      have hsplit : (kvfsSplitPath path).dropLast = [] := by
        rw [kvfsSplitPath_eq, if_neg habs]
        exact hnames
      refine ⟨by simp [startNode, habs], rfl, by simpa using habs, ?_⟩
      conv_lhs => rw [kvfsSplitPath_snoc hparts, hsplit]
      rfl
  · obtain ⟨p, r, hwalk, hreach⟩ := walkParts_spec ht hm hroot hstart hd hnames
    refine ⟨p, r, by simp [hwalk, lastName],
      hreach.opened fun h0 => hm.entry (walkTree_mem ht hd h0), hreach.newNodes, fun _ => hlast,
      fun hp => Or.inl ((Keeps.refl s).temp (hreach.node hp).1), fun hp _ hf => ?_⟩
    rcases hreach.made with ⟨-, -, hg⟩ | ⟨hp', -⟩
    · exact hg hf
    · exact absurd hp hp'

/-- The same, where the entries in use are those of the tree. -/
theorem kvfsResolveParentFrom_spec (ht : TreeStored s.entries t)
    (hroot : s.obj s.kvfsRootMountDir ≠ none) {path : CString} {d : Ptr}
    (hstart : s.obj (s.startNode path) = some (.node (newNode d)))
    (hd : ∃ e, s.entries d = some e) :
    ∃ p r, s.kvfsResolveParentFrom (if kvfsIsAbsolutePath path then 0 else s.kvfsCwd) path =
        some (p, lastName path, r) ∧
      Opened s r p (walkTree s.entries t d (pathNames path).dropLast) ∧
      (p ≠ 0 → lastName path ∈ kvfsSplitPath path) ∧
      (p ≠ 0 → Temp s p ∨ (p = s.kvfsCwd ∧ r = s ∧ kvfsIsAbsolutePath path = false ∧
        kvfsSplitPath path = [lastName path])) ∧
      (p = 0 → kvfsSplitPath path ≠ [] →
        walkTree s.entries t d (pathNames path).dropLast ≠ 0 → ¬ s.Granted) := by
  obtain ⟨p, r, hresolve, hopen, -, hrest⟩ :=
    kvfsResolveParentFrom_part ht s.includes_entries hroot hstart hd
  exact ⟨p, r, hresolve, hopen, hrest⟩

end Fs

end DelOs
