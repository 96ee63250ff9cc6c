import DelOs.Fs.PathCalls

/-!
# Memory for the nodes of a walk

A walk has two nodes in use at most, the one where it stands and the next one.  Once two have been
made their blocks serve for all others, whatever the page layers answer.

* `Roomy`, `Spare` — a block with room for a node, and a free one.
* `TwoNodes`, `TwoSpares` — the allocator has memory for two nodes in a row; and for two nodes
  without a new page.
* `Lasts` — a walk can go on: its node has a block with room, and another node can be made.
* `Lasts.made`, `NextMade.step` — **a step of the walk leaves it so**, since it frees the block
  behind it.
* `lookupOpen_of_spares` — **a path is walked to its end** where two blocks are spare.
-/

namespace DelOs

open FirstFit

namespace Fs

variable {s r r₁ r₂ : Fs} {m : Entries} {t : OrderedTree Ptr} {p q f : Ptr}

/-! ## Blocks -/

/-- The block has room for a node. -/
def Roomy (s : Fs) (p : Ptr) : Prop := ∃ b, get s.heap p = some b ∧ sizeofVfsNode ≤ b.size

/-- The block is free, and has room for a node. -/
def Spare (s : Fs) (p : Ptr) : Prop :=
  ∃ b, get s.heap p = some b ∧ b.free = true ∧ sizeofVfsNode ≤ b.size

/-- Two nodes can be allocated, one after the other. -/
def TwoNodes (s : Fs) : Prop :=
  (s.kmalloc sizeofVfsNode).1 ≠ 0 ∧
    ((s.kmalloc sizeofVfsNode).2.kmalloc sizeofVfsNode).1 ≠ 0

instance (s : Fs) : Decidable (TwoNodes s) := inferInstanceAs (Decidable (_ ∧ _))

/-- Two free blocks have room for a node. -/
def TwoSpares (s : Fs) : Prop := ∃ p q, p ≠ q ∧ Spare s p ∧ Spare s q

/-- Where there is a spare block a node can be allocated. -/
theorem Spare.kmalloc (h : Spare s p) : (s.kmalloc sizeofVfsNode).1 ≠ 0 := by
  obtain ⟨b, hb, hfree, hsize⟩ := h
  have halign : alignUp sizeofVfsNode 8 = sizeofVfsNode := by decide
  have hfind : find (alignUp sizeofVfsNode 8) s.heap ≠ 0 := fun h0 => by
    have hlt := find_eq_zero h0 p b hb hfree
    rw [halign] at hlt
    omega
  show (kmallocBlocks (s.pages 0) Obj.raw s.heap sizeofVfsNode).1 ≠ 0
  rw [kmallocBlocks, if_neg (by decide), if_pos hfind]
  exact hfind

/-- The record in a block does not matter to the allocator. -/
theorem find_put (s : Fs) (p : Ptr) (o : Obj) (need : Nat) :
    find need (s.put p o).heap = find need s.heap := by
  show find need (FirstFit.update _ s.heap p) = _
  induction s.heap with
  | nil => rfl
  | cons b bs ih =>
    rw [FirstFit.update]
    split_ifs
    · rfl
    · rw [find, find, ih, length_update]

theorem kmalloc_put (s : Fs) (p : Ptr) (o : Obj) (size : Nat) :
    ((s.put p o).kmalloc size).1 = (s.kmalloc size).1 := by
  have hpages : (s.put p o).pages = s.pages := rfl
  have hlen : (s.put p o).heap.length = s.heap.length := length_update _ _ _
  show (kmallocBlocks _ Obj.raw _ size).1 = (kmallocBlocks _ Obj.raw _ size).1
  unfold kmallocBlocks
  rw [find_put, hpages, hlen]
  split_ifs <;> rfl

/-- A new node is what the allocator returns, with its record written. -/
theorem createVfsNode_eq (hf : f ≠ 0) : s.ktmpfsCreateVfsNode f =
    if (s.kmalloc sizeofVfsNode).1 = 0 then (0, (s.kmalloc sizeofVfsNode).2)
    else ((s.kmalloc sizeofVfsNode).1,
      (s.kmalloc sizeofVfsNode).2.put (s.kmalloc sizeofVfsNode).1 (.node (newNode f))) := by
  rw [ktmpfsCreateVfsNode, if_neg hf]
  rfl

theorem createVfsNode_fst (hf : f ≠ 0) :
    (s.ktmpfsCreateVfsNode f).1 = (s.kmalloc sizeofVfsNode).1 := by
  rw [createVfsNode_eq hf]
  split_ifs with h0
  · exact h0.symm
  · rfl

theorem createVfsNode_kmalloc (hf : f ≠ 0) (hq : (s.kmalloc sizeofVfsNode).1 ≠ 0) (size : Nat) :
    ((s.ktmpfsCreateVfsNode f).2.kmalloc size).1 =
      ((s.kmalloc sizeofVfsNode).2.kmalloc size).1 := by
  rw [createVfsNode_eq hf, if_neg hq]
  exact kmalloc_put _ _ _ _

/-- The block of a new node has room for it, and no other block changes. -/
theorem createVfsNode_blocks (hf : f ≠ 0) (h : s.ktmpfsCreateVfsNode f = (q, r)) (hq : q ≠ 0) :
    Roomy r q ∧ ∀ x, x ≠ q → get r.heap x = get s.heap x := by
  rw [createVfsNode_eq hf] at h
  split_ifs at h with h0
  · exact absurd (Prod.mk.inj h).1.symm hq
  obtain ⟨rfl, rfl⟩ := Prod.mk.inj h
  have hblocks : kmallocBlocks (s.pages 0) Obj.raw s.heap sizeofVfsNode =
      ((s.kmalloc sizeofVfsNode).1, (s.kmalloc sizeofVfsNode).2.heap) := rfl
  obtain ⟨⟨b, hb, -, hsize⟩, hrest⟩ := get_kmallocBlocks (by decide) hblocks h0
  have halign : alignUp sizeofVfsNode 8 = sizeofVfsNode := by decide
  refine ⟨⟨_, get_update_self _ hb, halign ▸ hsize⟩, fun x hx => ?_⟩
  exact (get_update_ne _ hx).trans (hrest x hx)

/-- The block of a node that is closed becomes a spare one, and no other block changes. -/
theorem kvfsClose_blocks (h : s.obj q = some (.node (newNode f))) (hne : q ≠ s.kvfsRootMountDir)
    (hclose : s.kvfsClose q = some r) :
    (Roomy s q → Spare r q) ∧ ∀ x, x ≠ q → get r.heap x = get s.heap x := by
  have hone : (newNode f).refcount = 1 := rfl
  have heq : r = (s.put q (.node { newNode f with refcount := 0 })).kfree q := by
    have hdone : s.kvfsClose q =
        some ((s.put q (.node { newNode f with refcount := 0 })).kfree q) := by
      simp [kvfsClose, ne_zero_of_obj h, hne, nodeAt_of_obj h, hone, setRefcount, load_of_obj h]
    exact Option.some.inj (hclose.symm.trans hdone)
  subst heq
  refine ⟨fun hroomy => ?_, fun x hx => ?_⟩
  · obtain ⟨b, hb, hsize⟩ := hroomy
    refine ⟨{ b with val := .node { newNode f with refcount := 0 }, free := true }, ?_, rfl, hsize⟩
    show get (kfreeBlocks _ q) q = _
    rw [get_kfreeBlocks, if_pos rfl, put, get_update_self _ hb]
    rfl
  · show get (kfreeBlocks _ q) x = _
    rw [get_kfreeBlocks, if_neg hx]
    exact get_update_ne _ hx

/-! ## A walk -/

/-- The walk that stands at the node `cur` can go on. -/
structure Lasts (s : Fs) (cur : Ptr) : Prop where
  roomy : Roomy s cur
  next : (s.kmalloc sizeofVfsNode).1 ≠ 0

/-- With a node and a spare block a walk can go on. -/
theorem Spare.lasts (h : Spare s p) (hq : Roomy s q) : Lasts s q := ⟨hq, h.kmalloc⟩

/-- The next node of the walk. -/
structure NextMade (s r : Fs) (cur q f : Ptr) : Prop where
  ne_zero : q ≠ 0
  ne : q ≠ cur
  frame : Frame s r
  dead : s.obj q = none
  obj : r.obj = Function.update s.obj q (some (.node (newNode f)))
  roomy : Roomy r q
  stays : Roomy r cur

/-- A walk that can go on makes its next node. -/
theorem Lasts.made (h : Lasts r p) (hlive : r.obj p ≠ none) (hf : f ≠ 0)
    (hmade : r.ktmpfsCreateVfsNode f = (q, r₁)) : NextMade r r₁ p q f := by
  have halloc := ktmpfsCreateVfsNode_spec (s := r) hf
  have hq : q ≠ 0 := by
    have hfst := createVfsNode_fst (s := r) hf
    rw [hmade] at hfst
    exact hfst.trans_ne h.next
  rw [hmade] at halloc
  obtain ⟨-, hdead, hobj⟩ := halloc.made.resolve_left fun hno => hq hno.1
  have hqp : q ≠ p := by
    rintro rfl
    exact hlive hdead
  obtain ⟨hroomy, hrest⟩ := createVfsNode_blocks hf hmade hq
  obtain ⟨b, hb, hsize⟩ := h.roomy
  exact ⟨hq, hqp, halloc.frame, hdead, hobj, hroomy, b, (hrest p hqp.symm).trans hb, hsize⟩

/-- **A step of the walk** leaves a spare block behind, so that the walk can go on. -/
theorem NextMade.step (h : NextMade r r₁ p q f) {f' : Ptr}
    (hlive : r.obj p = some (.node (newNode f'))) (hroot : p ≠ r.kvfsRootMountDir)
    (hclose : r₁.kvfsClose p = some r₂) : Lasts r₂ q := by
  have hlive₁ : r₁.obj p = some (.node (newNode f')) := by
    rw [h.obj, Function.update_of_ne h.ne.symm, hlive]
  have hroot₁ : p ≠ r₁.kvfsRootMountDir := by
    rw [h.frame.root]
    exact hroot
  obtain ⟨hspare, hrest⟩ := kvfsClose_blocks hlive₁ hroot₁ hclose
  obtain ⟨b, hb, hsize⟩ := h.roomy
  exact (hspare h.stays).lasts ⟨b, (hrest q h.ne).trans hb, hsize⟩

/-- **A walk that can go on comes to its end**, if there is an entry there. -/
theorem walkParts_lasts (ht : TreeStored m t) (hm : s.Includes m)
    (hroot : s.obj s.kvfsRootMountDir ≠ none) {start cur : Ptr} (hstart : s.obj start ≠ none)
    (names : List CString) (h : Reached s r cur f) (hcur : cur ≠ 0) (hf : ∃ e, m f = some e)
    (hlasts : Lasts r cur) (hend : walkTree m t f names ≠ 0) :
    ∃ q r', r.walkParts start cur names = some (q, r') ∧ q ≠ 0 := by
  induction names generalizing r cur f with
  | nil => exact ⟨cur, r, rfl, hcur⟩
  | cons name names ih =>
    obtain ⟨p, r₁, r₂, hlook, hclose, hreach⟩ := h.step ht hm hroot hcur hf name
    obtain ⟨hdead, hlive⟩ := h.node hcur
    have hne : cur ≠ start := by
      rintro rfl
      exact hstart hdead
    have hnr := h.ne_root hcur hroot
    have hfound : findIn m t f name ≠ 0 := fun h0 => hend (by
      show walkTree m t (findIn m t f name) names = 0
      rw [h0, walkTree_zero ht.zero])
    have hmade : r.ktmpfsCreateVfsNode (findIn m t f name) = (p, r₁) := by
      have hm' : r.Includes m := fun x e hx => by rw [h.entries, hm x e hx]
      rw [kvfsLookup_eq ht hm' hlive hf name] at hlook
      exact Option.some.inj hlook
    have hnext := hlasts.made (by simp [hlive]) hfound hmade
    obtain ⟨q, r', hwalk, hq⟩ := ih hreach hnext.ne_zero (ht.findIn_mem hfound)
      (hnext.step hlive hnr hclose) hend
    have hunless : r₁.closeUnless start cur = some r₂ := by simp [closeUnless, hne, hclose]
    exact ⟨q, r', by simp [walkParts, hlook, hunless, hnext.ne_zero, hwalk], hq⟩

/-- The first step of a walk takes one of two spare blocks at most. -/
theorem TwoSpares.first (h : TwoSpares s) (hf : f ≠ 0) (hmade : s.ktmpfsCreateVfsNode f = (q, r)) :
    q ≠ 0 ∧ Lasts r q := by
  obtain ⟨p, p', hne, hp, hp'⟩ := h
  have hq : q ≠ 0 := by
    have hfst := createVfsNode_fst (s := s) hf
    rw [hmade] at hfst
    exact hfst.trans_ne hp.kmalloc
  obtain ⟨hroomy, hrest⟩ := createVfsNode_blocks hf hmade hq
  have hstays : ∀ {x}, Spare s x → x ≠ q → Spare r x := fun ⟨b, hb, hfree, hsize⟩ hx =>
    ⟨b, (hrest _ hx).trans hb, hfree, hsize⟩
  refine ⟨hq, ?_⟩
  by_cases hpq : p = q
  · exact (hstays hp' fun heq => hne (hpq.trans heq.symm)).lasts hroomy
  · exact (hstays hp hpq).lasts hroomy

/-- **A path is walked to its end** where two blocks are spare. -/
theorem lookupOpen_of_spares (hs : Stands s t) (h : TwoSpares s) {path : CString}
    (habs : kvfsIsAbsolutePath path = true)
    (hend : walkTree s.entries t t.root (pathNames path) ≠ 0) :
    ∃ q r, s.kvfsLookupOpen path = some (q, r) ∧ q ≠ 0 ∧
      r.Refers q (walkTree s.entries t t.root (pathNames path)) := by
  have hstart := hs.startsAt habs
  obtain ⟨q, r, hlook, hopen, -⟩ :=
    kvfsLookupOpen_spec hs.tree hs.root_live hstart.node hstart.entry
  refine ⟨q, r, hlook, ?_⟩
  suffices hq : q ≠ 0 from ⟨hq, refers_newNode (hopen.node hq).1⟩
  have hroot := ne_zero_of_obj hs.root
  have hsplit : (kvfsSplitPath path).length ≠ 0 := by
    rw [kvfsSplitPath_eq, if_pos habs]
    simp
  have hwalk : s.walkParts s.kvfsRootMountDir s.kvfsRootMountDir (pathNames path) = some (q, r) := by
    rw [← hlook]
    simp [kvfsLookupOpen, kvfsResolveFrom, resolveStart, habs, hroot, hsplit, pathSteps_kvfsSplitPath]
  rcases hnames : pathNames path with _ | ⟨name, names⟩
  · rw [hnames] at hwalk
    obtain ⟨rfl, -⟩ := Prod.mk.inj (Option.some.inj hwalk)
    exact hroot
  · rw [hnames] at hwalk hend
    have hentry := (hs.tree.mem _).1 t.root_mem
    have hfound : findIn s.entries t t.root name ≠ 0 := fun h0 => hend (by
      show walkTree s.entries t (findIn s.entries t t.root name) names = 0
      rw [h0, walkTree_zero hs.tree.zero])
    obtain ⟨p, r₁, hfirst, hreach⟩ := kvfsLookup_spec hs.tree hs.root hentry name
    have hmade : s.ktmpfsCreateVfsNode (findIn s.entries t t.root name) = (p, r₁) := by
      rw [kvfsLookup_eq hs.tree s.includes_entries hs.root hentry name] at hfirst
      exact Option.some.inj hfirst
    obtain ⟨hp, hlasts⟩ := h.first hfound hmade
    obtain ⟨q', r', hrest, hq'⟩ := walkParts_lasts hs.tree s.includes_entries hs.root_live
      hs.root_live names hreach.reached hp (hs.tree.findIn_mem hfound) hlasts hend
    simp only [walkParts, hfirst, closeUnless, ne_eq, not_true_eq_false, if_false, if_neg hp,
      Option.bind_eq_bind, Option.bind_some, hrest, Option.some.injEq, Prod.mk.injEq] at hwalk
    exact hwalk.1 ▸ hq'

end Fs

end DelOs
