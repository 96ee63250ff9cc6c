import DelOs.Fs.Tree

/-!
# Creating and removing entries

What a new entry, and the removal of one, mean for the tree that the entries store.

* `newEntry`, `insertEntry` — the entries after one has been created.
* `relink`, `removeEntry` — the entries after one has been taken out of the list it is in.
* `TreeStored.insert`, `TreeStored.remove` — **the edited entries store the edited tree**.
* `TreeChange` — what one call may do to the tree: nothing, one new leaf, or one leaf less.
-/

namespace DelOs

open FirstFit LinkedList

/-- The entry that `ktmpfs_create_entry` makes. -/
def newEntry (name : CString) (next parent : Ptr) (mode : Nat) : TmpfsEntry :=
  { TmpfsEntry.zero with
    name := name, next := next, parent := parent, stat := kvfsStatCreate mode }

/-- What an edit of the tree leaves of an entry. -/
structure SameFile (e e' : TmpfsEntry) : Prop where
  name : e'.name = e.name
  mode : e'.stat.mode = e.stat.mode
  statSize : e'.stat.size = e.stat.size
  parent : e'.parent = e.parent
  dataPtr : e'.dataPtr = e.dataPtr
  size : e'.size = e.size
  capacity : e'.capacity = e.capacity

theorem SameFile.refl (e : TmpfsEntry) : SameFile e e := ⟨rfl, rfl, rfl, rfl, rfl, rfl, rfl⟩

/-- The entries after one has been created. -/
def insertEntry (m : Entries) (d x : Ptr) (e : TmpfsEntry) (name : CString) (mode : Nat) :
    Entries :=
  Function.update (Function.update m x (some (newEntry name e.child d mode))) d
    (some { e with child := x, stat := kvfsStatIncNlink e.stat })

variable {m m' : Entries} {t : OrderedTree Ptr}

/-! ## One entry -/

/-- The entry that the tree has at `q`: its links and its kind. -/
structure EntryStored (m : Entries) (t : OrderedTree Ptr) (q : Ptr) (e : TmpfsEntry) : Prop where
  child : IsList (nextOf m) e.child (t.kids q)
  parent : e.parent = if q = t.root then 0 else t.parent q
  kind : (e.isDir = true ∧ e.stat.nlink = 2 + (t.kids q).length) ∨
    (e.isReg = true ∧ t.kids q = [])

theorem TreeStored.entry (h : TreeStored m t) {q : Ptr} {e : TmpfsEntry} (he : m q = some e) :
    EntryStored m t q e :=
  ⟨h.child q e he, h.parent q e he, h.kind q e he⟩

theorem TreeStored.of_entries (hmem : ∀ q, t.Mem q ↔ ∃ e, m q = some e)
    (hentry : ∀ q e, m q = some e → EntryStored m t q e)
    (hroot : ∀ e, m t.root = some e → e.isDir = true) (hzero : m 0 = none) : TreeStored m t :=
  ⟨hmem, fun q e he => (hentry q e he).child, fun q e he => (hentry q e he).parent,
    fun q e he => (hentry q e he).kind, hroot, hzero⟩

/-! ## Creating -/

section Insert

variable {d x q : Ptr} {e : TmpfsEntry} {name : CString} {mode : Nat}

theorem insertEntry_dir : insertEntry m d x e name mode d =
    some { e with child := x, stat := kvfsStatIncNlink e.stat } := by
  simp [insertEntry]

theorem insertEntry_new (hdx : d ≠ x) :
    insertEntry m d x e name mode x = some (newEntry name e.child d mode) := by
  simp [insertEntry, hdx.symm]

theorem insertEntry_of_ne (hqd : q ≠ d) (hqx : q ≠ x) :
    insertEntry m d x e name mode q = m q := by
  simp [insertEntry, hqd, hqx]

/-- Siblings that were there before stay linked as they were. -/
theorem nextOf_insertEntry (hd : m d = some e) (hqx : q ≠ x) :
    nextOf (insertEntry m d x e name mode) q = nextOf m q := by
  by_cases hqd : q = d
  · simp [nextOf, hqd, insertEntry_dir, hd]
  · simp [nextOf, insertEntry_of_ne hqd hqx]

theorem nameOf_insertEntry (hd : m d = some e) (hqx : q ≠ x) :
    nameOf (insertEntry m d x e name mode) q = nameOf m q := by
  by_cases hqd : q = d
  · simp [nameOf, hqd, insertEntry_dir, hd]
  · simp [nameOf, insertEntry_of_ne hqd hqx]

theorem nameOf_insertEntry_new (hdx : d ≠ x) :
    nameOf (insertEntry m d x e name mode) x = name := by
  simp [nameOf, insertEntry_new hdx, newEntry]

theorem isList_insertEntry (hd : m d = some e) (hnew : ¬ t.Mem x) {p : Ptr}
    (hl : IsList (nextOf m) p (t.kids q)) :
    IsList (nextOf (insertEntry m d x e name mode)) p (t.kids q) := by
  refine hl.congr fun y hy => nextOf_insertEntry hd ?_
  rintro rfl
  exact hnew (t.kid_mem hy).2.1

/-- The directory of a new leaf gets it as its first child, and a link more. -/
theorem EntryStored.insert_dir (h : EntryStored m t d e) (hd : m d = some e)
    (hdir : e.isDir = true) (hdx : d ≠ x) (hx0 : x ≠ 0) (hmem : t.Mem d) (hnew : ¬ t.Mem x) :
    EntryStored (insertEntry m d x e name mode) (t.insertLeaf d x hmem hnew) d
      { e with child := x, stat := kvfsStatIncNlink e.stat } := by
  have hkids : (t.insertLeaf d x hmem hnew).kids d = x :: t.kids d := Function.update_self _ _ _
  have hlink : e.stat.nlink = 2 + (t.kids d).length := by
    rcases h.kind with ⟨-, hlink⟩ | ⟨hreg, -⟩
    · exact hlink
    · rw [TmpfsEntry.isDir, isDir_of_isReg hreg] at hdir
      exact absurd hdir (by decide)
  refine ⟨?_, ?_, Or.inl ⟨hdir, ?_⟩⟩
  · rw [hkids]
    exact ⟨rfl, hx0, e.child, by simp [nextOf, insertEntry_new hdx, newEntry],
      isList_insertEntry hd hnew h.child⟩
  · show e.parent = if d = t.root then 0 else Function.update t.parent x d d
    rw [Function.update_of_ne hdx]
    exact h.parent
  · rw [hkids]
    simp only [kvfsStatIncNlink_nlink, List.length_cons, hlink]
    omega

/-- The new leaf has no children. -/
theorem entryStored_new (hroot : t.root ≠ x) (hdx : d ≠ x)
    (hmode : kvfsStatIsDir mode = true ∨ kvfsStatIsReg mode = true) (hmem : t.Mem d)
    (hnew : ¬ t.Mem x) :
    EntryStored m (t.insertLeaf d x hmem hnew) x (newEntry name e.child d mode) := by
  have hkids : (t.insertLeaf d x hmem hnew).kids x = [] :=
    (Function.update_of_ne hdx.symm _ _).trans (t.kids_of_not_mem hnew)
  refine ⟨?_, ?_, ?_⟩
  · rw [hkids]
    exact (rfl : (0 : Nat) = 0)
  · show d = if x = t.root then 0 else Function.update t.parent x d x
    rw [if_neg hroot.symm, Function.update_self]
  · rw [hkids]
    rcases hmode with hm | hm
    · exact Or.inl ⟨by simpa [TmpfsEntry.isDir, newEntry] using hm,
        by simp [newEntry, kvfsStatCreate_nlink, hm]⟩
    · exact Or.inr ⟨by simpa [TmpfsEntry.isReg, newEntry] using hm, rfl⟩

/-- The other entries are not touched. -/
theorem EntryStored.insert_other {e' : TmpfsEntry} (h : EntryStored m t q e') (hd : m d = some e)
    (hqd : q ≠ d) (hqx : q ≠ x) (hmem : t.Mem d) (hnew : ¬ t.Mem x) :
    EntryStored (insertEntry m d x e name mode) (t.insertLeaf d x hmem hnew) q e' := by
  have hkids : (t.insertLeaf d x hmem hnew).kids q = t.kids q := Function.update_of_ne hqd _ _
  have hparent : (t.insertLeaf d x hmem hnew).parent q = t.parent q :=
    Function.update_of_ne hqx _ _
  refine ⟨?_, ?_, ?_⟩
  · rw [hkids]
    exact isList_insertEntry hd hnew h.child
  · rw [hparent]
    exact h.parent
  · rw [hkids]
    exact h.kind

end Insert

/-- **A created entry stores a new leaf**, at the head of the children of its directory. -/
theorem TreeStored.insert (h : TreeStored m t) {d x : Ptr} {e : TmpfsEntry}
    (hd : m d = some e) (hdir : e.isDir = true) (hx : m x = none) (hx0 : x ≠ 0) (name : CString)
    {mode : Nat} (hmode : kvfsStatIsDir mode = true ∨ kvfsStatIsReg mode = true)
    (hmem : t.Mem d) (hnew : ¬ t.Mem x) :
    TreeStored (insertEntry m d x e name mode) (t.insertLeaf d x hmem hnew) := by
  have hdx : d ≠ x := by
    rintro rfl
    rw [hx] at hd
    cases hd
  have hroot : t.root ≠ x := by
    intro hr
    exact hnew (hr ▸ t.root_mem)
  refine .of_entries (fun q => ?_) (fun q e' he' => ?_) (fun e' he' => ?_) ?_
  · show (q = x ∨ t.Mem q) ↔ _
    by_cases hqx : q = x
    · simp [hqx, insertEntry_new hdx]
    · by_cases hqd : q = d
      · simp [hqd, insertEntry_dir, hmem]
      · simp [hqx, insertEntry_of_ne hqd hqx, h.mem q]
  · by_cases hqd : q = d
    · subst hqd
      obtain rfl := Option.some.inj (insertEntry_dir.symm.trans he')
      exact (h.entry hd).insert_dir hd hdir hdx hx0 hmem hnew
    · by_cases hqx : q = x
      · subst hqx
        obtain rfl := Option.some.inj ((insertEntry_new hdx).symm.trans he')
        exact entryStored_new hroot hdx hmode hmem hnew
      · rw [insertEntry_of_ne hqd hqx] at he'
        exact (h.entry he').insert_other hd hqd hqx hmem hnew
  · have hr : (t.insertLeaf d x hmem hnew).root = t.root := rfl
    rw [hr] at he'
    by_cases hrd : t.root = d
    · rw [hrd, insertEntry_dir] at he'
      obtain rfl := Option.some.inj he'
      exact hdir
    · rw [insertEntry_of_ne hrd hroot] at he'
      exact h.root_isDir e' he'
  · have h0 : (0 : Ptr) ≠ d := by
      rintro rfl
      rw [h.zero] at hd
      cases hd
    rw [insertEntry_of_ne h0 hx0.symm]
    exact h.zero

/-! ## Removing -/

/-- The entries `m'` are `m` without `x`, a child of `p` between `l₁` and `l₂`: the link before
it, in `p` or in the last entry of `l₁`, goes to the entry behind it. -/
structure RemovesFrom (m m' : Entries) (p x : Ptr) (l₁ : List Ptr) (ep ex : TmpfsEntry) :
    Prop where
  gone : m' x = none
  dir : ∃ e', m' p = some e' ∧ SameFile ep e' ∧ e'.stat.nlink = ep.stat.nlink - 1 ∧
    e'.child = if l₁ = [] then ex.next else ep.child
  rest : ∀ q, q ≠ x → q ≠ p → (m q = none ∧ m' q = none) ∨
    ∃ e e', m q = some e ∧ m' q = some e' ∧ SameFile e e' ∧ e'.child = e.child ∧
      e'.stat.nlink = e.stat.nlink
  next : ∀ q, q ≠ x → nextOf m' q = if l₁.getLast? = some q then some ex.next else nextOf m q

/-- The children of a directory one of which has been removed. -/
theorem RemovesFrom.isList {p x : Ptr} {l₁ l₂ : List Ptr} {ep ex : TmpfsEntry}
    (h : RemovesFrom m m' p x l₁ ep ex) (hl : IsList (nextOf m) ep.child (l₁ ++ x :: l₂))
    (hx : m x = some ex) :
    IsList (nextOf m') (if l₁ = [] then ex.next else ep.child) (l₁ ++ l₂) := by
  have hnodup := hl.nodup
  have hxnext : nextOf m x = some ex.next := by simp [nextOf, hx]
  rcases l₁.eq_nil_or_concat with rfl | ⟨l, y, rfl⟩
  · simp only [List.nil_append, List.nodup_cons] at hnodup
    rw [if_pos rfl]
    refine (hl.tail hxnext).congr ?_
    intro q hq
    have hqx : q ≠ x := by
      rintro rfl
      exact hnodup.1 hq
    simp [h.next q hqx]
  · rw [if_neg (by simp)]
    rw [List.concat_eq_append, List.append_assoc] at hl ⊢
    refine hl.unlink hxnext ?_
    intro q hqx
    rw [h.next q hqx]
    simp [eq_comm]

section Remove

variable {p x q : Ptr} {l₁ l₂ : List Ptr} {ep ex e e' : TmpfsEntry}

/-- What an entry that is left was before. -/
theorem RemovesFrom.before (h : RemovesFrom m m' p x l₁ ep ex) (hp : m p = some ep) (hpx : p ≠ x)
    (he' : m' q = some e') :
    ∃ e, q ≠ x ∧ m q = some e ∧ SameFile e e' ∧
      (if q = p then e'.stat.nlink = e.stat.nlink - 1 ∧
        e'.child = (if l₁ = [] then ex.next else e.child)
      else e'.child = e.child ∧ e'.stat.nlink = e.stat.nlink) := by
  by_cases hqp : q = p
  · subst hqp
    obtain ⟨ep', hep', hsame, hlink, hchild⟩ := h.dir
    obtain rfl := Option.some.inj (hep'.symm.trans he')
    exact ⟨ep, hpx, hp, hsame, by rw [if_pos rfl]; exact ⟨hlink, hchild⟩⟩
  · have hqx : q ≠ x := by
      rintro rfl
      rw [h.gone] at he'
      cases he'
    rcases h.rest q hqx hqp with ⟨-, hnone⟩ | ⟨e, e'', he, he'', hsame, hrest⟩
    · rw [hnone] at he'
      cases he'
    · obtain rfl := Option.some.inj (he''.symm.trans he')
      exact ⟨e, hqx, he, hsame, by rw [if_neg hqp]; exact hrest⟩

/-- The children of another directory keep their links: the link that changes is one of a child
of `p`. -/
theorem RemovesFrom.isList_other (h : RemovesFrom m m' p x l₁ ep ex)
    (hkids : t.kids p = l₁ ++ x :: l₂) (hqp : q ≠ p) {c : Ptr}
    (hl : IsList (nextOf m) c (t.kids q)) : IsList (nextOf m') c (t.kids q) := by
  have hnot : ∀ y ∈ t.kids q, y ∉ t.kids p := fun y hy hyp =>
    hqp ((t.kid_mem hy).2.2.1.symm.trans (t.kid_mem hyp).2.2.1)
  refine hl.congr fun y hy => ?_
  have hyx : y ≠ x := by
    rintro rfl
    exact hnot _ hy (by simp [hkids])
  rw [h.next y hyx, if_neg]
  intro hlast
  refine hnot y hy ?_
  rw [hkids]
  exact List.mem_append_left _ (List.mem_of_getLast? hlast)

/-- The directory of a removed leaf has one child less, and one link less. -/
theorem EntryStored.remove_dir (h : EntryStored m t p ep) (hm : RemovesFrom m m' p x l₁ ep ex)
    (hx : m x = some ex) (hkids : t.kids p = l₁ ++ x :: l₂) (hr : x ≠ t.root)
    (hleaf : t.kids x = []) (hsame : SameFile ep e') (hlink : e'.stat.nlink = ep.stat.nlink - 1)
    (hchild : e'.child = if l₁ = [] then ex.next else ep.child) :
    EntryStored m' (t.removeLeaf x hr hleaf) p e' := by
  have herase : (t.removeLeaf x hr hleaf).kids p = l₁ ++ l₂ := by
    have hnodup := t.nodup p
    show (t.kids p).erase x = l₁ ++ l₂
    rw [hkids] at hnodup ⊢
    exact erase_append_cons hnodup
  refine ⟨?_, ?_, ?_⟩
  · have hl := h.child
    rw [hkids] at hl
    rw [herase, hchild]
    exact hm.isList hl hx
  · rw [hsame.parent]
    exact h.parent
  · rcases h.kind with ⟨hdir, hn⟩ | ⟨-, hnil⟩
    · refine Or.inl ⟨by simpa [TmpfsEntry.isDir, hsame.mode] using hdir, ?_⟩
      rw [hlink, hn, herase, hkids]
      simp only [List.length_append, List.length_cons]
      omega
    · rw [hnil] at hkids
      simp at hkids

/-- An entry elsewhere keeps its children and its kind. -/
theorem EntryStored.remove_other (h : EntryStored m t q e) (hm : RemovesFrom m m' p x l₁ ep ex)
    (hkids : t.kids p = l₁ ++ x :: l₂) (hr : x ≠ t.root) (hleaf : t.kids x = []) (hqp : q ≠ p)
    (hsame : SameFile e e') (hchild : e'.child = e.child)
    (hlink : e'.stat.nlink = e.stat.nlink) :
    EntryStored m' (t.removeLeaf x hr hleaf) q e' := by
  have herase : (t.removeLeaf x hr hleaf).kids q = t.kids q := by
    refine List.erase_of_not_mem fun hmem => hqp ?_
    exact (t.kid_mem hmem).2.2.1.symm.trans (t.kid_mem (by rw [hkids]; simp)).2.2.1
  refine ⟨?_, ?_, ?_⟩
  · rw [herase, hchild]
    exact hm.isList_other hkids hqp h.child
  · rw [hsame.parent]
    exact h.parent
  · rw [herase]
    simpa [TmpfsEntry.isDir, TmpfsEntry.isReg, hsame.mode, hlink] using h.kind

end Remove

/-- **The entries without a removed leaf store the tree without it.** -/
theorem TreeStored.remove (h : TreeStored m t) {p x : Ptr} {l₁ l₂ : List Ptr}
    {ep ex : TmpfsEntry} (hp : m p = some ep) (hx : m x = some ex)
    (hkids : t.kids p = l₁ ++ x :: l₂) (hleaf : t.kids x = []) (hr : x ≠ t.root)
    (hm : RemovesFrom m m' p x l₁ ep ex) : TreeStored m' (t.removeLeaf x hr hleaf) := by
  have hpx : p ≠ x := by
    rintro rfl
    exact t.not_mem_kids_self p (by rw [hkids]; simp)
  refine .of_entries (fun q => ?_) (fun q e' he' => ?_) (fun e' he' => ?_) ?_
  · show (q ≠ x ∧ t.Mem q) ↔ _
    by_cases hqx : q = x
    · simp [hqx, hm.gone]
    · by_cases hqp : q = p
      · obtain ⟨ep', hep', -⟩ := hm.dir
        simp [hqp, hpx, hep', h.mem, hp]
      · rcases hm.rest q hqx hqp with ⟨h1, h2⟩ | ⟨e, e', he, he', -⟩
        · simp [h.mem, h1, h2]
        · simp [hqx, h.mem, he, he']
  · obtain ⟨e, -, he, hsame, hlinks⟩ := hm.before hp hpx he'
    by_cases hqp : q = p
    · subst hqp
      obtain rfl := Option.some.inj (hp.symm.trans he)
      rw [if_pos rfl] at hlinks
      exact (h.entry hp).remove_dir hm hx hkids hr hleaf hsame hlinks.1 hlinks.2
    · rw [if_neg hqp] at hlinks
      exact (h.entry he).remove_other hm hkids hr hleaf hqp hsame hlinks.1 hlinks.2
  · obtain ⟨e, -, he, hsame, -⟩ := hm.before hp hpx he'
    have hdir := h.root_isDir e he
    rwa [TmpfsEntry.isDir, ← hsame.mode] at hdir
  · cases h0 : m' 0 with
    | none => rfl
    | some e' =>
      obtain ⟨e, -, he, -⟩ := hm.before hp hpx h0
      rw [h.zero] at he
      cases he

/-- The entries after the link to a removed child of `p` has been set to `next`: the one in `p`,
or in the last of the children `l₁` before it. -/
def relink (m : Entries) (p : Ptr) (l₁ : List Ptr) (next : Ptr) : Entries :=
  match l₁.getLast? with
  | none => Function.update m p ((m p).map fun e => { e with child := next })
  | some y => Function.update m y ((m y).map fun e => { e with next := next })

/-- The entries after a child `x` of `p` has been removed. -/
def removeEntry (m : Entries) (p x : Ptr) (l₁ : List Ptr) (next : Ptr) : Entries :=
  Function.update (Function.update (relink m p l₁ next) x none) p
    ((relink m p l₁ next p).map fun e => { e with stat := kvfsStatDecNlink e.stat })

/-- An entry that stays as it is. -/
theorem sameEntry_of_eq {m' : Entries} {q : Ptr} (h : m' q = m q) : (m q = none ∧ m' q = none) ∨
    ∃ e e', m q = some e ∧ m' q = some e' ∧ SameFile e e' ∧ e'.child = e.child ∧
      e'.stat.nlink = e.stat.nlink := by
  rw [h]
  cases m q with
  | none => exact Or.inl ⟨rfl, rfl⟩
  | some e => exact Or.inr ⟨e, e, rfl, rfl, SameFile.refl e, rfl, rfl⟩

theorem removesFrom_removeEntry {p x : Ptr} {l₁ : List Ptr} {ep ex : TmpfsEntry}
    (hp : m p = some ep) (hpx : p ≠ x) (hl : ∀ y ∈ l₁, y ≠ p ∧ y ≠ x ∧ ∃ e, m y = some e) :
    RemovesFrom m (removeEntry m p x l₁ ex.next) p x l₁ ep ex := by
  rcases l₁.eq_nil_or_concat with rfl | ⟨l, y, rfl⟩
  · -- the link is in the directory
    have hrel : relink m p [] ex.next = Function.update m p (some { ep with child := ex.next }) := by
      simp [relink, hp]
    refine ⟨by simp [removeEntry, hpx.symm], ?_, ?_, ?_⟩
    · exact ⟨{ ep with child := ex.next, stat := kvfsStatDecNlink ep.stat },
        by simp [removeEntry, hrel], ⟨rfl, by simp, by simp, rfl, rfl, rfl, rfl⟩, by simp, rfl⟩
    · intro q hqx hqp
      exact sameEntry_of_eq (by simp [removeEntry, hrel, hqx, hqp])
    · intro q hqx
      by_cases hqp : q = p
      · simp [nextOf, removeEntry, hrel, hqp, hp]
      · simp [nextOf, removeEntry, hrel, hqx, hqp]
  · -- the link is in the child before
    rw [List.concat_eq_append] at hl ⊢
    obtain ⟨hyp, hyx, ey, hey⟩ := hl y (by simp)
    have hrel : relink m p (l ++ [y]) ex.next =
        Function.update m y (some { ey with next := ex.next }) := by
      simp [relink, hey]
    refine ⟨by simp [removeEntry, hpx.symm], ?_, ?_, ?_⟩
    · exact ⟨{ ep with stat := kvfsStatDecNlink ep.stat },
        by simp [removeEntry, hrel, hyp.symm, hp], ⟨rfl, by simp, by simp, rfl, rfl, rfl, rfl⟩,
        by simp, by simp⟩
    · intro q hqx hqp
      by_cases hqy : q = y
      · subst hqy
        exact Or.inr ⟨ey, { ey with next := ex.next }, hey,
          by simp [removeEntry, hrel, hqx, hqp], ⟨rfl, rfl, rfl, rfl, rfl, rfl, rfl⟩, rfl, rfl⟩
      · exact sameEntry_of_eq (by simp [removeEntry, hrel, hqx, hqp, hqy])
    · intro q hqx
      by_cases hqp : q = p
      · simp [nextOf, removeEntry, hrel, hqp, hyp, hyp.symm, hp]
      · by_cases hqy : q = y
        · simp [nextOf, removeEntry, hrel, hqy, hyp, hyx]
        · simp [nextOf, removeEntry, hrel, hqx, hqp, hqy, Ne.symm hqy]

/-! ## One change at a time -/

/-- What a call does to the tree `t` that the entries `m` store: nothing, or it makes the new
leaf `fresh`, or it removes the leaf `gone`.  A new name has been looked up before, unless the
page layers refused (`G` says that they did not). -/
inductive TreeChange (G : Prop) (m m' : Entries) (t : OrderedTree Ptr) :
    Ptr → Ptr → OrderedTree Ptr → Prop
  | same (h : m' = m) : TreeChange G m m' t 0 0 t
  | insert {d x : Ptr} {e : TmpfsEntry} {name : CString} {mode : Nat} (hd : m d = some e)
      (hdir : e.isDir = true) (hx : m x = none) (hx0 : x ≠ 0)
      (hmode : kvfsStatIsDir mode = true ∨ kvfsStatIsReg mode = true) (hmem : t.Mem d)
      (hnew : ¬ t.Mem x) (hname : name ≠ [] ∧ FitsName name)
      (hfree : G → findIn m t d name = 0) (h : m' = insertEntry m d x e name mode) :
      TreeChange G m m' t 0 x (t.insertLeaf d x hmem hnew)
  | remove {p x : Ptr} {l₁ l₂ : List Ptr} {ep ex : TmpfsEntry} (hp : m p = some ep)
      (hx : m x = some ex) (hkids : t.kids p = l₁ ++ x :: l₂) (hleaf : t.kids x = [])
      (hr : x ≠ t.root) (hm : RemovesFrom m m' p x l₁ ep ex) :
      TreeChange G m m' t x 0 (t.removeLeaf x hr hleaf)

namespace TreeChange

variable {G : Prop} {gone fresh : Ptr} {t' : OrderedTree Ptr}

/-- **A changed tree is stored.** -/
theorem stored (hc : TreeChange G m m' t gone fresh t') (h : TreeStored m t) :
    TreeStored m' t' := by
  cases hc with
  | same hm =>
    rw [hm]
    exact h
  | insert hd hdir hx hx0 hmode hmem hnew _ _ hm =>
    rw [hm]
    exact h.insert hd hdir hx hx0 _ hmode hmem hnew
  | remove hp hx hkids hleaf hr hm => exact h.remove hp hx hkids hleaf hr hm

theorem root (hc : TreeChange G m m' t gone fresh t') : t'.root = t.root := by
  cases hc <;> rfl

/-- The entries that are not removed stay the files they are. -/
theorem kept (hc : TreeChange G m m' t gone fresh t') {q : Ptr} {e : TmpfsEntry}
    (hq : m q = some e) (hne : q ≠ gone) :
    ∃ e', m' q = some e' ∧ SameFile e e' := by
  cases hc with
  | same hm => exact ⟨e, by rw [hm, hq], SameFile.refl e⟩
  | @insert d x ed name mode hd _ hx _ _ _ _ _ _ hm =>
    have hqx : q ≠ fresh := by
      rintro rfl
      rw [hx] at hq
      cases hq
    by_cases hqd : q = d
    · subst hqd
      obtain rfl : ed = e := by simpa [hd] using hq
      exact ⟨{ ed with child := fresh, stat := kvfsStatIncNlink ed.stat },
        by simp [hm, insertEntry], ⟨rfl, rfl, rfl, rfl, rfl, rfl, rfl⟩⟩
    · exact ⟨e, by simp [hm, insertEntry, hqd, hqx, hq], SameFile.refl e⟩
  | @remove p x l₁ l₂ ep ex hp _ _ _ _ hm =>
    by_cases hqp : q = p
    · subst hqp
      obtain rfl : ep = e := by simpa [hp] using hq
      obtain ⟨e', he', hsame, -⟩ := hm.dir
      exact ⟨e', he', hsame⟩
    · rcases hm.rest q hne hqp with ⟨hnone, -⟩ | ⟨e₀, e', he₀, he', hsame, -⟩
      · rw [hnone] at hq
        cases hq
      · obtain rfl : e₀ = e := by simpa [he₀] using hq
        exact ⟨e', he', hsame⟩

/-- The entries that are not new were there before. -/
theorem back (hc : TreeChange G m m' t gone fresh t') {q : Ptr} {e' : TmpfsEntry}
    (hq : m' q = some e') (hne : q ≠ fresh) : ∃ e, m q = some e ∧ SameFile e e' := by
  cases hc with
  | same hm => exact ⟨e', by rw [← hm, hq], SameFile.refl e'⟩
  | @insert d x ed name mode hd _ hx _ _ _ _ _ _ hm =>
    by_cases hqd : q = d
    · subst hqd
      rw [hm] at hq
      obtain rfl : { ed with child := fresh, stat := kvfsStatIncNlink ed.stat } = e' := by
        simpa [insertEntry] using hq
      exact ⟨ed, hd, ⟨rfl, rfl, rfl, rfl, rfl, rfl, rfl⟩⟩
    · rw [hm] at hq
      exact ⟨e', by simpa [insertEntry, hqd, hne] using hq, SameFile.refl e'⟩
  | @remove p x l₁ l₂ ep ex hp _ _ _ _ hm =>
    by_cases hqp : q = p
    · subst hqp
      obtain ⟨e'', he'', hsame, -⟩ := hm.dir
      obtain rfl : e'' = e' := by simpa [he''] using hq
      exact ⟨ep, hp, hsame⟩
    · have hqx : q ≠ gone := by
        rintro rfl
        rw [hm.gone] at hq
        cases hq
      rcases hm.rest q hqx hqp with ⟨-, hnone⟩ | ⟨e₀, e'', he₀, he'', hsame, -⟩
      · rw [hnone] at hq
        cases hq
      · obtain rfl : e'' = e' := by simpa [he''] using hq
        exact ⟨e₀, he₀, hsame⟩

/-- What a new entry is. -/
theorem fresh_eq (hc : TreeChange G m m' t gone fresh t') (h0 : fresh ≠ 0) :
    ∃ name next parent mode, m' fresh = some (newEntry name next parent mode) := by
  cases hc with
  | same => exact absurd rfl h0
  | @insert d x ed name mode hd _ hx _ _ _ _ _ _ hm =>
    have hdx : fresh ≠ d := by
      rintro rfl
      rw [hx] at hd
      cases hd
    exact ⟨name, ed.child, d, mode, by simp [hm, insertEntry, hdx]⟩
  | remove => exact absurd rfl h0

end TreeChange

end DelOs
