import DelOs.Fs.Nodes
import DelOs.Fs.TreeEdit

/-!
# The operations that create and remove entries

What `ktmpfs_create_entry` and `ktmpfs_remove_from_parent_ll` do to the records of a file
system that stores a tree, and the operations above them.

* `ktmpfsCreateEntry_spec`, `makeEntry_spec` — a new entry at the head of the children of its
  directory, or nothing if the page layers refuse.
* `kvfsCreate_spec`, `kvfsMkdir_spec` — the same from a node of the directory, for a file and
  for a directory.
* `ktmpfsRemoveFromParentLl_spec` — an entry taken out of the children of its directory, and
  freed.
* `ktmpfsUnlink_spec`, `ktmpfsRmdir_spec` — **the two removals remove one leaf of the tree**, or
  change nothing.
-/

namespace DelOs

open FirstFit LinkedList

namespace Fs

variable {s r : Fs} {t : OrderedTree Ptr}

/-! ## Records and entries -/

theorem entries_update_entry {p : Ptr} {e : TmpfsEntry}
    (hobj : r.obj = Function.update s.obj p (some (.entry e))) :
    r.entries = Function.update s.entries p (some e) := by
  funext q
  unfold entries
  rw [hobj, Function.update_apply, Function.update_apply]
  split_ifs <;> rfl

theorem entries_kfree (s : Fs) (p : Ptr) :
    (s.kfree p).entries = Function.update s.entries p none := by
  funext q
  unfold entries
  rw [obj_kfree, Function.update_apply, Function.update_apply]
  split_ifs <;> rfl

/-- Writing an entry keeps what is no entry. -/
theorem keeps_put {p : Ptr} {e : TmpfsEntry} (h : s.entries p = some e) (e' : TmpfsEntry) :
    Keeps s (s.put p (.entry e')) := by
  have hobj := entries_eq_some.1 h
  refine ⟨frame_put s p (.entry e'), fun q o hq ho => ?_⟩
  rw [obj_put (by simp [hobj]), Function.update_of_ne, hq]
  rintro rfl
  rw [hobj] at hq
  exact ho e (Option.some.inj hq).symm

/-- Freeing an entry keeps what is no entry. -/
theorem keeps_kfree {p : Ptr} {e : TmpfsEntry} (h : s.entries p = some e) :
    Keeps s (s.kfree p) := by
  have hobj := entries_eq_some.1 h
  refine ⟨frame_kfree s p, fun q o hq ho => ?_⟩
  rw [obj_kfree, Function.update_of_ne, hq]
  rintro rfl
  rw [hobj] at hq
  exact ho e (Option.some.inj hq).symm

theorem Alloc.keeps {p : Ptr} {o : Obj} (h : Alloc s r p o) : Keeps s r := by
  refine ⟨h.frame, fun q o' hq _ => ?_⟩
  rcases h.made with ⟨-, hobj, -⟩ | ⟨-, hdead, hobj⟩
  · rw [hobj, hq]
  · rw [hobj, Function.update_of_ne, hq]
    rintro rfl
    rw [hdead] at hq
    cases hq

/-! ## Creating -/

/-- What came of making an entry: no memory and no change, or the new entries `m`. -/
structure Made (s r : Fs) (x : Ptr) (m : Entries) : Prop where
  keeps : Keeps s r
  pages : r.pages = fun k => s.pages (k + 1)
  made : (x = 0 ∧ r.entries = s.entries ∧ s.pages 0 = false) ∨
    (x ≠ 0 ∧ s.obj x = none ∧ r.entries = m)

/-- `ktmpfs_create_entry` makes an entry at the head of the children of a directory. -/
theorem ktmpfsCreateEntry_spec {d : Ptr} {e : TmpfsEntry} (hd : s.entries d = some e)
    (hdir : e.isDir = true) (name : CString) (mode : Nat) :
    ∃ x r, s.ktmpfsCreateEntry d name mode = some (x, r) ∧ Made s r x
      (Function.update (Function.update s.entries x (some (newEntry name e.child d mode))) d
        (some { e with child := x })) := by
  have hobj := entries_eq_some.1 hd
  have hd0 := ne_zero_of_obj hobj
  rcases hnew : s.kcallocEntry with ⟨x, s₁⟩
  have hsize : 0 < sizeofTmpfsEntry ∧ sizeofTmpfsEntry ≤ 2 ^ 29 := by decide
  have halloc : Alloc s s₁ x (.entry TmpfsEntry.zero) := new_alloc hsize.1 hsize.2 hnew
  simp only [ktmpfsCreateEntry, if_neg hd0, entryAt_of_obj hobj, hdir, hnew, Bool.true_eq_false,
    if_false, Option.bind_eq_bind, Option.bind_some, Option.pure_def]
  rcases halloc.made with ⟨rfl, hobj₁, hpages⟩ | ⟨hx, hdead, hobj₁⟩
  · exact ⟨0, s₁, by simp, halloc.keeps, halloc.pages,
      Or.inl ⟨rfl, entries_congr fun q e => by rw [hobj₁], hpages⟩⟩
  · have hdx : d ≠ x := by
      rintro rfl
      rw [hdead] at hobj
      cases hobj
    -- the records after each of the stores
    have hd₁ : s₁.obj d = some (.entry e) := by rw [hobj₁, Function.update_of_ne hdx, hobj]
    have hx₁ : s₁.obj x ≠ none := by simp [hobj₁]
    have hobj₂ := obj_put hx₁ (.entry { TmpfsEntry.zero with name := name, next := e.child })
    have hd₂ : (s₁.put x (.entry { TmpfsEntry.zero with
        name := name, next := e.child })).obj d = some (.entry e) := by
      rw [hobj₂, Function.update_of_ne hdx, hd₁]
    have hobj₃ := obj_put (s := s₁.put x (.entry { TmpfsEntry.zero with
        name := name, next := e.child })) (p := d) (by simp [hd₂]) (.entry { e with child := x })
    have hx₃ : ((s₁.put x (.entry { TmpfsEntry.zero with
        name := name, next := e.child })).put d (.entry { e with child := x })).obj x =
          some (.entry { TmpfsEntry.zero with name := name, next := e.child }) := by
      rw [hobj₃, Function.update_of_ne hdx.symm, hobj₂, Function.update_self]
    have hobj₄ := obj_put (p := x) (by rw [hx₃]; exact Option.some_ne_none _)
      (.entry (newEntry name e.child d mode))
    have hobj' : (((s₁.put x (.entry { TmpfsEntry.zero with name := name, next := e.child })).put d
        (.entry { e with child := x })).put x (.entry (newEntry name e.child d mode))).obj =
          Function.update (Function.update s.obj x (some (.entry (newEntry name e.child d mode)))) d
            (some (.entry { e with child := x })) := by
      rw [hobj₄, hobj₃, hobj₂, hobj₁]
      funext q
      simp only [Function.update_apply]
      split_ifs <;> simp_all
    refine ⟨x, ((s₁.put x (.entry { TmpfsEntry.zero with name := name, next := e.child })).put d
        (.entry { e with child := x })).put x (.entry (newEntry name e.child d mode)), ?_, ?_,
      halloc.pages, Or.inr ⟨hx, hdead, ?_⟩⟩
    · simp only [if_neg hx, entryAt_of_obj hd₁, entryAt_of_obj hd₂, entryAt_of_obj hx₃,
        Option.bind_some, newEntry]
    · refine ⟨halloc.frame.trans ((frame_put _ _ _).trans ((frame_put _ _ _).trans
        (frame_put _ _ _))), fun q o hq ho => ?_⟩
      have hqd : q ≠ d := by
        rintro rfl
        rw [hobj] at hq
        exact ho e (Option.some.inj hq).symm
      have hqx : q ≠ x := by
        rintro rfl
        rw [hdead] at hq
        cases hq
      rw [hobj', Function.update_of_ne hqd, Function.update_of_ne hqx, hq]
    · funext q
      unfold entries
      rw [hobj']
      simp only [Function.update_apply]
      split_ifs <;> rfl

/-- A new entry and one more link of its directory, which the node `parent` stands for. -/
theorem makeEntry_spec {parent d : Ptr} (hparent : s.obj parent = some (.node (newNode d)))
    {e : TmpfsEntry} (hd : s.entries d = some e) (hdir : e.isDir = true) (name : CString)
    (mode : Nat) :
    ∃ x r r', s.ktmpfsCreateEntry d name mode = some (x, r) ∧
      (x ≠ 0 → r.incNlink parent = some r') ∧ (x = 0 → r' = r) ∧
      Made s r' x (insertEntry s.entries d x e name mode) := by
  obtain ⟨x, r, hcreate, hmade⟩ := ktmpfsCreateEntry_spec hd hdir name mode
  by_cases hx : x = 0
  · refine ⟨x, r, r, hcreate, fun h => absurd hx h, fun _ => rfl, hmade.keeps, hmade.pages, ?_⟩
    rcases hmade.made with h | ⟨hx', -⟩
    · exact Or.inl h
    · exact absurd hx hx'
  · rcases hmade.made with ⟨hx', -⟩ | ⟨-, hdead, hent⟩
    · exact absurd hx' hx
    have hrd : r.entries d = some { e with child := x } := by rw [hent, Function.update_self]
    have hnode : r.nodeAt parent = some (newNode d) :=
      nodeAt_of_obj (hmade.keeps.other _ _ hparent (by simp))
    refine ⟨x, r, r.put d (.entry { e with child := x, stat := kvfsStatIncNlink e.stat }), hcreate,
      fun _ => ?_, fun h => absurd h hx, hmade.keeps.trans (keeps_put hrd _), hmade.pages,
      Or.inr ⟨hx, hdead, ?_⟩⟩
    · have hpriv : (newNode d).priv = d := rfl
      simp [incNlink, hnode, hpriv, entryAt_of_obj (entries_eq_some.1 hrd)]
    · rw [entries_put (by simp [entries_eq_some.1 hrd]), hent, Function.update_idem]
      rfl

/-- `kvfs_create` makes a file in the directory that the node stands for. -/
theorem kvfsCreate_spec {parent d : Ptr} (hparent : s.obj parent = some (.node (newNode d)))
    {e : TmpfsEntry} (hd : s.entries d = some e) (hdir : e.isDir = true) (name : CString)
    (mode : Nat) :
    ∃ x r, s.kvfsCreate parent name mode = some (decide (x ≠ 0), r) ∧
      Made s r x (insertEntry s.entries d x e name
        (kvfsStatModeMaskIt mode ||| KVFS_STAT_IFREG)) := by
  obtain ⟨x, r, r', hcreate, hinc, hnull, hmade⟩ := makeEntry_spec hparent hd hdir name
    (kvfsStatModeMaskIt mode ||| KVFS_STAT_IFREG)
  have hstat := kvfsGetStat_refers (refers_newNode hparent) (entries_eq_some.1 hd)
  have hpriv : (newNode d).priv = d := rfl
  refine ⟨x, r', ?_, hmade⟩
  by_cases hx : x = 0
  · simp [kvfsCreate, hstat, ktmpfsCreate, ne_zero_of_obj hparent, nodeAt_of_obj hparent, hpriv,
      hcreate, hx, hnull hx]
  · simp [kvfsCreate, hstat, ktmpfsCreate, ne_zero_of_obj hparent, nodeAt_of_obj hparent, hpriv,
      hcreate, hx, hinc hx]

/-- The mode of a directory made by `kvfs_mkdir`: both layers mask it. -/
def mkdirMode (mode : Nat) : Nat :=
  kvfsStatModeMaskIt (kvfsStatModeMaskIt mode ||| KVFS_STAT_IFDIR) ||| KVFS_STAT_IFDIR

/-- `kvfs_mkdir` makes a directory in the directory that the node stands for. -/
theorem kvfsMkdir_spec {parent d : Ptr} (hparent : s.obj parent = some (.node (newNode d)))
    {e : TmpfsEntry} (hd : s.entries d = some e) (hdir : e.isDir = true) (name : CString)
    (mode : Nat) :
    ∃ x r, s.kvfsMkdir parent name mode = some (decide (x ≠ 0), r) ∧
      Made s r x (insertEntry s.entries d x e name (mkdirMode mode)) := by
  obtain ⟨x, r, r', hcreate, hinc, hnull, hmade⟩ :=
    makeEntry_spec hparent hd hdir name (mkdirMode mode)
  have hstat := kvfsGetStat_refers (refers_newNode hparent) (entries_eq_some.1 hd)
  have hpriv : (newNode d).priv = d := rfl
  rw [mkdirMode] at hcreate
  refine ⟨x, r', ?_, hmade⟩
  by_cases hx : x = 0
  · simp [kvfsMkdir, hstat, ktmpfsMkdir, ne_zero_of_obj hparent, nodeAt_of_obj hparent, hpriv,
      hcreate, hx, hnull hx]
  · simp [kvfsMkdir, hstat, ktmpfsMkdir, ne_zero_of_obj hparent, nodeAt_of_obj hparent, hpriv,
      hcreate, hx, hinc hx]

/-- In what is no directory nothing is made. -/
theorem ktmpfsCreateEntry_notDir {d : Ptr} {e : TmpfsEntry} (hd : s.entries d = some e)
    (hdir : e.isDir = false) (name : CString) (mode : Nat) :
    s.ktmpfsCreateEntry d name mode = some (0, s) := by
  have hobj := entries_eq_some.1 hd
  simp [ktmpfsCreateEntry, ne_zero_of_obj hobj, entryAt_of_obj hobj, hdir]

theorem kvfsCreate_notDir {parent d : Ptr} (hparent : s.obj parent = some (.node (newNode d)))
    {e : TmpfsEntry} (hd : s.entries d = some e) (hdir : e.isDir = false) (name : CString)
    (mode : Nat) : s.kvfsCreate parent name mode = some (false, s) := by
  have hstat := kvfsGetStat_refers (refers_newNode hparent) (entries_eq_some.1 hd)
  have hpriv : (newNode d).priv = d := rfl
  simp [kvfsCreate, hstat, ktmpfsCreate, ne_zero_of_obj hparent, nodeAt_of_obj hparent, hpriv,
    ktmpfsCreateEntry_notDir hd hdir]

theorem kvfsMkdir_notDir {parent d : Ptr} (hparent : s.obj parent = some (.node (newNode d)))
    {e : TmpfsEntry} (hd : s.entries d = some e) (hdir : e.isDir = false) (name : CString)
    (mode : Nat) : s.kvfsMkdir parent name mode = some (false, s) := by
  have hstat := kvfsGetStat_refers (refers_newNode hparent) (entries_eq_some.1 hd)
  have hpriv : (newNode d).priv = d := rfl
  simp [kvfsMkdir, hstat, ktmpfsMkdir, ne_zero_of_obj hparent, nodeAt_of_obj hparent, hpriv,
    ktmpfsCreateEntry_notDir hd hdir]

/-! ## Removing -/

/-- The link before a removed child is set to the one behind it. -/
theorem unlinkChild_spec {p : Ptr} (next : Ptr) {l₁ : List Ptr} {ep : TmpfsEntry}
    (hp : s.entries p = some ep) (hl : ∀ y ∈ l₁, ∃ e, s.entries y = some e)
    (h0 : s.entries 0 = none) :
    ∃ r, s.unlinkChild p (l₁.getLastD 0) next = some r ∧ Keeps s r ∧
      r.entries = relink s.entries p l₁ next := by
  rcases l₁.eq_nil_or_concat with rfl | ⟨l, y, rfl⟩
  · refine ⟨s.put p (.entry { ep with child := next }), ?_, keeps_put hp _, ?_⟩
    · simp [unlinkChild, entryAt_of_obj (entries_eq_some.1 hp)]
    · rw [entries_put (by simp [entries_eq_some.1 hp])]
      simp [relink, hp]
  · rw [List.concat_eq_append] at hl ⊢
    obtain ⟨ey, hey⟩ := hl y (by simp)
    have hy0 : y ≠ 0 := by
      rintro rfl
      rw [h0] at hey
      cases hey
    refine ⟨s.put y (.entry { ey with next := next }), ?_, keeps_put hey _, ?_⟩
    · simp [unlinkChild, hy0, entryAt_of_obj (entries_eq_some.1 hey)]
    · rw [entries_put (by simp [entries_eq_some.1 hey])]
      simp [relink, hey]

/-- **`ktmpfs_remove_from_parent_ll` takes an entry out of the list of its directory**, and frees
it. -/
theorem ktmpfsRemoveFromParentLl_list {p x : Ptr} {l₁ l₂ : List Ptr} {ep : TmpfsEntry}
    (hp : s.entries p = some ep) (hlist : IsList (nextOf s.entries) ep.child (l₁ ++ x :: l₂))
    (hself : p ∉ l₁ ++ x :: l₂) :
    ∃ r ex, s.ktmpfsRemoveFromParentLl p x = some (true, r) ∧ Keeps s r ∧
      s.entries x = some ex ∧ r.entries = removeEntry s.entries p x l₁ ex.next ∧
      RemovesFrom s.entries r.entries p x l₁ ep ex := by
  have hentries : ∀ y ∈ l₁ ++ x :: l₂, ∃ e, s.entries y = some e := fun y hy =>
    isList_entry hlist hy
  obtain ⟨ex, hex⟩ := hentries x (by simp)
  have hpx : p ≠ x := by
    rintro rfl
    exact hself (by simp)
  have hbefore : ∀ y ∈ l₁, y ≠ p ∧ y ≠ x ∧ ∃ e, s.entries y = some e := by
    intro y hy
    refine ⟨?_, ?_, hentries y (List.mem_append_left _ hy)⟩
    · rintro rfl
      exact hself (List.mem_append_left _ hy)
    · rintro rfl
      exact List.disjoint_of_nodup_append hlist.nodup hy List.mem_cons_self
  -- the walk of the list finds the entry, with the one before it
  have hlen := length_kids_le hlist hentries
  have hwalk : s.walkChildren (fun q _ => q == x) (s.heap.length + 1) 0 ep.child =
      some (l₁.getLastD 0, x) := by
    apply walkChildren_stop 0 hlist
    · rw [List.length_append] at hlen
      omega
    · intro y hy e _
      simpa using (hbefore y hy).2.1
    · simp
  have hzero : s.entries 0 = none := by simp [entries]
  obtain ⟨s₁, hunlink, hkeeps₁, hent₁⟩ :=
    unlinkChild_spec ex.next hp (fun y hy => (hbefore y hy).2.2) hzero
  have hrem : RemovesFrom s.entries (removeEntry s.entries p x l₁ ex.next) p x l₁ ep ex :=
    removesFrom_removeEntry hp hpx hbefore
  have hx₁ : s₁.entries x = some ex := by
    rw [hent₁]
    rcases l₁.eq_nil_or_concat with rfl | ⟨l, y, rfl⟩
    · simp [relink, hpx.symm, hex]
    · have hyx : x ≠ y := fun h => (hbefore y (by simp)).2.1 h.symm
      simp [relink, hyx, hex]
  -- the directory as it is before its link count is lowered
  obtain ⟨ep₁, hep₁⟩ : ∃ ep₁, (s₁.kfree x).entries p = some ep₁ := by
    obtain ⟨e', he', -⟩ := hrem.dir
    rw [removeEntry, Function.update_self, ← hent₁] at he'
    obtain ⟨ep₁, hep₁, -⟩ := Option.map_eq_some_iff.1 he'
    exact ⟨ep₁, by rw [entries_kfree, Function.update_of_ne hpx, hep₁]⟩
  have hent : ((s₁.kfree x).put p (.entry { ep₁ with
      stat := kvfsStatDecNlink ep₁.stat })).entries = removeEntry s.entries p x l₁ ex.next := by
    rw [entries_put (by simp [entries_eq_some.1 hep₁]), entries_kfree, hent₁, removeEntry]
    rw [entries_kfree, Function.update_of_ne hpx, hent₁] at hep₁
    rw [hep₁]
    rfl
  refine ⟨(s₁.kfree x).put p (.entry { ep₁ with stat := kvfsStatDecNlink ep₁.stat }), ex, ?_,
    (hkeeps₁.trans (keeps_kfree hx₁)).trans (keeps_put hep₁ _), hex, hent, ?_⟩
  · have hp0 := ne_zero_of_obj (entries_eq_some.1 hp)
    have hx0 := ne_zero_of_obj (entries_eq_some.1 hex)
    simp only [ktmpfsRemoveFromParentLl, hp0, hx0, or_self, if_false,
      entryAt_of_obj (entries_eq_some.1 hp), hwalk, entryAt_of_obj (entries_eq_some.1 hex),
      hunlink, entryAt_of_obj (entries_eq_some.1 hep₁), Option.bind_eq_bind, Option.bind_some,
      Option.pure_def]
  · rw [hent]
    exact hrem

/-- The same for a child in the tree. -/
theorem ktmpfsRemoveFromParentLl_spec (ht : TreeStored s.entries t) {p x : Ptr}
    (hx : x ∈ t.kids p) :
    ∃ r l₁ l₂ ep ex, s.ktmpfsRemoveFromParentLl p x = some (true, r) ∧ Keeps s r ∧
      s.entries p = some ep ∧ s.entries x = some ex ∧ t.kids p = l₁ ++ x :: l₂ ∧
      r.entries = removeEntry s.entries p x l₁ ex.next ∧
      RemovesFrom s.entries r.entries p x l₁ ep ex := by
  obtain ⟨ep, hp⟩ := (ht.mem p).1 (t.kid_mem hx).1
  obtain ⟨l₁, l₂, hkids⟩ := List.append_of_mem hx
  obtain ⟨r, ex, hremove, hkeeps, hex, hent, hrem⟩ :=
    ktmpfsRemoveFromParentLl_list hp (hkids ▸ ht.child p ep hp) (hkids ▸ t.not_mem_kids_self p)
  exact ⟨r, l₁, l₂, ep, ex, hremove, hkeeps, hp, hex, hkids, hent, hrem⟩

/-- The leaf `x` of the tree has been taken away. -/
def Removes (s r : Fs) (t : OrderedTree Ptr) (x : Ptr) : Prop :=
  Keeps s r ∧ ∀ G, ∃ t', TreeChange G s.entries r.entries t x 0 t'

/-- A leaf of the tree removed from its directory. -/
theorem removeLeaf_spec (ht : TreeStored s.entries t) {x : Ptr} {ex : TmpfsEntry}
    (hx : s.entries x = some ex) (hr : x ≠ t.root) (hleaf : t.kids x = []) :
    ∃ r, s.ktmpfsRemoveFromParentLl ex.parent x = some (true, r) ∧ Removes s r t x := by
  have hkid := t.listed ((ht.mem x).2 ⟨ex, hx⟩) hr
  have hparent : ex.parent = t.parent x := by rw [ht.parent x ex hx, if_neg hr]
  obtain ⟨r, l₁, l₂, ep, ex', hremove, hkeeps, hp, hx', hkids, -, hrem⟩ :=
    ktmpfsRemoveFromParentLl_spec ht hkid
  exact ⟨r, by rw [hparent, hremove], hkeeps,
    fun G => ⟨t.removeLeaf x hr hleaf, .remove hp hx' hkids hleaf hr hrem⟩⟩

/-- **`ktmpfs_unlink` removes a file.** -/
theorem ktmpfsUnlink_spec (ht : TreeStored s.entries t) {node x : Ptr}
    (hnode : s.obj node = some (.node (newNode x))) {ex : TmpfsEntry}
    (hx : s.entries x = some ex) (hreg : ex.isReg = true) :
    ∃ r, s.ktmpfsUnlink node = some (true, r) ∧ Removes s r t x := by
  have hobj := entries_eq_some.1 hx
  have hpriv : (newNode x).priv = x := rfl
  have hleaf : t.kids x = [] := by
    rcases ht.kind x ex hx with ⟨hdir, -⟩ | ⟨-, hkids⟩
    · rw [(ht.isDir_iff hx).1 hdir] at hreg
      cases hreg
    · exact hkids
  have hr : x ≠ t.root := by
    rintro rfl
    rw [(ht.isDir_iff hx).1 (ht.root_isDir ex hx)] at hreg
    cases hreg
  obtain ⟨r, hremove, hrem⟩ := removeLeaf_spec ht hx hr hleaf
  refine ⟨r, ?_, hrem⟩
  simp [ktmpfsUnlink, ne_zero_of_obj hnode, nodeAt_of_obj hnode, hpriv, ne_zero_of_obj hobj,
    entryAt_of_obj hobj, (ht.parent_eq_zero hx), hr, hremove]

/-- **`ktmpfs_rmdir` removes an empty directory** other than the root, and nothing else. -/
theorem ktmpfsRmdir_spec (ht : TreeStored s.entries t) {node x : Ptr}
    (hnode : s.obj node = some (.node (newNode x))) {ex : TmpfsEntry}
    (hx : s.entries x = some ex) :
    (x ≠ t.root ∧ t.kids x = [] ∧ ∃ r, s.ktmpfsRmdir node = some (true, r) ∧ Removes s r t x) ∨
      (¬(x ≠ t.root ∧ t.kids x = []) ∧ s.ktmpfsRmdir node = some (false, s)) := by
  have hobj := entries_eq_some.1 hx
  have hpriv : (newNode x).priv = x := rfl
  have hparent := ht.parent_eq_zero hx
  have hchild := (ht.child x ex hx).eq_zero_iff
  have hrmdir : s.ktmpfsRmdir node = if ex.parent = 0 then some (false, s) else
      if ex.child ≠ 0 then some (false, s) else s.ktmpfsRemoveFromParentLl ex.parent x := by
    simp [ktmpfsRmdir, ne_zero_of_obj hnode, nodeAt_of_obj hnode, hpriv, ne_zero_of_obj hobj,
      entryAt_of_obj hobj]
  by_cases hr : x = t.root
  · exact Or.inr ⟨fun h => h.1 hr, by rw [hrmdir, if_pos (hparent.2 hr)]⟩
  · rw [if_neg (mt hparent.1 hr)] at hrmdir
    by_cases hleaf : t.kids x = []
    · obtain ⟨r, hremove, hrem⟩ := removeLeaf_spec ht hx hr hleaf
      exact Or.inl ⟨hr, hleaf, r, by rw [hrmdir, if_neg (by simp [hchild.2 hleaf]), hremove], hrem⟩
    · exact Or.inr ⟨fun h => hleaf h.2, by rw [hrmdir, if_pos (mt hchild.1 hleaf)]⟩

end Fs

end DelOs
