import DelOs.Fs.Contents
import DelOs.Fs.DescriptorCalls
import DelOs.Lib.PathWalk
import DelOs.Lib.TreeListing

/-!
# The tree of paths under the calls

What lookups, walks, removals and the operations on files come to, for a file system that holds a
given tree of paths (`Represents`).

* `Represents.enter`, `Represents.walk` — **a lookup is a step of the tree of paths, a walk a walk**.
* `Represents.of_stored` — what the entries hold does not depend on the tree that they are said to
  store.
* `Represents.remove` — **an entry less is a path less**.
* `Represents.store` — **a write is a write to the file at the path**, wherever its data lay.
* `Represents.lists_make`, `Represents.lists_remove` — what a directory lists behind a creation and
  behind a removal.
* `Unsized` — no directory has a size.
-/

namespace DelOs

open FirstFit LinkedList Splice PathTree

/-- The entries store one tree: its root is the only entry without a parent, its children are the
lists of children. -/
theorem TreeStored.unique {m : Entries} {t t' : OrderedTree Ptr} (h : TreeStored m t)
    (h' : TreeStored m t') : t'.root = t.root ∧ t'.kids = t.kids := by
  constructor
  · obtain ⟨e, he⟩ := (h.mem _).1 t.root_mem
    exact ((h'.parent_eq_zero he).1 ((h.parent_eq_zero he).2 rfl)).symm
  · funext p
    cases hp : m p with
    | none => rw [t.kids_of_not_mem (h.not_mem hp), t'.kids_of_not_mem (h'.not_mem hp)]
    | some e => exact (h'.child p e hp).unique (h.child p e hp)

/-- The names in a tree depend on the names of the entries. -/
theorem WellNamed.congr {m m' : Entries} {t : OrderedTree Ptr} (h : WellNamed m t)
    (hname : ∀ q, nameOf m' q = nameOf m q) : WellNamed m' t := by
  refine ⟨fun d q hq => ?_, fun d q q' hq hq' heq => ?_⟩
  · rw [hname]
    exact h.proper d q hq
  · rw [hname, hname] at heq
    exact h.distinct d q q' hq hq' heq

/-- No directory has a size. -/
def Unsized (m : Entries) : Prop := ∀ q e, m q = some e → e.isDir = true → e.stat.size = 0

namespace Unsized

variable {m m' : Entries}

/-- What is new is no directory with a size. -/
theorem of_kept (h : Unsized m) (hback : ∀ q e', m' q = some e' →
    (∃ e, m q = some e ∧ SameFile e e') ∨ e'.isDir = false ∨ e'.stat.size = 0) : Unsized m' := by
  intro q e' he' hdir
  rcases hback q e' he' with ⟨e, he, hsame⟩ | hfile | hsize
  · rw [hsame.statSize]
    exact h q e he (by rw [TmpfsEntry.isDir, ← hsame.mode]; exact hdir)
  · rw [hfile] at hdir
    cases hdir
  · exact hsize

theorem make (h : Unsized m) {d x : Ptr} {e : TmpfsEntry} (hd : m d = some e) (name : CString)
    (mode : Nat) : Unsized (insertEntry m d x e name mode) := by
  refine h.of_kept fun q e' he' => ?_
  rw [insertEntry, Function.update_apply, Function.update_apply] at he'
  split_ifs at he' with hqd hqx
  · obtain rfl := Option.some.inj he'
    exact Or.inl ⟨e, hqd ▸ hd, rfl, rfl, rfl, rfl, rfl, rfl, rfl⟩
  · obtain rfl := Option.some.inj he'
    exact Or.inr (Or.inr (by unfold newEntry kvfsStatCreate; split_ifs <;> rfl))
  · exact Or.inl ⟨e', he', .refl e'⟩

theorem remove (h : Unsized m) {p x : Ptr} {l₁ : List Ptr} {ep ex : TmpfsEntry}
    (hp : m p = some ep) (hr : RemovesFrom m m' p x l₁ ep ex) : Unsized m' := by
  refine h.of_kept fun q e' he' => Or.inl ?_
  by_cases hqx : q = x
  · rw [hqx, hr.gone] at he'
    cases he'
  · by_cases hqp : q = p
    · obtain ⟨e₀, he₀, hsame, -⟩ := hr.dir
      obtain rfl : e₀ = e' := by simpa [hqp, he₀] using he'
      exact ⟨ep, hqp ▸ hp, hsame⟩
    · rcases hr.rest q hqx hqp with ⟨-, hnone⟩ | ⟨e, e₀, he, he₀, hsame, -⟩
      · rw [hnone] at he'
        cases he'
      · obtain rfl : e₀ = e' := by simpa [he₀] using he'
        exact ⟨e, he, hsame⟩

/-- Another entry for one that is no directory. -/
theorem update (h : Unsized m) (x : Ptr) {e' : TmpfsEntry} (hfile : e'.isDir = false) :
    Unsized (Function.update m x (some e')) := by
  refine h.of_kept fun q e he => ?_
  rw [Function.update_apply] at he
  split_ifs at he
  · exact Or.inr (Or.inl (Option.some.inj he ▸ hfile))
  · exact Or.inl ⟨e, he, .refl e⟩

end Unsized

namespace Fs

variable {s r : Fs} {t t' : OrderedTree Ptr} {F : PathTree CString (List UInt8)}
  {path here : List CString} {d x : Ptr}

namespace Represents

/-! ## Lookups -/

/-- Any tree that the entries store will do. -/
theorem of_stored (h : Represents s t F) (ht : TreeStored s.entries t') : Represents s t' F := by
  obtain ⟨hroot, hkids⟩ := h.tree.unique ht
  have hback := ht.unique h.tree
  refine ⟨ht, ⟨fun d q hq => h.named.proper d q (hkids ▸ hq), fun d q q' hq hq' =>
    h.named.distinct d q q' (hkids ▸ hq) (hkids ▸ hq')⟩, fun path q hq => ?_, fun path hpath => ?_⟩
  · exact h.node path q (hq.of_kids hback.1 hback.2)
  · obtain ⟨q, hq⟩ := h.found path hpath
    exact ⟨q, hq.of_kids hroot hkids⟩

/-- The tree of paths is what the entries say that it is. -/
theorem at_ne_none (h : Represents s t F) (hd : s.At t path d) : F path ≠ none := by
  obtain ⟨n, hn, -⟩ := h.node path d hd
  simp [hn]

/-- The directory above a place. -/
theorem at_parent (hd : s.At t here d) :
    s.At t here.dropLast (if d = t.root then d else t.parent d) := by
  cases hd with
  | root =>
    rw [if_pos rfl]
    exact .root
  | @kid path₀ _ p _ hp hq hpath =>
    obtain ⟨-, -, hparent, hroot⟩ := t.kid_mem hq
    rw [if_neg hroot, hparent, hpath, List.dropLast_concat]
    exact hp

/-- **A lookup is a step of the tree of paths.** -/
theorem enter (h : Represents s t F) (hd : s.At t here d) (name : CString) :
    (∃ p, F.enter dotName dotDotName here name = some p ∧ s.At t p (findIn s.entries t d name)) ∨
      (F.enter dotName dotDotName here name = none ∧ findIn s.entries t d name = 0) := by
  obtain ⟨n, hn, hnode⟩ := h.node here d hd
  cases n with
  | file bytes =>
    obtain ⟨e, he, hh⟩ := hnode
    have hdir : e.isDir = false := isDir_of_isReg hh.isReg
    exact Or.inr ⟨by simp [PathTree.enter, hn], by simp [findIn, entries_eq_some.2 he, hdir]⟩
  | dir =>
    obtain ⟨e, he, hdir⟩ := hnode
    by_cases hdot : name = dotName
    · exact Or.inl ⟨here, by simp [PathTree.enter, hn, hdot],
        by simpa [findIn, he, hdir, hdot] using hd⟩
    by_cases hdots : name = dotDotName
    · have hne : dotDotName ≠ dotName := by decide
      exact Or.inl ⟨here.dropLast, by simp [PathTree.enter, hn, hdots, hne],
        by simpa [findIn, he, hdir, hdots, hne] using at_parent hd⟩
    have hfind : findIn s.entries t d name =
        ((t.kids d).find? fun q => nameOf s.entries q = name).getD 0 := by
      simp [findIn, he, hdir, hdot, hdots]
    cases hkid : (t.kids d).find? fun q => decide (nameOf s.entries q = name) with
    | some q =>
      have hname : nameOf s.entries q = name := by simpa using List.find?_some hkid
      have hat : s.At t (here ++ [name]) q :=
        .kid hd (List.mem_of_find?_eq_some hkid) (by rw [hname])
      refine Or.inl ⟨here ++ [name], ?_, by rwa [hfind, hkid]⟩
      simp [PathTree.enter, hn, hdot, hdots, Option.isSome_iff_ne_none.2 (h.at_ne_none hat)]
    | none =>
      refine Or.inr ⟨?_, by rw [hfind, hkid]; rfl⟩
      have hnone : F (here ++ [name]) = none := by
        by_contra hF
        obtain ⟨q, hq⟩ := h.found _ hF
        obtain ⟨p, hp, hmem, hname⟩ := OrderedTree.pathTo_snoc.1 hq
        obtain rfl := h.at_unique hp hd
        simpa [hname] using List.find?_eq_none.1 hkid q hmem
      simp [PathTree.enter, hn, hdot, hdots, hnone]

/-- **A walk of the entries is a walk of the tree of paths.** -/
theorem walk (h : Represents s t F) (hd : s.At t here d) (names : List CString) :
    (∃ p, F.walk dotName dotDotName here names = some p ∧
        s.At t p (walkTree s.entries t d names)) ∨
      (F.walk dotName dotDotName here names = none ∧ walkTree s.entries t d names = 0) := by
  induction names generalizing here d with
  | nil => exact Or.inl ⟨here, rfl, hd⟩
  | cons name names ih =>
    have hwalk : walkTree s.entries t d (name :: names) =
        walkTree s.entries t (findIn s.entries t d name) names := rfl
    rcases h.enter hd name with ⟨p, hp, hat⟩ | ⟨hnone, hzero⟩
    · have hstep : F.walk dotName dotDotName here (name :: names) =
          F.walk dotName dotDotName p names := by rw [PathTree.walk, hp, Option.bind_some]
      rw [hwalk, hstep]
      exact ih hat
    · right
      rw [hwalk, hzero, walkTree_zero h.tree.zero]
      exact ⟨by rw [PathTree.walk, hnone]; rfl, rfl⟩

/-- A directory with no children has nothing below it. -/
theorem childless_iff (h : Represents s t F) (hd : s.At t path d) :
    F.Childless path ↔ t.kids d = [] := by
  constructor
  · intro hnone
    rw [List.eq_nil_iff_forall_not_mem]
    intro q hq
    have hat : s.At t (path ++ [nameOf s.entries q]) q := .kid hd hq rfl
    exact h.at_ne_none hat (hnone _)
  · intro hkids name
    by_contra hF
    obtain ⟨q, hq⟩ := h.found _ hF
    obtain ⟨p, hp, hmem, -⟩ := OrderedTree.pathTo_snoc.1 hq
    obtain rfl := h.at_unique hp hd
    rw [hkids] at hmem
    exact absurd hmem List.not_mem_nil

/-! ## Removals -/

/-- **An entry less is a path less.** -/
theorem remove (h : Represents s t F) (hx : s.At t path x) {G : Prop} (hG : G) (hkeeps : Keeps s r)
    (hx0 : x ≠ 0) (hchange : TreeChange G s.entries r.entries t x 0 t') :
    Represents r t' (F.erase path) ∧ ∀ p q, s.At t p q → q ≠ x → r.At t' p q := by
  have hnames := h.named.change h.tree hchange hG
  have hstored := hchange.stored h.tree
  have hsub : ∀ q, t.Mem q → q ≠ x → nameOf r.entries q = nameOf s.entries q := fun q hq hne =>
    hchange.nameOf_eq ((h.tree.mem q).1 hq) hne
  cases hchange with
  | same => exact absurd rfl hx0
  | insert => exact absurd rfl hx0
  | @remove p _ l₁ l₂ ep ex hp hxe hkids hleaf hr hm =>
    -- the paths that are left are those that do not lead to the entry
    have hat : ∀ p q, r.At (t.removeLeaf x hr hleaf) p q ↔ s.At t p q ∧ q ≠ x := by
      intro p q
      unfold At
      rw [← OrderedTree.pathTo_removeLeaf hr hleaf]
      have hlabel : ∀ y, (t.removeLeaf x hr hleaf).Mem y →
          nameOf r.entries y = nameOf s.entries y := fun y hy => hsub y hy.2 hy.1
      exact ⟨fun hq => hq.congr fun y hy => (hlabel y hy).symm, fun hq => hq.congr hlabel⟩
    refine ⟨⟨hstored, hnames, fun p q hq => ?_, fun p hF => ?_⟩,
      fun p q hq hne => (hat p q).2 ⟨hq, hne⟩⟩
    · obtain ⟨hold, hne⟩ := (hat p q).1 hq
      obtain ⟨n, hn, hnode⟩ := h.node p q hold
      have hpath : p ≠ path := by
        rintro rfl
        exact hne (h.at_unique hold hx)
      refine ⟨n, by rw [PathTree.erase, Function.update_of_ne hpath, hn],
        hnode.kept (fun e he => ?_) fun a bytes ha => hkeeps.other _ _ ha (by simp)⟩
      have hchange : TreeChange G s.entries r.entries t x 0 (t.removeLeaf x hr hleaf) :=
        .remove hp hxe hkids hleaf hr hm
      exact hchange.kept he hne
    · rw [PathTree.erase, Function.update_apply] at hF
      split_ifs at hF with hpath
      · exact absurd rfl hF
      · obtain ⟨q, hq⟩ := h.found p hF
        refine ⟨q, (hat p q).2 ⟨hq, ?_⟩⟩
        rintro rfl
        exact hpath (hq.path_unique hx)

/-! ## Files -/

/-- Entries that stay the files they are, at the same places. -/
theorem kept (h : Represents s t F) (hplace : SamePlaces s.entries r.entries)
    (hfile : ∀ q e, s.entries q = some e → ∃ e', r.entries q = some e' ∧ SameFile e e')
    (hdata : ∀ p bytes, s.obj p = some (.data bytes) → r.obj p = some (.data bytes)) :
    Represents r t F ∧ ∀ p q, r.At t p q ↔ s.At t p q := by
  have hname : ∀ q, nameOf r.entries q = nameOf s.entries q := by
    intro q
    rcases hplace q with ⟨h1, h2⟩ | ⟨e, e', he, he', hsame⟩
    · simp [nameOf, h1, h2]
    · simp [nameOf, he, he', hsame.name]
  have hat : ∀ p q, r.At t p q ↔ s.At t p q := by
    intro p q
    unfold At
    rw [funext hname]
  refine ⟨⟨h.tree.congr hplace, h.named.congr hname, fun p q hq => ?_, fun p hF => ?_⟩, hat⟩
  · obtain ⟨n, hn, hnode⟩ := h.node p q ((hat p q).1 hq)
    exact ⟨n, hn, hnode.kept (fun e he => hfile q e he) hdata⟩
  · obtain ⟨q, hq⟩ := h.found p hF
    exact ⟨q, (hat p q).2 hq⟩

/-- **A write is a write to the file at the path**, wherever its data lay before. -/
theorem store (h : Represents s t F) (hfiles : FilesSound s) (hx : s.At t path x)
    {e e' : TmpfsEntry} (he : s.obj x = some (.entry e)) {data bytes old : List UInt8}
    (hrew : Rewrites s r x e e' data) (hcon : Content s e old) (hsame : SameLinks e e')
    (hholds : Holds r e' bytes) :
    Represents r t (F.putFile path bytes) ∧ ∀ p q, r.At t p q ↔ s.At t p q := by
  have hent := entries_eq_some.2 he
  have hentries : r.entries = Function.update s.entries x (some e') :=
    hrew.entries hcon.entries_eq
  have hplace : SamePlaces s.entries r.entries := by
    rw [hentries]
    exact samePlaces_update hent hsame
  have hname : ∀ q, nameOf r.entries q = nameOf s.entries q := by
    intro q
    by_cases hq : q = x
    · simp [nameOf, hentries, hq, hent, hsame.name]
    · simp [nameOf, hentries, hq]
  have hat : ∀ p q, r.At t p q ↔ s.At t p q := by
    intro p q
    unfold At
    rw [funext hname]
  refine ⟨⟨h.tree.congr hplace, h.named.congr hname, fun p q hq => ?_, fun p hF => ?_⟩, hat⟩
  · have hq := (hat p q).1 hq
    rw [PathTree.putFile, Function.update_apply]
    split_ifs with hpath
    · obtain rfl := h.at_unique hx (hpath ▸ hq)
      exact ⟨_, rfl, e', by rw [hrew.obj, Function.update_self], hholds⟩
    · have hqx : q ≠ x := by
        rintro rfl
        exact hpath (hq.path_unique hx)
      obtain ⟨n, hn, hnode⟩ := h.node p q hq
      refine ⟨n, hn, ?_⟩
      have hq' : ∀ {e₀}, s.entries q = some e₀ → r.entries q = some e₀ := fun h₀ => by
        rw [hentries, Function.update_of_ne hqx, h₀]
      cases n with
      | dir =>
        obtain ⟨e₀, he₀, hdir⟩ := hnode
        exact ⟨e₀, hq' he₀, hdir⟩
      | file bytes₀ =>
        obtain ⟨e₀, he₀, hh⟩ := hnode
        refine ⟨e₀, entries_eq_some.1 (hq' (entries_eq_some.2 he₀)), hh.congr fun b hb => ?_⟩
        -- the files have their data apart
        refine hrew.data_stays he hb fun heq => ?_
        rcases hfiles.apart q x e₀ e (entries_eq_some.2 he₀) hent heq with hzero | hqx'
        · exact ne_zero_of_obj hb hzero
        · exact hqx hqx'
  · rw [PathTree.putFile, Function.update_apply] at hF
    split_ifs at hF with hpath
    · exact ⟨x, (hat p x).2 (hpath ▸ hx)⟩
    · obtain ⟨q, hq⟩ := h.found p hF
      exact ⟨q, (hat p q).2 hq⟩

/-! ## Listings -/

variable {L : List CString → List CString}

/-- Entries that stay at their places are listed as before. -/
theorem lists_same (hl : t.Lists (nameOf s.entries) L) (hplace : SamePlaces s.entries r.entries) :
    t.Lists (nameOf r.entries) L := by
  refine hl.congr fun q _ => ?_
  rcases hplace q with ⟨h1, h2⟩ | ⟨e, e', he, he', hsame⟩
  · simp [nameOf, h1, h2]
  · simp [nameOf, he, he', hsame.name]

/-- **A new entry comes first in the list of its directory.** -/
theorem lists_make (h : Represents s t F) (hl : t.Lists (nameOf s.entries) L) (hd : s.At t path d)
    {e : TmpfsEntry} (he : s.entries d = some e) (hdir : e.isDir = true) (hx : s.entries x = none)
    {name : CString} {mode : Nat} (hfree : findIn s.entries t d name = 0)
    (hent : r.entries = insertEntry s.entries d x e name mode) (ht' : TreeStored r.entries t')
    (hstored : TreeStored r.entries (t.insertLeaf d x hd.mem (h.tree.not_mem hx))) :
    t'.Lists (nameOf r.entries) fun p =>
      if p = path then name :: L p else if p = path ++ [name] then [] else L p := by
  have hnew := h.tree.not_mem hx
  have hdx : d ≠ x := by
    rintro rfl
    exact hnew hd.mem
  have hname : nameOf r.entries x = name := by rw [hent, nameOf_insertEntry_new hdx]
  have hlabel : ∀ q, t.Mem q → nameOf r.entries q = nameOf s.entries q := by
    intro q hq
    rw [hent]
    refine nameOf_insertEntry he ?_
    rintro rfl
    exact hnew hq
  have hinj : ∀ p q q', q ∈ t.kids p → q' ∈ t.kids p →
      nameOf r.entries q = nameOf r.entries q' → q = q' := by
    intro p q q' hq hq' heq
    rw [hlabel q (t.kid_mem hq).2.1, hlabel q' (t.kid_mem hq').2.1] at heq
    exact h.named.distinct p q q' hq hq' heq
  have hnone : ∀ q, ¬t.PathTo (nameOf r.entries) (path ++ [nameOf r.entries x]) q := by
    intro q hq
    have hold : s.At t (path ++ [name]) q := by
      rw [hname] at hq
      exact hq.congr fun q hq => (hlabel q hq).symm
    obtain ⟨p, hp, hkid, heq⟩ := OrderedTree.pathTo_snoc.1 hold
    obtain rfl := h.at_unique hd hp
    exact (findIn_eq_zero h.tree he hdir hfree).2.2 q hkid heq
  have hlists := (hl.congr hlabel).insertLeaf hinj (hd.congr hlabel) hd.mem hnew hnone
  rw [hname] at hlists
  obtain ⟨hroot, hkids⟩ := hstored.unique ht'
  exact hlists.of_kids hroot hkids

/-- **An entry taken away leaves the list of its directory.** -/
theorem lists_remove (h : Represents s t F) (hl : t.Lists (nameOf s.entries) L)
    (hx : s.At t path x) {G : Prop} (hx0 : x ≠ 0)
    (hchange : TreeChange G s.entries r.entries t x 0 t') :
    t'.Lists (nameOf r.entries) fun p =>
      if p = path.dropLast then (L p).filter (· ≠ path.getLastD []) else L p := by
  have hsub : ∀ q, t.Mem q → q ≠ x → nameOf r.entries q = nameOf s.entries q := fun q hq hne =>
    hchange.nameOf_eq ((h.tree.mem q).1 hq) hne
  cases hchange with
  | same => exact absurd rfl hx0
  | insert => exact absurd rfl hx0
  | remove hp hxe hkids hleaf hr hm =>
    have hname : nameOf s.entries x = path.getLastD [] := by
      cases hx with
      | root => exact absurd rfl hr
      | kid _ _ hpath => rw [hpath, List.getLastD_concat]
    have hlists := hl.removeLeaf h.named.distinct hx hr hleaf
    rw [hname] at hlists
    exact hlists.congr fun q hq => hsub q hq.2 hq.1

end Represents

end Fs

end DelOs
