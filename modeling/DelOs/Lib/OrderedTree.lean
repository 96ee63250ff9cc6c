import Mathlib.Tactic

/-!
# Ordered trees over a set of nodes

A finite or infinite tree whose nodes are values of a type, each with the ordered list of its
children: the shape of a directory tree.  A value of `OrderedTree` is a tree by construction:
every node but the root is the child of exactly one node, and is reached from the root.

* `OrderedTree.single` — a root alone.
* `OrderedTree.insertLeaf` — a new leaf, at the head of the children of a node.
* `OrderedTree.removeLeaf` — a leaf taken away.
* `OrderedTree.PathTo` — the nodes as the ends of paths, for nodes that carry labels; the paths of
  a tree with a new leaf are `OrderedTree.pathTo_insertLeaf`, those of a tree without a leaf
  `OrderedTree.pathTo_removeLeaf`.
-/

universe u v

variable {α : Type u}

/-- The nodes reached from the root along `kids`. -/
inductive Below (root : α) (kids : α → List α) : α → Prop
  | root : Below root kids root
  | kid {p q : α} : Below root kids p → q ∈ kids p → Below root kids q

/-- An ordered tree. -/
structure OrderedTree (α : Type u) where
  root : α
  Mem : α → Prop
  parent : α → α
  kids : α → List α
  root_mem : Mem root
  kid_mem : ∀ {p q}, q ∈ kids p → Mem p ∧ Mem q ∧ parent q = p ∧ q ≠ root
  listed : ∀ {q}, Mem q → q ≠ root → q ∈ kids (parent q)
  nodup : ∀ p, (kids p).Nodup
  below : ∀ {q}, Mem q → Below root kids q

namespace OrderedTree

/-- A root alone. -/
def single (r : α) : OrderedTree α where
  root := r
  Mem q := q = r
  parent _ := r
  kids _ := []
  root_mem := rfl
  kid_mem h := absurd h List.not_mem_nil
  listed h hne := absurd h hne
  nodup _ := List.nodup_nil
  below h := h ▸ Below.root

variable (t : OrderedTree α)

theorem kids_of_not_mem {p : α} (h : ¬ t.Mem p) : t.kids p = [] := by
  rw [List.eq_nil_iff_forall_not_mem]
  intro q hq
  exact h (t.kid_mem hq).1

theorem parent_mem {q : α} (hq : t.Mem q) (hr : q ≠ t.root) : t.Mem (t.parent q) :=
  (t.kid_mem (t.listed hq hr)).1

/-- A node is not its own child: the nodes reached from the root without it would be closed
under taking children. -/
theorem not_mem_kids_self (q : α) : q ∉ t.kids q := by
  intro hq
  obtain ⟨hmem, -, hparent, hne⟩ := t.kid_mem hq
  have key : ∀ x, Below t.root t.kids x → x ≠ q := by
    intro x hx
    induction hx with
    | root => exact hne.symm
    | kid _ hkid ih =>
      rintro rfl
      exact ih ((t.kid_mem hkid).2.2.1.symm.trans hparent)
  exact key q (t.below hmem) rfl

variable [DecidableEq α]

/-- A new leaf `x`, at the head of the children of `p`. -/
def insertLeaf (p x : α) (hp : t.Mem p) (hx : ¬ t.Mem x) : OrderedTree α where
  root := t.root
  Mem q := q = x ∨ t.Mem q
  parent := Function.update t.parent x p
  kids := Function.update t.kids p (x :: t.kids p)
  root_mem := Or.inr t.root_mem
  kid_mem := by
    intro a b hb
    have hne : p ≠ x := by
      rintro rfl
      exact hx hp
    rw [Function.update_apply] at hb
    split_ifs at hb with ha
    · subst ha
      rcases List.mem_cons.1 hb with rfl | hb
      · refine ⟨Or.inr hp, Or.inl rfl, by simp, ?_⟩
        rintro rfl
        exact hx t.root_mem
      · obtain ⟨h1, h2, h3, h4⟩ := t.kid_mem hb
        have hbx : b ≠ x := by
          rintro rfl
          exact hx h2
        exact ⟨Or.inr h1, Or.inr h2, by rw [Function.update_of_ne hbx, h3], h4⟩
    · obtain ⟨h1, h2, h3, h4⟩ := t.kid_mem hb
      have hbx : b ≠ x := by
        rintro rfl
        exact hx h2
      exact ⟨Or.inr h1, Or.inr h2, by rw [Function.update_of_ne hbx, h3], h4⟩
  listed := by
    rintro q (rfl | hq) hr
    · simp
    · have hqx : q ≠ x := by
        rintro rfl
        exact hx hq
      have hlisted := t.listed hq hr
      rw [Function.update_of_ne hqx, Function.update_apply]
      split_ifs with hqp
      · exact List.mem_cons_of_mem x (hqp ▸ hlisted)
      · exact hlisted
  nodup := by
    intro a
    rw [Function.update_apply]
    split_ifs with ha
    · refine List.nodup_cons.2 ⟨fun hmem => hx (t.kid_mem hmem).2.1, t.nodup p⟩
    · exact t.nodup a
  below := by
    have hmono : ∀ {q}, Below t.root t.kids q →
        Below t.root (Function.update t.kids p (x :: t.kids p)) q := by
      intro q hq
      induction hq with
      | root => exact Below.root
      | @kid a b _ hb ih =>
        refine Below.kid ih ?_
        rw [Function.update_apply]
        split_ifs with ha
        · exact List.mem_cons_of_mem x (ha ▸ hb)
        · exact hb
    rintro q (rfl | hq)
    · exact Below.kid (hmono (t.below hp)) (by simp)
    · exact hmono (t.below hq)

/-- The tree without the leaf `x`. -/
def removeLeaf (x : α) (hr : x ≠ t.root) (hleaf : t.kids x = []) : OrderedTree α where
  root := t.root
  Mem q := q ≠ x ∧ t.Mem q
  parent := t.parent
  kids p := (t.kids p).erase x
  root_mem := ⟨hr.symm, t.root_mem⟩
  kid_mem := by
    intro a b hb
    obtain ⟨hbx, hb⟩ := (List.Nodup.mem_erase_iff (t.nodup a)).1 hb
    obtain ⟨h1, h2, h3, h4⟩ := t.kid_mem hb
    refine ⟨⟨?_, h1⟩, ⟨hbx, h2⟩, h3, h4⟩
    rintro rfl
    rw [hleaf] at hb
    exact absurd hb List.not_mem_nil
  listed := by
    rintro q ⟨hqx, hq⟩ hroot
    exact (List.Nodup.mem_erase_iff (t.nodup _)).2 ⟨hqx, t.listed hq hroot⟩
  nodup p := (t.nodup p).erase x
  below := by
    -- nothing lies below a leaf
    have hkeep : ∀ {q}, Below t.root t.kids q → q ≠ x →
        Below t.root (fun p => (t.kids p).erase x) q := by
      intro q hq
      induction hq with
      | root => exact fun _ => Below.root
      | @kid a b _ hb ih =>
        intro hbx
        refine Below.kid (ih ?_) ((List.Nodup.mem_erase_iff (t.nodup a)).2 ⟨hbx, hb⟩)
        rintro rfl
        rw [hleaf] at hb
        exact absurd hb List.not_mem_nil
    rintro q ⟨hqx, hq⟩
    exact hkeep (t.below hq) hqx

/-! ## Paths -/

variable {β : Type v} {t} {label label' : α → β}

/-- The labels on the way from the root to the node `q` are `path`. -/
inductive PathTo (t : OrderedTree α) (label : α → β) : List β → α → Prop
  | root : PathTo t label [] t.root
  | kid {path path' : List β} {p q : α} : PathTo t label path p → q ∈ t.kids p →
      path' = path ++ [label q] → PathTo t label path' q

omit [DecidableEq α]

theorem PathTo.mem {path : List β} {q : α} (h : t.PathTo label path q) : t.Mem q := by
  cases h with
  | root => exact t.root_mem
  | kid _ hq _ => exact (t.kid_mem hq).2.1

/-- Every node is at the end of a path. -/
theorem exists_pathTo (label : α → β) {q : α} (hq : t.Mem q) : ∃ path, t.PathTo label path q := by
  have hbelow := t.below hq
  induction hbelow with
  | root => exact ⟨[], .root⟩
  | @kid p q _ hkid ih =>
    obtain ⟨path, hpath⟩ := ih (t.kid_mem hkid).1
    exact ⟨path ++ [label q], .kid hpath hkid rfl⟩

theorem pathTo_nil {q : α} : t.PathTo label [] q ↔ q = t.root := by
  constructor
  · intro h
    cases h with
    | root => rfl
    | kid _ _ hpath => simp at hpath
  · rintro rfl
    exact .root

theorem pathTo_snoc {path : List β} {b : β} {q : α} :
    t.PathTo label (path ++ [b]) q ↔ ∃ p, t.PathTo label path p ∧ q ∈ t.kids p ∧ label q = b := by
  constructor
  · intro h
    generalize hl : path ++ [b] = l at h
    cases h with
    | root => simp at hl
    | @kid path₀ _ p _ hp hq hpath =>
      obtain ⟨rfl, hb⟩ := List.append_inj' (hl.trans hpath) rfl
      exact ⟨p, hp, hq, (by simpa using hb.symm)⟩
  · rintro ⟨p, hp, hq, rfl⟩
    exact .kid hp hq rfl

/-- Paths depend on the labels of the nodes only. -/
theorem PathTo.congr (hlabel : ∀ q, t.Mem q → label' q = label q) {path : List β} {q : α}
    (h : t.PathTo label path q) : t.PathTo label' path q := by
  induction h with
  | root => exact .root
  | @kid path path' p q _ hq hpath ih =>
    exact .kid ih hq (by rw [hpath, hlabel q (t.kid_mem hq).2.1])

/-- A node is at the end of one path. -/
theorem PathTo.path_unique {path path' : List β} {q : α} (h : t.PathTo label path q)
    (h' : t.PathTo label path' q) : path = path' := by
  induction h generalizing path' with
  | root =>
    cases h' with
    | root => rfl
    | kid _ hq _ => exact absurd rfl (t.kid_mem hq).2.2.2
  | @kid path₀ path₁ p q _ hq hpath ih =>
    obtain ⟨-, -, hparent, hroot⟩ := t.kid_mem hq
    cases h' with
    | root => exact absurd rfl hroot
    | @kid path₂ _ p' _ hp' hq' hpath' =>
      obtain rfl : p = p' := hparent.symm.trans (t.kid_mem hq').2.2.1
      rw [hpath, hpath', ih hp']

/-- Where siblings have different labels, a path leads to one node. -/
theorem PathTo.unique (hinj : ∀ p q q', q ∈ t.kids p → q' ∈ t.kids p → label q = label q' → q = q')
    {path : List β} {q q' : α} (h : t.PathTo label path q) (h' : t.PathTo label path q') :
    q = q' := by
  induction h generalizing q' with
  | root => exact (pathTo_nil.1 h').symm
  | @kid path₀ path₁ p q _ hq hpath ih =>
    subst hpath
    obtain ⟨p', hp', hq', hlabel⟩ := pathTo_snoc.1 h'
    obtain rfl := ih hp'
    exact hinj p q q' hq hq' hlabel.symm

/-- The paths of a tree with a new leaf: those of the tree, and the one to the leaf. -/
theorem pathTo_insertLeaf [DecidableEq α] {d x : α} (hd : t.Mem d) (hx : ¬ t.Mem x)
    {path : List β} {q : α} :
    (t.insertLeaf d x hd hx).PathTo label path q ↔
      t.PathTo label path q ∨ (q = x ∧ ∃ p, t.PathTo label p d ∧ path = p ++ [label x]) := by
  have hkids : ∀ p, (t.insertLeaf d x hd hx).kids p = Function.update t.kids d (x :: t.kids d) p :=
    fun _ => rfl
  have hold : ∀ {path q}, t.PathTo label path q →
      (t.insertLeaf d x hd hx).PathTo label path q := by
    intro path q h
    induction h with
    | root => exact .root
    | @kid path path' p q _ hq hpath ih =>
      refine .kid ih ?_ hpath
      rw [hkids, Function.update_apply]
      split_ifs with hp
      · exact List.mem_cons_of_mem x (hp ▸ hq)
      · exact hq
  constructor
  · intro h
    induction h with
    | root => exact Or.inl .root
    | @kid path path' p q _ hq hpath ih =>
      rw [hkids, Function.update_apply] at hq
      have hpx : p ≠ x := by
        rintro rfl
        have hpd : p ≠ d := fun h => hx (h ▸ hd)
        rw [if_neg hpd, t.kids_of_not_mem hx] at hq
        exact absurd hq List.not_mem_nil
      have hpold := ih.resolve_right fun h => hpx h.1
      split_ifs at hq with hp
      · subst hp
        rcases List.mem_cons.1 hq with rfl | hq
        · exact Or.inr ⟨rfl, path, hpold, hpath⟩
        · exact Or.inl (.kid hpold hq hpath)
      · exact Or.inl (.kid hpold hq hpath)
  · rintro (h | ⟨rfl, p, hp, rfl⟩)
    · exact hold h
    · refine .kid (hold hp) ?_ rfl
      rw [hkids, Function.update_self]
      exact List.mem_cons_self

/-- The paths of a tree without a leaf: those that do not lead to it. -/
theorem pathTo_removeLeaf [DecidableEq α] {x : α} (hr : x ≠ t.root) (hleaf : t.kids x = [])
    {path : List β} {q : α} :
    (t.removeLeaf x hr hleaf).PathTo label path q ↔ t.PathTo label path q ∧ q ≠ x := by
  have hkids : ∀ p, (t.removeLeaf x hr hleaf).kids p = (t.kids p).erase x := fun _ => rfl
  constructor
  · intro h
    induction h with
    | root => exact ⟨.root, hr.symm⟩
    | @kid path path' p q _ hq hpath ih =>
      rw [hkids] at hq
      obtain ⟨hqx, hq⟩ := (List.Nodup.mem_erase_iff (t.nodup p)).1 hq
      exact ⟨.kid ih.1 hq hpath, hqx⟩
  · rintro ⟨h, hqx⟩
    induction h with
    | root => exact .root
    | @kid path path' p q _ hq hpath ih =>
      have hpx : p ≠ x := by
        rintro rfl
        rw [hleaf] at hq
        exact absurd hq List.not_mem_nil
      refine .kid (ih hpx) ?_ hpath
      rw [hkids]
      exact (List.Nodup.mem_erase_iff (t.nodup p)).2 ⟨hqx, hq⟩

/-- Trees with one root and the same children have the same paths. -/
theorem PathTo.of_kids {t' : OrderedTree α} (hroot : t'.root = t.root) (hkids : t'.kids = t.kids)
    {path : List β} {q : α} (h : t.PathTo label path q) : t'.PathTo label path q := by
  induction h with
  | root => exact hroot ▸ .root
  | kid _ hq hpath ih => exact .kid ih (hkids ▸ hq) hpath

end OrderedTree
