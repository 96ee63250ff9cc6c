import DelOs.Lib.OrderedTree

/-!
# Listings of ordered trees

What each path of a labelled tree lists: the labels of the children of the node it leads to, in
their order.

* `OrderedTree.Lists` — a function from paths to lists of labels says so.
* `OrderedTree.Lists.insertLeaf`, `OrderedTree.Lists.removeLeaf` — **a new leaf comes first in the
  list of the path above it, a leaf taken away leaves it**.
-/

universe u v

variable {α : Type u} {β : Type v}

namespace OrderedTree

variable {t t' : OrderedTree α} {label label' : α → β} {L : List β → List β}

/-- Each path of the tree lists the labels of the children of its node. -/
def Lists (t : OrderedTree α) (label : α → β) (L : List β → List β) : Prop :=
  ∀ path q, t.PathTo label path q → L path = (t.kids q).map label

namespace Lists

/-- Listings depend on the labels of the nodes only. -/
theorem congr (h : t.Lists label L) (hlabel : ∀ q, t.Mem q → label' q = label q) :
    t.Lists label' L := by
  intro path q hq
  rw [h path q (hq.congr fun q hq => (hlabel q hq).symm)]
  exact List.map_congr_left fun x hx => (hlabel x (t.kid_mem hx).2.1).symm

/-- They depend on the root and the children. -/
theorem of_kids (h : t.Lists label L) (hroot : t'.root = t.root) (hkids : t'.kids = t.kids) :
    t'.Lists label L := by
  intro path q hq
  rw [hkids]
  exact h path q (hq.of_kids hroot.symm hkids.symm)

variable [DecidableEq α] [DecidableEq β]
  (hinj : ∀ p q q', q ∈ t.kids p → q' ∈ t.kids p → label q = label q' → q = q')
include hinj

/-- **A new leaf comes first.** -/
theorem insertLeaf (h : t.Lists label L) {path : List β} {d x : α} (hd : t.PathTo label path d)
    (hmem : t.Mem d) (hx : ¬t.Mem x) (hnone : ∀ q, ¬t.PathTo label (path ++ [label x]) q) :
    (t.insertLeaf d x hmem hx).Lists label fun p =>
      if p = path then label x :: L p else if p = path ++ [label x] then [] else L p := by
  intro p q hq
  have hkids : ∀ a, (t.insertLeaf d x hmem hx).kids a =
      if a = d then x :: t.kids d else t.kids a := fun a => Function.update_apply ..
  have hdx : x ≠ d := by
    rintro rfl
    exact hx hmem
  rw [hkids]
  dsimp only
  rcases (pathTo_insertLeaf hmem hx).1 hq with hold | ⟨rfl, p₀, hp₀, rfl⟩
  · by_cases hpath : p = path
    · subst hpath
      obtain rfl := hold.unique hinj hd
      rw [if_pos rfl, if_pos rfl, List.map_cons, h p q hold]
    · have hqd : q ≠ d := by
        rintro rfl
        exact hpath (hold.path_unique hd)
      have hne : p ≠ path ++ [label x] := by
        rintro rfl
        exact hnone q hold
      rw [if_neg hpath, if_neg hne, if_neg hqd, h p q hold]
  · obtain rfl := hp₀.path_unique hd
    rw [if_neg (by simp), if_pos rfl, if_neg hdx, t.kids_of_not_mem hx, List.map_nil]

/-- **A leaf taken away leaves its list.** -/
theorem removeLeaf (h : t.Lists label L) {path : List β} {x : α} (hx : t.PathTo label path x)
    (hr : x ≠ t.root) (hleaf : t.kids x = []) :
    (t.removeLeaf x hr hleaf).Lists label fun p =>
      if p = path.dropLast then (L p).filter (· ≠ label x) else L p := by
  intro p q hq
  have hkids : (t.removeLeaf x hr hleaf).kids q = (t.kids q).erase x := rfl
  obtain ⟨hold, -⟩ := (pathTo_removeLeaf hr hleaf).1 hq
  have hlist := h p q hold
  rw [hkids]
  dsimp only
  by_cases hpq : x ∈ t.kids q
  · have hpath : path = p ++ [label x] := hx.path_unique (.kid hold hpq rfl)
    rw [if_pos (by rw [hpath, List.dropLast_concat]), hlist]
    -- the other children have other labels
    rw [(t.nodup q).erase_eq_filter, List.filter_map]
    refine congrArg _ (List.filter_congr fun y hy => ?_)
    have hiff : label y = label x ↔ y = x := ⟨hinj q y x hy hpq, fun hyx => hyx ▸ rfl⟩
    simp [hiff, bne, Bool.beq_eq_decide_eq]
  · have hne : p ≠ path.dropLast := by
      rintro rfl
      cases hx with
      | root => exact hr rfl
      | @kid path₀ _ a _ ha hmem hpath =>
        rw [hpath, List.dropLast_concat] at hold
        obtain rfl := ha.unique hinj hold
        exact hpq hmem
    rw [if_neg hne, List.erase_of_not_mem hpq, hlist]

end Lists

end OrderedTree
