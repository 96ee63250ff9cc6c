import DelOs.Fs.PathCalls

/-!
# The names in a directory tree

`ktmpfs_create_entry` does not look at the names that are in the directory already: that they stay
distinct is up to the calls, which look a name up before they make it.

* `Proper` — a name that an entry other than the root may have.
* `WellNamed` — all names are proper, and distinct within a directory.
* `WellNamed.change` — **a call keeps that**, if the page layers did not refuse.
* `WellNamed.findIn_kid`, `findIn_proper` — then a lookup is the inverse of the names.
-/

namespace DelOs

/-- A name that an entry other than the root may have: it is not empty, a buffer has room for it,
and it is none of the two that a lookup answers without a look at the children. -/
structure Proper (name : CString) : Prop where
  nonempty : name ≠ []
  fits : FitsName name
  ne_dot : name ≠ dotName
  ne_dotDot : name ≠ dotDotName

/-- The names of the children of a directory are proper and distinct. -/
structure WellNamed (m : Entries) (t : OrderedTree Ptr) : Prop where
  proper : ∀ d q, q ∈ t.kids d → Proper (nameOf m q)
  distinct : ∀ d q q', q ∈ t.kids d → q' ∈ t.kids d → nameOf m q = nameOf m q' → q = q'

variable {m m' : Entries} {t t' : OrderedTree Ptr} {G : Prop} {gone fresh : Ptr}

/-- A root alone has no names to speak of. -/
theorem wellNamed_single (m : Entries) (r : Ptr) : WellNamed m (OrderedTree.single r) :=
  ⟨fun _ _ hq => absurd hq List.not_mem_nil, fun _ _ _ hq => absurd hq List.not_mem_nil⟩

/-- An entry that is not removed keeps its name. -/
theorem TreeChange.nameOf_eq (hc : TreeChange G m m' t gone fresh t') {q : Ptr}
    (hq : ∃ e, m q = some e) (hne : q ≠ gone) : nameOf m' q = nameOf m q := by
  obtain ⟨e, he⟩ := hq
  obtain ⟨e', he', hsame⟩ := hc.kept he hne
  simp [nameOf, he, he', hsame.name]

/-- **A call keeps the names proper and distinct.** -/
theorem WellNamed.change (h : WellNamed m t) (ht : TreeStored m t)
    (hc : TreeChange G m m' t gone fresh t') (hG : G) : WellNamed m' t' := by
  have hname := fun {q} => hc.nameOf_eq (q := q)
  have hentry : ∀ {d q}, q ∈ t.kids d → ∃ e, m q = some e := fun hq =>
    (ht.mem _).1 (t.kid_mem hq).2.1
  cases hc with
  | same hm => exact hm ▸ h
  | @insert d x e name mode hd hdir hx hx0 _ hmem hnew hvalid hfree hm =>
    obtain ⟨hdot, hdots, hother⟩ := Fs.findIn_eq_zero ht hd hdir (hfree hG)
    have hdx : fresh ≠ d := by
      rintro rfl
      exact hnew hmem
    have hx' : nameOf m' fresh = name := by rw [hm, nameOf_insertEntry_new hdx.symm]
    have hkid : ∀ {p q}, q ∈ t.kids p → nameOf m' q = nameOf m q := by
      intro p q hq
      refine hname (hentry hq) ?_
      rintro rfl
      obtain ⟨e₀, he₀⟩ := hentry hq
      rw [ht.zero] at he₀
      cases he₀
    have hcases : ∀ p q, q ∈ (t.insertLeaf d fresh hmem hnew).kids p →
        (q = fresh ∧ p = d) ∨ q ∈ t.kids p := by
      intro p q hq
      rw [show (t.insertLeaf d fresh hmem hnew).kids p =
        Function.update t.kids d (fresh :: t.kids d) p from rfl, Function.update_apply] at hq
      split_ifs at hq with hp
      · rcases List.mem_cons.1 hq with rfl | hq
        · exact Or.inl ⟨rfl, hp⟩
        · exact Or.inr (hp ▸ hq)
      · exact Or.inr hq
    refine ⟨fun p q hq => ?_, fun p q q' hq hq' heq => ?_⟩
    · rcases hcases p q hq with ⟨rfl, -⟩ | hq
      · rw [hx']
        exact ⟨hvalid.1, hvalid.2, hdot, hdots⟩
      · rw [hkid hq]
        exact h.proper p q hq
    · rcases hcases p q hq with ⟨rfl, rfl⟩ | hold
      · rcases hcases p q' hq' with ⟨rfl, -⟩ | hold'
        · rfl
        · rw [hx', hkid hold'] at heq
          exact absurd heq.symm (hother q' hold')
      · rcases hcases p q' hq' with ⟨rfl, rfl⟩ | hold'
        · rw [hx', hkid hold] at heq
          exact absurd heq (hother q hold)
        · rw [hkid hold, hkid hold'] at heq
          exact h.distinct p q q' hold hold' heq
  | @remove p x l₁ l₂ ep ex _ _ _ hleaf hr _ =>
    have hkid : ∀ d q, q ∈ (t.removeLeaf gone hr hleaf).kids d →
        q ∈ t.kids d ∧ nameOf m' q = nameOf m q := by
      intro d q hq
      obtain ⟨hne, hq⟩ := (List.Nodup.mem_erase_iff (t.nodup d)).1 hq
      exact ⟨hq, hname (hentry hq) hne⟩
    refine ⟨fun d q hq => ?_, fun d q q' hq hq' heq => ?_⟩
    · obtain ⟨hq, heq⟩ := hkid d q hq
      rw [heq]
      exact h.proper d q hq
    · obtain ⟨hq, hn⟩ := hkid d q hq
      obtain ⟨hq', hn'⟩ := hkid d q' hq'
      rw [hn, hn'] at heq
      exact h.distinct d q q' hq hq' heq

/-! ## Lookups -/

/-- What a lookup finds: the directory itself, the one above it, or a child of that name. -/
theorem findIn_cases {d : Ptr} {name : CString} (hne : findIn m t d name ≠ 0) :
    (name = dotName ∧ findIn m t d name = d) ∨
      (name = dotDotName ∧ findIn m t d name = if d = t.root then d else t.parent d) ∨
      (findIn m t d name ∈ t.kids d ∧ nameOf m (findIn m t d name) = name) := by
  have hdir : ¬((m d).map TmpfsEntry.isDir).getD false = false := fun h0 =>
    hne (by rw [findIn, if_pos h0])
  by_cases hdot : name = dotName
  · exact Or.inl ⟨hdot, by rw [findIn, if_neg hdir, if_pos hdot]⟩
  by_cases hdotDot : name = dotDotName
  · exact Or.inr (Or.inl ⟨hdotDot, by rw [findIn, if_neg hdir, if_neg hdot, if_pos hdotDot]⟩)
  have hkids : findIn m t d name = ((t.kids d).find? fun q => nameOf m q = name).getD 0 := by
    rw [findIn, if_neg hdir, if_neg hdot, if_neg hdotDot]
  rw [hkids] at hne ⊢
  refine Or.inr (Or.inr ?_)
  cases hf : (t.kids d).find? fun q => decide (nameOf m q = name) with
  | none => exact absurd (by rw [hf, Option.getD_none]) hne
  | some q =>
    rw [Option.getD_some]
    exact ⟨List.mem_of_find?_eq_some hf, by simpa using List.find?_some hf⟩

/-- A proper name that is found is that of a child. -/
theorem findIn_proper {d : Ptr} {name : CString} (hname : Proper name)
    (hne : findIn m t d name ≠ 0) :
    findIn m t d name ∈ t.kids d ∧ nameOf m (findIn m t d name) = name := by
  rcases findIn_cases hne with ⟨hdot, -⟩ | ⟨hdotDot, -⟩ | hkid
  · exact absurd hdot hname.ne_dot
  · exact absurd hdotDot hname.ne_dotDot
  · exact hkid

/-- A child is found under its name. -/
theorem WellNamed.findIn_kid (h : WellNamed m t) (ht : TreeStored m t) {d q : Ptr}
    (hq : q ∈ t.kids d) : findIn m t d (nameOf m q) = q := by
  have hname := h.proper d q hq
  obtain ⟨e, he⟩ := (ht.mem d).1 (t.kid_mem hq).1
  have hdir := ht.isDir_of_kid he hq
  have hne : findIn m t d (nameOf m q) ≠ 0 := by
    intro h0
    exact (Fs.findIn_eq_zero ht he hdir h0).2.2 q hq rfl
  obtain ⟨hmem, heq⟩ := findIn_proper hname hne
  exact h.distinct d _ _ hmem hq heq

end DelOs
