import DelOs.Fs.Refinement

/-!
# Blocks of other callers

The file system shares its heap with the rest of the kernel: a caller that allocates a block of its
own, or frees it, changes nothing of what the heap says of files.

* `SameRecords`, `Shows.sameRecords` — **what the heap shows does not depend on the other blocks**.
* `new_raw`, `Shows.kfree` — a caller takes a block, and returns it.
-/

namespace DelOs

open FirstFit PathTree

namespace Fs

variable {s r : Fs} {t : OrderedTree Ptr} {A : PathFs}

/-- The records are the same, whatever other blocks there are. -/
structure SameRecords (s r : Fs) : Prop where
  root : r.kvfsRootMountDir = s.kvfsRootMountDir
  cwd : r.kvfsCwd = s.kvfsCwd
  fds : r.fds = s.fds
  obj : ∀ q o, o ≠ .raw → (r.obj q = some o ↔ s.obj q = some o)

namespace SameRecords

theorem entries (h : SameRecords s r) : r.entries = s.entries :=
  entries_congr fun q e => h.obj q _ (by simp)

theorem node (h : SameRecords s r) {q : Ptr} {n : VfsNode} :
    r.obj q = some (.node n) ↔ s.obj q = some (.node n) :=
  h.obj q _ (by simp)

theorem desc (h : SameRecords s r) {q : Ptr} {d : FileDesc} :
    r.obj q = some (.desc d) ↔ s.obj q = some (.desc d) :=
  h.obj q _ (by simp)

theorem mounted (h : SameRecords s r) (hm : Mounted s t) : Mounted r t := by
  refine ⟨⟨by rw [h.entries]; exact hm.stands.tree, ?_⟩, ?_, fun p i hp => ?_,
    fun p i p' i' d d' hd hd' => ?_⟩
  · rw [h.root]
    exact h.node.2 hm.stands.root
  · obtain ⟨f, hf⟩ := hm.cwd
    exact ⟨f, by rw [h.cwd]; exact h.node.2 hf⟩
  · rw [h.fds] at hp ⊢
    obtain ⟨d, f, hd, hone, hf, hroot, hcwd⟩ := hm.desc p i hp
    exact ⟨d, f, h.desc.2 hd, hone, h.node.2 hf, by rwa [h.root], by rwa [h.cwd]⟩
  · rw [h.fds] at hd hd'
    exact hm.apart p i p' i' d d' (h.desc.1 hd) (h.desc.1 hd')

theorem usesLive (h : SameRecords s r) (hl : UsesLive s) : UsesLive r := by
  intro x hx
  rw [h.entries]
  rcases hx with hcwd | ⟨p, i, d, hd, hnode⟩
  · rw [h.cwd] at hcwd
    exact hl x (Or.inl (h.node.1 hcwd))
  · rw [h.fds] at hd
    exact hl x (Or.inr ⟨p, i, d, h.desc.1 hd, h.node.1 hnode⟩)

theorem filesSound (h : SameRecords s r) (hs : FilesSound s) : FilesSound r := by
  refine ⟨fun q e he => ?_, fun q q' e e' he he' => ?_⟩
  · rw [h.entries] at he
    obtain ⟨bytes, hzero | ⟨data, hdata, hrest⟩, hsize⟩ := hs.content q e he
    · exact ⟨bytes, Or.inl hzero, hsize⟩
    · exact ⟨bytes, Or.inr ⟨data, (h.obj _ _ (by simp)).2 hdata, hrest⟩, hsize⟩
  · rw [h.entries] at he he'
    exact hs.apart q q' e e' he he'

end SameRecords

/-- **What the heap shows does not depend on the other blocks.** -/
theorem Shows.sameRecords (h : Shows s t A) (hr : SameRecords s r) : Shows r t A := by
  have hat : ∀ {p x}, s.At t p x → r.At t p x := fun hx => by rwa [At, hr.entries]
  have hm : Mirrors r t A := h.toMirrors.congr hr.entries fun p bytes hp =>
    (hr.obj p _ (by simp)).2 hp
  refine ⟨⟨hm, ?_, h.cwdDir, fun p i hp => ?_, fun p i o ho => ?_, h.within, h.small⟩,
    ⟨hr.mounted h.use.mounted, hr.usesLive h.use.live, hr.filesSound h.use.files⟩⟩
  · obtain ⟨x, hx, hpx⟩ := h.cwd
    exact ⟨x, by rw [hr.cwd]; exact hr.node.2 hx, hat hpx⟩
  · rw [hr.fds]
    exact h.unused p i hp
  · obtain ⟨d, x, hd⟩ := h.opened p i o ho
    exact ⟨d, x, by rw [hr.fds]; exact hr.desc.2 hd.desc, hr.node.2 hd.node, hat hd.path,
      hd.offset, hd.flags⟩

/-- **A caller takes a block.** -/
theorem new_raw {size p : Ptr} (h0 : 0 < size) (hs : size ≤ 2 ^ 29) (hg : s.Granted)
    (hnew : s.new size .raw = (p, r)) :
    p ≠ 0 ∧ r.obj p = some .raw ∧ r.Granted ∧ SameRecords s r := by
  have halloc := new_alloc h0 hs hnew
  obtain ⟨hp, hdead, hobj⟩ := halloc.made.resolve_left fun hno => by
    rw [hg 0] at hno
    exact absurd hno.2.2 (by simp)
  refine ⟨hp, by rw [hobj, Function.update_self], halloc.frame.granted hg,
    halloc.frame.root, halloc.frame.cwd, halloc.frame.fds, fun q o ho => ?_⟩
  rw [hobj, Function.update_apply]
  split_ifs with hq
  · rw [hq, hdead]
    simp [Ne.symm ho]
  · rfl

/-- An `open` that keeps the working directory still does so beside other blocks. -/
theorem Shows.keepsCwd (h : Shows s t A) (hr : SameRecords s r) (hg : s.Granted) (hg' : r.Granted)
    {path : CString} {flags : Nat} (hk : s.KeepsCwd path flags) : r.KeepsCwd path flags := by
  obtain ⟨x, hx, hat⟩ := h.cwd
  obtain ⟨e, he⟩ := (h.rep.tree.mem x).1 hat.mem
  have htree : TreeStored r.entries t := by rw [hr.entries]; exact h.rep.tree
  have hx' : r.obj r.kvfsCwd = some (.node (newNode x)) := by rw [hr.cwd]; exact hr.node.2 hx
  have hopens : r.opensInCwd (lastName path) flags = s.opensInCwd (lastName path) flags := by
    rw [opensInCwd_eq h.rep.tree hx he, opensInCwd_eq htree hx' (by rw [hr.entries, he]),
      hr.entries, hg 0, hg 1, hg' 0, hg' 1]
  rcases hk with habs | hcwd | hlen | hopen
  · exact Or.inl habs
  · exact Or.inr (Or.inl (by rw [hr.cwd, hr.root, hcwd]))
  · exact Or.inr (Or.inr (Or.inl hlen))
  · exact Or.inr (Or.inr (Or.inr (hopens.trans hopen)))

/-- **A caller returns its block.** -/
theorem Shows.kfree (h : Shows s t A) {p : Ptr} (hp : s.obj p = some .raw) :
    Shows (s.kfree p) t A := by
  refine h.sameRecords ⟨rfl, rfl, rfl, fun q o ho => ?_⟩
  rw [obj_kfree, Function.update_apply]
  split_ifs with hq
  · rw [hq, hp]
    simp [Ne.symm ho]
  · rfl

end Fs

end DelOs
