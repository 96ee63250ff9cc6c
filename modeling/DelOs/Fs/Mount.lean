import DelOs.Fs.PathCalls

/-!
# The state after the mount

`kfs_init` mounts a tmpfs at `"/"` and makes its root the working directory.

* `rootEntry` — the entry that `create_root_entry` makes.
* `ktmpfsMount_spec` — **a mount makes a root directory of its own**, and links it to nothing.
* `FreshMount.stands` — **a fresh mount stores the tree of a root alone**, and the root node is the
  working directory.
* `mountedRoot` — such a state.
-/

namespace DelOs

/-- The entry of the root, as `create_root_entry` makes it. -/
def rootEntry : TmpfsEntry := newEntry [slash] 0 0 (0o755 ||| KVFS_STAT_IFDIR)

namespace Fs

variable {s : Fs}

/-! ## One mount -/

/-- What a mount makes: the entry `f` of a root directory, and a node of it. -/
structure RootMade (s r : Fs) (loc : CString) (node f : Ptr) : Prop where
  keeps : Keeps s r
  live : r.obj node = some (.node (newNode f))
  node_fresh : s.obj node = none
  entry_fresh : s.obj f = none
  entries : r.entries = Function.update s.entries f
    (some (newEntry loc 0 0 (0o755 ||| KVFS_STAT_IFDIR)))

theorem RootMade.entry {r : Fs} {loc : CString} {node f : Ptr} (h : RootMade s r loc node f) :
    r.entries f = some (newEntry loc 0 0 (0o755 ||| KVFS_STAT_IFDIR)) := by
  rw [h.entries, Function.update_self]

theorem RootMade.entry_ne_zero {r : Fs} {loc : CString} {node f : Ptr}
    (h : RootMade s r loc node f) : f ≠ 0 :=
  ne_zero_of_obj (entries_eq_some.1 h.entry)

/-- **`ktmpfs_mount` makes a root directory of its own**, or nothing if the page layers refuse. -/
theorem ktmpfsMount_spec (s : Fs) (loc : CString) :
    ∃ node r, s.ktmpfsMount loc = (node, r) ∧
      ((node = 0 ∧ ¬ s.Granted) ∨ (node ≠ 0 ∧ ∃ f, RootMade s r loc node f)) := by
  rcases hroot : s.createRootEntry loc with ⟨f, s₁⟩
  have hsize : 0 < sizeofTmpfsEntry ∧ sizeofTmpfsEntry ≤ 2 ^ 29 := by decide
  have halloc : Alloc s s₁ f (.entry (newEntry loc 0 0 (0o755 ||| KVFS_STAT_IFDIR))) :=
    new_alloc hsize.1 hsize.2 hroot
  by_cases hf : f = 0
  · refine ⟨0, s₁, by simp [ktmpfsMount, hroot, hf], Or.inl ⟨rfl, fun hg => ?_⟩⟩
    rcases halloc.made with ⟨-, -, hno⟩ | ⟨hf', -⟩
    · rw [hg 0] at hno
      cases hno
    · exact hf' hf
  obtain ⟨-, hdead, hobj₁⟩ := halloc.made.resolve_left fun h => hf h.1
  rcases hnode : s₁.ktmpfsCreateVfsNode f with ⟨n, s₂⟩
  have halloc₂ := ktmpfsCreateVfsNode_spec (s := s₁) hf
  rw [hnode] at halloc₂
  by_cases hn : n = 0
  · refine ⟨0, s₂.kfree f, by simp [ktmpfsMount, hroot, hf, hnode, hn],
      Or.inl ⟨rfl, fun hg => ?_⟩⟩
    rcases halloc₂.made with ⟨-, -, hno⟩ | ⟨hn', -⟩
    · rw [halloc.frame.granted hg 0] at hno
      cases hno
    · exact hn' hn
  · obtain ⟨-, hdead₂, hobj₂⟩ := halloc₂.made.resolve_left fun h => hn h.1
    refine ⟨n, s₂, by simp [ktmpfsMount, hroot, hf, hnode, hn], Or.inr ⟨hn, f, ?_⟩⟩
    have hnf : n ≠ f := by
      rintro rfl
      rw [hobj₁, Function.update_self] at hdead₂
      cases hdead₂
    refine ⟨halloc.keeps.trans halloc₂.keeps, ?_, ?_, hdead, ?_⟩
    · rw [hobj₂, Function.update_self]
    · rwa [hobj₁, Function.update_of_ne hnf] at hdead₂
    · rw [entries_update hobj₂ (by simp [hdead₂]) (by simp), entries_update_entry hobj₁]

/-! ## The mount of the root -/

/-- What a fresh mount consists of. -/
structure Fresh (s : Fs) (f : Ptr) : Prop where
  stands : Stands s (OrderedTree.single f)
  cwd : s.kvfsCwd = s.kvfsRootMountDir
  fds : ∀ proc fd, s.fds proc fd = 0
  entries : s.entries = Function.update (fun _ => none) f (some rootEntry)

/-- **A fresh mount stores the tree of a root alone.** -/
theorem FreshMount.stands (h : FreshMount s) : ∃ f, Fresh s f := by
  obtain ⟨s₀, hraw, hfds, hmount⟩ := h
  have hnone : s₀.entries = fun _ => none := by
    funext q
    unfold Fs.entries
    cases hq : s₀.obj q with
    | none => rfl
    | some o => rw [hraw q o hq]
  obtain ⟨n, s₁, hroot, hmade⟩ := ktmpfsMount_spec s₀ [slash]
  simp only [kvfsMount, hroot] at hmount
  rcases hmade with ⟨hn, -⟩ | ⟨hn, f, hmade⟩
  · simp [hn] at hmount
  rw [if_neg hn] at hmount
  have hs := Option.some.inj hmount
  have hobj : s.obj = s₁.obj := by rw [← hs]; rfl
  have hent : s.entries = Function.update (fun _ => none) f (some rootEntry) := by
    rw [← hnone, show rootEntry = newEntry [slash] 0 0 (0o755 ||| KVFS_STAT_IFDIR) from rfl,
      ← hmade.entries]
    exact entries_congr fun q e => by rw [hobj]
  refine ⟨f, ⟨?_, ?_⟩, ?_, ?_, hent⟩
  · rw [hent]
    exact treeStored_single hmade.entry_ne_zero (by decide) (by decide) rfl rfl
  · rw [hobj, ← hs]
    exact hmade.live
  · rw [← hs]
  · intro proc fd
    rw [← hs]
    show s₁.fds proc fd = 0
    rw [hmade.keeps.frame.fds, hfds]

/-- The root file system on a heap that held nothing. -/
def mountedRoot : Fs where
  heap := [⟨4084, false, .node (newNode 1)⟩, ⟨4084, false, .entry rootEntry⟩]
  kvfsRootMountDir := 2
  kvfsCwd := 2
  fds := fun _ _ => 0
  pages := fun _ => true
  junk := fun _ => 0

theorem freshMount_mountedRoot : FreshMount mountedRoot := by
  refine ⟨⟨[], 0, 0, fun _ _ => 0, fun _ => true, fun _ => 0⟩, ?_, fun _ _ => rfl, rfl⟩
  intro p o h
  cases h

end Fs

end DelOs
