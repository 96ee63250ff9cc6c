import DelOs.Fs.Mount
import DelOs.Fs.Names

/-!
# Mounts at a location

`kvfs_mount` and `ktmpfs_mount` take the location of a mount, and use it as the name of the new
root directory.  `kvfs_mount` makes the new root *the* root; `ktmpfs_mount` links it to nothing.

* `Fs.kvfsMountAt`, `Fs.ktmpfsMountAt` — the two functions, at any location.
* `Fs.resolved` — the entry that a path stands for.
* `StandsIn` — the tree that paths resolve in, among other entries.
* `ktmpfsMount_resolved` — **what `ktmpfs_mount` makes is found under no path**, and neither is what
  is created there.
* `kvfsMountAt_root` — **`kvfs_mount` moves the root**, to the new directory or to `NULL`.
* `mount_never_attaches` — so neither attaches a tree at its location.
-/

namespace DelOs

/-- `"tmpfs"` -/
def tmpfsName : CString := [0x74, 0x6d, 0x70, 0x66, 0x73]

/-- `"/dev"` -/
def devPath : CString := [0x2f, 0x64, 0x65, 0x76]

namespace Fs

/-! ## The two functions -/

/-- `ktmpfs_mount`; `none` for a location that overruns the name buffer of the root entry. -/
def ktmpfsMountAt (s : Fs) (loc : CString) : Option (Ptr × Fs) :=
  if FitsName loc then some (s.ktmpfsMount loc) else none

/-- `kvfs_mount`; the registry has the tmpfs and no other file system. -/
def kvfsMountAt (s : Fs) (fsName loc : CString) : Option (Ptr × Fs) := do
  if fsName ≠ tmpfsName then return (0, s)
  let (root, s) ← s.ktmpfsMountAt loc
  return (root, { s with kvfsRootMountDir := root })

/-- The mount of the root is one of these, and then the working directory is set. -/
theorem kvfsMount_eq (s : Fs) :
    s.kvfsMount = (s.kvfsMountAt tmpfsName [slash]).bind fun (root, s) =>
      if root = 0 then none else some { s with kvfsCwd := root } := by
  have hfits : FitsName [slash] := by decide
  simp [kvfsMount, kvfsMountAt, ktmpfsMountAt, hfits]

/-! ## Resolving -/

/-- The entry that the path stands for: that of the node which `kvfs_lookup_open` returns when
there is memory for nodes, `0` if it returns none. -/
def resolved (s : Fs) (path : CString) : Option Ptr := do
  let (node, r) ← kvfsLookupOpen { s with pages := fun _ => true } path
  if node = 0 then return 0
  let n ← r.nodeAt node
  return n.priv

/-- The entries `m` store the tree in which absolute paths are resolved.  There may be others. -/
structure StandsIn (s : Fs) (m : Entries) (t : OrderedTree Ptr) : Prop where
  tree : TreeStored m t
  part : s.Includes m
  root : s.obj s.kvfsRootMountDir = some (.node (newNode t.root))

variable {s r r' : Fs} {m : Entries} {t : OrderedTree Ptr} {loc : CString} {node f : Ptr}

theorem Stands.standsIn (h : Stands s t) : StandsIn s s.entries t :=
  ⟨h.tree, s.includes_entries, h.root⟩

/-- The root of the tree is an entry. -/
theorem StandsIn.root_entry (h : StandsIn s m t) : ∃ e, m t.root = some e :=
  (h.tree.mem _).1 t.root_mem

/-- The table of an absolute path is not empty. -/
theorem kvfsSplitPath_ne_nil {path : CString} (h : kvfsIsAbsolutePath path = true) :
    kvfsSplitPath path ≠ [] := by
  rw [kvfsSplitPath_eq, if_pos h]
  exact List.cons_ne_nil _ _

/-- **An absolute path stands for the entry that the names lead to in the tree of the root**,
whatever else is in use. -/
theorem StandsIn.resolved (h : StandsIn s m t) {path : CString}
    (habs : kvfsIsAbsolutePath path = true) :
    s.resolved path = some (walkTree m t t.root (pathNames path)) := by
  have hroot : s.obj s.kvfsRootMountDir ≠ none := by simp [h.root]
  have hstart : ({ s with pages := fun _ => true } : Fs).startNode path = s.kvfsRootMountDir := by
    simp [startNode, habs]
  obtain ⟨q, r, hlook, hopen, -, -, hnull⟩ :=
    kvfsLookupOpen_part (s := { s with pages := fun _ => true }) h.tree h.part hroot
      (show Fs.obj _ (Fs.startNode _ path) = _ by rw [hstart]; exact h.root) h.root_entry
  simp only [Fs.resolved, hlook, Option.bind_eq_bind, Option.bind_some, Option.pure_def]
  by_cases hq : q = 0
  · rw [if_pos hq]
    by_contra hne
    refine hnull hq (kvfsSplitPath_ne_nil habs) (fun h0 => hne ?_) fun _ => rfl
    rw [h0]
  · obtain ⟨hnode, -⟩ := hopen.node hq
    rw [if_neg hq, nodeAt_of_obj hnode]
    rfl

/-- Resolving depends on the tree of the root alone. -/
theorem StandsIn.resolved_congr (h : StandsIn s m t) (h' : StandsIn r m t) {path : CString}
    (habs : kvfsIsAbsolutePath path = true) : r.resolved path = s.resolved path := by
  rw [h.resolved habs, h'.resolved habs]

/-! ## A mount of `ktmpfs_mount` -/

theorem isDir_newRoot (loc : CString) :
    (newEntry loc 0 0 (0o755 ||| KVFS_STAT_IFDIR)).isDir = true := by
  show kvfsStatIsDir (kvfsStatCreate (0o755 ||| KVFS_STAT_IFDIR)).mode = true
  decide

/-- A mount leaves the tree of the root where it is. -/
theorem RootMade.standsIn (h : RootMade s r loc node f) (hs : StandsIn s m t) :
    StandsIn r m t := by
  refine ⟨hs.tree, fun q e hq => ?_, ?_⟩
  · have hold := hs.part q e hq
    rw [h.entries, Function.update_of_ne, hold]
    rintro rfl
    rw [entries_eq_some, h.entry_fresh] at hold
    cases hold
  · rw [h.keeps.frame.root]
    exact h.keeps.other _ _ hs.root (by simp)

/-- Creating a file in a directory that is not in the tree of the root leaves that tree where it
is. -/
theorem Made.standsIn {x : Ptr} {e : TmpfsEntry} {name : CString} {mode : Nat}
    (h : Made s r x (insertEntry s.entries f x e name mode)) (hs : StandsIn s m t)
    (hf : m f = none) : StandsIn r m t := by
  refine ⟨hs.tree, fun q e' hq => ?_, ?_⟩
  · have hold := hs.part q e' hq
    rcases h.made with ⟨-, hent, -⟩ | ⟨-, hdead, hent⟩
    · rw [hent, hold]
    · have hqf : q ≠ f := by
        rintro rfl
        rw [hf] at hq
        cases hq
      have hqx : q ≠ x := by
        rintro rfl
        rw [entries_eq_some, hdead] at hold
        cases hold
      rw [hent, insertEntry_of_ne hqf hqx, hold]
  · rw [h.keeps.frame.root]
    exact h.keeps.other _ _ hs.root (by simp)

/-- **What `ktmpfs_mount` makes is found under no path**: neither the mount nor a file created
through the node that it returns changes what any absolute path stands for. -/
theorem ktmpfsMount_resolved (h : RootMade s r loc node f) (hs : StandsIn s m t) {name : CString}
    {mode : Nat} {created : Bool} (hcreate : r.kvfsCreate node name mode = some (created, r'))
    {path : CString} (habs : kvfsIsAbsolutePath path = true) :
    r.resolved path = s.resolved path ∧ r'.resolved path = s.resolved path := by
  have hf : m f = none := by
    cases hm : m f with
    | none => rfl
    | some e =>
      have hold := entries_eq_some.1 (hs.part f e hm)
      rw [h.entry_fresh] at hold
      cases hold
  obtain ⟨x, r₁, hmk, hmade⟩ := kvfsCreate_spec h.live h.entry (isDir_newRoot loc) name mode
  obtain ⟨-, rfl⟩ : _ ∧ r₁ = r' := by simpa [hmk] using hcreate
  have hr := h.standsIn hs
  exact ⟨hs.resolved_congr hr habs, hs.resolved_congr (hmade.standsIn hr hf) habs⟩

/-! ## A mount of `kvfs_mount` -/

/-- **`kvfs_mount` moves the root**: to the new directory, or to `NULL` if there is none. -/
theorem kvfsMountAt_root (hloc : FitsName loc) :
    ∃ node r, s.kvfsMountAt tmpfsName loc = some (node, r) ∧ r.kvfsRootMountDir = node ∧
      (node ≠ 0 → ∃ f, s.obj f = none ∧ r.resolved [slash] = some f) := by
  obtain ⟨node, r, hmount, hmade⟩ := ktmpfsMount_spec s loc
  refine ⟨node, { r with kvfsRootMountDir := node }, by
    simp [kvfsMountAt, ktmpfsMountAt, hloc, hmount], rfl, fun hne => ?_⟩
  obtain ⟨f, hmade⟩ := (hmade.resolve_left fun h => hne h.1).2
  refine ⟨f, hmade.entry_fresh, ?_⟩
  -- the new root alone is the tree that absolute paths are resolved in from now on
  have hstands : StandsIn { r with kvfsRootMountDir := node }
      (Function.update (fun _ => none) f
        (some (newEntry loc 0 0 (0o755 ||| KVFS_STAT_IFDIR)))) (OrderedTree.single f) := by
    refine ⟨treeStored_single hmade.entry_ne_zero (isDir_newRoot loc) rfl rfl rfl,
      fun q e hq => ?_, hmade.live⟩
    rw [Function.update_apply] at hq
    split_ifs at hq with hqf
    rw [hqf, ← hq]
    exact hmade.entry
  exact hstands.resolved rfl

/-! ## Attaching -/

/-- The tree of the new root directory `node` is attached at its location: other paths stand for
what they stood for, and a file created in the new directory is found behind the location. -/
structure Attached (s r : Fs) (loc : CString) (node : Ptr) : Prop where
  other : ∀ path, kvfsIsAbsolutePath path = true → ¬ components loc <+: components path →
    r.resolved path = s.resolved path
  file : ∀ name mode r' x, Proper name → slash ∉ name →
    r.kvfsCreate node name mode = some (true, r') → r.entries x = none → r'.entries x ≠ none →
      r'.resolved (loc ++ slash :: name) = some x

/-- The two functions attach a tree at the location, or leave the root as it was. -/
structure MountAttaches (s : Fs) (loc : CString) : Prop where
  kvfsMount : ∃ node r, s.kvfsMountAt tmpfsName loc = some (node, r) ∧
    (node ≠ 0 → Attached s r loc node) ∧
    (node = 0 → r.kvfsRootMountDir = s.kvfsRootMountDir)
  ktmpfsMount : ∃ node r, s.ktmpfsMountAt loc = some (node, r) ∧
    (node ≠ 0 → Attached s r loc node)

/-- A mount of `kvfs_mount` changes what `"/"` stands for, and one that fails leaves no root. -/
theorem StandsIn.not_kvfsMount_attaches (hs : StandsIn s m t) (hloc : components loc ≠ []) :
    ¬ MountAttaches s loc := by
  intro h
  obtain ⟨node, r, hmount, hother, hfail⟩ := h.kvfsMount
  have hfits : FitsName loc := by
    by_contra hno
    simp [kvfsMountAt, ktmpfsMountAt, hno] at hmount
  obtain ⟨node', r', hmount', hroot, hnew⟩ := kvfsMountAt_root (s := s) hfits
  obtain ⟨rfl, rfl⟩ : node' = node ∧ r' = r := by simpa [hmount] using hmount'.symm
  by_cases hne : node' = 0
  · have hzero := hs.root
    rw [← hfail hne, hroot, hne, obj_zero] at hzero
    cases hzero
  · obtain ⟨f, hfresh, hres⟩ := hnew hne
    have hsame := (hother hne).other [slash] rfl (by simpa using hloc)
    rw [hres, hs.resolved rfl] at hsame
    obtain ⟨e, he⟩ := hs.root_entry
    have hold := entries_eq_some.1 (hs.part _ e he)
    rw [show t.root = f from (Option.some.inj hsame).symm, hfresh] at hold
    cases hold

/-- With memory for a file, one that is created behind a mount of `ktmpfs_mount` is not found. -/
theorem StandsIn.not_ktmpfsMount_attaches (hs : StandsIn s m t)
    (habs : kvfsIsAbsolutePath loc = true) (hg : s.Granted) : ¬ MountAttaches s loc := by
  intro h
  obtain ⟨node, r, hmount, hfile⟩ := h.ktmpfsMount
  have hfits : FitsName loc := by
    by_contra hno
    simp [ktmpfsMountAt, hno] at hmount
  obtain ⟨node', r', hmount', hmade⟩ := ktmpfsMount_spec s loc
  obtain ⟨rfl, rfl⟩ : node' = node ∧ r' = r := by
    simpa [ktmpfsMountAt, hfits, hmount', Prod.ext_iff] using hmount
  obtain ⟨hne, f, hmade⟩ := hmade.resolve_left fun h => h.2 hg
  -- create a file `"a"`
  obtain ⟨x, r₁, hmk, hx⟩ :=
    kvfsCreate_spec hmade.live hmade.entry (isDir_newRoot loc) [0x61] 0
  rcases hx.made with ⟨-, -, hno⟩ | ⟨hx0, hdead, hent⟩
  · rw [hmade.keeps.frame.granted hg 0] at hno
    cases hno
  have hxnone : r'.entries x = none := by simp [entries, hdead]
  have hxf : x ≠ f := by
    rintro rfl
    rw [hmade.entry] at hxnone
    cases hxnone
  have hcreate : r'.kvfsCreate node' [0x61] 0 = some (true, r₁) := by simpa [hx0] using hmk
  have hthere : r₁.entries x ≠ none := by simp [hent, insertEntry_new hxf.symm]
  have habs' : kvfsIsAbsolutePath (loc ++ slash :: [0x61]) = true := by
    cases loc with
    | nil => cases habs
    | cons c loc => exact habs
  have hres := (hfile hne).file [0x61] 0 r₁ x ⟨by simp, by decide, by decide, by decide⟩ (by decide)
    hcreate hxnone hthere
  rw [(ktmpfsMount_resolved hmade hs hcreate habs').2, hs.resolved habs'] at hres
  -- what the tree of the root has there was an entry before the mount
  have hwalk := Option.some.inj hres
  obtain ⟨e, he⟩ := walkTree_mem hs.tree hs.root_entry (hwalk ▸ hx0)
  rw [hwalk] at he
  rw [(hmade.standsIn hs).part x e he] at hxnone
  cases hxnone

/-- **Neither function attaches a tree**, at any location but the root, and with memory for a file
at no location at all. -/
theorem mount_never_attaches (hs : StandsIn s m t) (habs : kvfsIsAbsolutePath loc = true)
    (hloc : components loc ≠ [] ∨ s.Granted) : ¬ MountAttaches s loc := by
  rcases hloc with hloc | hg
  · exact hs.not_kvfsMount_attaches hloc
  · exact hs.not_ktmpfsMount_attaches habs hg

theorem standsIn_mountedRoot :
    StandsIn mountedRoot mountedRoot.entries (OrderedTree.single 1) := by
  have hent : mountedRoot.entries = Function.update (fun _ => none) 1 (some rootEntry) := by
    funext q
    match q with
    | 0 | 1 | 2 => rfl
    | q + 3 =>
      rw [entries_of_length_lt (show mountedRoot.heap.length < q + 3 from Nat.le_add_left 3 q)]
      rfl
  refine ⟨?_, mountedRoot.includes_entries, rfl⟩
  rw [hent]
  exact treeStored_single (by decide) (by decide) rfl rfl rfl

theorem mount_never_attaches_root : ¬ MountAttaches mountedRoot [slash] :=
  mount_never_attaches standsIn_mountedRoot rfl (Or.inr fun _ => rfl)

/-- **`"/dev"` is not attached**: after `ktmpfs_mount` and the creation of a file `"stdin"` through
its node, `"/dev/stdin"` stands for nothing. -/
theorem dev_not_attached : ¬ MountAttaches mountedRoot devPath := by
  intro h
  obtain ⟨node, r, hmount, hfile⟩ := h.ktmpfsMount
  let name : CString := [0x73, 0x74, 0x64, 0x69, 0x6e]
  have hrun : ((mountedRoot.ktmpfsMountAt devPath).bind fun mount =>
      (mount.2.kvfsCreate mount.1 name 0o666).map fun file =>
        (decide (mount.1 ≠ 0), file.1, mount.2.entries 5, (file.2.entries 5).isSome,
          file.2.resolved (devPath ++ slash :: name))) = some (true, true, none, true, some 0) := by
    decide +kernel
  simp only [hmount, Option.bind_some, Option.map_eq_some_iff, Prod.exists, Prod.mk.injEq,
    decide_eq_true_eq] at hrun
  obtain ⟨created, r', hcreate, hne, rfl, hbefore, hafter, hres⟩ := hrun
  have hfound := (hfile hne).file name 0o666 r' 5 (by constructor <;> decide) (by decide) hcreate
    hbefore (Option.isSome_iff_ne_none.1 hafter)
  rw [hres] at hfound
  cases hfound

end Fs

end DelOs
