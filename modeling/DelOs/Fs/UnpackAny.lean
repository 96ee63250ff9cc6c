import DelOs.Fs.Mount
import DelOs.Fs.Initrd

/-!
# Unpacking an image of any kind

Whatever the bytes of an image are, unpacking it leaves a tree of directories and files.

* `SameTree` — the nodes, and the entries but for the data of files, are what they were.
* `krealloc_sameTree`, `ktmpfsWrite_sameTree` — a write that writes something keeps the tree.
* `lookupOrMake_stands`, `ensureParts_stands` — the steps of an entry.
* `kinitrdUnpack_stands` — **an image that is unpacked leaves a tree below the root**.
-/

namespace DelOs

open FirstFit Splice

namespace Fs

variable {s r r' : Fs} {t : OrderedTree Ptr}

/-! ## Writes -/

/-- The nodes of `s` are there in `r`, and its entries are, up to the data of files. -/
structure SameTree (s r : Fs) : Prop where
  frame : Frame s r
  node : ∀ q n, s.obj q = some (.node n) → r.obj q = some (.node n)
  entry : SamePlaces s.entries r.entries

/-- Other blocks may change. -/
theorem sameTree_of_entries (hframe : Frame s r)
    (hnode : ∀ q n, s.obj q = some (.node n) → r.obj q = some (.node n))
    (hent : r.entries = s.entries) : SameTree s r := by
  exact ⟨hframe, hnode, .of_eq hent⟩

theorem SameTree.refl (s : Fs) : SameTree s s :=
  sameTree_of_entries (Frame.refl s) (fun _ _ h => h) rfl

theorem SameTree.trans (h : SameTree s r) (h' : SameTree r r') : SameTree s r' := by
  exact ⟨h.frame.trans h'.frame, fun q n hq => h'.node q n (h.node q n hq),
    SamePlaces.trans h.entry h'.entry⟩

/-- The tree stands as it did. -/
theorem SameTree.stands (h : SameTree s r) (hs : Stands s t) : Stands r t := by
  refine ⟨hs.tree.congr h.entry, ?_⟩
  rw [h.frame.root]
  exact h.node _ _ hs.root

theorem load_of_entryAt {q : Ptr} {e : TmpfsEntry} (h : s.entryAt q = some e) :
    s.load q = some (.entry e) := by
  unfold entryAt at h
  split at h
  · rename_i heq
    rw [heq, Option.some.inj h]
  · cases h

theorem load_of_dataAt {q : Ptr} {bytes : List UInt8} (h : s.dataAt q = some bytes) :
    s.load q = some (.data bytes) := by
  unfold dataAt at h
  split at h
  · rename_i heq
    rw [heq, Option.some.inj h]
  · cases h

/-- Writing an entry that has the same links. -/
theorem sameTree_putEntry {q : Ptr} {e e' : TmpfsEntry} (he : s.entryAt q = some e)
    (hsame : SameLinks e e') : SameTree s (s.put q (.entry e')) := by
  have hload := load_of_entryAt he
  cases hobj : s.obj q with
  | none =>
    have hput : (s.put q (.entry e')).obj = s.obj := obj_put_dead hobj _
    exact sameTree_of_entries (frame_put s q _) (fun p n hp => by rw [hput, hp])
      (entries_congr fun p e => by rw [hput])
  | some o =>
    obtain rfl : o = .entry e := by
      have := load_of_obj hobj
      rw [hload] at this
      exact (Option.some.inj this).symm
    have hent := entries_eq_some.2 hobj
    refine ⟨frame_put s q _, fun p n hp => (keeps_put hent e').other p _ hp (by simp), ?_⟩
    rw [entries_put (by simp [hobj])]
    exact samePlaces_update hent hsame

/-- Writing the data of a file. -/
theorem sameTree_putData {q : Ptr} {old new : List UInt8} (hdata : s.dataAt q = some old) :
    SameTree s (s.put q (.data new)) := by
  have hload := load_of_dataAt hdata
  cases hobj : s.obj q with
  | none =>
    have hput : (s.put q (.data new)).obj = s.obj := obj_put_dead hobj _
    exact sameTree_of_entries (frame_put s q _) (fun p n hp => by rw [hput, hp])
      (entries_congr fun p e => by rw [hput])
  | some o =>
    obtain rfl : o = .data old := by
      have := load_of_obj hobj
      rw [hload] at this
      exact (Option.some.inj this).symm
    have hput := obj_put (s := s) (p := q) (by simp [hobj]) (.data new)
    refine sameTree_of_entries (frame_put s q _) (fun p n hp => ?_)
      (entries_update hput (by simp [hobj]) (by simp))
    rw [hput, Function.update_of_ne, hp]
    rintro rfl
    rw [hobj] at hp
    cases hp

/-- Freeing the data of a file. -/
theorem sameTree_kfree {q : Ptr} {old : List UInt8} (hdata : s.dataAt q = some old) :
    SameTree s (s.kfree q) := by
  have hload := load_of_dataAt hdata
  have hnot : ∀ o, s.obj q = some o → o = .data old := by
    intro o hobj
    have := load_of_obj hobj
    rw [hload] at this
    exact (Option.some.inj this).symm
  refine sameTree_of_entries (frame_kfree s q) (fun p n hp => ?_)
    (entries_update (obj_kfree s q) (fun e he => by cases hnot _ he) (by simp))
  rw [obj_kfree, Function.update_of_ne, hp]
  rintro rfl
  cases hnot _ hp

/-- An allocation, and data stored in its block. -/
theorem sameTree_kmalloc {size p : Nat} {bytes : List UInt8} (hk : s.kmalloc size = (p, r))
    (hput : r.putData p bytes = some r') : SameTree s r' := by
  unfold putData at hput
  split at hput
  · rename_i b hb
    split_ifs at hput
    obtain rfl := Option.some.inj hput
    have hp : p ≠ 0 := by
      rintro rfl
      simp at hb
    obtain ⟨hdead, ⟨c, hc, hfree⟩, hrest⟩ := kmalloc_block hk hp
    have hobj : (r.put p (.data bytes)).obj = Function.update s.obj p (some (.data bytes)) := by
      rw [obj_put (by simp [obj, hc, hfree])]
      funext q
      by_cases hq : q = p
      · simp [hq]
      · simp [hq, obj, hrest q hq]
    have hframe : Frame s r := by simpa [hk] using kmalloc_frame s size
    refine sameTree_of_entries (hframe.trans (frame_put r p _)) (fun q n hq => ?_)
      (entries_update hobj (by simp [hdead]) (by simp))
    rw [hobj, Function.update_of_ne, hq]
    rintro rfl
    rw [hdead] at hq
    cases hq
  · cases hput

/-- Data stored in one block leave data in another. -/
theorem dataAt_putData {p q : Ptr} {bytes old : List UInt8} (hput : s.putData p bytes = some r)
    (hold : s.dataAt q = some old) : ∃ new, r.dataAt q = some new := by
  have hload := load_of_dataAt hold
  unfold putData at hput
  split at hput
  · rename_i b hb
    split_ifs at hput
    obtain rfl := Option.some.inj hput
    by_cases hq : q = p
    · exact ⟨bytes, by simp [dataAt, load, put, hq, get_update, hb]⟩
    · refine ⟨old, ?_⟩
      have hsame : (s.put p (.data bytes)).load q = s.load q := by
        simp [load, put, get_update, hq]
      rw [dataAt, hsame, hload]
  · cases hput

/-- A `krealloc` that gets a block keeps the tree. -/
theorem krealloc_sameTree {ptr n p : Nat} (h : s.krealloc ptr n = some (p, r)) (hp : p ≠ 0) :
    SameTree s r := by
  simp only [krealloc, Option.bind_eq_bind, Option.bind_eq_some_iff, Option.pure_def] at h
  obtain ⟨size, -, h⟩ := h
  rcases hk : s.kmalloc size with ⟨q, s₁⟩
  simp only [hk] at h
  split_ifs at h with hptr hq hq
  · exact absurd (Prod.mk.inj (Option.some.inj h)).1.symm hp
  · obtain ⟨s₂, hput, heq⟩ := Option.bind_eq_some_iff.1 h
    obtain ⟨rfl, rfl⟩ := Prod.mk.inj (Option.some.inj heq)
    exact sameTree_kmalloc hk hput
  · exact absurd (Prod.mk.inj (Option.some.inj h)).1.symm hp
  · obtain ⟨old, hold, h⟩ := Option.bind_eq_some_iff.1 h
    obtain ⟨s₂, hput, heq⟩ := Option.bind_eq_some_iff.1 h
    obtain ⟨rfl, rfl⟩ := Prod.mk.inj (Option.some.inj heq)
    obtain ⟨old', hold'⟩ := dataAt_putData hput hold
    exact (sameTree_kmalloc hk hput).trans (sameTree_kfree hold')

/-- Making room for a write keeps the tree, if there comes to be room. -/
theorem growData_sameTree {file : Ptr} {e : TmpfsEntry} {newSize : Nat}
    (h : s.growData file e newSize = some (true, r)) : SameTree s r := by
  unfold growData at h
  split_ifs at h with hroom
  · simp only [Option.pure_def, Option.some.injEq, Prod.mk.injEq, true_and] at h
    exact h ▸ SameTree.refl s
  · simp only [Option.bind_eq_bind, Option.bind_eq_some_iff, Option.pure_def, Prod.exists] at h
    obtain ⟨p, s₁, hre, h⟩ := h
    split_ifs at h with hp
    · cases h
    · obtain ⟨e', he', heq⟩ := Option.bind_eq_some_iff.1 h
      obtain rfl := (Prod.mk.inj (Option.some.inj heq)).2
      exact (krealloc_sameTree hre hp).trans
        (sameTree_putEntry he' ⟨rfl, rfl, rfl, rfl, rfl, rfl⟩)

/-- Copying the bytes of a write keeps the tree. -/
theorem storeBytes_sameTree {file : Ptr} {offset newSize : Nat} {buffer : List UInt8}
    (h : s.storeBytes file offset buffer newSize = some r) : SameTree s r := by
  simp only [storeBytes, Option.bind_eq_bind, Option.bind_eq_some_iff, Option.pure_def] at h
  obtain ⟨e, he, data, hdata, h⟩ := h
  split_ifs at h
  obtain rfl := Option.some.inj h
  have hentry : (s.put e.dataPtr (.data (splice data offset buffer))).entryAt file = some e := by
    have hne : file ≠ e.dataPtr := by
      rintro hf
      have := load_of_entryAt he
      rw [hf, load_of_dataAt hdata] at this
      cases this
    have hsame : (s.put e.dataPtr (.data (splice data offset buffer))).load file = s.load file := by
      simp [load, put, get_update, hne]
    rw [entryAt, hsame, load_of_entryAt he]
  exact (sameTree_putData hdata).trans (sameTree_putEntry hentry (by constructor <;> simp))

/-- **A write that writes something keeps the tree.** -/
theorem ktmpfsWrite_sameTree {node : Ptr} {offset written offset' : Nat} {buffer : List UInt8}
    (h : s.ktmpfsWrite node offset buffer = some (written, offset', r)) (hw : written ≠ 0) :
    SameTree s r := by
  simp only [ktmpfsWrite, Option.bind_eq_bind, Option.pure_def] at h
  split_ifs at h
  · cases h
    exact absurd rfl hw
  · obtain ⟨n, -, h⟩ := Option.bind_eq_some_iff.1 h
    split_ifs at h
    · cases h
      exact absurd rfl hw
    · obtain ⟨e, -, h⟩ := Option.bind_eq_some_iff.1 h
      split_ifs at h
      · split at h
        · cases h
          exact absurd rfl hw
        · cases h
      · cases h
        exact absurd rfl hw
      · obtain ⟨⟨room, s₁⟩, hgrow, h⟩ := Option.bind_eq_some_iff.1 h
        cases room with
        | false =>
          cases h
          exact absurd rfl hw
        | true =>
          simp only [Bool.true_eq_false, if_false] at h
          obtain ⟨s₂, hstore, heq⟩ := Option.bind_eq_some_iff.1 h
          cases heq
          exact (growData_sameTree hgrow).trans (storeBytes_sameTree hstore)

theorem kvfsWrite_sameTree {node : Ptr} {offset written offset' : Nat} {buffer : List UInt8}
    (h : s.kvfsWrite node offset buffer = some (written, offset', r)) (hw : written ≠ 0) :
    SameTree s r := by
  simp only [kvfsWrite, Option.bind_eq_bind, Option.pure_def] at h
  split_ifs at h
  · cases h
    exact absurd rfl hw
  · obtain ⟨st, -, h⟩ := Option.bind_eq_some_iff.1 h
    split at h
    · cases h
      exact absurd rfl hw
    · split_ifs at h
      · cases h
        exact absurd rfl hw
      · exact ktmpfsWrite_sameTree h hw

/-! ## Nodes -/

/-- `node` is the node of an entry. -/
def IsOpen (s : Fs) (node : Ptr) : Prop :=
  ∃ x, s.obj node = some (.node (newNode x)) ∧ ∃ e, s.entries x = some e

theorem Stands.isOpen_root (h : Stands s t) : s.IsOpen s.kvfsRootMountDir :=
  ⟨t.root, h.root, (h.tree.mem _).1 t.root_mem⟩

theorem SameTree.isOpen (h : SameTree s r) {node : Ptr} (hnode : s.IsOpen node) :
    r.IsOpen node := by
  obtain ⟨x, hx, e, he⟩ := hnode
  refine ⟨x, h.node _ _ hx, ?_⟩
  rcases h.entry x with ⟨hnone, -⟩ | ⟨-, e', -, he', -⟩
  · rw [he] at hnone
    cases hnone
  · exact ⟨e', he'⟩

/-- The nodes of `s` are nodes of `r`, and its entries are entries. -/
structure Grows (s r : Fs) : Prop where
  keeps : Keeps s r
  entry : ∀ q e, s.entries q = some e → ∃ e', r.entries q = some e'

theorem Grows.trans (h : Grows s r) (h' : Grows r r') : Grows s r' := by
  refine ⟨h.keeps.trans h'.keeps, fun q e he => ?_⟩
  obtain ⟨e', he'⟩ := h.entry q e he
  exact h'.entry q e' he'

theorem Grows.root (h : Grows s r) : r.kvfsRootMountDir = s.kvfsRootMountDir := h.keeps.frame.root

theorem Grows.isOpen (h : Grows s r) {node : Ptr} (hnode : s.IsOpen node) : r.IsOpen node := by
  obtain ⟨x, hx, e, he⟩ := hnode
  exact ⟨x, h.keeps.other _ _ hx (by simp), h.entry x e he⟩

/-- Closing a node other than the root leaves the tree and the other nodes. -/
theorem Stands.closeUnless (hs : Stands s t) {node : Ptr} (hnode : s.IsOpen node) :
    ∃ r, s.closeUnless s.kvfsRootMountDir node = some r ∧ Stands r t ∧
      r.kvfsRootMountDir = s.kvfsRootMountDir ∧
      ∀ p, p ≠ node → s.IsOpen p → r.IsOpen p := by
  by_cases hroot : node = s.kvfsRootMountDir
  · exact ⟨s, by simp [Fs.closeUnless, hroot], hs, rfl, fun p _ hp => hp⟩
  · obtain ⟨x, hx, -⟩ := hnode
    obtain ⟨r, hclose, hframe, -, hobj⟩ := kvfsClose_spec hx hroot
    have hent : r.entries = s.entries := entries_update hobj (by simp [hx]) (by simp)
    refine ⟨r, by simp [Fs.closeUnless, hroot, hclose], ⟨by rw [hent]; exact hs.tree, ?_⟩,
      hframe.root, ?_⟩
    · rw [hframe.root, hobj, Function.update_of_ne (Ne.symm hroot), hs.root]
    · rintro p hp ⟨y, hy, hey⟩
      exact ⟨y, by rw [hobj, Function.update_of_ne hp, hy], by rw [hent]; exact hey⟩

/-! ## One name -/

/-- A lookup opens a new node, or none. -/
theorem Stands.lookup (hs : Stands s t) {parent : Ptr} (hparent : s.IsOpen parent)
    (name : CString) :
    ∃ q r, s.kvfsLookup parent name = some (q, r) ∧ Stands r t ∧ Grows s r ∧
      (q ≠ 0 → r.IsOpen q ∧ s.obj q = none) := by
  obtain ⟨d, hd, hent⟩ := hparent
  obtain ⟨q, r, hlook, hfound⟩ := kvfsLookup_spec hs.tree hd hent name
  have hreach := hfound.reached
  have hsame := hreach.entries
  refine ⟨q, r, hlook, ⟨by rw [hsame]; exact hs.tree, ?_⟩,
    ⟨hreach.keeps, fun x e he => ⟨e, by rw [hsame, he]⟩⟩,
    fun hq => ⟨⟨_, (hreach.node hq).2, ?_⟩, (hreach.node hq).1⟩⟩
  · rw [hreach.frame.root]
    exact hreach.keeps.other _ _ hs.root (by simp)
  · rw [hsame]
    exact hs.tree.findIn_mem (hreach.ne_zero hq)

/-- The entries in use stay in use when one is made. -/
theorem exists_insertEntry {m : Entries} {d x q : Ptr} {e e' : TmpfsEntry} {name : CString}
    {mode : Nat} (hq : m q = some e') : ∃ e'', insertEntry m d x e name mode q = some e'' := by
  simp only [insertEntry, Function.update_apply]
  split_ifs
  · exact ⟨_, rfl⟩
  · exact ⟨_, rfl⟩
  · exact ⟨e', hq⟩

/-- Making a directory or a file leaves a tree. -/
theorem Stands.made (hs : Stands s t) {d x : Ptr} {e : TmpfsEntry} (hd : s.entries d = some e)
    (hdir : e.isDir = true) {name : CString} {mode : Nat}
    (hmode : kvfsStatIsDir mode = true ∨ kvfsStatIsReg mode = true)
    (h : Made s r x (insertEntry s.entries d x e name mode)) :
    (∃ t', Stands r t') ∧ Grows s r := by
  have hroot : r.obj r.kvfsRootMountDir = some (.node (newNode t.root)) := by
    rw [h.keeps.frame.root]
    exact h.keeps.other _ _ hs.root (by simp)
  rcases h.made with ⟨-, hent, -⟩ | ⟨hx, hdead, hent⟩
  · exact ⟨⟨t, by rw [hent]; exact hs.tree, hroot⟩, h.keeps, fun q e he => ⟨e, by rw [hent, he]⟩⟩
  · have hxnone : s.entries x = none := by simp [entries, hdead]
    have hmem : t.Mem d := (hs.tree.mem d).2 ⟨e, hd⟩
    have hnew := hs.tree.not_mem hxnone
    refine ⟨⟨t.insertLeaf d x hmem hnew, ?_, hroot⟩, h.keeps, fun q e' he' => ?_⟩
    · rw [hent]
      exact hs.tree.insert hd hdir hxnone hx name hmode hmem hnew
    · rw [hent]
      exact exists_insertEntry he'

/-- A function that makes directories, or files. -/
def Makes (make : Fs → Ptr → CString → Option (Bool × Fs)) : Prop :=
  ∀ (s : Fs) parent name d e, s.obj parent = some (.node (newNode d)) → s.entries d = some e →
    make s parent name = some (false, s) ∨
      ∃ x r mode, e.isDir = true ∧ (kvfsStatIsDir mode = true ∨ kvfsStatIsReg mode = true) ∧
        make s parent name = some (decide (x ≠ 0), r) ∧
        Made s r x (insertEntry s.entries d x e name mode)

theorem makes_kvfsMkdir (mode : Nat) :
    Makes fun s parent name => s.kvfsMkdir parent name mode := by
  intro s parent name d e hd he
  cases hdir : e.isDir with
  | false => exact Or.inl (kvfsMkdir_notDir hd he hdir name mode)
  | true =>
    obtain ⟨x, r, hmk, hmade⟩ := kvfsMkdir_spec hd he hdir name mode
    exact Or.inr ⟨x, r, mkdirMode mode, rfl, Or.inl (isDir_mask_or _), hmk, hmade⟩

theorem makes_kvfsCreate (mode : Nat) :
    Makes fun s parent name => s.kvfsCreate parent name mode := by
  intro s parent name d e hd he
  cases hdir : e.isDir with
  | false => exact Or.inl (kvfsCreate_notDir hd he hdir name mode)
  | true =>
    obtain ⟨x, r, hmk, hmade⟩ := kvfsCreate_spec hd he hdir name mode
    exact Or.inr ⟨x, r, _, rfl, Or.inr (isReg_mask_or _), hmk, hmade⟩

/-- **A name looked up or made** is open if there is a node for it. -/
theorem Stands.lookupOrMake (hs : Stands s t) {parent : Ptr} (hparent : s.IsOpen parent)
    {make : Fs → Ptr → CString → Option (Bool × Fs)} (hmake : Makes make) (name : CString) :
    ∃ q r t', lookupOrMake make s parent name = some (q, r) ∧ Stands r t' ∧ Grows s r ∧
      (q ≠ 0 → r.IsOpen q ∧ ¬ s.IsOpen q) := by
  have hp0 : parent ≠ 0 := by
    obtain ⟨d, hd, -⟩ := hparent
    exact ne_zero_of_obj hd
  obtain ⟨q, r, hlook, hr, hgrows, hq⟩ := hs.lookup hparent name
  by_cases hq0 : q = 0
  · obtain ⟨d, hd, e, he⟩ := hgrows.isOpen hparent
    rcases hmake r parent name d e hd he with hmk | ⟨x, r₁, mode, hdir, hmode, hmk, hmade⟩
    · exact ⟨0, r, t, by simp [Fs.lookupOrMake, hp0, hlook, hq0, hmk], hr, hgrows,
        fun h => absurd rfl h⟩
    · obtain ⟨⟨t', hr₁⟩, hgrows₁⟩ := hr.made he hdir hmode hmade
      have hto := hgrows.trans hgrows₁
      by_cases hx : x = 0
      · exact ⟨0, r₁, t', by simp [Fs.lookupOrMake, hp0, hlook, hq0, hmk, hx], hr₁, hto,
          fun h => absurd rfl h⟩
      · obtain ⟨q', r₂, hlook', hr₂, hgrows₂, hq'⟩ := hr₁.lookup (hto.isOpen hparent) name
        refine ⟨q', r₂, t', by simp [Fs.lookupOrMake, hp0, hlook, hq0, hmk, hx, hlook'], hr₂,
          hto.trans hgrows₂, fun hne => ⟨(hq' hne).1, ?_⟩⟩
        rintro ⟨y, hy, -⟩
        exact hto.keeps.not_node (hq' hne).2 _ hy
  · refine ⟨q, r, t, by simp [Fs.lookupOrMake, hp0, hlook, hq0], hr, hgrows,
      fun _ => ⟨(hq hq0).1, ?_⟩⟩
    rintro ⟨y, hy, -⟩
    rw [(hq hq0).2] at hy
    cases hy

/-! ## One entry -/

/-- The walk of `kinitrd_ensure_directory`. -/
theorem Stands.ensureParts (hs : Stands s t) {current : Ptr} (hopen : s.IsOpen current)
    (parts : List CString) :
    ∃ q r t', ensureParts s.kvfsRootMountDir s current parts = some (q, r) ∧ Stands r t' ∧
      r.kvfsRootMountDir = s.kvfsRootMountDir ∧ (q ≠ 0 → r.IsOpen q) := by
  induction parts generalizing s t current with
  | nil => exact ⟨current, s, t, rfl, hs, rfl, fun _ => hopen⟩
  | cons part parts ih =>
    obtain ⟨next, r, t', hget, hr, hgrows, hnext⟩ :=
      hs.lookupOrMake hopen (makes_kvfsMkdir 0o755) part
    obtain ⟨r₁, hclose, hr₁, hroot, hstay⟩ := hr.closeUnless (hgrows.isOpen hopen)
    rw [hgrows.root] at hclose hroot
    have hget' : s.kinitrdGetOrCreateDirectory current part = some (next, r) := hget
    by_cases hn : next = 0
    · exact ⟨0, r₁, t', by simp [Fs.ensureParts, hget', hclose, hn], hr₁, hroot,
        fun h => absurd rfl h⟩
    · have hne : next ≠ current := by
        rintro rfl
        exact (hnext hn).2 hopen
      obtain ⟨q, r₂, t₂, hrest, hr₂, hroot₂, hq⟩ := ih hr₁ (hstay next hne (hnext hn).1)
      rw [hroot] at hrest hroot₂
      exact ⟨q, r₂, t₂, by simp [Fs.ensureParts, hget', hclose, hn, hrest], hr₂, hroot₂, hq⟩

theorem Stands.ensureDirectory (hs : Stands s t) (parts : List CString) :
    ∃ q r t', s.kinitrdEnsureDirectory s.kvfsRootMountDir parts = some (q, r) ∧ Stands r t' ∧
      r.kvfsRootMountDir = s.kvfsRootMountDir ∧ (q ≠ 0 → r.IsOpen q) := by
  obtain ⟨q, r, t', h⟩ := hs.ensureParts hs.isOpen_root
    (parts.drop (kinitrdGetFirstPartIndex parts))
  rw [kinitrdEnsureDirectory, if_neg (ne_zero_of_obj hs.root)]
  exact ⟨q, r, t', h⟩

/-- A directory of the archive. -/
theorem Stands.unpackDirectory (hs : Stands s t) (entry : InitrdEntry) :
    ∃ unpacked r t', s.kinitrdUnpackDirectory s.kvfsRootMountDir entry = some (unpacked, r) ∧
      Stands r t' ∧ r.kvfsRootMountDir = s.kvfsRootMountDir := by
  by_cases hparts : (kinitrdSplitEntryPath entry).length = 0
  · exact ⟨false, s, t, by simp [kinitrdUnpackDirectory, hparts], hs, rfl⟩
  obtain ⟨dir, r, t', hensure, hr, hroot, hdir⟩ := hs.ensureDirectory (kinitrdSplitEntryPath entry)
  by_cases hd : dir = 0
  · exact ⟨false, r, t', by simp [kinitrdUnpackDirectory, hparts, hensure, hd], hr, hroot⟩
  · obtain ⟨r₁, hclose, hr₁, hroot₁, -⟩ := hr.closeUnless (hdir hd)
    rw [hroot] at hclose hroot₁
    exact ⟨true, r₁, t', by simp [kinitrdUnpackDirectory, hparts, hensure, hd, hclose], hr₁,
      hroot₁⟩

/-- The data of a file of the archive, if all of them are written. -/
theorem kinitrdWriteFileData_sameTree {file : Ptr} {entry : InitrdEntry} {data : List UInt8}
    (h : s.kinitrdWriteFileData file entry data = some (true, r)) : SameTree s r := by
  simp only [kinitrdWriteFileData, Option.bind_eq_bind, Option.pure_def] at h
  split_ifs at h with hfile hsize
  · cases h
  · cases h
    exact SameTree.refl s
  · obtain ⟨⟨written, offset, r₁⟩, hwrite, heq⟩ := Option.bind_eq_some_iff.1 h
    obtain ⟨hall, rfl⟩ := Prod.mk.inj (Option.some.inj heq)
    obtain rfl : written = entry.size := by simpa using hall
    exact kvfsWrite_sameTree hwrite hsize

/-- A file of the archive, if it is stored. -/
theorem Stands.unpackFile (hs : Stands s t) {entry : InitrdEntry} {data : List UInt8}
    (h : s.kinitrdUnpackFile s.kvfsRootMountDir entry data = some (true, r)) :
    ∃ t', Stands r t' ∧ r.kvfsRootMountDir = s.kvfsRootMountDir := by
  have hroot0 : s.kvfsRootMountDir ≠ 0 := ne_zero_of_obj hs.root
  simp only [kinitrdUnpackFile, if_neg hroot0, Option.bind_eq_bind, Option.pure_def] at h
  obtain ⟨⟨parent, fileName, s₁⟩, hresolve, h⟩ := Option.bind_eq_some_iff.1 h
  simp only at h
  split_ifs at h with hparent
  · cases h
  -- the parent is open
  obtain ⟨t₁, hs₁, hroot₁, hopen⟩ : ∃ t₁, Stands s₁ t₁ ∧
      s₁.kvfsRootMountDir = s.kvfsRootMountDir ∧ s₁.IsOpen parent := by
    simp only [kinitrdResolveFileParent, Option.bind_eq_bind, Option.pure_def] at hresolve
    split_ifs at hresolve
    · exact absurd (Prod.mk.inj (Option.some.inj hresolve)).1.symm hparent
    · obtain ⟨q, r, t', hensure, hr, hroot, hq⟩ :=
        hs.ensureDirectory (kinitrdSplitEntryPath entry).dropLast
      rw [hensure] at hresolve
      simp only [Option.bind_some, Option.some.injEq, Prod.mk.injEq] at hresolve
      obtain ⟨rfl, -, rfl⟩ := hresolve
      exact ⟨t', hr, hroot, hq hparent⟩
  obtain ⟨file, s₂, t₂, hmake, hs₂, hgrows, hfile⟩ :=
    hs₁.lookupOrMake hopen (makes_kvfsCreate (0o644 ||| KVFS_STAT_IFREG)) fileName
  have hmake' : s₁.kinitrdOpenOrCreateFile parent fileName = some (file, s₂) := hmake
  rw [hmake'] at h
  simp only [Option.bind_some] at h
  split_ifs at h with hf0
  · obtain ⟨r₁, -, heq⟩ := Option.bind_eq_some_iff.1 h
    cases heq
  obtain ⟨hfopen, hfresh⟩ := hfile hf0
  obtain ⟨⟨stored, s₃⟩, hwrite, h⟩ := Option.bind_eq_some_iff.1 h
  obtain ⟨s₄, hclose, h⟩ := Option.bind_eq_some_iff.1 h
  obtain ⟨s₅, hclose', heq⟩ := Option.bind_eq_some_iff.1 h
  obtain ⟨rfl, rfl⟩ := Prod.mk.inj (Option.some.inj heq)
  have hsame := kinitrdWriteFileData_sameTree hwrite
  have hs₃ := hsame.stands hs₂
  have hroot₃ : s₃.kvfsRootMountDir = s.kvfsRootMountDir := by
    rw [hsame.frame.root, hgrows.root, hroot₁]
  -- neither the parent nor the root is the file
  have hfp : parent ≠ file := by
    rintro rfl
    exact hfresh hopen
  have hfr : file ≠ s₃.kvfsRootMountDir := by
    intro hf
    apply hfresh
    rw [hf, hroot₃, ← hroot₁]
    exact hs₁.isOpen_root
  obtain ⟨s₄', hclose₄, hs₄, hroot₄, hstay⟩ := hs₃.closeUnless (hsame.isOpen hfopen)
  obtain rfl : s₄' = s₄ := by
    rw [Fs.closeUnless, if_pos hfr, hclose] at hclose₄
    exact (Option.some.inj hclose₄).symm
  obtain ⟨s₅', hclose₅, hs₅, hroot₅, -⟩ :=
    hs₄.closeUnless (hstay parent hfp (hsame.isOpen (hgrows.isOpen hopen)))
  rw [hroot₄, hroot₃] at hclose₅ hroot₅
  obtain rfl : s₅' = s₅ := Option.some.inj (hclose₅.symm.trans hclose')
  exact ⟨t₂, hs₅, hroot₅⟩

theorem Stands.unpackEntry (hs : Stands s t) {entry : InitrdEntry} {data : List UInt8}
    (h : s.kinitrdUnpackEntry s.kvfsRootMountDir entry data = some (true, r)) :
    ∃ t', Stands r t' ∧ r.kvfsRootMountDir = s.kvfsRootMountDir := by
  have hroot0 : s.kvfsRootMountDir ≠ 0 := ne_zero_of_obj hs.root
  simp only [kinitrdUnpackEntry, if_neg hroot0] at h
  split_ifs at h
  · obtain ⟨unpacked, r', t', hunpack, hr, hroot⟩ := hs.unpackDirectory entry
    rw [hunpack] at h
    obtain ⟨-, rfl⟩ := Prod.mk.inj (Option.some.inj h)
    exact ⟨t', hr, hroot⟩
  · exact hs.unpackFile h
  · cases h

/-! ## The image -/

theorem Stands.unpackLoop (hs : Stands s t) {fuel : Nat} {cursor : List UInt8}
    (h : unpackLoop s.kvfsRootMountDir fuel s cursor = some (true, r)) :
    ∃ t', Stands r t' ∧ r.kvfsRootMountDir = s.kvfsRootMountDir := by
  induction fuel generalizing s t cursor with
  | zero => cases h
  | succ fuel ih =>
    simp only [Fs.unpackLoop, Option.bind_eq_bind, Option.pure_def] at h
    split_ifs at h
    · cases h
    · cases h
      exact ⟨t, hs, rfl⟩
    · cases h
    · obtain ⟨⟨unpacked, s₁⟩, hentry, h⟩ := Option.bind_eq_some_iff.1 h
      cases unpacked with
      | false => cases h
      | true =>
        simp only [Bool.true_eq_false, if_false] at h
        obtain ⟨t₁, hs₁, hroot₁⟩ := hs.unpackEntry hentry
        rw [← hroot₁] at h ⊢
        exact ih hs₁ h

/-- **An image that is unpacked leaves a tree of directories and files below the root**, whatever
its bytes are. -/
theorem kinitrdUnpack_stands (hs : Stands s t) {image : List UInt8}
    (h : s.kinitrdUnpack s.kvfsRootMountDir image = some (true, r)) :
    ∃ t', Stands r t' ∧ r.kvfsRootMountDir = s.kvfsRootMountDir := by
  simp only [kinitrdUnpack] at h
  split_ifs at h
  · cases h
  · exact hs.unpackLoop h

end Fs

end DelOs
