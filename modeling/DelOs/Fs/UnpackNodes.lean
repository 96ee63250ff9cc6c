import DelOs.Fs.ArchiveReader
import DelOs.Fs.DescriptorCalls
import DelOs.Fs.NewNodes
import DelOs.Fs.UnpackAny
import DelOs.Lib.Handover
import DelOs.Memory.KmallocSizes

/-!
# The nodes of an unpacking

`kinitrd_unpack` opens a node for each component of a path, closes it when it has the next one, and
closes the last one and that of the file at the end: whatever the image, and wherever it stops.

* `nodes` — the nodes in use.
* `Sound` — what the entries and the data of the files look like between two records.
* `Leaves` — a call leaves a new node open, or none.
* `Carried`, `Carried.step` — the node that a walk has come to, which may be the root; **the next
  one takes its place**.
* `Unpacks` — what comes of an entry: the nodes are those from before, unless the data are more than
  `kmalloc` can count.
* `unpackLoop_unpacks` — **the loop**, by induction on its rounds.
* `unpacking_leaks_no_node` — **no node leaks, and the root node stays open**.
-/

namespace DelOs

open FirstFit Handover

namespace Fs

variable {s r r' : Fs} {t : OrderedTree Ptr}

/-! ## The nodes in use -/

/-- The nodes in use. -/
def nodes (s : Fs) : Ptr → Option VfsNode := fun q =>
  match s.obj q with
  | some (.node n) => some n
  | _ => none

theorem nodes_eq_some {q : Ptr} {n : VfsNode} :
    s.nodes q = some n ↔ s.obj q = some (.node n) := by
  unfold nodes
  cases s.obj q with
  | none => simp
  | some o => cases o <;> simp

theorem nodes_congr (h : ∀ q n, r.obj q = some (.node n) ↔ s.obj q = some (.node n)) :
    r.nodes = s.nodes := by
  funext q
  apply Option.ext
  intro n
  rw [nodes_eq_some, nodes_eq_some, h]

@[simp] theorem nodes_zero (s : Fs) : s.nodes 0 = none := by simp [nodes]

theorem nodes_of_dead {q : Ptr} (h : s.obj q = none) : s.nodes q = none := by simp [nodes, h]

/-- A node made, or freed. -/
theorem nodes_update {q : Ptr} {o : Option VfsNode}
    (hobj : r.obj = Function.update s.obj q (o.map Obj.node)) :
    r.nodes = Function.update s.nodes q o := by
  funext p
  unfold nodes
  rw [hobj, Function.update_apply, Function.update_apply]
  split_ifs
  · cases o <;> rfl
  · rfl

/-- A call that keeps the nodes and makes none. -/
theorem Keeps.nodes_eq (h : Keeps s r) (hnew : NewNodes s r 0) : r.nodes = s.nodes := by
  refine nodes_congr fun q n => ⟨fun hq => ?_, fun hq => h.other q _ hq (by simp)⟩
  rcases hnew q n hq with rfl | ⟨n', hn'⟩
  · exact absurd rfl (ne_zero_of_obj hq)
  · rw [h.other q _ hn' (by simp)] at hq
    rw [hn', hq]

/-! ## Between two records -/

/-- The entries make up a tree, and the data of each file lie in a block of its own. -/
structure Sound (s : Fs) : Prop where
  tree : ∃ t, Stands s t
  files : FilesSound s

/-- The file system is sound after a call, and has the entries that it had. -/
structure Grown (s r : Fs) : Prop where
  sound : Sound r
  entry : ∀ q e, s.entries q = some e → ∃ e', r.entries q = some e'

theorem Sound.grown (h : Sound s) : Grown s s := ⟨h, fun _ e he => ⟨e, he⟩⟩

theorem Grown.trans (h : Grown s r) (h' : Grown r r') : Grown s r' := by
  refine ⟨h'.sound, fun q e he => ?_⟩
  obtain ⟨e', he'⟩ := h.entry q e he
  exact h'.entry q e' he'

/-- The call leaves the node `q` open, and no other that was not; `NULL` stands for none. -/
structure Leaves (s r : Fs) (q : Ptr) : Prop where
  root : r.kvfsRootMountDir = s.kvfsRootMountDir
  adds : Adds s.nodes r.nodes q
  node : q ≠ 0 → ∃ x, r.nodes q = some (newNode x)

theorem Leaves.refl (s : Fs) : Leaves s s 0 :=
  ⟨rfl, adds_refl s.nodes_zero, fun h => absurd rfl h⟩

theorem Leaves.of_nodes (hroot : r.kvfsRootMountDir = s.kvfsRootMountDir)
    (hnodes : r.nodes = s.nodes) : Leaves s r 0 :=
  ⟨hroot, by rw [hnodes]; exact adds_refl s.nodes_zero, fun h => absurd rfl h⟩

theorem Leaves.nodes_eq (h : Leaves s r 0) : r.nodes = s.nodes := h.adds.eq_of_none r.nodes_zero

theorem Leaves.trans {q : Ptr} (h : Leaves s r 0) (h' : Leaves r r' q) : Leaves s r' q :=
  ⟨h'.root.trans h.root, h.nodes_eq ▸ h'.adds, h'.node⟩

/-- What is open stays open. -/
theorem Leaves.isOpen {p q : Ptr} (h : Leaves s r q) (hg : Grown s r) (hp : s.IsOpen p) :
    r.IsOpen p := by
  obtain ⟨x, hx, e, he⟩ := hp
  have hn := nodes_eq_some.2 hx
  refine ⟨x, nodes_eq_some.1 ?_, hg.entry x e he⟩
  rw [h.adds.mem (by rw [hn]; exact Option.some_ne_none _), hn]

/-- What was open is not the node that has been opened. -/
theorem Leaves.ne {p q : Ptr} (h : Leaves s r q) (hp : s.IsOpen p) : p ≠ q := by
  obtain ⟨x, hx, -⟩ := hp
  rintro rfl
  exact absurd ((nodes_eq_some.2 hx).symm.trans h.adds.free) (Option.some_ne_none _)

/-! ## Single calls -/

/-- A lookup leaves a node open, or none. -/
theorem Sound.lookup (h : Sound s) {parent : Ptr} (hparent : s.IsOpen parent) (name : CString) :
    ∃ q r, s.kvfsLookup parent name = some (q, r) ∧ Leaves s r q ∧ Grown s r ∧
      (q ≠ 0 → r.IsOpen q) := by
  obtain ⟨t, ht⟩ := h.tree
  obtain ⟨d, hd, hent⟩ := hparent
  obtain ⟨q, r, hlook, hfound⟩ := kvfsLookup_spec ht.tree hd hent name
  obtain ⟨q', r', hlook', hr, hgrows, hopen⟩ := ht.lookup ⟨d, hd, hent⟩ name
  obtain ⟨rfl, rfl⟩ : q = q' ∧ r = r' := by simpa [hlook] using hlook'
  have hreach := hfound.reached
  have hfiles : FilesSound r := by
    refine h.files.kept (fun p bytes hp => hreach.keeps.other p _ hp (by simp)) fun p e he => ?_
    rw [hreach.entries] at he
    exact Or.inr ⟨e, he, rfl, rfl, rfl⟩
  have hgrown : Grown s r :=
    ⟨⟨⟨t, hr⟩, hfiles⟩, fun p e he => ⟨e, by rw [hreach.entries, he]⟩⟩
  rcases hreach.made with ⟨rfl, hobj, -⟩ | ⟨hq, -, hdead, hobj⟩
  · exact ⟨0, r, hlook, .of_nodes hreach.frame.root (nodes_congr fun p n => by rw [hobj]), hgrown,
      fun h => absurd rfl h⟩
  · have hnodes : r.nodes = Function.update s.nodes q (some (newNode _)) := nodes_update hobj
    refine ⟨q, r, hlook, ⟨hreach.frame.root, ?_, fun _ => ?_⟩, hgrown, fun hq => (hopen hq).1⟩
    · rw [hnodes]
      exact adds_update (nodes_of_dead hdead)
    · exact ⟨_, by rw [hnodes, Function.update_self]⟩

/-- A function that makes no node. -/
def MakesNoNode (make : Fs → Ptr → CString → Option (Bool × Fs)) : Prop :=
  ∀ s parent name made r, make s parent name = some (made, r) → NewNodes s r 0

/-- The entries that there were hold what they held, and a new one nothing. -/
theorem insertEntry_data {m : Entries} {d x q : Ptr} {e e' : TmpfsEntry} {name : CString}
    {mode : Nat} (hd : m d = some e) (h : insertEntry m d x e name mode q = some e') :
    NoData e' ∨ ∃ e₀, m q = some e₀ ∧ SameData e₀ e' := by
  simp only [insertEntry, Function.update_apply] at h
  split_ifs at h with hq hqx
  · obtain rfl := Option.some.inj h
    exact Or.inr ⟨e, hq ▸ hd, rfl, rfl, rfl⟩
  · obtain rfl := Option.some.inj h
    exact Or.inl ⟨rfl, rfl, rfl⟩
  · exact Or.inr ⟨e', h, rfl, rfl, rfl⟩

/-- Making an entry opens no node. -/
theorem Sound.make (h : Sound s) {make : Fs → Ptr → CString → Option (Bool × Fs)}
    (hmake : Makes make) (hnew : MakesNoNode make) {parent : Ptr} (hparent : s.IsOpen parent)
    (name : CString) :
    ∃ made r, make s parent name = some (made, r) ∧ Leaves s r 0 ∧ Grown s r := by
  obtain ⟨t, ht⟩ := h.tree
  obtain ⟨d, hd, e, he⟩ := hparent
  rcases hmake s parent name d e hd he with hmk | ⟨x, r, mode, hdir, hmode, hmk, hmade⟩
  · exact ⟨false, s, hmk, .refl s, h.grown⟩
  · obtain ⟨⟨t', hr⟩, hgrows⟩ := ht.made he hdir hmode hmade
    refine ⟨_, r, hmk, .of_nodes hgrows.root (hmade.keeps.nodes_eq (hnew _ _ _ _ _ hmk)),
      ⟨⟨t', hr⟩, h.files.kept (fun q bytes hq => hmade.keeps.other q _ hq (by simp)) ?_⟩,
      hgrows.entry⟩
    intro q e' he'
    rcases hmade.made with ⟨-, hent, -⟩ | ⟨-, -, hent⟩
    · rw [hent] at he'
      exact Or.inr ⟨e', he', rfl, rfl, rfl⟩
    · rw [hent] at he'
      exact insertEntry_data he he'

/-- **A name looked up or made** leaves a node open, or none. -/
theorem Sound.lookupOrMake (h : Sound s) {make : Fs → Ptr → CString → Option (Bool × Fs)}
    (hmake : Makes make) (hnew : MakesNoNode make) {parent : Ptr} (hparent : s.IsOpen parent)
    (name : CString) :
    ∃ q r, lookupOrMake make s parent name = some (q, r) ∧ Leaves s r q ∧ Grown s r ∧
      (q ≠ 0 → r.IsOpen q) := by
  have hp0 : parent ≠ 0 := by
    obtain ⟨d, hd, -⟩ := hparent
    exact ne_zero_of_obj hd
  obtain ⟨q, r, hlook, hleaves, hgrown, hopen⟩ := h.lookup hparent name
  by_cases hq : q = 0
  · subst hq
    obtain ⟨made, r₁, hmk, hleaves₁, hgrown₁⟩ :=
      hgrown.sound.make hmake hnew (hleaves.isOpen hgrown hparent) name
    have hboth := hleaves.trans hleaves₁
    have hgrown' := hgrown.trans hgrown₁
    cases made with
    | false =>
      exact ⟨0, r₁, by simp [Fs.lookupOrMake, hp0, hlook, hmk], hboth, hgrown',
        fun h => absurd rfl h⟩
    | true =>
      obtain ⟨q, r₂, hlook₂, hleaves₂, hgrown₂, hopen₂⟩ :=
        hgrown₁.sound.lookup (hboth.isOpen hgrown' hparent) name
      exact ⟨q, r₂, by simp [Fs.lookupOrMake, hp0, hlook, hmk, hlook₂], hboth.trans hleaves₂,
        hgrown'.trans hgrown₂, hopen₂⟩
  · exact ⟨q, r, by simp [Fs.lookupOrMake, hp0, hlook, hq], hleaves, hgrown, hopen⟩

/-- The node `q` is closed, if anything is: no other node changes and no entry, and a sound file
system stays so. -/
structure ClosesOnly (s r : Fs) (q : Ptr) : Prop where
  nodes : ∀ p, p ≠ q → r.nodes p = s.nodes p
  entries : r.entries = s.entries
  sound : Sound s → Sound r

theorem ClosesOnly.refl (s : Fs) (q : Ptr) : ClosesOnly s s q := ⟨fun _ _ => rfl, rfl, id⟩

theorem ClosesOnly.grown {q : Ptr} (h : ClosesOnly r r' q) (hg : Grown s r) : Grown s r' :=
  ⟨h.sound hg.sound, fun q e he => by rw [h.entries]; exact hg.entry q e he⟩

theorem ClosesOnly.isOpen {p q : Ptr} (h : ClosesOnly s r q) (hne : p ≠ q) (hp : s.IsOpen p) :
    r.IsOpen p := by
  obtain ⟨x, hx, hent⟩ := hp
  exact ⟨x, nodes_eq_some.1 ((h.nodes p hne).trans (nodes_eq_some.2 hx)), by rwa [h.entries]⟩

/-- **Closing a node** other than the root frees it. -/
theorem kvfsClose_nodes {q x : Ptr} (hq : s.nodes q = some (newNode x))
    (hne : q ≠ s.kvfsRootMountDir) :
    ∃ r, s.kvfsClose q = some r ∧ r.kvfsRootMountDir = s.kvfsRootMountDir ∧
      r.nodes = Function.update s.nodes q none ∧ ClosesOnly s r q := by
  have hlive := nodes_eq_some.1 hq
  obtain ⟨r, hclose, hframe, -, hobj⟩ := kvfsClose_spec hlive hne
  have hnodes : r.nodes = Function.update s.nodes q none := nodes_update hobj
  have hent : r.entries = s.entries := entries_update hobj (by simp [hlive]) (by simp)
  refine ⟨r, hclose, hframe.root, hnodes, fun p hp => by rw [hnodes, Function.update_of_ne hp],
    hent, fun h => ⟨?_, ?_⟩⟩
  · obtain ⟨t, ht⟩ := h.tree
    refine ⟨t, by rw [hent]; exact ht.tree, ?_⟩
    rw [hframe.root, hobj, Function.update_of_ne hne.symm, ht.root]
  · refine h.files.kept (fun p bytes hp => ?_) fun p e he => Or.inr ⟨e, hent ▸ he, rfl, rfl, rfl⟩
    rw [hobj, Function.update_of_ne, hp]
    rintro rfl
    rw [hlive] at hp
    cases hp

theorem makesNoNode_kvfsMkdir (mode : Nat) :
    MakesNoNode fun s parent name => s.kvfsMkdir parent name mode :=
  fun _ _ _ _ _ h => kvfsMkdir_newNodes h

theorem makesNoNode_kvfsCreate (mode : Nat) :
    MakesNoNode fun s parent name => s.kvfsCreate parent name mode :=
  fun _ _ _ _ _ h => kvfsCreate_newNodes h

/-! ## The walk of an entry -/

variable {root current next : Ptr}

/-- What stays true of the root node while a call is under way: it is open, and so is the node of
the mount. -/
structure RootOpen (s : Fs) (root : Ptr) : Prop where
  sound : Sound s
  isOpen : s.IsOpen root

/-- A node in use. -/
theorem RootOpen.node (h : RootOpen s root) : s.nodes root ≠ none := by
  obtain ⟨x, hx, -⟩ := h.isOpen
  rw [nodes_eq_some.2 hx]
  exact Option.some_ne_none _

theorem RootOpen.mount (h : RootOpen s root) : s.nodes s.kvfsRootMountDir ≠ none := by
  obtain ⟨t, ht⟩ := h.sound.tree
  rw [nodes_eq_some.2 ht.root]
  exact Option.some_ne_none _

/-- The node that a walk from `root` has come to: a new one, which alone is left open, or `root`
itself, which nobody has to close. -/
def Carried (root : Ptr) (s r : Fs) (current : Ptr) : Prop :=
  Leaves s r current ∨ (current = root ∧ Leaves s r 0)

/-- A walk that has come to nothing has left nothing open. -/
theorem Carried.null (h : Carried root s r 0) : Leaves s r 0 := by
  rcases h with h | ⟨-, h⟩
  · exact h
  · exact h

/-- The root node is open all along. -/
theorem Carried.rootOpen (h : Carried root s r current) (hs : RootOpen s root) (hg : Grown s r) :
    RootOpen r root := by
  rcases h with h | ⟨-, h⟩
  · exact ⟨hg.sound, h.isOpen hg hs.isOpen⟩
  · exact ⟨hg.sound, h.isOpen hg hs.isOpen⟩

/-- A node that has been opened is closed, and the next one is left open instead. -/
theorem Leaves.close (h : Leaves s r current) (hs : RootOpen s root) (hcur : current ≠ 0)
    (hnext : Leaves r r' next) :
    ∃ r₁, r'.kvfsClose current = some r₁ ∧ Leaves s r₁ next ∧ ClosesOnly r' r₁ current := by
  obtain ⟨x, hx⟩ := h.node hcur
  have hne : current ≠ next := by
    rintro rfl
    exact absurd (hx.symm.trans hnext.adds.free) (Option.some_ne_none _)
  have hx' : r'.nodes current = some (newNode x) := by rw [hnext.adds.other _ hne, hx]
  have hmount : current ≠ r'.kvfsRootMountDir := by
    rintro rfl
    rw [hnext.root, h.root] at h
    exact hs.mount h.adds.free
  obtain ⟨r₁, hclose, hroot, hnodes, hcloses⟩ := kvfsClose_nodes hx' hmount
  refine ⟨r₁, hclose, ⟨?_, ?_, fun hn => ?_⟩, hcloses⟩
  · rw [hroot, hnext.root, h.root]
  · rw [hnodes]
    exact h.adds.handover hnext.adds hne
  · obtain ⟨y, hy⟩ := hnext.node hn
    exact ⟨y, by rw [hnodes, Function.update_of_ne (Ne.symm hne), hy]⟩

/-- **The next node takes the place of the one before**, unless that is the root. -/
theorem Carried.step (h : Carried root s r current) (hs : RootOpen s root) (hcur : current ≠ 0)
    (hnext : Leaves r r' next) :
    ∃ r₁, r'.closeUnless root current = some r₁ ∧ Leaves s r₁ next ∧
      ClosesOnly r' r₁ current := by
  rcases h with hleaves | ⟨rfl, hleaves⟩
  · have hne : current ≠ root := by
      rintro rfl
      exact hs.node hleaves.adds.free
    obtain ⟨r₁, hclose, hrest⟩ := hleaves.close hs hcur hnext
    exact ⟨r₁, by rw [closeUnless, if_pos hne, hclose], hrest⟩
  · exact ⟨r', by simp [closeUnless], hleaves.trans hnext, .refl r' _⟩

/-- The walk of `kinitrd_ensure_directory`. -/
theorem RootOpen.ensureParts (hs : RootOpen s root) {current : Ptr}
    (h : Carried root s r current) (hg : Grown s r) (hopen : r.IsOpen current)
    (parts : List CString) :
    ∃ q r', ensureParts root r current parts = some (q, r') ∧ Carried root s r' q ∧ Grown s r' ∧
      (q ≠ 0 → r'.IsOpen q) := by
  induction parts generalizing r current with
  | nil => exact ⟨current, r, rfl, h, hg, fun _ => hopen⟩
  | cons part parts ih =>
    have hcur : current ≠ 0 := by
      obtain ⟨x, hx, -⟩ := hopen
      exact ne_zero_of_obj hx
    obtain ⟨next, r₁, hget, hnext, hgrown, hnopen⟩ :=
      hg.sound.lookupOrMake (makes_kvfsMkdir 0o755) (makesNoNode_kvfsMkdir 0o755) hopen part
    obtain ⟨r₂, hclose, hleaves, hcloses⟩ := h.step hs hcur hnext
    have hget' : r.kinitrdGetOrCreateDirectory current part = some (next, r₁) := hget
    have hg₂ : Grown s r₂ := hcloses.grown (hg.trans hgrown)
    by_cases hn : next = 0
    · subst hn
      exact ⟨0, r₂, by simp [Fs.ensureParts, hget', hclose], Or.inl hleaves, hg₂,
        fun h => absurd rfl h⟩
    · have hopen₂ : r₂.IsOpen next := hcloses.isOpen (hnext.ne hopen).symm (hnopen hn)
      obtain ⟨q, r₃, hrest, hcarried⟩ := ih (Or.inl hleaves) hg₂ hopen₂
      exact ⟨q, r₃, by simp [Fs.ensureParts, hget', hclose, hn, hrest], hcarried⟩

theorem RootOpen.ensureDirectory (hs : RootOpen s root) (parts : List CString) :
    ∃ q r, s.kinitrdEnsureDirectory root parts = some (q, r) ∧ Carried root s r q ∧ Grown s r ∧
      (q ≠ 0 → r.IsOpen q) := by
  have hroot : root ≠ 0 := by
    obtain ⟨x, hx, -⟩ := hs.isOpen
    exact ne_zero_of_obj hx
  rw [kinitrdEnsureDirectory, if_neg hroot]
  exact hs.ensureParts (Or.inr ⟨rfl, .refl s⟩) hs.sound.grown hs.isOpen _

/-! ## One entry -/

/-- What becomes of an entry: the nodes are those from before, and if the entry is unpacked, so are
the entries, up to new ones. -/
structure Settles (s r : Fs) (ok : Bool) : Prop where
  root : r.kvfsRootMountDir = s.kvfsRootMountDir
  nodes : r.nodes = s.nodes
  grown : ok = true → Grown s r

/-- A request of so many bytes may come to more than 32 bits with its header and its rounding. -/
def Oversized (size : Nat) : Prop := 2 ^ 32 ≤ size + sizeofInitrdEntry + kmallocPageSize

/-- The call settles, or has no meaning for data of that size. -/
def Unpacks (s : Fs) (size : Nat) (x : Option (Bool × Fs)) : Prop :=
  (∃ ok r, x = some (ok, r) ∧ Settles s r ok) ∨ (x = none ∧ Oversized size)

theorem Leaves.settles (h : Leaves s r 0) {ok : Bool} (hg : ok = true → Grown s r) :
    Settles s r ok := ⟨h.root, h.nodes_eq, hg⟩

/-! ### The data of a file -/

/-- A request that is not oversized gets a block with room for it, or none. -/
theorem allocates_of_ne_zero {n : Nat} (hn : ¬ Oversized n) (h0 : (s.kmalloc n).1 ≠ 0) :
    s.Allocates n := by
  have hwidth : sizeofInitrdEntry = 72 := rfl
  have hpage : kmallocPageSize = 4096 := rfl
  have hheader : kmallocHeaderSize = 12 := rfl
  rw [Oversized] at hn
  obtain ⟨hle, hlt⟩ := alignUp_bounds (show n ≤ 2 ^ 32 - 8 by omega)
  have hblocks : kmallocBlocks (s.pages 0) Obj.raw s.heap n =
    ((s.kmalloc n).1, (s.kmalloc n).2.heap) := rfl
  rcases kmallocBlocks_cases (s.pages 0) Obj.raw s.heap n with
    hc | ⟨p, b, hb, -, hsize, hc⟩ | ⟨-, -, hc⟩
  · rw [hc] at hblocks
    exact absurd (Prod.mk.inj hblocks).1.symm h0
  · -- a free block that is large enough
    rw [hc] at hblocks
    obtain ⟨hp, hheap⟩ := Prod.mk.inj hblocks
    rw [Allocates, ← hp, ← hheap, get_update_self _ hb]
    exact decide_eq_true (hle.trans hsize)
  · -- a new one, of whole pages
    rw [hc] at hblocks
    obtain ⟨hp, hheap⟩ := Prod.mk.inj hblocks
    have hroom : alignUp n 8 + kmallocHeaderSize ≤ kmallocPageSize * pagesToGet (alignUp n 8) := by
      rw [pagesToGet, u32_eq (by omega), hpage]
      omega
    rw [Allocates, ← hp, ← hheap, get_cons, if_pos rfl]
    exact decide_eq_true (show n ≤ kmallocPageSize * pagesToGet (alignUp n 8) - kmallocHeaderSize by
      omega)

/-- A tree with the same places. -/
theorem Rewritten.grown (h : Rewritten s r) (hs : Sound s) (hfiles : FilesSound r) : Grown s r := by
  obtain ⟨t, ht⟩ := hs.tree
  refine ⟨⟨⟨t, ht.tree.congr h.entry, ?_⟩, hfiles⟩, fun q e he => ?_⟩
  · rw [h.frame.root, h.node]
    exact ht.root
  · rcases h.entry q with ⟨hnone, -⟩ | ⟨-, e', -, he', -⟩
    · rw [he] at hnone
      cases hnone
    · exact ⟨e', he'⟩

theorem krealloc_null_root {ptr size : Nat} (h : s.krealloc ptr size = some (0, r)) :
    r.kvfsRootMountDir = s.kvfsRootMountDir := by
  simp only [krealloc, Option.bind_eq_bind, Option.pure_def, Option.bind_eq_some_iff] at h
  obtain ⟨n, -, h⟩ := h
  rcases hk : s.kmalloc n with ⟨p, r₁⟩
  have hroot : r₁.kvfsRootMountDir = s.kvfsRootMountDir := by
    rw [← (kmalloc_frame s n).root, hk]
  simp only [hk] at h
  split_ifs at h with hptr hp hp
  · rw [← (Prod.mk.inj (Option.some.inj h)).2, hroot]
  · obtain ⟨r₂, -, heq⟩ := Option.bind_eq_some_iff.1 h
    exact absurd (Prod.mk.inj (Option.some.inj heq)).1 hp
  · rw [← (Prod.mk.inj (Option.some.inj h)).2]
    exact hroot
  · obtain ⟨old, -, h⟩ := Option.bind_eq_some_iff.1 h
    obtain ⟨r₂, -, heq⟩ := Option.bind_eq_some_iff.1 h
    exact absurd (Prod.mk.inj (Option.some.inj heq)).1 hp

/-- A write that gets no room gives the old data back, and no node. -/
theorem krealloc_null_nodes {ptr size : Nat} (h : s.krealloc ptr size = some (0, r))
    (hptr : ptr = 0 ∨ ∃ data, s.obj ptr = some (.data data)) : r.nodes = s.nodes := by
  have hheap := krealloc_null h
  rcases hptr with rfl | ⟨data, hdata⟩
  · rw [if_pos rfl] at hheap
    exact nodes_congr fun q n => by rw [obj, obj, hheap]
  · rw [if_neg (ne_zero_of_obj hdata)] at hheap
    have hobj : r.obj = (s.kfree ptr).obj := by
      funext q
      rw [obj, obj, hheap]
      rfl
    have hnodes : r.nodes = Function.update s.nodes ptr none :=
      nodes_update (o := none) (by rw [hobj, obj_kfree]; rfl)
    rw [hnodes, ← show s.nodes ptr = none by simp [nodes, hdata], Function.update_eq_self]

/-- A block that is too small is none for `krealloc` to fill. -/
theorem krealloc_of_small {ptr n : Nat} (hn : n ≠ 0) (h0 : (s.kmalloc n).1 ≠ 0)
    (hsmall : ¬ s.Allocates n) : s.krealloc ptr n = none := by
  rcases hk : s.kmalloc n with ⟨p, r⟩
  rw [hk] at h0
  have hput : ∀ bytes : List UInt8, bytes.length = n → r.putData p bytes = none := by
    intro bytes hlen
    rw [Allocates, hk] at hsmall
    unfold putData
    cases hb : get r.heap p with
    | none => rfl
    | some b =>
      simp only [hb, Option.any_some, decide_eq_true_eq] at hsmall
      exact if_neg (by rwa [hlen])
  simp only [krealloc, reallocSize, if_neg hn, hk, if_neg h0, Option.bind_eq_bind, Option.bind_some,
    Option.pure_def]
  split_ifs
  · rw [hput _ (length_readBytes r [] n), Option.bind_none]
  · cases r.dataAt ptr with
    | none => rfl
    | some old => rw [Option.bind_some, hput _ (length_readBytes r old n), Option.bind_none]

/-- **A write from the start of a file**: it is carried out, or refused for lack of memory, or asks
for more than there can be. -/
theorem Sound.ktmpfsWrite (h : Sound s) {node f : Ptr} {e : TmpfsEntry} (hnode : s.Refers node f)
    (he : s.obj f = some (.entry e)) {buffer : List UInt8} (hlen : buffer.length ≠ 0)
    (hlt : buffer.length < 2 ^ 32) :
    (∃ written offset r, s.ktmpfsWrite node 0 buffer = some (written, offset, r) ∧
      r.kvfsRootMountDir = s.kvfsRootMountDir ∧ r.nodes = s.nodes ∧ (written ≠ 0 → Grown s r)) ∨
    (s.ktmpfsWrite node 0 buffer = none ∧ Oversized buffer.length) := by
  obtain ⟨t, ht⟩ := h.tree
  have hu : u32 (0 + buffer.length) = buffer.length := by rw [Nat.zero_add, u32_eq hlt]
  by_cases hkeeps : e.isReg = true → StoreKeeps s e 0 buffer.length
  · left
    obtain ⟨written, offset, r, hwrite, hrew, hfiles⟩ :=
      ktmpfsWrite_rewritten ht.tree h.files hnode he hlen hkeeps
    exact ⟨written, offset, r, hwrite, hrew.frame.root, nodes_congr hrew.node,
      fun _ => hrew.grown h hfiles⟩
  rw [Classical.not_imp, StoreKeeps, WriteFits, Nat.zero_add] at hkeeps
  obtain ⟨hreg, hkeeps⟩ := hkeeps
  have hgrow : e.capacity < buffer.length ∧ ¬ s.Allocates buffer.length := by
    by_contra hroom
    exact hkeeps (Or.inl ⟨hlt, fun hcap => by_contra fun ha => hroom ⟨hcap, ha⟩⟩)
  obtain ⟨n, hn, -, rfl⟩ := hnode
  by_cases h0 : (s.kmalloc buffer.length).1 = 0
  · left
    have hrefused := ktmpfsWrite_of_refused (nodeAt_of_obj hn) (entryAt_of_obj he) hreg hlen
      (show e.capacity < u32 (0 + buffer.length) by rw [hu]; exact hgrow.1) (by rw [hu]; exact h0)
    obtain ⟨r, hre, hwrite⟩ := hrefused
    obtain ⟨bytes, hcon, -⟩ := h.files.content _ e (entries_eq_some.2 he)
    have hptr : e.dataPtr = 0 ∨ ∃ data, s.obj e.dataPtr = some (.data data) := by
      rcases hcon with ⟨hzero, -⟩ | ⟨data, hdata, -⟩
      · exact Or.inl hzero
      · exact Or.inr ⟨data, hdata⟩
    exact ⟨0, 0, r, hwrite, krealloc_null_root hre, krealloc_null_nodes hre hptr,
      fun h => absurd rfl h⟩
  · right
    have hchr : kvfsStatIsChr e.stat.mode = false := isChr_of_isReg hreg
    have hre : s.krealloc e.dataPtr buffer.length = none := krealloc_of_small hlen h0 hgrow.2
    refine ⟨?_, by_contra fun hover => hgrow.2 (allocates_of_ne_zero hover h0)⟩
    simp only [Fs.ktmpfsWrite, growData, nodeAt_of_obj hn, entryAt_of_obj he, hchr, hreg, hu, hre,
      ne_zero_of_obj hn, ne_zero_of_obj he, hlen, not_le.2 hgrow.1, or_self, if_false,
      Bool.false_eq_true, Bool.true_eq_false, Option.bind_eq_bind, Option.bind_some, Option.bind_none]

theorem Settles.refl (h : Sound s) (ok : Bool) : Settles s s ok := ⟨rfl, rfl, fun _ => h.grown⟩

/-- The data of a file of the archive. -/
theorem Sound.writeFileData (h : Sound s) {file : Ptr} (hfile : s.IsOpen file) {entry : InitrdEntry}
    (hsize : entry.size < 2 ^ 32) (data : List UInt8) :
    Unpacks s entry.size (s.kinitrdWriteFileData file entry data) := by
  obtain ⟨x, hx, e, hent⟩ := hfile
  have he := entries_eq_some.1 hent
  have hfile0 := ne_zero_of_obj hx
  by_cases h0 : entry.size = 0
  · exact Or.inl ⟨true, s, by simp [kinitrdWriteFileData, hfile0, h0], .refl h true⟩
  have hnothing : ∀ {written offset : Nat}, s.kvfsWrite file 0 (data.take entry.size) =
      some (written, offset, s) → Unpacks s entry.size (s.kinitrdWriteFileData file entry data) :=
    fun {written} _ hwrite => Or.inl ⟨written == entry.size, s,
      by simp [kinitrdWriteFileData, hfile0, h0, hwrite], .refl h _⟩
  by_cases hlen : (data.take entry.size).length = 0
  · exact hnothing (by rw [kvfsWrite, if_pos (Or.inr hlen)]; rfl)
  have hstat := kvfsGetStat_refers (refers_newNode hx) he
  have hkvfs : s.kvfsWrite file 0 (data.take entry.size) =
      if kvfsStatCanWrite e.stat Cred.root = false then some (0, 0, s)
      else s.ktmpfsWrite file 0 (data.take entry.size) := by
    simp only [kvfsWrite, hfile0, hlen, hstat, or_self, if_false, Option.bind_eq_bind,
      Option.bind_some, Option.pure_def]
  by_cases hcan : kvfsStatCanWrite e.stat Cred.root = false
  · exact hnothing (by rw [hkvfs, if_pos hcan])
  rw [if_neg hcan] at hkvfs
  have hle : (data.take entry.size).length ≤ entry.size := List.length_take_le _ _
  rcases h.ktmpfsWrite (refers_newNode hx) he hlen (lt_of_le_of_lt hle hsize) with
    ⟨written, offset, r, hwrite, hroot, hnodes, hgrown⟩ | ⟨hnone, hover⟩
  · refine Or.inl ⟨written == entry.size, r, ?_, hroot, hnodes, fun hall => hgrown ?_⟩
    · simp [kinitrdWriteFileData, hfile0, h0, hkvfs, hwrite]
    · rw [beq_iff_eq] at hall
      rwa [hall]
  · refine Or.inr ⟨?_, ?_⟩
    · simp [kinitrdWriteFileData, hfile0, h0, hkvfs, hnone]
    · unfold Oversized at hover ⊢
      omega

/-! ### Directories and files -/

/-- A directory of the archive. -/
theorem RootOpen.unpackDirectory (hs : RootOpen s root) (entry : InitrdEntry) :
    ∃ ok r, s.kinitrdUnpackDirectory root entry = some (ok, r) ∧ Settles s r ok := by
  by_cases hparts : (kinitrdSplitEntryPath entry).length = 0
  · exact ⟨false, s, by simp [kinitrdUnpackDirectory, hparts],
      (Leaves.refl s).settles fun _ => hs.sound.grown⟩
  obtain ⟨dir, r, hensure, hcarried, hg, -⟩ := hs.ensureDirectory (kinitrdSplitEntryPath entry)
  by_cases hd : dir = 0
  · subst hd
    exact ⟨false, r, by simp [kinitrdUnpackDirectory, hparts, hensure],
      hcarried.null.settles fun _ => hg⟩
  · obtain ⟨r₁, hclose, hleaves, hcloses⟩ := hcarried.step hs hd (.refl r)
    exact ⟨true, r₁, by simp [kinitrdUnpackDirectory, hparts, hensure, hd, hclose],
      hleaves.settles fun _ => hcloses.grown hg⟩

/-- The parent of a file of the archive. -/
theorem RootOpen.resolveFileParent (hs : RootOpen s root) (entry : InitrdEntry) :
    ∃ q name r, s.kinitrdResolveFileParent root entry = some (q, name, r) ∧ Carried root s r q ∧
      Grown s r ∧ (q ≠ 0 → r.IsOpen q) := by
  by_cases hparts : (kinitrdSplitEntryPath entry).length < 2
  · exact ⟨0, [], s, by simp [kinitrdResolveFileParent, hparts], Or.inl (.refl s), hs.sound.grown,
      fun h => absurd rfl h⟩
  · obtain ⟨q, r, hensure, hrest⟩ := hs.ensureDirectory (kinitrdSplitEntryPath entry).dropLast
    exact ⟨q, (kinitrdSplitEntryPath entry).getLastD [], r,
      by simp [kinitrdResolveFileParent, hparts, hensure], hrest⟩

/-- **A file of the archive**: its node and its parent's are closed, whether or not the data have
been written. -/
theorem RootOpen.unpackFile (hs : RootOpen s root) {entry : InitrdEntry}
    (hsize : entry.size < 2 ^ 32) (data : List UInt8) :
    Unpacks s entry.size (s.kinitrdUnpackFile root entry data) := by
  have hroot : root ≠ 0 := by
    obtain ⟨x, hx, -⟩ := hs.isOpen
    exact ne_zero_of_obj hx
  obtain ⟨parent, name, s₁, hresolve, hcarried, hg₁, hopen₁⟩ := hs.resolveFileParent entry
  by_cases hparent : parent = 0
  · subst hparent
    exact Or.inl ⟨false, s₁, by simp [kinitrdUnpackFile, hroot, hresolve],
      hcarried.null.settles fun _ => hg₁⟩
  obtain ⟨file, s₂, hmake, hfile, hg₂, hopen₂⟩ := hg₁.sound.lookupOrMake
    (makes_kvfsCreate (0o644 ||| KVFS_STAT_IFREG)) (makesNoNode_kvfsCreate _) (hopen₁ hparent) name
  have hmake' : s₁.kinitrdOpenOrCreateFile parent name = some (file, s₂) := hmake
  by_cases hf : file = 0
  · subst hf
    obtain ⟨s₃, hclose, hleaves, hcloses⟩ := hcarried.step hs hparent hfile
    exact Or.inl ⟨false, s₃, by simp [kinitrdUnpackFile, hroot, hresolve, hparent, hmake', hclose],
      hleaves.settles fun _ => hcloses.grown (hg₁.trans hg₂)⟩
  rcases hg₂.sound.writeFileData (hopen₂ hf) hsize data with
    ⟨stored, s₃, hwrite, hsettles⟩ | ⟨hnone, hover⟩
  · -- the file is closed, and then its parent
    obtain ⟨s₄, hclose, hleaves, hcloses⟩ :=
      hfile.close (hcarried.rootOpen hs hg₁) hf (.of_nodes hsettles.root hsettles.nodes)
    obtain ⟨s₅, hclose', hleaves', hcloses'⟩ := hcarried.step hs hparent hleaves
    refine Or.inl ⟨stored, s₅, ?_, hleaves'.settles fun hall => ?_⟩
    · simp [kinitrdUnpackFile, hroot, hresolve, hparent, hmake', hf, hwrite, hclose, hclose']
    · exact hcloses'.grown (hcloses.grown ((hg₁.trans hg₂).trans (hsettles.grown hall)))
  · refine Or.inr ⟨?_, hover⟩
    simp [kinitrdUnpackFile, hroot, hresolve, hparent, hmake', hf, hnone]

/-- One entry. -/
theorem RootOpen.unpackEntry (hs : RootOpen s root) {entry : InitrdEntry}
    (hsize : entry.size < 2 ^ 32) (data : List UInt8) :
    Unpacks s entry.size (s.kinitrdUnpackEntry root entry data) := by
  have hroot : root ≠ 0 := by
    obtain ⟨x, hx, -⟩ := hs.isOpen
    exact ne_zero_of_obj hx
  simp only [kinitrdUnpackEntry, if_neg hroot]
  split_ifs
  · exact Or.inl (hs.unpackDirectory entry)
  · exact hs.unpackFile hsize data
  · exact Or.inl ⟨false, s, rfl, .refl hs.sound false⟩

/-! ## The image -/

theorem nameWord_lt (name : CString) (i : Nat) : nameWord name i < 2 ^ 32 := by
  have hbyte : ∀ k, (name.getD k 0).toNat < 256 := fun k => (name.getD k 0).toNat_lt
  have h0 := hbyte i
  have h1 := hbyte (i + 1)
  have h2 := hbyte (i + 2)
  have h3 := hbyte (i + 3)
  rw [nameWord]
  omega

/-- The state after an entry that has been unpacked is as good a start as the one before. -/
theorem Settles.rootOpen (h : Settles s r true) (hs : RootOpen s root) : RootOpen r root :=
  ⟨(h.grown rfl).sound, (Leaves.of_nodes h.root h.nodes).isOpen (h.grown rfl) hs.isOpen⟩

theorem Settles.trans {ok : Bool} (h : Settles s r true) (h' : Settles r r' ok) :
    Settles s r' ok :=
  ⟨h'.root.trans h.root, h'.nodes.trans h.nodes, fun hok => (h.grown rfl).trans (h'.grown hok)⟩

/-- **The loop** leaves the nodes that were there, round by round. -/
theorem RootOpen.unpackLoop (hs : RootOpen s root) {fuel : Nat} {cursor : List UInt8}
    (hfuel : cursor.length < fuel) :
    (∃ ok r, unpackLoop root fuel s cursor = some (ok, r) ∧ Settles s r ok) ∨
      (unpackLoop root fuel s cursor = none ∧ 2 ^ 32 ≤ cursor.length + kmallocPageSize) := by
  induction fuel generalizing s cursor with
  | zero => exact absurd hfuel (Nat.not_lt_zero _)
  | succ fuel ih =>
    have hwidth : sizeofInitrdEntry = 72 := rfl
    simp only [Fs.unpackLoop, Option.bind_eq_bind, Option.pure_def]
    split_ifs with hshort hlast hmore
    · exact Or.inl ⟨false, s, rfl, .refl hs.sound false⟩
    · exact Or.inl ⟨true, s, rfl, .refl hs.sound true⟩
    · exact Or.inl ⟨false, s, rfl, .refl hs.sound false⟩
    have hfits : (readEntry cursor).size ≤ cursor.length - sizeofInitrdEntry := by
      rw [Bool.not_eq_false, kinitrdHasRemainingData, decide_eq_true_eq, List.length_drop] at hmore
      exact hmore
    have hsize : (readEntry cursor).size < 2 ^ 32 := nameWord_lt cursor KINITRD_NAME_MAX
    rcases hs.unpackEntry hsize (cursor.drop sizeofInitrdEntry) with
      ⟨ok, r, hunpack, hsettles⟩ | ⟨hnone, hover⟩
    · rw [hunpack, Option.bind_some]
      cases ok with
      | false => exact Or.inl ⟨false, r, rfl, hsettles⟩
      | true =>
        have hlen : ((cursor.drop sizeofInitrdEntry).drop (readEntry cursor).size).length ≤
            cursor.length - sizeofInitrdEntry := by
          rw [List.length_drop, List.length_drop]
          omega
        rcases ih (hsettles.rootOpen hs) (lt_of_le_of_lt hlen (by omega)) with
          ⟨ok, r', hloop, hrest⟩ | ⟨hloop, hlarge⟩
        · exact Or.inl ⟨ok, r', by simpa using hloop, hsettles.trans hrest⟩
        · exact Or.inr ⟨by simpa using hloop, by omega⟩
    · rw [hnone]
      exact Or.inr ⟨rfl, by unfold Oversized at hover; omega⟩

/-- **Unpacking leaks no node**: whatever the image and wherever the unpacking stops, the nodes in
use are those from before, that of the root among them, as it was.  It stops for every image that
does not begin in the first page; a larger one could ask for more than `kmalloc` can count. -/
theorem unpacking_leaks_no_node (hs : Sound s) (hroot : s.IsOpen root) (image : BootImage) :
    (∀ ok r, s.kinitrdUnpack root image.bytes = some (ok, r) →
      r.nodes = s.nodes ∧ r.obj root = s.obj root) ∧
    (kmallocPageSize ≤ image.start →
      ∃ ok r, s.kinitrdUnpack root image.bytes = some (ok, r)) := by
  have hplaced := image.placed
  have hsettles : (∃ ok r, s.kinitrdUnpack root image.bytes = some (ok, r) ∧ Settles s r ok) ∨
      (s.kinitrdUnpack root image.bytes = none ∧ 2 ^ 32 ≤ image.bytes.length + kmallocPageSize) := by
    rw [kinitrdUnpack]
    split_ifs
    · exact Or.inl ⟨false, s, rfl, .refl hs false⟩
    · exact RootOpen.unpackLoop ⟨hs, hroot⟩ (Nat.lt_succ_self _)
  rcases hsettles with ⟨ok, r, hunpack, h⟩ | ⟨hnone, hlarge⟩
  · refine ⟨fun ok' r' hrun => ?_, fun _ => ⟨ok, r, hunpack⟩⟩
    obtain ⟨rfl, rfl⟩ : ok = ok' ∧ r = r' := by simpa [hunpack] using hrun
    obtain ⟨x, hx, -⟩ := hroot
    refine ⟨h.nodes, ?_⟩
    rw [hx, ← nodes_eq_some, h.nodes, nodes_eq_some, hx]
  · refine ⟨fun ok r hrun => ?_, fun hstart => absurd hlarge (by omega)⟩
    rw [hnone] at hrun
    cases hrun

theorem Fresh.sound {f : Ptr} (h : Fresh s f) : Sound s := ⟨⟨_, h.stands⟩, h.filesSound⟩

/-- One directory in a fresh mount. -/
theorem unpacking_leaks_no_node_one :
    ∃ ok r, mountedRoot.kinitrdUnpack mountedRoot.kvfsRootMountDir oneDirectory.bytes =
      some (ok, r) ∧ r.nodes = mountedRoot.nodes := by
  obtain ⟨f, hfresh⟩ := freshMount_mountedRoot.stands
  obtain ⟨hnodes, htotal⟩ :=
    unpacking_leaks_no_node hfresh.sound hfresh.stands.isOpen_root oneDirectory
  obtain ⟨ok, r, hunpack⟩ := htotal (by decide)
  exact ⟨ok, r, hunpack, (hnodes ok r hunpack).1⟩

end Fs

end DelOs
