import DelOs.Fs.Names
import DelOs.Lib.PathTree

/-!
# What a file system holds

The entries of the tmpfs as a tree of directories and files (`PathTree`): what each path leads to.

* `At` — the names of a path lead from the root to an entry.
* `IsNode` — the entry is a directory, or a file that holds some bytes.
* `Represents` — **the file system holds exactly the given tree**.
* `Represents.make`, `Represents.write` — a new entry and a first write, on the tree.
-/

namespace DelOs

open FirstFit Splice

namespace Fs

variable {s r : Fs} {t : OrderedTree Ptr} {F : PathTree CString (List UInt8)}

/-- The names `path` lead from the root to the entry `q`. -/
def At (s : Fs) (t : OrderedTree Ptr) (path : List CString) (q : Ptr) : Prop :=
  t.PathTo (nameOf s.entries) path q

/-- What the entry `q` is: a directory, or a file that holds some bytes. -/
def IsNode (s : Fs) (q : Ptr) : PathNode (List UInt8) → Prop
  | .dir => ∃ e, s.entries q = some e ∧ e.isDir = true
  | .file bytes => s.FileHolds q bytes

/-- The entries of `t` are the directories and files of `F`, each at its path. -/
structure Represents (s : Fs) (t : OrderedTree Ptr) (F : PathTree CString (List UInt8)) : Prop where
  tree : TreeStored s.entries t
  named : WellNamed s.entries t
  node : ∀ path q, s.At t path q → ∃ n, F path = some n ∧ s.IsNode q n
  found : ∀ path, F path ≠ none → ∃ q, s.At t path q

/-- An entry is one thing. -/
theorem IsNode.unique {q : Ptr} {n n' : PathNode (List UInt8)} (h : s.IsNode q n)
    (h' : s.IsNode q n') : n = n' := by
  have hne : ∀ {bytes}, s.IsNode q .dir → ¬ s.IsNode q (.file bytes) := by
    rintro bytes ⟨e, he, hdir⟩ ⟨e', he', hh⟩
    obtain rfl : e = e' := by simpa [entries_eq_some.1 he] using he'
    have hreg := hh.isReg
    rw [TmpfsEntry.isReg, isReg_of_isDir hdir] at hreg
    cases hreg
  cases n with
  | dir =>
    cases n' with
    | dir => rfl
    | file bytes => exact absurd h' (hne h)
  | file bytes =>
    cases n' with
    | dir => exact absurd h (hne h')
    | file bytes' => rw [FileHolds.unique h h']

/-- What an entry is, it stays as long as its file and the data of the file stay. -/
theorem IsNode.kept {q : Ptr} {n : PathNode (List UInt8)} (h : s.IsNode q n)
    (hkept : ∀ e, s.entries q = some e → ∃ e', r.entries q = some e' ∧ SameFile e e')
    (hdata : ∀ p bytes, s.obj p = some (.data bytes) → r.obj p = some (.data bytes)) :
    r.IsNode q n := by
  cases n with
  | dir =>
    obtain ⟨e, he, hdir⟩ := h
    obtain ⟨e', he', hsame⟩ := hkept e he
    exact ⟨e', he', by simpa [TmpfsEntry.isDir, hsame.mode] using hdir⟩
  | file bytes =>
    obtain ⟨e, he, hh⟩ := h
    obtain ⟨e', he', hsame⟩ := hkept e (entries_eq_some.2 he)
    have hh' := hh.congr fun data => hdata e.dataPtr data
    refine ⟨e', entries_eq_some.1 he', ?_, ?_, ?_, ?_⟩
    · simpa [TmpfsEntry.isReg, hsame.mode] using hh'.isReg
    · rw [hsame.size, hh'.size]
    · rw [hsame.statSize, hh'.statSize]
    · simpa [Content, hsame.dataPtr, hsame.capacity] using hh'.content

/-- Behind the creation of an entry the old paths lead where they led, and one more leads to it. -/
theorem at_insertEntry {path p : List CString} {d x q : Ptr} {e : TmpfsEntry} {name : CString}
    {mode : Nat} (hd : s.At t path d) (he : s.entries d = some e) (hmem : t.Mem d)
    (hnew : ¬ t.Mem x) (hent : r.entries = insertEntry s.entries d x e name mode) :
    r.At (t.insertLeaf d x hmem hnew) p q ↔ s.At t p q ∨ (q = x ∧ p = path ++ [name]) := by
  have hdx : d ≠ x := by
    rintro rfl
    exact hnew hmem
  have hxname : nameOf r.entries x = name := by rw [hent, nameOf_insertEntry_new hdx]
  -- the entries that were there keep their names, and their paths with them
  have hlabel : ∀ q, t.Mem q → nameOf r.entries q = nameOf s.entries q := by
    intro q hq
    rw [hent]
    refine nameOf_insertEntry he ?_
    rintro rfl
    exact hnew hq
  have hold : ∀ {p q}, s.At t p q → t.PathTo (nameOf r.entries) p q := fun hp => hp.congr hlabel
  have hback : ∀ {p q}, t.PathTo (nameOf r.entries) p q → s.At t p q := fun hp =>
    hp.congr fun q hq => (hlabel q hq).symm
  unfold At
  rw [OrderedTree.pathTo_insertLeaf, hxname]
  constructor
  · rintro (hp | ⟨hq, p', hp', rfl⟩)
    · exact Or.inl (hback hp)
    · rw [hd.path_unique (hback hp')]
      exact Or.inr ⟨hq, rfl⟩
  · rintro (hp | ⟨hq, hp⟩)
    · exact Or.inl (hold hp)
    · exact Or.inr ⟨hq, path, hold hd, hp⟩

namespace Represents

theorem at_unique (h : Represents s t F) {path : List CString} {q q' : Ptr} (hq : s.At t path q)
    (hq' : s.At t path q') : q = q' :=
  hq.unique h.named.distinct hq'

/-- A path leads to a directory or a file of the tree if and only if it leads to an entry that is
one. -/
theorem eq_some_iff (h : Represents s t F) {path : List CString} {n : PathNode (List UInt8)} :
    F path = some n ↔ ∃ q, s.At t path q ∧ s.IsNode q n := by
  constructor
  · intro hn
    obtain ⟨q, hq⟩ := h.found path (by simp [hn])
    obtain ⟨n', hn', hnode⟩ := h.node path q hq
    obtain rfl : n = n' := by simpa [hn] using hn'
    exact ⟨q, hq, hnode⟩
  · rintro ⟨q, hq, hnode⟩
    obtain ⟨n', hn', hnode'⟩ := h.node path q hq
    rw [hn', hnode.unique hnode']

/-- An entry that the tree has as a directory is one. -/
theorem isDir (h : Represents s t F) {path : List CString} {q : Ptr} (hq : s.At t path q)
    (hF : F path = some .dir) : ∃ e, s.entries q = some e ∧ e.isDir = true := by
  obtain ⟨q', hq', hnode⟩ := h.eq_some_iff.1 hF
  obtain rfl := h.at_unique hq hq'
  exact hnode

/-- Only directories have something below them. -/
theorem closed (h : Represents s t F) : F.Closed := by
  constructor
  · obtain ⟨e, he⟩ := (h.tree.mem _).1 t.root_mem
    exact h.eq_some_iff.2 ⟨t.root, .root, e, he, h.tree.root_isDir e he⟩
  · intro path name hF
    obtain ⟨q, hq⟩ := h.found _ hF
    obtain ⟨p, hp, hkid, -⟩ := OrderedTree.pathTo_snoc.1 hq
    obtain ⟨e, he⟩ := (h.tree.mem p).1 (t.kid_mem hkid).1
    exact h.eq_some_iff.2 ⟨p, hp, e, he, h.tree.isDir_of_kid he hkid⟩

/-- What a file system holds does not depend on nodes and descriptors. -/
theorem congr (h : Represents s t F) (hent : r.entries = s.entries)
    (hdata : ∀ p bytes, s.obj p = some (.data bytes) → r.obj p = some (.data bytes)) :
    Represents r t F := by
  have hat : ∀ path q, r.At t path q ↔ s.At t path q := by
    intro path q
    unfold At
    rw [hent]
  refine ⟨by rw [hent]; exact h.tree, by rw [hent]; exact h.named, fun path q hq => ?_,
    fun path hF => ?_⟩
  · obtain ⟨n, hn, hnode⟩ := h.node path q ((hat path q).1 hq)
    exact ⟨n, hn, hnode.kept (fun e he => ⟨e, by rw [hent, he], SameFile.refl e⟩) hdata⟩
  · obtain ⟨q, hq⟩ := h.found path hF
    exact ⟨q, (hat path q).2 hq⟩

/-- **A new entry is a new directory or file of the tree.** -/
theorem make (h : Represents s t F) {path : List CString} {d : Ptr} (hd : s.At t path d)
    {e : TmpfsEntry} (he : s.entries d = some e) (hdir : e.isDir = true) {x : Ptr}
    (hx : s.entries x = none) (hx0 : x ≠ 0) {name : CString} (hname : Proper name) {mode : Nat}
    (hmode : kvfsStatIsDir mode = true ∨ kvfsStatIsReg mode = true)
    (hfree : findIn s.entries t d name = 0) (hkeeps : Keeps s r)
    (hent : r.entries = insertEntry s.entries d x e name mode) {n : PathNode (List UInt8)}
    (hnode : r.IsNode x n) :
    ∃ t', Represents r t' (Function.update F (path ++ [name]) (some n)) ∧
      r.At t' (path ++ [name]) x ∧ (∀ p q, s.At t p q → r.At t' p q) ∧
      findIn r.entries t' d name = x := by
  have hmem : t.Mem d := hd.mem
  have hnew := h.tree.not_mem hx
  have hchange : TreeChange True s.entries r.entries t 0 x (t.insertLeaf d x hmem hnew) :=
    .insert he hdir hx hx0 hmode hmem hnew ⟨hname.nonempty, hname.fits⟩ (fun _ => hfree) hent
  have hat : ∀ {p q}, r.At (t.insertLeaf d x hmem hnew) p q ↔
      s.At t p q ∨ (q = x ∧ p = path ++ [name]) := at_insertEntry hd he hmem hnew hent
  -- nothing was at the new path
  have hnone : ∀ q, ¬ s.At t (path ++ [name]) q := by
    intro q hq
    obtain ⟨p, hp, hkid, heq⟩ := OrderedTree.pathTo_snoc.1 hq
    obtain rfl := h.at_unique hd hp
    exact (findIn_eq_zero h.tree he hdir hfree).2.2 q hkid heq
  refine ⟨t.insertLeaf d x hmem hnew, ⟨hchange.stored h.tree, h.named.change h.tree hchange trivial,
    fun p q hq => ?_, fun p hp => ?_⟩, hat.2 (Or.inr ⟨rfl, rfl⟩), fun p q hq => hat.2 (Or.inl hq), ?_⟩
  · rcases hat.1 hq with hq | ⟨rfl, rfl⟩
    · have hne : p ≠ path ++ [name] := by
        rintro rfl
        exact hnone q hq
      obtain ⟨n', hn', hnode'⟩ := h.node p q hq
      refine ⟨n', by rw [Function.update_of_ne hne, hn'], hnode'.kept (fun e' he' => ?_)
        fun p' bytes hp' => hkeeps.other _ _ hp' (by simp)⟩
      exact hchange.kept he' (ne_zero_of_obj (entries_eq_some.1 he'))
    · exact ⟨n, Function.update_self _ _ _, hnode⟩
  · rw [Function.update_apply] at hp
    split_ifs at hp with heq
    · exact ⟨x, hat.2 (Or.inr ⟨rfl, heq⟩)⟩
    · obtain ⟨q, hq⟩ := h.found p hp
      exact ⟨q, hat.2 (Or.inl hq)⟩
  · rw [hent]
    exact findIn_insert h.tree he hdir hx hmem hnew hfree

/-- **A first write to a file makes it hold other bytes.** -/
theorem write (h : Represents s t F) {path : List CString} {file : Ptr} (hat : s.At t path file)
    {e e' : TmpfsEntry} (he : s.entries file = some e) (hzero : e.dataPtr = 0)
    {data bytes : List UInt8} (hrew : Rewrites s r file e e' data) (hsame : SameLinks e e')
    (hholds : Holds r e' bytes) :
    Represents r t (PathTree.putFile F path bytes) ∧ ∀ p q, s.At t p q → r.At t p q := by
  have hobj := entries_eq_some.1 he
  have hdead : s.obj e'.dataPtr = none :=
    hrew.block.resolve_left fun heq => hrew.ne_zero (heq.trans hzero)
  have hne : file ≠ e'.dataPtr := by
    intro heq
    rw [heq, hdead] at hobj
    cases hobj
  have hrobj : r.obj = Function.update (Function.update s.obj e'.dataPtr (some (.data data))) file
      (some (.entry e')) := by
    have hnull : Function.update s.obj 0 none = s.obj := by
      rw [← obj_zero s, Function.update_eq_self]
    rw [hrew.obj, hzero, hnull]
  have hent : r.entries = Function.update s.entries file (some e') :=
    hrew.entries (by rw [hzero, h.tree.zero])
  have hname : nameOf r.entries = nameOf s.entries := by
    funext q
    by_cases hq : q = file
    · simp [nameOf, hent, hq, he, hsame.name]
    · simp [nameOf, hent, hq]
  have hAt : ∀ p q, r.At t p q ↔ s.At t p q := by
    intro p q
    unfold At
    rw [hname]
  refine ⟨⟨h.tree.congr ?_, ?_, fun p q hq => ?_, fun p hp => ?_⟩,
    fun p q hq => (hAt p q).2 hq⟩
  · rw [hent]
    exact samePlaces_update he hsame
  · refine ⟨fun d q hq => ?_, fun d q q' hq hq' heq => ?_⟩
    · rw [hname]
      exact h.named.proper d q hq
    · rw [hname] at heq
      exact h.named.distinct d q q' hq hq' heq
  · have hq := (hAt p q).1 hq
    rw [PathTree.putFile, Function.update_apply]
    split_ifs with heq
    · obtain rfl := h.at_unique hat (heq ▸ hq)
      exact ⟨_, rfl, e', by rw [hrobj, Function.update_self], hholds⟩
    · have hqf : q ≠ file := by
        rintro rfl
        exact heq (hq.path_unique hat)
      obtain ⟨n, hn, hnode⟩ := h.node p q hq
      refine ⟨n, hn, ?_⟩
      cases n with
      | dir =>
        obtain ⟨e₀, he₀, hdir⟩ := hnode
        exact ⟨e₀, by rw [hent, Function.update_of_ne hqf, he₀], hdir⟩
      | file bytes₀ =>
        obtain ⟨e₀, he₀, hh⟩ := hnode
        have hq' : r.entries q = some e₀ := by
          rw [hent, Function.update_of_ne hqf, entries_eq_some.2 he₀]
        refine ⟨e₀, entries_eq_some.1 hq', hh.congr fun d hd => ?_⟩
        -- the block of another file is neither the entry nor the new block
        rw [hrobj, Function.update_of_ne, Function.update_of_ne, hd]
        · intro heq
          rw [heq, hdead] at hd
          cases hd
        · intro heq
          rw [heq, hobj] at hd
          cases hd
  · rw [PathTree.putFile, Function.update_apply] at hp
    split_ifs at hp with heq
    · exact ⟨file, (hAt p file).2 (heq ▸ hat)⟩
    · obtain ⟨q, hq⟩ := h.found p hp
      exact ⟨q, (hAt p q).2 hq⟩

end Represents

end Fs

end DelOs
