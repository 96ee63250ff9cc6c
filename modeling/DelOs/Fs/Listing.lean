import DelOs.Fs.DescriptorCalls
import DelOs.Fs.Mount

/-!
# Listing a directory

`kfd_readdir` counts from the head of the list of children at every call, `ktmpfs_lookup` compares
names along it.

* `TmpfsEntry.dirent`, `direntOf` — what `fill_out_dirent` says of an entry.
* `OpenDir` — a descriptor of a directory that may be read.
* `OpenDir.kfdReaddir` — **a call returns the child at the offset**, and moves the offset on.
* `OpenDir.kvfsLookup` — **a lookup finds the child of the name**, if there is memory for its node.
* `listing_agrees`, `listed_and_refused` — the calls list each child once, and what they list is
  what can be looked up; without memory it is not.
-/

namespace DelOs

open FirstFit LinkedList Transition

/-- `fill_out_dirent`, for an entry. -/
def TmpfsEntry.dirent (e : TmpfsEntry) : Dirent :=
  { inode := 0, type := kvfsStatType e.stat.mode, name := e.name }

/-- What a listing says of an entry. -/
def direntOf (m : Entries) (q : Ptr) : Option Dirent := (m q).map TmpfsEntry.dirent

/-- The name of an entry is the one that a listing gives. -/
theorem nameOf_eq_direntOf (m : Entries) (q : Ptr) :
    nameOf m q = ((direntOf m q).map Dirent.name).getD [] := by
  cases hq : m q <;> simp [nameOf, direntOf, hq, TmpfsEntry.dirent]

namespace Fs

variable {s r : Fs} {proc : Nat} {fd : Int} {dir : Ptr} {d : FileDesc} {e : TmpfsEntry}
  {l : List Ptr}

/-- The descriptor stands for a directory with the children `l`, which may be read through it. -/
structure OpenDir (s : Fs) (proc : Nat) (fd : Int) (dir : Ptr) (d : FileDesc) (e : TmpfsEntry)
    (l : List Ptr) : Prop extends Descriptor s proc fd d dir e where
  readable : kfdCheckAccess d KFD_ACCESS_READ = true
  isDir : e.isDir = true
  list : IsList (nextOf s.entries) e.child l

theorem isList_direntOf {m : Entries} {p : Ptr} (h : IsList (nextOf m) p l) {q : Ptr}
    (hq : q ∈ l) : ∃ out, direntOf m q = some out := by
  obtain ⟨e, he⟩ := isList_entry h hq
  exact ⟨e.dirent, by rw [direntOf, he]; rfl⟩

/-! ## Reading -/

/-- `fill_out_dirent` at an index of a list of entries. -/
theorem fillOutDirent_isList {p : Ptr} (h : IsList (nextOf s.entries) p l) (index : Nat) :
    s.fillOutDirent (l[index]?.getD 0) = some (l[index]?.bind (direntOf s.entries)) := by
  cases hx : l[index]? with
  | none => simp [fillOutDirent]
  | some x =>
    have hmem := List.mem_of_getElem? hx
    obtain ⟨e, he⟩ := isList_entry h hmem
    simp [fillOutDirent, h.ne_zero hmem, entryAt_of_obj (entries_eq_some.1 he), direntOf, he,
      TmpfsEntry.dirent]

/-- An access time changes no link and nothing that is listed. -/
theorem entries_put_atime (he : s.obj dir = some (.entry e)) :
    nextOf (s.put dir (.entry { e with stat := kvfsStatUpdateAtime e.stat })).entries =
        nextOf s.entries ∧
      direntOf (s.put dir (.entry { e with stat := kvfsStatUpdateAtime e.stat })).entries =
        direntOf s.entries := by
  have hent := entries_put (s := s) (p := dir) (by simp [he])
    { e with stat := kvfsStatUpdateAtime e.stat }
  have hold := entries_eq_some.2 he
  constructor
  · funext q
    rw [nextOf, nextOf, hent, Function.update_apply]
    split_ifs with hq
    · simp [hq, hold]
    · rfl
  · funext q
    rw [direntOf, direntOf, hent, Function.update_apply]
    split_ifs with hq
    · simp [hq, hold, TmpfsEntry.dirent, kvfsStatUpdateAtime]
    · rfl

/-- **`kfd_readdir` returns the child at the offset**, and moves the offset on. -/
theorem OpenDir.kfdReaddir (h : OpenDir s proc fd dir d e l) :
    ∃ r, s.kfdReaddir proc fd = some (l[d.offset]?.bind (direntOf s.entries), r) ∧
      OpenDir r proc fd dir { d with offset := u32 (d.offset + 1) }
        { e with stat := kvfsStatUpdateAtime e.stat } l ∧
      direntOf r.entries = direntOf s.entries ∧ Frame s r := by
  set e' := { e with stat := kvfsStatUpdateAtime e.stat } with he'
  set s₁ := s.put dir (.entry e') with hs₁
  obtain ⟨hnext, hdirent⟩ := entries_put_atime h.entry
  have hobj₁ : s₁.obj = Function.update s.obj dir (some (.entry e')) :=
    obj_put (by simp [h.entry]) _
  have hne : s.kfdGet proc fd ≠ dir := by
    intro heq
    have hdesc := h.desc
    rw [heq, h.entry] at hdesc
    cases hdesc
  have hdesc₁ : s₁.obj (s.kfdGet proc fd) = some (.desc d) := by
    rw [hobj₁, Function.update_of_ne hne, h.desc]
  have hlist₁ : IsList (nextOf s₁.entries) e.child l := h.list.congr fun q _ => by rw [hnext]
  obtain ⟨n, hn, hops, hpriv⟩ := h.node
  -- the walk is made behind the change of the access time
  have hread : s.ktmpfsReaddir d.node d.offset =
      some (l[d.offset]?.bind (direntOf s.entries), u32 (d.offset + 1), s₁) := by
    have hwalk := nthChild_isList hlist₁ d.offset
    have hout := fillOutDirent_isList hlist₁ d.offset
    rw [hdirent] at hout
    simp only [ktmpfsReaddir, if_neg (ne_zero_of_obj hn), nodeAt_of_obj hn, hpriv,
      entryAt_of_obj h.entry, ← he', ← hs₁, hwalk, hout, Option.bind_eq_bind, Option.bind_some,
      Option.pure_def]
  have hdir : kvfsStatIsDir e.stat.mode = true := h.isDir
  have hkvfs : s.kvfsReaddir d.node d.offset =
      some (l[d.offset]?.bind (direntOf s.entries), u32 (d.offset + 1), s₁) := by
    simp [kvfsReaddir, h.node_ne_zero, kvfsGetStat_refers h.node h.entry, hdir, hread]
  have hacc := kfdAccess_spec KFD_ACCESS_READ (kvfsStatIsDir ·.mode) h.desc h.node h.entry
  simp only [h.readable, hdir, Bool.and_self, if_true] at hacc
  have hset := setOffset_spec hdesc₁ (u32 (d.offset + 1))
  have hget : s₁.kfdGet proc fd = s.kfdGet proc fd := rfl
  have hobj : (s₁.put (s.kfdGet proc fd) (.desc { d with offset := u32 (d.offset + 1) })).obj =
      Function.update s₁.obj (s.kfdGet proc fd)
        (some (.desc { d with offset := u32 (d.offset + 1) })) := obj_put (by simp [hdesc₁]) _
  have hentries : (s₁.put (s.kfdGet proc fd)
      (.desc { d with offset := u32 (d.offset + 1) })).entries = s₁.entries :=
    entries_update hobj (by simp [hdesc₁]) (by simp)
  refine ⟨s₁.put (s.kfdGet proc fd) (.desc { d with offset := u32 (d.offset + 1) }), ?_,
    ⟨⟨?_, ⟨n, ?_, hops, hpriv⟩, ?_⟩, h.readable, h.isDir, ?_⟩, ?_,
    (frame_put s dir _).trans (frame_put s₁ _ _)⟩
  · simp only [Fs.kfdReaddir, hacc, hkvfs, hget, hset, Option.bind_eq_bind, Option.bind_some,
      Option.pure_def]
  · exact (congrFun hobj _).trans (Function.update_self ..)
  · have hnd : d.node ≠ s.kfdGet proc fd := by
      intro heq
      rw [heq, h.desc] at hn
      cases hn
    have hndir : d.node ≠ dir := by
      intro heq
      rw [heq, h.entry] at hn
      cases hn
    rw [hobj, Function.update_of_ne hnd, hobj₁, Function.update_of_ne hndir, hn]
  · rw [hobj, Function.update_of_ne hne.symm, hobj₁, Function.update_self]
  · rw [hentries]
    exact hlist₁
  · rw [hentries, hdirent]

/-! ## Looking up -/

/-- **`kvfs_lookup` makes a node of the child of the name**, if there is one, and memory. -/
theorem OpenDir.kvfsLookup (h : OpenDir s proc fd dir d e l) {node : Ptr}
    (hnode : s.Refers node dir) {name : CString} (hdot : name ≠ dotName)
    (hdotDot : name ≠ dotDotName) :
    s.kvfsLookup node name = some
      (s.ktmpfsCreateVfsNode ((l.find? fun q => nameOf s.entries q = name).getD 0)) := by
  have hentries : ∀ q ∈ l, ∃ e, s.entries q = some e := fun q hq => isList_entry h.list hq
  obtain ⟨prev, hwalk⟩ := walkChildren_name 0 name h.list hentries
    (Nat.lt_succ_of_le (length_kids_le h.list hentries))
  have hstat := kvfsGetStat_refers hnode h.entry
  obtain ⟨n, hn, -, hpriv⟩ := hnode
  have hfind : s.findEntry dir name =
      some ((l.find? fun q => nameOf s.entries q = name).getD 0) := by
    simp [findEntry, entryAt_of_obj h.entry, h.isDir, hdot, hdotDot, hwalk]
  simp [Fs.kvfsLookup, hstat, ktmpfsLookup, ne_zero_of_obj hn, nodeAt_of_obj hn, hpriv,
    ne_zero_of_obj h.entry, hfind]

/-- The node that a lookup makes for an entry, if the allocator has a block for it. -/
theorem ktmpfsCreateVfsNode_cases {x : Ptr} (hx : x ≠ 0) :
    ((s.ktmpfsCreateVfsNode x).1 = (s.kmalloc sizeofVfsNode).1) ∧
      ((s.ktmpfsCreateVfsNode x).1 ≠ 0 →
        (s.ktmpfsCreateVfsNode x).2.obj (s.ktmpfsCreateVfsNode x).1 =
          some (.node (newNode x))) := by
  have halloc := ktmpfsCreateVfsNode_spec (s := s) hx
  constructor
  · simp only [ktmpfsCreateVfsNode, if_neg hx, new]
    split_ifs with h0
    · exact h0.symm
    · rfl
  · intro hq
    rcases halloc.made with ⟨h0, -⟩ | ⟨-, -, hobj⟩
    · exact absurd h0 hq
    · rw [hobj, Function.update_self]

/-! ## The listing and the lookups -/

/-- One call of `kfd_readdir`, as a step of a machine. -/
def readdirStep (proc : Nat) (fd : Int) (s : Fs) (_ : Unit) : Option (Option Dirent × Fs) :=
  s.kfdReaddir proc fd

/-- Some calls from an offset on return the children from there on. -/
theorem OpenDir.readdirs (h : OpenDir s proc fd dir d e l) {n : Nat} (hn : d.offset + n ≤ 2 ^ 32) :
    ∃ r d' e', outputs (readdirStep proc fd) s (List.replicate n ()) =
        some ((List.range' d.offset n).map fun i => l[i]?.bind (direntOf s.entries), r) ∧
      OpenDir r proc fd dir d' e' l ∧ direntOf r.entries = direntOf s.entries := by
  induction n generalizing s d e with
  | zero => exact ⟨s, d, e, rfl, h, rfl⟩
  | succ n ih =>
    obtain ⟨s₁, hread, h₁, hdirent, -⟩ := h.kfdReaddir
    cases n with
    | zero =>
      exact ⟨s₁, _, _, by simp [outputs, readdirStep, hread], h₁, hdirent⟩
    | succ n =>
      have hoff : u32 (d.offset + 1) = d.offset + 1 := by
        unfold u32
        omega
      rw [hoff] at h₁
      obtain ⟨r, d', e', houts, hr, hdirent'⟩ := ih h₁ (by simp only; omega)
      refine ⟨r, d', e', ?_, hr, hdirent'.trans hdirent⟩
      rw [List.replicate_succ, outputs, readdirStep, hread]
      simp only [Option.bind_eq_bind, Option.bind_some, houts, Option.pure_def, hdirent]
      rfl

/-- Reading a list at the indices below a number. -/
theorem map_getElem?_range {α : Type} (l : List α) (n : Nat) :
    (List.range n).map (fun i => l[i]?) = (l.map some ++ List.replicate n none).take n := by
  apply List.ext_getElem?
  intro i
  by_cases hi : i < n
  · rw [List.getElem?_take, if_pos hi, List.getElem?_map, List.getElem?_range hi]
    by_cases hl : i < l.length
    · rw [List.getElem?_append_left (by simpa using hl)]
      simp [hl]
    · rw [List.getElem?_append_right (by simpa using hl)]
      simp only [List.length_map, List.getElem?_replicate, Option.map_some]
      rw [if_pos (by omega), List.getElem?_eq_none (by omega)]
  · rw [List.getElem?_eq_none (by simpa using hi), List.getElem?_eq_none (by simp; omega)]

/-- **The listing and the lookups agree**: the calls on a fresh descriptor list each child once, in
the order of the list, and nothing from there on; and then a name is found if it has been listed
(once all the children are) and there is memory for a node, which is a node of the entry listed. -/
theorem listing_agrees (h : OpenDir s proc fd dir d e l) (hfresh : d.offset = 0)
    (hnames : (l.map (nameOf s.entries)).Nodup) {n : Nat} (hn : n ≤ 2 ^ 32) :
    ∃ r, outputs (readdirStep proc fd) s (List.replicate n ()) =
        some ((l.map (direntOf s.entries) ++ List.replicate n none).take n, r) ∧
      (∀ x ∈ l, ∃ out, direntOf s.entries x = some out ∧
        ∀ y ∈ l, ∀ out', direntOf s.entries y = some out' → out'.name = out.name → y = x) ∧
      ∀ node name, r.Refers node dir → name ≠ dotName → name ≠ dotDotName →
        ∃ q r', r.kvfsLookup node name = some (q, r') ∧
          (q ≠ 0 ↔ (∃ x ∈ l, ∃ out, direntOf s.entries x = some out ∧ out.name = name) ∧
            (r.kmalloc sizeofVfsNode).1 ≠ 0) ∧
          (q ≠ 0 → ∃ x ∈ l, ∃ out, direntOf s.entries x = some out ∧ out.name = name ∧
            r'.obj q = some (.node (newNode x))) := by
  obtain ⟨r, d', e', houts, hr, hdirent⟩ := h.readdirs (n := n) (by omega)
  have hname : ∀ q out, direntOf s.entries q = some out → nameOf s.entries q = out.name := by
    intro q out hout
    rw [nameOf_eq_direntOf, hout, Option.map_some, Option.getD_some]
  have hdistinct : ∀ x ∈ l, ∀ y ∈ l, nameOf s.entries y = nameOf s.entries x → y = x :=
    fun x hx y hy heq => List.inj_on_of_nodup_map hnames hy hx heq
  refine ⟨r, ?_, fun x hx => ?_, fun node name hnode hdot hdotDot => ?_⟩
  · have hlist : (List.range n).map (fun i => l[i]?.bind (direntOf s.entries)) =
        (l.map (direntOf s.entries) ++ List.replicate n none).take n := by
      have hbind := congrArg (List.map fun o : Option Ptr => o.bind (direntOf s.entries))
        (map_getElem?_range l n)
      simpa [List.map_take, Function.comp_def] using hbind
    rw [houts, hfresh, ← List.range_eq_range', hlist]
  · obtain ⟨out, hout⟩ := isList_direntOf h.list hx
    refine ⟨out, hout, fun y hy out' hout' heq => hdistinct x hx y hy ?_⟩
    rw [hname x out hout, hname y out' hout', heq]
  · have hnames' : ∀ q, nameOf r.entries q = nameOf s.entries q := by
      intro q
      rw [nameOf_eq_direntOf, nameOf_eq_direntOf, hdirent]
    have hlook := hr.kvfsLookup hnode hdot hdotDot
    simp only [hnames'] at hlook
    rcases hmake : r.ktmpfsCreateVfsNode
      ((l.find? fun q => nameOf s.entries q = name).getD 0) with ⟨q, r'⟩
    rw [hmake] at hlook
    refine ⟨q, r', hlook, ?_⟩
    cases hfind : l.find? fun q => decide (nameOf s.entries q = name) with
    | none =>
      -- no child has the name
      rw [hfind] at hmake
      obtain rfl : 0 = q := congrArg Prod.fst hmake
      refine ⟨⟨fun h0 => absurd rfl h0, fun ⟨⟨x, hx, out, hout, heq⟩, _⟩ => ?_⟩,
        fun h0 => absurd rfl h0⟩
      have hnot := List.find?_eq_none.1 hfind x hx
      exact absurd ((hname x out hout).trans heq) (by simpa using hnot)
    | some x =>
      have hx : x ∈ l := List.mem_of_find?_eq_some hfind
      have heq : nameOf s.entries x = name := by simpa using List.find?_some hfind
      obtain ⟨out, hout⟩ := isList_direntOf h.list hx
      have hlisted : out.name = name := (hname x out hout).symm.trans heq
      obtain ⟨hmem, hmade⟩ := ktmpfsCreateVfsNode_cases (s := r) (h.list.ne_zero hx)
      rw [hfind, Option.getD_some] at hmake
      rw [hmake] at hmem hmade
      refine ⟨?_, fun hq => ⟨x, hx, out, hout, hlisted, hmade hq⟩⟩
      rw [← hmem]
      exact ⟨fun hq => ⟨⟨x, hx, out, hout, hlisted⟩, hq⟩, fun hq => hq.2⟩

/-! ## A heap that is full -/

/-- The root directory with a file `f`, both the root and a descriptor of it in use, and no page for
the allocations to come. -/
def fullRoot : Fs where
  heap := [⟨4084, false, .desc ⟨4, 0, KVFS_O_RDONLY, 1⟩⟩, ⟨4084, false, .node (newNode 1)⟩,
    ⟨4084, false, .entry (newEntry [0x66] 0 1 KVFS_STAT_IFREG)⟩,
    ⟨4084, false, .node (newNode 1)⟩,
    ⟨4084, false, .entry { rootEntry with child := 3, stat := kvfsStatIncNlink rootEntry.stat }⟩]
  kvfsRootMountDir := 2
  kvfsCwd := 2
  fds := fun _ fd => if fd = 0 then 5 else 0
  pages := fun _ => false
  junk := fun _ => 0

theorem openDir_fullRoot : OpenDir fullRoot 0 0 1 ⟨4, 0, KVFS_O_RDONLY, 1⟩
    { rootEntry with child := 3, stat := kvfsStatIncNlink rootEntry.stat } [3] where
  desc := rfl
  node := ⟨newNode 1, rfl, rfl, rfl⟩
  entry := rfl
  readable := by decide
  isDir := by decide
  list := ⟨rfl, by decide, 0, rfl, rfl⟩

/-- The listing of that directory. -/
theorem listing_agrees_fullRoot : ∃ r, outputs (readdirStep 0 0) fullRoot (List.replicate 3 ()) =
    some ([some ⟨0, kvfsStatType KVFS_STAT_IFREG, [0x66]⟩, none, none], r) := by
  obtain ⟨r, houts, -⟩ := listing_agrees openDir_fullRoot rfl (by decide) (n := 3) (by decide)
  exact ⟨r, houts⟩

/-- **A name that is listed cannot be looked up** where there is no memory for a node. -/
theorem listed_and_refused : OpenDir fullRoot 0 0 1 ⟨4, 0, KVFS_O_RDONLY, 1⟩
      { rootEntry with child := 3, stat := kvfsStatIncNlink rootEntry.stat } [3] ∧
    ([3].map (nameOf fullRoot.entries)).Nodup ∧ fullRoot.Refers 4 1 ∧
    ((outputs (readdirStep 0 0) fullRoot [(), ()]).map fun o => o.1.map (Option.map Dirent.name)) =
      some [some [0x66], none] ∧
    ((fullRoot.kvfsLookup 4 [0x66]).map Prod.fst) = some 0 :=
  ⟨openDir_fullRoot, by decide, by decide, by decide, by decide⟩

end Fs

end DelOs
