import DelOs.Fs.Listing
import DelOs.Lib.ListCursor

/-!
# Listing a directory that changes

The offset of a descriptor is a count from the head of the list of children, where new entries are
inserted, and from which others are taken out.

* `Fs.childrenOf`, `Fs.readdirChild` — the children of a directory; the one that a call reads.
* `DirScan`, `dirScanStep` — a listing between creations and removals, up to the first `KO_FALSE`.
* `Steady` — a creation before the first reading, a removal behind the offset; either of them once
  everything has been read.
* `Follows` — the listing is a reader of the list of children (`Cursor`).
* `iteration_of_run`, `iteration_astray` — **steady changes leave a listing complete**; the others do
  not.
-/

namespace DelOs

open FirstFit LinkedList Transition

namespace Fs

variable {s r : Fs} {proc : Nat} {fd : Int} {dir : Ptr} {d : FileDesc} {e : TmpfsEntry}
  {l : List Ptr}

/-! ## The children of a directory -/

/-- The entries from a pointer on. -/
def listFrom (s : Fs) : Nat → Ptr → List Ptr
  | 0, _ => []
  | fuel + 1, p =>
    if p = 0 then []
    else
      match s.entryAt p with
      | none => []
      | some e => p :: listFrom s fuel e.next

/-- The children of a directory. -/
def childrenOf (s : Fs) (dir : Ptr) : List Ptr :=
  match s.entryAt dir with
  | none => []
  | some e => s.listFrom s.heap.length e.child

theorem listFrom_isList {p : Ptr} (h : IsList (nextOf s.entries) p l) {fuel : Nat}
    (hfuel : l.length ≤ fuel) : s.listFrom fuel p = l := by
  induction l generalizing fuel p with
  | nil =>
    have hp : p = 0 := h
    cases fuel <;> simp [listFrom, hp]
  | cons x l ih =>
    obtain ⟨n, rfl⟩ : ∃ n, fuel = n + 1 := ⟨fuel - 1, by simp only [List.length_cons] at hfuel; omega⟩
    obtain ⟨rfl, hne, next, hnext, hl⟩ := h
    obtain ⟨e, he, rfl⟩ := Option.map_eq_some_iff.1 hnext
    simp [listFrom, hne, entryAt_of_obj (entries_eq_some.1 he), ih hl (by simpa using hfuel)]

theorem OpenDir.childrenOf (h : OpenDir s proc fd dir d e l) : s.childrenOf dir = l := by
  rw [Fs.childrenOf, entryAt_of_obj h.entry]
  exact listFrom_isList h.list (length_kids_le h.list fun _ hq => isList_entry h.list hq)

/-- The child at which `ktmpfs_readdir` arrives, `NULL` behind the last one. -/
def readdirChild (s : Fs) (proc : Nat) (fd : Int) : Option Ptr := do
  let d ← s.descAt (s.kfdGet proc fd)
  let n ← s.nodeAt d.node
  let e ← s.entryAt n.priv
  s.nthChild d.offset e.child

theorem OpenDir.readdirChild (h : OpenDir s proc fd dir d e l) :
    s.readdirChild proc fd = some (l[d.offset]?.getD 0) := by
  obtain ⟨n, hn, -, hpriv⟩ := h.node
  simp [Fs.readdirChild, descAt_of_obj h.desc, nodeAt_of_obj hn, hpriv, entryAt_of_obj h.entry,
    nthChild_isList h.list]

theorem OpenDir.offsetOf (h : OpenDir s proc fd dir d e l) : s.offsetOf proc fd = d.offset := by
  simp [Fs.offsetOf, descAt_of_obj h.desc]

/-! ## A listing and the changes between its calls -/

/-- What happens to a directory that is being listed. -/
inductive DirOp
  | readdir
  | create (name : CString) (mode : Nat)
  | remove (entry : Ptr)

/-- A listing: what it has returned, which children have been there all the time, and whether it
has come to `KO_FALSE`. -/
structure DirScan where
  fs : Fs
  returned : List (Ptr × Dirent)
  since : List Ptr
  ended : Bool

/-- A listing that begins. -/
def dirScan (s : Fs) (dir : Ptr) : DirScan := ⟨s, [], s.childrenOf dir, false⟩

/-- The directory has changed. -/
def DirScan.changed (c : DirScan) (dir : Ptr) (s : Fs) : DirScan :=
  { c with fs := s, since := c.since.filter (· ∈ s.childrenOf dir) }

/-- One call of `kfd_readdir`, `ktmpfs_create_entry` or `ktmpfs_remove_from_parent_ll`; nothing
more once the listing has ended. -/
def dirScanStep (proc : Nat) (fd : Int) (dir : Ptr) (c : DirScan) (op : DirOp) :
    Option DirScan :=
  if c.ended then some c
  else
    match op with
    | .readdir => do
        let x ← c.fs.readdirChild proc fd
        match ← c.fs.kfdReaddir proc fd with
        | (none, s) => return { c with fs := s, ended := true }
        | (some out, s) => return { c with fs := s, returned := c.returned ++ [(x, out)] }
    | .create name mode => do
        let (_, s) ← c.fs.ktmpfsCreateEntry dir name mode
        return c.changed dir s
    | .remove entry => do
        let (_, s) ← c.fs.ktmpfsRemoveFromParentLl dir entry
        return c.changed dir s

/-- What leaves the children before the offset where they are: a creation at offset 0, a removal
behind the offset, and either of them once all the children have been read.  The offset is a 32-bit
number. -/
def Steady (proc : Nat) (fd : Int) (dir : Ptr) (c : DirScan) : DirOp → Prop
  | .readdir => c.fs.offsetOf proc fd + 1 < 2 ^ 32
  | .create _ _ => c.fs.offsetOf proc fd = 0 ∨
      (c.fs.childrenOf dir).length < c.fs.offsetOf proc fd
  | .remove entry => (c.fs.childrenOf dir).length ≤ c.fs.offsetOf proc fd ∨
      entry ∉ (c.fs.childrenOf dir).take (c.fs.offsetOf proc fd)

instance (proc : Nat) (fd : Int) (dir : Ptr) (c : DirScan) (op : DirOp) :
    Decidable (Steady proc fd dir c op) :=
  match op with
  | .readdir => inferInstanceAs (Decidable (_ < _))
  | .create _ _ => inferInstanceAs (Decidable (_ ∨ _))
  | .remove _ => inferInstanceAs (Decidable (_ ∨ _))

/-- Each child that has been there all the time has been returned at most once, with its name and
its type, and once if the listing has ended. -/
def DirScan.Complete (c : DirScan) : Prop :=
  ∀ x ∈ c.since, (c.returned.map Prod.fst).count x ≤ 1 ∧
    (c.ended = true → (c.returned.map Prod.fst).count x = 1) ∧
    ∀ out, (x, out) ∈ c.returned → direntOf c.fs.entries x = some out

/-! ## The listing as a reader of a list -/

/-- The listing reads the children in order. -/
structure Follows (proc : Nat) (fd : Int) (dir : Ptr) (c : DirScan) (a : Cursor Ptr) : Prop where
  openDir : ∃ d e, OpenDir c.fs proc fd dir d e a.items ∧ d.offset = a.position
  self : dir ∉ a.items
  visited : c.returned.map Prod.fst = a.visited
  since : c.since = a.since
  ended : c.ended = true → a.items.length ≤ a.position
  dirent : ∀ x ∈ a.since, ∀ out, (x, out) ∈ c.returned → direntOf c.fs.entries x = some out

variable {c : DirScan} {a : Cursor Ptr}

/-- A reading is a reading of the list. -/
theorem Follows.readdir (h : Follows proc fd dir c a) (hend : c.ended = false)
    (hok : Steady proc fd dir c .readdir) :
    ∃ c', dirScanStep proc fd dir c .readdir = some c' ∧ Follows proc fd dir c' (a.step .next) := by
  obtain ⟨d, e, hopen, hoff⟩ := h.openDir
  obtain ⟨r, hread, hopen', hdirent, -⟩ := hopen.kfdReaddir
  have hbound : d.offset + 1 < 2 ^ 32 := by simpa [Steady, hopen.offsetOf] using hok
  have hmod : u32 (d.offset + 1) = a.position + 1 := by
    unfold u32
    omega
  have hchild := hopen.readdirChild
  rw [hoff] at hread hchild
  have hkept : ∀ x ∈ a.since, ∀ out, (x, out) ∈ c.returned → direntOf r.entries x = some out := by
    intro x hx out hout
    rw [hdirent, h.dirent x hx out hout]
  cases hx : a.items[a.position]? with
  | none =>
    rw [hx] at hread
    have hlen := List.getElem?_eq_none_iff.1 hx
    refine ⟨{ c with fs := r, ended := true }, ?_, ?_⟩
    · simp [dirScanStep, hend, hchild, hread]
    · simp only [Cursor.step, hx]
      exact ⟨⟨_, _, hopen', hmod⟩, h.self, h.visited, h.since,
        fun _ => hlen.trans (Nat.le_succ _), hkept⟩
  | some x =>
    obtain ⟨out, hout⟩ := isList_direntOf hopen.list (List.mem_of_getElem? hx)
    have hfirst : (some x).bind (direntOf c.fs.entries) = some out := hout
    rw [hx, hfirst] at hread
    refine ⟨{ c with fs := r, returned := c.returned ++ [(x, out)] }, ?_, ?_⟩
    · simp [dirScanStep, hend, hchild, hread, hx]
    · simp only [Cursor.step, hx]
      refine ⟨⟨_, _, hopen', hmod⟩, h.self, by simp [h.visited], h.since, ?_, ?_⟩
      · intro hended
        rw [hend] at hended
        cases hended
      · intro y hy out' hout'
        rcases List.mem_append.1 hout' with hold | hnew
        · exact hkept y hy out' hold
        · obtain ⟨rfl, rfl⟩ : y = x ∧ out' = out := by simpa using hnew
          rw [hdirent, hout]

/-- The entries that have been there all the time are still there if nothing has been taken out. -/
theorem filter_since (ha : a.Exact) {l' : List Ptr} (h : ∀ x ∈ a.items, x ∈ l') :
    a.since.filter (· ∈ l') = a.since :=
  List.filter_eq_self.2 fun x hx => by simpa using h x (ha.listed x hx)

/-- A new entry is a new head of the list. -/
theorem OpenDir.create (h : OpenDir s proc fd dir d e l) (hself : dir ∉ l) (name : CString)
    (mode : Nat) :
    ∃ x r e', s.ktmpfsCreateEntry dir name mode = some (x, r) ∧
      (x = 0 ∧ OpenDir r proc fd dir d e' l ∨
        x ∉ l ∧ x ≠ dir ∧ OpenDir r proc fd dir d e' (x :: l)) ∧
      ∀ q ∈ l, direntOf r.entries q = direntOf s.entries q := by
  have hentry := entries_eq_some.2 h.entry
  obtain ⟨x, r, hcreate, hmade⟩ := ktmpfsCreateEntry_spec hentry h.isDir name mode
  obtain ⟨n, hn, hops, hpriv⟩ := h.node
  have hget : r.kfdGet proc fd = s.kfdGet proc fd := by rw [kfdGet, kfdGet, hmade.keeps.frame.fds]
  have hdesc : r.obj (r.kfdGet proc fd) = some (.desc d) :=
    hget ▸ hmade.keeps.other _ _ h.desc (by simp)
  have hnode : r.Refers d.node dir := ⟨n, hmade.keeps.other _ _ hn (by simp), hops, hpriv⟩
  rcases hmade.made with ⟨rfl, hent, -⟩ | ⟨hx, hdead, hent⟩
  · exact ⟨0, r, e, hcreate,
      Or.inl ⟨rfl, ⟨hdesc, hnode, entries_eq_some.1 (hent ▸ hentry)⟩, h.readable, h.isDir,
        hent ▸ h.list⟩, fun q _ => by rw [hent]⟩
  · have hfree : s.entries x = none := by
      cases hex : s.entries x with
      | none => rfl
      | some e' =>
        rw [entries_eq_some.1 hex] at hdead
        cases hdead
    have hxl : x ∉ l := by
      intro hmem
      obtain ⟨e', he'⟩ := isList_entry h.list hmem
      rw [hfree] at he'
      cases he'
    have hxd : x ≠ dir := by
      rintro rfl
      rw [hfree] at hentry
      cases hentry
    have hdir : r.entries dir = some { e with child := x } := by rw [hent, Function.update_self]
    have hat : ∀ q ∈ l, r.entries q = s.entries q := by
      intro q hq
      rw [hent, Function.update_of_ne, Function.update_of_ne]
      · rintro rfl
        exact hxl hq
      · rintro rfl
        exact hself hq
    have hnew : r.entries x = some (newEntry name e.child dir mode) := by
      rw [hent, Function.update_of_ne hxd, Function.update_self]
    refine ⟨x, r, { e with child := x }, hcreate, Or.inr ⟨hxl, hxd,
      ⟨hdesc, hnode, entries_eq_some.1 hdir⟩, h.readable, h.isDir, rfl, hx, e.child, ?_, ?_⟩,
      fun q hq => by rw [direntOf, hat q hq, direntOf]⟩
    · rw [nextOf, hnew]
      rfl
    · exact h.list.congr fun q hq => by rw [nextOf, hat q hq, nextOf]

/-- A removed entry is taken out of the list; what is not in it is not removed. -/
theorem OpenDir.remove (h : OpenDir s proc fd dir d e l) (hself : dir ∉ l) (x : Ptr) :
    ∃ done r e', s.ktmpfsRemoveFromParentLl dir x = some (done, r) ∧
      OpenDir r proc fd dir d e' (l.erase x) ∧
      ∀ q ∈ l.erase x, direntOf r.entries q = direntOf s.entries q := by
  have hentry := entries_eq_some.2 h.entry
  by_cases hx : x ∈ l
  · obtain ⟨l₁, l₂, rfl⟩ := List.append_of_mem hx
    obtain ⟨r, ex, hremove, hkeeps, hex, -, hrem⟩ := ktmpfsRemoveFromParentLl_list hentry h.list hself
    obtain ⟨n, hn, hops, hpriv⟩ := h.node
    have hget : r.kfdGet proc fd = s.kfdGet proc fd := by rw [kfdGet, kfdGet, hkeeps.frame.fds]
    obtain ⟨e', he', hsame, -, hchild⟩ := hrem.dir
    refine ⟨true, r, e', hremove, ⟨⟨hget ▸ hkeeps.other _ _ h.desc (by simp),
      ⟨n, hkeeps.other _ _ hn (by simp), hops, hpriv⟩, entries_eq_some.1 he'⟩, h.readable, ?_, ?_⟩,
      fun q hq => ?_⟩
    · rw [TmpfsEntry.isDir, hsame.mode]
      exact h.isDir
    · rw [erase_append_cons h.list.nodup, hchild]
      exact hrem.isList h.list hex
    · obtain ⟨hne, hmem⟩ := (h.list.nodup.mem_erase_iff).1 hq
      have hqd : q ≠ dir := by
        rintro rfl
        exact hself hmem
      rcases hrem.rest q hne hqd with ⟨hold, hnew⟩ | ⟨e₁, e₂, he₁, he₂, hfile, -⟩
      · rw [direntOf, direntOf, hold, hnew]
      · simp [direntOf, he₁, he₂, TmpfsEntry.dirent, hfile.name, hfile.mode]
  · have hwalk : s.walkChildren (fun q _ => q == x) (s.heap.length + 1) 0 e.child =
        some (l.getLastD 0, 0) := by
      apply walkChildren_end 0 h.list
      · exact Nat.lt_succ_of_le (length_kids_le h.list fun _ hq => isList_entry h.list hq)
      · intro y hy _ _
        have hne : y ≠ x := by
          rintro rfl
          exact hx hy
        simpa using hne
    refine ⟨false, s, e, ?_, by rwa [List.erase_of_not_mem hx], fun _ _ => rfl⟩
    by_cases hx0 : x = 0
    · simp [ktmpfsRemoveFromParentLl, hx0]
    · simp [ktmpfsRemoveFromParentLl, hx0, ne_zero_of_obj h.entry, entryAt_of_obj h.entry, hwalk]

/-- The listing after a change that keeps the account of what is listed. -/
theorem Follows.changed (h : Follows proc fd dir c a) {d' : FileDesc} {e' : TmpfsEntry}
    {a' : Cursor Ptr} (hr : OpenDir r proc fd dir d' e' a'.items) (hoff : d'.offset = a'.position)
    (hself : dir ∉ a'.items) (hvisited : a'.visited = a.visited)
    (hsince : a.since.filter (· ∈ a'.items) = a'.since) (hend : c.ended = false)
    (hsub : ∀ x ∈ a'.since, x ∈ a.since)
    (hdirent : ∀ x ∈ a'.since, direntOf r.entries x = direntOf c.fs.entries x) :
    Follows proc fd dir (c.changed dir r) a' := by
  refine ⟨⟨d', e', hr, hoff⟩, hself, h.visited.trans hvisited.symm, ?_, fun hended => ?_,
    fun x hx out hout => ?_⟩
  · rw [DirScan.changed, hr.childrenOf, h.since]
    exact hsince
  · rw [show (c.changed dir r).ended = c.ended from rfl, hend] at hended
    cases hended
  · exact (hdirent x hx).trans (h.dirent x (hsub x hx) out hout)

/-- A creation is a new head of the list, or nothing. -/
theorem Follows.create (h : Follows proc fd dir c a) (ha : a.Exact) (hend : c.ended = false)
    {name : CString} {mode : Nat} (hok : Steady proc fd dir c (.create name mode)) :
    ∃ c' a', dirScanStep proc fd dir c (.create name mode) = some c' ∧
      Follows proc fd dir c' a' ∧ a'.Exact := by
  obtain ⟨d, e, hopen, hoff⟩ := h.openDir
  obtain ⟨x, r, e', hcreate, hmade, hdirent⟩ := hopen.create h.self name mode
  have hsame : ∀ y ∈ a.since, direntOf r.entries y = direntOf c.fs.entries y :=
    fun y hy => hdirent y (ha.listed y hy)
  have hstep : dirScanStep proc fd dir c (.create name mode) = some (c.changed dir r) := by
    simp [dirScanStep, hend, hcreate]
  rcases hmade with ⟨-, hr⟩ | ⟨hx, hxd, hr⟩
  · exact ⟨_, a, hstep, h.changed hr hoff h.self rfl (filter_since ha fun _ hy => hy) hend
      (fun _ hy => hy) hsame, ha⟩
  · have hsteady : a.Steady (.push x) := by
      refine ⟨hx, ?_⟩
      simpa [Steady, hopen.offsetOf, hopen.childrenOf, hoff] using hok
    have hself : dir ∉ (a.step (.push x)).items := by
      simpa [Cursor.step] using ⟨hxd.symm, h.self⟩
    exact ⟨_, a.step (.push x), hstep, h.changed hr hoff hself rfl
      (filter_since ha fun y hy => List.mem_cons_of_mem x hy) hend (fun _ hy => hy) hsame,
      ha.step hsteady⟩

/-- A removal takes an element out of the list. -/
theorem Follows.remove (h : Follows proc fd dir c a) (ha : a.Exact) (hend : c.ended = false)
    {x : Ptr} (hok : Steady proc fd dir c (.remove x)) :
    ∃ c' a', dirScanStep proc fd dir c (.remove x) = some c' ∧ Follows proc fd dir c' a' ∧
      a'.Exact := by
  obtain ⟨d, e, hopen, hoff⟩ := h.openDir
  obtain ⟨done, r, e', hremove, hr, hdirent⟩ := hopen.remove h.self x
  have hsteady : a.Steady (.drop x) := by
    simpa [Steady, Cursor.Steady, hopen.offsetOf, hopen.childrenOf, hoff] using hok
  have hexact : (a.step (.drop x)).Exact := ha.step hsteady
  refine ⟨c.changed dir r, a.step (.drop x), by simp [dirScanStep, hend, hremove],
    h.changed hr hoff (fun hmem => h.self (List.mem_of_mem_erase hmem)) rfl ?_ hend
      (fun y hy => (List.mem_filter.1 hy).1) fun y hy => hdirent y (hexact.listed y hy), hexact⟩
  -- what is left of the entries that have been there is all but the removed one
  refine List.filter_congr fun y hy => ?_
  have hmem : y ∈ a.items.erase x ↔ y ≠ x ∧ y ∈ a.items := ha.nodup.mem_erase_iff
  simp [Cursor.step, hmem, ha.listed y hy]

/-- **One step of the listing keeps the account.** -/
theorem Follows.step (h : Follows proc fd dir c a) (ha : a.Exact) {op : DirOp}
    (hok : Steady proc fd dir c op) :
    ∃ c' a', dirScanStep proc fd dir c op = some c' ∧ Follows proc fd dir c' a' ∧ a'.Exact := by
  cases hend : c.ended with
  | true => exact ⟨c, a, by simp [dirScanStep, hend], h, ha⟩
  | false =>
    cases op with
    | readdir =>
      obtain ⟨c', hstep, hc'⟩ := h.readdir hend hok
      exact ⟨c', _, hstep, hc', ha.next⟩
    | create name mode => exact h.create ha hend hok
    | remove x => exact h.remove ha hend hok

/-- A reader that keeps the account has returned everything. -/
theorem Follows.complete (h : Follows proc fd dir c a) (ha : a.Exact) : c.Complete := by
  intro x hx
  rw [h.since] at hx
  rw [h.visited]
  exact ⟨(ha.count_le hx).1, fun hend => (ha.count_le hx).2 (h.ended hend), h.dirent x hx⟩

/-- **A listing between steady changes is complete**: up to the first `KO_FALSE` each entry that is
there all the time is returned once. -/
theorem iteration_of_run (h : OpenDir s proc fd dir d e l) (hself : dir ∉ l)
    (hfresh : d.offset = 0) {ops : List DirOp}
    (hops : Admissible (dirScanStep proc fd dir) (Steady proc fd dir) (dirScan s dir) ops) :
    ∃ c, run (dirScanStep proc fd dir) (dirScan s dir) ops = some c ∧ c.Complete := by
  have hstart : Follows proc fd dir (dirScan s dir) ⟨l, 0, [], l, false⟩ :=
    ⟨⟨d, e, h, hfresh⟩, hself, rfl, h.childrenOf, fun hended => Bool.noConfusion hended,
      fun _ _ _ hout => absurd hout List.not_mem_nil⟩
  obtain ⟨c, hrun, a, hc, ha⟩ := run_total
    (P := fun c => ∃ a, Follows proc fd dir c a ∧ a.Exact)
    (fun c op ⟨a, hc, ha⟩ hok => by
      obtain ⟨c', a', hstep, hc', ha'⟩ := hc.step ha hok
      exact ⟨c', hstep, a', hc', ha'⟩)
    ⟨_, hstart, Cursor.exact_start h.list.nodup⟩ hops
  exact ⟨c, hrun, hc.complete ha⟩

/-! ## Changes on the way -/

/-- The root directory with a file `f`, open, and pages for the allocations to come. -/
def roomyRoot : Fs := { fullRoot with pages := fun _ => true }

theorem openDir_roomyRoot : OpenDir roomyRoot 0 0 1 ⟨4, 0, KVFS_O_RDONLY, 1⟩
    { rootEntry with child := 3, stat := kvfsStatIncNlink rootEntry.stat } [3] :=
  { openDir_fullRoot with }

/-- A file is created before the listing, and removed after it has all been read. -/
theorem iteration_of_run_end : ∃ c, run (dirScanStep 0 0 1) (dirScan roomyRoot 1)
    [.create [0x67] KVFS_STAT_IFREG, .readdir, .readdir, .remove 6, .readdir] = some c ∧
      c.Complete :=
  iteration_of_run openDir_roomyRoot (by decide) rfl (by decide +kernel)

/-- **A creation between two readings returns `f` twice, a removal skips it.** -/
theorem iteration_astray : OpenDir roomyRoot 0 0 1 ⟨4, 0, KVFS_O_RDONLY, 1⟩
      { rootEntry with child := 3, stat := kvfsStatIncNlink rootEntry.stat } [3] ∧
    (∃ c, run (dirScanStep 0 0 1) (dirScan roomyRoot 1)
      [.readdir, .create [0x67] KVFS_STAT_IFREG, .readdir, .readdir] = some c ∧
        c.ended = true ∧ c.since = [3] ∧ c.returned.map Prod.fst = [3, 3] ∧ ¬c.Complete) ∧
    ∃ c, run (dirScanStep 0 0 1) (dirScan roomyRoot 1)
      [.create [0x67] KVFS_STAT_IFREG, .readdir, .remove 6, .readdir] = some c ∧
        c.ended = true ∧ c.since = [3] ∧ c.returned.map Prod.fst = [6] ∧ ¬c.Complete := by
  have hrun : ∀ ops ids, (run (dirScanStep 0 0 1) (dirScan roomyRoot 1) ops).any (fun c =>
      c.ended && decide (c.since = [3]) && decide (c.returned.map Prod.fst = ids)) = true →
      ids.count 3 ≠ 1 → ∃ c, run (dirScanStep 0 0 1) (dirScan roomyRoot 1) ops = some c ∧
        c.ended = true ∧ c.since = [3] ∧ c.returned.map Prod.fst = ids ∧ ¬c.Complete := by
    intro ops ids hany hcount
    obtain ⟨c, hc, hdone⟩ := (Option.any_eq_true _ _).1 hany
    simp only [Bool.and_eq_true, decide_eq_true_eq] at hdone
    obtain ⟨⟨hend, hsince⟩, hids⟩ := hdone
    refine ⟨c, hc, hend, hsince, hids, fun hcomplete => hcount ?_⟩
    rw [← hids]
    exact (hcomplete 3 (by rw [hsince]; exact List.mem_singleton_self 3)).2.1 hend
  exact ⟨openDir_roomyRoot, hrun _ _ (by decide +kernel) (by decide),
    hrun _ _ (by decide +kernel) (by decide)⟩

end Fs

end DelOs
