import DelOs.Fs.PathPlaces

/-!
# The calls by path

Each of them does to the records on the heap what it does to the files by path.

* `Shows` — the relation, with what a run keeps.
* `Shows.resolve` — **a lookup by path finds what the path leads to**.
* `Shows.kfdOpen`, `Shows.kfdClose`, `Shows.kmkdir`, `Shows.kvfsChdir`, `Shows.lookupOpenClose`,
  `Shows.kvfsUnlink`, `Shows.krmdir` — the calls.
-/

namespace DelOs

open FirstFit PathTree

namespace PathFs

variable {A : PathFs}

theorem enlarges_refl {F : PathTree CString (List UInt8)}
    (hsmall : ∀ path bytes, F path = some (.file bytes) → bytes.length < 2 ^ 29) : Enlarges F F :=
  fun path bytes hp => ⟨hsmall path bytes hp, Or.inr ⟨bytes, hp, le_rfl⟩⟩

/-- Something new, with no bytes, where there was nothing. -/
theorem enlarges_update {F : PathTree CString (List UInt8)}
    (hsmall : ∀ path bytes, F path = some (.file bytes) → bytes.length < 2 ^ 29)
    {p : List CString} (hp : F p = none) {n : PathNode (List UInt8)}
    (hn : ∀ bytes, n = .file bytes → bytes = []) : Enlarges F (Function.update F p (some n)) := by
  intro path bytes hpath
  rw [Function.update_apply] at hpath
  split_ifs at hpath with heq
  · obtain rfl := hn bytes (Option.some.inj hpath)
    exact ⟨by simp, Or.inl (heq ▸ hp)⟩
  · exact enlarges_refl hsmall path bytes hpath

/-- An `open` makes nothing but an empty file, and opens nothing. -/
theorem openNamed_makes (hsmall : ∀ path bytes, A.tree path = some (.file bytes) →
    bytes.length < 2 ^ 29) (parent : List CString) (name : CString) (flags : Nat) :
    (A.openNamed parent name flags).2.cwd = A.cwd ∧
      (A.openNamed parent name flags).2.files = A.files ∧
        Enlarges A.tree (A.openNamed parent name flags).2.tree := by
  unfold openNamed
  cases hin : A.tree.enter dotName dotDotName parent name with
  | some p => exact ⟨rfl, rfl, enlarges_refl hsmall⟩
  | none =>
    by_cases hmake : flagSet flags KVFS_O_CREAT = true ∧ A.tree parent = some .dir
    · simp only [if_pos hmake]
      refine ⟨rfl, rfl, enlarges_update hsmall ?_ fun bytes hbytes => ?_⟩
      · by_contra hsome
        simp only [enter, hmake.2, Option.isSome_iff_ne_none.2 hsome, if_true] at hin
        split_ifs at hin
      · split_ifs at hbytes
        simpa using hbytes.symm
    · simpa only [if_neg hmake, true_and] using enlarges_refl hsmall

theorem openAt_makes (hsmall : ∀ path bytes, A.tree path = some (.file bytes) →
    bytes.length < 2 ^ 29) (path : CString) (flags : Nat) :
    (A.openAt path flags).2.cwd = A.cwd ∧ (A.openAt path flags).2.files = A.files ∧
      Enlarges A.tree (A.openAt path flags).2.tree := by
  unfold openAt
  by_cases hpath : path = []
  · simpa only [if_pos hpath, true_and] using enlarges_refl hsmall
  rw [if_neg hpath]
  cases A.walk (A.start path) (components path).dropLast with
  | none => exact ⟨rfl, rfl, enlarges_refl hsmall⟩
  | some parent => exact openNamed_makes hsmall parent _ flags

theorem enlarges_erase {F : PathTree CString (List UInt8)}
    (hsmall : ∀ path bytes, F path = some (.file bytes) → bytes.length < 2 ^ 29)
    (p : List CString) : Enlarges F (F.erase p) := by
  intro path bytes hp
  rw [erase, Function.update_apply] at hp
  split_ifs at hp with hpath
  exact enlarges_refl hsmall path bytes hp

/-! ## Opening and closing -/

/-- What has been opened and closed again is closed. -/
theorem kfdClose_kfdCreate {proc fd : Nat} (hfree : A.freeFd proc = some fd) (path : List CString)
    (flags : Nat) :
    (A.kfdCreate proc path flags).1 = fd ∧
      ((A.kfdCreate proc path flags).2.kfdClose proc fd).2 = A := by
  have hbound : fd < KFD_MAX_COUNT := List.mem_range.1 (List.mem_of_find?_eq_some hfree)
  have hnone : A.files proc fd = none := by simpa using List.find?_some hfree
  have hcreate : A.kfdCreate proc path flags =
      ((fd : Int), A.setFile proc fd (some ⟨path, 0, flags⟩)) := by rw [kfdCreate, hfree]
  have hfile : (A.setFile proc fd (some ⟨path, 0, flags⟩)).file proc fd = some ⟨path, 0, flags⟩ := by
    unfold file
    rw [if_neg (by omega), Int.toNat_natCast, setFile_files, if_pos ⟨rfl, rfl⟩]
  refine ⟨by rw [hcreate], ?_⟩
  rw [hcreate, kfdClose, hfile, Int.toNat_natCast]
  show (A.setFile proc fd (some ⟨path, 0, flags⟩)).setFile proc fd none = A
  rw [setFile_setFile, ← hnone, setFile_self]

/-- Making a directory is opening it and closing it. -/
theorem kmkdir_eq {proc : Nat} {path : CString} (hrefused : Fs.refusedPath path = false) {fd : Int}
    {B : PathFs}
    (hopen : A.kfdOpen proc path (KVFS_O_CREAT ||| KVFS_O_DIRECTORY ||| KVFS_O_EXCL) = (fd, B)) :
    A.kmkdir proc path = if fd = KFD_ERROR then (-1, B) else (0, (B.kfdClose proc fd).2) := by
  simp only [kfdOpen] at hopen
  simp only [kmkdir, hrefused, Bool.false_eq_true, if_false]
  generalize A.openAt path (KVFS_O_CREAT ||| KVFS_O_DIRECTORY ||| KVFS_O_EXCL) = made at hopen ⊢
  rcases made with ⟨_ | p, C⟩
  · obtain ⟨rfl, rfl⟩ := Prod.mk.inj hopen
    simp
  · dsimp only at hopen ⊢
    cases hfree : C.freeFd proc with
    | none =>
      obtain ⟨rfl, rfl⟩ : KFD_ERROR = fd ∧ C = B := by simpa [kfdCreate, hfree] using hopen
      simp
    | some n =>
      obtain ⟨hfd, hclose⟩ := kfdClose_kfdCreate hfree p
        (KVFS_O_CREAT ||| KVFS_O_DIRECTORY ||| KVFS_O_EXCL)
      have hne : (n : Int) ≠ KFD_ERROR := by simp [KFD_ERROR]
      rw [hopen] at hfd hclose
      obtain rfl : fd = n := hfd
      rw [if_neg hne, hclose]
      rfl

end PathFs

namespace Fs

variable {s r : Fs} {t t' : OrderedTree Ptr} {A B : PathFs}

/-! ## The relation -/

/-- The state stands for the files by path, and keeps what a run of the calls keeps. -/
structure Shows (s : Fs) (t : OrderedTree Ptr) (A : PathFs) : Prop extends Places s t A where
  use : UseInv s t

theorem Places.withInput (h : Places s t A) (i : Input) : Places (s.withInput i) t A := by
  refine ⟨h.toMirrors.congr rfl fun _ _ hp => hp, h.cwd, h.cwdDir, h.unused, fun p j o ho => ?_, h.within, h.small⟩
  obtain ⟨d, x, hd⟩ := h.opened p j o ho
  exact ⟨d, x, hd.desc, hd.node, hd.path, hd.offset, hd.flags⟩

theorem Shows.withInput (h : Shows s t A) (i : Input) : Shows (s.withInput i) t A :=
  ⟨h.toPlaces.withInput i, h.use.withInput i⟩

/-- A call by path that does what the files by path say. -/
theorem Shows.onTree (h : Shows s t A) {proc : Nat} {c : Call} (htree : c.onTree = true)
    (hcwd : ∀ o ∈ c.opens?, s.KeepsCwd o.1 o.2) (hunused : ∀ x ∈ s.removed? c, ¬s.InUse x)
    {result : Result} (hcall : s.call proc c = some (result, r)) (hplaces : Places r t' B) :
    ∃ t'', Shows r t'' B := by
  obtain ⟨result', r', t'', hcall', huse⟩ := h.use.call proc htree
    ⟨fun path _ => h.use.live.startsInUse h.use.mounted path, hcwd⟩ hunused
  obtain ⟨-, rfl⟩ : result' = result ∧ r' = r := by simpa [hcall'] using hcall
  exact ⟨t'', hplaces.of_stored huse.mounted.stands.tree, huse⟩

/-! ## Lookups -/

/-- The entry from which a path is walked. -/
theorem Shows.startsAt (h : Shows s t A) (path : CString) :
    ∃ d, StartsAt s path d ∧ s.At t (A.start path) d := by
  by_cases habs : kvfsIsAbsolutePath path = true
  · exact ⟨t.root, h.use.mounted.stands.startsAt habs, by rw [PathFs.start, if_pos habs]; exact .root⟩
  · obtain ⟨x, hx, hat⟩ := h.cwd
    refine ⟨x, ⟨?_, (h.rep.tree.mem x).1 hat.mem⟩, by rwa [PathFs.start, if_neg habs]⟩
    rw [startNode, if_neg habs, hx]

/-- **A lookup by path finds what the path leads to.** -/
theorem Shows.resolve (h : Shows s t A) (hg : s.Granted) {path : CString} (hfits : Fits path) :
    (∃ p q r x, A.resolve path = some p ∧ s.kvfsLookupOpen path = some (q, r) ∧ q ≠ 0 ∧
        Opened s r q x ∧ Temp s q ∧ s.At t p x) ∨
      (A.resolve path = none ∧ ∃ r, s.kvfsLookupOpen path = some (0, r) ∧ Keeps s r ∧
        r.entries = s.entries) := by
  obtain ⟨d, hd, hat⟩ := h.startsAt path
  have hs := h.use.mounted.stands
  obtain ⟨q, r, hlook, hopen, htemp, hnull⟩ :=
    kvfsLookupOpen_spec hs.tree hs.root_live hd.node hd.entry
  rw [hfits.pathNames] at hopen hnull
  by_cases hpath : path = []
  · subst hpath
    have hq : q = 0 := by
      have hnone : s.kvfsLookupOpen [] = some (0, s) := by
        simp [kvfsLookupOpen, kvfsResolveFrom, kvfsSplitPath, kvfsIsAbsolutePath, splitParts,
          skipSlashes, KVFS_MAX_PATH_PARTS]
      rw [hnone] at hlook
      exact (Prod.mk.inj (Option.some.inj hlook)).1.symm
    exact Or.inr ⟨by simp [PathFs.resolve], r, hq ▸ hlook, hopen.keeps, hopen.entries⟩
  have hsplit := splitPath_ne_nil hpath
  rcases h.rep.walk hat (components path) with ⟨p, hp, hpat⟩ | ⟨hnone, hzero⟩
  · have hx0 : walkTree s.entries t d (components path) ≠ 0 := by
      obtain ⟨e, he⟩ := (h.rep.tree.mem _).1 hpat.mem
      exact ne_zero_of_obj (entries_eq_some.1 he)
    have hq : q ≠ 0 := fun hq => hnull hq hsplit hx0 hg
    exact Or.inl ⟨p, q, r, _, by rw [PathFs.resolve, if_neg hpath]; exact hp, hlook, hq, hopen,
      htemp hq, hpat⟩
  · have hq : q = 0 := by
      by_contra hq
      obtain ⟨-, e, he⟩ := hopen.node hq
      rw [hzero, h.rep.tree.zero] at he
      cases he
    exact Or.inr ⟨by rw [PathFs.resolve, if_neg hpath]; exact hnone, r, hq ▸ hlook, hopen.keeps,
      hopen.entries⟩

/-! ## Opening and closing -/

/-- The first free descriptor gets a node of what lies at the path. -/
theorem Places.kfdCreate (h : Places s t A) (hg : s.Granted) (proc flags : Nat) {q x : Ptr}
    {path : List CString} (hq : s.obj q = some (.node (newNode x))) (hat : s.At t path x) :
    ∃ r, s.kfdCreateForProcess proc q flags = ((A.kfdCreate proc path flags).1, r) ∧
      Places r t (A.kfdCreate proc path flags).2 ∧ KeepsRaw s r ∧ r.Granted := by
  rcases kfdCreateForProcess_spec s proc flags (ne_zero_of_obj hq) with
    ⟨r, hfull, hcreate, hk, hobj⟩ | ⟨fd, p, r, hcreate, hnew⟩
  · have hnone : A.freeFd proc = none := by
      have hmem : (s.kmalloc sizeofFileDesc).1 ≠ 0 :=
        kmalloc_granted (by decide) (by decide) (hg 0)
      rw [h.freeFd_eq, List.find?_eq_none]
      simpa [descRefused, hmem] using hfull
    refine ⟨r, ?_, ?_, hk.raw, hk.frame.granted hg⟩
    · rw [PathFs.kfdCreate, hnone, hcreate]
    · rw [PathFs.kfdCreate, hnone]
      exact h.same hk (entries_congr fun a e => by rw [hobj])
  · have hsome : A.freeFd proc = some fd := by
      have hleast := kfdCreateForProcess_leastFree hcreate
      rw [h.freeFd_eq, List.find?_range_eq_some]
      exact ⟨by simpa using hleast.free, List.mem_range.2 hleast.bound,
        fun m hm => by simpa using hleast.least m hm⟩
    refine ⟨r.setFd proc fd p, ?_, ?_, hnew.keeps.raw, hnew.keeps.frame.granted hg⟩
    · rw [PathFs.kfdCreate, hsome, hcreate]
    · rw [PathFs.kfdCreate, hsome]
      exact h.described hnew hq hat

/-- **`kfd_open` opens what the tree of paths says.** -/
theorem Shows.kfdOpen (h : Shows s t A) (hg : s.Granted) (proc : Nat) {path : CString}
    {flags : Nat} (hfits : Fits path) (hcwd : s.KeepsCwd path flags) (mode : Nat) :
    ∃ r t', s.kfdOpen proc path flags mode = some ((A.kfdOpen proc path flags).1, r) ∧
      Shows r t' (A.kfdOpen proc path flags).2 ∧ KeepsRaw s r ∧ r.Granted := by
  obtain ⟨d, hd, hat⟩ := h.startsAt path
  obtain ⟨q, r, t', hopen, hk, hin⟩ :=
    kvfsOpen_opensIn h.toMirrors h.use.mounted.stands hd hat hg hcwd hfits mode
  obtain ⟨hcwd', hfiles, hgrow⟩ := PathFs.openAt_makes h.small path flags
  have hplaces := h.toPlaces.keeps hk hcwd' hfiles hin.mirrors (fun p x hx _ => hin.stay p x hx) hgrow
  obtain ⟨r', hcall, hplaces', hraw, hg'⟩ : ∃ r', s.kfdOpen proc path flags mode =
      some ((A.kfdOpen proc path flags).1, r') ∧ Places r' t' (A.kfdOpen proc path flags).2 ∧
        KeepsRaw s r' ∧ r'.Granted := by
    unfold PathFs.kfdOpen
    generalize A.openAt path flags = made at hin hplaces ⊢
    rcases made with ⟨_ | p, B⟩
    · exact ⟨r, by simp [Fs.kfdOpen, hopen, hin.null rfl], hplaces, hk.raw, hk.frame.granted hg⟩
    · obtain ⟨x, hx, hpx⟩ := hin.node p rfl
      obtain ⟨r', hcreate, hplaces', hraw, hg'⟩ :=
        hplaces.kfdCreate (hk.frame.granted hg) proc flags hx hpx
      exact ⟨r', by simp [Fs.kfdOpen, hopen, ne_zero_of_obj hx, hcreate], hplaces',
        hk.raw.trans hraw, hg'⟩
  have hresult : s.call proc (.kfdOpen path flags mode) =
      some (.code (A.kfdOpen proc path flags).1, r') := by simp [Fs.call, hcall]
  obtain ⟨t'', hshows⟩ := h.onTree rfl (by simpa [Call.opens?] using hcwd) (by simp [removed?])
    hresult hplaces'
  exact ⟨r', t'', hcall, hshows, hraw, hg'⟩

/-- **`kfd_close` closes the file of the descriptor.** -/
theorem Shows.kfdClose (h : Shows s t A) (proc : Nat) (fd : Int) :
    ∃ r t', s.kfdClose proc fd = some ((A.kfdClose proc fd).1, r) ∧
      Shows r t' (A.kfdClose proc fd).2 ∧ KeepsRaw s r := by
  cases ho : A.file proc fd with
  | none =>
    have hget := h.kfdGet_eq_zero.2 ho
    rw [PathFs.kfdClose, ho]
    exact ⟨s, t, by simp [Fs.kfdClose, hget], h, .refl s⟩
  | some o =>
    have hget : s.kfdGet proc fd ≠ 0 := fun h0 => by
      rw [h.kfdGet_eq_zero.1 h0] at ho
      cases ho
    obtain ⟨d, r, hd, hclose, hc⟩ : ∃ d r, s.obj (s.fds proc fd.toNat) = some (.desc d) ∧
        s.kfdClose proc fd = some (true, r) ∧ Closed s r proc fd.toNat d := by
      refine (kfdClose_spec h.use.mounted proc fd).resolve_left fun hnone => ?_
      obtain ⟨d, r, hclose, -⟩ := kfdClose_taken h.use.mounted hget
      simp [hnone] at hclose
    rw [PathFs.kfdClose, ho]
    have hplaces := h.toPlaces.closed h.use.mounted hc hd
    have hresult : s.call proc (.kfdClose fd) = some (.status true, r) := by
      simp [Fs.call, hclose]
    obtain ⟨t', hshows⟩ := h.onTree rfl (by simp [Call.opens?]) (by simp [removed?]) hresult hplaces
    obtain ⟨d₀, f, hd₀, -, hf, -⟩ := h.use.mounted.desc proc fd.toNat (ne_zero_of_obj hd)
    obtain rfl : d₀ = d := by simpa using hd₀.symm.trans hd
    refine ⟨r, t', hclose, hshows, fun q hq => hc.stay q _ hq ?_ ?_⟩
    · rintro rfl
      rw [hf] at hq
      cases hq
    · rintro rfl
      rw [hd] at hq
      cases hq

/-- **`kmkdir` makes the directory that the tree of paths says.** -/
theorem Shows.kmkdir (h : Shows s t A) (hg : s.Granted) (proc : Nat) {path : CString}
    (hfits : refusedPath path = true ∨ Fits path)
    (hcwd : refusedPath path = true ∨
      s.KeepsCwd path (KVFS_O_CREAT ||| KVFS_O_DIRECTORY ||| KVFS_O_EXCL)) :
    ∃ r t', s.kmkdir proc path = some ((A.kmkdir proc path).1, r) ∧
      Shows r t' (A.kmkdir proc path).2 := by
  by_cases hrefused : refusedPath path = true
  · exact ⟨s, t, by simp [Fs.kmkdir, PathFs.kmkdir, hrefused],
      by simpa [PathFs.kmkdir, hrefused] using h⟩
  obtain ⟨r, t', hopen, hshows, -⟩ := h.kfdOpen hg proc (hfits.resolve_left hrefused)
    (hcwd.resolve_left hrefused) 0o666
  rcases hopened : A.kfdOpen proc path (KVFS_O_CREAT ||| KVFS_O_DIRECTORY ||| KVFS_O_EXCL) with
    ⟨fd, B⟩
  rw [hopened] at hopen hshows
  rw [PathFs.kmkdir_eq (by simpa using hrefused) hopened]
  by_cases hfd : fd = KFD_ERROR
  · rw [if_pos hfd]
    exact ⟨r, t', by simp [Fs.kmkdir, hrefused, hopen, hfd], hshows⟩
  · obtain ⟨r', t'', hclose, hshows', -⟩ := hshows.kfdClose proc fd
    rw [if_neg hfd]
    exact ⟨r', t'', by simp [Fs.kmkdir, hrefused, hopen, hfd, hclose], hshows'⟩

/-! ## Lookups that are calls -/

theorem Shows.lookupOpenClose (h : Shows s t A) (hg : s.Granted) (proc : Nat) {path : CString}
    (hfits : Fits path) :
    ∃ r t', s.call proc (.lookupOpenClose path) = some (.status (A.resolve path).isSome, r) ∧
      Shows r t' A := by
  obtain ⟨r, hcall, hplaces⟩ : ∃ r, s.call proc (.lookupOpenClose path) =
      some (.status (A.resolve path).isSome, r) ∧ Places r t A := by
    rcases h.resolve hg hfits with ⟨p, q, r, x, hp, hlook, hq, hopen, htemp, -⟩ |
      ⟨hnone, r, hlook, hk, hent⟩
    · obtain ⟨r', hclose, hent', -, -, hkeeps⟩ := kvfsClose_live (hopen.node hq).1
      exact ⟨r', by simp [Fs.call, hlook, hclose, hq, hp],
        h.same (hkeeps s hopen.keeps htemp) (hent'.trans hopen.entries)⟩
    · exact ⟨r, by simp [Fs.call, hlook, kvfsClose, hnone], h.same hk hent⟩
  obtain ⟨t', hshows⟩ := h.onTree rfl (by simp [Call.opens?]) (by simp [removed?]) hcall hplaces
  exact ⟨r, t', hcall, hshows⟩

/-- **`kvfs_chdir` goes where the path leads.** -/
theorem Shows.kvfsChdir (h : Shows s t A) (hg : s.Granted) {path : CString} (hfits : Fits path) :
    ∃ r t', s.kvfsChdir path = some ((A.kvfsChdir path).1, r) ∧
      Shows r t' (A.kvfsChdir path).2 := by
  obtain ⟨r, hcall, hplaces⟩ : ∃ r, s.kvfsChdir path = some ((A.kvfsChdir path).1, r) ∧
      Places r t (A.kvfsChdir path).2 := by
    rcases h.resolve hg hfits with ⟨p, q, r, x, hp, hlook, hq, hopen, htemp, hat⟩ |
      ⟨hnone, r, hlook, hk, hent⟩
    · obtain ⟨hnode, e, he⟩ := hopen.node hq
      have hstat := kvfsStatFromNode_newNode hnode (by rw [hopen.entries, he])
      simp only [PathFs.kvfsChdir, hp]
      by_cases hdir : A.tree p = some .dir
      · obtain ⟨e', he', hdir'⟩ := h.rep.isDir hat hdir
        obtain rfl : e = e' := by simpa [he] using he'
        have hsame := h.same hopen.keeps hopen.entries
        have hm : Mounted r t := h.use.mounted.kept hopen.keeps (.same hopen.entries (G := s.Granted))
        obtain ⟨r', hclose, -⟩ := closeCwd_spec hm
        have hplaces := hsame.setCwd hm hnode (by rwa [At, hopen.entries]) hdir
          ((hopen.unheld h.use.mounted htemp).imp (·.cwd) id) hclose
        have hkind : kvfsStatIsDir e.stat.mode = true := hdir'
        rw [if_pos hdir]
        exact ⟨_, by simp [Fs.kvfsChdir, hlook, hq, hstat, hkind, hclose], hplaces⟩
      · have hfile : kvfsStatIsDir e.stat.mode = false := by
          by_contra hno
          exact hdir (h.rep.eq_some_iff.2 ⟨x, hat, e, he, by simpa [TmpfsEntry.isDir] using hno⟩)
        obtain ⟨r', hclose, hent', -, -, hkeeps⟩ := kvfsClose_live hnode
        rw [if_neg hdir]
        exact ⟨r', by simp [Fs.kvfsChdir, hlook, hq, hstat, hfile, hclose],
          h.same (hkeeps s hopen.keeps htemp) (hent'.trans hopen.entries)⟩
    · exact ⟨r, by simp [Fs.kvfsChdir, PathFs.kvfsChdir, hlook, hnone],
        by simpa [PathFs.kvfsChdir, hnone] using h.same hk hent⟩
  have hresult : s.call 0 (.kvfsChdir path) = some (.code (A.kvfsChdir path).1, r) := by
    simp [Fs.call, hcall]
  obtain ⟨t', hshows⟩ := h.onTree rfl (by simp [Call.opens?]) (by simp [removed?]) hresult hplaces
  exact ⟨r, t', hcall, hshows⟩

/-! ## Removals -/

/-- A removal by path: what lies there is removed if it is of the right kind, and the operation on it
succeeds. -/
theorem Shows.removeAt (h : Shows s t A) (hg : s.Granted) {path : CString} (hfits : Fits path)
    {isKind : Nat → Bool} {operation : Fs → Ptr → Option (Bool × Fs)} {P : List CString → Bool}
    (hop : ∀ p x e, s.At t p x → s.entries x = some e →
      if P p = true then isKind e.stat.mode = true ∧ ∀ r node, r.entries = s.entries →
        r.obj node = some (.node (newNode x)) →
          ∃ r', operation r node = some (true, r') ∧ Removes r r' t x
      else isKind e.stat.mode = false ∨ ∀ r node, r.entries = s.entries →
        r.obj node = some (.node (newNode x)) → operation r node = some (false, r))
    (hunused : ∀ r x, s.removeAt path isKind operation = some (true, r) → s.entries x ≠ none →
      r.entries x = none → ¬s.InUse x) :
    ∃ r t', s.removeAt path isKind operation = some (((A.resolve path).filter P).isSome, r) ∧
      Places r t' (A.remove ((A.resolve path).filter P)) := by
  rcases h.resolve hg hfits with ⟨p, q, r, x, hp, hlook, hq, hopen, htemp, hat⟩ |
    ⟨hnone, r, hlook, hk, hent⟩
  · obtain ⟨hnode, e, he⟩ := hopen.node hq
    have hstat := kvfsGetStat_refers (refers_newNode hnode)
      (entries_eq_some.1 (by rw [hopen.entries, he]))
    have hx := hop p x e hat he
    rw [hp]
    by_cases hP : P p = true
    · rw [if_pos hP] at hx
      obtain ⟨hkind, hdoes⟩ := hx
      obtain ⟨r₂, hremove, hkeeps, hchange⟩ := hdoes r q hopen.entries hnode
      obtain ⟨r₃, hclose, hent₃, -, -, hkeeps₃⟩ := kvfsClose_live (hkeeps.other _ _ hnode (by simp))
      have hcall : s.removeAt path isKind operation = some (true, r₃) := by
        simp [Fs.removeAt, hlook, hq, hstat, hkind, hremove, hclose]
      obtain ⟨t', hchange⟩ := hchange True
      rw [hopen.entries, ← hent₃] at hchange
      have hx0 : x ≠ 0 := ne_zero_of_obj (entries_eq_some.1 he)
      have hk := hkeeps₃ s (hopen.keeps.trans hkeeps) htemp
      obtain ⟨hrep, hstay⟩ := h.rep.remove hat trivial hk hx0 hchange
      have hlists := h.rep.lists_remove h.lists hat hx0 hchange
      have hunsized : Unsized r₃.entries := by
        cases hchange with
        | same => exact absurd rfl hx0
        | insert => exact absurd rfl hx0
        | remove hp _ _ _ _ hm => exact h.unsized.remove hp hm
      have hgone : r₃.entries x = none := by
        cases hchange with
        | same => exact absurd rfl hx0
        | insert => exact absurd rfl hx0
        | remove _ _ _ _ _ hm => exact hm.gone
      rw [Option.filter_some_pos hP]
      refine ⟨r₃, t', hcall, h.toPlaces.keeps hk rfl rfl ⟨hrep, hlists, hunsized⟩
        (fun p' y hy hused => hstay p' y hy ?_) (PathFs.enlarges_erase h.small p)⟩
      rintro rfl
      exact hunused r₃ y hcall (by simp [he]) hgone hused
    · rw [if_neg hP] at hx
      rw [Option.filter_some_neg (by simpa using hP)]
      refine ⟨r, t, ?_, h.same hopen.keeps hopen.entries⟩
      rcases hx with hkind | hrefuses
      · simp [Fs.removeAt, hlook, hq, hstat, hkind]
      · simp [Fs.removeAt, hlook, hq, hstat, hrefuses r q hopen.entries hnode]
  · rw [hnone]
    exact ⟨r, t, by simp [Fs.removeAt, hlook], h.same hk hent⟩

/-- **`kvfs_unlink` takes a file away.** -/
theorem Shows.kvfsUnlink (h : Shows s t A) (hg : s.Granted) {path : CString} (hfits : Fits path)
    (hunused : ∀ x ∈ s.removed? (.kvfsUnlink path), ¬s.InUse x) :
    ∃ r t', s.kvfsUnlink path = some ((A.kvfsUnlink path).1, r) ∧
      Shows r t' (A.kvfsUnlink path).2 := by
  have hok : CallOk s (.kvfsUnlink path) :=
    ⟨fun path _ => h.use.live.startsInUse h.use.mounted path, fun _ ho => by cases ho⟩
  have hremoves : ∃ r t', s.removeAt path kvfsStatIsReg ktmpfsUnlink =
      some ((A.unlinked path).isSome, r) ∧ Places r t' (A.remove (A.unlinked path)) := by
    refine h.removeAt hg hfits (fun p x e hat he => ?_) fun r x hremove hx hgone => ?_
    · obtain ⟨n, hn, hnode⟩ := h.rep.node p x hat
      cases n with
      | dir =>
        obtain ⟨e', he', hdir⟩ := hnode
        obtain rfl : e = e' := by simpa [he] using he'
        rw [if_neg (by simp [PathFs.isFile, hn])]
        exact Or.inl (isReg_of_isDir hdir)
      | file bytes =>
        obtain ⟨e', he', hh⟩ := hnode
        obtain rfl : e = e' := by simpa [entries_eq_some.1 he] using he'
        rw [if_pos (by simp [PathFs.isFile, hn])]
        refine ⟨hh.isReg, fun r node hent hnode => ?_⟩
        exact ktmpfsUnlink_spec (by rw [hent]; exact h.rep.tree) hnode (by rw [hent, he]) hh.isReg
    · have hcall : s.call 0 (.kvfsUnlink path) = some (.status true, r) := by
        simp [Fs.call, Fs.kvfsUnlink, hremove]
      exact hunused x (call_removes h.use.mounted 0 rfl hok hcall hx hgone)
  obtain ⟨r, t', hunlink, hplaces⟩ := hremoves
  have hcall : s.call 0 (.kvfsUnlink path) = some (.status (A.unlinked path).isSome, r) := by
    simp [Fs.call, Fs.kvfsUnlink, hunlink]
  obtain ⟨t'', hshows⟩ := h.onTree rfl (by simp [Call.opens?]) hunused hcall hplaces
  exact ⟨r, t'', hunlink, hshows⟩

/-- **`krmdir` takes an empty directory away**, other than the root. -/
theorem Shows.krmdir (h : Shows s t A) (hg : s.Granted) {path : CString}
    (hfits : refusedPath path = true ∨ Fits path)
    (hunused : ∀ x ∈ s.removed? (.krmdir path), ¬s.InUse x) :
    ∃ r t', s.krmdir path = some ((A.krmdir path).1, r) ∧ Shows r t' (A.krmdir path).2 := by
  by_cases hyes : refusedPath path = true
  · exact ⟨s, t, by simp [Fs.krmdir, PathFs.krmdir, hyes], by simpa [PathFs.krmdir, hyes] using h⟩
  have hrefused : refusedPath path = false := by simpa using hyes
  have hok : CallOk s (.krmdir path) :=
    ⟨fun path _ => h.use.live.startsInUse h.use.mounted path, fun _ ho => by cases ho⟩
  have hremoves : ∃ r t', s.removeAt path kvfsStatIsDir ktmpfsRmdir =
      some ((A.rmdired path).isSome, r) ∧ Places r t' (A.remove (A.rmdired path)) := by
    refine h.removeAt hg (hfits.resolve_left hyes) (fun p x e hat he => ?_)
      fun r x hremove hx hgone => ?_
    · have hroot : p = [] ↔ x = t.root := by
        constructor
        · rintro rfl
          exact h.rep.at_unique hat .root
        · rintro rfl
          exact hat.path_unique .root
      have hspare : A.isSpare p = true ↔ A.tree p = some .dir ∧ x ≠ t.root ∧ t.kids x = [] := by
        simp only [PathFs.isSpare, decide_eq_true_eq, h.rep.childless_iff hat, hroot, ne_eq]
      by_cases hdir : kvfsStatIsDir e.stat.mode = true
      · have hF : A.tree p = some .dir := h.rep.eq_some_iff.2 ⟨x, hat, e, he, hdir⟩
        by_cases hempty : x ≠ t.root ∧ t.kids x = []
        · rw [if_pos (hspare.2 ⟨hF, hempty⟩)]
          refine ⟨hdir, fun r node hent hnode => ?_⟩
          rcases ktmpfsRmdir_spec (by rw [hent]; exact h.rep.tree) hnode (by rw [hent, he]) with
            ⟨-, -, hdone⟩ | ⟨hno, -⟩
          · exact hdone
          · exact absurd hempty hno
        · rw [if_neg fun hP => hempty (hspare.1 hP).2]
          refine Or.inr fun r node hent hnode => ?_
          rcases ktmpfsRmdir_spec (by rw [hent]; exact h.rep.tree) hnode (by rw [hent, he]) with
            ⟨hr, hkids, -⟩ | ⟨-, hdone⟩
          · exact absurd ⟨hr, hkids⟩ hempty
          · exact hdone
      · rw [if_neg fun hP => hdir (by
          obtain ⟨e', he', hdir'⟩ := h.rep.isDir hat (hspare.1 hP).1
          obtain rfl : e = e' := by simpa [he] using he'
          exact hdir')]
        exact Or.inl (by simpa using hdir)
    · have hcall : s.call 0 (.krmdir path) = some (.code 0, r) := by
        simp [Fs.call, Fs.krmdir, Fs.kvfsRmdir, hrefused, hremove]
      exact hunused x (call_removes h.use.mounted 0 rfl hok hcall hx hgone)
  obtain ⟨r, t', hrmdir, hplaces⟩ := hremoves
  have hA : A.krmdir path =
      (if (A.rmdired path).isSome then 0 else -1, A.remove (A.rmdired path)) := by
    rw [PathFs.krmdir, if_neg hyes]
  have hcall : s.krmdir path = some ((A.krmdir path).1, r) := by
    simp [Fs.krmdir, Fs.kvfsRmdir, hrefused, hrmdir, hA]
  have hresult : s.call 0 (.krmdir path) = some (.code (A.krmdir path).1, r) := by
    simp [Fs.call, hcall]
  rw [← show (A.krmdir path).2 = A.remove (A.rmdired path) by rw [hA]] at hplaces
  obtain ⟨t'', hshows⟩ := h.onTree rfl (by simp [Call.opens?]) hunused hresult hplaces
  exact ⟨r, t'', hcall, hshows⟩

end Fs

end DelOs
