import DelOs.Fs.Listing
import DelOs.Fs.PathShows

/-!
# The file system refines a map from paths

* `Shows.kfdRead`, `Shows.kfdWrite`, `Shows.kfdReaddir` — **a read takes the bytes of the file at the
  path, a write splices them, a listing says what lies in the directory**.
* `Orderly` — the calls that the files by path account for.
* `Shows.step` — one call, with the same result.
* `refines_paths` — **over every run of such calls, the file system returns what the files by path
  return**.
-/

namespace DelOs

open FirstFit LinkedList PathTree Splice Transition

namespace PathFs

variable {A : PathFs} {proc : Nat} {fd : Int} {o : OpenFile} {bytes : List UInt8}

/-- An open file that is left where it is. -/
theorem setFile_of_file (ho : A.file proc fd = some o) : A.setFile proc fd.toNat (some o) = A := by
  unfold file at ho
  split_ifs at ho
  rw [← ho, setFile_self]

theorem kfdRead_of_none (ho : A.file proc fd = none) (len : Nat) :
    A.kfdRead proc fd len = ([], A) := by
  rw [kfdRead, ho]

theorem kfdRead_of_dir (ho : A.file proc fd = some o) (hn : A.tree o.path = some .dir) (len : Nat) :
    A.kfdRead proc fd len = ([], A) := by
  rw [kfdRead, ho]
  simp only [hn]

theorem kfdRead_of_file (ho : A.file proc fd = some o) (hn : A.tree o.path = some (.file bytes))
    (len : Nat) :
    A.kfdRead proc fd len = if Fs.MayRead o.flags then
        ((bytes.drop o.offset).take len, A.setFile proc fd.toNat
          (some { o with offset := o.offset + min len (bytes.length - o.offset) }))
      else ([], A) := by
  rw [kfdRead, ho]
  simp only [hn]

theorem kfdRead_zero (ho : A.file proc fd = some o) {n : PathNode (List UInt8)}
    (hn : A.tree o.path = some n) : A.kfdRead proc fd 0 = ([], A) := by
  cases n with
  | dir => exact kfdRead_of_dir ho hn 0
  | file bytes =>
    rw [kfdRead_of_file ho hn]
    simp only [List.take_zero, Nat.zero_min, Nat.add_zero, setFile_of_file ho, ite_self]

theorem kfdWrite_of_none (ho : A.file proc fd = none) (buffer : List UInt8) :
    A.kfdWrite proc fd buffer = (0, A) := by
  rw [kfdWrite, ho]

theorem kfdWrite_of_dir (ho : A.file proc fd = some o) (hn : A.tree o.path = some .dir)
    (buffer : List UInt8) : A.kfdWrite proc fd buffer = (0, A) := by
  rw [kfdWrite, ho]
  simp only [hn]

theorem kfdWrite_of_file (ho : A.file proc fd = some o) (hn : A.tree o.path = some (.file bytes))
    (buffer : List UInt8) :
    A.kfdWrite proc fd buffer = if Fs.MayWrite o.flags then
        (buffer.length,
          { A.setFile proc fd.toNat (some { o with offset := o.offset + buffer.length }) with
            tree := A.tree.putFile o.path (splice bytes o.offset buffer) })
      else (0, A) := by
  rw [kfdWrite, ho]
  simp only [hn]

theorem kfdWrite_nil (ho : A.file proc fd = some o) {n : PathNode (List UInt8)}
    (hn : A.tree o.path = some n) : A.kfdWrite proc fd [] = (0, A) := by
  cases n with
  | dir => exact kfdWrite_of_dir ho hn []
  | file bytes =>
    have hput : A.tree.putFile o.path bytes = A.tree := by
      rw [putFile, ← hn, Function.update_eq_self]
    rw [kfdWrite_of_file ho hn]
    simp only [List.length_nil, splice_nil, Nat.add_zero, setFile_of_file ho, hput, ite_self]

theorem kfdReaddir_of_none (ho : A.file proc fd = none) : A.kfdReaddir proc fd = (none, A) := by
  rw [kfdReaddir, ho]

theorem kfdReaddir_of_some (ho : A.file proc fd = some o) :
    A.kfdReaddir proc fd = if A.tree o.path = some .dir ∧ Fs.MayRead o.flags then
        ((A.list o.path)[o.offset]?.map (A.dirent o.path),
          A.setFile proc fd.toNat (some { o with offset := u32 (o.offset + 1) }))
      else (none, A) := by
  rw [kfdReaddir, ho]

theorem enlarges_putFile {F : PathTree CString (List UInt8)}
    (hsmall : ∀ path bytes, F path = some (.file bytes) → bytes.length < 2 ^ 29)
    {p : List CString} {bytes' : List UInt8} (hp : F p = some (.file bytes))
    (hle : bytes.length ≤ bytes'.length) (hsize : bytes'.length < 2 ^ 29) :
    Enlarges F (F.putFile p bytes') := by
  intro path b hpath
  rw [putFile, Function.update_apply] at hpath
  split_ifs at hpath with heq
  · obtain rfl : bytes' = b := by simpa using hpath
    exact ⟨hsize, Or.inr ⟨bytes, heq ▸ hp, hle⟩⟩
  · exact enlarges_refl hsmall path b hpath

end PathFs

namespace Fs

variable {s r : Fs} {t t' : OrderedTree Ptr} {A : PathFs} {proc : Nat} {fd : Int} {o : OpenFile}

/-! ## Through a descriptor -/

/-- What the descriptor of an open file is. -/
theorem Places.descriptor (h : Places s t A) (ho : A.file proc fd = some o) :
    ∃ d x e, s.kfdGet proc fd = s.fds proc fd.toNat ∧ A.files proc fd.toNat = some o ∧
      StandsFor s t proc fd.toNat o d x ∧ Descriptor s proc fd d x e := by
  obtain ⟨hfile, hget⟩ := Places.file_eq (s := s) ho
  obtain ⟨d, x, hd⟩ := h.opened proc fd.toNat o hfile
  obtain ⟨e, he⟩ := (h.rep.tree.mem x).1 hd.path.mem
  exact ⟨d, x, e, hget, hfile, hd, by rw [hget]; exact hd.desc, refers_newNode hd.node,
    entries_eq_some.1 he⟩

/-- The offset stored after an operation. -/
theorem Places.advance (h : Places s t A) (hm : Mounted s t) (ho : A.file proc fd = some o)
    {d : FileDesc} (hd : s.obj (s.fds proc fd.toNat) = some (.desc d)) {n : Nat}
    (hn : ∀ bytes, A.tree o.path = some (.file bytes) → n ≤ bytes.length) :
    ∃ r, s.setOffset (s.kfdGet proc fd) n = some r ∧
      Places r t (A.setFile proc fd.toNat (some { o with offset := n })) ∧ KeepsRaw s r := by
  obtain ⟨hfile, hget⟩ := Places.file_eq (s := s) ho
  exact ⟨_, by rw [hget]; exact setOffset_spec hd n, h.setOffset hm hfile hd hn,
    keepsRaw_put hd (by simp) _⟩

/-- A descriptor that an operation leaves where it is. -/
theorem Places.advance_zero (h : Places s t A) (hm : Mounted s t) (ho : A.file proc fd = some o)
    {d : FileDesc} {x : Ptr} (hd : StandsFor s t proc fd.toNat o d x) :
    ∃ r, s.setOffset (s.kfdGet proc fd) d.offset = some r ∧ Places r t A ∧ KeepsRaw s r := by
  obtain ⟨hfile, -⟩ := Places.file_eq (s := s) ho
  obtain ⟨r, hset, hplaces, hraw⟩ := h.advance hm ho hd.desc fun bytes => h.within _ _ o bytes hfile
  rw [PathFs.setFile_of_file ho] at hplaces
  exact ⟨r, by rw [hd.offset, hset], hplaces, hraw⟩

/-! ### Reading -/

theorem kfdRead_refused {d : FileDesc} {x : Ptr} {e : TmpfsEntry} (hdesc : Descriptor s proc fd d x e)
    (hcheck : kfdCheckAccess d KFD_ACCESS_READ = false) (len : Nat) :
    s.kfdRead proc fd len = some ([], s) := by
  have hacc := kfdAccess_spec KFD_ACCESS_READ (kvfsStatCanRead · Cred.root) hdesc.desc hdesc.node
    hdesc.entry
  simp only [hcheck, Bool.false_and, Bool.false_eq_true, if_false] at hacc
  simp only [kfdRead, hacc, Option.bind_eq_bind, Option.bind_some, Option.pure_def, ite_self]

theorem kfdRead_allowed {d : FileDesc} {x : Ptr} {e : TmpfsEntry} (hdesc : Descriptor s proc fd d x e)
    (hcheck : kfdCheckAccess d KFD_ACCESS_READ = true) {len : Nat} (hlen : len ≠ 0)
    {bytes : List UInt8} {offset : Nat}
    (hread : s.ktmpfsRead d.node d.offset len = some (bytes, offset, r)) :
    s.kfdRead proc fd len =
      (r.setOffset (r.kfdGet proc fd) offset).bind fun r' => some (bytes, r') := by
  have hacc := kfdAccess_spec KFD_ACCESS_READ (kvfsStatCanRead · Cred.root) hdesc.desc hdesc.node
    hdesc.entry
  have hkvfs : s.kvfsRead d.node d.offset len = some (bytes, offset, r) := by
    simp [kvfsRead, hdesc.node_ne_zero, hlen, kvfsGetStat_refers hdesc.node hdesc.entry, hread]
  rw [hcheck, kvfsStatCanRead_root, Bool.and_self, if_pos rfl] at hacc
  simp only [kfdRead, if_neg hlen, hacc, hkvfs, Option.bind_eq_bind, Option.bind_some,
    Option.pure_def]

/-- A read of a directory has no bytes. -/
theorem Places.kfdRead_dir (h : Places s t A) (hm : Mounted s t) (ho : A.file proc fd = some o)
    (hn : A.tree o.path = some .dir) {len : Nat} (hlen : len ≠ 0) :
    ∃ r, s.kfdRead proc fd len = some ([], r) ∧ Places r t A ∧ KeepsRaw s r := by
  obtain ⟨d, x, e, hget, hfile, hd, hdesc⟩ := h.descriptor ho
  obtain ⟨e', he', hdir⟩ := h.rep.isDir hd.path hn
  obtain rfl : e = e' := by simpa [hdesc.entry] using entries_eq_some.1 he'
  have hread : s.ktmpfsRead d.node d.offset len = some ([], d.offset, s) := by
    obtain ⟨n, hn, -, rfl⟩ := hdesc.node
    simp [ktmpfsRead, ne_zero_of_obj hn, ne_zero_of_obj hdesc.entry, hlen, nodeAt_of_obj hn,
      entryAt_of_obj hdesc.entry, h.rep.tree.isChr he', isReg_of_isDir hdir, TmpfsEntry.isReg]
  cases hcheck : kfdCheckAccess d KFD_ACCESS_READ with
  | false => exact ⟨s, kfdRead_refused hdesc hcheck len, h, fun _ hq => hq⟩
  | true =>
    obtain ⟨r, hset, hplaces, hraw⟩ := h.advance_zero hm ho hd
    exact ⟨r, by rw [kfdRead_allowed hdesc hcheck hlen hread, hset, Option.bind_some], hplaces, hraw⟩

/-- A new access time is no change of the files by path. -/
theorem Places.put_atime (h : Places s t A) {x : Ptr} {e : TmpfsEntry}
    (he : s.obj x = some (.entry e)) :
    Places (s.put x (.entry { e with stat := kvfsStatUpdateAtime e.stat })) t A := by
  have hother : ∀ {q o}, s.obj q = some o → (∀ e, o ≠ .entry e) →
      (s.put x (.entry { e with stat := kvfsStatUpdateAtime e.stat })).obj q = some o := by
    intro q o hq hne
    rw [obj_put (by simp [he]), Function.update_of_ne, hq]
    rintro rfl
    rw [he] at hq
    exact hne e (by simpa using hq.symm)
  have hent := entries_put (s := s) (p := x) (by simp [he])
    { e with stat := kvfsStatUpdateAtime e.stat }
  have hplace : SamePlaces s.entries
      (s.put x (.entry { e with stat := kvfsStatUpdateAtime e.stat })).entries := by
    rw [hent]
    exact samePlaces_update (entries_eq_some.2 he) ⟨rfl, rfl, rfl, rfl, rfl, rfl⟩
  obtain ⟨hrep, hat⟩ := h.rep.kept hplace
    (fun q e₀ he₀ => by
      rw [hent, Function.update_apply]
      split_ifs with hq
      · obtain rfl : e = e₀ := by simpa [hq, entries_eq_some.2 he] using he₀
        exact ⟨_, rfl, rfl, rfl, rfl, rfl, rfl, rfl, rfl⟩
      · exact ⟨e₀, he₀, SameFile.refl e₀⟩)
    fun q bytes hq => hother hq (by simp)
  have hunsized : Unsized
      (s.put x (.entry { e with stat := kvfsStatUpdateAtime e.stat })).entries := by
    rw [hent]
    refine h.unsized.of_kept fun q e' he' => Or.inl ?_
    rw [Function.update_apply] at he'
    split_ifs at he' with hq
    · obtain rfl := Option.some.inj he'
      exact ⟨e, hq ▸ entries_eq_some.2 he, rfl, rfl, rfl, rfl, rfl, rfl, rfl⟩
    · exact ⟨e', he', .refl e'⟩
  exact h.change rfl rfl (fun q n hq => hother hq (by simp)) (fun q d hq => hother hq (by simp))
    rfl rfl ⟨hrep, Represents.lists_same h.lists hplace, hunsized⟩ (fun p y hy _ => (hat p y).2 hy)
    (PathFs.enlarges_refl h.small)

/-- A read of a regular file takes a slice of its bytes. -/
theorem Shows.kfdRead_file (h : Shows s t A) (ho : A.file proc fd = some o) {bytes : List UInt8}
    (hn : A.tree o.path = some (.file bytes)) (hmay : MayRead o.flags) {len : Nat} (hlen : len ≠ 0) :
    ∃ r, s.kfdRead proc fd len = some ((bytes.drop o.offset).take len, r) ∧
      Places r t (A.setFile proc fd.toNat
        (some { o with offset := o.offset + min len (bytes.length - o.offset) })) ∧
      KeepsRaw s r := by
  obtain ⟨d, x, e, hget, hfile, hd, hdesc⟩ := h.descriptor ho
  have hcheck : kfdCheckAccess d KFD_ACCESS_READ = true :=
    (kfdCheckAccess_read d).2 (hd.flags ▸ hmay)
  obtain ⟨x', hx', e', he', hh⟩ := h.rep.eq_some_iff.1 hn
  obtain rfl := h.rep.at_unique hd.path hx'
  obtain rfl : e = e' := by simpa [hdesc.entry] using he'
  have hwithin := h.within _ _ o bytes hfile hn
  have hsmall := h.small _ bytes hn
  have hread : s.ktmpfsRead d.node d.offset len = some ((bytes.drop o.offset).take len,
      o.offset + min len (bytes.length - o.offset),
      s.put x (.entry { e with stat := kvfsStatUpdateAtime e.stat })) := by
    rw [hd.offset, ktmpfsRead_spec hdesc.node hdesc.entry hh hwithin hlen, u32_eq (by omega)]
  have hrew := (Fs.put_atime h.use.files hdesc.entry).1
  obtain ⟨_, hdesc'⟩ := hrew.desc _ d hd.desc
  have hbound : ∀ b, A.tree o.path = some (.file b) →
      o.offset + min len (bytes.length - o.offset) ≤ b.length := by
    intro b hb
    obtain rfl : bytes = b := by simpa [hn] using hb
    omega
  obtain ⟨r, hset, hplaces, hraw⟩ := (h.toPlaces.put_atime hdesc.entry).advance
    (h.use.mounted.rewritten hrew) ho hdesc' hbound
  exact ⟨r, by rw [kfdRead_allowed hdesc hcheck hlen hread, hset, Option.bind_some], hplaces,
    (keepsRaw_put hdesc.entry (by simp) _).trans hraw⟩

/-- **`kfd_read` takes the bytes of the file at the path.** -/
theorem Shows.kfdRead (h : Shows s t A) (proc : Nat) (fd : Int) (len : Nat) :
    ∃ r, s.kfdRead proc fd len = some ((A.kfdRead proc fd len).1, r) ∧
      Shows r t (A.kfdRead proc fd len).2 ∧ KeepsRaw s r := by
  obtain ⟨r, hread, hplaces, hraw⟩ : ∃ r,
      s.kfdRead proc fd len = some ((A.kfdRead proc fd len).1, r) ∧
        Places r t (A.kfdRead proc fd len).2 ∧ KeepsRaw s r := by
    cases ho : A.file proc fd with
    | none =>
      have hget := h.kfdGet_eq_zero.2 ho
      rw [PathFs.kfdRead_of_none ho]
      exact ⟨s, by simp [Fs.kfdRead, kfdAccess, hget], h.toPlaces, .refl s⟩
    | some o =>
      obtain ⟨d, x, e, hget, hfile, hd, hdesc⟩ := h.descriptor ho
      obtain ⟨n, hn, -⟩ := h.rep.node o.path x hd.path
      by_cases hlen : len = 0
      · subst hlen
        rw [PathFs.kfdRead_zero ho hn]
        exact ⟨s, by simp [Fs.kfdRead], h.toPlaces, .refl s⟩
      cases n with
      | dir =>
        rw [PathFs.kfdRead_of_dir ho hn]
        exact h.kfdRead_dir h.use.mounted ho hn hlen
      | file bytes =>
        rw [PathFs.kfdRead_of_file ho hn]
        by_cases hmay : MayRead o.flags
        · rw [if_pos hmay]
          exact h.kfdRead_file ho hn hmay hlen
        · have hcheck : kfdCheckAccess d KFD_ACCESS_READ = false := by
            rw [Bool.eq_false_iff]
            exact fun hc => hmay (hd.flags ▸ (kfdCheckAccess_read d).1 hc)
          rw [if_neg hmay]
          exact ⟨s, kfdRead_refused hdesc hcheck len, h.toPlaces, .refl s⟩
  obtain ⟨bytes, r', hread', hrew, hfiles⟩ :=
    kfdRead_rewritten h.use.mounted h.use.live h.use.files proc fd len
  obtain ⟨-, rfl⟩ := Prod.mk.inj (Option.some.inj (hread.symm.trans hread'))
  exact ⟨r, hread, ⟨hplaces, h.use.rewritten hrew hfiles⟩, hraw⟩

/-! ### Writing -/

theorem kfdWrite_refused {d : FileDesc} {x : Ptr} {e : TmpfsEntry} (hdesc : Descriptor s proc fd d x e)
    (hcheck : kfdCheckAccess d KFD_ACCESS_WRITE = false) (buffer : List UInt8) :
    s.kfdWrite proc fd buffer = some (0, s) := by
  have hacc := kfdAccess_spec KFD_ACCESS_WRITE (kvfsStatCanWrite · Cred.root) hdesc.desc hdesc.node
    hdesc.entry
  simp only [hcheck, Bool.false_and, Bool.false_eq_true, if_false] at hacc
  simp only [kfdWrite, hacc, Option.bind_eq_bind, Option.bind_some, Option.pure_def, ite_self]

theorem kfdWrite_allowed {d : FileDesc} {x : Ptr} {e : TmpfsEntry} (hdesc : Descriptor s proc fd d x e)
    (hcheck : kfdCheckAccess d KFD_ACCESS_WRITE = true) {buffer : List UInt8}
    (hlen : buffer.length ≠ 0) {written offset : Nat}
    (hwrite : s.ktmpfsWrite d.node d.offset buffer = some (written, offset, r)) :
    s.kfdWrite proc fd buffer =
      (r.setOffset (r.kfdGet proc fd) offset).bind fun r' => some (written, r') := by
  have hacc := kfdAccess_spec KFD_ACCESS_WRITE (kvfsStatCanWrite · Cred.root) hdesc.desc hdesc.node
    hdesc.entry
  have hkvfs : s.kvfsWrite d.node d.offset buffer = some (written, offset, r) := by
    simp [kvfsWrite, hdesc.node_ne_zero, hlen, kvfsGetStat_refers hdesc.node hdesc.entry, hwrite]
  rw [hcheck, kvfsStatCanWrite_root, Bool.and_self, if_pos rfl] at hacc
  simp only [kfdWrite, if_neg hlen, hacc, hkvfs, Option.bind_eq_bind, Option.bind_some,
    Option.pure_def]

/-- A directory is not written. -/
theorem Places.kfdWrite_dir (h : Places s t A) (hm : Mounted s t) (ho : A.file proc fd = some o)
    (hn : A.tree o.path = some .dir) {buffer : List UInt8} (hlen : buffer.length ≠ 0) :
    ∃ r, s.kfdWrite proc fd buffer = some (0, r) ∧ Places r t A := by
  obtain ⟨d, x, e, hget, hfile, hd, hdesc⟩ := h.descriptor ho
  obtain ⟨e', he', hdir⟩ := h.rep.isDir hd.path hn
  obtain rfl : e = e' := by simpa [hdesc.entry] using entries_eq_some.1 he'
  have hwrite : s.ktmpfsWrite d.node d.offset buffer = some (0, d.offset, s) := by
    obtain ⟨n, hn, -, rfl⟩ := hdesc.node
    simp [ktmpfsWrite, ne_zero_of_obj hn, ne_zero_of_obj hdesc.entry, hlen, nodeAt_of_obj hn,
      entryAt_of_obj hdesc.entry, h.rep.tree.isChr he', isReg_of_isDir hdir, TmpfsEntry.isReg]
  cases hcheck : kfdCheckAccess d KFD_ACCESS_WRITE with
  | false => exact ⟨s, kfdWrite_refused hdesc hcheck buffer, h⟩
  | true =>
    obtain ⟨r, hset, hplaces, -⟩ := h.advance_zero hm ho hd
    exact ⟨r, by rw [kfdWrite_allowed hdesc hcheck hlen hwrite, hset, Option.bind_some], hplaces⟩

/-- A write to a regular file splices its bytes. -/
theorem Shows.kfdWrite_file (h : Shows s t A) (hg : s.Granted) (ho : A.file proc fd = some o)
    {bytes : List UInt8} (hn : A.tree o.path = some (.file bytes)) (hmay : MayWrite o.flags)
    {buffer : List UInt8} (hlen : buffer.length ≠ 0) (hend : o.offset + buffer.length < 2 ^ 29) :
    ∃ r, s.kfdWrite proc fd buffer = some (buffer.length, r) ∧
      Places r t { A.setFile proc fd.toNat (some { o with offset := o.offset + buffer.length }) with
        tree := A.tree.putFile o.path (splice bytes o.offset buffer) } := by
  obtain ⟨d, x, e, hget, hfile, hd, hdesc⟩ := h.descriptor ho
  have hcheck : kfdCheckAccess d KFD_ACCESS_WRITE = true :=
    (kfdCheckAccess_write d).2 (hd.flags ▸ hmay)
  obtain ⟨x', hx', e', he', hh⟩ := h.rep.eq_some_iff.1 hn
  obtain rfl := h.rep.at_unique hd.path hx'
  obtain rfl : e = e' := by simpa [hdesc.entry] using he'
  have hwithin := h.within _ _ o bytes hfile hn
  have hsmall := h.small _ bytes hn
  obtain ⟨r₁, e₁, data, hwrite, hrew, hsame, hholds⟩ := ktmpfsWrite_spec hdesc.node hdesc.entry hh
    hwithin hlen (by omega) fun _ => allocates_of_granted (by omega) hend.le hg
  obtain ⟨hrep, hat⟩ := h.rep.store h.use.files hd.path hdesc.entry hrew hh.content hsame hholds
  have hrewritten := hrew.rewritten hdesc.entry hh.content hsame
  have hlists := Represents.lists_same h.lists hrewritten.entry
  have hunsized : Unsized r₁.entries := by
    rw [hrew.entries hh.content.entries_eq]
    exact h.unsized.update x (isDir_of_isReg hholds.isReg)
  have hhandles := hrew.sameHandles hdesc.entry hh.content
  have hlength : (splice bytes o.offset buffer).length = max (o.offset + buffer.length) bytes.length :=
    length_splice buffer hwithin
  have hplaces : Places r₁ t
      { A with tree := A.tree.putFile o.path (splice bytes o.offset buffer) } :=
    h.change hrew.frame.cwd hrew.frame.fds
      (fun q n hq => (hhandles q _ (by simp) (by simp)).2 hq)
      (fun q d hq => (hhandles q _ (by simp) (by simp)).2 hq) rfl rfl ⟨hrep, hlists, hunsized⟩
      (fun p y hy _ => (hat p y).2 hy) (PathFs.enlarges_putFile h.small hn (by omega) (by omega))
  have hm := h.use.mounted.rewritten hrewritten
  have hdesc' : r₁.obj (r₁.fds proc fd.toNat) = some (.desc d) := by
    rw [hrew.frame.fds]
    exact (hhandles _ _ (by simp) (by simp)).2 hd.desc
  have hbound : ∀ b, (A.tree.putFile o.path (splice bytes o.offset buffer)) o.path =
      some (.file b) → o.offset + buffer.length ≤ b.length := by
    intro b hb
    obtain rfl : splice bytes o.offset buffer = b := by simpa [putFile] using hb
    omega
  obtain ⟨r, hset, hadv, -⟩ := hplaces.advance hm ho hdesc' hbound
  refine ⟨r, ?_, hadv⟩
  rw [← hd.offset] at hwrite hset
  rw [kfdWrite_allowed hdesc hcheck hlen hwrite, hset, Option.bind_some]

/-- No write through a descriptor ends behind the largest block. -/
def EndsInBlock (s : Fs) (proc : Nat) (fd : Int) (buffer : List UInt8) : Prop :=
  ∀ d ∈ s.descAt (s.kfdGet proc fd), d.offset + buffer.length < 2 ^ 29

instance (s : Fs) (proc : Nat) (fd : Int) (buffer : List UInt8) :
    Decidable (EndsInBlock s proc fd buffer) :=
  inferInstanceAs (Decidable (∀ d ∈ _, _))

theorem EndsInBlock.keeps {buffer : List UInt8} (h : EndsInBlock s proc fd buffer)
    (hg : s.Granted) : WriteKeeps s proc fd buffer := by
  intro d hd n _ e _ hlen _ _
  have hend := h d hd
  exact Or.inl ⟨by omega, fun _ => allocates_of_granted (by omega) hend.le hg⟩

/-- **`kfd_write` splices the bytes of the file at the path.** -/
theorem Shows.kfdWrite (h : Shows s t A) (hg : s.Granted) {proc : Nat} {fd : Int}
    {buffer : List UInt8} (hend : EndsInBlock s proc fd buffer) :
    ∃ r, s.kfdWrite proc fd buffer = some ((A.kfdWrite proc fd buffer).1, r) ∧
      Shows r t (A.kfdWrite proc fd buffer).2 := by
  obtain ⟨r, hwrite, hplaces⟩ : ∃ r,
      s.kfdWrite proc fd buffer = some ((A.kfdWrite proc fd buffer).1, r) ∧
        Places r t (A.kfdWrite proc fd buffer).2 := by
    cases ho : A.file proc fd with
    | none =>
      have hget := h.kfdGet_eq_zero.2 ho
      rw [PathFs.kfdWrite_of_none ho]
      exact ⟨s, by simp [Fs.kfdWrite, kfdAccess, hget], h.toPlaces⟩
    | some o =>
      obtain ⟨d, x, e, hget, hfile, hd, hdesc⟩ := h.descriptor ho
      obtain ⟨n, hn, -⟩ := h.rep.node o.path x hd.path
      by_cases hlen : buffer.length = 0
      · obtain rfl := List.length_eq_zero_iff.1 hlen
        rw [PathFs.kfdWrite_nil ho hn]
        exact ⟨s, by simp [Fs.kfdWrite], h.toPlaces⟩
      cases n with
      | dir =>
        rw [PathFs.kfdWrite_of_dir ho hn]
        exact h.kfdWrite_dir h.use.mounted ho hn hlen
      | file bytes =>
        rw [PathFs.kfdWrite_of_file ho hn]
        by_cases hmay : MayWrite o.flags
        · rw [if_pos hmay]
          exact h.kfdWrite_file hg ho hn hmay hlen
            (hd.offset ▸ hend d (descAt_of_obj hdesc.desc))
        · have hcheck : kfdCheckAccess d KFD_ACCESS_WRITE = false := by
            rw [Bool.eq_false_iff]
            exact fun hc => hmay (hd.flags ▸ (kfdCheckAccess_write d).1 hc)
          rw [if_neg hmay]
          exact ⟨s, kfdWrite_refused hdesc hcheck buffer, h.toPlaces⟩
  obtain ⟨written, r', hwrite', hrew, hfiles⟩ :=
    kfdWrite_rewritten h.use.mounted h.use.live h.use.files (hend.keeps hg)
  obtain ⟨-, rfl⟩ := Prod.mk.inj (Option.some.inj (hwrite.symm.trans hwrite'))
  exact ⟨r, hwrite, hplaces, h.use.rewritten hrew hfiles⟩

/-! ### Listing -/

/-- What a listing says of the entries of a directory. -/
theorem Places.direntOf_kid (h : Places s t A) {path : List CString} {x q : Ptr}
    (hx : s.At t path x) (hq : q ∈ t.kids x) :
    direntOf s.entries q = some (A.dirent path (nameOf s.entries q)) := by
  have hat : s.At t (path ++ [nameOf s.entries q]) q := .kid hx hq rfl
  obtain ⟨n, hn, hnode⟩ := h.rep.node _ q hat
  rw [PathFs.dirent, hn]
  cases n with
  | dir =>
    obtain ⟨e, he, hdir⟩ := hnode
    have hkind : kvfsStatType e.stat.mode = KVFS_STAT_IFDIR := by
      simpa [TmpfsEntry.isDir, kvfsStatIsDir] using hdir
    simp [direntOf, he, TmpfsEntry.dirent, hkind, nameOf]
  | file bytes =>
    obtain ⟨e, he, hh⟩ := hnode
    have hkind : kvfsStatType e.stat.mode = KVFS_STAT_IFREG := by
      simpa [TmpfsEntry.isReg, kvfsStatIsReg] using hh.isReg
    simp [direntOf, entries_eq_some.2 he, TmpfsEntry.dirent, hkind, nameOf]

/-- `ktmpfs_readdir` says what lies at the offset. -/
theorem Places.ktmpfsReaddir (h : Places s t A) {path : List CString} {node x : Ptr}
    (hx : s.At t path x) (hnode : s.Refers node x) {e : TmpfsEntry}
    (he : s.obj x = some (.entry e)) (offset : Nat) :
    s.ktmpfsReaddir node offset = some ((A.list path)[offset]?.map (A.dirent path),
      u32 (offset + 1), s.put x (.entry { e with stat := kvfsStatUpdateAtime e.stat })) := by
  obtain ⟨hnext, hdirent⟩ := entries_put_atime he
  have hlist : IsList (nextOf
      (s.put x (.entry { e with stat := kvfsStatUpdateAtime e.stat })).entries) e.child
      (t.kids x) :=
    (h.rep.tree.child x e (entries_eq_some.2 he)).congr fun q _ => by rw [hnext]
  have hwalk := nthChild_isList hlist offset
  have hout := fillOutDirent_isList hlist offset
  have hsays : (t.kids x)[offset]?.bind (direntOf s.entries) =
      (A.list path)[offset]?.map (A.dirent path) := by
    rw [h.lists path x hx, List.getElem?_map]
    cases hq : (t.kids x)[offset]? with
    | none => rfl
    | some q => exact h.direntOf_kid hx (List.mem_of_getElem? hq)
  rw [hdirent, hsays] at hout
  obtain ⟨n, hn, -, rfl⟩ := hnode
  simp only [Fs.ktmpfsReaddir, if_neg (ne_zero_of_obj hn), nodeAt_of_obj hn, entryAt_of_obj he,
    hwalk, hout, Option.bind_eq_bind, Option.bind_some, Option.pure_def]

/-- **`kfd_readdir` says what lies in the directory at the path.** -/
theorem Shows.kfdReaddir (h : Shows s t A) (proc : Nat) (fd : Int) :
    ∃ r, s.kfdReaddir proc fd = some ((A.kfdReaddir proc fd).1, r) ∧
      Shows r t (A.kfdReaddir proc fd).2 ∧ KeepsRaw s r := by
  obtain ⟨r, hread, hplaces, hraw⟩ : ∃ r,
      s.kfdReaddir proc fd = some ((A.kfdReaddir proc fd).1, r) ∧
        Places r t (A.kfdReaddir proc fd).2 ∧ KeepsRaw s r := by
    cases ho : A.file proc fd with
    | none =>
      have hget := h.kfdGet_eq_zero.2 ho
      rw [PathFs.kfdReaddir_of_none ho]
      exact ⟨s, by simp [Fs.kfdReaddir, kfdAccess, hget], h.toPlaces, .refl s⟩
    | some o =>
      obtain ⟨d, x, e, hget, hfile, hd, hdesc⟩ := h.descriptor ho
      have hacc := kfdAccess_spec KFD_ACCESS_READ (kvfsStatIsDir ·.mode) hdesc.desc hdesc.node
        hdesc.entry
      have hcheck : kfdCheckAccess d KFD_ACCESS_READ = true ↔ MayRead o.flags :=
        hd.flags ▸ kfdCheckAccess_read d
      have hdir : kvfsStatIsDir e.stat.mode = true ↔ A.tree o.path = some .dir := by
        refine ⟨fun hdir => h.rep.eq_some_iff.2 ⟨x, hd.path, e, entries_eq_some.2 hdesc.entry, hdir⟩,
          fun hn => ?_⟩
        obtain ⟨e', he', hdir⟩ := h.rep.isDir hd.path hn
        obtain rfl : e = e' := by simpa [hdesc.entry] using entries_eq_some.1 he'
        exact hdir
      by_cases hlists : A.tree o.path = some .dir ∧ MayRead o.flags
      · rw [hcheck.2 hlists.2, hdir.2 hlists.1, Bool.and_self, if_pos rfl] at hacc
        have hread := h.ktmpfsReaddir hd.path hdesc.node hdesc.entry d.offset
        have hkvfs : s.kvfsReaddir d.node d.offset = s.ktmpfsReaddir d.node d.offset := by
          simp [kvfsReaddir, hdesc.node_ne_zero, kvfsGetStat_refers hdesc.node hdesc.entry,
            hdir.2 hlists.1]
        have hrew := (Fs.put_atime h.use.files hdesc.entry).1
        obtain ⟨_, hdesc'⟩ := hrew.desc _ d hd.desc
        obtain ⟨r, hset, hplaces, hraw⟩ := (h.toPlaces.put_atime hdesc.entry).advance
          (h.use.mounted.rewritten hrew) ho hdesc' (n := u32 (d.offset + 1)) fun bytes hb => by
            rw [hlists.1] at hb
            cases hb
        rw [PathFs.kfdReaddir_of_some ho, if_pos hlists]
        rw [hd.offset] at hkvfs hread hset hplaces
        exact ⟨r, by simp only [Fs.kfdReaddir, hacc, hd.offset, hkvfs, hread, hset,
          Option.bind_eq_bind, Option.bind_some, Option.pure_def], hplaces,
          (keepsRaw_put hdesc.entry (by simp) _).trans hraw⟩
      · have hno : (kfdCheckAccess d KFD_ACCESS_READ && kvfsStatIsDir e.stat.mode) = false := by
          rw [Bool.eq_false_iff, ne_eq, Bool.and_eq_true, hcheck, hdir]
          exact fun hboth => hlists hboth.symm
        rw [PathFs.kfdReaddir_of_some ho, if_neg hlists]
        rw [hno] at hacc
        exact ⟨s, by simp [Fs.kfdReaddir, hacc], h.toPlaces, .refl s⟩
  obtain ⟨out, r', hread', hrew, hfiles⟩ :=
    kfdReaddir_rewritten h.use.mounted h.use.live h.use.files proc fd
  obtain ⟨-, rfl⟩ := Prod.mk.inj (Option.some.inj (hread.symm.trans hread'))
  exact ⟨r, hread, ⟨hplaces, h.use.rewritten hrew hfiles⟩, hraw⟩

/-! ## Runs -/

/-- The calls that the files by path account for: memory for the nodes, paths that fit, no entry in
use removed, the working directory not closed, no file above half a gigabyte. -/
structure Orderly (s : Fs) (i : Input) : Prop where
  pages : ∀ k, i.pages k = true
  fits : ∀ path ∈ i.call.path?, Fits path
  unused : ∀ x ∈ (s.withInput i).removed? i.call, ¬s.InUse x
  cwd : CwdStays s i
  ends : ∀ w ∈ i.call.writes?, EndsInBlock s i.proc w.1 w.2

/-- A call that does what the files by path do has their result. -/
theorem answers_of {β : Type} {c : Call} {f : β → Result} {x : Option (β × Fs)} {y : β × PathFs}
    (h : ∃ r t', x = some (y.1, r) ∧ Shows r t' y.2) (hcall : s.call proc c = x.map (Prod.map f id))
    (hA : A.call proc c = y.map f id) :
    ∃ r t', s.call proc c = some ((A.call proc c).1, r) ∧ Shows r t' (A.call proc c).2 := by
  obtain ⟨r, t', hx, hr⟩ := h
  rw [hA]
  exact ⟨r, t', by rw [hcall, hx]; rfl, hr⟩

/-- **One call returns what the files by path say**, and the state behind it stands for theirs. -/
theorem Shows.step (h : Shows s t A) {i : Input} (hi : Orderly s i) :
    ∃ r t', s.stepResult i = some ((A.call i.proc i.call).1, r) ∧
      Shows r t' (A.call i.proc i.call).2 := by
  have hin := h.withInput i
  have hg : (s.withInput i).Granted := hi.pages
  unfold stepResult
  cases hc : i.call with
  | kfdOpen path flags mode =>
    obtain ⟨r, t', hr, hshows, -⟩ := hin.kfdOpen hg i.proc (hi.fits path (by rw [hc]; rfl))
      (hi.cwd (path, flags) (by rw [hc]; rfl)) mode
    exact answers_of ⟨r, t', hr, hshows⟩ rfl rfl
  | kfdClose fd =>
    obtain ⟨r, t', hr, hshows, -⟩ := hin.kfdClose i.proc fd
    exact answers_of ⟨r, t', hr, hshows⟩ rfl rfl
  | kfdRead fd len =>
    obtain ⟨r, hr, hshows, -⟩ := hin.kfdRead i.proc fd len
    exact answers_of ⟨r, t, hr, hshows⟩ rfl rfl
  | kfdWrite fd buffer =>
    obtain ⟨r, hr⟩ := hin.kfdWrite hg (hi.ends (fd, buffer) (by rw [hc]; rfl))
    exact answers_of ⟨r, t, hr⟩ rfl rfl
  | kfdReaddir fd =>
    obtain ⟨r, hr, hshows, -⟩ := hin.kfdReaddir i.proc fd
    exact answers_of ⟨r, t, hr, hshows⟩ rfl rfl
  | kmkdir path =>
    by_cases hrefused : refusedPath path = true
    · exact answers_of
        (hin.kmkdir hg i.proc (Or.inl hrefused) (Or.inl hrefused)) rfl rfl
    · have hopens : i.call.opens? =
          some (path, KVFS_O_CREAT ||| KVFS_O_DIRECTORY ||| KVFS_O_EXCL) := by
        simp [hc, Call.opens?, hrefused]
      exact answers_of (hin.kmkdir hg i.proc
        (Or.inr (hi.fits path (by simp [hc, Call.path?, hrefused])))
        (Or.inr (hi.cwd _ hopens))) rfl rfl
  | krmdir path =>
    refine answers_of (hin.krmdir hg ?_ fun x hx => hi.unused x (hc ▸ hx)) rfl rfl
    by_cases hrefused : refusedPath path = true
    · exact Or.inl hrefused
    · exact Or.inr (hi.fits path (by simp [hc, Call.path?, hrefused]))
  | kvfsUnlink path =>
    exact answers_of (hin.kvfsUnlink hg (hi.fits path (by rw [hc]; rfl))
      fun x hx => hi.unused x (hc ▸ hx)) rfl rfl
  | kvfsChdir path => exact answers_of (hin.kvfsChdir hg (hi.fits path (by rw [hc]; rfl))) rfl rfl
  | lookupOpenClose path =>
    exact hin.lookupOpenClose hg i.proc (hi.fits path (by rw [hc]; rfl))

/-- A fresh mount stands for an empty root. -/
theorem FreshMount.shows (hs : FreshMount s) : ∃ t, Shows s t PathFs.empty := by
  obtain ⟨f, hf⟩ := hs.stands
  have hat : ∀ path q, s.At (OrderedTree.single f) path q → path = [] ∧ q = f := by
    intro path q hq
    cases hq with
    | root => exact ⟨rfl, rfl⟩
    | kid _ hkid _ => exact absurd hkid List.not_mem_nil
  refine ⟨OrderedTree.single f, ⟨⟨⟨?_, fun path q hq => ?_, ?_⟩, ⟨f, ?_, .root⟩, rfl,
    fun p i _ => hf.fds p i, fun p i o ho => ?_, fun p i o _ ho => ?_, fun path bytes hp => ?_⟩,
    hf.useInv⟩⟩
  · refine ⟨hf.stands.tree, wellNamed_single _ f, fun path q hq => ?_, fun path hF => ⟨f, ?_⟩⟩
    · obtain ⟨rfl, rfl⟩ := hat path q hq
      obtain ⟨e, he⟩ := (hf.stands.tree.mem q).1 rfl
      exact ⟨.dir, rfl, e, he, hf.stands.tree.root_isDir e he⟩
    · have hpath : path = [] := by
        by_contra hne
        exact hF (by simp [PathFs.empty, hne])
      rw [hpath]
      exact .root
  · rfl
  · intro q e he hdir
    rw [hf.entries, Function.update_apply] at he
    split_ifs at he
    obtain rfl := Option.some.inj he
    rfl
  · rw [hf.cwd]
    exact hf.stands.root
  · cases ho
  · cases ho
  · by_cases hpath : path = [] <;> simp [PathFs.empty, hpath] at hp

/-- What can be checked of an orderly call: that it removes no entry in use, if there is no node of
the entry. -/
def SeenOrderly (s : Fs) (i : Input) : Prop :=
  (∀ path ∈ i.call.path?, Fits path) ∧
    (∀ x ∈ (s.withInput i).removed? i.call, s.noNode x = true) ∧ CwdStays s i ∧
    ∀ w ∈ i.call.writes?, EndsInBlock s i.proc w.1 w.2

instance (s : Fs) (i : Input) : Decidable (SeenOrderly s i) :=
  inferInstanceAs (Decidable (_ ∧ _ ∧ _ ∧ ∀ w ∈ _, _))

theorem SeenOrderly.orderly {i : Input} (h : SeenOrderly s i) (hpages : ∀ k, i.pages k = true) :
    Orderly s i := by
  obtain ⟨hfits, hunused, hcwd, hends⟩ := h
  exact ⟨hpages, hfits, fun x hx => not_inUse_of_noNode (hunused x hx), hcwd, hends⟩

end Fs

end DelOs
