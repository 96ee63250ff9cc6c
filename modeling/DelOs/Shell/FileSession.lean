import DelOs.Fs.CallerBlocks
import DelOs.Shell.PathCommands

/-!
# The shell does what the files by path say

* `Answers` — a command returns, prints and leaves what the files by path say.
* `CallOrderly`, `FuncOrderly` — the commands that the files by path account for.
* `Shows.kshellLs`, `Shows.kshellCat`, `Shows.kshellTouch`, … — the commands.
* `Shows.kshellExecuteCommand` — **a command by its words**.
-/

namespace DelOs

open FirstFit LinkedList PathTree
open Shell (bytesOf)

namespace Fs

variable {s r : Fs} {t : OrderedTree Ptr} {A : PathFs} {proc : Nat} {fd : Int} {o : OpenFile}
  {path : CString}

/-- A command returns, prints and leaves what the files by path say. -/
def Answers (x : Option Ran) (y : (Nat × List Print) × PathFs) : Prop :=
  ∃ r t, x = some ⟨y.1.1, y.1.2, r⟩ ∧ Shows r t y.2

/-- An orderly call, made where the shell stands. -/
def CallOrderly (s : Fs) (proc : Nat) (c : Call) : Prop := Orderly s ⟨proc, c, s.pages, s.junk⟩

/-! ## Calls of a command -/

/-- The result of a call that has a result of its own kind. -/
theorem of_answer {β : Type} {f : β → Result} (hf : Function.Injective f) {x : Option (β × Fs)}
    {y : β × PathFs}
    (h : ∃ r t, x.map (Prod.map f id) = some ((y.map f id).1, r) ∧ Shows r t (y.map f id).2) :
    ∃ r t, x = some (y.1, r) ∧ Shows r t y.2 := by
  obtain ⟨r, t, hx, hshows⟩ := h
  obtain ⟨⟨b, r'⟩, rfl, heq⟩ := Option.map_eq_some_iff.1 hx
  obtain ⟨hb, rfl⟩ := Prod.mk.inj heq
  exact ⟨r', t, by rw [hf hb], hshows⟩

theorem code_injective : Function.Injective Result.code := fun _ _ h => Result.code.inj h

theorem status_injective : Function.Injective Result.status := fun _ _ h => Result.status.inj h

/-- **`mkdir`**. -/
theorem Shows.kshellMkdir (h : Shows s t A) (hc : CallOrderly s proc (.kmkdir path))
    (name : CString) (args : List CString) :
    Answers (s.kshellMkdir proc (name :: path :: args)) (A.mkdir proc path) := by
  obtain ⟨r, t', hcall, hshows⟩ := of_answer code_injective (h.step hc)
  have hcall : s.kmkdir proc path = some ((A.kmkdir proc path).1, r) := hcall
  refine ⟨r, t', ?_, hshows⟩
  simp only [Fs.kshellMkdir, hcall, PathFs.mkdir, PathFs.complains, Option.bind_eq_bind,
    Option.bind_some, Option.pure_def]
  by_cases hr : (A.kmkdir proc path).1 = -1 <;> simp [hr]

/-- **`rmdir`**. -/
theorem Shows.kshellRmdir (h : Shows s t A) (hc : CallOrderly s proc (.krmdir path))
    (name : CString) (args : List CString) :
    Answers (s.kshellRmdir (name :: path :: args)) (A.rmdir path) := by
  obtain ⟨r, t', hcall, hshows⟩ := of_answer code_injective (h.step hc)
  have hcall : s.krmdir path = some ((A.krmdir path).1, r) := hcall
  refine ⟨r, t', ?_, hshows⟩
  simp only [Fs.kshellRmdir, hcall, PathFs.rmdir, PathFs.complains, Option.bind_eq_bind,
    Option.bind_some, Option.pure_def]
  by_cases hr : (A.krmdir path).1 = -1 <;> simp [hr]

/-- **`unlink`**. -/
theorem Shows.kshellUnlink (h : Shows s t A) (hc : CallOrderly s proc (.kvfsUnlink path))
    (name : CString) (args : List CString) :
    Answers (s.kshellUnlink (name :: path :: args)) (A.unlink path) := by
  obtain ⟨r, t', hcall, hshows⟩ := of_answer status_injective (h.step hc)
  have hcall : s.kvfsUnlink path = some ((A.kvfsUnlink path).1, r) := hcall
  refine ⟨r, t', ?_, hshows⟩
  simp only [Fs.kshellUnlink, hcall, PathFs.unlink, PathFs.complains, Option.bind_eq_bind,
    Option.bind_some, Option.pure_def]
  cases (A.kvfsUnlink path).1 <;> rfl

/-- **`cd`**. -/
theorem Shows.kshellCd (h : Shows s t A) {args : List CString} (hpath : args.getD 1 [slash] = path)
    (hc : CallOrderly s proc (.kvfsChdir path)) : Answers (s.kshellCd args) (A.cd path) := by
  obtain ⟨r, t', hcall, hshows⟩ := of_answer code_injective (h.step hc)
  have hcall : s.kvfsChdir path = some ((A.kvfsChdir path).1, r) := hcall
  refine ⟨r, t', ?_, hshows⟩
  simp only [Fs.kshellCd, hpath, hcall, PathFs.cd, PathFs.complains, Option.bind_eq_bind,
    Option.bind_some, Option.pure_def]
  by_cases hr : (A.kvfsChdir path).1 = -1 <;> simp [hr]

/-! ## Commands that open a file -/

theorem CallOrderly.fits {flags mode : Nat} (hc : CallOrderly s proc (.kfdOpen path flags mode)) :
    Fits path := Orderly.fits hc path rfl

theorem CallOrderly.keepsCwd {flags mode : Nat}
    (hc : CallOrderly s proc (.kfdOpen path flags mode)) : s.KeepsCwd path flags :=
  Orderly.cwd hc (path, flags) rfl

/-- **`touch`**. -/
theorem Shows.kshellTouch (h : Shows s t A)
    (hc : CallOrderly s proc (.kfdOpen path KVFS_O_CREAT 0o644)) (name : CString)
    (args : List CString) :
    Answers (s.kshellTouch proc (name :: path :: args)) (A.touch proc path) := by
  obtain ⟨r, t', hopen, hr, -, -⟩ := h.kfdOpen (Orderly.pages hc) proc hc.fits hc.keepsCwd 0o644
  rcases hat : A.openAt path KVFS_O_CREAT with ⟨found, B⟩
  rcases PathFs.kfdOpen_cases proc hat with ⟨hno, hfail⟩ | ⟨p, fd, rfl, hfree, hfd, hmade⟩
  · rw [hfail] at hopen hr
    refine ⟨r, t', ?_, by rwa [PathFs.touch, hat]⟩
    simp [Fs.kshellTouch, hopen, PathFs.touch, hat, PathFs.complains, hno]
  · rw [hmade] at hopen hr
    obtain ⟨r', t'', hclose, hr', -⟩ := hr.kfdClose proc (fd : Int)
    rw [PathFs.kfdClose_setFile hfd.bound hfd.none] at hclose hr'
    refine ⟨r', t'', ?_, by rwa [PathFs.touch, hat]⟩
    simp [Fs.kshellTouch, hopen, PathFs.natCast_ne_error, hclose, PathFs.touch, hat,
      PathFs.complains, hfree]

/-- The size that a `stat` says. -/
def statSize : PathNode (List UInt8) → Nat
  | .dir => 0
  | .file bytes => bytes.length

/-- **A `stat` says how many bytes a file has**; a directory has none. -/
theorem Shows.kfdStat (h : Shows s t A) (ho : A.file proc fd = some o)
    {n : PathNode (List UInt8)} (hn : A.tree o.path = some n) :
    ∃ st, s.kfdStat proc fd = some (some st) ∧ st.size = statSize n := by
  obtain ⟨d, x, e, hget, -, hd, hdesc⟩ := h.descriptor ho
  have hent := entries_eq_some.2 hdesc.entry
  refine ⟨e.stat, ?_, ?_⟩
  · have hstat := kvfsStatFromNode_newNode hd.node hent
    simp [Fs.kfdStat, hget, ne_zero_of_obj hd.desc, descAt_of_obj hd.desc, hdesc.node_ne_zero,
      hstat]
  · cases n with
    | dir =>
      obtain ⟨e', he', hdir⟩ := h.rep.isDir hd.path hn
      obtain rfl : e = e' := by simpa [hent] using he'
      exact h.unsized x e hent hdir
    | file bytes =>
      obtain ⟨x', hx', e', he', hh⟩ := h.rep.eq_some_iff.1 hn
      obtain rfl := h.rep.at_unique hd.path hx'
      obtain rfl : e = e' := by simpa [hdesc.entry] using he'
      exact hh.statSize

/-- A block that is filled holds what it is filled with. -/
theorem readBytes_length (s : Fs) (bytes : List UInt8) : s.readBytes bytes bytes.length = bytes := by
  have htake := take_readBytes s (le_refl bytes.length)
  rwa [List.take_of_length_le (length_readBytes s bytes _).le] at htake

/-- Zeros behind a text do not belong to the line. -/
theorem line_append_zeros (text : List UInt8) (n : Nat) :
    Shell.line (text ++ List.replicate n 0) = Shell.line text := by
  simp only [Shell.line, List.takeWhile_append]
  split_ifs with hall
  · simpa using ((List.takeWhile_prefix _).eq_of_length hall).symm
  · rfl

/-- What `cat` prints of a buffer with a file in it. -/
theorem catPrints_eq (s : Fs) (path : CString) {bytes : List UInt8} (hne : bytes ≠ []) :
    catPrints path (s.readBytes (bytes ++ [0]) (bytes.length + 1)) bytes.length =
      PathFs.contents path bytes := by
  have hread : s.readBytes (bytes ++ [0]) (bytes.length + 1) = bytes ++ [0] := by
    have hfull := readBytes_length s (bytes ++ [0])
    rwa [List.length_append, List.length_singleton] at hfull
  have hline : Shell.line (bytes ++ [0]) = Shell.line bytes := line_append_zeros bytes 1
  obtain ⟨front, c, rfl⟩ := (List.eq_nil_or_concat bytes).resolve_left hne
  rw [catPrints, PathFs.contents, hread, hline]
  by_cases hc : c = 0x0a <;> simp [hc]

theorem mayRead_rdonly : MayRead KVFS_O_RDONLY := by decide

/-- **`cat`**. -/
theorem Shows.kshellCat (h : Shows s t A)
    (hc : CallOrderly s proc (.kfdOpen path KVFS_O_RDONLY 0)) (name : CString)
    (args : List CString) :
    Answers (s.kshellCat proc (name :: path :: args)) (A.cat proc path, A) := by
  obtain ⟨r, t', hopen, hr, -, hg⟩ := h.kfdOpen (Orderly.pages hc) proc hc.fits hc.keepsCwd 0
  have hread : flagSet KVFS_O_RDONLY KVFS_O_CREAT = false := by decide
  rcases PathFs.kfdOpen_read A proc path hread with
    ⟨hno, hfail⟩ | ⟨p, fd, hopened, hfd, hmade⟩
  · rw [hfail] at hopen hr
    exact ⟨r, t', by simp [Fs.kshellCat, hopen, PathFs.cat, hno], hr⟩
  rw [hmade] at hopen hr
  have ho : (A.setFile proc fd (some ⟨p, 0, KVFS_O_RDONLY⟩)).file proc fd =
      some ⟨p, 0, KVFS_O_RDONLY⟩ := PathFs.file_setFile hfd.bound
  obtain ⟨n, hn⟩ := Option.ne_none_iff_exists'.1
    (hr.opened_ne_none (Places.file_eq (s := r) ho).1)
  obtain ⟨st, hstat, hsize⟩ := hr.kfdStat ho hn
  have hclosed : ∀ {q t''} {o : OpenFile}, Shows q t'' (A.setFile proc fd (some o)) →
      ∃ q' u, q.kfdClose proc fd = some (true, q') ∧ Shows q' u A := by
    intro q t'' o hq
    obtain ⟨q', u, hclose, hq', -⟩ := hq.kfdClose proc fd
    rw [PathFs.kfdClose_setFile hfd.bound hfd.none] at hclose hq'
    exact ⟨q', u, hclose, hq'⟩
  by_cases hempty : statSize n = 0
  · -- a directory, or nothing to print
    obtain ⟨q, u, hclose, hq⟩ := hclosed hr
    refine ⟨q, u, ?_, hq⟩
    have hprints : A.cat proc path = (0, []) := by
      rw [PathFs.cat, hopened]
      cases n with
      | dir => simp only [show A.tree p = some .dir from hn]
      | file bytes =>
        simp only [show A.tree p = some (.file bytes) from hn,
          List.length_eq_zero_iff.1 hempty, if_true]
    have hu32 : u32 0 = 0 := rfl
    simp [Fs.kshellCat, hopen, PathFs.natCast_ne_error, hstat, hsize, hempty, hu32, hclose, hprints]
  · obtain ⟨bytes, rfl⟩ : ∃ bytes, n = .file bytes := by
      cases n with
      | dir => exact absurd rfl hempty
      | file bytes => exact ⟨bytes, rfl⟩
    have hne : bytes ≠ [] := fun h0 => hempty (by rw [h0]; rfl)
    have hsmall : bytes.length < 2 ^ 29 := hr.small p bytes hn
    have hlen : u32 st.size = bytes.length := 
      hsize ▸ u32_eq (show bytes.length < 2 ^ 32 by omega)
    have hpos := List.length_pos_iff.2 hne
    have hsize' : u32 (bytes.length + 1) = bytes.length + 1 := u32_eq (by omega)
    -- the block, the bytes in it, and the block back
    rcases hnew : r.new (bytes.length + 1) .raw with ⟨q, r₁⟩
    obtain ⟨hq, hraw₁, -, hsame⟩ :=
      new_raw (Nat.succ_pos _) (Nat.succ_le_of_lt hsmall) hg hnew
    obtain ⟨r₂, hread, hr₂, hkeep⟩ := (hr.sameRecords hsame).kfdRead proc fd bytes.length
    rw [PathFs.kfdRead_of_file ho hn, if_pos mayRead_rdonly, List.drop_zero,
      List.take_length] at hread hr₂
    obtain ⟨r₃, u, hclose, hr₃⟩ := hclosed (q := r₂.kfree q) (by
      simpa using hr₂.kfree (hkeep q hraw₁))
    refine ⟨r₃, u, ?_, hr₃⟩
    have hprints : A.cat proc path = (0, PathFs.contents path bytes) := by
      rw [PathFs.cat, hopened]
      simp only [show A.tree p = some (.file bytes) from hn, if_neg hne]
    simp [Fs.kshellCat, hopen, PathFs.natCast_ne_error, hstat, hlen, hne, hsize', hnew, hq, hread,
      hclose, hprints, catPrints_eq _ path hne]

/-! ## Commands that list a directory -/

/-- `opendir` fails, or the directory that the path leads to gets a descriptor. -/
theorem Shows.kfdOpendir (h : Shows s t A)
    (hc : CallOrderly s proc (.kfdOpen path (KVFS_O_RDONLY ||| KVFS_O_DIRECTORY) 0)) :
    (A.opened proc path (KVFS_O_RDONLY ||| KVFS_O_DIRECTORY) = none ∧
        ∃ r t', s.kfdOpendir proc path = some (none, r) ∧ Shows r t' A) ∨
      ∃ p fd dir r t', A.opened proc path (KVFS_O_RDONLY ||| KVFS_O_DIRECTORY) = some p ∧
        A.FreeFile proc fd ∧ s.kfdOpendir proc path = some (some (dir, (fd : Int)), r) ∧
        r.obj dir = some .raw ∧
        Shows r t' (A.setFile proc fd (some ⟨p, 0, KVFS_O_RDONLY ||| KVFS_O_DIRECTORY⟩)) := by
  have hg : s.Granted := Orderly.pages hc
  rcases hnew : s.new sizeofFdDir .raw with ⟨dir, s₁⟩
  obtain ⟨hdir, hraw, hg₁, hsame⟩ := new_raw (by decide) (by decide) hg hnew
  obtain ⟨r, t', hopen, hr, hkeep, -⟩ := (h.sameRecords hsame).kfdOpen hg₁ proc hc.fits
    (h.keepsCwd hsame hg hg₁ hc.keepsCwd) 0
  have hread : flagSet (KVFS_O_RDONLY ||| KVFS_O_DIRECTORY) KVFS_O_CREAT = false := by decide
  rcases PathFs.kfdOpen_read A proc path hread with
    ⟨hno, hfail⟩ | ⟨p, fd, hopened, hfd, hmade⟩
  · rw [hfail] at hopen hr
    exact Or.inl ⟨hno, r.kfree dir, t', by simp [Fs.kfdOpendir, hnew, hdir, hopen],
      hr.kfree (hkeep dir hraw)⟩
  · rw [hmade] at hopen hr
    exact Or.inr ⟨p, fd, dir, r, t', hopened, hfd,
      by simp [Fs.kfdOpendir, hnew, hdir, hopen, PathFs.natCast_ne_error], hkeep dir hraw, hr⟩

/-- `closedir` gives the descriptor and the block back. -/
theorem Shows.kfdClosedir {fd : Nat} (h : Shows s t (A.setFile proc fd (some o)))
    (hfd : A.FreeFile proc fd) {dir : Ptr} (hraw : s.obj dir = some .raw) :
    ∃ r t', s.kfdClosedir proc (dir, (fd : Int)) = some (true, r) ∧ Shows r t' A := by
  obtain ⟨r, t', hclose, hr, hkeep⟩ := h.kfdClose proc fd
  rw [PathFs.kfdClose_setFile hfd.bound hfd.none] at hclose hr
  exact ⟨r.kfree dir, t', by simp [Fs.kfdClosedir, hclose], hr.kfree (hkeep dir hraw)⟩

/-- The heap has a block for each name in a directory. -/
theorem Places.length_list_le (h : Places s t A) {p : List CString} (hn : A.tree p ≠ none) :
    (A.list p).length ≤ s.heap.length := by
  obtain ⟨x, hx⟩ := h.rep.found p hn
  obtain ⟨e, he⟩ := (h.rep.tree.mem x).1 hx.mem
  rw [h.lists p x hx, List.length_map]
  exact length_kids_le (h.rep.tree.child x e he) fun q hq =>
    (h.rep.tree.mem q).1 (t.kid_mem hq).2.1

/-- One name of a directory. -/
theorem kfdReaddir_setFile {p : List CString} {k flags fd : Nat} (hdir : A.tree p = some .dir)
    (hmay : MayRead flags) (hfd : fd < KFD_MAX_COUNT) :
    (A.setFile proc fd (some ⟨p, k, flags⟩)).kfdReaddir proc fd =
      ((A.list p)[k]?.map (A.dirent p), A.setFile proc fd (some ⟨p, u32 (k + 1), flags⟩)) := by
  have ho : (A.setFile proc fd (some ⟨p, k, flags⟩)).file proc fd = some ⟨p, k, flags⟩ :=
    PathFs.file_setFile hfd
  rw [PathFs.kfdReaddir_of_some ho, if_pos ⟨hdir, hmay⟩, Int.toNat_natCast,
    PathFs.setFile_setFile]
  rfl

/-- The loop lists what is left of the directory.  By induction on the names that are left. -/
theorem Shows.lsLoop {p : List CString} {flags fd : Nat} (hdir : A.tree p = some .dir)
    (hmay : MayRead flags) (hfd : fd < KFD_MAX_COUNT) (hbound : (A.list p).length < 2 ^ 32)
    {names : List CString} {k fuel : Nat} (hnames : (A.list p).drop k = names)
    (hfuel : names.length < fuel) (h : Shows s t (A.setFile proc fd (some ⟨p, k, flags⟩))) :
    ∃ r t' o, Fs.lsLoop proc fd fuel s = some (names.map fun name => lsPrint (A.dirent p name), r) ∧
      Shows r t' (A.setFile proc fd (some o)) ∧ KeepsRaw s r := by
  induction names generalizing k fuel s t with
  | nil =>
    obtain ⟨r, hread, hr, hkeep⟩ := h.kfdReaddir proc fd
    rw [kfdReaddir_setFile hdir hmay hfd] at hread hr
    have hend : (A.list p)[k]? = none :=
      List.getElem?_eq_none (List.drop_eq_nil_iff.1 hnames)
    obtain ⟨fuel, rfl⟩ := Nat.exists_eq_succ_of_ne_zero (Nat.pos_iff_ne_zero.1 hfuel)
    exact ⟨r, t, _, by simp [Fs.lsLoop, hread, hend], hr, hkeep⟩
  | cons name names ih =>
    obtain ⟨r, hread, hr, hkeep⟩ := h.kfdReaddir proc fd
    rw [kfdReaddir_setFile hdir hmay hfd] at hread hr
    have hnext : (A.list p)[k]? = some name := by
      rw [← Nat.add_zero k, ← List.getElem?_drop, hnames]
      rfl
    have hrest : (A.list p).drop (k + 1) = names := by
      rw [← List.drop_drop, hnames]
      rfl
    have hk : u32 (k + 1) = k + 1 := u32_eq (by
      have := (List.getElem?_eq_some_iff.1 hnext).1
      omega)
    rw [hk] at hr
    obtain ⟨fuel, rfl⟩ := Nat.exists_eq_succ_of_ne_zero (Nat.ne_zero_of_lt hfuel)
    obtain ⟨r', t', o, hloop, hr', hkeep'⟩ := ih hrest (Nat.lt_of_succ_lt_succ hfuel) hr
    exact ⟨r', t', o, by simp [Fs.lsLoop, hread, hnext, hloop], hr', hkeep.trans hkeep'⟩

/-- **`ls`**. -/
theorem Shows.kshellLs (h : Shows s t A) {args : List CString} (hpath : args.getD 1 dotName = path)
    (hc : CallOrderly s proc (.kfdOpen path (KVFS_O_RDONLY ||| KVFS_O_DIRECTORY) 0))
    (hbound : s.heap.length < 2 ^ 32) :
    Answers (s.kshellLs proc args) (A.ls proc path, A) := by
  rcases h.kfdOpendir hc with ⟨hno, r, t', hopen, hr⟩ | ⟨p, fd, dir, r, t', hopened, hfd, hopen,
    hraw, hr⟩
  · refine ⟨r, t', ?_, hr⟩
    simp only [Fs.kshellLs, hpath, hopen, PathFs.ls, hno, Option.bind_eq_bind, Option.bind_some,
      Option.pure_def]
  obtain ⟨r₁, t₁, o, hloop, hr₁, hkeep⟩ : ∃ r₁ t₁ o,
      Fs.lsLoop proc fd (r.heap.length + 1) r = some (A.listing p, r₁) ∧
        Shows r₁ t₁ (A.setFile proc fd (some o)) ∧ KeepsRaw r r₁ := by
    by_cases hdir : A.tree p = some .dir
    · have hne : A.tree p ≠ none := by simp [hdir]
      have hlong := h.length_list_le hne
      have hfuel : (A.list p).length ≤ r.heap.length := hr.length_list_le hne
      have hlist : A.listing p = (A.list p).map fun name => lsPrint (A.dirent p name) := if_pos hdir
      rw [hlist]
      exact hr.lsLoop hdir (by decide) hfd.bound (by omega) (List.drop_zero)
        (Nat.lt_succ_of_le hfuel)
    · obtain ⟨r₁, hread, hr₁, hkeep⟩ := hr.kfdReaddir proc fd
      rw [PathFs.kfdReaddir_of_some (PathFs.file_setFile hfd.bound),
        if_neg (fun hand => hdir hand.1)] at hread hr₁
      exact ⟨r₁, t', _, by simp [Fs.lsLoop, hread, PathFs.listing, hdir], hr₁, hkeep⟩
  obtain ⟨r₂, t₂, hclose, hr₂⟩ := hr₁.kfdClosedir hfd (hkeep dir hraw)
  refine ⟨r₂, t₂, ?_, hr₂⟩
  simp only [Fs.kshellLs, hpath, hopen, hloop, hclose, PathFs.ls, hopened, Option.bind_eq_bind,
    Option.bind_some, Option.pure_def]

/-! ## The working directory -/

/-- The path of the working directory has room in the buffer of `kshell_pwd`. -/
def PwdFits (s : Fs) : Prop :=
  ∀ t names x, Stands s t → CwdAt s t names x → (upPath names).length < pwdBufferSize

theorem Granted.twoNodes (hg : s.Granted) : TwoNodes s := by
  have hone : ∀ {r : Fs}, r.Granted → (r.kmalloc sizeofVfsNode).1 ≠ 0 := fun hr =>
    kmalloc_granted (by decide) (by decide) (hr 0)
  exact ⟨hone hg, hone fun k => hg (k + 1)⟩

theorem Shows.cwdAt (h : Shows s t A) : ∃ x, CwdAt s t A.cwd x := by
  obtain ⟨x, hx, hat⟩ := h.cwd
  exact ⟨x, hx, hat, h.rep.isDir hat h.cwdDir⟩

/-- **`pwd`**. -/
theorem Shows.kshellPwdCommand (h : Shows s t A) (hg : s.Granted) (hfits : PwdFits s) :
    Answers s.kshellPwdCommand (A.pwd, A) := by
  obtain ⟨x, hx⟩ := h.cwdAt
  have hs := h.use.mounted.stands
  obtain ⟨r, hpwd, hclimbed⟩ := (kshellPwd_spec hs hx hg.twoNodes).1 (hfits t A.cwd x hs hx)
  have hsame : SameRecords s r := ⟨hclimbed.frame.root, hclimbed.frame.cwd, hclimbed.frame.fds,
    fun q o _ => by rw [hclimbed.obj]⟩
  exact ⟨r, t, by simp [Fs.kshellPwdCommand, hpwd, PathFs.pwd, padded, line_append_zeros], h.sameRecords hsame⟩

end Fs

/-! ## The dispatch -/

/-- The call by path that a command makes, or makes first. -/
def ShellFunc.call? (path : Option CString) : ShellFunc → Option Call
  | .kshellLs => some (.kfdOpen (path.getD dotName) (KVFS_O_RDONLY ||| KVFS_O_DIRECTORY) 0)
  | .kshellCd => some (.kvfsChdir (path.getD [slash]))
  | .kshellMkdir => path.map .kmkdir
  | .kshellTouch => path.map (.kfdOpen · KVFS_O_CREAT 0o644)
  | .kshellCat => path.map (.kfdOpen · KVFS_O_RDONLY 0)
  | .kshellUnlink => path.map .kvfsUnlink
  | .kshellRmdir => path.map .krmdir
  | _ => none

/-- The file commands. -/
def fileCommands : List ShellFunc :=
  [.kshellLs, .kshellMkdir, .kshellTouch, .kshellCat, .kshellUnlink, .kshellRmdir, .kshellPwd,
    .kshellCd]

namespace Fs

variable {s : Fs} {t : OrderedTree Ptr} {A : PathFs} {proc : Nat}

/-- A command that the files by path account for: a file command with an orderly call.  `ls` counts
the names with 32 bits, and `pwd` has a buffer for its path. -/
structure FuncOrderly (s : Fs) (proc : Nat) (path : Option CString) (func : ShellFunc) : Prop where
  pages : s.Granted
  file : func ∈ fileCommands
  call : ∀ c ∈ func.call? path, CallOrderly s proc c
  list : func = .kshellLs → s.heap.length < 2 ^ 32
  pwd : func = .kshellPwd → PwdFits s

theorem getD_one (name : CString) (args : List CString) (path : CString) :
    (name :: args).getD 1 path = args.head?.getD path := by
  cases args <;> rfl

/-- **A file command does what the files by path say.** -/
theorem Shows.shellFunc (h : Shows s t A) {name : CString} {args : List CString} {func : ShellFunc}
    (hf : FuncOrderly s proc args.head? func) :
    ∃ y, A.shellFunc proc args.head? func = some y ∧
      Answers (s.shellFunc proc (name :: args) func) y := by
  have hcall := hf.call
  have hfile := hf.file
  cases func with
  | kshellLs => exact ⟨_, rfl, h.kshellLs (getD_one name args _) (hcall _ rfl) (hf.list rfl)⟩
  | kshellCd => exact ⟨_, rfl, h.kshellCd (getD_one name args _) (hcall _ rfl)⟩
  | kshellPwd =>
    exact ⟨(A.pwd, A), by cases args <;> rfl, h.kshellPwdCommand hf.pages (hf.pwd rfl)⟩
  | kshellMkdir =>
    cases args with
    | nil => exact ⟨_, rfl, s, t, rfl, h⟩
    | cons path args => exact ⟨_, rfl, h.kshellMkdir (hcall _ rfl) name args⟩
  | kshellTouch =>
    cases args with
    | nil => exact ⟨_, rfl, s, t, rfl, h⟩
    | cons path args => exact ⟨_, rfl, h.kshellTouch (hcall _ rfl) name args⟩
  | kshellCat =>
    cases args with
    | nil => exact ⟨_, rfl, s, t, rfl, h⟩
    | cons path args => exact ⟨_, rfl, h.kshellCat (hcall _ rfl) name args⟩
  | kshellUnlink =>
    cases args with
    | nil => exact ⟨_, rfl, s, t, rfl, h⟩
    | cons path args => exact ⟨_, rfl, h.kshellUnlink (hcall _ rfl) name args⟩
  | kshellRmdir =>
    cases args with
    | nil => exact ⟨_, rfl, s, t, rfl, h⟩
    | cons path args => exact ⟨_, rfl, h.kshellRmdir (hcall _ rfl) name args⟩
  | _ => simp [fileCommands] at hfile

/-- The words are no command with a function of its own, or one that the files by path account
for. -/
def WordsOrderly (s : Fs) (proc : Nat) : List CString → Prop
  | [] => True
  | name :: args => ∀ func ∈ PathFs.commandOf name, FuncOrderly s proc args.head? func

/-- **A command by its words does what the files by path say.** -/
theorem Shows.kshellExecuteCommand (h : Shows s t A) {words : List CString}
    (hzero : ∀ word ∈ words, 0 ∉ word) (hwords : WordsOrderly s proc words) :
    ∃ y, A.execute proc words = some y ∧ Answers (s.kshellExecuteCommand proc words) y := by
  cases words with
  | nil => exact ⟨_, rfl, s, t, rfl, h⟩
  | cons name args =>
    have hfind := find_shellCommandTable (hzero name List.mem_cons_self)
    rw [Fs.kshellExecuteCommand, PathFs.execute]
    cases hcommand : shellCommandTable.find? fun command => kstrcmp name command.1 = 0 with
    | none =>
      rw [hcommand, Option.map_none] at hfind
      rw [← hfind]
      exact ⟨_, rfl, s, t, rfl, h⟩
    | some command =>
      rw [hcommand, Option.map_some] at hfind
      rw [← hfind]
      exact h.shellFunc (hwords command.2 hfind.symm)

end Fs

end DelOs
