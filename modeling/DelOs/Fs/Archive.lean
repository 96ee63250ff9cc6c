import DelOs.Fs.Unpack

/-!
# The boot archive, there and back

The tool writes a list of directories and files; the kernel unpacks the image into an empty root.

* `ArchiveEntry`, `archiveImage` — the entries, and the image that the tool makes of them.
* `ArchivePath`, `WellFormed` — the paths and the lists that an archive is made of.
* `unpackDirectory_spec`, `unpackFile_spec` — one entry.
* `unpackLoop_spec` — **the loop keeps in step with the image**, by induction on the entries: after
  each of them the file system holds what the entries so far stand for.
* `Unpacked`, `unpack_round_trip` — **the kernel unpacks exactly what the tool has packed**.
-/

namespace DelOs

open FirstFit Splice PathTree

/-! ## Archives -/

/-- An entry for the tool to write: its path, and the bytes of a file; a directory has none. -/
structure ArchiveEntry where
  path : CString
  content : Option (List UInt8)

/-- The bytes of the entry: none for a directory. -/
def ArchiveEntry.data (e : ArchiveEntry) : List UInt8 := e.content.getD []

/-- The type code that the tool has for the entry. -/
def ArchiveEntry.type (e : ArchiveEntry) : Nat :=
  if e.content.isSome then KINITRD_FILE else KINITRD_DIR

/-- What `write_entry` emits for the entry. -/
def ArchiveEntry.bytes (e : ArchiveEntry) : List UInt8 :=
  writeEntry e.path e.type e.data e.data.length

/-- The image: the entries one after the other, and the end. -/
def archiveImage (entries : List ArchiveEntry) : List UInt8 :=
  entries.flatMap ArchiveEntry.bytes ++ endEntry

/-- The entry as an item of a directory tree: its path is the list of its components. -/
def ArchiveEntry.item (e : ArchiveEntry) : Item CString (List UInt8) :=
  ⟨components e.path, e.content⟩

/-- A path that an entry may have: absolute, of 1 to 15 components, at most 63 bytes long.
Components are not empty and have no slash in them. -/
structure ArchivePath (path : CString) : Prop where
  absolute : kvfsIsAbsolutePath path = true
  noNul : (0 : UInt8) ∉ path
  length : path.length ≤ 63
  one : 1 ≤ (components path).length
  fifteen : (components path).length ≤ 15
  plain : ∀ name ∈ components path, name ≠ dotName ∧ name ≠ dotDotName

/-- A list of entries that stand side by side in one tree: their paths are distinct, and no file
lies on the way to another entry. -/
structure WellFormed (entries : List ArchiveEntry) : Prop where
  path : ∀ e ∈ entries, ArchivePath e.path
  compatible : Compatible (entries.map ArchiveEntry.item)

/-- The page layers willing, an allocation of `n` bytes succeeds, from any state of the heap. -/
def Allocatable (n : Nat) : Prop := ∀ s : Fs, s.Granted → s.Allocates n

theorem allocatable_of_le {n : Nat} (h0 : 0 < n) (hn : n ≤ 2 ^ 29) : Allocatable n :=
  fun _ hg => Fs.allocates_of_granted h0 hn hg

/-- What can be allocated is counted in 32 bits. -/
theorem Allocatable.lt {n : Nat} (h : Allocatable n) : n < 2 ^ 32 := by
  obtain ⟨b, hb, hle⟩ := (Option.any_eq_true _ _).1
    (h ⟨[], 0, 0, fun _ _ => 0, fun _ => true, fun _ => 0⟩ fun _ => rfl)
  have hle : n ≤ b.size := of_decide_eq_true hle
  have hpages : kmallocPageSize * pagesToGet (alignUp n 8) < 2 ^ 32 := by
    have hmod : u32 (alignUp n 8 + kmallocHeaderSize + kmallocPageSize - 1) < 2 ^ 32 :=
      Nat.mod_lt _ (by decide)
    exact lt_of_le_of_lt (Nat.mul_div_le _ _) hmod
  rcases kmallocBlocks_cases true Obj.raw [] n with hc | ⟨p, c, hc, -⟩ | ⟨-, -, hc⟩
  · simp [Fs.kmalloc, hc] at hb
  · simp at hc
  · simp [Fs.kmalloc, hc] at hb
    obtain rfl : _ = b := by simpa [get_cons] using hb
    exact lt_of_le_of_lt hle (lt_of_le_of_lt (Nat.sub_le _ _) hpages)

/-! ## Paths -/

/-- A component is no longer than the path. -/
theorem length_le_of_mem_components {path name : CString} (h : name ∈ components path) :
    name.length ≤ path.length := by
  induction hn : path.length using Nat.strong_induction_on generalizing path with
  | _ n ih =>
    cases path with
    | nil => exact absurd h (by simp)
    | cons c rest =>
      by_cases hc : c = slash
      · rw [hc, components_slash] at h
        have := ih rest.length (by simp [← hn]) h rfl
        simp only [List.length_cons] at hn
        omega
      · obtain ⟨run, rest', heq, hne, hrun, hrest⟩ := exists_run rest hc
        have hlen : run.length + rest'.length = n := by rw [← hn, heq, List.length_append]
        have hpos := List.length_pos_of_ne_nil hne
        rw [heq, components_run hne hrun hrest] at h
        rcases List.mem_cons.1 h with rfl | h
        · omega
        · have := ih rest'.length (by omega) h rfl
          omega

/-- The components of an archive path are names that the tree may have. -/
theorem ArchivePath.proper {path name : CString} (h : ArchivePath path)
    (hname : name ∈ components path) : Proper name := by
  obtain ⟨hdot, hdots⟩ := h.plain name hname
  have hlen := (length_le_of_mem_components hname).trans h.length
  refine ⟨?_, hlen.trans (by decide), hdot, hdots⟩
  simpa using (List.mem_filter.1 hname).2

/-- **The table of an archive path holds all of its components**, behind a `"/"`. -/
theorem ArchivePath.split {path : CString} (h : ArchivePath path) :
    kvfsSplitPath path = [slash] :: components path := by
  have hroom : partsRoom path = 15 := by rw [partsRoom, if_pos h.absolute]; rfl
  rw [kvfsSplitPath_eq, if_pos h.absolute, splitParts_eq _ fun name hname => (h.proper hname).fits,
    hroom, List.take_of_length_le h.fifteen, List.singleton_append]

namespace Fs

variable {s : Fs} {root : Ptr} {t : OrderedTree Ptr} {F : PathTree CString (List UInt8)}

theorem splitEntryPath_eq {path : CString} (h : ArchivePath path) (size type : Nat) :
    kinitrdSplitEntryPath ⟨path, size, type⟩ = [slash] :: components path := by
  simp [kinitrdSplitEntryPath, kinitrdHasValidPath, h.absolute, h.split]

/-- The directories of a list of names, from the root on. -/
theorem ensureDirectory_spec (h : Unpacking s root t F) {parts : List CString}
    (hproper : ∀ name ∈ parts, Proper name)
    (hfile : ∀ p bytes, p <+: parts → F p ≠ some (.file bytes)) :
    ∃ q r t', s.kinitrdEnsureDirectory root ([slash] :: parts) = some (q, r) ∧ q ≠ 0 ∧
      Unpacking r root t' (F.mkdirs parts) ∧ r.OpenAt t' parts q := by
  obtain ⟨q, r, t', hensure, hr, hopen⟩ :=
    ensureParts_spec h h.open_root h.rep.closed.root hproper hfile
  refine ⟨q, r, t', ?_, hopen.ne_zero, hr, hopen⟩
  simp [kinitrdEnsureDirectory, h.open_root.ne_zero, kinitrdGetFirstPartIndex, hensure]

/-- **A directory entry makes the directory** and those above it. -/
theorem unpackDirectory_spec (h : Unpacking s root t F) {path : CString} (hpath : ArchivePath path)
    (hfile : ∀ p bytes, p <+: components path → F p ≠ some (.file bytes)) (size type : Nat) :
    ∃ r t', s.kinitrdUnpackDirectory root ⟨path, size, type⟩ = some (true, r) ∧
      Unpacking r root t' (F.mkdirs (components path)) := by
  obtain ⟨q, r, t', hensure, hq, hr, hopen⟩ :=
    ensureDirectory_spec h (fun name hname => hpath.proper hname) hfile
  obtain ⟨r', hclose, hr', -⟩ := hr.closeUnless hopen
  exact ⟨r', t', by simp [kinitrdUnpackDirectory, splitEntryPath_eq hpath, hensure, hq, hclose], hr'⟩

/-- A new file holds nothing. -/
theorem holds_newEntry (s : Fs) (name : CString) (next parent : Ptr) {mode : Nat}
    (hreg : kvfsStatIsReg mode = true) : Holds s (newEntry name next parent mode) [] :=
  ⟨by simpa [TmpfsEntry.isReg, newEntry] using hreg, rfl, by simp [newEntry],
    Or.inl ⟨rfl, rfl, rfl⟩⟩

/-- **The first write to a new file** makes it hold the bytes written. -/
theorem Unpacking.writeFile (h : Unpacking s root t F) {path : List CString} {file x : Ptr}
    (hfile : s.obj file = some (.node (newNode x))) (hat : s.At t path x) {name : CString}
    {next parent mode : Nat} (hx : s.entries x = some (newEntry name next parent mode))
    (hreg : kvfsStatIsReg mode = true) {data : List UInt8} (hne : data ≠ [])
    (hfit : Allocatable data.length) :
    ∃ r, s.kvfsWrite file 0 data = some (data.length, data.length, r) ∧
      Unpacking r root t (putFile F path data) ∧
      ∀ p path', s.OpenAt t path' p → r.OpenAt t path' p := by
  have hobj := entries_eq_some.1 hx
  have hlen : data.length ≠ 0 := by simpa using hne
  have hbound : 0 + data.length < 2 ^ 32 := by simpa using hfit.lt
  have hroom : s.Allocates (0 + data.length) := by simpa using hfit s h.granted
  have hstat := kvfsGetStat_refers (refers_newNode hfile) hobj
  obtain ⟨r, e', block, hwrite, hrew, hsame, hholds⟩ := ktmpfsWrite_spec (refers_newNode hfile)
    hobj (holds_newEntry s name next parent hreg) (Nat.zero_le _) hlen hbound fun _ => hroom
  have hsplice : splice [] 0 data = data := by simp [splice]
  rw [Nat.zero_add] at hwrite
  rw [hsplice] at hholds
  obtain ⟨hrep, hstay⟩ := h.rep.write hat hx rfl hrew hsame hholds
  -- the nodes are neither the entry nor the block of its data
  have hopens : ∀ p path', s.OpenAt t path' p → r.OpenAt t path' p := by
    rintro p path' ⟨y, hy, hat'⟩
    have hdead : s.obj e'.dataPtr = none := hrew.block.resolve_left hrew.ne_zero
    refine ⟨y, ?_, hstay _ _ hat'⟩
    rw [hrew.obj, Function.update_of_ne, Function.update_of_ne, Function.update_of_ne, hy]
    · exact ne_zero_of_obj hy
    · rintro rfl
      rw [hdead] at hy
      cases hy
    · rintro rfl
      rw [hobj] at hy
      cases hy
  refine ⟨r, ?_, ⟨hrep, hopens _ _ h.open_root, hrew.frame.granted h.granted⟩, hopens⟩
  simp [kvfsWrite, ne_zero_of_obj hfile, hlen, hstat, hwrite]

/-- The data of an entry go to the new file. -/
theorem Unpacking.writeFileData (h : Unpacking s root t F) {path : List CString} {file x : Ptr}
    (hfile : s.obj file = some (.node (newNode x))) (hat : s.At t path x) {name : CString}
    {next parent mode : Nat} (hx : s.entries x = some (newEntry name next parent mode))
    (hreg : kvfsStatIsReg mode = true) (hF : F path = some (.file [])) {data : List UInt8}
    (hfit : data ≠ [] → Allocatable data.length) (entryName : CString) (type : Nat)
    (rest : List UInt8) :
    ∃ r, s.kinitrdWriteFileData file ⟨entryName, data.length, type⟩ (data ++ rest) =
        some (true, r) ∧ Unpacking r root t (putFile F path data) ∧
      ∀ p path', s.OpenAt t path' p → r.OpenAt t path' p := by
  by_cases hne : data = []
  · subst hne
    have hsame : putFile F path [] = F := by
      rw [putFile, ← hF, Function.update_eq_self]
    exact ⟨s, by simp [kinitrdWriteFileData, ne_zero_of_obj hfile], by rw [hsame]; exact h,
      fun _ _ hp => hp⟩
  · obtain ⟨r, hwrite, hr, hstay⟩ := h.writeFile hfile hat hx hreg hne (hfit hne)
    refine ⟨r, ?_, hr, hstay⟩
    simp [kinitrdWriteFileData, ne_zero_of_obj hfile, hne, hwrite]

/-- **A file entry makes the directories above it, and the file with its bytes.** -/
theorem unpackFile_spec (h : Unpacking s root t F) {path : CString} (hpath : ArchivePath path)
    (hfile : ∀ p bytes, p <+: components path → F p ≠ some (.file bytes))
    (hnone : F (components path) = none) {parent : List CString} {name : CString}
    (hsplit : components path = parent ++ [name]) {data : List UInt8}
    (hfit : data ≠ [] → Allocatable data.length) (type : Nat) (rest : List UInt8) :
    ∃ r t', s.kinitrdUnpackFile root ⟨path, data.length, type⟩ (data ++ rest) = some (true, r) ∧
      Unpacking r root t' (putFile (F.mkdirs parent) (components path) data) := by
  have hproper : ∀ n ∈ parent ++ [name], Proper n := fun n hn => hpath.proper (hsplit ▸ hn)
  have hpre : ∀ {p}, p <+: parent → p <+: components path := fun hp =>
    hp.trans (hsplit ▸ List.prefix_append parent [name])
  -- the directories above the file
  obtain ⟨q, r₁, t₁, hensure, hq, h₁, hopen₁⟩ := ensureDirectory_spec h
    (fun n hn => hproper n (List.mem_append_left _ hn)) fun p bytes hp => hfile p bytes (hpre hp)
  have hresolve : s.kinitrdResolveFileParent root ⟨path, data.length, type⟩ =
      some (q, name, r₁) := by
    have hdrop : ([slash] :: (parent ++ [name])).dropLast = [slash] :: parent := by
      rw [← List.cons_append, List.dropLast_concat]
    have hlast : ([slash] :: (parent ++ [name])).getLast?.getD [] = name := by
      rw [← List.cons_append, List.getLast?_concat, Option.getD_some]
    simp [kinitrdResolveFileParent, splitEntryPath_eq hpath, hsplit, hdrop, hlast, hensure]
  -- the file itself
  have hnone₁ : F.mkdirs parent (parent ++ [name]) = none := by
    rw [mkdirs, if_neg, ← hsplit, hnone]
    rintro ⟨-, hle⟩
    have := hle.length_le
    simp at this
  have hreg : kvfsStatIsReg (kvfsStatModeMaskIt (0o644 ||| KVFS_STAT_IFREG) ||| KVFS_STAT_IFREG) =
      true := isReg_mask_or _
  obtain ⟨f, r₂, t₂, x, next, d, hopen, hf, h₂, hnode, hat, hx, hbeside⟩ :=
    h₁.lookupOrMake_made hopen₁ (mkdirs_self fun bytes => hfile _ bytes (hpre List.prefix_rfl))
      (hproper name (by simp)) hnone₁
      (fun s parent name => s.kvfsCreate parent name (0o644 ||| KVFS_STAT_IFREG)) _ (.file [])
      (Or.inr hreg) (fun d e hd he hdir => kvfsCreate_spec hd he hdir name _)
      fun r x next d hx => ⟨_, entries_eq_some.1 hx, holds_newEntry r name next d hreg⟩
  obtain ⟨r₃, hwrite, h₃, hstay₃⟩ := h₂.writeFileData hnode hat hx hreg (Function.update_self _ _ _)
    hfit path type rest
  -- the two nodes are closed
  obtain ⟨hqf, hq₂⟩ := hbeside _ _ hopen₁
  have hroot := (hbeside _ _ h₁.open_root).1
  obtain ⟨r₄, hclose₄, h₄, hstay₄⟩ := h₃.close (hstay₃ _ _ ⟨x, hnode, hat⟩) hroot.symm
  obtain ⟨r₅, hclose₅, h₅, -⟩ := h₄.closeUnless (hstay₄ _ _ hqf (hstay₃ _ _ hq₂))
  have hput : putFile (Function.update (F.mkdirs parent) (parent ++ [name]) (some (.file [])))
      (parent ++ [name]) data = putFile (F.mkdirs parent) (components path) data := by
    rw [putFile, Function.update_idem, hsplit, putFile]
  refine ⟨r₅, t₂, ?_, hput ▸ h₅⟩
  have hopen' : r₁.kinitrdOpenOrCreateFile q name = some (f, r₂) := hopen
  simp [kinitrdUnpackFile, h.open_root.ne_zero, hresolve, hq, hopen', hf, hwrite, hclose₄, hclose₅]

/-- The codes of the tool stand for directories and regular files. -/
theorem getEntryMode_dir (name : CString) (size : Nat) :
    kinitrdGetEntryMode ⟨name, size, KINITRD_DIR⟩ = KVFS_STAT_IFDIR := by
  have hcode : kvfsStatType KINITRD_DIR = 0 := by decide
  simp only [kinitrdGetEntryMode, hcode, ne_eq, not_true_eq_false, if_false]
  rfl

theorem getEntryMode_file (name : CString) (size : Nat) :
    kinitrdGetEntryMode ⟨name, size, KINITRD_FILE⟩ = KVFS_STAT_IFREG := by
  have hcode : kvfsStatType KINITRD_FILE = 0 := by decide
  simp only [kinitrdGetEntryMode, hcode, ne_eq, not_true_eq_false, if_false]
  rfl

/-- **An entry of the archive becomes what it stands for.** -/
theorem unpackEntry_spec {items : List (Item CString (List UInt8))} {e : ArchiveEntry}
    (h : Unpacking s root t (listed items)) (hpath : ArchivePath e.path)
    (hc : Compatible (items ++ [e.item])) (hfit : e.data ≠ [] → Allocatable e.data.length)
    (rest : List UInt8) :
    ∃ r t', s.kinitrdUnpackEntry root ⟨e.path, e.data.length, e.type⟩ (e.data ++ rest) =
        some (true, r) ∧ Unpacking r root t' (listed (items ++ [e.item])) := by
  have hfile : ∀ p bytes, p <+: components e.path → listed items p ≠ some (.file bytes) :=
    fun p bytes hp => listed_ne_file hc hp bytes
  have hroot := h.open_root.ne_zero
  cases hcontent : e.content with
  | none =>
    have htype : e.type = KINITRD_DIR := by simp [ArchiveEntry.type, hcontent]
    obtain ⟨r, t', hunpack, hr⟩ := unpackDirectory_spec h hpath hfile e.data.length e.type
    refine ⟨r, t', ?_, by rw [listed_snoc_dir hcontent]; exact hr⟩
    have hmode : kinitrdGetEntryMode ⟨e.path, e.data.length, e.type⟩ = KVFS_STAT_IFDIR := by
      rw [htype, getEntryMode_dir]
    have hdir : kvfsStatIsDir KVFS_STAT_IFDIR = true := by decide
    simp only [kinitrdUnpackEntry, hmode, hdir, if_neg hroot, if_true, hunpack]
  | some data =>
    have htype : e.type = KINITRD_FILE := by simp [ArchiveEntry.type, hcontent]
    have hdata : e.data = data := by simp [ArchiveEntry.data, hcontent]
    obtain ⟨parent, name, hsplit⟩ : ∃ parent name, components e.path = parent ++ [name] := by
      have hne : components e.path ≠ [] := List.ne_nil_of_length_pos hpath.one
      exact ⟨_, _, (List.dropLast_append_getLast hne).symm⟩
    have hnone : listed items (components e.path) = none :=
      listed_eq_none hc (by simp [ArchiveEntry.item, hcontent])
    obtain ⟨r, t', hunpack, hr⟩ := unpackFile_spec h hpath hfile hnone hsplit hfit e.type rest
    refine ⟨r, t', ?_, by rw [listed_snoc_file hc hsplit hcontent, ← hdata]; exact hr⟩
    have hmode : kinitrdGetEntryMode ⟨e.path, e.data.length, e.type⟩ = KVFS_STAT_IFREG := by
      rw [htype, getEntryMode_file]
    have hreg : kvfsStatIsReg KVFS_STAT_IFREG = true := by decide
    have hdir : kvfsStatIsDir KVFS_STAT_IFREG = false := by decide
    simp only [kinitrdUnpackEntry, hmode, hreg, hdir, if_neg hroot, Bool.false_eq_true, if_false,
      if_true, hunpack]

/-! ## The image -/

/-- `write_entry` emits the header and the bytes of the entry. -/
theorem bytes_eq (e : ArchiveEntry) :
    e.bytes = entryBytes e.path e.data.length e.type ++ e.data := by
  unfold ArchiveEntry.bytes writeEntry
  congr 1
  by_cases hdata : e.data = []
  · simp [hdata]
  · have htype : e.type = KINITRD_FILE := by
      cases hcontent : e.content with
      | none => exact absurd (by simp [ArchiveEntry.data, hcontent]) hdata
      | some data => simp [ArchiveEntry.type, hcontent]
    rw [if_pos ⟨htype, List.length_pos_of_ne_nil hdata⟩, List.take_length]

/-- **The loop keeps in step with the image**: it unpacks the entries one after the other, up to
the end. -/
theorem unpackLoop_spec {entries : List ArchiveEntry} {items : List (Item CString (List UInt8))}
    (h : Unpacking s root t (listed items)) (hpaths : ∀ e ∈ entries, ArchivePath e.path)
    (hc : Compatible (items ++ entries.map ArchiveEntry.item))
    (hfit : ∀ e ∈ entries, e.data ≠ [] → Allocatable e.data.length) {fuel : Nat}
    (hfuel : entries.length < fuel) :
    ∃ r t', unpackLoop root fuel s (archiveImage entries) = some (true, r) ∧
      Unpacking r root t' (listed (items ++ entries.map ArchiveEntry.item)) := by
  induction entries generalizing s t items fuel with
  | nil =>
    obtain ⟨f, rfl⟩ : ∃ f, fuel = f + 1 := ⟨fuel - 1, by simp at hfuel; omega⟩
    have hnul : (0 : UInt8) ∉ ([] : CString) := List.not_mem_nil
    have hread : readEntry (entryBytes [] 0 0 ++ []) = ⟨[], 0, 0⟩ :=
      readEntry_entryBytes hnul (by decide) (by decide) (by decide) []
    rw [List.append_nil] at hread
    refine ⟨s, t, ?_, by simpa using h⟩
    simp [unpackLoop, archiveImage, hread, kinitrdIsEndMarker, endEntry]
  | cons e entries ih =>
    obtain ⟨f, rfl⟩ : ∃ f, fuel = f + 1 := ⟨fuel - 1, by omega⟩
    have hpath := hpaths e List.mem_cons_self
    have hfit' := hfit e List.mem_cons_self
    have himage : archiveImage (e :: entries) =
        entryBytes e.path e.data.length e.type ++ (e.data ++ archiveImage entries) := by
      simp [archiveImage, bytes_eq]
    have hsize : e.data.length < 2 ^ 32 := by
      by_cases hne : e.data = []
      · simp [hne]
      · exact (hfit' hne).lt
    have htype : e.type < 2 ^ 32 := by
      unfold ArchiveEntry.type
      split_ifs <;> decide
    have hread := readEntry_entryBytes hpath.noNul (Nat.lt_succ_of_le hpath.length) hsize htype
      (e.data ++ archiveImage entries)
    have hmark : kinitrdIsEndMarker ⟨e.path, e.data.length, e.type⟩ = false := by
      have hne : e.path ≠ [] := by
        intro hnil
        have := hpath.absolute
        rw [hnil] at this
        cases this
      simp [kinitrdIsEndMarker, hne]
    have hc' : Compatible ((items ++ [e.item]) ++ entries.map ArchiveEntry.item) := by
      simpa using hc
    obtain ⟨r, t', hunpack, hr⟩ := unpackEntry_spec h hpath hc'.of_append hfit'
      (archiveImage entries)
    obtain ⟨r', t'', hloop, hr'⟩ := ih hr (fun e' he' => hpaths e' (List.mem_cons_of_mem e he')) hc'
      (fun e' he' => hfit e' (List.mem_cons_of_mem e he')) (Nat.lt_of_succ_lt_succ hfuel)
    refine ⟨r', t'', ?_, by simpa using hr'⟩
    rw [himage]
    have hdrop : (entryBytes e.path e.data.length e.type ++
        (e.data ++ archiveImage entries)).drop sizeofInitrdEntry =
          e.data ++ archiveImage entries := List.drop_left' (length_entryBytes _ _ _)
    simp [unpackLoop, hread, hmark, hdrop, kinitrdHasRemainingData, hunpack, hloop]

/-- An image has room for each of its entries, and for the end. -/
theorem length_archiveImage (entries : List ArchiveEntry) :
    sizeofInitrdEntry * (entries.length + 1) ≤ (archiveImage entries).length := by
  induction entries with
  | nil => simp [archiveImage, endEntry]
  | cons e entries ih =>
    have himage : archiveImage (e :: entries) = e.bytes ++ archiveImage entries := by
      simp [archiveImage]
    rw [himage, bytes_eq]
    simp only [List.length_append, length_entryBytes, List.length_cons]
    simp only [sizeofInitrdEntry] at ih ⊢
    omega

/-! ## There and back -/

/-- `root` is an open node of a directory tree that consists of the root alone. -/
def EmptyRoot (s : Fs) (root : Ptr) : Prop :=
  ∃ f, TreeStored s.entries (OrderedTree.single f) ∧ s.obj root = some (.node (newNode f))

/-- The root is empty after the mount. -/
theorem FreshMount.emptyRoot (h : FreshMount s) : EmptyRoot s s.kvfsRootMountDir := by
  obtain ⟨f, hf⟩ := h.stands
  exact ⟨f, hf.stands.tree, hf.stands.root⟩

/-- An empty root is the tree of no entries. -/
theorem EmptyRoot.unpacking (h : EmptyRoot s root) (hg : s.Granted) :
    ∃ t, Unpacking s root t (listed []) := by
  obtain ⟨f, htree, hroot⟩ := h
  have hat : ∀ path q, s.At (OrderedTree.single f) path q → path = [] ∧ q = f := by
    intro path q hq
    cases hq with
    | root => exact ⟨rfl, rfl⟩
    | kid _ hkid _ => exact absurd hkid List.not_mem_nil
  refine ⟨OrderedTree.single f, ⟨htree, wellNamed_single _ f, fun path q hq => ?_,
    fun path hF => ?_⟩, ⟨f, hroot, .root⟩, hg⟩
  · obtain ⟨rfl, rfl⟩ := hat path q hq
    obtain ⟨e, he⟩ := (htree.mem q).1 rfl
    exact ⟨.dir, by simp [listed_nil], e, he, htree.root_isDir e he⟩
  · refine ⟨f, ?_⟩
    have hpath : path = [] := by
      by_contra hne
      exact hF (by simp [listed_nil, hne])
    rw [hpath]
    exact .root

/-- **The file system holds the entries of the archive and nothing else**: the directories are the
root, the listed ones, and those above listed paths; the files are the listed ones, with their
bytes; and there is no other entry, and never two at one path. -/
structure Unpacked (s : Fs) (t : OrderedTree Ptr) (entries : List ArchiveEntry) : Prop where
  tree : TreeStored s.entries t
  dirs : ∀ path, (∃ q, s.At t path q ∧ ∃ e, s.entries q = some e ∧ e.isDir = true) ↔
    path = [] ∨ ∃ e ∈ entries, path <+: components e.path ∧
      (path = components e.path → e.content = none)
  files : ∀ path bytes, (∃ q, s.At t path q ∧ s.FileHolds q bytes) ↔
    ∃ e ∈ entries, components e.path = path ∧ e.content = some bytes
  only : ∀ q, t.Mem q → ∃ path, s.At t path q ∧
    ((∃ e, s.entries q = some e ∧ e.isDir = true) ∨ ∃ bytes, s.FileHolds q bytes)
  one : ∀ path q q', s.At t path q → s.At t path q' → q = q'

/-- What a file system that represents the listed items consists of. -/
theorem Represents.unpacked {entries : List ArchiveEntry}
    (h : Represents s t (listed (entries.map ArchiveEntry.item)))
    (hc : Compatible (entries.map ArchiveEntry.item)) : Unpacked s t entries := by
  refine ⟨h.tree, fun path => ?_, fun path bytes => ?_, fun q hq => ?_, fun path q q' =>
    h.at_unique⟩
  · have hdir := (h.eq_some_iff (n := .dir)).symm.trans (listed_eq_dir hc path)
    refine hdir.trans (or_congr Iff.rfl ?_)
    simp [ArchiveEntry.item]
  · have hfile := (h.eq_some_iff (n := .file bytes)).symm.trans
      (listed_eq_file hc path bytes)
    refine hfile.trans ?_
    simp [ArchiveEntry.item]
  · obtain ⟨path, hpath⟩ := OrderedTree.exists_pathTo (nameOf s.entries) hq
    obtain ⟨n, -, hnode⟩ := h.node path q hpath
    refine ⟨path, hpath, ?_⟩
    cases n with
    | dir => exact Or.inl hnode
    | file bytes => exact Or.inr ⟨bytes, hnode⟩

/-- **The kernel unpacks exactly what the tool has packed.** -/
theorem unpack_round_trip (hroot : EmptyRoot s root) (hg : s.Granted)
    {entries : List ArchiveEntry} (hw : DelOs.WellFormed entries)
    (hfit : ∀ e ∈ entries, e.data ≠ [] → Allocatable e.data.length) :
    ∃ r t, s.kinitrdUnpack root (archiveImage entries) = some (true, r) ∧ Unpacked r t entries := by
  obtain ⟨t, h⟩ := hroot.unpacking hg
  have hlen := length_archiveImage entries
  have hc : Compatible ([] ++ entries.map ArchiveEntry.item) := hw.compatible
  have hfuel : entries.length < (archiveImage entries).length + 1 := by
    simp only [sizeofInitrdEntry] at hlen
    omega
  obtain ⟨r, t', hloop, hr⟩ := unpackLoop_spec h hw.path hc hfit hfuel
  have hsize : kinitrdIsSizeValid (archiveImage entries).length = true := by
    simp only [kinitrdIsSizeValid, sizeofInitrdEntry, ge_iff_le, decide_eq_true_eq] at hlen ⊢
    omega
  refine ⟨r, t', ?_, hr.rep.unpacked hw.compatible⟩
  simp [kinitrdUnpack, h.open_root.ne_zero, hsize, hloop]

/-- `"/bin"` -/
def binPath : CString := [0x2f, 0x62, 0x69, 0x6e]

/-- `"/bin/README.md"` -/
def readmePath : CString :=
  [0x2f, 0x62, 0x69, 0x6e, 0x2f, 0x52, 0x45, 0x41, 0x44, 0x4d, 0x45, 0x2e, 0x6d, 0x64]

/-- The archive that the tool writes: a directory and a file in it. -/
def toolArchive (readme : List UInt8) : List ArchiveEntry :=
  [⟨binPath, none⟩, ⟨readmePath, some readme⟩]

theorem wellFormed_toolArchive (readme : List UInt8) :
    DelOs.WellFormed (toolArchive readme) := by
  have hbin : ArchivePath binPath := ⟨rfl, by decide, by decide, by decide, by decide, by decide⟩
  have hreadme : ArchivePath readmePath :=
    ⟨rfl, by decide, by decide, by decide, by decide, by decide⟩
  have hbinParts : components binPath = [[0x62, 0x69, 0x6e]] := by decide
  have hreadmeParts : components readmePath =
      [[0x62, 0x69, 0x6e], [0x52, 0x45, 0x41, 0x44, 0x4d, 0x45, 0x2e, 0x6d, 0x64]] := by decide
  refine ⟨?_, ?_, ?_, ?_⟩
  · simp [toolArchive, hbin, hreadme]
  · simp [toolArchive, ArchiveEntry.item, hbinParts, hreadmeParts]
  · simp [toolArchive, ArchiveEntry.item, hbinParts, hreadmeParts]
  · simp [toolArchive, ArchiveEntry.item, hbinParts, hreadmeParts]

/-- The archive of the tool, unpacked after the mount. -/
theorem unpack_round_trip_tool :
    EmptyRoot mountedRoot mountedRoot.kvfsRootMountDir ∧ mountedRoot.Granted ∧
      DelOs.WellFormed (toolArchive [0x68, 0x69]) ∧
      ∃ r t, mountedRoot.kinitrdUnpack mountedRoot.kvfsRootMountDir
          (archiveImage (toolArchive [0x68, 0x69])) = some (true, r) ∧
        Unpacked r t (toolArchive [0x68, 0x69]) := by
  have hroot := freshMount_mountedRoot.emptyRoot
  have hg : mountedRoot.Granted := fun _ => rfl
  have hw := wellFormed_toolArchive [0x68, 0x69]
  refine ⟨hroot, hg, hw, unpack_round_trip hroot hg hw fun e he hne => ?_⟩
  have hlen : e.data.length ≤ 2 := by
    rcases List.mem_pair.1 he with rfl | rfl <;> simp [ArchiveEntry.data]
  exact allocatable_of_le (List.length_pos_of_ne_nil hne) (hlen.trans (by decide))

end Fs

end DelOs
