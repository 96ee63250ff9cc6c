import DelOs.Fs.State

/-!
# Splitting a path

`kvfs_split_path` of `src/kernel/fs/vfs/vfs_helper.c` cuts a path into a table of at most
`KVFS_MAX_PATH_PARTS` names of at most `KVFS_MAX_NAME_LEN - 1` bytes each.

* `kvfsSplitPath` — the function of that name.
* `components` — what a path is meant to consist of: its maximal runs of other bytes than `/`.
* `splitParts_eq` — **the table holds the first components of the path**, as many as there is
  room for, as long as each of them is short enough.
* `splitParts_valid` — whatever the path, each name in the table is one that a buffer can hold.
-/

namespace DelOs

/-- `'/'` -/
def slash : UInt8 := 0x2f

def KVFS_MAX_PATH_PARTS : Nat := 16
def KVFS_MAX_NAME_LEN : Nat := 255

/-- `kvfs_is_absolute_path`. -/
def kvfsIsAbsolutePath : CString → Bool
  | [] => false
  | c :: _ => c == slash

/-- `while (path[i] == '/') i++`. -/
def skipSlashes (path : CString) : CString := path.dropWhile (· == slash)

/-- The inner loop of `kvfs_split_path`: at most `room` bytes, up to a slash or the end, and
what is left of the path. -/
def takePart : Nat → CString → CString × CString
  | 0, path => ([], path)
  | _ + 1, [] => ([], [])
  | room + 1, c :: path =>
    if c = slash then ([], c :: path)
    else (c :: (takePart room path).1, (takePart room path).2)

/-- The outer loop of `kvfs_split_path`, with `room` free places in the table. -/
def splitParts : Nat → CString → List CString
  | 0, _ => []
  | _ + 1, [] => []
  | room + 1, c :: path =>
    let (part, rest) := takePart (KVFS_MAX_NAME_LEN - 1) (c :: path)
    part :: splitParts room (skipSlashes rest)

/-- `kvfs_split_path`. -/
def kvfsSplitPath (path : CString) : List CString :=
  if kvfsIsAbsolutePath path then
    [slash] :: splitParts (KVFS_MAX_PATH_PARTS - 1) (skipSlashes path)
  else splitParts KVFS_MAX_PATH_PARTS (skipSlashes path)

/-! ## Components -/

/-- The components of a path: its maximal runs of other bytes than `/`. -/
def components (path : CString) : List CString := (path.splitOn slash).filter (· ≠ [])

/-- A component that a name buffer can hold. -/
def FitsName (name : CString) : Prop := name.length ≤ KVFS_MAX_NAME_LEN - 1

instance (name : CString) : Decidable (FitsName name) :=
  inferInstanceAs (Decidable (_ ≤ _))

@[simp] theorem components_nil : components [] = [] := rfl

@[simp] theorem components_slash (path : CString) : components (slash :: path) = components path := by
  have h : (slash :: path).splitOn slash = [] :: path.splitOn slash :=
    List.splitOn_append_cons_self_of_not_mem (List.not_mem_nil) path
  simp [components, h]

theorem components_skipSlashes (path : CString) :
    components (skipSlashes path) = components path := by
  induction path with
  | nil => rfl
  | cons c path ih =>
    by_cases hc : c = slash
    · subst hc
      simpa [skipSlashes] using ih
    · simp [skipSlashes, hc]

/-- The first component of a path that does not begin with a slash. -/
theorem components_run {run rest : CString} (hne : run ≠ []) (hrun : slash ∉ run)
    (hrest : rest = [] ∨ rest.head? = some slash) :
    components (run ++ rest) = run :: components rest := by
  cases rest with
  | nil => simp [components, List.splitOn_eq_singleton hrun, hne]
  | cons c rest =>
    obtain rfl : c = slash := by simpa using hrest
    rw [components_slash]
    simp [components, List.splitOn_append_cons_self_of_not_mem hrun, hne]

/-- The components that are left after slashes have been skipped are found behind no slash. -/
theorem head_skipSlashes (path : CString) : (skipSlashes path).head? ≠ some slash := by
  induction path with
  | nil => simp [skipSlashes]
  | cons c path ih =>
    by_cases hc : c = slash
    · subst hc
      simpa [skipSlashes] using ih
    · simp [skipSlashes, hc]

/-- The inner loop takes a run of bytes, or as much of it as there is room for. -/
theorem takePart_run {run rest : CString} (room : Nat) (hrun : slash ∉ run)
    (hrest : rest = [] ∨ rest.head? = some slash) :
    takePart room (run ++ rest) = (run.take room, run.drop room ++ rest) := by
  induction room generalizing run with
  | zero => simp [takePart]
  | succ room ih =>
    cases run with
    | nil =>
      cases rest with
      | nil => simp [takePart]
      | cons c rest =>
        obtain rfl : c = slash := by simpa using hrest
        simp [takePart]
    | cons c run =>
      have hc : c ≠ slash := fun h => hrun (h ▸ List.mem_cons_self)
      have hrest' := ih fun h => hrun (List.mem_cons_of_mem c h)
      simp [takePart, hc, hrest']

/-- A path behind its slashes is a run of other bytes, and a slash and more or nothing. -/
theorem exists_run {c : UInt8} (path : CString) (hc : c ≠ slash) :
    ∃ run rest, c :: path = run ++ rest ∧ run ≠ [] ∧ slash ∉ run ∧
      (rest = [] ∨ rest.head? = some slash) := by
  refine ⟨(c :: path).takeWhile (· ≠ slash), (c :: path).dropWhile (· ≠ slash),
    (List.takeWhile_append_dropWhile).symm, by simp [hc], ?_, ?_⟩
  · intro h
    simpa using List.all_eq_true.1 List.all_takeWhile slash h
  · cases hd : (c :: path).dropWhile (· ≠ slash) with
    | nil => exact Or.inl rfl
    | cons b rest =>
      right
      have := List.head?_dropWhile_not (fun x : UInt8 => decide (x ≠ slash)) (c :: path)
      rw [hd] at this
      simpa using this

/-- What is left behind the first slashes starts with a name. -/
theorem run_of_skipSlashes {path : CString} {c : UInt8} {rest : CString}
    (h : skipSlashes path = c :: rest) :
    ∃ run rest', c :: rest = run ++ rest' ∧ run ≠ [] ∧ slash ∉ run ∧
      (rest' = [] ∨ rest'.head? = some slash) := by
  refine exists_run rest ?_
  rintro rfl
  exact head_skipSlashes path (by simp [h])

/-- **The table holds the first components of the path**, if each of them is short enough. -/
theorem splitParts_eq (room : Nat) {path : CString} (h : ∀ name ∈ components path, FitsName name) :
    splitParts room (skipSlashes path) = (components path).take room := by
  induction room generalizing path with
  | zero => rfl
  | succ room ih =>
    rw [← components_skipSlashes] at h ⊢
    cases hpath : skipSlashes path with
    | nil => rfl
    | cons c rest =>
      obtain ⟨run, rest', heq, hne, hrun, hrest⟩ := run_of_skipSlashes hpath
      have hcomp : components (c :: rest) = run :: components rest' := by
        rw [heq, components_run hne hrun hrest]
      rw [hpath, hcomp] at h
      have hlen : run.length ≤ KVFS_MAX_NAME_LEN - 1 := h run List.mem_cons_self
      have htake : takePart (KVFS_MAX_NAME_LEN - 1) (c :: rest) = (run, rest') := by
        rw [heq, takePart_run _ hrun hrest, List.take_of_length_le hlen,
          List.drop_of_length_le hlen, List.nil_append]
      have hrest' := ih fun name hname => h name (List.mem_cons_of_mem run hname)
      rw [hcomp, List.take_succ_cons, ← hrest']
      simp only [splitParts, htake]

/-- **Each name in the table is one that a buffer can hold**, and none is empty. -/
theorem splitParts_valid (room : Nat) (path : CString) :
    ∀ name ∈ splitParts room (skipSlashes path), name ≠ [] ∧ FitsName name ∧ slash ∉ name := by
  induction room generalizing path with
  | zero => simp [splitParts]
  | succ room ih =>
    cases hpath : skipSlashes path with
    | nil => simp [splitParts]
    | cons c rest =>
      obtain ⟨run, rest', heq, hne, hrun, hrest⟩ := run_of_skipSlashes hpath
      intro name hname
      rw [splitParts, heq, takePart_run _ hrun hrest] at hname
      rcases List.mem_cons.1 hname with rfl | hname
      · refine ⟨?_, ?_, fun hmem => hrun (List.mem_of_mem_take hmem)⟩
        · simpa [KVFS_MAX_NAME_LEN] using hne
        · simp [FitsName]
      · exact ih _ name hname

/-- How many components the table has room for: one less when a `"/"` comes first. -/
def partsRoom (path : CString) : Nat :=
  if kvfsIsAbsolutePath path then KVFS_MAX_PATH_PARTS - 1 else KVFS_MAX_PATH_PARTS

/-- The names in the table behind the `"/"` of an absolute path. -/
theorem kvfsSplitPath_eq (path : CString) :
    kvfsSplitPath path = (if kvfsIsAbsolutePath path then [[slash]] else []) ++
      splitParts (partsRoom path) (skipSlashes path) := by
  unfold kvfsSplitPath partsRoom
  split_ifs <;> rfl

/-- Each name in the table, the `"/"` included, is not empty and fits in a buffer. -/
theorem kvfsSplitPath_valid {path name : CString} (h : name ∈ kvfsSplitPath path) :
    name ≠ [] ∧ FitsName name := by
  rw [kvfsSplitPath_eq, List.mem_append] at h
  rcases h with h | h
  · split_ifs at h with hp
    · obtain rfl := List.mem_singleton.1 h
      exact ⟨by simp, by decide⟩
    · exact absurd h List.not_mem_nil
  · exact ⟨(splitParts_valid _ path name h).1, (splitParts_valid _ path name h).2.1⟩

end DelOs
