import Mathlib.Tactic

/-!
# Directory trees as maps from paths

A directory tree seen from outside: what each path leads to, nothing, a directory or a file with
its contents.  A path is a list of names.

* `PathTree.Closed` — above everything there are directories.
* `PathTree.mkdirs`, `PathTree.putFile` — make a directory and all above it, store a file.
* `Item`, `PathTree.listed` — a list of directories and files, and the tree that it is meant to
  stand for.
* `PathTree.listed_snoc_dir`, `PathTree.listed_snoc_file` — **one more item is one more
  `mkdirs` or `putFile`**, in any order of the items, if no file lies on the way to another item.
-/

universe u v

variable {α : Type u} {β : Type v}

/-- What a path may lead to. -/
inductive PathNode (β : Type v)
  | dir
  | file (content : β)
  deriving DecidableEq, Repr

/-- A directory tree: what each path leads to. -/
abbrev PathTree (α : Type u) (β : Type v) := List α → Option (PathNode β)

namespace PathTree

/-- Above everything there are directories. -/
structure Closed (F : PathTree α β) : Prop where
  root : F [] = some .dir
  above : ∀ path name, F (path ++ [name]) ≠ none → F path = some .dir

variable {F : PathTree α β}

/-- What lies above something is a directory. -/
theorem Closed.of_prefix (h : Closed F) {p path : List α} (hpre : p <+: path)
    (hpath : F path ≠ none) : p = path ∨ F p = some .dir := by
  obtain ⟨rest, rfl⟩ := hpre
  induction rest using List.reverseRecOn with
  | nil => exact Or.inl (List.append_nil p).symm
  | append_singleton rest name ih =>
    rw [← List.append_assoc] at hpath
    have hdir := h.above _ _ hpath
    right
    rcases ih (by simp [hdir]) with heq | hp
    · rw [heq, hdir]
    · exact hp

variable [DecidableEq α]

/-! ## Making directories and files -/

/-- Make the directory `path` and all that are missing above it. -/
def mkdirs (F : PathTree α β) (path : List α) : PathTree α β := fun p =>
  if F p = none ∧ p <+: path then some .dir else F p

/-- Store a file. -/
def putFile (F : PathTree α β) (path : List α) (content : β) : PathTree α β :=
  Function.update F path (some (.file content))

/-- Where there is something, there is nothing to make. -/
theorem mkdirs_of_some (h : Closed F) {path : List α} (hpath : F path ≠ none) :
    mkdirs F path = F := by
  funext p
  unfold mkdirs
  rw [if_neg]
  rintro ⟨hnone, hpre⟩
  rcases h.of_prefix hpre hpath with rfl | hdir
  · exact hpath hnone
  · rw [hdir] at hnone
    cases hnone

/-- Below something, one directory is made. -/
theorem mkdirs_snoc (h : Closed F) {path : List α} {name : α} (hpath : F path ≠ none)
    (hnone : F (path ++ [name]) = none) :
    mkdirs F (path ++ [name]) = Function.update F (path ++ [name]) (some .dir) := by
  funext p
  rw [Function.update_apply]
  unfold mkdirs
  by_cases hp : p = path ++ [name]
  · rw [if_pos hp, hp, if_pos ⟨hnone, List.prefix_rfl⟩]
  · rw [if_neg hp, if_neg]
    rintro ⟨hpnone, hpre⟩
    rcases List.prefix_concat_iff.1 hpre with heq | hpre'
    · exact hp heq
    · rcases h.of_prefix hpre' hpath with rfl | hdir
      · exact hpath hpnone
      · rw [hdir] at hpnone
        cases hpnone

/-- What is on the way has been made already. -/
theorem mkdirs_mkdirs {path path' : List α} (hpre : path <+: path') :
    mkdirs (mkdirs F path) path' = mkdirs F path' := by
  funext p
  unfold mkdirs
  by_cases hp : F p = none ∧ p <+: path
  · simp [hp, hp.2.trans hpre]
  · rw [if_neg hp]

/-- No file is made on the way. -/
theorem mkdirs_eq_file {path p : List α} {content : β} :
    mkdirs F path p = some (.file content) ↔ F p = some (.file content) := by
  unfold mkdirs
  split_ifs with hp
  · simp [hp.1]
  · rfl

/-- Where there was no file, there is a directory now. -/
theorem mkdirs_self {path : List α} (hfile : ∀ content, F path ≠ some (.file content)) :
    mkdirs F path path = some .dir := by
  unfold mkdirs
  split_ifs with hp
  · rfl
  · cases hF : F path with
    | none => exact absurd ⟨hF, List.prefix_rfl⟩ hp
    | some n =>
      cases n with
      | dir => rfl
      | file content => exact absurd hF (hfile content)

/-! ## Lists of items -/

/-- A directory or a file, with its path. -/
structure Item (α : Type u) (β : Type v) where
  path : List α
  /-- the contents of a file; a directory has none -/
  content : Option β

/-- The tree that a list of items stands for: the listed files, the listed directories, and the
directories above them. -/
def listed (items : List (Item α β)) : PathTree α β := fun path =>
  match items.find? fun i => i.path = path ∧ i.content.isSome with
  | some i => i.content.map .file
  | none => if path = [] ∨ ∃ i ∈ items, path <+: i.path then some .dir else none

/-- The items can stand side by side in one tree: they have different paths, none of them is the
root, and no file lies on the way to another item. -/
structure Compatible (items : List (Item α β)) : Prop where
  distinct : (items.map Item.path).Nodup
  nonroot : ∀ i ∈ items, i.path ≠ []
  files : ∀ i ∈ items, ∀ j ∈ items, i.content.isSome → i.path <+: j.path → i.path = j.path

variable {items : List (Item α β)}

theorem listed_nil :
    listed ([] : List (Item α β)) = fun path => if path = [] then some .dir else none := by
  funext path
  simp [listed]

omit [DecidableEq α] in
/-- Items with the same path are the same. -/
theorem Compatible.eq_of_path (h : Compatible items) {i j : Item α β} (hi : i ∈ items)
    (hj : j ∈ items) (hpath : i.path = j.path) : i = j :=
  List.inj_on_of_nodup_map h.distinct hi hj hpath

/-- A path leads to a file if and only if the file is listed. -/
theorem listed_eq_file (h : Compatible items) (path : List α) (content : β) :
    listed items path = some (.file content) ↔
      ∃ i ∈ items, i.path = path ∧ i.content = some content := by
  unfold listed
  cases hf : items.find? fun i => decide (i.path = path ∧ i.content.isSome) with
  | none =>
    have hnone := List.find?_eq_none.1 hf
    constructor
    · intro heq
      simp only at heq
      split_ifs at heq
      simp at heq
    · rintro ⟨i, hi, hpath, hcontent⟩
      exact absurd (by simp [hpath, hcontent]) (hnone i hi)
  | some i =>
    have hi := List.mem_of_find?_eq_some hf
    obtain ⟨hpath, hfile⟩ : i.path = path ∧ i.content.isSome := by
      simpa using List.find?_some hf
    constructor
    · intro heq
      refine ⟨i, hi, hpath, ?_⟩
      obtain ⟨c, hc, hcontent⟩ := Option.map_eq_some_iff.1 heq
      rw [hc, PathNode.file.inj hcontent]
    · rintro ⟨j, hj, hpath', hcontent⟩
      obtain rfl := h.eq_of_path hi hj (hpath.trans hpath'.symm)
      simp [hcontent]

/-- A path leads to a directory if and only if it is the root, or a listed directory or one above
a listed item. -/
theorem listed_eq_dir (h : Compatible items) (path : List α) :
    listed items path = some .dir ↔
      path = [] ∨ ∃ i ∈ items, path <+: i.path ∧ (path = i.path → i.content = none) := by
  unfold listed
  cases hf : items.find? fun i => decide (i.path = path ∧ i.content.isSome) with
  | none =>
    have hnone := List.find?_eq_none.1 hf
    simp only
    have hiff : (path = [] ∨ ∃ i ∈ items, path <+: i.path) ↔
        (path = [] ∨ ∃ i ∈ items, path <+: i.path ∧ (path = i.path → i.content = none)) := by
      refine or_congr Iff.rfl (exists_congr fun i => and_congr_right fun hi => ?_)
      refine ⟨fun hpre => ⟨hpre, fun heq => ?_⟩, And.left⟩
      simpa [heq] using hnone i hi
    rw [← hiff]
    split_ifs with hpath <;> simp [hpath]
  | some i =>
    have hi := List.mem_of_find?_eq_some hf
    obtain ⟨hpath, hfile⟩ : i.path = path ∧ i.content.isSome := by
      simpa using List.find?_some hf
    refine iff_of_false ?_ ?_
    · intro heq
      obtain ⟨c, -, hc⟩ := Option.map_eq_some_iff.1 heq
      cases hc
    · rintro (hroot | ⟨j, hj, hpre, hdir⟩)
      · exact h.nonroot i hi (hpath.trans hroot)
      · have heq := h.files i hi j hj hfile (hpath ▸ hpre)
        obtain rfl := h.eq_of_path hi hj heq
        rw [hdir hpath.symm] at hfile
        cases hfile

/-! ## One more item -/

variable {i : Item α β}

omit [DecidableEq α] in
theorem Compatible.of_append {rest : List (Item α β)} (h : Compatible (items ++ rest)) :
    Compatible items := by
  refine ⟨?_, fun i hi => h.nonroot i (List.mem_append_left _ hi), fun i hi j hj =>
    h.files i (List.mem_append_left _ hi) j (List.mem_append_left _ hj)⟩
  have hnodup := h.distinct
  rw [List.map_append] at hnodup
  exact hnodup.of_append_left

omit [DecidableEq α] in
/-- The path of one more item is a new one. -/
theorem Compatible.path_ne (h : Compatible (items ++ [i])) {j : Item α β} (hj : j ∈ items) :
    j.path ≠ i.path := by
  have hnodup := h.distinct
  rw [List.map_append] at hnodup
  intro heq
  exact List.disjoint_of_nodup_append hnodup (List.mem_map_of_mem hj) (by simp [heq])

/-- No file lies on the way to one more item. -/
theorem listed_ne_file (h : Compatible (items ++ [i])) {path : List α} (hpre : path <+: i.path)
    (content : β) : listed items path ≠ some (.file content) := by
  intro hfile
  obtain ⟨j, hj, rfl, hcontent⟩ := (listed_eq_file h.of_append _ _).1 hfile
  exact h.path_ne hj (h.files j (List.mem_append_left _ hj) i (by simp) (by simp [hcontent]) hpre)

/-- Nothing lies where one more file goes. -/
theorem listed_eq_none (h : Compatible (items ++ [i])) (hfile : i.content.isSome) :
    listed items i.path = none := by
  cases hat : listed items i.path with
  | none => rfl
  | some node =>
    cases node with
    | file content => exact absurd hat (listed_ne_file h List.prefix_rfl content)
    | dir =>
      rcases (listed_eq_dir h.of_append _).1 hat with hroot | ⟨j, hj, hpre, -⟩
      · exact absurd hroot (h.nonroot i (by simp))
      · have heq := h.files i (by simp) j (List.mem_append_left _ hj) hfile hpre
        exact absurd heq.symm (h.path_ne hj)

/-- What one more item adds away from its own path: the directories above it. -/
theorem listed_snoc_of_ne {path : List α} (hne : path ≠ i.path ∨ i.content = none) :
    listed (items ++ [i]) path =
      if listed items path = none ∧ path <+: i.path then some .dir else listed items path := by
  have hlast : ([i].find? fun j => decide (j.path = path ∧ j.content.isSome)) = none := by
    rcases hne with hne | hdir
    · simp [Ne.symm hne]
    · simp [hdir]
  unfold listed
  rw [List.find?_append, hlast, Option.or_none]
  cases hf : items.find? fun j => decide (j.path = path ∧ j.content.isSome) with
  | some j =>
    obtain ⟨-, hsome⟩ : j.path = path ∧ j.content.isSome := by
      simpa using List.find?_some hf
    obtain ⟨c, hc⟩ := Option.isSome_iff_exists.1 hsome
    simp [hc]
  | none =>
    have hmem : (∃ j ∈ items ++ [i], path <+: j.path) ↔
        (∃ j ∈ items, path <+: j.path) ∨ path <+: i.path := by
      simp [or_and_right, exists_or]
    simp only [hmem]
    by_cases hpath : path = [] ∨ ∃ j ∈ items, path <+: j.path
    · rw [if_pos hpath, if_pos (hpath.imp_right Or.inl)]
      simp
    · rw [if_neg hpath]
      simp only [← or_assoc, hpath, false_or, true_and]

/-- **One more directory.** -/
theorem listed_snoc_dir (hdir : i.content = none) :
    listed (items ++ [i]) = mkdirs (listed items) i.path := by
  funext path
  exact listed_snoc_of_ne (Or.inr hdir)

/-- **One more file**, and the directories above it. -/
theorem listed_snoc_file (h : Compatible (items ++ [i])) {parent : List α} {name : α} {content : β}
    (hpath : i.path = parent ++ [name]) (hfile : i.content = some content) :
    listed (items ++ [i]) = putFile (mkdirs (listed items) parent) i.path content := by
  funext path
  rw [putFile, Function.update_apply]
  split_ifs with heq
  · exact (listed_eq_file h _ _).2 ⟨i, by simp, heq.symm, hfile⟩
  · rw [listed_snoc_of_ne (Or.inl heq), mkdirs]
    have hpre : path <+: i.path ↔ path <+: parent := by
      rw [hpath, List.prefix_concat_iff]
      rw [hpath] at heq
      simp [heq]
    simp only [hpre]

end PathTree
