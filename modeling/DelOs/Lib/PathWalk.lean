import DelOs.Lib.PathTree

/-!
# Walks over directory trees

How a list of names leads from one directory to another, when one name stands for the directory
itself and one for the directory above it.

* `PathTree.enter`, `PathTree.walk` — one name, and a list of them.
* `PathTree.Childless`, `PathTree.erase` — nothing below a path; what lies at it taken away.
* `PathTree.walk_snoc` — a walk is a walk of all names but the last, and one step.
* `PathTree.Closed.walk_path` — **plain names lead where they say**.
-/

universe u v

variable {α : Type u} {β : Type v}

namespace PathTree

/-- Nothing lies below the path. -/
def Childless (F : PathTree α β) (path : List α) : Prop := ∀ name, F (path ++ [name]) = none

variable [DecidableEq α]

/-- Take away what lies at the path. -/
def erase (F : PathTree α β) (path : List α) : PathTree α β := Function.update F path none

variable (dot dotDot : α) {F : PathTree α β} {here p : List α} {name : α} {names : List α}

/-- One name, from the place `here`: only a directory can be left, for itself, for the directory
above it (the root is above itself), or for what it has under the name. -/
def enter (F : PathTree α β) (here : List α) (name : α) : Option (List α) :=
  match F here with
  | some .dir =>
    if name = dot then some here
    else if name = dotDot then some here.dropLast
    else if (F (here ++ [name])).isSome then some (here ++ [name]) else none
  | _ => none

/-- A list of names, one after the other. -/
def walk (F : PathTree α β) : List α → List α → Option (List α)
  | here, [] => some here
  | here, name :: names => (F.enter dot dotDot here name).bind fun p => walk F p names

@[simp] theorem walk_nil (F : PathTree α β) (here : List α) :
    F.walk dot dotDot here [] = some here := rfl

theorem walk_append (names' : List α) : F.walk dot dotDot here (names ++ names') =
    (F.walk dot dotDot here names).bind fun p => F.walk dot dotDot p names' := by
  induction names generalizing here with
  | nil => rfl
  | cons name names ih =>
    rw [List.cons_append, walk, walk, Option.bind_assoc]
    exact congrArg _ (funext fun p => ih)

/-- The last name of a walk. -/
theorem walk_snoc : F.walk dot dotDot here (names ++ [name]) =
    (F.walk dot dotDot here names).bind fun p => F.enter dot dotDot p name := by
  rw [walk_append]
  congr 1
  funext p
  simp [walk]

variable {dot dotDot}

/-- What is entered is there. -/
theorem Closed.enter_ne_none (h : F.Closed) (hp : F.enter dot dotDot here name = some p) :
    F p ≠ none := by
  unfold enter at hp
  split at hp
  · rename_i hdir
    split_ifs at hp with h1 h2 h3
    · obtain rfl := Option.some.inj hp
      simp [hdir]
    · obtain rfl := Option.some.inj hp
      rcases here.eq_nil_or_concat with rfl | ⟨l, b, rfl⟩
      · simp [hdir]
      · rw [List.concat_eq_append] at hdir ⊢
        rw [List.dropLast_concat, h.above l b (by simp [hdir])]
        simp
    · obtain rfl := Option.some.inj hp
      exact Option.isSome_iff_ne_none.1 h3
  · cases hp

/-- Where a walk arrives, there is something. -/
theorem Closed.walk_ne_none (h : F.Closed) (hhere : F here ≠ none)
    (hp : F.walk dot dotDot here names = some p) : F p ≠ none := by
  induction names generalizing here with
  | nil =>
    obtain rfl : here = p := by simpa using hp
    exact hhere
  | cons name names ih =>
    obtain ⟨q, hq, hrest⟩ := Option.bind_eq_some_iff.1 hp
    exact ih (h.enter_ne_none hq) hrest

/-- **Plain names lead where they say**: the names of a path that there is, from the root. -/
theorem Closed.walk_path (h : F.Closed) {path : List α} (hpath : F path ≠ none)
    (hplain : ∀ name ∈ path, name ≠ dot ∧ name ≠ dotDot) :
    F.walk dot dotDot [] path = some path := by
  induction path using List.reverseRecOn with
  | nil => rfl
  | append_singleton path name ih =>
    have hdir := h.above path name hpath
    obtain ⟨hdot, hdots⟩ := hplain name (by simp)
    rw [walk_snoc, ih (by simp [hdir]) fun n hn => hplain n (List.mem_append_left _ hn)]
    simp [enter, hdir, hdot, hdots, Option.isSome_iff_ne_none.2 hpath]

end PathTree
