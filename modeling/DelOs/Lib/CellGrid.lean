import Mathlib.Data.List.Flatten
import Mathlib.Data.List.Basic

/-!
# Rows of cells in one list

Rows of different lengths in a grid of a fixed width and height: every row is filled up with blanks,
and there are blank rows below the last one.

* `interleave` — pairs, component by component.
* `filledUp`, `grid` — a row that is filled up, and the cells of some rows.
* `grid_put`, `grid_unput` — **a cell behind the last row, stored and blanked**.
* `grid_newRow`, `grid_scroll` — **an empty row below the others**, on a grid with room and on a
  full one.
* `grid_filledUp` — filling up the last row changes nothing.
-/

namespace DelOs.CellGrid

variable {α : Type}

/-! ## Pairs -/

/-- The components of some pairs, one behind the other. -/
def interleave (cells : List (α × α)) : List α := cells.flatMap fun cell => [cell.1, cell.2]

@[simp] theorem interleave_nil : interleave ([] : List (α × α)) = [] := rfl

@[simp] theorem interleave_cons (cell : α × α) (cells : List (α × α)) :
    interleave (cell :: cells) = cell.1 :: cell.2 :: interleave cells := rfl

theorem interleave_append (cells cells' : List (α × α)) :
    interleave (cells ++ cells') = interleave cells ++ interleave cells' :=
  List.flatMap_append

@[simp] theorem length_interleave (cells : List (α × α)) :
    (interleave cells).length = cells.length * 2 := by
  induction cells with
  | nil => rfl
  | cons cell cells ih => simp only [interleave_cons, List.length_cons, ih]; omega

/-- A pair is stored component by component. -/
theorem interleave_set (cells : List (α × α)) (i : Nat) (cell : α × α) :
    ((interleave cells).set (i * 2) cell.1).set (i * 2 + 1) cell.2 =
      interleave (cells.set i cell) := by
  induction cells generalizing i with
  | nil => rfl
  | cons c cells ih =>
    cases i with
    | zero => rfl
    | succ i =>
      rw [show (i + 1) * 2 = i * 2 + 1 + 1 by omega, interleave_cons, List.set_cons_succ,
        List.set_cons_succ, List.set_cons_succ, List.set_cons_succ, ih, List.set_cons_succ,
        interleave_cons]

theorem interleave_take (cells : List (α × α)) (n : Nat) :
    (interleave cells).take (n * 2) = interleave (cells.take n) := by
  induction cells generalizing n with
  | nil => simp
  | cons c cells ih =>
    cases n with
    | zero => rfl
    | succ n =>
      rw [show (n + 1) * 2 = n * 2 + 1 + 1 by omega, interleave_cons, List.take_succ_cons,
        List.take_succ_cons, ih, List.take_succ_cons, interleave_cons]

theorem interleave_drop (cells : List (α × α)) (n : Nat) :
    (interleave cells).drop (n * 2) = interleave (cells.drop n) := by
  induction cells generalizing n with
  | nil => simp
  | cons c cells ih =>
    cases n with
    | zero => rfl
    | succ n =>
      rw [show (n + 1) * 2 = n * 2 + 1 + 1 by omega, interleave_cons, List.drop_succ_cons,
        List.drop_succ_cons, ih, List.drop_succ_cons]

/-- Every list of an even length is made of pairs. -/
theorem exists_interleave (n : Nat) (bytes : List α) (h : bytes.length = n * 2) :
    ∃ cells : List (α × α), cells.length = n ∧ interleave cells = bytes := by
  induction n generalizing bytes with
  | zero => exact ⟨[], rfl, (List.length_eq_zero_iff.1 (h.trans (Nat.zero_mul 2))).symm⟩
  | succ n ih =>
    match bytes, h with
    | [], h => rw [List.length_nil] at h; omega
    | [_], h => rw [List.length_singleton] at h; omega
    | a :: b :: rest, h =>
      obtain ⟨cells, hlength, hcells⟩ := ih rest (by simp only [List.length_cons] at h; omega)
      exact ⟨(a, b) :: cells, by rw [List.length_cons, hlength], by rw [interleave_cons, hcells]⟩

/-! ## Rows -/

/-- A row, filled up. -/
def filledUp (width : Nat) (blank : α) (row : List α) : List α :=
  row ++ List.replicate (width - row.length) blank

/-- The cells of some rows and of the blank ones below. -/
def grid (width height : Nat) (blank : α) (rows : List (List α)) : List α :=
  rows.flatMap (filledUp width blank) ++ List.replicate ((height - rows.length) * width) blank

variable {width height : Nat} {blank : α} {row : List α} {rows above : List (List α)}

theorem length_filledUp (h : row.length ≤ width) : (filledUp width blank row).length = width := by
  rw [filledUp, List.length_append, List.length_replicate]
  omega

theorem filledUp_filledUp (h : row.length ≤ width) :
    filledUp width blank (filledUp width blank row) = filledUp width blank row := by
  rw [filledUp, length_filledUp h, Nat.sub_self, List.replicate_zero, List.append_nil]

theorem filledUp_put (h : row.length < width) (x : α) :
    (filledUp width blank row).set row.length x = filledUp width blank (row ++ [x]) := by
  obtain ⟨n, hn⟩ := Nat.exists_eq_add_of_lt h
  have hroom : width - row.length = n + 1 := by omega
  have hrest : width - (row ++ [x]).length = n := by
    rw [List.length_append, List.length_singleton]
    omega
  rw [filledUp, filledUp, hroom, hrest, List.set_append_right _ _ (Nat.le_refl _), Nat.sub_self,
    List.replicate_succ, List.set_cons_zero, List.append_assoc, List.singleton_append]

theorem filledUp_unput (h : row.length < width) (x : α) :
    (filledUp width blank (row ++ [x])).set row.length blank = filledUp width blank row := by
  obtain ⟨n, hn⟩ := Nat.exists_eq_add_of_lt h
  have hroom : width - row.length = n + 1 := by omega
  have hrest : width - (row ++ [x]).length = n := by
    rw [List.length_append, List.length_singleton]
    omega
  rw [filledUp, filledUp, hroom, hrest, List.append_assoc,
    List.set_append_right _ _ (Nat.le_refl _), Nat.sub_self, List.singleton_append,
    List.set_cons_zero, List.replicate_succ]

theorem length_flatMap_filledUp (h : ∀ row ∈ rows, row.length ≤ width) :
    (rows.flatMap (filledUp width blank)).length = rows.length * width := by
  induction rows with
  | nil => simp
  | cons row rows ih =>
    rw [List.flatMap_cons, List.length_append, length_filledUp (h row List.mem_cons_self),
      ih fun r hr => h r (List.mem_cons_of_mem row hr), List.length_cons, Nat.succ_mul,
      Nat.add_comm]

theorem length_grid (h : ∀ row ∈ rows, row.length ≤ width) (hrows : rows.length ≤ height) :
    (grid width height blank rows).length = height * width := by
  rw [grid, List.length_append, length_flatMap_filledUp h, List.length_replicate, ← Nat.add_mul,
    Nat.add_sub_cancel' hrows]

/-- The last row, between the others and what is blank. -/
theorem grid_snoc (above : List (List α)) (row : List α) :
    grid width height blank (above ++ [row]) =
      above.flatMap (filledUp width blank) ++ (filledUp width blank row ++
        List.replicate ((height - (above.length + 1)) * width) blank) := by
  rw [grid, List.flatMap_append, List.flatMap_singleton, List.length_append, List.length_singleton,
    List.append_assoc]

/-- A store in the last row. -/
theorem grid_set_last (habove : ∀ row ∈ above, row.length ≤ width) (hrow : row.length ≤ width)
    {i : Nat} (hi : i < width) (x : α) :
    (grid width height blank (above ++ [row])).set (above.length * width + i) x =
      above.flatMap (filledUp width blank) ++ ((filledUp width blank row).set i x ++
        List.replicate ((height - (above.length + 1)) * width) blank) := by
  have hlength := @length_flatMap_filledUp α width blank above habove
  rw [grid_snoc, List.set_append_right _ _ (by omega), hlength, Nat.add_sub_cancel_left,
    List.set_append_left _ _ (by rwa [length_filledUp hrow])]

/-- **A cell is stored behind the last row.** -/
theorem grid_put (habove : ∀ row ∈ above, row.length ≤ width) (hrow : row.length < width) (x : α) :
    (grid width height blank (above ++ [row])).set (above.length * width + row.length) x =
      grid width height blank (above ++ [row ++ [x]]) := by
  rw [grid_set_last habove (Nat.le_of_lt hrow) hrow, filledUp_put hrow, grid_snoc]

/-- **The last cell of the last row is blanked.** -/
theorem grid_unput (habove : ∀ row ∈ above, row.length ≤ width) (hrow : row.length < width)
    (x : α) :
    (grid width height blank (above ++ [row ++ [x]])).set (above.length * width + row.length)
      blank = grid width height blank (above ++ [row]) := by
  have hfits : (row ++ [x]).length ≤ width := by
    rwa [List.length_append, List.length_singleton]
  rw [grid_set_last habove hfits hrow, filledUp_unput hrow, grid_snoc]

/-- **An empty row below the others** looks like no row, if there is room. -/
theorem grid_newRow (h : rows.length < height) :
    grid width height blank (rows ++ [[]]) = grid width height blank rows := by
  obtain ⟨n, hn⟩ := Nat.exists_eq_add_of_lt h
  have hroom : height - rows.length = n + 1 := by omega
  have hrest : height - (rows.length + 1) = n := by omega
  rw [grid_snoc, grid, hroom, hrest, filledUp, List.nil_append, List.length_nil, Nat.sub_zero,
    ← List.replicate_add, Nat.succ_mul, Nat.add_comm]

/-- **A full grid is moved up by a row**, with an empty one below. -/
theorem grid_scroll (hrow : row.length ≤ width) (hrows : rows.length + 1 = height) :
    (grid width height blank (row :: rows)).drop width ++ List.replicate width blank =
      grid width height blank (rows ++ [[]]) := by
  have hfull : height - (row :: rows).length = 0 := by
    rw [List.length_cons]
    omega
  have hbelow : height - (rows.length + 1) = 0 := by omega
  have hlength : (filledUp width blank row).length = width := length_filledUp hrow
  rw [grid, hfull, Nat.zero_mul, List.replicate_zero, List.append_nil, List.flatMap_cons,
    List.drop_append_of_le_length (Nat.le_of_eq hlength.symm),
    List.drop_of_length_le (Nat.le_of_eq hlength), List.nil_append, grid_snoc, hbelow,
    Nat.zero_mul, List.replicate_zero, List.append_nil, filledUp, List.nil_append, List.length_nil,
    Nat.sub_zero]

/-- Filling up the last row changes nothing. -/
theorem grid_filledUp (h : row.length ≤ width) :
    grid width height blank (above ++ [filledUp width blank row]) =
      grid width height blank (above ++ [row]) := by
  rw [grid_snoc, grid_snoc, filledUp_filledUp h]

/-- A grid without a character. -/
theorem grid_empty (h : 0 < height) :
    grid width height blank [[]] = List.replicate (height * width) blank := by
  rw [← List.nil_append [[]], grid_newRow h]
  rfl

end DelOs.CellGrid
