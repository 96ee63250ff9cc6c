import DelOs.Lib.CellGrid
import DelOs.Tty.Console

/-!
# The screen, cell by cell

`ktty_putc` and the `clear` of the shell, with the whole text buffer.

* `kvgaFill`, `kshellClear` — the functions of those names.
* `Sheet` — the rows on the screen: those above the cursor, and the one up to it.
* `Sheet.putc` — a character, a newline or a backspace on the sheet.
* `Renders` — the buffer holds the cells of the sheet, and the cursor stands behind them.
* `Renders.putc` — **every character does to the buffer what it does to the sheet**.
* `console_renders` — **after a `clear`, whatever is printed and erased and whenever the screen is
  cleared, every byte of the buffer is the one of the sheet**.
-/

namespace DelOs.Tty

open CellGrid Transition

/-- A character and its colour. -/
abbrev Cell : Type := UInt8 × UInt8

/-- What stands where nothing is printed. -/
def blank : Cell := (0x20, VGA_TEXT_DEFAULT_COLOR)

/-! ## Filling the screen -/

/-- `kvga_fill`: the sign of the character reaches the colour. -/
def kvgaFill (screen : List UInt8) (c color : UInt8) : Option (List UInt8) :=
  kwmemset screen 0 (color.toNat <<< 8 ||| (c.toInt8.toInt % 2 ^ 16).toNat)
    (VGA_COLUMNS_MAX * VGA_LINES_MAX)

/-- `kshell_clear`. -/
def kshellClear (t : Terminal) : Option Terminal := do
  let screen ← kvgaFill t.screen 0x20 VGA_TEXT_DEFAULT_COLOR
  return kttyCursorSet { t with screen := screen } 0 0

/-- What happens to the screen. -/
inductive ScreenEvent
  | putc (cell : Cell)
  | clear
  deriving DecidableEq, Repr

def Terminal.step (t : Terminal) : ScreenEvent → Option Terminal
  | .putc cell => kttyPutc t cell
  | .clear => kshellClear t

/-! ## The rows on the screen -/

/-- The rows above the one of the cursor, and that one up to the cursor. -/
structure Sheet where
  above : List (List Cell)
  current : List Cell
  above_lt : above.length < VGA_LINES_MAX
  current_lt : current.length < VGA_COLUMNS_MAX
  fits : ∀ row ∈ above, row.length ≤ VGA_COLUMNS_MAX

namespace Sheet

/-- The cells of the screen. -/
def cells (s : Sheet) : List Cell :=
  grid VGA_COLUMNS_MAX VGA_LINES_MAX blank (s.above ++ [s.current])

theorem length_lastRows {rows : List (List Cell)} (row : List Cell)
    (h : rows.length < VGA_LINES_MAX) :
    ((rows ++ [row]).drop (rows.length + 2 - VGA_LINES_MAX)).length < VGA_LINES_MAX := by
  rw [List.length_drop, List.length_append, List.length_singleton]
  rw [VGA_LINES_MAX] at h ⊢
  omega

theorem lastRows_fit {rows : List (List Cell)} {row : List Cell} {n : Nat}
    (hrows : ∀ r ∈ rows, r.length ≤ VGA_COLUMNS_MAX) (hrow : row.length ≤ VGA_COLUMNS_MAX) :
    ∀ r ∈ (rows ++ [row]).drop n, r.length ≤ VGA_COLUMNS_MAX := by
  intro r hr
  rcases List.mem_append.1 (List.mem_of_mem_drop hr) with hmem | hmem
  · exact hrows r hmem
  · exact (List.mem_singleton.1 hmem) ▸ hrow

/-- The row of the cursor is `row`, and a new one starts; the last 24 rows stay above it. -/
def newRow (s : Sheet) (row : List Cell) (hrow : row.length ≤ VGA_COLUMNS_MAX) : Sheet where
  above := (s.above ++ [row]).drop (s.above.length + 2 - VGA_LINES_MAX)
  current := []
  above_lt := length_lastRows row s.above_lt
  current_lt := Nat.succ_pos 79
  fits := lastRows_fit s.fits hrow

/-- A character that is shown: a row ends after 80 of them. -/
def put (s : Sheet) (cell : Cell) : Sheet :=
  if h : s.current.length + 1 < VGA_COLUMNS_MAX then
    { s with
      current := s.current ++ [cell]
      current_lt := by rwa [List.length_append, List.length_singleton] }
  else
    s.newRow (s.current ++ [cell]) (by
      rw [List.length_append, List.length_singleton]
      exact s.current_lt)

/-- The cell before the cursor goes; at the start of a row the cursor goes to the end of the row
above, which is filled up with blanks, and at the top of the screen nothing happens. -/
def erase (s : Sheet) : Sheet where
  above := if s.current = [] then s.above.dropLast else s.above
  current :=
    if s.current = [] then
      (s.above.getLast?.map fun row => (filledUp VGA_COLUMNS_MAX blank row).dropLast).getD []
    else s.current.dropLast
  above_lt := by
    have h := s.above_lt
    split_ifs
    · rw [List.length_dropLast]
      omega
    · exact h
  current_lt := by
    have hwidth : 0 < VGA_COLUMNS_MAX := Nat.succ_pos _
    split_ifs with hnil
    · cases hlast : s.above.getLast? with
      | none => exact hwidth
      | some row =>
        have hrow : (filledUp VGA_COLUMNS_MAX blank row).length = VGA_COLUMNS_MAX :=
          length_filledUp (s.fits row (List.mem_of_mem_getLast? (Option.mem_def.2 hlast)))
        rw [Option.map_some, Option.getD_some, List.length_dropLast, hrow]
        exact Nat.sub_lt hwidth Nat.one_pos
    · have h := s.current_lt
      rw [List.length_dropLast]
      omega
  fits := by
    intro row hrow
    split_ifs at hrow
    · exact s.fits row (List.mem_of_mem_dropLast hrow)
    · exact s.fits row hrow

/-- `ktty_putc` on the sheet. -/
def putc (s : Sheet) (cell : Cell) : Sheet :=
  if cell.1 = 0x08 then s.erase
  else if cell.1 = 0x0a then s.newRow s.current s.current_lt.le
  else s.put cell

/-- Nothing is on the screen. -/
def empty : Sheet where
  above := []
  current := []
  above_lt := Nat.succ_pos _
  current_lt := Nat.succ_pos _
  fits := fun _ h => absurd h List.not_mem_nil

def step (s : Sheet) : ScreenEvent → Sheet
  | .putc cell => s.putc cell
  | .clear => empty

end Sheet

/-! ## The buffer -/

/-- A fill of words is a fill of cells. -/
theorem kwmemset_interleave (word : Nat) (front rest : List Cell) :
    kwmemset (interleave (front ++ rest)) (front.length * 2) word rest.length =
      some (interleave (front ++
        List.replicate rest.length (UInt8.ofNat word, UInt8.ofNat (word / 2 ^ 8)))) := by
  induction rest generalizing front with
  | nil => rfl
  | cons cell rest ih =>
    have hlength : (interleave (front ++ cell :: rest)).length =
        (front.length + (rest.length + 1)) * 2 := by
      rw [length_interleave, List.length_append, List.length_cons]
    have hset : ((interleave (front ++ cell :: rest)).set (front.length * 2)
        (UInt8.ofNat word)).set (front.length * 2 + 1) (UInt8.ofNat (word / 2 ^ 8)) =
        interleave ((front ++ [(UInt8.ofNat word, UInt8.ofNat (word / 2 ^ 8))]) ++ rest) := by
      rw [interleave_set _ _ (UInt8.ofNat word, UInt8.ofNat (word / 2 ^ 8)),
        List.set_append_right _ _ (Nat.le_refl _), Nat.sub_self, List.set_cons_zero,
        List.append_assoc, List.singleton_append]
    have hnext : front.length * 2 + 2 =
        (front ++ [(UInt8.ofNat word, UInt8.ofNat (word / 2 ^ 8))]).length * 2 := by
      rw [List.length_append, List.length_singleton, Nat.add_mul]
    rw [List.length_cons, kwmemset, vgaStore_eq (by omega), Option.bind_eq_bind, Option.bind_some,
      vgaStore_eq (by rw [List.length_set]; omega), Option.bind_some, hset, hnext, ih,
      List.append_assoc, List.singleton_append, List.replicate_succ]

theorem kvgaPutcAt_interleave {cells : List Cell}
    (hsize : cells.length = VGA_LINES_MAX * VGA_COLUMNS_MAX) {x y : Nat} (hx : x < VGA_COLUMNS_MAX)
    (hy : y < VGA_LINES_MAX) (cell : Cell) :
    kvgaPutcAt (interleave cells) x y cell.1 cell.2 =
      some (interleave (cells.set (y * VGA_COLUMNS_MAX + x) cell)) := by
  have hplace : y * VGA_COLUMNS_MAX * 2 + x * 2 = (y * VGA_COLUMNS_MAX + x) * 2 := by omega
  have hlength := length_interleave cells
  have hcell : (y * VGA_COLUMNS_MAX + x) * 2 + 1 < (interleave cells).length := by
    simp only [VGA_COLUMNS_MAX, VGA_LINES_MAX] at *
    omega
  rw [kvgaPutcAt, if_neg (by omega), hplace, vgaStore_eq (by omega), Option.bind_eq_bind,
    Option.bind_some, vgaStore_eq (by rwa [List.length_set]), interleave_set]

/-- **Scrolling drops the first row** and appends blanks. -/
theorem kvgaScrollLine_interleave {cells : List Cell}
    (hsize : cells.length = VGA_LINES_MAX * VGA_COLUMNS_MAX) :
    kvgaScrollLine (interleave cells) = some (interleave
      (cells.drop VGA_COLUMNS_MAX ++ List.replicate VGA_COLUMNS_MAX blank)) := by
  have hmoved : VGA_COLUMNS_MAX * VGA_LINES_MAX * 2 - VGA_COLUMNS_MAX * 2 =
      (VGA_LINES_MAX - 1) * VGA_COLUMNS_MAX * 2 := rfl
  have hvm : VGA_LINES_MAX * VGA_COLUMNS_MAX * 2 - VGA_COLUMNS_MAX * 2 =
      (VGA_LINES_MAX - 1) * VGA_COLUMNS_MAX * 2 := rfl
  have htotal : VGA_LINES_MAX * VGA_COLUMNS_MAX =
      VGA_COLUMNS_MAX + (VGA_LINES_MAX - 1) * VGA_COLUMNS_MAX := rfl
  have hword : (UInt8.ofNat (VGA_TEXT_DEFAULT_COLOR.toNat <<< 8 ||| 0x20),
      UInt8.ofNat ((VGA_TEXT_DEFAULT_COLOR.toNat <<< 8 ||| 0x20) / 2 ^ 8)) = blank := by decide
  have hcopy := @Shell.kmemmove_eq [] (interleave cells) _ (VGA_COLUMNS_MAX * 2)
    ((VGA_LINES_MAX - 1) * VGA_COLUMNS_MAX * 2) (interleave_drop cells VGA_COLUMNS_MAX)
    (by rw [length_interleave, List.length_drop, hsize, htotal, Nat.add_sub_cancel_left])
  have hlength : (cells.drop VGA_COLUMNS_MAX).length = (VGA_LINES_MAX - 1) * VGA_COLUMNS_MAX := by
    rw [List.length_drop, hsize, htotal, Nat.add_sub_cancel_left]
  have hrest : (cells.drop ((VGA_LINES_MAX - 1) * VGA_COLUMNS_MAX)).length = VGA_COLUMNS_MAX := by
    rw [List.length_drop, hsize]
    rfl
  have hmoved' : Shell.kmemmove (interleave cells) 0 (VGA_COLUMNS_MAX * 2)
      ((VGA_LINES_MAX - 1) * VGA_COLUMNS_MAX * 2) = some (interleave (cells.drop VGA_COLUMNS_MAX ++
        cells.drop ((VGA_LINES_MAX - 1) * VGA_COLUMNS_MAX))) := by
    rw [interleave_take, interleave_drop, ← hlength, List.take_length, ← interleave_append] at hcopy
    rw [List.nil_append, List.nil_append, List.length_nil, Nat.zero_add] at hcopy
    rw [← hlength]
    exact hcopy
  have hfill := kwmemset_interleave (VGA_TEXT_DEFAULT_COLOR.toNat <<< 8 ||| 0x20)
    (cells.drop VGA_COLUMNS_MAX) (cells.drop ((VGA_LINES_MAX - 1) * VGA_COLUMNS_MAX))
  rw [hword, hlength, hrest] at hfill
  unfold kvgaScrollLine
  rw [hmoved, hmoved', hvm, Option.bind_eq_bind, Option.bind_some, hfill]

/-! ## The buffer and the sheet -/

theorem Sheet.empty_cells :
    Sheet.empty.cells = List.replicate (VGA_LINES_MAX * VGA_COLUMNS_MAX) blank :=
  grid_empty (show 0 < VGA_LINES_MAX from Nat.succ_pos _)

/-- **The buffer holds the sheet**, and the cursor stands behind its last character. -/
structure Renders (t : Terminal) (s : Sheet) : Prop where
  screen : t.screen = interleave s.cells
  x : t.x = s.current.length
  y : t.y = s.above.length

variable {t : Terminal} {s : Sheet}

theorem Sheet.length_cells (s : Sheet) : s.cells.length = VGA_LINES_MAX * VGA_COLUMNS_MAX := by
  refine length_grid (fun row hrow => ?_) ?_
  · rcases List.mem_append.1 hrow with hmem | hmem
    · exact s.fits row hmem
    · exact (List.mem_singleton.1 hmem) ▸ s.current_lt.le
  · rw [List.length_append, List.length_singleton]
    exact s.above_lt

theorem Renders.onScreen (h : Renders t s) : OnScreen t := by
  have hx := s.current_lt
  have hy := s.above_lt
  refine ⟨?_, ?_, ?_⟩
  · rw [h.screen, length_interleave, s.length_cells]
  · rw [h.x]
    omega
  · rw [h.y]
    omega

/-- A character at a cell of the screen that is not the cursor's, or that is. -/
theorem kttyPutcAt_interleave {cells : List Cell}
    (hsize : cells.length = VGA_LINES_MAX * VGA_COLUMNS_MAX) (hscreen : t.screen = interleave cells)
    {x y : Nat} (hx : x < VGA_COLUMNS_MAX) (hy : y < VGA_LINES_MAX) (htx : t.x = x) (hty : t.y = y)
    (cell : Cell) :
    kttyPutcAt t cell.1 cell.2 =
      some { t with screen := interleave (cells.set (y * VGA_COLUMNS_MAX + x) cell) } := by
  have hx' : uint8 t.x = x := by
    unfold uint8
    simp only [VGA_COLUMNS_MAX] at hx
    omega
  have hy' : uint8 t.y = y := by
    unfold uint8
    simp only [VGA_LINES_MAX] at hy
    omega
  rw [kttyPutcAt, hx', hy', hscreen, kvgaPutcAt_interleave hsize hx hy]
  rfl

/-- The row that a newline ends, up to 80 characters of it. -/
theorem newline_renders {row : List Cell} (hrow : row.length ≤ VGA_COLUMNS_MAX)
    (hscreen : t.screen =
      interleave (grid VGA_COLUMNS_MAX VGA_LINES_MAX blank (s.above ++ [row])))
    (hy : t.y = s.above.length) (color : UInt8) :
    ∃ t', kttyPutc t (0x0a, color) = some t' ∧ Renders t' (s.newRow row hrow) := by
  have habove := s.above_lt
  have hlines : VGA_LINES_MAX = 25 := rfl
  have hlength : (s.above ++ [row]).length = s.above.length + 1 := by
    rw [List.length_append, List.length_singleton]
  have hfits : ∀ r ∈ s.above ++ [row], r.length ≤ VGA_COLUMNS_MAX := fun r hr => by
    rcases List.mem_append.1 hr with hmem | hmem
    · exact s.fits r hmem
    · exact (List.mem_singleton.1 hmem) ▸ hrow
  rw [kttyPutc, if_neg (show ¬ (0x0a : UInt8) = 0x08 by decide), if_pos rfl]
  by_cases hbottom : t.y ≥ VGA_LINES_MAX - 1
  · -- the first row leaves the screen
    have hfull : s.above.length = 24 := by omega
    obtain ⟨first, rest, hrows⟩ : ∃ first rest, s.above ++ [row] = first :: rest :=
      List.exists_cons_of_ne_nil (List.concat_ne_nil row s.above)
    have hrest : rest.length + 1 = VGA_LINES_MAX := by
      rw [← List.length_cons (a := first), ← hrows, hlength, hfull]
      rfl
    have hdropped : (s.newRow row hrow).above = rest := by
      show (s.above ++ [row]).drop (s.above.length + 2 - VGA_LINES_MAX) = rest
      rw [hrows, hfull]
      rfl
    have hcells : (grid VGA_COLUMNS_MAX VGA_LINES_MAX blank (s.above ++ [row])).length =
        VGA_LINES_MAX * VGA_COLUMNS_MAX := length_grid hfits (by omega)
    have hscroll := kvgaScrollLine_interleave hcells
    rw [hrows, grid_scroll (hfits first (hrows ▸ List.mem_cons_self)) hrest] at hscroll
    have hcursor := fun screen : List UInt8 =>
      kttyCursorSet_eq ⟨screen, t.x, t.y⟩ (x := 0) (y := VGA_LINES_MAX - 1) (by decide) (by decide)
    rw [if_pos hbottom, scroll, hscreen, hrows, hscroll]
    refine ⟨_, congrArg some (hcursor _), ?_, rfl, ?_⟩
    · rw [Sheet.cells, hdropped]
      rfl
    · rw [hdropped]
      show ((VGA_LINES_MAX - 1 : Nat) : Int) = _
      omega
  · have hkept : (s.newRow row hrow).above = s.above ++ [row] := by
      show (s.above ++ [row]).drop (s.above.length + 2 - VGA_LINES_MAX) = _
      rw [show s.above.length + 2 - VGA_LINES_MAX = 0 by omega, List.drop_zero]
    have hcursor := kttyCursorSet_eq t (x := 0) (y := s.above.length + 1) (by decide) (by omega)
    have hnext : t.y + 1 = ((s.above.length + 1 : Nat) : Int) := by omega
    rw [if_neg hbottom, hnext]
    refine ⟨_, congrArg some hcursor, ?_, rfl, ?_⟩
    · rw [Sheet.cells, hkept]
      show t.screen = interleave (grid _ _ _ (s.above ++ [row] ++ [[]]))
      rw [hscreen, grid_newRow (by omega)]
    · rw [hkept, hlength]

theorem Renders.newline (h : Renders t s) (color : UInt8) :
    ∃ t', kttyPutc t (0x0a, color) = some t' ∧
      Renders t' (s.newRow s.current s.current_lt.le) :=
  newline_renders s.current_lt.le h.screen h.y color

/-- A character that is shown goes to the cell of the cursor. -/
theorem Renders.put (h : Renders t s) {cell : Cell} (hback : cell.1 ≠ 0x08)
    (hline : cell.1 ≠ 0x0a) : ∃ t', kttyPutc t cell = some t' ∧ Renders t' (s.put cell) := by
  have hscreen := h.onScreen
  have hx := s.current_lt
  have hstored : t.screen = interleave s.cells := h.screen
  have hput := kttyPutcAt_interleave s.length_cells hstored s.current_lt s.above_lt h.x h.y cell
  rw [Sheet.cells, grid_put s.fits s.current_lt] at hput
  rw [Sheet.put]
  by_cases hroom : s.current.length + 1 < VGA_COLUMNS_MAX
  · have hlast : ¬ t.x = VGA_COLUMNS_MAX - 1 := by
      rw [h.x]
      omega
    have hnext : t.x + 1 = ((s.current.length + 1 : Nat) : Int) := by
      rw [h.x]
      rfl
    have hmove : ∀ screen : List UInt8, screen.length = t.screen.length →
        kttyCursorAdd ⟨screen, t.x, t.y⟩ 1 0 =
          ⟨screen, (s.current.length + 1 : Nat), s.above.length⟩ := fun screen hlength => by
      have hon : OnScreen ⟨screen, t.x, t.y⟩ :=
        ⟨hlength.trans hscreen.size, hscreen.x, hscreen.y⟩
      rw [kttyCursorAdd_one hon, if_neg hlast, hnext, h.y]
      exact kttyCursorSet_eq _ hroom s.above_lt
    rw [dif_pos hroom, kttyPutc, if_neg hback, if_neg hline, if_neg fun hc => hlast hc.2, hput]
    refine ⟨_, congrArg some (hmove _ ?_), rfl, ?_, rfl⟩
    · rw [hstored, Sheet.cells, length_interleave, length_interleave,
        ← grid_put s.fits s.current_lt, List.length_set]
    · rw [List.length_append, List.length_singleton]
  · have hlast : t.x = VGA_COLUMNS_MAX - 1 := by
      rw [h.x]
      omega
    rw [dif_neg hroom, kttyPutc_last hscreen hback hline hlast, hput, Option.bind_some]
    exact @newline_renders ⟨_, t.x, t.y⟩ s _ _ rfl h.y cell.2

/-- The cell before the cursor is blanked, wherever the cursor goes for it. -/
theorem backspace_renders (hsize : t.screen.length = VGA_LINES_MAX * VGA_COLUMNS_MAX * 2)
    {above : List (List Cell)} {current : List Cell} {last : Cell}
    (habove : above.length < VGA_LINES_MAX) (hcurrent : current.length < VGA_COLUMNS_MAX)
    (hfits : ∀ row ∈ above, row.length ≤ VGA_COLUMNS_MAX)
    (hscreen : t.screen =
      interleave (grid VGA_COLUMNS_MAX VGA_LINES_MAX blank (above ++ [current ++ [last]]))) :
    ∃ t', kttyPutcAt (kttyCursorSet t current.length above.length) 0x20 VGA_TEXT_DEFAULT_COLOR =
        some t' ∧ Renders t' ⟨above, current, habove, hcurrent, hfits⟩ := by
  have hlength : (grid VGA_COLUMNS_MAX VGA_LINES_MAX blank (above ++ [current ++ [last]])).length =
      VGA_LINES_MAX * VGA_COLUMNS_MAX := by
    rw [hscreen, length_interleave] at hsize
    exact Nat.eq_of_mul_eq_mul_right Nat.two_pos hsize
  rw [kttyCursorSet_eq t hcurrent habove]
  refine ⟨_, kttyPutcAt_interleave (t := ⟨t.screen, current.length, above.length⟩) hlength hscreen
    hcurrent habove rfl rfl blank, ?_, rfl, rfl⟩
  show interleave ((grid _ _ blank _).set _ blank) = _
  rw [grid_unput hfits hcurrent]
  rfl

/-- **A backspace takes the cell before the cursor.** -/
theorem Renders.erase (h : Renders t s) {cell : Cell} (hback : cell.1 = 0x08) :
    ∃ t', kttyPutc t cell = some t' ∧ Renders t' s.erase := by
  obtain ⟨above, current, habove, hcurrent, hfits⟩ := s
  have hx : t.x = current.length := h.x
  have hy : t.y = above.length := h.y
  have hscreen : t.screen =
    interleave (grid VGA_COLUMNS_MAX VGA_LINES_MAX blank (above ++ [current])) := h.screen
  have hsize := h.onScreen.size
  have hwidth : (VGA_COLUMNS_MAX : Int) = 80 := rfl
  rw [kttyPutc, if_pos hback]
  rcases List.eq_nil_or_concat' current with rfl | ⟨front, last, rfl⟩
  · rw [if_neg (by rw [hx]; decide)]
    rcases List.eq_nil_or_concat' above with rfl | ⟨rows, row, rfl⟩
    · -- at the top of the screen a blank cell is blanked
      have hput := kttyPutcAt_interleave (Sheet.length_cells ⟨[], [], habove, hcurrent, hfits⟩)
        hscreen hcurrent habove hx hy blank
      rw [if_neg (by rw [hy]; decide)]
      refine ⟨_, hput, ?_, hx, hy⟩
      show interleave (Sheet.empty.cells.set _ blank) = interleave Sheet.empty.cells
      rw [Sheet.empty_cells, List.set_replicate_self]
    · -- the row above is filled up, and loses its last cell
      have hrow : row.length ≤ VGA_COLUMNS_MAX := hfits row (by simp)
      have hfull : (filledUp VGA_COLUMNS_MAX blank row).length = VGA_COLUMNS_MAX :=
        length_filledUp hrow
      obtain ⟨front, last, hpadded⟩ : ∃ front last, filledUp VGA_COLUMNS_MAX blank row =
          front ++ [last] := by
        rcases List.eq_nil_or_concat' (filledUp VGA_COLUMNS_MAX blank row) with hnil | hcons
        · rw [hnil] at hfull
          cases hfull
        · exact hcons
      have hfront : front.length = VGA_COLUMNS_MAX - 1 := by
        rw [← hfull, hpadded, List.length_append, List.length_singleton, Nat.add_sub_cancel]
      have hlt : (rows ++ [row]).length = rows.length + 1 := by
        rw [List.length_append, List.length_singleton]
      have hcells : t.screen = interleave
          (grid VGA_COLUMNS_MAX VGA_LINES_MAX blank (rows ++ [front ++ [last]])) := by
        rw [hscreen, grid_newRow habove, ← hpadded, grid_filledUp hrow]
      obtain ⟨t', ht', hrenders⟩ := backspace_renders hsize (by omega)
        (hfront.trans_lt (by decide)) (fun r hr => hfits r (List.mem_append_left _ hr)) hcells
      refine ⟨t', ?_, ?_⟩
      · rw [if_pos (by rw [hy, hlt]; omega), hy, hlt, Nat.cast_succ, Int.add_sub_cancel]
        rw [hfront] at ht'
        exact ht'
      · convert hrenders using 1
        simp [Sheet.erase, hpadded]
  · have hlength : (front ++ [last]).length = front.length + 1 := by
      rw [List.length_append, List.length_singleton]
    have hmove : kttyCursorAdd t (-1) 0 = kttyCursorSet t front.length above.length := by
      rw [kttyCursorAdd, if_neg (by rw [hx]; omega), hx, hy, hlength, Int.add_zero, Nat.cast_succ,
        Int.add_neg_cancel_right]
    obtain ⟨t', ht', hrenders⟩ := backspace_renders hsize habove (by omega) hfits hscreen
    refine ⟨t', ?_, ?_⟩
    · rw [if_pos (by rw [hx, hlength]; omega), hmove, ht']
    · convert hrenders using 1
      simp [Sheet.erase]

/-- **Every character does to the buffer what it does to the sheet.** -/
theorem Renders.putc (h : Renders t s) (cell : Cell) :
    ∃ t', kttyPutc t cell = some t' ∧ Renders t' (s.putc cell) := by
  rw [Sheet.putc]
  split_ifs with hback hline
  · exact h.erase hback
  · obtain ⟨t', ht', hrenders⟩ := h.newline cell.2
    rw [← hline] at ht'
    exact ⟨t', ht', hrenders⟩
  · exact h.put hback hline

/-- A `clear` leaves nothing, whatever is on the screen and wherever the cursor is. -/
theorem kshellClear_renders (hsize : t.screen.length = VGA_LINES_MAX * VGA_COLUMNS_MAX * 2) :
    ∃ t', kshellClear t = some t' ∧ Renders t' Sheet.empty := by
  obtain ⟨cells, hlength, hcells⟩ := exists_interleave _ t.screen hsize
  have hword : (UInt8.ofNat (VGA_TEXT_DEFAULT_COLOR.toNat <<< 8 |||
        ((0x20 : UInt8).toInt8.toInt % 2 ^ 16).toNat),
      UInt8.ofNat ((VGA_TEXT_DEFAULT_COLOR.toNat <<< 8 |||
        ((0x20 : UInt8).toInt8.toInt % 2 ^ 16).toNat) / 2 ^ 8)) = blank := by decide
  have hfill := kwmemset_interleave (VGA_TEXT_DEFAULT_COLOR.toNat <<< 8 |||
    ((0x20 : UInt8).toInt8.toInt % 2 ^ 16).toNat) [] cells
  rw [List.nil_append, List.length_nil, Nat.zero_mul, hword, hlength, List.nil_append, hcells,
    Nat.mul_comm] at hfill
  have hcursor := fun screen : List UInt8 =>
    kttyCursorSet_eq ⟨screen, t.x, t.y⟩ (x := 0) (y := 0) (by decide) (by decide)
  refine ⟨⟨interleave (List.replicate (VGA_LINES_MAX * VGA_COLUMNS_MAX) blank), 0, 0⟩, ?_, ?_, rfl,
    rfl⟩
  · rw [kshellClear, kvgaFill, hfill]
    exact congrArg some (hcursor _)
  · rw [Sheet.empty_cells]

theorem Renders.step (h : Renders t s) (e : ScreenEvent) :
    ∃ t', t.step e = some t' ∧ Renders t' (s.step e) := by
  cases e with
  | putc cell => exact h.putc cell
  | clear => exact kshellClear_renders h.onScreen.size

/-- Some characters, one after the other. -/
theorem Renders.run_putc (h : Renders t s) (text : List Cell) :
    ∃ t', run kttyPutc t text = some t' ∧ Renders t' (text.foldl Sheet.putc s) := by
  induction text generalizing t s with
  | nil => exact ⟨t, rfl, h⟩
  | cons cell text ih =>
    obtain ⟨mid, hmid, hrenders⟩ := h.putc cell
    obtain ⟨t', ht', hdone⟩ := ih hrenders
    exact ⟨t', run_cons_some.2 ⟨mid, hmid, ht'⟩, hdone⟩

theorem Renders.run_step (h : Renders t s) (events : List ScreenEvent) :
    ∃ t', run Terminal.step t events = some t' ∧ Renders t' (events.foldl Sheet.step s) := by
  induction events generalizing t s with
  | nil => exact ⟨t, rfl, h⟩
  | cons e events ih =>
    obtain ⟨mid, hmid, hrenders⟩ := h.step e
    obtain ⟨t', ht', hdone⟩ := ih hrenders
    exact ⟨t', run_cons_some.2 ⟨mid, hmid, ht'⟩, hdone⟩

/-- **Every byte of the text buffer is the one of the sheet.**  Behind a `clear`, whatever stood on
the screen and wherever the cursor was, over all characters of all colours, all newlines,
backspaces and clears, no store leaves the buffer, and it holds the rows of the sheet, filled up
with blanks of the default colour, with the cursor behind the last character. -/
theorem console_renders {t : Terminal}
    (hsize : t.screen.length = VGA_LINES_MAX * VGA_COLUMNS_MAX * 2) (events : List ScreenEvent) :
    ∃ t', Transition.run Terminal.step t (.clear :: events) = some t' ∧
      Renders t' (events.foldl Sheet.step Sheet.empty) := by
  obtain ⟨mid, hmid, hempty⟩ := kshellClear_renders hsize
  obtain ⟨t', ht', hrenders⟩ := hempty.run_step events
  exact ⟨t', run_cons_some.2 ⟨mid, hmid, ht'⟩, hrenders⟩

/-- A screen full of zeros, with the cursor outside it. -/
def unclear : Terminal := ⟨List.replicate (VGA_LINES_MAX * VGA_COLUMNS_MAX * 2) 0, -1, 100⟩

/-- `"a\n\bb"`: the backspace goes to the end of the first row, where the `b` ends it. -/
theorem console_renders_unclear :
    ∃ t', Transition.run Terminal.step unclear (.clear ::
        [.putc (0x61, 0x0f), .putc (0x0a, 0x0f), .putc (0x08, 0x0f), .putc (0x62, 0x0c)]) =
          some t' ∧
      Renders t' ([.putc (0x61, 0x0f), .putc (0x0a, 0x0f), .putc (0x08, 0x0f),
        .putc (0x62, 0x0c)].foldl Sheet.step Sheet.empty) :=
  console_renders (List.length_replicate ..) _

end DelOs.Tty
