import DelOs.Lib.Transition
import DelOs.Shell.Format

/-!
# The console

`ktty_putc` of `src/kernel/tty` over the text buffer of `src/drivers/video/vga.c`: 25 rows of 80
cells, each a character and a colour.  A store outside the buffer gives `none`; the ports of the
hardware cursor are left out.

* `kvgaPutcAt`, `kwmemset`, `kvgaScrollLine`, `kttyCursorSet`, `kttyCursorAdd`, `kttyPutc` — the
  functions of those names.
* `Layout`, `feed` — a text laid out in rows that end at a newline or after 80 characters.
* `Shows` — the buffer holds the last 25 rows of a layout.
* `Displays.putc` — **every character keeps the buffer and the layout in step**.
* `console_shows` — the cursor and the stores stay inside for any characters, and **the buffer shows
  the end of any text without a backspace**.
-/

namespace DelOs.Tty

open Transition

/-! ## The text buffer -/

def VGA_COLUMNS_MAX : Nat := 80
def VGA_LINES_MAX : Nat := 25
def VGA_TEXT_DEFAULT_COLOR : UInt8 := 0x0f

/-- A store of one byte. -/
def vgaStore (screen : List UInt8) (i : Nat) (byte : UInt8) : Option (List UInt8) :=
  if i < screen.length then some (screen.set i byte) else none

/-- `kvga_putc_at`. -/
def kvgaPutcAt (screen : List UInt8) (x y : Nat) (c color : UInt8) : Option (List UInt8) :=
  if x ≥ VGA_COLUMNS_MAX ∨ y ≥ VGA_LINES_MAX then some screen
  else do
    let screen ← vgaStore screen (y * VGA_COLUMNS_MAX * 2 + x * 2) c
    vgaStore screen (y * VGA_COLUMNS_MAX * 2 + x * 2 + 1) color

/-- `kwmemset`: a word of 16 bits is stored with its low byte first. -/
def kwmemset (screen : List UInt8) (ptr word : Nat) : Nat → Option (List UInt8)
  | 0 => some screen
  | len + 1 => do
    let screen ← vgaStore screen ptr (UInt8.ofNat word)
    let screen ← vgaStore screen (ptr + 1) (UInt8.ofNat (word / 2 ^ 8))
    kwmemset screen (ptr + 2) word len

/-- `kvga_scroll_line`. -/
def kvgaScrollLine (screen : List UInt8) : Option (List UInt8) := do
  let vm := VGA_LINES_MAX * VGA_COLUMNS_MAX * 2 - VGA_COLUMNS_MAX * 2
  let screen ← Shell.kmemmove screen 0 (VGA_COLUMNS_MAX * 2)
    (VGA_COLUMNS_MAX * VGA_LINES_MAX * 2 - VGA_COLUMNS_MAX * 2)
  kwmemset screen vm (VGA_TEXT_DEFAULT_COLOR.toNat <<< 8 ||| 0x20) VGA_COLUMNS_MAX

/-! ## The terminal -/

/-- The text buffer and `ktty_cursor_pos`. -/
structure Terminal where
  screen : List UInt8
  x : Int
  y : Int
  deriving DecidableEq, Repr

/-- The conversion to `int8_t`. -/
def int8 (v : Int) : Int := Int.bmod v (2 ^ 8)

/-- The conversion to `uint8_t`. -/
def uint8 (v : Int) : Nat := (v % 2 ^ 8).toNat

/-- `ktty_cursor_set`. -/
def kttyCursorSet (t : Terminal) (x y : Int) : Terminal := { t with x := int8 x, y := int8 y }

/-- `ktty_cursor_add`. -/
def kttyCursorAdd (t : Terminal) (x y : Int) : Terminal :=
  let realX := t.x + x
  let realY := t.y + y
  if realX ≥ VGA_COLUMNS_MAX then
    kttyCursorSet t (Int.tmod realX VGA_COLUMNS_MAX) (realY + Int.tdiv realX VGA_COLUMNS_MAX)
  else kttyCursorSet t realX realY

/-- `ktty_putc_at` at the cursor. -/
def kttyPutcAt (t : Terminal) (c color : UInt8) : Option Terminal :=
  (kvgaPutcAt t.screen (uint8 t.x) (uint8 t.y) c color).map fun screen => { t with screen }

/-- `kvga_scroll_line`, seen from the terminal. -/
def scroll (t : Terminal) : Option Terminal :=
  (kvgaScrollLine t.screen).map fun screen => { t with screen }

/-- `ktty_putc` of a character and a colour. -/
def kttyPutc (t : Terminal) (cell : UInt8 × UInt8) : Option Terminal :=
  if cell.1 = 0x08 then
    if t.x > 0 then kttyPutcAt (kttyCursorAdd t (-1) 0) 0x20 VGA_TEXT_DEFAULT_COLOR
    else if t.y > 0 then
      kttyPutcAt (kttyCursorSet t (VGA_COLUMNS_MAX - 1) (t.y - 1)) 0x20 VGA_TEXT_DEFAULT_COLOR
    else kttyPutcAt t 0x20 VGA_TEXT_DEFAULT_COLOR
  else if cell.1 = 0x0a then
    if t.y ≥ VGA_LINES_MAX - 1 then do
      let t ← scroll t
      return kttyCursorSet t 0 (VGA_LINES_MAX - 1)
    else some (kttyCursorSet t 0 (t.y + 1))
  else if t.y ≥ VGA_LINES_MAX - 1 ∧ t.x = VGA_COLUMNS_MAX - 1 then do
    let t ← kttyPutcAt t cell.1 cell.2
    let t ← scroll t
    return kttyCursorSet t 0 (VGA_LINES_MAX - 1)
  else do
    let t ← kttyPutcAt t cell.1 cell.2
    return kttyCursorAdd t 1 0

/-! ## Texts -/

/-- A text in rows: the finished ones, and the one that goes on. -/
structure Layout where
  finished : List (List (UInt8 × UInt8))
  current : List (UInt8 × UInt8)

/-- The rows in use; the cursor is in the last one. -/
def Layout.rows (l : Layout) : List (List (UInt8 × UInt8)) := l.finished ++ [l.current]

/-- The next character of a text: a row ends at a newline or after 80 characters. -/
def feed (l : Layout) (cell : UInt8 × UInt8) : Layout :=
  if cell.1 = 0x0a then ⟨l.rows, []⟩
  else if l.current.length + 1 = VGA_COLUMNS_MAX then
    ⟨l.finished ++ [l.current ++ [cell]], []⟩
  else ⟨l.finished, l.current ++ [cell]⟩

/-- A text laid out. -/
def layout (text : List (UInt8 × UInt8)) : Layout := text.foldl feed ⟨[], []⟩

/-- Row `r` of the last 25 of some rows; there is nothing in a row that is not in use. -/
def windowRow (rows : List (List (UInt8 × UInt8))) (r : Nat) : List (UInt8 × UInt8) :=
  rows.getD (rows.length - VGA_LINES_MAX + r) []

/-- A cell of the buffer holds a character and its colour, or it is blank. -/
def CellIs (screen : List UInt8) (i : Nat) : Option (UInt8 × UInt8) → Prop
  | some cell => screen[i]? = some cell.1 ∧ screen[i + 1]? = some cell.2
  | none => screen[i]? = some 0x20

/-- **The buffer shows the last 25 rows**, padded with blanks. -/
def Shows (screen : List UInt8) (rows : List (List (UInt8 × UInt8))) : Prop :=
  ∀ r < VGA_LINES_MAX, ∀ col < VGA_COLUMNS_MAX,
    CellIs screen (r * VGA_COLUMNS_MAX * 2 + col * 2) (windowRow rows r)[col]?

/-- A screen filled with blanks, of any colours, and the cursor at (0, 0). -/
structure Blank (t : Terminal) : Prop where
  size : t.screen.length = VGA_LINES_MAX * VGA_COLUMNS_MAX * 2
  blank : ∀ i < VGA_LINES_MAX * VGA_COLUMNS_MAX, t.screen[i * 2]? = some 0x20
  x : t.x = 0
  y : t.y = 0

/-- **The cursor is on the screen**, and the buffer has the size of it. -/
structure OnScreen (t : Terminal) : Prop where
  size : t.screen.length = VGA_LINES_MAX * VGA_COLUMNS_MAX * 2
  x : 0 ≤ t.x ∧ t.x < VGA_COLUMNS_MAX
  y : 0 ≤ t.y ∧ t.y < VGA_LINES_MAX

/-! ## Stores -/

variable {screen : List UInt8}

theorem vgaStore_eq {i : Nat} (h : i < screen.length) (byte : UInt8) :
    vgaStore screen i byte = some (screen.set i byte) :=
  if_pos h

/-- A character at a cell of the screen changes that cell. -/
theorem kvgaPutcAt_spec
    (hsize : screen.length = VGA_LINES_MAX * VGA_COLUMNS_MAX * 2) {x y : Nat}
    (hx : x < VGA_COLUMNS_MAX) (hy : y < VGA_LINES_MAX) (c color : UInt8) :
    ∃ next, kvgaPutcAt screen x y c color = some next ∧ next.length = screen.length ∧
      ∀ i, next[i]? =
        if i = y * VGA_COLUMNS_MAX * 2 + x * 2 then some c
        else if i = y * VGA_COLUMNS_MAX * 2 + x * 2 + 1 then some color else screen[i]? := by
  have hcell : y * VGA_COLUMNS_MAX * 2 + x * 2 + 1 < screen.length := by
    simp only [VGA_COLUMNS_MAX, VGA_LINES_MAX] at *
    omega
  rw [kvgaPutcAt, if_neg (by omega)]
  generalize y * VGA_COLUMNS_MAX * 2 + x * 2 = a at *
  refine ⟨(screen.set a c).set (a + 1) color, ?_, by simp, fun i => ?_⟩
  · rw [vgaStore_eq (by omega), Option.bind_eq_bind, Option.bind_some,
      vgaStore_eq (by rw [List.length_set]; exact hcell)]
  · rw [List.getElem?_set, List.getElem?_set, List.length_set]
    split_ifs <;> first | rfl | omega

/-- The words stored by `kwmemset`. -/
theorem kwmemset_spec (word len : Nat) {ptr : Nat}
    (hroom : ptr + len * 2 ≤ screen.length) :
    ∃ next, kwmemset screen ptr word len = some next ∧ next.length = screen.length ∧
      (∀ i < ptr, next[i]? = screen[i]?) ∧
      ∀ j < len, next[ptr + j * 2]? = some (UInt8.ofNat word) := by
  induction len generalizing screen ptr with
  | zero => exact ⟨screen, rfl, rfl, fun _ _ => rfl, fun j hj => absurd hj (Nat.not_lt_zero j)⟩
  | succ len ih =>
    have hlow : ptr < screen.length := by omega
    obtain ⟨next, hnext, hlength, hfront, hwords⟩ := @ih
      ((screen.set ptr (UInt8.ofNat word)).set (ptr + 1) (UInt8.ofNat (word / 2 ^ 8))) (ptr + 2)
      (by rw [List.length_set, List.length_set]; omega)
    refine ⟨next, ?_, ?_, fun i hi => ?_, fun j hj => ?_⟩
    · rw [kwmemset, vgaStore_eq hlow, Option.bind_eq_bind, Option.bind_some,
        vgaStore_eq (by rw [List.length_set]; omega)]
      exact hnext
    · rw [hlength, List.length_set, List.length_set]
    · rw [hfront i (by omega), List.getElem?_set_ne (by omega), List.getElem?_set_ne (by omega)]
    · cases j with
      | zero =>
        rw [Nat.zero_mul, Nat.add_zero, hfront ptr (by omega), List.getElem?_set_ne (by omega),
          List.getElem?_set_self hlow]
      | succ j =>
        rw [show ptr + (j + 1) * 2 = ptr + 2 + j * 2 by omega]
        exact hwords j (by omega)

/-- Moving bytes keeps the size of the buffer. -/
theorem length_copyUp {n d src : Nat} {moved : List UInt8}
    (h : Shell.copyUp n d src screen = some moved) : moved.length = screen.length := by
  induction n generalizing d src screen with
  | zero =>
    rw [Shell.copyUp, Option.some_inj] at h
    rw [h]
  | succ n ih =>
    rw [Shell.copyUp] at h
    split at h
    · cases h
    · split_ifs at h
      rw [ih h, List.length_set]

/-- **Scrolling moves the rows up by one** and leaves the last one blank. -/
theorem kvgaScrollLine_spec (hsize : screen.length = VGA_LINES_MAX * VGA_COLUMNS_MAX * 2) :
    ∃ next, kvgaScrollLine screen = some next ∧ next.length = screen.length ∧
      (∀ i < (VGA_LINES_MAX - 1) * VGA_COLUMNS_MAX * 2,
        next[i]? = screen[i + VGA_COLUMNS_MAX * 2]?) ∧
      ∀ col < VGA_COLUMNS_MAX,
        next[(VGA_LINES_MAX - 1) * VGA_COLUMNS_MAX * 2 + col * 2]? = some 0x20 := by
  have hvm : VGA_LINES_MAX * VGA_COLUMNS_MAX * 2 - VGA_COLUMNS_MAX * 2 =
      (VGA_LINES_MAX - 1) * VGA_COLUMNS_MAX * 2 := rfl
  have hmoved : VGA_COLUMNS_MAX * VGA_LINES_MAX * 2 - VGA_COLUMNS_MAX * 2 =
      (VGA_LINES_MAX - 1) * VGA_COLUMNS_MAX * 2 := rfl
  have hword : VGA_TEXT_DEFAULT_COLOR.toNat <<< 8 ||| 0x20 = 0x0f20 := by decide
  have hroom : VGA_COLUMNS_MAX * 2 + (VGA_LINES_MAX - 1) * VGA_COLUMNS_MAX * 2 =
      screen.length := by
    rw [hsize]
    rfl
  unfold kvgaScrollLine
  rw [hvm, hmoved, hword]
  generalize (VGA_LINES_MAX - 1) * VGA_COLUMNS_MAX * 2 = front at *
  generalize VGA_COLUMNS_MAX = width at *
  obtain ⟨moved, hcopy, hget⟩ := Shell.copyUp_getElem? front (Nat.zero_le (width * 2)) hroom.le
  have hlength := length_copyUp hcopy
  obtain ⟨next, hnext, hlength', hfront, hwords⟩ :=
    kwmemset_spec 0x0f20 width (show front + width * 2 ≤ moved.length by omega)
  have hblank : UInt8.ofNat 0x0f20 = 0x20 := by decide
  refine ⟨next, ?_, hlength'.trans hlength, fun i hi => ?_, fun col hcol => ?_⟩
  · rw [Shell.kmemmove, if_neg (Nat.not_lt_zero _), hcopy, Option.bind_eq_bind, Option.bind_some,
      hnext]
  · rw [hfront i hi, hget i, if_pos (by omega), Nat.sub_zero]
  · rw [hwords col hcol, hblank]

/-! ## The last rows -/

variable {rows : List (List (UInt8 × UInt8))}

/-- The row that goes on, and the ones above it. -/
theorem windowRow_snoc (finished : List (List (UInt8 × UInt8))) (current : List (UInt8 × UInt8))
    {r : Nat} (hr : r < VGA_LINES_MAX) :
    windowRow (finished ++ [current]) r =
      if r = min finished.length (VGA_LINES_MAX - 1) then current
      else finished.getD (finished.length + 1 - VGA_LINES_MAX + r) [] := by
  have hlines : VGA_LINES_MAX = 25 := rfl
  rw [windowRow, List.length_append, List.length_singleton, List.getD_eq_getElem?_getD,
    List.getD_eq_getElem?_getD]
  by_cases h : r = min finished.length (VGA_LINES_MAX - 1)
  · rw [if_pos h, show finished.length + 1 - VGA_LINES_MAX + r = finished.length by omega,
      List.getElem?_concat_length]
    rfl
  · rw [if_neg h]
    by_cases hlt : finished.length + 1 - VGA_LINES_MAX + r < finished.length
    · rw [List.getElem?_append_left hlt]
    · rw [List.getElem?_eq_none (by rw [List.length_append, List.length_singleton]; omega),
        List.getElem?_eq_none (by omega)]

/-- What stands in an empty row behind some others. -/
theorem getD_newRow (i : Nat) :
    (rows ++ [[]])[i]?.getD [] = rows[i]?.getD [] := by
  by_cases hlt : i < rows.length
  · rw [List.getElem?_append_left hlt]
  · rw [List.getElem?_append_right (by omega), List.getElem?_eq_none (by omega : rows.length ≤ i)]
    cases i - rows.length <;> rfl

/-- A new row at the bottom of a screen that is not full. -/
theorem windowRow_newRow_low (h : rows.length < VGA_LINES_MAX) (r : Nat) :
    windowRow (rows ++ [[]]) r = windowRow rows r := by
  rw [windowRow, windowRow, List.length_append, List.length_singleton,
    List.getD_eq_getElem?_getD, List.getD_eq_getElem?_getD, getD_newRow,
    show rows.length + 1 - VGA_LINES_MAX = rows.length - VGA_LINES_MAX by omega]

/-- A new row at the bottom of a full screen. -/
theorem windowRow_newRow_high (h : VGA_LINES_MAX ≤ rows.length) (r : Nat) :
    windowRow (rows ++ [[]]) r = windowRow rows (r + 1) := by
  rw [windowRow, windowRow, List.length_append, List.length_singleton,
    List.getD_eq_getElem?_getD, List.getD_eq_getElem?_getD, getD_newRow,
    show rows.length + 1 - VGA_LINES_MAX + r = rows.length - VGA_LINES_MAX + (r + 1) by omega]

/-- There is nothing below the rows of a full screen. -/
theorem windowRow_below (h : VGA_LINES_MAX ≤ rows.length) :
    windowRow rows (VGA_LINES_MAX - 1 + 1) = [] := by
  have hlines : VGA_LINES_MAX = 25 := rfl
  rw [windowRow, List.getD_eq_getElem?_getD, List.getElem?_eq_none (by omega)]
  rfl

/-! ## Showing a text -/

/-- The bytes of two cells differ. -/
theorem cell_ne {r col y x k : Nat} (hcol : col < VGA_COLUMNS_MAX) (hx : x < VGA_COLUMNS_MAX)
    (hk : k < 2) (h : ¬ (r = y ∧ col = x)) :
    r * VGA_COLUMNS_MAX * 2 + col * 2 + k ≠ y * VGA_COLUMNS_MAX * 2 + x * 2 ∧
      r * VGA_COLUMNS_MAX * 2 + col * 2 + k ≠ y * VGA_COLUMNS_MAX * 2 + x * 2 + 1 := by
  simp only [VGA_COLUMNS_MAX] at *
  omega

/-- A cell holds what the bytes that it is made of hold. -/
theorem CellIs.moved {next : List UInt8} {i j : Nat} {cell : Option (UInt8 × UInt8)}
    (h : CellIs screen i cell) (hmoved : ∀ k < 2, next[j + k]? = screen[i + k]?) :
    CellIs next j cell := by
  have hchar := hmoved 0 (Nat.succ_pos _)
  cases cell with
  | none => exact hchar.trans h
  | some cell => exact ⟨hchar.trans h.1, (hmoved 1 (Nat.lt_succ_self 1)).trans h.2⟩

/-- A character in the row that goes on. -/
theorem Shows.put {finished : List (List (UInt8 × UInt8))} {current : List (UInt8 × UInt8)}
    (h : Shows screen (finished ++ [current])) (cell : UInt8 × UInt8) {next : List UInt8}
    (hnext : ∀ i, next[i]? =
      if i = min finished.length (VGA_LINES_MAX - 1) * VGA_COLUMNS_MAX * 2 + current.length * 2 then
        some cell.1
      else if i = min finished.length (VGA_LINES_MAX - 1) * VGA_COLUMNS_MAX * 2 +
          current.length * 2 + 1 then some cell.2
      else screen[i]?)
    (hcurrent : current.length < VGA_COLUMNS_MAX) :
    Shows next (finished ++ [current ++ [cell]]) := by
  intro r hr col hcol
  have hcell := h r hr col hcol
  rw [windowRow_snoc finished _ hr] at hcell ⊢
  by_cases hhere : r = min finished.length (VGA_LINES_MAX - 1) ∧ col = current.length
  · obtain ⟨rfl, rfl⟩ := hhere
    rw [if_pos rfl, List.getElem?_concat_length]
    refine ⟨?_, ?_⟩
    · rw [hnext, if_pos rfl]
    · rw [hnext, if_neg (by omega), if_pos rfl]
  · -- another cell, of the same row or of another one
    have hother : ∀ k < 2, next[r * VGA_COLUMNS_MAX * 2 + col * 2 + k]? =
        screen[r * VGA_COLUMNS_MAX * 2 + col * 2 + k]? := by
      intro k hk
      obtain ⟨hchar, hcolor⟩ := cell_ne hcol hcurrent hk hhere
      rw [hnext, if_neg hchar, if_neg hcolor]
    have hsame : (if r = min finished.length (VGA_LINES_MAX - 1) then current ++ [cell]
          else finished.getD (finished.length + 1 - VGA_LINES_MAX + r) [])[col]? =
        (if r = min finished.length (VGA_LINES_MAX - 1) then current
          else finished.getD (finished.length + 1 - VGA_LINES_MAX + r) [])[col]? := by
      split_ifs with hrow
      · have hne : col ≠ current.length := fun hc => hhere ⟨hrow, hc⟩
        rcases Nat.lt_or_gt_of_ne hne with hlt | hgt
        · rw [List.getElem?_append_left hlt]
        · rw [List.getElem?_eq_none (by simp; omega), List.getElem?_eq_none (by omega)]
      · rfl
    rw [hsame]
    exact hcell.moved hother

/-- A new row on a screen that is not full. -/
theorem Shows.newRow_low (h : Shows screen rows) (hrows : rows.length < VGA_LINES_MAX) :
    Shows screen (rows ++ [[]]) := by
  intro r hr col hcol
  rw [windowRow_newRow_low hrows]
  exact h r hr col hcol

/-- **A new row on a full screen, behind a scroll.** -/
theorem Shows.newRow_high (h : Shows screen rows) (hrows : VGA_LINES_MAX ≤ rows.length)
    {next : List UInt8}
    (hmoved : ∀ i < (VGA_LINES_MAX - 1) * VGA_COLUMNS_MAX * 2,
      next[i]? = screen[i + VGA_COLUMNS_MAX * 2]?)
    (hblank : ∀ col < VGA_COLUMNS_MAX,
      next[(VGA_LINES_MAX - 1) * VGA_COLUMNS_MAX * 2 + col * 2]? = some 0x20) :
    Shows next (rows ++ [[]]) := by
  intro r hr col hcol
  rw [windowRow_newRow_high hrows]
  by_cases hlast : r < VGA_LINES_MAX - 1
  · have hcell := h (r + 1) (by omega) col hcol
    have hplace : ∀ k < 2, next[r * VGA_COLUMNS_MAX * 2 + col * 2 + k]? =
        screen[(r + 1) * VGA_COLUMNS_MAX * 2 + col * 2 + k]? := by
      intro k hk
      simp only [VGA_COLUMNS_MAX, VGA_LINES_MAX] at *
      rw [hmoved _ (by omega)]
      congr 1
      omega
    exact hcell.moved hplace
  · obtain rfl : r = VGA_LINES_MAX - 1 := by omega
    rw [windowRow_below hrows]
    exact hblank col hcol

/-! ## One character -/

theorem int8_eq {v : Int} (h0 : 0 ≤ v) (h : v < 2 ^ 7) : int8 v = v :=
  Int.bmod_eq_of_le (by omega) (by omega)

variable {t : Terminal}

/-- **A character at the cursor** is stored on the screen. -/
theorem OnScreen.kttyPutcAt (h : OnScreen t) (c color : UInt8) :
    ∃ next, kttyPutcAt t c color = some { t with screen := next } ∧
      next.length = t.screen.length ∧
      ∀ i, next[i]? =
        if i = t.y.toNat * VGA_COLUMNS_MAX * 2 + t.x.toNat * 2 then some c
        else if i = t.y.toNat * VGA_COLUMNS_MAX * 2 + t.x.toNat * 2 + 1 then some color
        else t.screen[i]? := by
  have hx := h.x
  have hy := h.y
  have hx' : uint8 t.x = t.x.toNat := by
    unfold uint8
    simp only [VGA_COLUMNS_MAX] at hx
    omega
  have hy' : uint8 t.y = t.y.toNat := by
    unfold uint8
    simp only [VGA_LINES_MAX] at hy
    omega
  obtain ⟨next, hnext, hlength, hget⟩ := kvgaPutcAt_spec h.size
    (show t.x.toNat < VGA_COLUMNS_MAX by omega) (show t.y.toNat < VGA_LINES_MAX by omega) c color
  exact ⟨next, by rw [Tty.kttyPutcAt, hx', hy', hnext]; rfl, hlength, hget⟩

/-- Setting the cursor to a cell of the screen. -/
theorem kttyCursorSet_eq (t : Terminal) {x y : Nat} (hx : x < VGA_COLUMNS_MAX)
    (hy : y < VGA_LINES_MAX) : kttyCursorSet t x y = { t with x := x, y := y } := by
  simp only [VGA_COLUMNS_MAX, VGA_LINES_MAX] at hx hy
  rw [kttyCursorSet, int8_eq (by omega) (by omega), int8_eq (by omega) (by omega)]

/-- The cursor one cell further. -/
theorem kttyCursorAdd_one (h : OnScreen t) :
    kttyCursorAdd t 1 0 =
      if t.x = VGA_COLUMNS_MAX - 1 then kttyCursorSet t 0 (t.y + 1)
      else kttyCursorSet t (t.x + 1) t.y := by
  have hx := h.x
  unfold kttyCursorAdd
  by_cases hlast : t.x = VGA_COLUMNS_MAX - 1
  · have hsum : t.x + 1 = VGA_COLUMNS_MAX := by omega
    rw [if_pos hlast, if_pos (by omega), hsum, Int.add_zero]
    rfl
  · rw [if_neg hlast, if_neg (by omega), Int.add_zero]

/-- **What the terminal shows of a layout**: its last rows, with the cursor behind the last
character. -/
structure Displays (t : Terminal) (l : Layout) : Prop where
  size : t.screen.length = VGA_LINES_MAX * VGA_COLUMNS_MAX * 2
  shows : Shows t.screen l.rows
  fits : l.current.length < VGA_COLUMNS_MAX
  x : t.x = l.current.length
  y : t.y = (min l.finished.length (VGA_LINES_MAX - 1) : Nat)

theorem Displays.onScreen {l : Layout} (h : Displays t l) : OnScreen t := by
  have hfits := h.fits
  have hlines : VGA_LINES_MAX = 25 := rfl
  refine ⟨h.size, ?_, ?_⟩
  · rw [h.x]
    omega
  · rw [h.y]
    omega

/-- **A newline starts a row**, and scrolls if the last one was at the bottom. -/
theorem newline_displays (hsize : t.screen.length = VGA_LINES_MAX * VGA_COLUMNS_MAX * 2)
    {finished : List (List (UInt8 × UInt8))} {current : List (UInt8 × UInt8)}
    (hshows : Shows t.screen (finished ++ [current]))
    (hy : t.y = (min finished.length (VGA_LINES_MAX - 1) : Nat)) (color : UInt8) :
    ∃ t', kttyPutc t (0x0a, color) = some t' ∧ Displays t' ⟨finished ++ [current], []⟩ := by
  have hlines : VGA_LINES_MAX = 25 := rfl
  have hlength : (finished ++ [current]).length = finished.length + 1 := List.length_append
  rw [kttyPutc, if_neg (show ¬ (0x0a : UInt8) = 0x08 by decide), if_pos rfl]
  by_cases hbottom : t.y ≥ VGA_LINES_MAX - 1
  · obtain ⟨next, hnext, hnextLength, hmoved, hblank⟩ := kvgaScrollLine_spec hsize
    have hcursor := kttyCursorSet_eq { t with screen := next } (x := 0) (y := VGA_LINES_MAX - 1)
      (by decide) (by decide)
    rw [if_pos hbottom, scroll, hnext]
    refine ⟨_, congrArg some hcursor, hnextLength.trans hsize,
      hshows.newRow_high (by omega) hmoved hblank, Nat.succ_pos _, rfl, ?_⟩
    show ((VGA_LINES_MAX - 1 : Nat) : Int) = _
    rw [hlength]
    omega
  · have hcursor := kttyCursorSet_eq t (x := 0) (y := finished.length + 1) (by decide) (by omega)
    have hrow : t.y + 1 = ((finished.length + 1 : Nat) : Int) := by omega
    rw [if_neg hbottom, hrow]
    refine ⟨_, congrArg some hcursor, hsize, hshows.newRow_low (by omega), Nat.succ_pos _, rfl,
      ?_⟩
    show ((finished.length + 1 : Nat) : Int) = _
    rw [hlength]
    omega

/-- A character in the last column starts a row too, like a newline behind it. -/
theorem kttyPutc_last {cell : UInt8 × UInt8} (h : OnScreen t) (hback : cell.1 ≠ 0x08)
    (hline : cell.1 ≠ 0x0a) (hlast : t.x = VGA_COLUMNS_MAX - 1) :
    kttyPutc t cell =
      (kttyPutcAt t cell.1 cell.2).bind fun t => kttyPutc t (0x0a, cell.2) := by
  obtain ⟨next, hnext, hlength, -⟩ := h.kttyPutcAt cell.1 cell.2
  have hnext' : OnScreen { t with screen := next } := ⟨hlength.trans h.size, h.x, h.y⟩
  rw [kttyPutc, if_neg hback, if_neg hline, hnext, Option.bind_some, kttyPutc,
    if_neg (show ¬ (0x0a : UInt8) = 0x08 by decide), if_pos rfl]
  by_cases hbottom : t.y ≥ VGA_LINES_MAX - 1
  · rw [if_pos ⟨hbottom, hlast⟩, if_pos hbottom]
    rfl
  · rw [if_neg fun hc => hbottom hc.1, if_neg hbottom, Option.bind_eq_bind, Option.bind_some,
      kttyCursorAdd_one hnext', if_pos hlast]
    rfl

/-- **Every character keeps the buffer and the layout in step.** -/
theorem Displays.putc {l : Layout} (h : Displays t l) {cell : UInt8 × UInt8}
    (hback : cell.1 ≠ 0x08) : ∃ t', kttyPutc t cell = some t' ∧ Displays t' (feed l cell) := by
  have hscreen := h.onScreen
  have hfits := h.fits
  by_cases hline : cell.1 = 0x0a
  · obtain ⟨t', ht', hdisplays⟩ := newline_displays h.size h.shows h.y cell.2
    rw [← hline] at ht'
    exact ⟨t', ht', by rw [feed, if_pos hline]; exact hdisplays⟩
  obtain ⟨next, hnext, hlength, hget⟩ := hscreen.kttyPutcAt cell.1 cell.2
  have hx : t.x.toNat = l.current.length := by rw [h.x]; rfl
  have hy : t.y.toNat = min l.finished.length (VGA_LINES_MAX - 1) := by rw [h.y]; rfl
  rw [hx, hy] at hget
  have hshows : Shows next (l.finished ++ [l.current ++ [cell]]) := h.shows.put cell hget hfits
  rw [feed, if_neg hline]
  by_cases hfull : l.current.length + 1 = VGA_COLUMNS_MAX
  · have hlast : t.x = VGA_COLUMNS_MAX - 1 := by rw [h.x]; omega
    rw [if_pos hfull, kttyPutc_last hscreen hback hline hlast, hnext, Option.bind_some]
    exact @newline_displays { t with screen := next } (hlength.trans h.size) _ _ hshows h.y cell.2
  · have hlast : ¬ t.x = VGA_COLUMNS_MAX - 1 := by rw [h.x]; omega
    have hnext' : OnScreen { t with screen := next } :=
      ⟨hlength.trans h.size, hscreen.x, hscreen.y⟩
    have hmove : kttyCursorAdd { t with screen := next } 1 0 =
        ⟨next, (l.current.length + 1 : Nat),
          (min l.finished.length (VGA_LINES_MAX - 1) : Nat)⟩ := by
      rw [kttyCursorAdd_one hnext', if_neg hlast, h.x, h.y, ← Nat.cast_succ]
      exact kttyCursorSet_eq _ (by omega) (lt_of_le_of_lt (Nat.min_le_right _ _) (by decide))
    rw [if_neg hfull, kttyPutc, if_neg hback, if_neg hline, if_neg fun hc => hlast hc.2, hnext]
    refine ⟨_, congrArg some hmove, hlength.trans h.size, hshows, ?_, ?_, rfl⟩
    · rw [List.length_append, List.length_singleton]
      omega
    · rw [List.length_append, List.length_singleton]

/-- A screen filled with blanks shows the text that is empty. -/
theorem Blank.displays (h : Blank t) : Displays t ⟨[], []⟩ := by
  refine ⟨h.size, fun r hr col hcol => ?_, Nat.succ_pos _, h.x, h.y⟩
  have hcell := h.blank (r * VGA_COLUMNS_MAX + col) (by
    simp only [VGA_COLUMNS_MAX, VGA_LINES_MAX] at *
    omega)
  have hempty : (windowRow (Layout.rows ⟨[], []⟩) r)[col]? = none := by
    cases r <;> rfl
  rw [hempty]
  rwa [Nat.add_mul] at hcell

/-! ## Any characters -/

theorem OnScreen.cursorSet (h : OnScreen t) {x y : Int} (hx : 0 ≤ x ∧ x < VGA_COLUMNS_MAX)
    (hy : 0 ≤ y ∧ y < VGA_LINES_MAX) : OnScreen (kttyCursorSet t x y) := by
  have hx' : int8 x = x := int8_eq hx.1 (hx.2.trans (by decide))
  have hy' : int8 y = y := int8_eq hy.1 (hy.2.trans (by decide))
  refine ⟨h.size, ?_, ?_⟩
  · show 0 ≤ int8 x ∧ int8 x < _
    rwa [hx']
  · show 0 ≤ int8 y ∧ int8 y < _
    rwa [hy']

theorem OnScreen.put (h : OnScreen t) (c color : UInt8) :
    ∃ t', Tty.kttyPutcAt t c color = some t' ∧ OnScreen t' ∧ t'.x = t.x ∧ t'.y = t.y := by
  obtain ⟨next, hnext, hlength, -⟩ := h.kttyPutcAt c color
  exact ⟨_, hnext, ⟨hlength.trans h.size, h.x, h.y⟩, rfl, rfl⟩

/-- A backspace goes back one cell, and to the end of the row above from the first one. -/
theorem OnScreen.backspace (h : OnScreen t) {cell : UInt8 × UInt8} (hback : cell.1 = 0x08) :
    ∃ t', kttyPutc t cell = some t' ∧ OnScreen t' := by
  have hx := h.x
  have hy := h.y
  have hwidth : (VGA_COLUMNS_MAX : Int) = 80 := rfl
  rw [kttyPutc, if_pos hback]
  split_ifs with hcol hrow
  · have hmove : kttyCursorAdd t (-1) 0 = kttyCursorSet t (t.x + -1) t.y := by
      rw [kttyCursorAdd, if_neg (by omega), Int.add_zero]
    rw [hmove]
    obtain ⟨t', ht', hscreen, -⟩ :=
      (h.cursorSet (x := t.x + -1) (y := t.y) (by omega) hy).put 0x20 VGA_TEXT_DEFAULT_COLOR
    exact ⟨t', ht', hscreen⟩
  · obtain ⟨t', ht', hscreen, -⟩ := (h.cursorSet (x := VGA_COLUMNS_MAX - 1) (y := t.y - 1)
      (by omega) (by omega)).put 0x20 VGA_TEXT_DEFAULT_COLOR
    exact ⟨t', ht', hscreen⟩
  · obtain ⟨t', ht', hscreen, -⟩ := h.put 0x20 VGA_TEXT_DEFAULT_COLOR
    exact ⟨t', ht', hscreen⟩

theorem OnScreen.newline (h : OnScreen t) {cell : UInt8 × UInt8} (hline : cell.1 = 0x0a) :
    ∃ t', kttyPutc t cell = some t' ∧ OnScreen t' := by
  have hy := h.y
  have hwidth : (VGA_COLUMNS_MAX : Int) = 80 := rfl
  have hlines : (VGA_LINES_MAX : Int) = 25 := rfl
  rw [kttyPutc, if_neg (by rw [hline]; decide), if_pos hline]
  split_ifs with hbottom
  · obtain ⟨next, hnext, hlength, -⟩ := kvgaScrollLine_spec h.size
    have hscreen : OnScreen { t with screen := next } := ⟨hlength.trans h.size, h.x, h.y⟩
    rw [scroll, hnext]
    exact ⟨_, rfl, hscreen.cursorSet (by omega) (by omega)⟩
  · exact ⟨_, rfl, h.cursorSet (by omega) (by omega)⟩

/-- **No character leaves the screen.** -/
theorem OnScreen.putc (h : OnScreen t) (cell : UInt8 × UInt8) :
    ∃ t', kttyPutc t cell = some t' ∧ OnScreen t' := by
  have hx := h.x
  by_cases hback : cell.1 = 0x08
  · exact h.backspace hback
  by_cases hline : cell.1 = 0x0a
  · exact h.newline hline
  obtain ⟨next, hnext, hscreen, hsame, hsame'⟩ := h.put cell.1 cell.2
  by_cases hlast : t.x = VGA_COLUMNS_MAX - 1
  · obtain ⟨t', ht', hdone⟩ := @OnScreen.newline next hscreen (0x0a, cell.2) rfl
    exact ⟨t', by rw [kttyPutc_last h hback hline hlast, hnext]; exact ht', hdone⟩
  · rw [kttyPutc, if_neg hback, if_neg hline, if_neg fun hc => hlast hc.2, hnext]
    refine ⟨_, congrArg some (kttyCursorAdd_one hscreen), ?_⟩
    rw [hsame, if_neg hlast]
    exact hscreen.cursorSet (by omega) hscreen.y

/-! ## Whole texts -/

/-- A text is shown character by character. -/
theorem Displays.run {l : Layout} (h : Displays t l) {text : List (UInt8 × UInt8)}
    (htext : ∀ cell ∈ text, cell.1 ≠ 0x08) :
    ∃ t', run kttyPutc t text = some t' ∧ Displays t' (text.foldl feed l) := by
  induction text generalizing t l with
  | nil => exact ⟨t, rfl, h⟩
  | cons cell text ih =>
    obtain ⟨mid, hmid, hdisplays⟩ := h.putc (htext cell List.mem_cons_self)
    obtain ⟨t', ht', hdone⟩ := ih hdisplays fun c hc => htext c (List.mem_cons_of_mem cell hc)
    exact ⟨t', run_cons_some.2 ⟨mid, hmid, ht'⟩, hdone⟩

/-- **The console shows the end of the text.**  From a screen filled with blanks, whatever is
printed, every store is inside the buffer and the cursor stays on the screen; and after a text
without a backspace the buffer shows its last 25 rows, with the cursor in the last one. -/
theorem console_shows (h : Blank t) (text : List (UInt8 × UInt8)) :
    ∃ t', Transition.run kttyPutc t text = some t' ∧ OnScreen t' ∧
      ((∀ cell ∈ text, cell.1 ≠ 0x08) → Displays t' (layout text)) := by
  have hstep : ∀ (t : Terminal) (cell : UInt8 × UInt8), OnScreen t → True →
      ∃ t', kttyPutc t cell = some t' ∧ OnScreen t' := fun t cell ht _ => ht.putc cell
  obtain ⟨t', hrun, hscreen⟩ := run_total hstep h.displays.onScreen
    (admissible_of_forall (fun _ _ => trivial) t text)
  refine ⟨t', hrun, hscreen, fun htext => ?_⟩
  obtain ⟨shown, hshown, hdisplays⟩ := h.displays.run htext
  obtain rfl : shown = t' := Option.some.inj (hshown.symm.trans hrun)
  exact hdisplays

/-- Blank cells, one behind the other. -/
theorem getElem?_blanks {n i : Nat} (h : i < n) (color : UInt8) :
    (List.replicate n [0x20, color]).flatten[i * 2]? = some 0x20 := by
  induction n generalizing i with
  | zero => exact absurd h (Nat.not_lt_zero i)
  | succ n ih =>
    rw [List.replicate_succ, List.flatten_cons]
    cases i with
    | zero => rfl
    | succ i =>
      rw [Nat.add_mul, Nat.one_mul]
      exact ih (Nat.lt_of_succ_lt_succ h)

/-- The screen after `clear`. -/
def cleared : Terminal :=
  ⟨(List.replicate (VGA_LINES_MAX * VGA_COLUMNS_MAX) [0x20, VGA_TEXT_DEFAULT_COLOR]).flatten, 0, 0⟩

theorem cleared_blank : Blank cleared := by
  refine ⟨?_, fun i hi => getElem?_blanks hi _, rfl, rfl⟩
  rw [cleared, List.length_flatten, List.map_replicate, List.sum_replicate]
  rfl

/-- `"a\nb"` on a cleared screen. -/
theorem console_shows_cleared :
    ∃ t', Transition.run kttyPutc cleared [(0x61, 0x0f), (0x0a, 0x0f), (0x62, 0x0f)] = some t' ∧
      OnScreen t' ∧
      ((∀ cell ∈ [((0x61 : UInt8), (0x0f : UInt8)), (0x0a, 0x0f), (0x62, 0x0f)], cell.1 ≠ 0x08) →
        Displays t' (layout [(0x61, 0x0f), (0x0a, 0x0f), (0x62, 0x0f)])) :=
  console_shows cleared_blank _

end DelOs.Tty
