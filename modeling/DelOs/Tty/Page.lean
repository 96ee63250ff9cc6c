import DelOs.Tty.Sheet

/-!
# What is erased leaves no trace

The screen shows the rows of a text; behind a backspace it shows those of the text without its last
character, except that rows that have left the screen do not come back.

* `Pages` — the sheet holds the rows of a text from a row on.
* `Pages.put` — a character is laid out behind the text.
* `Pages.erase` — **a backspace takes the last character of the text**, if that is no newline and
  stands on the screen.
* `Pages.run` — whole texts.
* `rows_of_line` — how many rows a line takes.
-/

namespace DelOs.Tty

open CellGrid

/-- **The sheet shows a text** from its row `top` on. -/
structure Pages (s : Sheet) (text : List Cell) (top : Nat) : Prop where
  above : s.above = (layout text).finished.drop top
  current : s.current = (layout text).current
  top_le : top ≤ (layout text).finished.length

theorem layout_snoc (text : List Cell) (cell : Cell) :
    layout (text ++ [cell]) = feed (layout text) cell := by
  rw [layout, layout, List.foldl_append, List.foldl_cons, List.foldl_nil]

/-- The first row that is shown behind a text of some rows. -/
def nextTop (top finished : Nat) : Nat := max top (finished + 1 - VGA_LINES_MAX)

variable {s : Sheet} {text : List Cell} {top : Nat}

theorem Pages.empty : Pages Sheet.empty [] 0 := ⟨rfl, rfl, le_rfl⟩

/-- A row ends: the sheet drops what leaves the screen. -/
theorem Pages.newRow (h : Pages s text top) {row : List Cell} (hrow : row.length ≤ VGA_COLUMNS_MAX)
    {text' : List Cell} (htext' : layout text' = ⟨(layout text).finished ++ [row], []⟩) :
    Pages (s.newRow row hrow) text' (nextTop top (layout text').finished.length) := by
  have hlines : VGA_LINES_MAX = 25 := rfl
  have htop := h.top_le
  have habove := s.above_lt
  have hlength : s.above.length = (layout text).finished.length - top := by
    rw [h.above, List.length_drop]
  have hnext : (layout text').finished.length = (layout text).finished.length + 1 := by
    rw [htext', List.length_append, List.length_singleton]
  refine ⟨?_, by rw [htext']; rfl, ?_⟩
  · show (s.above ++ [row]).drop (s.above.length + 2 - VGA_LINES_MAX) = _
    have hdrop : nextTop top (layout text').finished.length =
        top + (s.above.length + 2 - VGA_LINES_MAX) := by
      unfold nextTop
      omega
    rw [hdrop, htext', ← List.drop_drop, List.drop_append_of_le_length htop, ← h.above]
  · unfold nextTop
    omega

/-- **A character is laid out behind the text.** -/
theorem Pages.put (h : Pages s text top) {cell : Cell} (hback : cell.1 ≠ 0x08) :
    Pages (s.putc cell) (text ++ [cell])
      (nextTop top (layout (text ++ [cell])).finished.length) := by
  have hlayout := layout_snoc text cell
  have hfits := s.current_lt
  rw [Sheet.putc, if_neg hback]
  by_cases hline : cell.1 = 0x0a
  · rw [if_pos hline]
    refine h.newRow _ ?_
    rw [hlayout, feed, if_pos hline, Layout.rows, h.current]
  rw [if_neg hline, Sheet.put]
  rw [feed, if_neg hline, ← h.current] at hlayout
  by_cases hroom : s.current.length + 1 < VGA_COLUMNS_MAX
  · rw [if_neg (by omega)] at hlayout
    have habove := s.above_lt
    rw [h.above, List.length_drop] at habove
    have hkept : nextTop top (layout text).finished.length = top := by
      unfold nextTop
      omega
    rw [dif_pos hroom, hlayout, hkept]
    exact ⟨by rw [hlayout]; exact h.above, by rw [hlayout], by rw [hlayout]; exact h.top_le⟩
  · rw [if_pos (by omega)] at hlayout
    rw [dif_neg hroom]
    exact h.newRow _ hlayout

/-- The rows in front of the last one. -/
theorem layout_snoc_finished_le (text : List Cell) (cell : Cell) :
    (layout text).finished.length ≤ (layout (text ++ [cell])).finished.length := by
  rw [layout_snoc, feed]
  split_ifs
  · simp [Layout.rows]
  · simp
  · exact le_rfl

/-- **A backspace takes the last character of the text**, if that is no newline and the row where
it begins is on the screen. -/
theorem Pages.erase {last : Cell} (h : Pages s (text ++ [last]) top) (hline : last.1 ≠ 0x0a)
    (hshown : top ≤ (layout text).finished.length) (color : UInt8) :
    Pages (s.putc (0x08, color)) text top := by
  obtain ⟨habove, hcurrent, -⟩ := h
  rw [layout_snoc, feed, if_neg hline] at habove hcurrent
  rw [Sheet.putc, if_pos rfl]
  split_ifs at habove hcurrent with hfull
  · -- the character ended its row
    have hsplit : s.above =
        (layout text).finished.drop top ++ [(layout text).current ++ [last]] := by
      rw [habove, List.drop_append_of_le_length hshown]
    have hrow : filledUp VGA_COLUMNS_MAX blank ((layout text).current ++ [last]) =
        (layout text).current ++ [last] := by
      rw [filledUp, List.length_append, List.length_singleton, hfull, Nat.sub_self,
        List.replicate_zero, List.append_nil]
    refine ⟨?_, ?_, hshown⟩
    · simp [Sheet.erase, hcurrent, hsplit]
    · simp [Sheet.erase, hcurrent, hsplit, hrow]
  · refine ⟨?_, ?_, hshown⟩
    · simp [Sheet.erase, hcurrent, habove]
    · simp [Sheet.erase, hcurrent]

/-! ## Whole texts -/

theorem layout_finished_le (text more : List Cell) :
    (layout text).finished.length ≤ (layout (text ++ more)).finished.length := by
  induction more generalizing text with
  | nil => rw [List.append_nil]
  | cons cell more ih =>
    rw [List.append_cons]
    exact (layout_snoc_finished_le text cell).trans (ih (text ++ [cell]))

/-- **A text without backspaces** is laid out behind the other. -/
theorem Pages.run (h : Pages s text top) {more : List Cell}
    (hmore : ∀ cell ∈ more, cell.1 ≠ 0x08) :
    ∃ top', Pages (more.foldl Sheet.putc s) (text ++ more) top' ∧
      top' ≤ nextTop top (layout (text ++ more)).finished.length := by
  induction more generalizing s text top with
  | nil => exact ⟨top, by rwa [List.append_nil], Nat.le_max_left _ _⟩
  | cons cell more ih =>
    obtain ⟨top', hpages, htop'⟩ := ih (h.put (hmore cell List.mem_cons_self))
      fun c hc => hmore c (List.mem_cons_of_mem cell hc)
    have hle := layout_finished_le (text ++ [cell]) more
    rw [← List.append_cons] at hpages htop' hle
    refine ⟨top', hpages, htop'.trans ?_⟩
    unfold nextTop
    omega

/-- A line takes as many cells as it has characters. -/
theorem layout_line (text : List Cell) {line : List Cell} (hline : ∀ cell ∈ line, cell.1 ≠ 0x0a) :
    (layout (text ++ line)).finished.length * VGA_COLUMNS_MAX +
        (layout (text ++ line)).current.length =
      (layout text).finished.length * VGA_COLUMNS_MAX + (layout text).current.length +
        line.length := by
  induction line generalizing text with
  | nil => rw [List.append_nil]; rfl
  | cons cell line ih =>
    have hcell : (layout (text ++ [cell])).finished.length * VGA_COLUMNS_MAX +
        (layout (text ++ [cell])).current.length =
        (layout text).finished.length * VGA_COLUMNS_MAX + (layout text).current.length + 1 := by
      rw [layout_snoc, feed, if_neg (hline cell List.mem_cons_self)]
      split_ifs with hfull
      · simp only [List.length_append, List.length_singleton, List.length_nil, Nat.add_mul,
          Nat.one_mul, Nat.add_assoc, hfull, Nat.add_zero]
      · rw [List.length_append, List.length_singleton, Nat.add_assoc]
    rw [List.append_cons, ih _ fun c hc => hline c (List.mem_cons_of_mem cell hc), hcell,
      List.length_cons]
    omega

/-- **A line of at most 511 characters begins on the screen**, if the text in front of it ends
there. -/
theorem nextTop_line_le (text : List Cell) {line : List Cell}
    (hline : ∀ cell ∈ line, cell.1 ≠ 0x0a) (hlength : line.length ≤ 511)
    (htext : (layout text).current.length < VGA_COLUMNS_MAX)
    (htop : top ≤ (layout text).finished.length) :
    nextTop top (layout (text ++ line)).finished.length ≤ (layout text).finished.length := by
  have hcells := layout_line text hline
  have hlines : VGA_LINES_MAX = 25 := rfl
  have hwidth : VGA_COLUMNS_MAX = 80 := rfl
  rw [hwidth] at hcells htext
  unfold nextTop
  omega

end DelOs.Tty
