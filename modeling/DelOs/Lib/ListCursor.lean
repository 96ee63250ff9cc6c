import Mathlib.Data.List.Nodup
import Mathlib.Tactic

/-!
# A position in a list that changes

A reader goes through a list by counting: its position is the number of elements it has passed, and
each reading starts from the head.  Between two readings the list may get a new head, and may lose
any of its elements.

* `Cursor`, `Cursor.step` — the list, the position, what was read, and which elements have been in
  the list all the time; the first reading that finds nothing is the end.
* `Cursor.Steady` — a change that leaves the elements before the position where they are.
* `Cursor.Exact` — what has been in the list all the time has been read once before the position,
  and not yet behind it.
* `Cursor.Exact.step`, `Cursor.Exact.count_le` — **steady changes keep that**, so that a reader who
  has come to the end has read each such element once.
-/

universe u

/-- A reader of a list. -/
structure Cursor (α : Type u) where
  items : List α
  position : Nat
  visited : List α
  since : List α
  ended : Bool

namespace Cursor

variable {α : Type u} [DecidableEq α] {c : Cursor α} {x : α}

/-- What happens to the list and its reader. -/
inductive Op (α : Type u)
  | next
  | push (x : α)
  | drop (x : α)

/-- One reading, or one change of the list. -/
def step (c : Cursor α) : Op α → Cursor α
  | .next =>
    match c.items[c.position]? with
    | none => { c with position := c.position + 1, ended := true }
    | some x => { c with position := c.position + 1, visited := c.visited ++ [x] }
  | .push x => { c with items := x :: c.items }
  | .drop x => { c with items := c.items.erase x, since := c.since.filter (· ≠ x) }

/-- The elements before the position stay there, or the reader has passed them all. -/
def Steady (c : Cursor α) : Op α → Prop
  | .next => True
  | .push x => x ∉ c.items ∧ (c.position = 0 ∨ c.items.length < c.position)
  | .drop x => c.items.length ≤ c.position ∨ x ∉ c.items.take c.position

/-- Of the elements that have been there all the time, those before the position have been read
once, the others not. -/
structure Exact (c : Cursor α) : Prop where
  nodup : c.items.Nodup
  listed : ∀ x ∈ c.since, x ∈ c.items
  count : ∀ x ∈ c.since, c.visited.count x = if x ∈ c.items.take c.position then 1 else 0

/-- A reader at the head has read nothing. -/
theorem exact_start {l : List α} (h : l.Nodup) : Exact ⟨l, 0, [], l, false⟩ :=
  ⟨h, fun _ hx => hx, fun x _ => by simp⟩

omit [DecidableEq α] in
/-- An element of a list without repetitions is not among those before it. -/
theorem not_mem_take {l : List α} (h : l.Nodup) {i : Nat} (hx : l[i]? = some x) :
    x ∉ l.take i := by
  obtain ⟨hi, rfl⟩ := List.getElem?_eq_some_iff.1 hx
  intro hmem
  obtain ⟨j, hj, heq⟩ := List.getElem_of_mem hmem
  rw [List.length_take] at hj
  rw [List.getElem_take] at heq
  have := (List.Nodup.getElem_inj_iff h).1 heq
  omega

/-- Erasing behind a position leaves what is before it. -/
theorem take_erase {l : List α} {i : Nat} (h : x ∉ l.take i) (hi : i ≤ l.length) :
    (l.erase x).take i = l.take i := by
  have hsplit : l.erase x = l.take i ++ (l.drop i).erase x := by
    conv_lhs => rw [← List.take_append_drop i l]
    exact List.erase_append_right _ h
  rw [hsplit, List.take_append_of_le_length (by simpa using hi), List.take_take, Nat.min_self]

/-- **A reading keeps the account.** -/
theorem Exact.next (h : Exact c) : Exact (c.step .next) := by
  unfold step
  cases hx : c.items[c.position]? with
  | none =>
    have hend := List.getElem?_eq_none_iff.1 hx
    refine ⟨h.nodup, h.listed, fun y hy => ?_⟩
    have hcount := h.count y hy
    rw [List.take_of_length_le hend] at hcount
    rw [List.take_of_length_le (hend.trans (Nat.le_succ _)), hcount]
  | some x =>
    refine ⟨h.nodup, h.listed, fun y hy => ?_⟩
    have htake : c.items.take (c.position + 1) = c.items.take c.position ++ [x] := by
      rw [List.take_add_one, hx, Option.toList_some]
    simp only [List.count_append, List.count_singleton, htake, List.mem_append,
      List.mem_singleton, h.count y hy]
    by_cases hyx : y = x
    · subst hyx
      simp [not_mem_take h.nodup hx]
    · simp [hyx, Ne.symm hyx]

/-- **A new head keeps the account** before the first reading, and behind the end. -/
theorem Exact.push (h : Exact c) (hok : c.Steady (.push x)) : Exact (c.step (.push x)) := by
  obtain ⟨hnew, hpos⟩ := hok
  refine ⟨List.nodup_cons.2 ⟨hnew, h.nodup⟩, fun y hy => List.mem_cons_of_mem x (h.listed y hy),
    fun y hy => ?_⟩
  have hcount := h.count y hy
  have hmem := h.listed y hy
  rcases hpos with hzero | hend
  · simpa [step, hzero] using hcount
  · rw [List.take_of_length_le (Nat.le_of_lt hend)] at hcount
    show c.visited.count y = if y ∈ (x :: c.items).take c.position then 1 else 0
    rw [List.take_of_length_le (by simpa using hend), hcount, if_pos hmem,
      if_pos (List.mem_cons_of_mem x hmem)]

/-- **An element less keeps the account** where it is behind the position, or all have been
read. -/
theorem Exact.drop (h : Exact c) (hok : c.Steady (.drop x)) : Exact (c.step (.drop x)) := by
  have hlisted : ∀ y ∈ c.since.filter (· ≠ x), y ∈ c.items.erase x := by
    intro y hy
    obtain ⟨hy, hne⟩ := List.mem_filter.1 hy
    exact (List.mem_erase_of_ne (by simpa using hne)).2 (h.listed y hy)
  refine ⟨h.nodup.erase x, hlisted, fun y hy => ?_⟩
  have hmem := hlisted y hy
  have hcount := h.count y (List.mem_filter.1 hy).1
  show c.visited.count y = if y ∈ (c.items.erase x).take c.position then 1 else 0
  by_cases hend : c.items.length ≤ c.position
  · rw [List.take_of_length_le hend, if_pos (List.mem_of_mem_erase hmem)] at hcount
    rw [List.take_of_length_le ((List.erase_sublist.length_le).trans hend), if_pos hmem, hcount]
  · rw [take_erase (hok.resolve_left hend) (Nat.le_of_not_le hend), hcount]

/-- **Steady changes keep the account.** -/
theorem Exact.step (h : Exact c) {op : Op α} (hok : c.Steady op) : Exact (c.step op) := by
  cases op with
  | next => exact h.next
  | push x => exact h.push hok
  | drop x => exact h.drop hok

/-- Nothing that has been there all the time has been read twice, and nothing is left unread behind
the end. -/
theorem Exact.count_le (h : Exact c) (hx : x ∈ c.since) :
    c.visited.count x ≤ 1 ∧ (c.items.length ≤ c.position → c.visited.count x = 1) := by
  have hcount := h.count x hx
  refine ⟨by rw [hcount]; split_ifs <;> omega, fun hend => ?_⟩
  rw [List.take_of_length_le hend, if_pos (h.listed x hx)] at hcount
  exact hcount

end Cursor
