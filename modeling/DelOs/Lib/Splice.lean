import Mathlib.Tactic

/-!
# Writing into and reading from a list of items

A write at an offset replaces the items from the offset on, and extends the list when it runs
over the end; a read takes a slice.

* `splice` — the write; `length_splice`, `getElem?_splice` — what it leaves at each place.
* `take_splice` — a write into a buffer is a write into every prefix of it that the write
  starts in: what lies behind the prefix does not matter.
-/

namespace Splice

universe u

variable {α : Type u}

/-- Replace the items from `offset` on by `buffer`. -/
def splice (data : List α) (offset : Nat) (buffer : List α) : List α :=
  data.take offset ++ buffer ++ data.drop (offset + buffer.length)

@[simp] theorem splice_nil (data : List α) (offset : Nat) : splice data offset [] = data := by
  simp [splice]

theorem length_splice {data : List α} {offset : Nat} (buffer : List α)
    (h : offset ≤ data.length) :
    (splice data offset buffer).length = max (offset + buffer.length) data.length := by
  simp only [splice, List.length_append, List.length_take, List.length_drop]
  omega

/-- What a write leaves at each place. -/
theorem getElem?_splice {data : List α} {offset : Nat} (buffer : List α)
    (h : offset ≤ data.length) (i : Nat) :
    (splice data offset buffer)[i]? =
      if offset ≤ i ∧ i < offset + buffer.length then buffer[i - offset]? else data[i]? := by
  have htake : (data.take offset).length = offset := by simp [h]
  unfold splice
  rw [List.append_assoc]
  by_cases h1 : i < offset
  · rw [if_neg (by omega), List.getElem?_append_left (by omega), List.getElem?_take_of_lt h1]
  · rw [List.getElem?_append_right (by omega), htake]
    by_cases h2 : i < offset + buffer.length
    · rw [if_pos (by omega), List.getElem?_append_left (by omega)]
    · rw [if_neg (by omega), List.getElem?_append_right (by omega), List.getElem?_drop]
      congr 1
      omega

/-- A write into a buffer, seen on a prefix of it. -/
theorem take_splice {data : List α} {offset n : Nat} (buffer : List α) (hn : n ≤ data.length)
    (ho : offset ≤ n) :
    (splice data offset buffer).take (max (offset + buffer.length) n) =
      splice (data.take n) offset buffer := by
  apply List.ext_getElem?
  intro i
  rw [getElem?_splice buffer (by simp only [List.length_take]; omega), List.getElem?_take,
    getElem?_splice buffer (by omega), List.getElem?_take]
  by_cases hi : i < max (offset + buffer.length) n
  · rw [if_pos hi]
    split_ifs with h1 h2
    · rfl
    · rfl
    · omega
  · rw [if_neg hi, if_neg (by omega), if_neg (by omega)]

/-- A slice of a buffer that ends within a prefix is a slice of the prefix. -/
theorem slice_take (data : List α) {offset n m : Nat} (h : offset + m ≤ n) :
    ((data.take n).drop offset).take m = (data.drop offset).take m := by
  rw [List.drop_take, List.take_take]
  congr 1
  omega

end Splice
