import Mathlib.Tactic

/-!
# Ring buffers

A queue in an array: the items stand from the index `tail` on up to the index `head`, which go round
the end of the array; one slot stays empty, so that a full buffer is not taken for an empty one.

* `next` — the index behind another one; `next_eq_mod` is the way programs write it.
* `window`, `pending` — the items from an index on, and the ones in the queue.
* `pending_push`, `pending_pop` — **storing at `head` adds a last item, and reading at `tail` takes
  the first one.**
* `pending_eq_nil_iff`, `length_pending_eq_iff` — when the queue is empty, and when it is full.
-/

namespace RingBuffer

variable {α : Type*} {size : Nat}

/-- The index behind `i`. -/
def next (size i : Nat) : Nat := if i + 1 = size then 0 else i + 1

theorem next_eq_mod {i : Nat} (h : i < size) : (i + 1) % size = next size i := by
  unfold next
  split_ifs with hlast
  · rw [hlast, Nat.mod_self]
  · exact Nat.mod_eq_of_lt (by omega)

theorem next_lt {i : Nat} (h : i < size) : next size i < size := by
  unfold next
  split_ifs <;> omega

/-- The index `n` places behind `i`, once round at most. -/
def ahead (size i n : Nat) : Nat := if i + n < size then i + n else i + n - size

theorem ahead_zero {i : Nat} (h : i < size) : ahead size i 0 = i := if_pos h

theorem ahead_next {i n : Nat} (hn : n + 1 < size) :
    ahead size (next size i) n = ahead size i (n + 1) := by
  unfold ahead next
  split_ifs <;> omega

theorem ahead_inj {i m n : Nat} (hm : m < size) (hn : n < size)
    (h : ahead size i m = ahead size i n) : m = n := by
  unfold ahead at h
  split_ifs at h <;> omega

/-- `n` items from an index on. -/
def window (buffer : List α) (tail : Nat) : Nat → List α
  | 0 => []
  | n + 1 => buffer[tail]?.toList ++ window buffer (next buffer.length tail) n

/-- How many items there are between the two indices. -/
def count (size head tail : Nat) : Nat := if tail ≤ head then head - tail else head + size - tail

/-- The items in the queue, the oldest one first. -/
def pending (buffer : List α) (head tail : Nat) : List α :=
  window buffer tail (count buffer.length head tail)

theorem count_lt {head tail : Nat} (hhead : head < size) (htail : tail < size) :
    count size head tail < size := by
  unfold count
  split_ifs <;> omega

theorem ahead_count {head tail : Nat} (hhead : head < size) (htail : tail < size) :
    ahead size tail (count size head tail) = head := by
  unfold ahead count
  split_ifs <;> omega

variable {buffer : List α} {head tail : Nat}

theorem length_window {n : Nat} (htail : tail < buffer.length) :
    (window buffer tail n).length = n := by
  induction n generalizing tail with
  | zero => rfl
  | succ n ih =>
    rw [window, List.getElem?_eq_getElem htail, List.length_append, ih (next_lt htail)]
    exact Nat.add_comm 1 n

/-- One item more. -/
theorem window_snoc {n : Nat} (htail : tail < buffer.length) (hn : n < buffer.length) :
    window buffer tail (n + 1) =
      window buffer tail n ++ buffer[ahead buffer.length tail n]?.toList := by
  induction n generalizing tail with
  | zero => rw [ahead_zero htail, window, window, window, List.append_nil, List.nil_append]
  | succ n ih =>
    rw [window, ih (next_lt htail) (by omega), ahead_next hn, window, List.append_assoc]

/-- A store outside the window. -/
theorem window_set {n j : Nat} (x : α) (htail : tail < buffer.length) (hn : n ≤ buffer.length)
    (hj : ∀ i < n, ahead buffer.length tail i ≠ j) :
    window (buffer.set j x) tail n = window buffer tail n := by
  induction n generalizing tail with
  | zero => rfl
  | succ n ih =>
    have htail_ne : j ≠ tail := by
      have := hj 0 (Nat.succ_pos n)
      rw [ahead_zero htail] at this
      exact this.symm
    rw [window, window, List.getElem?_set_ne htail_ne, List.length_set,
      ih (next_lt htail) (by omega) fun i hi => ?_]
    rw [ahead_next (by omega)]
    exact hj (i + 1) (by omega)

theorem length_pending (htail : tail < buffer.length) :
    (pending buffer head tail).length = count buffer.length head tail :=
  length_window htail

/-- The queue is empty just if the indices meet. -/
theorem pending_eq_nil_iff (htail : tail < buffer.length) :
    pending buffer head tail = [] ↔ head = tail := by
  rw [← List.length_eq_zero_iff, length_pending htail, count]
  split_ifs <;> omega

/-- It is full just if the next item would make them meet. -/
theorem length_pending_eq_iff (hhead : head < buffer.length) (htail : tail < buffer.length) :
    (pending buffer head tail).length + 1 = buffer.length ↔ next buffer.length head = tail := by
  rw [length_pending htail, count, next]
  split_ifs <;> omega

/-- **Storing at `head` adds a last item.** -/
theorem pending_push (x : α) (hhead : head < buffer.length) (htail : tail < buffer.length)
    (hroom : next buffer.length head ≠ tail) :
    pending (buffer.set head x) (next buffer.length head) tail =
      pending buffer head tail ++ [x] := by
  have hcount : count buffer.length (next buffer.length head) tail =
      count buffer.length head tail + 1 := by
    unfold count next at *
    split_ifs at * <;> omega
  have hlt := count_lt hhead htail
  have hset : ∀ i < count buffer.length head tail, ahead buffer.length tail i ≠ head := by
    intro i hi heq
    have := ahead_inj (hi.trans hlt) hlt (heq.trans (ahead_count hhead htail).symm)
    omega
  have hat : ahead buffer.length tail (count buffer.length head tail) = head :=
    ahead_count hhead htail
  unfold pending
  rw [List.length_set, hcount, window_snoc (by rwa [List.length_set]) (by rwa [List.length_set]),
    window_set x htail hlt.le hset, List.length_set, hat, List.getElem?_set_self hhead]
  rfl

/-- **Reading at `tail` takes the first item.** -/
theorem pending_pop (hhead : head < buffer.length) (htail : tail < buffer.length)
    (hsome : head ≠ tail) :
    pending buffer head tail = buffer[tail] :: pending buffer head (next buffer.length tail) := by
  have hcount : count buffer.length head tail =
      count buffer.length head (next buffer.length tail) + 1 := by
    unfold count next at *
    split_ifs at * <;> omega
  unfold pending
  rw [hcount, window, List.getElem?_eq_getElem htail]
  rfl

end RingBuffer
