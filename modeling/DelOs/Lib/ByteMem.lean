import Mathlib.Tactic

/-!
# Byte-addressed memory

A memory gives a byte for every address; 32-bit words are read and written in little-endian
order.  The file has what programs over such a memory need:

* `read32`, `write32` — the word operations, with the read-over-write laws
  (`read32_write32_same`, `read32_write32_of_disjoint`).
* `fill` — the byte loop of a memory set: what it writes (`fill_apply`).
* `readBytes`, `writeBytes` — runs of bytes; `moved` is a copy through a temporary.
* `copy` — the byte loop of a memory copy; between ranges that do not overlap it copies
  (`copy_apply`, `read32_copy`).
* `copyBack` — the same loop from the last byte down.  **Each of the two is a move if it runs away
  from the bytes that it still has to read** (`copy_eq_moved`, `copyBack_eq_moved`).
-/

namespace ByteMem

/-- A byte for every address. -/
abbrev Mem := Nat → UInt8

/-! ## Words -/

/-- The little-endian word at `a`. -/
def read32 (m : Mem) (a : Nat) : Nat :=
  (m a).toNat + 256 * (m (a + 1)).toNat + 65536 * (m (a + 2)).toNat +
    16777216 * (m (a + 3)).toNat

/-- Store the word `v` at `a`. -/
def write32 (m : Mem) (a v : Nat) : Mem := fun x =>
  if x = a then UInt8.ofNat v
  else if x = a + 1 then UInt8.ofNat (v / 256)
  else if x = a + 2 then UInt8.ofNat (v / 65536)
  else if x = a + 3 then UInt8.ofNat (v / 16777216)
  else m x

theorem write32_of_outside (m : Mem) {a v x : Nat} (h : x < a ∨ a + 4 ≤ x) :
    write32 m a v x = m x := by
  unfold write32
  split_ifs <;> first | omega | rfl

/-- Words with the same four bytes are equal. -/
theorem read32_congr {m m' : Mem} {a : Nat} (h : ∀ x, a ≤ x → x < a + 4 → m' x = m x) :
    read32 m' a = read32 m a := by
  simp only [read32, h a (by omega) (by omega), h (a + 1) (by omega) (by omega),
    h (a + 2) (by omega) (by omega), h (a + 3) (by omega) (by omega)]

theorem read32_write32_of_disjoint (m : Mem) {a b v : Nat} (h : b + 4 ≤ a ∨ a + 4 ≤ b) :
    read32 (write32 m a v) b = read32 m b :=
  read32_congr fun x _ _ => write32_of_outside m (by omega)

/-- Reading back the word just written. -/
theorem read32_write32_same (m : Mem) {a v : Nat} (hv : v < 2 ^ 32) :
    read32 (write32 m a v) a = v := by
  have h0 : write32 m a v a = UInt8.ofNat v := by simp [write32]
  have h1 : write32 m a v (a + 1) = UInt8.ofNat (v / 256) := by simp [write32]
  have h2 : write32 m a v (a + 2) = UInt8.ofNat (v / 65536) := by simp [write32]
  have h3 : write32 m a v (a + 3) = UInt8.ofNat (v / 16777216) := by simp [write32]
  simp only [read32, h0, h1, h2, h3, UInt8.toNat_ofNat']
  omega

theorem read32_lt (m : Mem) (a : Nat) : read32 m a < 2 ^ 32 := by
  have h0 := (m a).toNat_lt
  have h1 := (m (a + 1)).toNat_lt
  have h2 := (m (a + 2)).toNat_lt
  have h3 := (m (a + 3)).toNat_lt
  simp only [read32]
  omega

/-! ## Setting a range -/

/-- Store the byte `b` at `a`, `a + 1`, ..., `a + n - 1`, in this order. -/
def fill (m : Mem) (a : Nat) (b : UInt8) : Nat → Mem
  | 0 => m
  | n + 1 => fill (fun x => if x = a then b else m x) (a + 1) b n

theorem fill_apply (m : Mem) (a : Nat) (b : UInt8) (n x : Nat) :
    fill m a b n x = if a ≤ x ∧ x < a + n then b else m x := by
  induction n generalizing m a with
  | zero => simp [fill, show ¬(a ≤ x ∧ x < a) by omega]
  | succ n ih =>
    rw [fill, ih]
    by_cases hin : a + 1 ≤ x ∧ x < a + 1 + n
    · rw [if_pos hin, if_pos (by omega)]
    · rw [if_neg hin]
      by_cases hx : x = a
      · rw [if_pos hx, if_pos (by omega)]
      · rw [if_neg hx, if_neg (by omega)]

theorem fill_of_outside (m : Mem) {a : Nat} {b : UInt8} {n x : Nat} (h : x < a ∨ a + n ≤ x) :
    fill m a b n x = m x := by
  rw [fill_apply, if_neg (by omega)]

/-! ## Runs of bytes -/

/-- The bytes at `a`, `a + 1`, ..., `a + n - 1`. -/
def readBytes (m : Mem) (a n : Nat) : List UInt8 := (List.range n).map fun i => m (a + i)

/-- Store some bytes at `a` and behind it. -/
def writeBytes (m : Mem) (a : Nat) (bs : List UInt8) : Mem := fun x =>
  if a ≤ x then bs[x - a]?.getD (m x) else m x

@[simp] theorem length_readBytes (m : Mem) (a n : Nat) : (readBytes m a n).length = n := by
  rw [readBytes, List.length_map, List.length_range]

theorem getElem?_readBytes (m : Mem) {a n i : Nat} (h : i < n) :
    (readBytes m a n)[i]? = some (m (a + i)) := by
  simp [readBytes, h]

theorem writeBytes_of_outside (m : Mem) {a x : Nat} {bs : List UInt8}
    (h : x < a ∨ a + bs.length ≤ x) : writeBytes m a bs x = m x := by
  unfold writeBytes
  split_ifs with hle
  · rw [List.getElem?_eq_none (by omega), Option.getD_none]
  · rfl

theorem writeBytes_of_inside (m : Mem) {a i : Nat} {bs : List UInt8} (h : i < bs.length) :
    writeBytes m a bs (a + i) = bs[i] := by
  rw [writeBytes, if_pos (Nat.le_add_right a i), Nat.add_sub_cancel_left,
    List.getElem?_eq_getElem h, Option.getD_some]

/-- The bytes that were stored are read back. -/
theorem readBytes_writeBytes (m : Mem) (a : Nat) (bs : List UInt8) :
    readBytes (writeBytes m a bs) a bs.length = bs := by
  refine List.ext_getElem (length_readBytes _ _ _) fun i h h' => ?_
  simp only [readBytes, List.getElem_map, List.getElem_range, writeBytes_of_inside m h']

theorem writeBytes_nil (m : Mem) (a : Nat) : writeBytes m a [] = m :=
  funext fun x => writeBytes_of_outside m (by simp only [List.length_nil]; omega)

/-- The first byte is stored, and then the others. -/
theorem writeBytes_cons (m : Mem) (a : Nat) (b : UInt8) (bs : List UInt8) :
    writeBytes m a (b :: bs) = writeBytes (fun x => if x = a then b else m x) (a + 1) bs := by
  funext x
  simp only [writeBytes]
  rcases lt_trichotomy x a with hx | rfl | hx
  · rw [if_neg (by omega), if_neg (by omega), if_neg (by omega)]
  · simp
  · have hi : x - a = x - (a + 1) + 1 := by omega
    rw [if_pos (by omega), if_pos (by omega), if_neg (by omega), hi, List.getElem?_cons_succ]

/-- **A copy through a temporary**: `n` bytes from `a` on are read before any is stored at `d`. -/
def moved (m : Mem) (d a n : Nat) : Mem := writeBytes m d (readBytes m a n)

theorem moved_apply (m : Mem) (d a n x : Nat) :
    moved m d a n x = if d ≤ x ∧ x < d + n then m (a + (x - d)) else m x := by
  by_cases hin : d ≤ x ∧ x < d + n
  · rw [if_pos hin, moved, writeBytes, if_pos hin.1, getElem?_readBytes m (by omega),
      Option.getD_some]
  · rw [if_neg hin, moved, writeBytes_of_outside m (by rw [length_readBytes]; omega)]

/-! ## Copying a range -/

/-- Copy the bytes at `a`, `a + 1`, ..., `a + n - 1` to `d`, in this order. -/
def copy (m : Mem) (d a : Nat) : Nat → Mem
  | 0 => m
  | n + 1 => copy (fun x => if x = d then m a else m x) (d + 1) (a + 1) n

/-- **Copying upwards moves the bytes** to a place that is not behind them, or behind all of
them. -/
theorem copy_eq_moved (m : Mem) {d a n : Nat} (h : d ≤ a ∨ a + n ≤ d) :
    copy m d a n = moved m d a n := by
  induction n generalizing m d a with
  | zero =>
    funext x
    rw [moved_apply, if_neg (by omega), copy]
  | succ n ih =>
    funext x
    rw [copy, ih _ (by omega), moved_apply, moved_apply]
    rcases lt_trichotomy x d with hx | rfl | hx
    · rw [if_neg (by omega), if_neg (by omega), if_neg (by omega)]
    · rw [if_neg (by omega), if_pos rfl, if_pos (by omega), Nat.sub_self, Nat.add_zero]
    · by_cases hin : x < d + (n + 1)
      · have hat : a + 1 + (x - (d + 1)) = a + (x - d) := by omega
        rw [if_pos (by omega), hat, if_neg (by omega), if_pos (by omega)]
      · rw [if_neg (by omega), if_neg (by omega), if_neg (by omega)]

theorem copy_apply (m : Mem) {d a n : Nat} (x : Nat) (h : d + n ≤ a ∨ a + n ≤ d) :
    copy m d a n x = if d ≤ x ∧ x < d + n then m (a + (x - d)) else m x := by
  rw [copy_eq_moved m (by omega), moved_apply]

theorem copy_of_outside (m : Mem) {d a n x : Nat} (h : d + n ≤ a ∨ a + n ≤ d)
    (hx : x < d ∨ d + n ≤ x) : copy m d a n x = m x := by
  rw [copy_apply m x h, if_neg (by omega)]

/-- The words of the copy are those of the original. -/
theorem read32_copy (m : Mem) {d a n i : Nat} (h : d + n ≤ a ∨ a + n ≤ d) (hi : i + 4 ≤ n) :
    read32 (copy m d a n) (d + i) = read32 m (a + i) := by
  have hbyte : ∀ j, j < 4 → copy m d a n (d + i + j) = m (a + i + j) := by
    intro j hj
    rw [copy_apply m _ h, if_pos (by omega)]
    congr 1
    omega
  have h0 := hbyte 0 (by decide)
  simp only [Nat.add_zero] at h0
  simp only [read32, h0, hbyte 1 (by decide), hbyte 2 (by decide), hbyte 3 (by decide)]

/-- Copy the bytes at `a + n - 1`, ..., `a + 1`, `a` to `d`, in this order. -/
def copyBack (m : Mem) (d a : Nat) : Nat → Mem
  | 0 => m
  | n + 1 => copyBack (fun x => if x = d + n then m (a + n) else m x) d a n

/-- **Copying downwards moves the bytes** to a place that is not in front of them, or in front of
all of them. -/
theorem copyBack_eq_moved (m : Mem) {d a n : Nat} (h : a ≤ d ∨ d + n ≤ a) :
    copyBack m d a n = moved m d a n := by
  induction n generalizing m with
  | zero =>
    funext x
    rw [moved_apply, if_neg (by omega), copyBack]
  | succ n ih =>
    funext x
    rw [copyBack, ih _ (by omega), moved_apply, moved_apply]
    rcases lt_trichotomy x (d + n) with hx | rfl | hx
    · by_cases hin : d ≤ x
      · rw [if_pos (by omega), if_neg (by omega), if_pos (by omega)]
      · rw [if_neg (by omega), if_neg (by omega), if_neg (by omega)]
    · rw [if_neg (by omega), if_pos rfl, if_pos (by omega), Nat.add_sub_cancel_left]
    · rw [if_neg (by omega), if_neg (by omega), if_neg (by omega)]

end ByteMem
