import DelOs.Memory.Krealloc
import DelOs.Shell.Arguments

/-!
# `kmemmove`

`src/utils/kstdlib/kmemory/kmemmove.c` over the memory: the direction is chosen by comparing the two
addresses, and a pointer that is counted past an end of the address space wraps.

* `moveUp`, `moveDown`, `kmemmove` — the two loops and the function.
* `moveUp_eq_kmemcpyLoop`, `moveDown_eq` — over ranges that do not wrap, the loops are the two
  copies of the library.
* `kmemmove_eq` — **the result is a copy through a temporary, whatever the two ranges share.**
* `kmemmove_writeBytes` — inside one buffer it does what `kmemmove` does to the list of its bytes,
  which is how the command line and the screen are moved.
-/

namespace DelOs.Kmemory

open ByteMem

/-! ## The function -/

/-- `while (n) { *d++ = *s++; n--; }`. -/
def moveUp (m : Mem) (d s : Nat) : Nat → Mem
  | 0 => m
  | n + 1 => moveUp (fun x => if x = d then m s else m x) (u32 (d + 1)) (u32 (s + 1)) n

/-- `while (n) { *d-- = *s--; n--; }`. -/
def moveDown (m : Mem) (d s : Nat) : Nat → Mem
  | 0 => m
  | n + 1 =>
    moveDown (fun x => if x = d then m s else m x) (u32 (d + (2 ^ 32 - 1)))
      (u32 (s + (2 ^ 32 - 1))) n

/-- `kmemmove`: the pointer that it returns, and the memory after it. -/
def kmemmove (m : Mem) (dst src n : Nat) : Nat × Mem :=
  if dst = 0 ∨ src = 0 then (0, m)
  else if src < dst then
    let d := u32 (dst + u32 (n + (2 ^ 32 - 1)))
    let s := u32 (src + u32 (n + (2 ^ 32 - 1)))
    (dst, moveDown m d s n)
  else (dst, moveUp m dst src n)

/-! ## The two loops -/

variable {m : Mem} {dst src n : Nat}

/-- The loop upwards is that of `kmemcpy`. -/
theorem moveUp_eq_kmemcpyLoop (m : Mem) (dst src n : Nat) :
    moveUp m dst src n = (kmemcpyLoop m dst src n).1 := by
  induction n generalizing m dst src with
  | zero => rfl
  | succ n ih => exact ih _ _ _

/-- A pointer above the first address is counted down. -/
theorem u32_pred {p : Nat} (hp : 0 < p) (h : p < 2 ^ 32) : u32 (p + (2 ^ 32 - 1)) = p - 1 := by
  rw [u32]
  omega

/-- From the last byte of a range down, the loop is the copy of the range from behind. -/
theorem moveDown_eq (hdst : 0 < dst) (hsrc : 0 < src) (hd : dst + n < 2 ^ 32)
    (hs : src + n < 2 ^ 32) :
    moveDown m (dst + n) (src + n) (n + 1) = copyBack m dst src (n + 1) := by
  induction n generalizing m with
  | zero => rfl
  | succ n ih =>
    have hd' : u32 (dst + (n + 1) + (2 ^ 32 - 1)) = dst + n := u32_pred (by omega) hd
    have hs' : u32 (src + (n + 1) + (2 ^ 32 - 1)) = src + n := u32_pred (by omega) hs
    rw [moveDown, copyBack, hd', hs']
    exact ih (by omega) (by omega)

/-! ## The move -/

/-- Where the direction of a move is down, it starts at the last bytes. -/
theorem kmemmove_down (hdst : dst ≠ 0) (hsrc : src ≠ 0) (hd : dst + n ≤ 2 ^ 32)
    (hs : src + n ≤ 2 ^ 32) (hlt : src < dst) :
    kmemmove m dst src n = (dst, copyBack m dst src n) := by
  rw [kmemmove, if_neg (not_or.2 ⟨hdst, hsrc⟩), if_pos hlt]
  cases n with
  | zero => rfl
  | succ n =>
    have hn : u32 (n + 1 + (2 ^ 32 - 1)) = n := u32_pred (Nat.succ_pos n) (by omega)
    have hd' : u32 (dst + n) = dst + n := u32_eq (by omega)
    have hs' : u32 (src + n) = src + n := u32_eq (by omega)
    simp only [hn, hd', hs', moveDown_eq (Nat.pos_of_ne_zero hdst) (Nat.pos_of_ne_zero hsrc)
      (show dst + n < 2 ^ 32 by omega) (show src + n < 2 ^ 32 by omega)]

theorem kmemmove_up (hdst : dst ≠ 0) (hsrc : src ≠ 0) (hd : dst + n ≤ 2 ^ 32)
    (hs : src + n ≤ 2 ^ 32) (hle : dst ≤ src) :
    kmemmove m dst src n = (dst, copy m dst src n) := by
  rw [kmemmove, if_neg (not_or.2 ⟨hdst, hsrc⟩), if_neg (Nat.not_lt.2 hle),
    moveUp_eq_kmemcpyLoop, kmemcpyLoop_mem m hd hs]

/-- Each direction runs away from the bytes that are still to be read. -/
theorem kmemmove_eq (hdst : dst ≠ 0) (hsrc : src ≠ 0) (hd : dst + n ≤ 2 ^ 32)
    (hs : src + n ≤ 2 ^ 32) : kmemmove m dst src n = (dst, moved m dst src n) := by
  rcases Nat.lt_or_ge src dst with hlt | hle
  · rw [kmemmove_down hdst hsrc hd hs hlt, copyBack_eq_moved m (Or.inl hlt.le)]
  · rw [kmemmove_up hdst hsrc hd hs hle, copy_eq_moved m (Or.inl hle)]

/-- A null pointer moves nothing. -/
theorem kmemmove_null (h : dst = 0 ∨ src = 0) : kmemmove m dst src n = (0, m) := if_pos h

/-- The bytes at the destination of a copy through a temporary are those that were at the
source. -/
theorem readBytes_moved (m : Mem) (d a n : Nat) :
    readBytes (moved m d a n) d n = readBytes m a n := by
  have h := readBytes_writeBytes m d (readBytes m a n)
  rwa [length_readBytes] at h

/-- **`kmemmove` is a copy through a temporary**, for any two ranges of bytes that do not wrap and
do not begin at the null pointer; with a null pointer it does nothing. -/
theorem kmemmove_moves (m : Mem) {dst src n : Nat} (hd : dst + n ≤ 2 ^ 32) (hs : src + n ≤ 2 ^ 32) :
    (dst ≠ 0 → src ≠ 0 →
      kmemmove m dst src n = (dst, moved m dst src n) ∧
      readBytes (kmemmove m dst src n).2 dst n = readBytes m src n ∧
      ∀ x, x < dst ∨ dst + n ≤ x → (kmemmove m dst src n).2 x = m x) ∧
    (dst = 0 ∨ src = 0 → kmemmove m dst src n = (0, m)) := by
  refine ⟨fun hdst hsrc => ?_, kmemmove_null⟩
  rw [kmemmove_eq hdst hsrc hd hs]
  refine ⟨rfl, readBytes_moved m dst src n, fun x hx => ?_⟩
  exact writeBytes_of_outside m (by rwa [length_readBytes])

/-- Four bytes onto the three last of them and the one behind. -/
theorem kmemmove_moves_overlapping :
    kmemmove (fun x => UInt8.ofNat x) 101 100 4 =
        (101, moved (fun x => UInt8.ofNat x) 101 100 4) ∧
      readBytes (kmemmove (fun x => UInt8.ofNat x) 101 100 4).2 101 4 = [100, 101, 102, 103] := by
  have h := (kmemmove_moves (fun x => UInt8.ofNat x) (show 101 + 4 ≤ 2 ^ 32 by omega)
    (show 100 + 4 ≤ 2 ^ 32 by omega)).1 (by omega) (by omega)
  exact ⟨h.1, h.2.1.trans rfl⟩

/-- The null pointer is an address too, but nothing is moved to it. -/
theorem kmemmove_to_null :
    ¬ ∀ (m : Mem) (dst src n : Nat), dst + n ≤ 2 ^ 32 → src + n ≤ 2 ^ 32 →
      readBytes (kmemmove m dst src n).2 dst n = readBytes m src n ∧
      ∀ x, x < dst ∨ dst + n ≤ x → (kmemmove m dst src n).2 x = m x := by
  intro h
  have hmoved := (h (fun x => UInt8.ofNat x) 0 1 1 (by omega) (by omega)).1
  revert hmoved
  decide

/-! ## A move inside a buffer -/

/-- Storing a byte into a buffer in memory. -/
theorem writeBytes_set (m : Mem) (base : Nat) {i : Nat} {buffer : List UInt8}
    (hi : i < buffer.length) (c : UInt8) :
    writeBytes m base (buffer.set i c) =
      fun x => if x = base + i then c else writeBytes m base buffer x := by
  funext x
  simp only [writeBytes]
  by_cases hx : base ≤ x
  · rw [if_pos hx, if_pos hx]
    by_cases hat : x = base + i
    · rw [if_pos hat, hat, Nat.add_sub_cancel_left, List.getElem?_set_self hi, Option.getD_some]
    · rw [if_neg hat, List.getElem?_set_ne (by omega)]
  · rw [if_neg hx, if_neg hx, if_neg (by omega)]

/-- The next byte of a buffer in memory. -/
theorem writeBytes_of_getElem? (m : Mem) (base : Nat) {i : Nat} {buffer : List UInt8} {c : UInt8}
    (h : buffer[i]? = some c) : writeBytes m base buffer (base + i) = c := by
  rw [writeBytes, if_pos (Nat.le_add_right base i), Nat.add_sub_cancel_left, h, Option.getD_some]

theorem copy_writeBytes (m : Mem) (base : Nat) {d s : Nat} {buffer after : List UInt8}
    (h : Shell.copyUp n d s buffer = some after) :
    copy (writeBytes m base buffer) (base + d) (base + s) n = writeBytes m base after := by
  induction n generalizing d s buffer with
  | zero => rw [copy, Option.some.inj h]
  | succ n ih =>
    rw [Shell.copyUp] at h
    split at h
    · cases h
    · rename_i c hc
      split_ifs at h with hd
      rw [copy, writeBytes_of_getElem? m base hc, ← writeBytes_set m base hd]
      exact ih h

theorem copyBack_writeBytes (m : Mem) (base : Nat) {d s : Nat} {buffer after : List UInt8}
    (h : Shell.copyDown n d s buffer = some after) :
    copyBack (writeBytes m base buffer) (base + d) (base + s) n = writeBytes m base after := by
  induction n generalizing buffer with
  | zero => rw [copyBack, Option.some.inj h]
  | succ n ih =>
    rw [Shell.copyDown] at h
    split at h
    · cases h
    · rename_i c hc
      split_ifs at h with hd
      rw [copyBack, Nat.add_assoc, Nat.add_assoc, writeBytes_of_getElem? m base hc,
        ← writeBytes_set m base hd]
      exact ih h

/-- **A move between two places of a buffer in memory is the move in the list of its bytes.** -/
theorem kmemmove_writeBytes (m : Mem) {base dst src n : Nat} {buffer after : List UInt8}
    (hbase : base ≠ 0) (hend : base + buffer.length ≤ 2 ^ 32) (hd : dst + n ≤ buffer.length)
    (hs : src + n ≤ buffer.length) (h : Shell.kmemmove buffer dst src n = some after) :
    kmemmove (writeBytes m base buffer) (base + dst) (base + src) n =
      (base + dst, writeBytes m base after) := by
  have hdst : base + dst ≠ 0 := by omega
  have hsrc : base + src ≠ 0 := by omega
  rw [Shell.kmemmove] at h
  split_ifs at h with hlt
  · rw [kmemmove_down hdst hsrc (by omega) (by omega) (by omega), copyBack_writeBytes m base h]
  · rw [kmemmove_up hdst hsrc (by omega) (by omega) (by omega), copy_writeBytes m base h]

end DelOs.Kmemory
