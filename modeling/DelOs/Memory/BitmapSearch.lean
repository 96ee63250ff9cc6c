import DelOs.Memory.Pmm

/-!
# First fit on the page bitmap

The two searches of `src/kernel/memory/pmm/pmm_bitmap.c`, with the widths of their variables.

* `kbyteHasFreeBit`, `Pmm.kpmmBitmapGetNext`, `Pmm.kpmmBitmapGetNContinuous` — the functions of
  those names; `none` is a kernel panic.
* `kpmmBitmapGetNContinuous_eq`, `kpmmBitmapGetNext_eq` — below `2 ^ 31` bits nothing wraps, and
  both are searches over the flags.
* `Pmm.ClearRun` — bits of the bitmap that exist and are clear, told from its bytes.
* `bitmap_first_fit` — **the least such run is found, and a panic means that there is none.**

As in `DelOs.Memory.Pmm` the bitmap is allocated; without one both functions panic.
-/

namespace DelOs

open FlagRuns

/-! ## The searches -/

/-- The loop of `kbyte_has_free_bit` over the bits `i`, ..., 7, `left` of them. -/
def freeBitFrom (byte : BitVec 8) : Nat → Nat → Int
  | 0, _ => -1
  | left + 1, i => if bitClear byte i then i else freeBitFrom byte left (i + 1)

/-- `kbyte_has_free_bit`. -/
def kbyteHasFreeBit (byte : BitVec 8) : Int := freeBitFrom byte 8 0

/-- The loop of `kpmm_bitmap_get_next` from byte `i` on. -/
def nextFrom : List (BitVec 8) → Nat → Option Nat
  | [], _ => none
  | byte :: bytes, i =>
    let bitTmp := kbyteHasFreeBit byte
    if 0 ≤ bitTmp then some (u32 (i * 8 + bitTmp.toNat)) else nextFrom bytes (i + 1)

/-- The inner loop of `kpmm_bitmap_get_n_continuous`: `bit_tmp` is the 32 bits of an `int32_t`, and
`current_continous` a `uint32_t`. -/
def continuousBits (byte : BitVec 8) (i n : Nat) : Nat → Nat → Nat → Nat → Scan
  | 0, _, bitTmp, currentContinous => .more bitTmp currentContinous
  | left + 1, j, bitTmp, currentContinous =>
    if bitClear byte j then
      let bitTmp := if currentContinous = 0 then u32 (i * 8 + j) else bitTmp
      let currentContinous := u32 (currentContinous + 1)
      if n ≤ currentContinous then .found bitTmp
      else continuousBits byte i n left (j + 1) bitTmp currentContinous
    else continuousBits byte i n left (j + 1) bitTmp 0

/-- An `int32_t` as a `uint64_t`. -/
def signExtended (bits : Nat) : Nat := if bits < 2 ^ 31 then bits else bits + (2 ^ 64 - 2 ^ 32)

/-- The outer loop, from byte `i` on. -/
def continuousFrom (n : Nat) : List (BitVec 8) → Nat → Nat → Nat → Option Nat
  | [], _, _, _ => none
  | byte :: bytes, i, bitTmp, currentContinous =>
    match continuousBits byte i n 8 0 bitTmp currentContinous with
    | .found bitTmp => some (signExtended bitTmp)
    | .more bitTmp currentContinous => continuousFrom n bytes (i + 1) bitTmp currentContinous

namespace Pmm

/-- `kpmm_bitmap_get_next`. -/
def kpmmBitmapGetNext (s : Pmm) : Option Nat := nextFrom s.kpmmBitmap 0

/-- `kpmm_bitmap_get_n_continuous`. -/
def kpmmBitmapGetNContinuous (s : Pmm) (n : Nat) : Option Nat :=
  continuousFrom n s.kpmmBitmap 0 0 0

/-- Bit `k` of the bitmap exists and is clear. -/
def ClearBit (s : Pmm) (k : Nat) : Prop :=
  s.kpmmBitmap[k / 8]?.map (fun byte => byte.getLsbD (k % 8)) = some false

/-- The `n` bits from bit `start` on exist and are clear. -/
def ClearRun (s : Pmm) (n start : Nat) : Prop := ∀ i < n, s.ClearBit (start + i)

end Pmm

/-! ## Nothing wraps -/

/-- The run is not longer than the bits that have been looked at. -/
theorem scanByte_more {byte : BitVec 8} {i n left j t c t' c' : Nat}
    (h : scanByte byte i n left j t c = .more t' c') (hc : c ≤ i * 8 + j) :
    c' ≤ i * 8 + j + left := by
  induction left generalizing j t c with
  | zero =>
    cases h
    exact hc
  | succ left ih =>
    rw [scanByte] at h
    by_cases hclear : bitClear byte j
    · rw [if_pos hclear] at h
      by_cases hn : n ≤ c + 1
      · simp only [if_pos hn] at h
        cases h
      · simp only [if_neg hn] at h
        have := ih h (by omega)
        omega
    · rw [if_neg hclear] at h
      have := ih h (Nat.zero_le _)
      omega

theorem continuousBits_eq (byte : BitVec 8) (n : Nat) {i left j t c : Nat}
    (hend : i * 8 + j + left ≤ 2 ^ 31) (hc : c ≤ i * 8 + j) :
    continuousBits byte i n left j t c = scanByte byte i n left j t c := by
  induction left generalizing j t c with
  | zero => rfl
  | succ left ih =>
    have hat : u32 (i * 8 + j) = i * 8 + j := u32_eq (by omega)
    have hcount : u32 (c + 1) = c + 1 := u32_eq (by omega)
    have hclear : ∀ t, continuousBits byte i n left (j + 1) t (c + 1) =
        scanByte byte i n left (j + 1) t (c + 1) := fun t => ih (by omega) (by omega)
    have hused : continuousBits byte i n left (j + 1) t 0 = scanByte byte i n left (j + 1) t 0 :=
      ih (by omega) (Nat.zero_le _)
    rw [continuousBits, scanByte, hat, hcount, hused]
    simp only [hclear]

theorem continuousFrom_eq (n : Nat) {bytes : List (BitVec 8)} {i t c : Nat}
    (hend : 8 * (i + bytes.length) ≤ 2 ^ 31) (hc : c ≤ i * 8) :
    continuousFrom n bytes i t c = (scanBytes n bytes i t c).map signExtended := by
  induction bytes generalizing i t c with
  | nil => rfl
  | cons byte bytes ih =>
    rw [List.length_cons] at hend
    rw [continuousFrom, scanBytes, continuousBits_eq byte n (by omega) hc]
    cases hscan : scanByte byte i n 8 0 t c with
    | found s => rfl
    | more t' c' =>
      have := scanByte_more hscan hc
      exact ih (by omega) (by omega)

variable {s : Pmm} {n : Nat}

/-- **Below `2 ^ 31` bits the widths do not matter.** -/
theorem kpmmBitmapGetNContinuous_eq (hlen : 8 * s.kpmmBitmap.length < 2 ^ 31) (hn : 0 < n) :
    s.kpmmBitmapGetNContinuous n = search n s.flags 0 0 0 := by
  have hsearch : scanBytes n s.kpmmBitmap 0 0 0 = search n s.flags 0 0 0 :=
    getNContinuous_eq_search s n
  rw [Pmm.kpmmBitmapGetNContinuous, continuousFrom_eq n (by omega) (Nat.zero_le _), hsearch]
  cases hres : search n s.flags 0 0 0 with
  | none => rfl
  | some start =>
    have hend := ((search_eq_some hn).1 hres).1.le_length hn
    rw [Pmm.length_flags] at hend
    rw [Option.map_some, signExtended, if_pos (by omega)]

/-- `kbyte_has_free_bit` stops the search for a single page in its byte, or lets it go on. -/
theorem search_freeBitFrom (byte : BitVec 8) (rest : List Bool) (i left j t : Nat) :
    search 1 ((List.range' j left).map (bitClear byte) ++ rest) (i * 8 + j) t 0 =
      if 0 ≤ freeBitFrom byte left j then some (i * 8 + (freeBitFrom byte left j).toNat)
      else search 1 rest (i * 8 + j + left) t 0 := by
  induction left generalizing j with
  | zero => rfl
  | succ left ih =>
    rw [List.range'_succ, List.map_cons, List.cons_append, freeBitFrom]
    cases hbit : bitClear byte j with
    | true => simp [search]
    | false =>
      rw [search, Nat.add_assoc, ih (j + 1), if_neg Bool.false_ne_true,
        show i * 8 + (j + 1) + left = i * 8 + j + (left + 1) by omega]

/-- A free bit is one of the byte. -/
theorem freeBitFrom_lt (byte : BitVec 8) (left i : Nat) :
    freeBitFrom byte left i < i + left := by
  induction left generalizing i with
  | zero =>
    rw [freeBitFrom]
    omega
  | succ left ih =>
    rw [freeBitFrom]
    have := ih (i + 1)
    split_ifs <;> push_cast at * <;> omega

theorem nextFrom_eq {bytes : List (BitVec 8)} {i t : Nat}
    (hend : 8 * (i + bytes.length) ≤ 2 ^ 31) :
    nextFrom bytes i = search 1 (clearBits bytes) (i * 8) t 0 := by
  induction bytes generalizing i with
  | nil => rfl
  | cons byte bytes ih =>
    rw [List.length_cons] at hend
    have hlt := freeBitFrom_lt byte 8 0
    have hwide : u32 (i * 8 + (kbyteHasFreeBit byte).toNat) =
        i * 8 + (kbyteHasFreeBit byte).toNat := by
      refine u32_eq ?_
      rw [kbyteHasFreeBit]
      omega
    have hbyte := search_freeBitFrom byte (clearBits bytes) i 8 0 t
    have hrest : i * 8 + 0 + 8 = (i + 1) * 8 := by omega
    rw [hrest] at hbyte
    rw [nextFrom, hwide, ih (by omega)]
    exact hbyte.symm

/-- The search for the next free page is the one for a run of length one. -/
theorem kpmmBitmapGetNext_eq (hlen : 8 * s.kpmmBitmap.length < 2 ^ 31) :
    s.kpmmBitmapGetNext = search 1 s.flags 0 0 0 := by
  have := @nextFrom_eq s.kpmmBitmap 0 0 (by omega)
  rwa [Nat.zero_mul] at this

/-! ## First fit -/

theorem getElem?_clearBits (bytes : List (BitVec 8)) (k : Nat) :
    (clearBits bytes)[k]? = bytes[k / 8]?.map fun byte => !byte.getLsbD (k % 8) := by
  induction bytes generalizing k with
  | nil => rfl
  | cons byte bytes ih =>
    rw [clearBits]
    by_cases hk : k < 8
    · rw [List.getElem?_append_left (by rwa [length_byteClearBits]), getElem?_byteClearBits _ hk,
        Nat.div_eq_of_lt hk, Nat.mod_eq_of_lt hk]
      rfl
    · have hdiv : k / 8 = (k - 8) / 8 + 1 := by omega
      have hmod : k % 8 = (k - 8) % 8 := by omega
      rw [List.getElem?_append_right (by rw [length_byteClearBits]; omega), length_byteClearBits,
        ih, hdiv, hmod, List.getElem?_cons_succ]

/-- The flags tell the bits. -/
theorem clearBit_iff (s : Pmm) (k : Nat) : s.ClearBit k ↔ s.flags[k]? = some true := by
  rw [Pmm.flags, getElem?_clearBits, Pmm.ClearBit]
  cases s.kpmmBitmap[k / 8]? with
  | none => simp
  | some byte => simp

theorem clearRun_iff (s : Pmm) (n start : Nat) : s.ClearRun n start ↔ FreeRun n s.flags start :=
  forall₂_congr fun i _ => clearBit_iff s (start + i)

/-- The first run is the least one. -/
theorem isFirstRun_iff_isLeast (s : Pmm) (n start : Nat) :
    IsFirstRun n s.flags start ↔ IsLeast {a | s.ClearRun n a} start := by
  constructor
  · intro h
    refine ⟨(clearRun_iff s n start).2 h.1, fun a ha => ?_⟩
    exact le_of_not_gt fun hlt => h.2 a hlt ((clearRun_iff s n a).1 ha)
  · intro h
    refine ⟨(clearRun_iff s n start).1 h.1, fun a hlt hrun => ?_⟩
    exact absurd (h.2 ((clearRun_iff s n a).2 hrun)) hlt.not_ge

/-- **First fit.**  `kpmm_bitmap_get_n_continuous` returns the least bit from which on there are
`n` clear ones, and panics exactly if there is no such bit; for a single one it agrees with
`kpmm_bitmap_get_next`. -/
theorem bitmap_first_fit (s : Pmm) (n : Nat) (hlen : 8 * s.kpmmBitmap.length < 2 ^ 31)
    (hn : 1 ≤ n) :
    (∀ start, s.kpmmBitmapGetNContinuous n = some start ↔
      IsLeast {a | s.ClearRun n a} start) ∧
    (s.kpmmBitmapGetNContinuous n = none ↔ ∀ a, ¬ s.ClearRun n a) ∧
    s.kpmmBitmapGetNContinuous 1 = s.kpmmBitmapGetNext := by
  rw [kpmmBitmapGetNContinuous_eq hlen hn, kpmmBitmapGetNContinuous_eq hlen Nat.one_pos,
    kpmmBitmapGetNext_eq hlen]
  refine ⟨fun start => ?_, ?_, rfl⟩
  · rw [search_eq_some hn]
    exact isFirstRun_iff_isLeast s n start
  · rw [search_eq_none hn]
    exact forall_congr' fun a => not_congr (clearRun_iff s n a).symm

/-- Two pages on both sides of a byte boundary. -/
theorem bitmap_first_fit_across :
    IsLeast {a | (⟨[0x7F#8, 0xFE#8], 2⟩ : Pmm).ClearRun 2 a} 7 :=
  ((bitmap_first_fit ⟨[0x7F#8, 0xFE#8], 2⟩ 2 (by decide) (by decide)).1 7).1 (by decide +kernel)

end DelOs
