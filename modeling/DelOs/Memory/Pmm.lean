import DelOs.Lib.FlagRuns
import DelOs.Memory.Kmalloc

/-!
# The physical page bitmap

The physical memory manager of `src/kernel/memory/pmm`: one bit for each page, set while the
page is used, and a counter of the free pages.  `kpmm_alloc_pages` takes the first run of
enough clear bits, `kpmm_free_pages` clears a range.

* `Pmm` — the bitmap and the counter.
* `Pmm.getNContinuous`, `Pmm.setValue`, `Pmm.allocPages`, `Pmm.freePages` —
  `kpmm_bitmap_get_n_continuous`, `kpmm_bitmap_set_value`, `kpmm_alloc_pages`,
  `kpmm_free_pages`; `none` is a kernel panic.
* `clearBits` — the bitmap as a list of flags, `true` for a free page.
* `getNContinuous_eq_search`, `setValue_clearBits` — **the byte loops are the operations on
  that list**.
* `allocPages_run`, `allocPages_cases` — everything an allocation can do.
* `allocPages_exhausted` — **what it does when no run is long enough**.

The bitmap is allocated (`kpmm_bitmap` is not null) and its length is
`kpmm_bitmap_bytes_amout`.
-/

namespace DelOs

open FlagRuns

/-! ## The bitmap -/

/-- `kpmm_bitmap` and `kpmm_free_pages_amount`. -/
structure Pmm where
  kpmmBitmap : List (BitVec 8)
  kpmmFreePagesAmount : Nat
  deriving DecidableEq

/-- `KPMM_PAGE_SIZE`. -/
def kpmmPageSize : Nat := 4096

/-- The bit `1 << j` of a byte is clear. -/
def bitClear (byte : BitVec 8) (j : Nat) : Bool := byte &&& (1#8 <<< j) = 0#8

/-- Where the search stands: found, or the two variables it carries on with. -/
inductive Scan where
  | found (bitTmp : Nat)
  | more (bitTmp currentContinous : Nat)
  deriving DecidableEq, Repr

/-- The inner loop of `kpmm_bitmap_get_n_continuous` over the bits `j`, ..., 7 of byte `i`,
`left` of them. -/
def scanByte (byte : BitVec 8) (i n : Nat) : Nat → Nat → Nat → Nat → Scan
  | 0, _, bitTmp, currentContinous => .more bitTmp currentContinous
  | left + 1, j, bitTmp, currentContinous =>
      if bitClear byte j then
        let bitTmp := if currentContinous = 0 then i * 8 + j else bitTmp
        if n ≤ currentContinous + 1 then .found bitTmp
        else scanByte byte i n left (j + 1) bitTmp (currentContinous + 1)
      else scanByte byte i n left (j + 1) bitTmp 0

/-- The outer loop, over the bytes from byte `i` on; past the last one it panics. -/
def scanBytes (n : Nat) : List (BitVec 8) → Nat → Nat → Nat → Option Nat
  | [], _, _, _ => none
  | byte :: bytes, i, bitTmp, currentContinous =>
      match scanByte byte i n 8 0 bitTmp currentContinous with
      | .found bitTmp => some bitTmp
      | .more bitTmp currentContinous => scanBytes n bytes (i + 1) bitTmp currentContinous

namespace Pmm

/-- `kpmm_bitmap_get_n_continuous`. -/
def getNContinuous (s : Pmm) (n : Nat) : Option Nat := scanBytes n s.kpmmBitmap 0 0 0

/-- `kpmm_bitmap_get_page_addr`: the address is cut to 32 bits. -/
def getPageAddr (bitmapBitI : Nat) : Nat := u32 (bitmapBitI * kpmmPageSize)

/-- `kpmm_bitmap_set_value`. -/
def setValue (s : Pmm) (bitmapBitI : Nat) (beingUsed : Bool) : Option Pmm :=
  let byteI := u32 (bitmapBitI / 8)
  let bitI := bitmapBitI % 8
  if s.kpmmBitmap.length ≤ byteI then none
  else some { s with kpmmBitmap := s.kpmmBitmap.modify byteI fun byte =>
    if beingUsed then byte ||| (1#8 <<< bitI) else byte &&& ~~~(1#8 <<< bitI) }

/-- The loop of `kpmm_alloc_pages`: mark `count` pages from `start` on, and count each. -/
def markPages (s : Pmm) (start : Nat) : Nat → Option Pmm
  | 0 => some s
  | count + 1 => do
      let s ← s.setValue start true
      markPages { s with kpmmFreePagesAmount := u32 (s.kpmmFreePagesAmount + (2 ^ 32 - 1)) }
        (start + 1) count

/-- The loop of `kpmm_free_pages`. -/
def clearPages (s : Pmm) (start : Nat) : Nat → Option Pmm
  | 0 => some s
  | count + 1 => do
      let s ← s.setValue start false
      clearPages { s with kpmmFreePagesAmount := u32 (s.kpmmFreePagesAmount + 1) }
        (start + 1) count

/-- `kpmm_alloc_pages`. -/
def allocPages (s : Pmm) (pageCount : Nat) : Option (Nat × Pmm) :=
  if pageCount = 0 ∨ s.kpmmFreePagesAmount = 0 then some (0, s)
  else do
    let bitmapStart ← s.getNContinuous pageCount
    let s ← s.markPages bitmapStart pageCount
    return (getPageAddr bitmapStart, s)

/-- `kpmm_free_pages`. -/
def freePages (s : Pmm) (pagePtr pageCount : Nat) : Option (Bool × Pmm) :=
  if pageCount = 0 then some (false, s)
  else do
    let s ← s.clearPages (pagePtr / kpmmPageSize) pageCount
    return (true, s)

end Pmm

/-! ## The bitmap as a list of flags -/

/-- The flags of the eight pages of a byte, `true` for a free page. -/
def byteClearBits (byte : BitVec 8) : List Bool := (List.range' 0 8).map (bitClear byte)

/-- The flags of all pages. -/
def clearBits : List (BitVec 8) → List Bool
  | [] => []
  | byte :: bytes => byteClearBits byte ++ clearBits bytes

@[simp] theorem length_byteClearBits (byte : BitVec 8) : (byteClearBits byte).length = 8 := by
  simp [byteClearBits]

@[simp] theorem length_clearBits (bytes : List (BitVec 8)) :
    (clearBits bytes).length = 8 * bytes.length := by
  induction bytes with
  | nil => rfl
  | cons byte bytes ih =>
    simp only [clearBits, List.length_append, length_byteClearBits, ih, List.length_cons]
    omega

/-- The inner loop runs the search over the bits it has left. -/
theorem search_scanByte (byte : BitVec 8) (rest : List Bool) (i n left j t c : Nat) :
    search n ((List.range' j left).map (bitClear byte) ++ rest) (i * 8 + j) t c =
      match scanByte byte i n left j t c with
      | .found s => some s
      | .more t c => search n rest (i * 8 + j + left) t c := by
  induction left generalizing j t c with
  | zero => rfl
  | succ left ih =>
    rw [List.range'_succ, List.map_cons, List.cons_append, scanByte]
    have hnext : i * 8 + j + 1 = i * 8 + (j + 1) := rfl
    have hlast : i * 8 + (j + 1) + left = i * 8 + j + (left + 1) := by omega
    cases hbit : bitClear byte j with
    | true =>
      rw [search, if_pos rfl]
      by_cases hn : n ≤ c + 1
      · simp only [if_pos hn]
      · simp only [if_neg hn]
        rw [hnext, ih, hlast]
    | false =>
      rw [search, hnext, ih, hlast]
      simp

/-- **The two loops search the list of flags.** -/
theorem scanBytes_eq_search (n : Nat) (bytes : List (BitVec 8)) (i t c : Nat) :
    scanBytes n bytes i t c = search n (clearBits bytes) (i * 8) t c := by
  induction bytes generalizing i t c with
  | nil => rfl
  | cons byte bytes ih =>
    have hbyte := search_scanByte byte (clearBits bytes) i n 8 0 t c
    rw [clearBits, byteClearBits, scanBytes]
    rw [show i * 8 = i * 8 + 0 from rfl, hbyte]
    cases scanByte byte i n 8 0 t c with
    | found s => rfl
    | more t c =>
      simp only [ih]
      rw [show (i + 1) * 8 = i * 8 + 0 + 8 by omega]

theorem getNContinuous_eq_search (s : Pmm) (n : Nat) :
    s.getNContinuous n = search n (clearBits s.kpmmBitmap) 0 0 0 := by
  rw [Pmm.getNContinuous, scanBytes_eq_search, Nat.zero_mul]

/-- The test on the mask is a test on the bit. -/
theorem bitClear_eq (byte : BitVec 8) {j : Nat} (hj : j < 8) :
    bitClear byte j = !byte.getLsbD j := by
  have hmask : byte &&& (1#8 <<< j) = 0#8 ↔ byte.getLsbD j = false := by
    constructor
    · intro h
      have hbit := congrArg (fun b => BitVec.getLsbD b j) h
      simpa [hj] using hbit
    · intro h
      ext k hk
      by_cases hkj : k = j
      · subst hkj
        simp [BitVec.getLsbD_eq_getElem hk] at h
        simp [h]
      · have : k - j = 0 → k < j := by omega
        simp
        omega
  unfold bitClear
  cases hb : byte.getLsbD j <;> simp [hmask, hb]

theorem getElem?_byteClearBits (byte : BitVec 8) {j : Nat} (hj : j < 8) :
    (byteClearBits byte)[j]? = some (!byte.getLsbD j) := by
  rw [← bitClear_eq byte hj, List.getElem?_eq_getElem (by simpa using hj)]
  simp [byteClearBits]

/-- Setting or clearing one bit of a byte. -/
theorem byteClearBits_write (byte : BitVec 8) (used : Bool) {j : Nat} (hj : j < 8) :
    byteClearBits (if used then byte ||| (1#8 <<< j) else byte &&& ~~~(1#8 <<< j)) =
      (byteClearBits byte).set j (!used) := by
  refine List.ext_getElem (by simp) ?_
  intro k h1 h2
  have hk : k < 8 := by simpa using h1
  simp only [byteClearBits, List.getElem_set, List.getElem_map, List.getElem_range',
    Nat.zero_add, Nat.one_mul]
  rw [bitClear_eq _ hk, bitClear_eq _ hk]
  have hone : (1#8 <<< j).getLsbD k = decide (k = j) := by
    rw [BitVec.getLsbD_shiftLeft, BitVec.getLsbD_one]
    by_cases hkj : k = j
    · simp [hkj, hj]
    · simp [hkj]
      omega
  cases used with
  | true =>
    rw [if_pos rfl, BitVec.getLsbD_or, hone]
    by_cases hkj : k = j <;> simp [hkj, Ne.symm]
  | false =>
    rw [if_neg Bool.false_ne_true, BitVec.getLsbD_and, BitVec.getLsbD_not, hone]
    by_cases hkj : k = j <;> simp [hkj, hk, Ne.symm]

/-- Changing one bit of one byte changes one flag. -/
theorem clearBits_modify {f : BitVec 8 → BitVec 8} {j : Nat} {v : Bool} (hj : j < 8)
    (hf : ∀ byte, byteClearBits (f byte) = (byteClearBits byte).set j v)
    (bytes : List (BitVec 8)) (i : Nat) :
    clearBits (bytes.modify i f) = (clearBits bytes).set (8 * i + j) v := by
  induction bytes generalizing i with
  | nil => cases i <;> rfl
  | cons byte bytes ih =>
    cases i with
    | zero =>
      rw [List.modify_zero_cons, clearBits, clearBits, hf, Nat.mul_zero, Nat.zero_add,
        List.set_append_left _ _ (by simpa using hj)]
    | succ i =>
      rw [List.modify_succ_cons, clearBits, clearBits, ih,
        List.set_append_right _ _ (by rw [length_byteClearBits]; omega), length_byteClearBits,
        show 8 * (i + 1) + j - 8 = 8 * i + j by omega]

/-! ## What the operations do to the flags -/

namespace Pmm

/-- The flags of the pages, `true` for a free one. -/
def flags (s : Pmm) : List Bool := clearBits s.kpmmBitmap

variable {s t : Pmm}

theorem length_flags (s : Pmm) : s.flags.length = 8 * s.kpmmBitmap.length :=
  length_clearBits s.kpmmBitmap

/-- All free frames lie below 4 GiB. -/
def Below4G (s : Pmm) : Prop := ∀ x : Nat, s.flags[x]? = some true → x < 2 ^ 20

/-- A bitmap of 4 GiB has no frames above. -/
theorem below4G_of_length (hs : s.kpmmBitmap.length ≤ 2 ^ 17) : s.Below4G := by
  intro x hx
  have hlt := (List.getElem?_eq_some_iff.1 hx).1
  rw [length_flags] at hlt
  omega

/-- A run of free frames ends below 4 GiB. -/
theorem Below4G.run_le (hs : s.Below4G) {n start : Nat} (hn : 0 < n)
    (hrun : FreeRun n s.flags start) : start + n ≤ 2 ^ 20 := by
  have hlast := hs _ (hrun (n - 1) (by omega))
  omega

/-- The runs of free pages end where the page numbers of the bitmap do. -/
def Numbered (s : Pmm) : Prop :=
  ∀ n start : Nat, 0 < n → FreeRun n s.flags start → start + n ≤ 2 ^ 35

theorem Below4G.numbered (hs : s.Below4G) : s.Numbered :=
  fun _ _ hn hrun => (hs.run_le hn hrun).trans (by decide)

/-- The number of bytes of a bitmap is a 32-bit value. -/
theorem numbered_of_length (hs : s.kpmmBitmap.length ≤ 2 ^ 32) : s.Numbered := by
  intro n start hn hrun
  have hend := hrun.le_length hn
  rw [length_flags] at hend
  omega

/-- `kpmm_bitmap_set_value` sets one flag.  The byte number is a 32-bit value, so that the flag
number counts modulo `2 ^ 35`. -/
theorem setValue_mod {k : Nat} (hk : k % 2 ^ 35 < s.flags.length) (used : Bool) :
    ∃ t, s.setValue k used = some t ∧ t.flags = s.flags.set (k % 2 ^ 35) (!used) ∧
      t.kpmmBitmap.length = s.kpmmBitmap.length ∧
      t.kpmmFreePagesAmount = s.kpmmFreePagesAmount := by
  rw [length_flags] at hk
  have hj : k % 8 < 8 := Nat.mod_lt _ (by decide)
  have hsplit : 8 * u32 (k / 8) + k % 8 = k % 2 ^ 35 := by
    unfold u32
    omega
  unfold setValue
  rw [if_neg (by omega)]
  refine ⟨_, rfl, ?_, List.length_modify _ _ _, rfl⟩
  have h := clearBits_modify hj (fun byte => byteClearBits_write byte used hj) s.kpmmBitmap
    (u32 (k / 8))
  rw [hsplit] at h
  exact h

/-- Past the last byte `kpmm_bitmap_set_value` panics. -/
theorem setValue_none {k : Nat} (hk : s.flags.length ≤ k % 2 ^ 35) (used : Bool) :
    s.setValue k used = none := by
  rw [length_flags] at hk
  have hsplit : 8 * u32 (k / 8) + k % 8 = k % 2 ^ 35 := by
    unfold u32
    omega
  exact if_pos (by omega)

theorem setValue_some {k : Nat} (hlow : k < 2 ^ 35) (hk : k < s.flags.length) (used : Bool) :
    ∃ t, s.setValue k used = some t ∧ t.flags = s.flags.set k (!used) ∧
      t.kpmmBitmap.length = s.kpmmBitmap.length ∧
      t.kpmmFreePagesAmount = s.kpmmFreePagesAmount := by
  have hmod : k % 2 ^ 35 = k := Nat.mod_eq_of_lt hlow
  have h := setValue_mod (s := s) (k := k) (by rwa [hmod]) used
  rwa [hmod] at h

/-- The loop of the allocation marks a run. -/
theorem markPages_some {start n : Nat} (hlow : start + n ≤ 2 ^ 35)
    (hn : start + n ≤ s.flags.length) :
    ∃ t, s.markPages start n = some t ∧ t.flags = setRun false s.flags start n ∧
      t.kpmmBitmap.length = s.kpmmBitmap.length ∧
      (n ≤ s.kpmmFreePagesAmount → s.kpmmFreePagesAmount < 2 ^ 32 →
        t.kpmmFreePagesAmount + n = s.kpmmFreePagesAmount) := by
  induction n generalizing s start with
  | zero => exact ⟨s, rfl, rfl, rfl, fun _ _ => rfl⟩
  | succ n ih =>
    have hlt : start < s.flags.length := by omega
    obtain ⟨r, hr, hflags, hlen, hfree⟩ := setValue_some (show start < 2 ^ 35 by omega) hlt true
    have hrlen : r.flags.length = s.flags.length := by rw [hflags, List.length_set]
    -- the rest of the loop, whatever the counter is by then
    have hrest : ∀ c, ∃ t, markPages { r with kpmmFreePagesAmount := c } (start + 1) n = some t ∧
        t.flags = setRun false r.flags (start + 1) n ∧
        t.kpmmBitmap.length = s.kpmmBitmap.length ∧
        (n ≤ c → c < 2 ^ 32 → t.kpmmFreePagesAmount + n = c) := by
      intro c
      obtain ⟨t, ht, htflags, htlen, htfree⟩ := @ih { r with kpmmFreePagesAmount := c }
        (start + 1) (by omega) (show start + 1 + n ≤ r.flags.length by omega)
      exact ⟨t, ht, htflags, htlen.trans hlen, htfree⟩
    obtain ⟨t, ht, htflags, htlen, htfree⟩ :=
      hrest (u32 (r.kpmmFreePagesAmount + (2 ^ 32 - 1)))
    refine ⟨t, ?_, ?_, htlen, ?_⟩
    · rw [markPages, hr]
      exact ht
    · rw [htflags, hflags, setRun]
      rfl
    · intro h1 h2
      have hdec : u32 (r.kpmmFreePagesAmount + (2 ^ 32 - 1)) = s.kpmmFreePagesAmount - 1 := by
        unfold u32
        omega
      rw [hdec] at htfree
      have := htfree (by omega) (by omega)
      omega

/-- The loop of the release clears a run. -/
theorem clearPages_some {start n : Nat} (hlow : start + n ≤ 2 ^ 35)
    (hn : start + n ≤ s.flags.length) :
    ∃ t, s.clearPages start n = some t ∧ t.flags = setRun true s.flags start n ∧
      t.kpmmBitmap.length = s.kpmmBitmap.length ∧
      (s.kpmmFreePagesAmount + n < 2 ^ 32 →
        t.kpmmFreePagesAmount = s.kpmmFreePagesAmount + n) := by
  induction n generalizing s start with
  | zero => exact ⟨s, rfl, rfl, rfl, fun _ => rfl⟩
  | succ n ih =>
    have hlt : start < s.flags.length := by omega
    obtain ⟨r, hr, hflags, hlen, hfree⟩ := setValue_some (show start < 2 ^ 35 by omega) hlt false
    have hrlen : r.flags.length = s.flags.length := by rw [hflags, List.length_set]
    have hrest : ∀ c, ∃ t, clearPages { r with kpmmFreePagesAmount := c } (start + 1) n = some t ∧
        t.flags = setRun true r.flags (start + 1) n ∧
        t.kpmmBitmap.length = s.kpmmBitmap.length ∧
        (c + n < 2 ^ 32 → t.kpmmFreePagesAmount = c + n) := by
      intro c
      obtain ⟨t, ht, htflags, htlen, htfree⟩ := @ih { r with kpmmFreePagesAmount := c }
        (start + 1) (by omega) (show start + 1 + n ≤ r.flags.length by omega)
      exact ⟨t, ht, htflags, htlen.trans hlen, htfree⟩
    obtain ⟨t, ht, htflags, htlen, htfree⟩ := hrest (u32 (r.kpmmFreePagesAmount + 1))
    refine ⟨t, ?_, ?_, htlen, ?_⟩
    · rw [clearPages, hr]
      exact ht
    · rw [htflags, hflags, setRun]
      rfl
    · intro h
      have hinc : u32 (r.kpmmFreePagesAmount + 1) = s.kpmmFreePagesAmount + 1 := by
        rw [hfree]
        exact u32_eq (by omega)
      rw [hinc] at htfree
      have := htfree (by omega)
      omega

/-- Below 4 GiB the address of a page is not cut. -/
theorem getPageAddr_eq {start : Nat} (h : start < 2 ^ 20) :
    getPageAddr start = start * kpmmPageSize :=
  u32_eq (by simp only [kpmmPageSize]; omega)

/-- **Everything an allocation can do**: refuse and change nothing, or take the first run of
free pages and return its address cut to 32 bits; the counter goes down by as many. -/
theorem allocPages_run (hs : s.Numbered) {n p : Nat} (h : s.allocPages n = some (p, t)) :
    ((n = 0 ∨ s.kpmmFreePagesAmount = 0) ∧ p = 0 ∧ t = s) ∨
    (∃ start, 0 < n ∧ IsFirstRun n s.flags start ∧ start + n ≤ s.flags.length ∧
      p = getPageAddr start ∧ t.flags = setRun false s.flags start n ∧
      t.kpmmBitmap.length = s.kpmmBitmap.length ∧
      (n ≤ s.kpmmFreePagesAmount → s.kpmmFreePagesAmount < 2 ^ 32 →
        t.kpmmFreePagesAmount + n = s.kpmmFreePagesAmount)) := by
  unfold allocPages at h
  split_ifs at h with h0
  · cases h
    exact Or.inl ⟨h0, rfl, rfl⟩
  · right
    obtain ⟨hn, -⟩ := not_or.1 h0
    obtain ⟨start, hstart, h⟩ := Option.bind_eq_some_iff.1 h
    obtain ⟨r, hr, h⟩ := Option.bind_eq_some_iff.1 h
    cases h
    have hpos : 0 < n := Nat.pos_of_ne_zero hn
    rw [getNContinuous_eq_search] at hstart
    have hfirst := (search_eq_some hpos).1 hstart
    have hend : start + n ≤ s.flags.length := hfirst.1.le_length hpos
    obtain ⟨t', ht', hflags, hlen, hfree⟩ := markPages_some (hs n start hpos hfirst.1) hend
    obtain rfl := Option.some.inj (hr.symm.trans ht')
    exact ⟨start, hpos, hfirst, hend, rfl, hflags, hlen, hfree⟩

/-- An allocation of pages that are there takes them. -/
theorem allocPages_firstRun (hs : s.Numbered) {n start : Nat} (hn : 0 < n)
    (hfree : s.kpmmFreePagesAmount ≠ 0) (hfirst : IsFirstRun n s.flags start) :
    ∃ t, s.allocPages n = some (getPageAddr start, t) := by
  obtain ⟨t, ht, -⟩ := markPages_some (hs n start hn hfirst.1) (hfirst.1.le_length hn)
  have hstart : s.getNContinuous n = some start := by
    rw [getNContinuous_eq_search]
    exact (search_eq_some hn).2 hfirst
  refine ⟨t, ?_⟩
  rw [allocPages, if_neg (by omega), hstart, Option.bind_eq_bind, Option.bind_some, ht]
  rfl

/-- Below 4 GiB an allocation that takes pages returns their address. -/
theorem allocPages_cases (hs : s.Below4G) {n p : Nat}
    (h : s.allocPages n = some (p, t)) :
    ((n = 0 ∨ s.kpmmFreePagesAmount = 0) ∧ p = 0 ∧ t = s) ∨
    (∃ start, 0 < n ∧ IsFirstRun n s.flags start ∧ start + n ≤ s.flags.length ∧
      p = start * kpmmPageSize ∧ t.flags = setRun false s.flags start n ∧
      t.kpmmBitmap.length = s.kpmmBitmap.length ∧
      (n ≤ s.kpmmFreePagesAmount → s.kpmmFreePagesAmount < 2 ^ 32 →
        t.kpmmFreePagesAmount + n = s.kpmmFreePagesAmount)) := by
  rcases allocPages_run hs.numbered h with hno | ⟨start, hn, hfirst, hend, hp, hrest⟩
  · exact Or.inl hno
  · have hlow := hs.run_le hn hfirst.1
    rw [getPageAddr_eq (by omega)] at hp
    exact Or.inr ⟨start, hn, hfirst, hend, hp, hrest⟩

/-- One page that is not the null page is the first free one. -/
theorem allocPages_one (hs : s.Below4G) {f : Nat} (hf : f ≠ 0)
    (h : s.allocPages 1 = some (f * kpmmPageSize, t)) : IsFirstRun 1 s.flags f := by
  rcases allocPages_cases hs h with ⟨-, hnull, -⟩ | ⟨start, -, hfirst, -, hstart, -, -, -⟩
  · rcases Nat.mul_eq_zero.1 hnull with hc | hc
    · exact absurd hc hf
    · exact absurd hc (by decide)
  · obtain rfl : f = start := Nat.eq_of_mul_eq_mul_right (by decide) hstart
    exact hfirst

/-- **What an allocation takes**: used pages stay as they are, and an address that is not null
is that of a run of pages that were free and are used now. -/
theorem allocPages_takes (hs : s.Below4G) {n p : Nat} (h : s.allocPages n = some (p, t)) :
    t.Below4G ∧ (∀ x : Nat, s.flags[x]? ≠ some true → t.flags[x]? = s.flags[x]?) ∧
      (p ≠ 0 → ∃ a, p = a * kpmmPageSize ∧ 0 < n ∧ a + n ≤ 2 ^ 20 ∧
        ∀ j < n, s.flags[a + j]? = some true ∧ t.flags[a + j]? = some false) := by
  rcases allocPages_cases hs h with ⟨-, rfl, rfl⟩ |
      ⟨a, hn, hfirst, hend, rfl, hflags, -, -⟩
  · exact ⟨hs, fun _ _ => rfl, fun hp => absurd rfl hp⟩
  have hget : ∀ x : Nat, t.flags[x]? =
      if a ≤ x ∧ x < a + n then some false else s.flags[x]? := by
    intro x
    rw [hflags]
    exact getElem?_setRun false hend x
  refine ⟨?_, ?_, fun _ => ⟨a, rfl, hn, hs.run_le hn hfirst.1, ?_⟩⟩
  · intro x hx
    rw [hget] at hx
    split_ifs at hx
    · cases hx
    · exact hs x hx
  · intro x hx
    rw [hget, if_neg]
    intro hin
    have hwas := hfirst.1 (x - a) (by omega)
    rw [show a + (x - a) = x by omega] at hwas
    exact hx hwas
  · intro j hj
    exact ⟨hfirst.1 j hj, (hget (a + j)).trans (if_pos (by omega))⟩

/-- An allocation of pages that are there succeeds. -/
theorem allocPages_of_firstRun (hs : s.Below4G) {n start : Nat} (hn : 0 < n)
    (hfree : s.kpmmFreePagesAmount ≠ 0) (hfirst : IsFirstRun n s.flags start) :
    ∃ t, s.allocPages n = some (start * kpmmPageSize, t) := by
  have hlow := hs.run_le hn hfirst.1
  rw [← getPageAddr_eq (by omega)]
  exact allocPages_firstRun hs.numbered hn hfree hfirst

/-- The loop of an allocation counts every page down, modulo `2 ^ 32`. -/
theorem markPages_counter {start n : Nat} (h : s.markPages start n = some t) :
    (t.kpmmFreePagesAmount + n) % 2 ^ 32 = s.kpmmFreePagesAmount % 2 ^ 32 := by
  induction n generalizing s start with
  | zero =>
    cases h
    rfl
  | succ n ih =>
    obtain ⟨r, hr, h⟩ := Option.bind_eq_some_iff.1 h
    have hkeep : r.kpmmFreePagesAmount = s.kpmmFreePagesAmount := by
      simp only [setValue] at hr
      split_ifs at hr
      cases hr
      rfl
    have hrest := ih h
    simp only [u32, hkeep] at hrest
    omega

/-- An allocation refuses at once, or it takes its pages from the counter. -/
theorem allocPages_counter {n p : Nat} (h : s.allocPages n = some (p, t)) :
    ((n = 0 ∨ s.kpmmFreePagesAmount = 0) ∧ p = 0 ∧ t = s) ∨
    (n ≠ 0 ∧ s.kpmmFreePagesAmount ≠ 0 ∧
      (t.kpmmFreePagesAmount + n) % 2 ^ 32 = s.kpmmFreePagesAmount % 2 ^ 32) := by
  unfold allocPages at h
  split_ifs at h with hno
  · cases h
    exact Or.inl ⟨hno, rfl, rfl⟩
  · obtain ⟨hn, hsome⟩ := not_or.1 hno
    obtain ⟨start, -, h⟩ := Option.bind_eq_some_iff.1 h
    obtain ⟨r, hr, h⟩ := Option.bind_eq_some_iff.1 h
    cases h
    exact Or.inr ⟨hn, hsome, markPages_counter hr⟩

/-- Releasing a run clears it. -/
theorem freePages_some {start n : Nat} (hlow : start + n ≤ 2 ^ 20) (hpos : 0 < n)
    (hn : start + n ≤ s.flags.length) :
    ∃ t, s.freePages (start * kpmmPageSize) n = some (true, t) ∧
      t.flags = setRun true s.flags start n ∧
      t.kpmmBitmap.length = s.kpmmBitmap.length ∧
      (s.kpmmFreePagesAmount + n < 2 ^ 32 →
        t.kpmmFreePagesAmount = s.kpmmFreePagesAmount + n) := by
  obtain ⟨t, ht, hrest⟩ := clearPages_some (hlow.trans (by decide)) hn
  refine ⟨t, ?_, hrest⟩
  rw [freePages, if_neg (by omega), Nat.mul_div_cancel _ (by decide), ht]
  rfl

/-! ## Exhaustion -/

/-- No run of that length is free. -/
def Exhausted (s : Pmm) (n : Nat) : Prop := ∀ start, ¬ FreeRun n s.flags start

/-- The search reaches the end of the bitmap exactly if no run is free. -/
theorem getNContinuous_eq_none {n : Nat} (hn : 0 < n) :
    s.getNContinuous n = none ↔ s.Exhausted n := by
  rw [getNContinuous_eq_search]
  exact search_eq_none hn

/-- **An allocation that cannot be met** looks at the counter only: it is refused if no page at
all is free and panics otherwise. -/
theorem allocPages_exhausted {n : Nat} (hn : 0 < n) (hs : s.Exhausted n) :
    s.allocPages n = if s.kpmmFreePagesAmount = 0 then some (0, s) else none := by
  have hsearch : s.getNContinuous n = none := (getNContinuous_eq_none hn).2 hs
  by_cases hfree : s.kpmmFreePagesAmount = 0
  · rw [if_pos hfree, allocPages, if_pos (Or.inr hfree)]
  · rw [if_neg hfree, allocPages, if_neg (by omega), hsearch]
    rfl

/-- **An allocation that cannot be met returns null and changes nothing exactly if the counter
says that no page is free.** -/
theorem allocPages_refuses_iff (s : Pmm) (n : Nat) (hn : 0 < n) (hs : s.Exhausted n) :
    s.allocPages n = some (0, s) ↔ s.kpmmFreePagesAmount = 0 := by
  rw [allocPages_exhausted hn hs]
  constructor
  · intro h
    by_contra hfree
    rw [if_neg hfree] at h
    cases h
  · intro hfree
    rw [if_pos hfree]

/-- Eight pages, every second one used. -/
def fragmented : Pmm := ⟨[0xAA#8], 4⟩

/-- No two of its free pages are next to each other. -/
theorem fragmented_exhausted : fragmented.Exhausted 2 := by
  have hsearch : fragmented.getNContinuous 2 = none := by decide +kernel
  exact (getNContinuous_eq_none (by decide)).1 hsearch

theorem allocPages_fragmented : ¬ fragmented.allocPages 2 = some (0, fragmented) := fun h =>
  absurd ((allocPages_refuses_iff fragmented 2 (by decide) fragmented_exhausted).1 h) (by decide)

/-- Four pages are free, and a request for two of them is a panic. -/
theorem exhaustion_is_fatal : ¬ ∀ (s : Pmm) (n : Nat), 0 < n → s.Exhausted n →
    s.allocPages n = some (0, s) := by
  intro hall
  have hpanic : fragmented.allocPages 2 = none := by decide +kernel
  have hnull := hall fragmented 2 (by decide) fragmented_exhausted
  rw [hpanic] at hnull
  cases hnull

end Pmm

end DelOs
