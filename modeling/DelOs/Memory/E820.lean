import DelOs.Memory.Pmm
import DelOs.Memory.EarlyHeap
import Mathlib.Order.CompletePartialOrder

/-!
# The page bitmap at boot

`kpmm_init` of `src/kernel/memory/pmm/pmm_manager.c` builds the page bitmap from the memory map
that the boot loader left.  It runs before paging is on; the bitmap comes from the early
allocator.

* `E820Entry` — an entry of the memory map, in 64-bit numbers.
* `pmmFreePagesFromE820`, `kpmmInit` — the two functions of the source; a byte written past the
  end of the bitmap is `BootFault.wildAccess`.
* `E820Entry.Frees` — the pages that an entry frees.
* `freeEntries_spec`, `freeEntries_inside` — **what the nested loops do to the bitmap and to the
  counter**, for every memory map, and when they stay inside the bitmap.
-/

namespace DelOs

open FlagRuns

/-! ## The memory map -/

/-- A sum of 64-bit numbers. -/
def u64 (n : Nat) : Nat := n % 2 ^ 64

/-- `ALIGN_UP` in 64 bits. -/
def alignUp64 (x a : Nat) : Nat := u64 (x + (a - 1)) / a * a

/-- `ALIGN_DOWN`. -/
def alignDown (x a : Nat) : Nat := x / a * a

/-- `KE820_TYPE_FREE`. -/
def ke820TypeFree : Nat := 1

/-- `KE820_MAX_ENTRIES`: the boot loader asks for no more. -/
def ke820MaxEntries : Nat := 32

/-- `KPMM_MIN_BASE`. -/
def kpmmMinBase : Nat := 0x00100000

/-- `e820_entry_t`. -/
structure E820Entry where
  base : Nat
  length : Nat
  type : Nat
  deriving DecidableEq

namespace E820Entry

/-- `region_end`. -/
def regionEnd (e : E820Entry) : Nat := u64 (e.base + e.length)

/-- `start_page`, of a region that is cut at `min_free_phys`. -/
def startPage (minFreePhys : Nat) (e : E820Entry) : Nat :=
  let regionStart := if e.base < minFreePhys then minFreePhys else e.base
  alignUp64 regionStart kpmmPageSize / kpmmPageSize

/-- `end_page`. -/
def endPage (e : E820Entry) : Nat := alignDown e.regionEnd kpmmPageSize / kpmmPageSize

end E820Entry

/-- How `kpmm_init` stops: `KPANIC_PHYS`, or a write outside the bitmap. -/
inductive BootFault where
  | panic
  | wildAccess
  deriving DecidableEq, Repr

/-! ## `kpmm_init` -/

/-- `min_free_phys`, from the address of `__kernel_physical_end`. -/
def minFreePhys (physicalEnd : Nat) : Nat :=
  if alignUp physicalEnd kpmmPageSize < kpmmMinBase then kpmmMinBase
  else alignUp physicalEnd kpmmPageSize

/-- The inner loop of `pmm_free_pages_from_e820`, over `count` pages from `page` on. -/
def freeEntryPages (s : Pmm) (page : Nat) : Nat → Except BootFault Pmm
  | 0 => .ok s
  | count + 1 =>
      let byteIdx := u32 (page / 8)
      let bitIdx := page % 8
      if s.kpmmBitmap.length ≤ byteIdx then .error .wildAccess
      else freeEntryPages
        { kpmmBitmap := s.kpmmBitmap.modify byteIdx fun byte => byte &&& ~~~(1#8 <<< bitIdx),
          kpmmFreePagesAmount := u32 (s.kpmmFreePagesAmount + 1) } (page + 1) count

/-- The body of its outer loop. -/
def freeEntry (minFree : Nat) (s : Pmm) (e : E820Entry) : Except BootFault Pmm :=
  if e.type = ke820TypeFree then
    if e.regionEnd ≤ minFree then .ok s
    else if e.endPage ≤ e.startPage minFree then .ok s
    else freeEntryPages s (e.startPage minFree) (e.endPage - e.startPage minFree)
  else .ok s

/-- The outer loop of `pmm_free_pages_from_e820`. -/
def freeEntries (minFree : Nat) : List E820Entry → Pmm → Except BootFault Pmm
  | [], s => .ok s
  | e :: table, s => do
      let s ← freeEntry minFree s e
      freeEntries minFree table s

/-- `pmm_free_pages_from_e820`. -/
def pmmFreePagesFromE820 (table : List E820Entry) (physicalEnd : Nat) (s : Pmm) :
    Except BootFault Pmm :=
  freeEntries (minFreePhys physicalEnd) table { s with kpmmFreePagesAmount := 0 }

/-- The first loop of `kpmm_init`: the highest end of a region. -/
def maxPhys : List E820Entry → Nat → Nat
  | [], m => m
  | e :: table, m => maxPhys table (if m < e.regionEnd then e.regionEnd else m)

/-- What `kpmm_init` leaves in memory. -/
structure PmmBoot where
  kpmmPagesAmount : Nat
  kpmmBitmapBytesAmout : Nat
  kpmmBitmapPtr : Nat
  pmm : Pmm
  earlyHeap : EarlyHeap
  deriving DecidableEq

/-- The value that `kpmm_init` gives `kpmm_pages_amount`. -/
def pagesAmount (table : List E820Entry) : Nat :=
  u32 (alignUp64 (maxPhys table 0) kpmmPageSize / kpmmPageSize)

/-- The value that it gives `kpmm_bitmap_bytes_amout`. -/
def bitmapBytes (table : List E820Entry) : Nat := u32 (pagesAmount table + 7) / 8

/-- `kpmm_init`: it returns `OK_TRUE`, or the boot stops. -/
def kpmmInit (table : List E820Entry) (h : EarlyHeap) (physicalEnd : Nat) :
    Except BootFault PmmBoot :=
  match h.malloc (bitmapBytes table) with
  | none => .error .panic
  | some (ptr, h) =>
      if ptr = 0 then .error .panic
      else do
        let bitmap := List.replicate (bitmapBytes table) 0xFF#8
        let pmm ← pmmFreePagesFromE820 table physicalEnd ⟨bitmap, 0⟩
        return ⟨pagesAmount table, bitmapBytes table, ptr, pmm, h⟩

/-! ## What the loops free -/

namespace E820Entry

/-- The number of pages that an entry frees. -/
def pageCount (minFree : Nat) (e : E820Entry) : Nat :=
  if e.type = ke820TypeFree ∧ minFree < e.regionEnd then e.endPage - e.startPage minFree else 0

/-- An entry frees page `q`. -/
def Frees (minFree : Nat) (e : E820Entry) (q : Nat) : Prop :=
  e.startPage minFree ≤ q ∧ q < e.startPage minFree + e.pageCount minFree

instance (minFree : Nat) (e : E820Entry) (q : Nat) : Decidable (e.Frees minFree q) :=
  inferInstanceAs (Decidable (_ ∧ _))

end E820Entry

theorem freeEntry_eq (minFree : Nat) (s : Pmm) (e : E820Entry) :
    freeEntry minFree s e =
      freeEntryPages s (e.startPage minFree) (e.pageCount minFree) := by
  unfold freeEntry E820Entry.pageCount
  by_cases hfree : e.type = ke820TypeFree ∧ minFree < e.regionEnd
  · rw [if_pos hfree.1, if_neg (not_le.2 hfree.2), if_pos hfree]
    by_cases hempty : e.endPage ≤ e.startPage minFree
    · rw [if_pos hempty, Nat.sub_eq_zero_of_le hempty, freeEntryPages]
    · rw [if_neg hempty]
  · rw [if_neg hfree, freeEntryPages]
    by_cases htype : e.type = ke820TypeFree
    · rw [if_pos htype, if_pos (not_lt.1 fun h => hfree ⟨htype, h⟩)]
    · rw [if_neg htype]

/-- One round of the inner loop is `kpmm_bitmap_set_value`, which checks the byte number. -/
theorem freeEntryPages_succ (s : Pmm) (page count : Nat) :
    freeEntryPages s page (count + 1) = match s.setValue page false with
      | none => .error .wildAccess
      | some t => freeEntryPages { t with kpmmFreePagesAmount := u32 (t.kpmmFreePagesAmount + 1) }
          (page + 1) count := by
  rw [freeEntryPages, Pmm.setValue]
  by_cases hlen : s.kpmmBitmap.length ≤ u32 (page / 8)
  · simp only [if_pos hlen]
  · simp only [if_neg hlen]
    rfl

/-- From `s` to `t` the pages of `frees` are freed, `n` times a page; a page is numbered modulo
`2 ^ 35`. -/
structure Freed (s t : Pmm) (frees : Nat → Prop) (n : Nat) : Prop where
  length : t.kpmmBitmap.length = s.kpmmBitmap.length
  flags : ∀ k : Nat, t.flags[k]? = some true ↔
    s.flags[k]? = some true ∨ ∃ q, frees q ∧ q % 2 ^ 35 = k
  counter : t.kpmmFreePagesAmount = u32 (s.kpmmFreePagesAmount + n)
  count_le : t.flags.count true ≤ s.flags.count true + n

namespace Freed

variable {s t r : Pmm} {frees frees' : Nat → Prop} {m n : Nat}

theorem refl (hs : s.kpmmFreePagesAmount < 2 ^ 32) (hno : ∀ q, ¬ frees q) : Freed s s frees 0 where
  length := rfl
  flags k := by
    constructor
    · intro h
      exact Or.inl h
    · rintro (h | ⟨q, hq, -⟩)
      · exact h
      · exact absurd hq (hno q)
  counter := (u32_eq hs).symm
  count_le := Nat.le_refl _

theorem trans (h : Freed s t frees m) (h' : Freed t r frees' n) :
    Freed s r (fun q => frees q ∨ frees' q) (m + n) where
  length := h'.length.trans h.length
  flags k := by
    rw [h'.flags, h.flags]
    constructor
    · rintro ((hk | ⟨q, hq, hqk⟩) | ⟨q, hq, hqk⟩)
      · exact Or.inl hk
      · exact Or.inr ⟨q, Or.inl hq, hqk⟩
      · exact Or.inr ⟨q, Or.inr hq, hqk⟩
    · rintro (hk | ⟨q, hq | hq, hqk⟩)
      · exact Or.inl (Or.inl hk)
      · exact Or.inl (Or.inr ⟨q, hq, hqk⟩)
      · exact Or.inr ⟨q, hq, hqk⟩
  counter := by
    rw [h'.counter, h.counter]
    unfold u32
    omega
  count_le := by
    have h1 := h.count_le
    have h2 := h'.count_le
    omega

theorem congr (h : Freed s t frees m) (hiff : ∀ q, frees q ↔ frees' q) : Freed s t frees' m where
  length := h.length
  flags k := by
    rw [h.flags]
    simp only [hiff]
  counter := h.counter
  count_le := h.count_le

theorem length_flags (h : Freed s t frees m) : t.flags.length = s.flags.length := by
  rw [Pmm.length_flags, Pmm.length_flags, h.length]

/-- One round of the inner loop. -/
theorem one {page : Nat} (hin : page % 2 ^ 35 < s.flags.length) :
    ∃ t, s.setValue page false = some t ∧
      Freed s { t with kpmmFreePagesAmount := u32 (t.kpmmFreePagesAmount + 1) }
        (fun q => q = page) 1 := by
  obtain ⟨t, ht, hflags, hlen, hfree⟩ := Pmm.setValue_mod hin false
  refine ⟨t, ht, hlen, ?_, by rw [hfree], ?_⟩
  · intro k
    show t.flags[k]? = some true ↔ _
    rw [hflags, List.getElem?_set]
    by_cases hk : page % 2 ^ 35 = k
    · subst hk
      rw [if_pos rfl, if_pos hin]
      simp
    · rw [if_neg hk]
      constructor
      · intro h
        exact Or.inl h
      · rintro (h | ⟨q, rfl, hq⟩)
        · exact h
        · exact absurd hq hk
  · show t.flags.count true ≤ _
    rw [hflags, List.count_set hin]
    simp

end Freed

/-- **The inner loop.** -/
theorem freeEntryPages_spec {s : Pmm} (hs : s.kpmmFreePagesAmount < 2 ^ 32) {page count : Nat}
    (hin : ∀ i < count, (page + i) % 2 ^ 35 < s.flags.length) :
    ∃ t, freeEntryPages s page count = .ok t ∧
      Freed s t (fun q => page ≤ q ∧ q < page + count) count := by
  induction count generalizing s page with
  | zero => exact ⟨s, rfl, Freed.refl hs fun q hq => by omega⟩
  | succ count ih =>
    obtain ⟨r, hr, hone⟩ := Freed.one (hin 0 (Nat.succ_pos count))
    have hsmall : u32 (r.kpmmFreePagesAmount + 1) < 2 ^ 32 := Nat.mod_lt _ (by decide)
    have hinside : ∀ i < count, (page + 1 + i) % 2 ^ 35 < r.flags.length := by
      intro i hi
      have hlen := hone.length_flags
      rw [show r.flags.length = s.flags.length from hlen, Nat.add_right_comm]
      exact hin (i + 1) (by omega)
    obtain ⟨t, ht, hrest⟩ := @ih { r with
      kpmmFreePagesAmount := u32 (r.kpmmFreePagesAmount + 1) } hsmall (page + 1) hinside
    refine ⟨t, ?_, ?_⟩
    · rw [freeEntryPages_succ]
      simp only [Nat.add_zero] at hr
      rw [hr]
      exact ht
    · rw [Nat.add_comm count 1]
      refine (hone.trans hrest).congr ?_
      intro q
      omega

/-- A loop that comes to its end stays inside the bitmap. -/
theorem freeEntryPages_inside {s t : Pmm} {page count : Nat}
    (h : freeEntryPages s page count = .ok t) {i : Nat} (hi : i < count) :
    (page + i) % 2 ^ 35 < s.flags.length := by
  induction count generalizing s page i with
  | zero => exact absurd hi (Nat.not_lt_zero i)
  | succ count ih =>
    rw [freeEntryPages_succ] at h
    by_cases hin : page % 2 ^ 35 < s.flags.length
    · obtain ⟨r, hr, hone⟩ := Freed.one hin
      rw [hr] at h
      cases i with
      | zero => exact hin
      | succ i =>
        have hnext := ih h (i := i) (by omega)
        rw [hone.length_flags] at hnext
        rwa [show page + (i + 1) = page + 1 + i by omega]
    · rw [Pmm.setValue_none (by omega)] at h
      cases h

/-- **The nested loops**, when every page they free is inside the bitmap. -/
theorem freeEntries_spec {minFree : Nat} {table : List E820Entry} {s : Pmm}
    (hs : s.kpmmFreePagesAmount < 2 ^ 32)
    (hin : ∀ e ∈ table, ∀ q, e.Frees minFree q → q % 2 ^ 35 < s.flags.length) :
    ∃ t, freeEntries minFree table s = .ok t ∧
      Freed s t (fun q => ∃ e ∈ table, e.Frees minFree q)
        (table.map (E820Entry.pageCount minFree)).sum := by
  induction table generalizing s with
  | nil => exact ⟨s, rfl, Freed.refl hs (by simp)⟩
  | cons e table ih =>
    have hinside : ∀ i < e.pageCount minFree,
        (e.startPage minFree + i) % 2 ^ 35 < s.flags.length :=
      fun i hi => hin e List.mem_cons_self _ ⟨Nat.le_add_right _ _, by omega⟩
    obtain ⟨r, hr, hentry⟩ := freeEntryPages_spec hs hinside
    obtain ⟨t, ht, hrest⟩ := @ih r (hentry.counter ▸ Nat.mod_lt _ (by decide)) (by
      intro e' he' q hq
      rw [hentry.length_flags]
      exact hin e' (List.mem_cons_of_mem _ he') q hq)
    refine ⟨t, ?_, ?_⟩
    · rw [freeEntries, freeEntry_eq, hr]
      exact ht
    · rw [List.map_cons, List.sum_cons]
      refine (hentry.trans hrest).congr ?_
      intro q
      simp only [List.mem_cons, exists_eq_or_imp]
      rfl

/-- Loops that come to their end stay inside the bitmap. -/
theorem freeEntries_inside {minFree : Nat} {table : List E820Entry} {s t : Pmm}
    (hs : s.kpmmFreePagesAmount < 2 ^ 32) (h : freeEntries minFree table s = .ok t)
    {e : E820Entry} (he : e ∈ table) {q : Nat} (hq : e.Frees minFree q) :
    q % 2 ^ 35 < s.flags.length := by
  induction table generalizing s with
  | nil => cases he
  | cons first table ih =>
    rw [freeEntries, freeEntry_eq] at h
    cases hr : freeEntryPages s (first.startPage minFree) (first.pageCount minFree) with
    | error fault =>
      rw [hr] at h
      cases h
    | ok r =>
      rw [hr] at h
      have hinside : ∀ i < first.pageCount minFree,
          (first.startPage minFree + i) % 2 ^ 35 < s.flags.length :=
        fun i hi => freeEntryPages_inside hr hi
      obtain ⟨r', hr', hentry⟩ := freeEntryPages_spec hs hinside
      obtain rfl := Except.ok.inj (hr.symm.trans hr')
      rcases List.mem_cons.1 he with rfl | he
      · have hlast := hinside (q - e.startPage minFree) (by have := hq.1; have := hq.2; omega)
        rwa [Nat.add_sub_cancel' hq.1] at hlast
      · have hrest := ih (hentry.counter ▸ Nat.mod_lt _ (by decide)) h he
        rwa [hentry.length_flags] at hrest

/-! ## Before the loops -/

/-- The bitmap as it is filled: every page is used. -/
def filledBitmap (bytes : Nat) : Pmm := ⟨List.replicate bytes 0xFF#8, 0⟩

theorem flags_filledBitmap (bytes : Nat) :
    (filledBitmap bytes).flags = List.replicate (8 * bytes) false := by
  show clearBits (List.replicate bytes 0xFF#8) = _
  induction bytes with
  | zero => rfl
  | succ n ih =>
    rw [List.replicate_succ, clearBits, ih, show 8 * (n + 1) = 8 + 8 * n by omega,
      List.replicate_add]
    rfl

theorem not_free_filledBitmap (bytes k : Nat) : (filledBitmap bytes).flags[k]? ≠ some true := by
  rw [flags_filledBitmap, List.getElem?_replicate]
  split_ifs <;> simp

variable {table : List E820Entry} {h h' : EarlyHeap} {physicalEnd ptr : Nat}

/-- `kpmm_init` after the call of the early allocator. -/
theorem kpmmInit_of_malloc (hmalloc : h.malloc (bitmapBytes table) = some (ptr, h')) :
    kpmmInit table h physicalEnd = if ptr = 0 then .error .panic else
      (freeEntries (minFreePhys physicalEnd) table (filledBitmap (bitmapBytes table))).map
        fun pmm => ⟨pagesAmount table, bitmapBytes table, ptr, pmm, h'⟩ := by
  unfold kpmmInit
  rw [hmalloc]
  rfl

theorem bitmapBytes_ne_zero (hmalloc : h.malloc (bitmapBytes table) = some (ptr, h'))
    (hptr : ptr ≠ 0) : bitmapBytes table ≠ 0 := by
  intro h0
  have hround := (EarlyHeap.malloc_block hmalloc hptr).1
  rw [h0] at hround
  exact hround (by decide)

/-- **Everything a successful `kpmm_init` did.** -/
theorem kpmmInit_ok {b : PmmBoot} (hb : kpmmInit table h physicalEnd = .ok b) :
    b.kpmmPagesAmount = pagesAmount table ∧ b.kpmmBitmapBytesAmout = bitmapBytes table ∧
      bitmapBytes table ≠ 0 ∧
      alignUp (bitmapBytes table) 8 ≤ u32 (h.stop + (2 ^ 32 - h.start)) ∧
      freeEntries (minFreePhys physicalEnd) table (filledBitmap (bitmapBytes table)) =
        .ok b.pmm := by
  cases hmalloc : h.malloc (bitmapBytes table) with
  | none =>
    unfold kpmmInit at hb
    rw [hmalloc] at hb
    cases hb
  | some r =>
    obtain ⟨ptr, h'⟩ := r
    rw [kpmmInit_of_malloc hmalloc] at hb
    by_cases hptr : ptr = 0
    · rw [if_pos hptr] at hb
      cases hb
    · rw [if_neg hptr] at hb
      cases hfree : freeEntries (minFreePhys physicalEnd) table
          (filledBitmap (bitmapBytes table)) with
      | error fault =>
        rw [hfree] at hb
        cases hb
      | ok pmm =>
        rw [hfree] at hb
        cases hb
        exact ⟨rfl, rfl, bitmapBytes_ne_zero hmalloc hptr,
          (EarlyHeap.malloc_block hmalloc hptr).2, rfl⟩

/-- `kpmm_init` writes outside the bitmap only if there is a bitmap and the loops do. -/
theorem freeEntries_of_wildAccess (hwild : kpmmInit table h physicalEnd = .error .wildAccess) :
    bitmapBytes table ≠ 0 ∧
      ∀ pmm, freeEntries (minFreePhys physicalEnd) table (filledBitmap (bitmapBytes table)) ≠
        .ok pmm := by
  cases hmalloc : h.malloc (bitmapBytes table) with
  | none =>
    unfold kpmmInit at hwild
    rw [hmalloc] at hwild
    cases hwild
  | some r =>
    obtain ⟨ptr, h'⟩ := r
    rw [kpmmInit_of_malloc hmalloc] at hwild
    by_cases hptr : ptr = 0
    · rw [if_pos hptr] at hwild
      cases hwild
    · rw [if_neg hptr] at hwild
      refine ⟨bitmapBytes_ne_zero hmalloc hptr, ?_⟩
      intro pmm hfree
      rw [hfree] at hwild
      cases hwild

end DelOs
