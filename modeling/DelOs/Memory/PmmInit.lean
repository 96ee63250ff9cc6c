import DelOs.Memory.E820
import DelOs.Process.User

/-!
# The page bitmap is exact

`kpmm_init` on a memory map whose regions do not overlap and end below 16 TiB.

* `frees_iff` — on such a map an entry frees the pages that lie wholly inside it and not below
  the kernel.
* `ExactMap` — what the bitmap and its counter should be.
* `freeEntries_count` — disjoint entries count every page once.
* `kpmmInit_exact` — **`kpmm_init` stays inside its bitmap, leaves exactly this, and does not
  depend on the order of the entries**.
-/

namespace DelOs

open FlagRuns

/-! ## Memory maps -/

/-- The addresses of a region. -/
def E820Entry.region (e : E820Entry) : Set Nat := Set.Ico e.base (e.base + e.length)

/-- The regions are pairwise disjoint and end below `2 ^ 44`. -/
structure WellFormedMap (table : List E820Entry) : Prop where
  disjoint : table.Pairwise fun a b => Disjoint a.region b.region
  ends : ∀ e ∈ table, e.base + e.length < 2 ^ 44

/-- The page lies wholly inside a region of type 1, and not below 1 MiB or the end of the
kernel, rounded up to a page. -/
def UsablePage (table : List E820Entry) (physicalEnd p : Nat) : Prop :=
  (∃ e ∈ table, e.type = ke820TypeFree ∧ e.base ≤ p * kpmmPageSize ∧
    (p + 1) * kpmmPageSize ≤ e.base + e.length) ∧
  max kpmmMinBase ((physicalEnd + (kpmmPageSize - 1)) / kpmmPageSize * kpmmPageSize) ≤
    p * kpmmPageSize

/-- The bitmap says of each page whether it is usable, all other bits are set, and the counter
is the number of clear bits. -/
structure ExactMap (table : List E820Entry) (physicalEnd : Nat) (b : PmmBoot) : Prop where
  bytes : b.pmm.kpmmBitmap.length = b.kpmmBitmapBytesAmout
  covers : b.kpmmPagesAmount ≤ 8 * b.kpmmBitmapBytesAmout
  bits : ∀ p < b.kpmmPagesAmount,
    b.pmm.flags[p]? = some true ↔ UsablePage table physicalEnd p
  others : ∀ p, b.kpmmPagesAmount ≤ p → p < 8 * b.kpmmBitmapBytesAmout →
    b.pmm.flags[p]? = some false
  counter : b.pmm.kpmmFreePagesAmount = b.pmm.flags.count true

theorem WellFormedMap.perm {table table' : List E820Entry} (hw : WellFormedMap table)
    (hperm : table'.Perm table) : WellFormedMap table' where
  disjoint := (hperm.pairwise_iff fun h => h.symm).2 hw.disjoint
  ends e he := hw.ends e (hperm.mem_iff.1 he)

/-! ## The highest address -/

theorem maxPhys_le_iff {table : List E820Entry} {m x : Nat} :
    maxPhys table m ≤ x ↔ m ≤ x ∧ ∀ e ∈ table, e.regionEnd ≤ x := by
  induction table generalizing m with
  | nil => simp [maxPhys]
  | cons e table ih =>
    rw [maxPhys, ih, List.forall_mem_cons]
    split_ifs with h
    · constructor
      · rintro ⟨h1, h2⟩
        exact ⟨by omega, h1, h2⟩
      · rintro ⟨-, h1, h2⟩
        exact ⟨h1, h2⟩
    · constructor
      · rintro ⟨h1, h2⟩
        exact ⟨h1, by omega, h2⟩
      · rintro ⟨h1, -, h2⟩
        exact ⟨h1, h2⟩

theorem maxPhys_perm {table table' : List E820Entry} (hperm : table'.Perm table) :
    maxPhys table' 0 = maxPhys table 0 := by
  refine le_antisymm ?_ ?_
  · refine maxPhys_le_iff.2 ⟨Nat.zero_le _, fun e he => ?_⟩
    exact (maxPhys_le_iff.1 (Nat.le_refl (maxPhys table 0))).2 e (hperm.mem_iff.1 he)
  · refine maxPhys_le_iff.2 ⟨Nat.zero_le _, fun e he => ?_⟩
    exact (maxPhys_le_iff.1 (Nat.le_refl (maxPhys table' 0))).2 e (hperm.mem_iff.2 he)

/-! ## The pages of an entry -/

section Entry

variable {table : List E820Entry} {e : E820Entry} {physicalEnd p : Nat}

theorem minFreePhys_eq (hlink : kernelVirtualBase + physicalEnd < 2 ^ 32) :
    minFreePhys physicalEnd =
      max kpmmMinBase ((physicalEnd + (kpmmPageSize - 1)) / kpmmPageSize * kpmmPageSize) := by
  have hround : alignUp physicalEnd kpmmPageSize =
      (physicalEnd + (kpmmPageSize - 1)) / kpmmPageSize * kpmmPageSize := by
    unfold kernelVirtualBase at hlink
    rw [alignUp, u32_eq]
    simp only [kpmmPageSize]
    omega
  rw [minFreePhys, hround]
  split_ifs with h
  · exact (max_eq_left (Nat.le_of_lt h)).symm
  · exact (max_eq_right (not_lt.1 h)).symm

/-- The bound for free pages is a page address. -/
theorem minFreePhys_mod (physicalEnd : Nat) : minFreePhys physicalEnd % 4096 = 0 := by
  unfold minFreePhys alignUp kpmmMinBase kpmmPageSize
  split_ifs
  · rfl
  · exact Nat.mul_mod_left _ _

theorem minFreePhys_lt (physicalEnd : Nat) : minFreePhys physicalEnd < 2 ^ 32 := by
  unfold minFreePhys alignUp kpmmMinBase kpmmPageSize u32
  split_ifs <;> omega

/-- **The pages that an entry frees are those wholly inside it**, above the bound. -/
theorem frees_iff (hend : e.base + e.length < 2 ^ 44) :
    e.Frees (minFreePhys physicalEnd) p ↔
      e.type = ke820TypeFree ∧ e.base ≤ p * kpmmPageSize ∧
        (p + 1) * kpmmPageSize ≤ e.base + e.length ∧
        minFreePhys physicalEnd ≤ p * kpmmPageSize := by
  have hmod := minFreePhys_mod physicalEnd
  have hlt := minFreePhys_lt physicalEnd
  generalize minFreePhys physicalEnd = m at hmod hlt
  have hregion : e.regionEnd = e.base + e.length := Nat.mod_eq_of_lt (by omega)
  have hstart : e.startPage m = (max e.base m + 4095) / 4096 := by
    simp only [E820Entry.startPage, alignUp64, u64, kpmmPageSize]
    split_ifs <;> omega
  have hpages : e.endPage = (e.base + e.length) / 4096 := by
    unfold E820Entry.endPage alignDown kpmmPageSize
    rw [hregion]
    omega
  unfold E820Entry.Frees E820Entry.pageCount
  rw [hstart, hpages, hregion]
  unfold kpmmPageSize
  by_cases hfree : e.type = ke820TypeFree ∧ m < e.base + e.length
  · rw [if_pos hfree]
    have htype := hfree.1
    simp only [htype, true_and]
    omega
  · rw [if_neg hfree]
    constructor
    · intro h
      omega
    · rintro ⟨htype, h1, h2, h3⟩
      exact absurd ⟨htype, by omega⟩ hfree

/-- Entries with disjoint regions free different pages. -/
theorem frees_disjoint {a b : E820Entry} (ha : a.base + a.length < 2 ^ 44)
    (hb : b.base + b.length < 2 ^ 44) (hab : Disjoint a.region b.region)
    (hpa : a.Frees (minFreePhys physicalEnd) p) : ¬ b.Frees (minFreePhys physicalEnd) p := by
  intro hpb
  obtain ⟨-, ha1, ha2, -⟩ := (frees_iff ha).1 hpa
  obtain ⟨-, hb1, hb2, -⟩ := (frees_iff hb).1 hpb
  simp only [kpmmPageSize] at ha1 ha2 hb1 hb2
  have hstart : p * 4096 ∈ a.region := ⟨ha1, by omega⟩
  exact Set.disjoint_left.1 hab hstart ⟨hb1, by omega⟩

/-- When there is a bitmap, its number of pages is not cut to 32 bits and it covers them. -/
theorem pagesAmount_eq (hw : WellFormedMap table) (hbytes : bitmapBytes table ≠ 0) :
    pagesAmount table = (maxPhys table 0 + 4095) / 4096 ∧
      pagesAmount table ≤ 8 * bitmapBytes table ∧ bitmapBytes table < 2 ^ 29 := by
  have hmax : maxPhys table 0 ≤ 2 ^ 44 - 1 := by
    refine maxPhys_le_iff.2 ⟨Nat.zero_le _, fun e he => ?_⟩
    have hend := hw.ends e he
    unfold E820Entry.regionEnd u64
    omega
  have hpages : alignUp64 (maxPhys table 0) kpmmPageSize / kpmmPageSize =
      (maxPhys table 0 + 4095) / 4096 := by
    unfold alignUp64 u64 kpmmPageSize
    omega
  unfold bitmapBytes pagesAmount at hbytes ⊢
  rw [hpages] at hbytes ⊢
  unfold u32 at hbytes ⊢
  omega

/-- A page that an entry frees is one of the pages of the bitmap. -/
theorem frees_lt_pagesAmount (hw : WellFormedMap table) (hbytes : bitmapBytes table ≠ 0)
    (he : e ∈ table) (hp : e.Frees (minFreePhys physicalEnd) p) : p < pagesAmount table := by
  obtain ⟨-, -, hend, -⟩ := (frees_iff (hw.ends e he)).1 hp
  have hmax := (maxPhys_le_iff.1 (Nat.le_refl (maxPhys table 0))).2 e he
  have hregion : e.regionEnd = e.base + e.length :=
    Nat.mod_eq_of_lt (by have := hw.ends e he; omega)
  rw [(pagesAmount_eq hw hbytes).1]
  simp only [kpmmPageSize] at hend
  omega

theorem usablePage_iff (hw : WellFormedMap table)
    (hlink : kernelVirtualBase + physicalEnd < 2 ^ 32) :
    UsablePage table physicalEnd p ↔
      ∃ e ∈ table, e.Frees (minFreePhys physicalEnd) p := by
  rw [UsablePage, ← minFreePhys_eq hlink]
  constructor
  · rintro ⟨⟨e, he, htype, h1, h2⟩, h3⟩
    exact ⟨e, he, (frees_iff (hw.ends e he)).2 ⟨htype, h1, h2, h3⟩⟩
  · rintro ⟨e, he, hp⟩
    obtain ⟨htype, h1, h2, h3⟩ := (frees_iff (hw.ends e he)).1 hp
    exact ⟨⟨e, he, htype, h1, h2⟩, h3⟩

end Entry

/-! ## Every page is counted once -/

section Count

variable {s t : Pmm} {minFree : Nat}

theorem freeEntryPages_setRun {page count : Nat} (h : freeEntryPages s page count = .ok t)
    (hlow : page + count ≤ 2 ^ 35) : t.flags = setRun true s.flags page count := by
  induction count generalizing s page with
  | zero =>
    cases h
    rfl
  | succ count ih =>
    have hmod : page % 2 ^ 35 = page := Nat.mod_eq_of_lt (by omega)
    have hin := freeEntryPages_inside h (Nat.succ_pos count)
    rw [Nat.add_zero] at hin
    obtain ⟨r, hr, hflags, -⟩ := Pmm.setValue_mod hin false
    rw [freeEntryPages_succ, hr] at h
    have hrest := ih h (by omega)
    rw [setRun, hrest]
    show setRun true r.flags (page + 1) count = _
    rw [hflags, hmod]
    rfl

/-- Entries that free different pages, none of them free before, count every page once. -/
theorem freeEntries_count {table : List E820Entry} (hs : s.kpmmFreePagesAmount < 2 ^ 32)
    (h : freeEntries minFree table s = .ok t)
    (hlow : ∀ e ∈ table, ∀ q, e.Frees minFree q → q < 2 ^ 35)
    (hapart : table.Pairwise fun a b => ∀ q, a.Frees minFree q → ¬ b.Frees minFree q)
    (hfresh : ∀ e ∈ table, ∀ q, e.Frees minFree q → s.flags[q]? ≠ some true) :
    t.flags.count true =
      s.flags.count true + (table.map (E820Entry.pageCount minFree)).sum := by
  induction table generalizing s with
  | nil =>
    cases h
    rfl
  | cons e table ih =>
    obtain ⟨hfirst, hrest⟩ := List.pairwise_cons.1 hapart
    have hinside : ∀ i < e.pageCount minFree,
        (e.startPage minFree + i) % 2 ^ 35 < s.flags.length := by
      intro i hi
      exact freeEntries_inside hs h List.mem_cons_self ⟨Nat.le_add_right _ _, by omega⟩
    obtain ⟨r, hr, hfreed⟩ := freeEntryPages_spec hs hinside
    have hentry : freeEntry minFree s e = .ok r := (freeEntry_eq minFree s e).trans hr
    rw [freeEntries, hentry] at h
    have hflags := hfreed.flags
    -- the pages of the entry were used, and are free now
    have hcount : r.flags.count true = s.flags.count true + e.pageCount minFree := by
      by_cases hempty : e.pageCount minFree = 0
      · rw [hempty] at hr ⊢
        cases hr
        rfl
      · have hlast := hlow e List.mem_cons_self
          (e.startPage minFree + (e.pageCount minFree - 1)) ⟨by omega, by omega⟩
        rw [freeEntryPages_setRun hr (by omega)]
        refine count_setRun_true fun i hi => ?_
        have hpage : e.Frees minFree (e.startPage minFree + i) := ⟨by omega, by omega⟩
        have hin := hinside i hi
        rw [Nat.mod_eq_of_lt (hlow e List.mem_cons_self _ hpage)] at hin
        have hused := hfresh e List.mem_cons_self _ hpage
        rw [List.getElem?_eq_getElem hin] at hused ⊢
        simpa using hused
    have hsmall : r.kpmmFreePagesAmount < 2 ^ 32 := hfreed.counter ▸ Nat.mod_lt _ (by decide)
    have htail := ih hsmall h (fun e' he' => hlow e' (List.mem_cons_of_mem _ he')) hrest (by
      intro e' he' q hq hfree
      rcases (hflags q).1 hfree with hwas | ⟨q', hq', hmod⟩
      · exact hfresh e' (List.mem_cons_of_mem _ he') q hq hwas
      · rw [Nat.mod_eq_of_lt (hlow e List.mem_cons_self q' hq')] at hmod
        exact hfirst e' he' q (hmod ▸ hq') hq)
    rw [htail, hcount, List.map_cons, List.sum_cons, Nat.add_assoc]

end Count

/-! ## The bitmap that `kpmm_init` leaves -/

section Exact

variable {table table' : List E820Entry} {physicalEnd : Nat} {h : EarlyHeap}

/-- The loops come to their end, and the bitmap and the counter are exact. -/
theorem freeEntries_exact (hw : WellFormedMap table) (hbytes : bitmapBytes table ≠ 0) :
    ∃ pmm, freeEntries (minFreePhys physicalEnd) table (filledBitmap (bitmapBytes table)) =
        .ok pmm ∧
      pmm.kpmmBitmap.length = bitmapBytes table ∧
      (∀ p : Nat, pmm.flags[p]? = some true ↔
        ∃ e ∈ table, e.Frees (minFreePhys physicalEnd) p) ∧
      pmm.kpmmFreePagesAmount = pmm.flags.count true := by
  obtain ⟨-, hcovers, hsmall⟩ := pagesAmount_eq hw hbytes
  have hlen : (filledBitmap (bitmapBytes table)).flags.length = 8 * bitmapBytes table := by
    rw [flags_filledBitmap, List.length_replicate]
  have hlow : ∀ e ∈ table, ∀ q, e.Frees (minFreePhys physicalEnd) q → q < 2 ^ 35 := by
    intro e he q hq
    have := frees_lt_pagesAmount hw hbytes he hq
    omega
  have hzero : (filledBitmap (bitmapBytes table)).kpmmFreePagesAmount < 2 ^ 32 :=
    (by decide : 0 < 2 ^ 32)
  have hinside : ∀ e ∈ table, ∀ q, e.Frees (minFreePhys physicalEnd) q →
      q % 2 ^ 35 < (filledBitmap (bitmapBytes table)).flags.length := by
    intro e he q hq
    have := frees_lt_pagesAmount hw hbytes he hq
    rw [Nat.mod_eq_of_lt (hlow e he q hq), hlen]
    omega
  obtain ⟨pmm, hpmm, hfreed⟩ := freeEntries_spec hzero hinside
  have hapart : table.Pairwise fun a b => ∀ q, a.Frees (minFreePhys physicalEnd) q →
      ¬ b.Frees (minFreePhys physicalEnd) q :=
    hw.disjoint.imp_of_mem fun ha hb hab q => frees_disjoint (hw.ends _ ha) (hw.ends _ hb) hab
  have hcount := freeEntries_count hzero hpmm hlow hapart
    (fun e he q _ => not_free_filledBitmap (bitmapBytes table) q)
  have hnone : (filledBitmap (bitmapBytes table)).flags.count true = 0 := by
    rw [flags_filledBitmap, List.count_replicate]
    rfl
  refine ⟨pmm, hpmm, ?_, ?_, ?_⟩
  · rw [hfreed.length]
    exact List.length_replicate
  · intro p
    rw [hfreed.flags]
    constructor
    · rintro (hfree | ⟨q, ⟨e, he, hq⟩, hmod⟩)
      · exact absurd hfree (not_free_filledBitmap _ _)
      · rw [Nat.mod_eq_of_lt (hlow e he q hq)] at hmod
        exact ⟨e, he, hmod ▸ hq⟩
    · rintro ⟨e, he, hp⟩
      exact Or.inr ⟨p, ⟨e, he, hp⟩, Nat.mod_eq_of_lt (hlow e he p hp)⟩
  · have hle : pmm.flags.count true ≤ pmm.flags.length := List.count_le_length
    rw [hfreed.length_flags, hlen] at hle
    rw [hfreed.counter, hcount, hnone]
    exact u32_eq (by
      show 0 + _ < 2 ^ 32
      omega)

/-- The bytes of a bitmap are determined by its flags. -/
theorem clearBits_injective : Function.Injective clearBits := by
  intro bytes
  induction bytes with
  | nil =>
    intro bytes' h
    have hlen := congrArg List.length h
    rw [length_clearBits, length_clearBits] at hlen
    exact (List.length_eq_zero_iff.1 (by simpa using hlen.symm)).symm
  | cons byte bytes ih =>
    intro bytes' h
    cases bytes' with
    | nil => simpa using congrArg List.length h
    | cons byte' bytes' =>
      obtain ⟨hbyte, hrest⟩ := List.append_inj h (by simp)
      have hsame : byte = byte' := by
        ext j hj
        have hj' := congrArg (fun l => l[j]?) hbyte
        simp only [getElem?_byteClearBits _ hj] at hj'
        simpa [BitVec.getLsbD_eq_getElem hj] using hj'
      rw [hsame, ih hrest]

theorem Pmm.eq_of_flags {s t : Pmm} (hflags : s.flags = t.flags)
    (hfree : s.kpmmFreePagesAmount = t.kpmmFreePagesAmount) : s = t := by
  cases s
  cases t
  cases clearBits_injective hflags
  cases hfree
  rfl

/-- Two lists of flags are equal if the same items are free. -/
theorem flags_ext {fs gs : List Bool} (hlen : fs.length = gs.length)
    (hfree : ∀ k : Nat, fs[k]? = some true ↔ gs[k]? = some true) : fs = gs := by
  refine List.ext_getElem hlen fun k hf hg => ?_
  have hk := hfree k
  rw [List.getElem?_eq_getElem hf, List.getElem?_eq_getElem hg, Option.some_inj,
    Option.some_inj] at hk
  exact Bool.eq_iff_iff.2 hk

/-- The loops leave the same bitmap for every order of the entries. -/
theorem freeEntries_perm (hw : WellFormedMap table) (hbytes : bitmapBytes table ≠ 0)
    (hperm : table'.Perm table) :
    freeEntries (minFreePhys physicalEnd) table' (filledBitmap (bitmapBytes table)) =
      freeEntries (minFreePhys physicalEnd) table (filledBitmap (bitmapBytes table)) := by
  have hsame : bitmapBytes table' = bitmapBytes table := by
    rw [bitmapBytes, bitmapBytes, pagesAmount, pagesAmount, maxPhys_perm hperm]
  obtain ⟨s, hs, hslen, hsflags, hscount⟩ := @freeEntries_exact table physicalEnd hw hbytes
  obtain ⟨t, ht, htlen, htflags, htcount⟩ :=
    @freeEntries_exact table' physicalEnd (hw.perm hperm) (by rwa [hsame])
  rw [hsame] at ht htlen
  have hflags : t.flags = s.flags := by
    refine flags_ext ?_ ?_
    · rw [Pmm.length_flags, Pmm.length_flags, htlen, hslen]
    · intro k
      rw [htflags, hsflags]
      simp only [hperm.mem_iff]
  have hcounter : t.kpmmFreePagesAmount = s.kpmmFreePagesAmount := by
    rw [htcount, hscount, hflags]
  rw [hs, ht, Pmm.eq_of_flags hflags hcounter]

/-- **`kpmm_init` is exact on every memory map of disjoint regions below 16 TiB**: it accesses no
byte outside the bitmap; what it leaves is exact; and every order of the entries gives the same
result.  The linker puts the kernel at `KERNEL_VIRTUAL_BASE` above its physical address. -/
theorem kpmmInit_exact (hw : WellFormedMap table)
    (hlink : kernelVirtualBase + physicalEnd < 2 ^ 32) :
    kpmmInit table h physicalEnd ≠ .error .wildAccess ∧
      (∀ b, kpmmInit table h physicalEnd = .ok b → ExactMap table physicalEnd b) ∧
      ∀ table', table'.Perm table →
        kpmmInit table' h physicalEnd = kpmmInit table h physicalEnd := by
  refine ⟨?_, ?_, ?_⟩
  · intro hwild
    obtain ⟨hbytes, hnone⟩ := freeEntries_of_wildAccess hwild
    obtain ⟨pmm, hpmm, -⟩ := @freeEntries_exact table physicalEnd hw hbytes
    exact hnone pmm hpmm
  · intro b hb
    obtain ⟨hpages, hbytes, hne, -, hfree⟩ := kpmmInit_ok hb
    obtain ⟨pmm, hpmm, hlen, hflags, hcount⟩ := @freeEntries_exact table physicalEnd hw hne
    obtain rfl : b.pmm = pmm := Except.ok.inj (hfree.symm.trans hpmm)
    rw [← hbytes] at hlen
    have hcovers : b.kpmmPagesAmount ≤ 8 * b.kpmmBitmapBytesAmout := by
      rw [hpages, hbytes]
      exact (pagesAmount_eq hw hne).2.1
    refine ⟨hlen, hcovers, ?_, ?_, hcount⟩
    · intro p _
      rw [hflags, usablePage_iff hw hlink]
    · intro p hp hlt
      rw [← hlen, ← Pmm.length_flags] at hlt
      have hused : b.pmm.flags[p]? ≠ some true := by
        intro hfree
        obtain ⟨e, he, hp'⟩ := (hflags p).1 hfree
        have hbelow := frees_lt_pagesAmount hw hne he hp'
        omega
      rw [List.getElem?_eq_getElem hlt] at hused ⊢
      simpa using hused
  · intro table' hperm
    have hmax := maxPhys_perm hperm
    have hpages : pagesAmount table' = pagesAmount table := by
      rw [pagesAmount, pagesAmount, hmax]
    have hbytes : bitmapBytes table' = bitmapBytes table := by
      rw [bitmapBytes, bitmapBytes, hpages]
    cases hmalloc : h.malloc (bitmapBytes table) with
    | none => simp only [kpmmInit, hbytes, hmalloc]
    | some r =>
      obtain ⟨ptr, h'⟩ := r
      rw [kpmmInit_of_malloc hmalloc, kpmmInit_of_malloc (by rwa [hbytes]), hpages, hbytes]
      by_cases hptr : ptr = 0
      · rw [if_pos hptr, if_pos hptr]
      · rw [freeEntries_perm hw (bitmapBytes_ne_zero hmalloc hptr) hperm]

/-- Two regions in the wrong order, one of them below the bound for free pages. -/
theorem kpmmInit_exact_twoRegions :
    let table : List E820Entry := [⟨0x100800, 0x2800, 1⟩, ⟨0, 0x9fc00, 1⟩]
    let h : EarlyHeap := ⟨0x200000, 0x240000, true⟩
    kpmmInit table h 0x100100 ≠ .error .wildAccess ∧
      (∀ b, kpmmInit table h 0x100100 = .ok b → ExactMap table 0x100100 b) ∧
      ∀ table', table'.Perm table → kpmmInit table' h 0x100100 = kpmmInit table h 0x100100 := by
  refine kpmmInit_exact ⟨?_, by decide⟩ (by decide)
  refine List.pairwise_pair.2 ?_
  refine Set.disjoint_left.2 fun a ha hb => ?_
  have h1 := ha.1
  have h2 := hb.2
  simp only at h1 h2
  omega

end Exact

end DelOs
