import DelOs.Memory.E820

/-!
# Page numbers and page addresses

The bitmap numbers pages from a 64-bit memory map, and `kpmm_bitmap_get_page_addr` cuts the
address of a page to 32 bits.

* `AllocCall`, `allocCalls` — the calls of a run of `kpmm_alloc_pages`.
* `OwnAddresses` — whatever the run, a call that marks the pages `i`, ..., returns the address of
  page `i`, not null, and different calls return different memory.
* `UsableBelow4G` — the usable memory of the map lies below 4 GiB, page 0 apart.
* `ownAddresses_iff` — **pages are handed out at their own addresses exactly if it does**.
* `exists_call_at` — a run of single pages comes to every free page.
-/

namespace DelOs

open FlagRuns

/-! ## Runs of allocations -/

/-- A call of `kpmm_alloc_pages` that returned. -/
structure AllocCall where
  before : Pmm
  pageCount : Nat
  ptr : Nat
  after : Pmm

/-- The calls for the page counts of the list, one after the other; `none` when one panics. -/
def allocCalls (s : Pmm) : List Nat → Option (List AllocCall)
  | [] => some []
  | n :: counts => do
      let (ptr, t) ← s.allocPages n
      let calls ← allocCalls t counts
      return ⟨s, n, ptr, t⟩ :: calls

/-- The call marks the pages `i`, `i + 1`, ... as used, and no others. -/
structure AllocCall.Marks (c : AllocCall) (i : Nat) : Prop where
  pos : 0 < c.pageCount
  free : ∀ j < c.pageCount, c.before.flags[i + j]? = some true
  used : ∀ j < c.pageCount, c.after.flags[i + j]? = some false
  others : ∀ x : Nat, x < i ∨ i + c.pageCount ≤ x → c.after.flags[x]? = c.before.flags[x]?

/-- The memory that a call returns. -/
def AllocCall.memory (c : AllocCall) : Set Nat :=
  Set.Ico c.ptr (c.ptr + c.pageCount * kpmmPageSize)

/-- In every run from `s` the pages are handed out at their own addresses. -/
def OwnAddresses (s : Pmm) : Prop :=
  ∀ counts calls, allocCalls s counts = some calls →
    (∀ c ∈ calls, ∀ i, c.Marks i → c.ptr = i * kpmmPageSize ∧ c.ptr ≠ 0) ∧
    calls.Pairwise fun c d => ∀ i j, c.Marks i → d.Marks j → Disjoint c.memory d.memory

/-- The number of every page that the map frees is that of a page below 4 GiB, and not 0. -/
def UsableBelow4G (table : List E820Entry) (physicalEnd : Nat) : Prop :=
  ∀ e ∈ table, ∀ q, e.Frees (minFreePhys physicalEnd) q →
    0 < q % 2 ^ 35 ∧ q % 2 ^ 35 < 2 ^ 20

theorem allocCalls_cons {s : Pmm} {n : Nat} {counts : List Nat} {calls : List AllocCall}
    (h : allocCalls s (n :: counts) = some calls) :
    ∃ ptr t rest, s.allocPages n = some (ptr, t) ∧ allocCalls t counts = some rest ∧
      calls = ⟨s, n, ptr, t⟩ :: rest := by
  obtain ⟨⟨ptr, t⟩, halloc, h⟩ := Option.bind_eq_some_iff.1 h
  obtain ⟨rest, hrest, h⟩ := Option.bind_eq_some_iff.1 h
  exact ⟨ptr, t, rest, halloc, hrest, (Option.some.inj h).symm⟩

theorem allocCalls_of {s t : Pmm} {n ptr : Nat} {counts : List Nat} {calls : List AllocCall}
    (halloc : s.allocPages n = some (ptr, t)) (hcalls : allocCalls t counts = some calls) :
    allocCalls s (n :: counts) = some (⟨s, n, ptr, t⟩ :: calls) := by
  rw [allocCalls, halloc]
  show (allocCalls t counts).bind _ = _
  rw [hcalls]
  rfl

/-! ## Below 4 GiB -/

/-- Every free page lies below 4 GiB, and page 0 is used. -/
structure LowPages (s : Pmm) : Prop where
  below : s.Below4G
  zero : s.flags[0]? ≠ some true

section Low

variable {s t : Pmm} {n ptr start i : Nat}

/-- What a call marks is the run that it found. -/
theorem AllocCall.Marks.eq (hm : AllocCall.Marks ⟨s, n, ptr, t⟩ i)
    (hend : start + n ≤ s.flags.length) (hflags : t.flags = setRun false s.flags start n) :
    i = start := by
  have hget : ∀ x : Nat, t.flags[x]? =
      if start ≤ x ∧ x < start + n then some false else s.flags[x]? := by
    intro x
    rw [hflags]
    exact getElem?_setRun false hend x
  have hpos : 0 < n := hm.pos
  -- a marked page has changed, so that it is in the run
  have hin : ∀ j < n, start ≤ i + j ∧ i + j < start + n := by
    intro j hj
    by_contra hout
    have hsame := hget (i + j)
    rw [if_neg hout, hm.free j hj] at hsame
    have hused : t.flags[i + j]? = some false := hm.used j hj
    rw [hsame] at hused
    cases hused
  have hfirst := hin 0 hpos
  have hlast := hin (n - 1) (by omega)
  omega

/-- One call: it marks nothing, or the run from `start` on, and returns the address of that
page. -/
theorem LowPages.allocPages (hs : LowPages s) (h : s.allocPages n = some (ptr, t)) :
    LowPages t ∧ (∀ x : Nat, t.flags[x]? = some true → s.flags[x]? = some true) ∧
      ∀ i, AllocCall.Marks ⟨s, n, ptr, t⟩ i → ptr = i * kpmmPageSize ∧ ptr ≠ 0 := by
  rcases Pmm.allocPages_cases hs.below h with ⟨-, rfl, rfl⟩ |
      ⟨start, hn, hfirst, hend, rfl, hflags, -⟩
  · refine ⟨hs, fun _ h => h, fun i hm => ?_⟩
    have hfree : t.flags[i + 0]? = some true := hm.free 0 hm.pos
    have hused : t.flags[i + 0]? = some false := hm.used 0 hm.pos
    rw [hfree] at hused
    cases hused
  · have hwas : ∀ x : Nat, t.flags[x]? = some true → s.flags[x]? = some true := by
      intro x hx
      rw [hflags, getElem?_setRun false hend] at hx
      split_ifs at hx
      · cases hx
      · exact hx
    refine ⟨⟨fun x hx => hs.below x (hwas x hx), fun h0 => hs.zero (hwas 0 h0)⟩, hwas, ?_⟩
    intro i hm
    obtain rfl := hm.eq hend hflags
    refine ⟨rfl, fun h0 => ?_⟩
    have hzero : i = 0 := by
      simp only [kpmmPageSize] at h0
      omega
    subst hzero
    exact hs.zero (hm.free 0 hm.pos)

/-- **Below 4 GiB every run hands the pages out at their own addresses**, and what a call takes was
free when the run began. -/
theorem LowPages.allocCalls (hs : LowPages s) {counts : List Nat} {calls : List AllocCall}
    (h : allocCalls s counts = some calls) :
    (∀ c ∈ calls, ∀ x : Nat, c.before.flags[x]? = some true → s.flags[x]? = some true) ∧
    (∀ c ∈ calls, ∀ i, c.Marks i → c.ptr = i * kpmmPageSize ∧ c.ptr ≠ 0) ∧
    calls.Pairwise fun c d => ∀ i j, c.Marks i → d.Marks j → Disjoint c.memory d.memory := by
  induction counts generalizing s calls with
  | nil =>
    obtain rfl := (Option.some.inj h).symm
    exact ⟨by simp, by simp, List.Pairwise.nil⟩
  | cons n counts ih =>
    obtain ⟨ptr, t, rest, halloc, hrest, rfl⟩ := allocCalls_cons h
    obtain ⟨ht, hwas, haddr⟩ := hs.allocPages halloc
    obtain ⟨hfree, haddrs, hdisj⟩ := ih ht hrest
    refine ⟨?_, List.forall_mem_cons.2 ⟨haddr, haddrs⟩, List.pairwise_cons.2 ⟨?_, hdisj⟩⟩
    · exact List.forall_mem_cons.2 ⟨fun _ hx => hx, fun c hc x hx => hwas x (hfree c hc x hx)⟩
    · -- the pages of the first call are used from then on
      intro d hd i j hi hj
      obtain ⟨hptr, -⟩ := haddr i hi
      obtain ⟨hdptr, -⟩ := haddrs d hd j hj
      have hapart : i + n ≤ j ∨ j + d.pageCount ≤ i := by
        by_contra hover
        have hpos : 0 < n := hi.pos
        have hdpos := hj.pos
        have hpage : ∃ k, i ≤ k ∧ k < i + n ∧ j ≤ k ∧ k < j + d.pageCount :=
          ⟨max i j, by omega, by omega, by omega, by omega⟩
        obtain ⟨k, h1, h2, h3, h4⟩ := hpage
        have hused : t.flags[i + (k - i)]? = some false := hi.used (k - i) (by simp only; omega)
        have hlater := hfree d hd _ (hj.free (k - j) (by omega))
        rw [show j + (k - j) = i + (k - i) by omega, hused] at hlater
        cases hlater
      refine Set.disjoint_left.2 fun a ha hb => ?_
      have h1 := ha.1
      have h2 := ha.2
      have h3 := hb.1
      have h4 := hb.2
      simp only [hptr, hdptr, kpmmPageSize] at h1 h2 h3 h4
      omega

end Low

/-! ## Every free page is reached -/

/-- A run of single pages comes to every free page, as long as the counter does not fall behind
the bitmap. -/
theorem exists_call_at {s : Pmm} (hs : s.Numbered) (hlt : s.kpmmFreePagesAmount < 2 ^ 32)
    (hcount : s.flags.count true ≤ s.kpmmFreePagesAmount) {p : Nat}
    (hp : s.flags[p]? = some true) :
    ∃ counts calls, allocCalls s counts = some calls ∧
      ∃ c ∈ calls, c.Marks p ∧ c.ptr = Pmm.getPageAddr p := by
  generalize hk : s.flags.count true = k at hcount
  induction k generalizing s with
  | zero =>
    have hmem := List.mem_of_getElem? hp
    exact absurd hmem (List.count_eq_zero.1 hk)
  | succ k ih =>
    -- the next call takes the first free page
    obtain ⟨start, hfirst⟩ : ∃ start, IsFirstRun 1 s.flags start := by
      cases hres : search 1 s.flags 0 0 0 with
      | none =>
        refine absurd ?_ ((search_eq_none Nat.one_pos).1 hres p)
        intro i hi
        obtain rfl : i = 0 := by omega
        exact hp
      | some start => exact ⟨start, (search_eq_some Nat.one_pos).1 hres⟩
    obtain ⟨t, halloc⟩ := Pmm.allocPages_firstRun hs Nat.one_pos (by omega) hfirst
    rcases Pmm.allocPages_run hs halloc with ⟨hno, -⟩ |
        ⟨start', -, hfirst', hend, -, hflags, hlen, hfree⟩
    · omega
    obtain rfl := hfirst.unique hfirst'
    have hget : ∀ x : Nat, t.flags[x]? = if start = x then some false else s.flags[x]? := by
      intro x
      rw [hflags, getElem?_setRun false hend]
      by_cases hx : start = x
      · rw [if_pos hx, if_pos (by omega)]
      · rw [if_neg hx, if_neg (by omega)]
    have htook := count_setRun_false hfirst.1
    rw [← hflags] at htook
    by_cases hhere : start = p
    · subst hhere
      refine ⟨[1], [⟨s, 1, Pmm.getPageAddr start, t⟩], ?_, _, List.mem_singleton_self _, ?_, rfl⟩
      · exact allocCalls_of halloc rfl
      · refine ⟨Nat.one_pos, hfirst.1, ?_, ?_⟩
        · intro j hj
          rw [hget, if_pos (by simp only at hj; omega)]
        · intro x hx
          rw [hget, if_neg (by simp only at hx; omega)]
    · have hnumbered : t.Numbered := by
        intro n a hn hrun
        refine hs n a hn fun j hj => ?_
        have hj' := hrun j hj
        rw [hget] at hj'
        split_ifs at hj'
        · cases hj'
        · exact hj'
      have hcounter := hfree (by omega) hlt
      have hpt : t.flags[p]? = some true := by rw [hget, if_neg hhere, hp]
      obtain ⟨counts, calls, hcalls, c, hc, hmarks⟩ :=
        ih hnumbered (by omega) hpt (by omega) (by omega)
      refine ⟨1 :: counts, ⟨s, 1, Pmm.getPageAddr start, t⟩ :: calls, ?_, c,
        List.mem_cons_of_mem _ hc, hmarks⟩
      exact allocCalls_of halloc hcalls

/-! ## The bitmap of `kpmm_init` -/

section Booted

variable {table : List E820Entry} {h₀ h : EarlyHeap} {physicalEnd symbol : Nat} {b : PmmBoot}

/-- The free pages that `kpmm_init` leaves, by number. -/
theorem kpmmInit_flags (hb : kpmmInit table h physicalEnd = .ok b) :
    Freed (filledBitmap (bitmapBytes table)) b.pmm
      (fun q => ∃ e ∈ table, e.Frees (minFreePhys physicalEnd) q)
      (table.map (E820Entry.pageCount (minFreePhys physicalEnd))).sum := by
  obtain ⟨-, -, -, -, hfree⟩ := kpmmInit_ok hb
  have hzero : (filledBitmap (bitmapBytes table)).kpmmFreePagesAmount < 2 ^ 32 :=
    (by decide : 0 < 2 ^ 32)
  obtain ⟨pmm, hpmm, hfreed⟩ := freeEntries_spec hzero fun e he q hq =>
    freeEntries_inside hzero hfree he hq
  obtain rfl := Except.ok.inj (hfree.symm.trans hpmm)
  exact hfreed

theorem kpmmInit_flags_iff (hb : kpmmInit table h physicalEnd = .ok b) (p : Nat) :
    b.pmm.flags[p]? = some true ↔
      ∃ q, (∃ e ∈ table, e.Frees (minFreePhys physicalEnd) q) ∧ q % 2 ^ 35 = p := by
  rw [(kpmmInit_flags hb).flags]
  exact or_iff_right (not_free_filledBitmap _ _)

theorem kpmmInit_length (hb : kpmmInit table h physicalEnd = .ok b) :
    b.pmm.kpmmBitmap.length = bitmapBytes table :=
  (kpmmInit_flags hb).length.trans List.length_replicate

theorem bitmapBytes_lt (table : List E820Entry) : bitmapBytes table < 2 ^ 29 := by
  unfold bitmapBytes u32
  omega

/-- A map below 4 GiB gives a bitmap below 4 GiB. -/
theorem UsableBelow4G.lowPages (hu : UsableBelow4G table physicalEnd)
    (hb : kpmmInit table h physicalEnd = .ok b) : LowPages b.pmm := by
  refine ⟨fun p hp => ?_, fun h0 => ?_⟩
  · obtain ⟨q, ⟨e, he, hq⟩, rfl⟩ := (kpmmInit_flags_iff hb p).1 hp
    exact (hu e he q hq).2
  · obtain ⟨q, ⟨e, he, hq⟩, hmod⟩ := (kpmmInit_flags_iff hb 0).1 h0
    have := (hu e he q hq).1
    omega

/-- An entry that stays inside the bitmap frees no more pages than the bitmap has. -/
theorem pageCount_le (hb : kpmmInit table h physicalEnd = .ok b) {e : E820Entry} (he : e ∈ table) :
    e.pageCount (minFreePhys physicalEnd) ≤ 8 * bitmapBytes table := by
  obtain ⟨-, -, -, -, hfree⟩ := kpmmInit_ok hb
  have hsmall := bitmapBytes_lt table
  by_contra hmany
  -- the pages of the entry are consecutive numbers, so that one of them is that of the last bit
  have hinside : ∀ i < e.pageCount (minFreePhys physicalEnd),
      (e.startPage (minFreePhys physicalEnd) + i) % 2 ^ 35 < 8 * bitmapBytes table := by
    intro i hi
    have h := freeEntries_inside (by decide : (0 : Nat) < 2 ^ 32) hfree he
      (show e.Frees _ (e.startPage (minFreePhys physicalEnd) + i) from ⟨by omega, by omega⟩)
    rwa [flags_filledBitmap, List.length_replicate] at h
  have hfirst := hinside 0 (by omega)
  have hlast := hinside (8 * bitmapBytes table -
    e.startPage (minFreePhys physicalEnd) % 2 ^ 35) (by omega)
  omega

/-- With the table of the boot loader and the early heap the counter does not wrap. -/
theorem kpmmInit_counter (hinit : h₀.mallocInit symbol = some h) (hsymbol : symbol < 2 ^ 32)
    (htable : table.length ≤ ke820MaxEntries) (hb : kpmmInit table h physicalEnd = .ok b) :
    b.pmm.flags.count true ≤ b.pmm.kpmmFreePagesAmount ∧ b.pmm.kpmmFreePagesAmount < 2 ^ 32 := by
  have hfreed := kpmmInit_flags hb
  obtain ⟨-, -, -, hroom, -⟩ := kpmmInit_ok hb
  have hbytes : bitmapBytes table ≤ kearlySize := by
    have hsmall := bitmapBytes_lt table
    rw [EarlyHeap.room_mallocInit hinit hsymbol, alignUp, u32_eq (by omega)] at hroom
    omega
  have hsum : (table.map (E820Entry.pageCount (minFreePhys physicalEnd))).sum ≤
      table.length * (8 * kearlySize) := by
    have hle := List.sum_le_card_nsmul
      (table.map (E820Entry.pageCount (minFreePhys physicalEnd))) (8 * kearlySize) (by
        intro n hn
        obtain ⟨e, he, rfl⟩ := List.mem_map.1 hn
        exact (pageCount_le hb he).trans (Nat.mul_le_mul_left 8 hbytes))
    rwa [List.length_map, smul_eq_mul] at hle
  have htotal : (table.map (E820Entry.pageCount (minFreePhys physicalEnd))).sum < 2 ^ 32 := by
    simp only [ke820MaxEntries, kearlySize] at htable hsum
    omega
  have hcounter := hfreed.counter
  have hcount := hfreed.count_le
  have hnone : (filledBitmap (bitmapBytes table)).flags.count true = 0 := by
    rw [flags_filledBitmap, List.count_replicate]
    rfl
  rw [show (filledBitmap (bitmapBytes table)).kpmmFreePagesAmount = 0 from rfl, Nat.zero_add,
    u32_eq htotal] at hcounter
  omega

/-- `kpmm_init` succeeds when the early heap has room and the loops stay inside the bitmap. -/
theorem exists_kpmmInit {h' : EarlyHeap} {ptr : Nat}
    (hmalloc : h.malloc (bitmapBytes table) = some (ptr, h')) (hptr : ptr ≠ 0)
    (hin : ∀ e ∈ table, ∀ q, e.Frees (minFreePhys physicalEnd) q →
      q % 2 ^ 35 < 8 * bitmapBytes table) :
    ∃ b, kpmmInit table h physicalEnd = .ok b := by
  have hzero : (filledBitmap (bitmapBytes table)).kpmmFreePagesAmount < 2 ^ 32 :=
    (by decide : 0 < 2 ^ 32)
  obtain ⟨pmm, hpmm, -⟩ := @freeEntries_spec (minFreePhys physicalEnd) table _ hzero (by
    intro e he q hq
    rw [flags_filledBitmap, List.length_replicate]
    exact hin e he q hq)
  rw [kpmmInit_of_malloc hmalloc, if_neg hptr, hpmm]
  exact ⟨_, rfl⟩

/-- A page that is 0 or above 4 GiB is not handed out at its own address. -/
theorem not_ownAddresses (hinit : h₀.mallocInit symbol = some h) (hsymbol : symbol < 2 ^ 32)
    (htable : table.length ≤ ke820MaxEntries) (hb : kpmmInit table h physicalEnd = .ok b)
    {e : E820Entry} (he : e ∈ table) {q : Nat} (hq : e.Frees (minFreePhys physicalEnd) q)
    (hbad : ¬ (0 < q % 2 ^ 35 ∧ q % 2 ^ 35 < 2 ^ 20)) : ¬ OwnAddresses b.pmm := by
  intro hown
  obtain ⟨hcount, hlt⟩ := kpmmInit_counter hinit hsymbol htable hb
  have hnumbered : b.pmm.Numbered := by
    refine Pmm.numbered_of_length ?_
    have hsmall := bitmapBytes_lt table
    rw [kpmmInit_length hb]
    omega
  have hfree := (kpmmInit_flags_iff hb (q % 2 ^ 35)).2 ⟨q, ⟨e, he, hq⟩, rfl⟩
  obtain ⟨counts, calls, hcalls, c, hc, hmarks, hptr⟩ :=
    exists_call_at hnumbered hlt hcount hfree
  obtain ⟨haddr, hnull⟩ := (hown counts calls hcalls).1 c hc _ hmarks
  have hcut : c.ptr < 2 ^ 32 := by
    rw [hptr]
    exact Nat.mod_lt _ (by decide)
  simp only [kpmmPageSize] at haddr
  omega

/-- **Pages are handed out at their own addresses exactly if the usable memory lies below 4 GiB**.
The boot loader stores at most `KE820_MAX_ENTRIES` entries; memory below 4 GiB is enough for tables
of any size. -/
theorem ownAddresses_iff (hinit : h₀.mallocInit symbol = some h) (hsymbol : symbol < 2 ^ 32)
    (hb : kpmmInit table h physicalEnd = .ok b) :
    (UsableBelow4G table physicalEnd → OwnAddresses b.pmm) ∧
      (table.length ≤ ke820MaxEntries →
        (OwnAddresses b.pmm ↔ UsableBelow4G table physicalEnd)) := by
  have henough : UsableBelow4G table physicalEnd → OwnAddresses b.pmm :=
    fun hu counts calls hcalls => ((hu.lowPages hb).allocCalls hcalls).2
  refine ⟨henough, fun htable => ⟨fun hown e he q hq => ?_, henough⟩⟩
  by_contra hbad
  exact not_ownAddresses hinit hsymbol htable hb he hq hbad hown

/-- One page at 1 MiB. -/
theorem ownAddresses_iff_onePage :
    let h : EarlyHeap := ⟨0x200000, 0x240000, true⟩
    ∃ b, kpmmInit [⟨0x100000, 0x1000, 1⟩] h 0x100000 = .ok b ∧
      (UsableBelow4G [⟨0x100000, 0x1000, 1⟩] 0x100000 → OwnAddresses b.pmm) ∧
      ([(⟨0x100000, 0x1000, 1⟩ : E820Entry)].length ≤ ke820MaxEntries →
        (OwnAddresses b.pmm ↔ UsableBelow4G [⟨0x100000, 0x1000, 1⟩] 0x100000)) := by
  refine ⟨⟨257, 33, 0x200000, ⟨List.replicate 32 0xFF#8 ++ [0xFE#8], 1⟩,
    ⟨0x200028, 0x240000, true⟩⟩, ?_⟩
  have hb : kpmmInit [⟨0x100000, 0x1000, 1⟩] ⟨0x200000, 0x240000, true⟩ 0x100000 =
      .ok ⟨257, 33, 0x200000, ⟨List.replicate 32 0xFF#8 ++ [0xFE#8], 1⟩,
        ⟨0x200028, 0x240000, true⟩⟩ := by
    decide +kernel
  have hinit : EarlyHeap.mallocInit ⟨0, 0, true⟩ 0x200000 = some ⟨0x200000, 0x240000, true⟩ := by
    decide
  exact ⟨hb, ownAddresses_iff hinit (by decide) hb⟩

/-- The page at 4 GiB is usable, and handed out as the null pointer. -/
theorem ownAddresses_at4G :
    let h : EarlyHeap := ⟨0x200000, 0x240000, true⟩
    ∃ b, kpmmInit [⟨0x100000000, 0x1000, 1⟩] h 0x180000 = .ok b ∧ ¬ OwnAddresses b.pmm := by
  intro h
  have hinit : EarlyHeap.mallocInit ⟨0, 0, true⟩ 0x200000 = some h := by decide
  have hmalloc : h.malloc (bitmapBytes [⟨0x100000000, 0x1000, 1⟩]) =
      some (0x200000, ⟨0x220008, 0x240000, true⟩) := by decide
  have hpage : E820Entry.Frees (minFreePhys 0x180000) ⟨0x100000000, 0x1000, 1⟩ 0x100000 := by
    decide
  have hstart : E820Entry.startPage (minFreePhys 0x180000) ⟨0x100000000, 0x1000, 1⟩ = 0x100000 := by
    decide
  have hcount : E820Entry.pageCount (minFreePhys 0x180000) ⟨0x100000000, 0x1000, 1⟩ = 1 := by
    decide
  have hbytes : bitmapBytes [⟨0x100000000, 0x1000, 1⟩] = 131073 := by decide
  have hin : ∀ e ∈ [(⟨0x100000000, 0x1000, 1⟩ : E820Entry)], ∀ q,
      e.Frees (minFreePhys 0x180000) q →
        q % 2 ^ 35 < 8 * bitmapBytes [⟨0x100000000, 0x1000, 1⟩] := by
    intro e he q hq
    obtain rfl := List.mem_singleton.1 he
    unfold E820Entry.Frees at hq
    rw [hstart, hcount] at hq
    omega
  obtain ⟨b, hb⟩ := exists_kpmmInit hmalloc (by decide) hin
  exact ⟨b, hb, not_ownAddresses hinit (by decide) (by decide) hb (List.mem_singleton_self _) hpage
    (by decide)⟩

end Booted

end DelOs
