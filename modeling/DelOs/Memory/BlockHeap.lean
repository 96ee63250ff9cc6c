import DelOs.Lib.FirstFit
import DelOs.Memory.Kmalloc

/-!
# The heap as a list of blocks

What `kmalloc` and `kfree` do to the header list, with the memory left out: the heap is a list
of blocks (`FirstFit`), a pointer is the place of its block in the list, and what a payload
holds is a value of any type.  The page layers answer a request to grow by `grant`.

* `kmallocBlocks`, `kfreeBlocks` — the two operations on the list.
* `kmallocBlocks_cases` — everything an allocation can do: refuse, reuse, grow.
* `Represents` — a heap in memory stores a list of blocks, laid end to end from
  `kernel_heap_base` to `kernel_heap_brk`.
* `Represents.kmalloc`, `Represents.kfree`, `Represents.kcalloc` — **the allocator in memory
  refines the list of blocks**: what it does to the memory, it does to the list.
-/

namespace DelOs

open ByteMem FirstFit

universe u

/-! ## Sizes -/

theorem alignUp_eq {n : Nat} (h : n ≤ 2 ^ 29) : alignUp n 8 = (n + 7) / 8 * 8 := by
  rw [alignUp, u32_eq (by omega)]

theorem le_alignUp {n : Nat} (h : n ≤ 2 ^ 29) : n ≤ alignUp n 8 := by
  rw [alignUp_eq h]
  omega

theorem alignUp_le {n : Nat} (h : n ≤ 2 ^ 29) : alignUp n 8 ≤ 2 ^ 29 := by
  rw [alignUp_eq h]
  omega

theorem pagesToGet_eq {n : Nat} (h : n ≤ 2 ^ 29) : pagesToGet n = (n + 4107) / 4096 := by
  rw [pagesToGet, u32_eq (by simp [kmallocHeaderSize, kmallocPageSize]; omega)]
  simp [kmallocHeaderSize, kmallocPageSize]

/-- A new block has room for the request and its header within its pages. -/
theorem le_pagesToGet {n : Nat} (h : n ≤ 2 ^ 29) :
    n + kmallocHeaderSize ≤ kmallocPageSize * pagesToGet n := by
  rw [pagesToGet_eq h]
  simp only [kmallocHeaderSize, kmallocPageSize]
  omega

/-- ... and less than a page more than it needs. -/
theorem pagesToGet_lt {n : Nat} (h : n ≤ 2 ^ 29) :
    kmallocPageSize * pagesToGet n < n + kmallocHeaderSize + kmallocPageSize := by
  rw [pagesToGet_eq h]
  simp only [kmallocHeaderSize, kmallocPageSize]
  omega

/-! ## The operations on the list -/

variable {α : Type u}

/-- `kmalloc` on a list of blocks: first fit, else a new block of whole pages if the page
layers grant it.  A new block holds `junk`. -/
def kmallocBlocks (grant : Bool) (junk : α) (bs : Blocks α) (size : Nat) : Nat × Blocks α :=
  if size = 0 then (0, bs)
  else if find (alignUp size 8) bs ≠ 0 then
    (find (alignUp size 8) bs,
      update (fun b => { b with free := false }) bs (find (alignUp size 8) bs))
  else if alignUp size 8 = 0 ∨ pagesToGet (alignUp size 8) = 0 ∨ grant = false then (0, bs)
  else
    (bs.length + 1,
      ⟨kmallocPageSize * pagesToGet (alignUp size 8) - kmallocHeaderSize, false, junk⟩ :: bs)

/-- `kfree` on a list of blocks; a pointer to no block is left alone. -/
def kfreeBlocks (bs : Blocks α) (p : Nat) : Blocks α :=
  match get bs p with
  | some b => if b.free = true then bs else update (fun b => { b with free := true }) bs p
  | none => bs

/-- **Everything an allocation can do**: refuse and change nothing, take a free block that is
large enough, or push a new one. -/
theorem kmallocBlocks_cases (grant : Bool) (junk : α) (bs : Blocks α) (size : Nat) :
    kmallocBlocks grant junk bs size = (0, bs) ∨
    (∃ p b, get bs p = some b ∧ b.free = true ∧ alignUp size 8 ≤ b.size ∧
      kmallocBlocks grant junk bs size =
        (p, update (fun b => { b with free := false }) bs p)) ∨
    (size ≠ 0 ∧ pagesToGet (alignUp size 8) ≠ 0 ∧
      kmallocBlocks grant junk bs size =
        (bs.length + 1,
          ⟨kmallocPageSize * pagesToGet (alignUp size 8) - kmallocHeaderSize, false, junk⟩
            :: bs)) := by
  unfold kmallocBlocks
  split_ifs with h0 hp hg
  · exact Or.inl rfl
  · obtain ⟨b, hb, hfree, hsize⟩ := get_find hp
    exact Or.inr (Or.inl ⟨_, b, hb, hfree, hsize, rfl⟩)
  · exact Or.inl rfl
  · exact Or.inr (Or.inr ⟨h0, fun hc => hg (Or.inr (Or.inl hc)), rfl⟩)

/-- The pointer an allocation returns was not in use, and it is the only one that becomes
so. -/
theorem live_kmallocBlocks {grant : Bool} {junk : α} {bs : Blocks α} {size p : Nat}
    {bs' : Blocks α} (h : kmallocBlocks grant junk bs size = (p, bs')) (hp : p ≠ 0) :
    ¬ Live bs p ∧ ∀ q, Live bs' q ↔ q = p ∨ Live bs q := by
  rcases kmallocBlocks_cases grant junk bs size with hc | ⟨r, b, hb, hfree, -, hc⟩ | ⟨-, -, hc⟩
  · rw [hc] at h
    exact absurd (Prod.mk.inj h).1.symm hp
  · rw [hc] at h
    obtain ⟨rfl, rfl⟩ := Prod.mk.inj h
    refine ⟨not_live_of_free hb hfree, fun q => ?_⟩
    unfold Live
    rw [get_update]
    by_cases hq : q = r
    · subst hq
      simp [hb]
    · simp [hq]
  · rw [hc] at h
    obtain ⟨rfl, rfl⟩ := Prod.mk.inj h
    refine ⟨fun hl => ?_, fun q => live_push rfl⟩
    obtain ⟨b, hb, -⟩ := hl
    have := (get_bounds hb).2
    omega

/-- An allocation changes no block but its own. -/
theorem get_kmallocBlocks_ne {grant : Bool} {junk : α} {bs bs' : Blocks α} {size p q : Nat}
    (h : kmallocBlocks grant junk bs size = (p, bs')) (hq : q ≠ p) : get bs' q = get bs q := by
  rcases kmallocBlocks_cases grant junk bs size with hc | ⟨r, b, -, -, -, hc⟩ | ⟨-, -, hc⟩
  all_goals rw [hc] at h; obtain ⟨rfl, rfl⟩ := Prod.mk.inj h
  · rfl
  · exact get_update_ne _ hq
  · rw [get_cons, if_neg hq]

/-- The block an allocation returns is in use and has room; no other block changes. -/
theorem get_kmallocBlocks {grant : Bool} {junk : α} {bs : Blocks α} {size p : Nat}
    {bs' : Blocks α} (hs : size ≤ 2 ^ 29) (h : kmallocBlocks grant junk bs size = (p, bs'))
    (hp : p ≠ 0) :
    (∃ b, get bs' p = some b ∧ b.free = false ∧ alignUp size 8 ≤ b.size) ∧
      ∀ q, q ≠ p → get bs' q = get bs q := by
  refine ⟨?_, fun q hq => get_kmallocBlocks_ne h hq⟩
  rcases kmallocBlocks_cases grant junk bs size with hc | ⟨r, b, hb, -, hsize, hc⟩ | ⟨-, -, hc⟩
  · rw [hc] at h
    exact absurd (Prod.mk.inj h).1.symm hp
  · rw [hc] at h
    obtain ⟨rfl, rfl⟩ := Prod.mk.inj h
    exact ⟨_, get_update_self _ hb, rfl, hsize⟩
  · rw [hc] at h
    obtain ⟨rfl, rfl⟩ := Prod.mk.inj h
    have hroom := le_pagesToGet (alignUp_le hs)
    refine ⟨_, by rw [get_cons, if_pos rfl], rfl, ?_⟩
    show alignUp size 8 ≤ kmallocPageSize * pagesToGet (alignUp size 8) - kmallocHeaderSize
    omega

theorem kmallocBlocks_null {grant : Bool} {junk : α} {bs bs' : Blocks α} {size : Nat}
    (h : kmallocBlocks grant junk bs size = (0, bs')) : bs' = bs := by
  rcases kmallocBlocks_cases grant junk bs size with hc | ⟨r, b, hb, -, -, hc⟩ | ⟨-, -, hc⟩
  · rw [hc] at h
    exact (Prod.mk.inj h).2.symm
  · rw [hc] at h
    obtain ⟨rfl, -⟩ := Prod.mk.inj h
    rw [get_zero] at hb
    cases hb
  · rw [hc] at h
    cases (Prod.mk.inj h).1

/-- Freeing a block changes its flag and no other block. -/
theorem get_kfreeBlocks {bs : Blocks α} {p q : Nat} :
    get (kfreeBlocks bs p) q =
      if q = p then (get bs q).map (fun b => { b with free := true }) else get bs q := by
  unfold kfreeBlocks
  cases hp : get bs p with
  | none =>
    by_cases hq : q = p
    · subst hq
      simp [hp]
    · simp [hq]
  | some b =>
    cases hb : b.free with
    | true =>
      by_cases hq : q = p
      · subst hq
        simp [hp, ← hb]
      · simp [hq, hb]
    | false => simp [hb, get_update]

/-! ## The list in memory -/

/-- The word that stores a flag: `OK_TRUE` or `KO_FALSE`. -/
def flagWord (b : Bool) : Nat := if b then 1 else 0

theorem flagWord_eq_one {b : Bool} : flagWord b = 1 ↔ b = true := by cases b <;> decide

/-- The header list from `a` on stores the blocks `bs`, each at the end of the ones below
it. -/
def Headers (m : Mem) (base : Nat) : Blocks α → Nat → Prop
  | [], a => a = 0
  | b :: bs, a =>
      a = top kmallocHeaderSize base bs ∧ headerFree m a = flagWord b.free ∧
        headerSize m a = b.size ∧ Headers m base bs (headerNext m a)

/-- Where the payload of a block starts. -/
abbrev payload (bs : Blocks α) (p : Nat) : Nat := address kmallocHeaderSize kernelHeapStart bs p

/-- The end of the last block. -/
abbrev blocksEnd (bs : Blocks α) : Nat := top kmallocHeaderSize kernelHeapStart bs

/-- A heap stores the blocks `bs`: they tile the addresses from the base to the break, in
whole pages. -/
structure Represents {σ : Type} (h : Heap σ) (bs : Blocks α) : Prop where
  base : h.kernelHeapBase = kernelHeapStart
  limit : h.kernelHeapLimit = kernelHeapEnd
  brk : h.kernelHeapBrk = blocksEnd bs
  brk_le : blocksEnd bs ≤ kernelHeapEnd
  headers : Headers h.mem kernelHeapStart bs h.kernelHeapLh
  whole : ∀ p b, get bs p = some b → (b.size + kmallocHeaderSize) % kmallocPageSize = 0

/-- A header reads the same in two memories that agree on its twelve bytes. -/
theorem header_congr {m m' : Mem} {a : Nat} (h : ∀ x, a ≤ x → x < a + 12 → m' x = m x) :
    headerFree m' a = headerFree m a ∧ headerSize m' a = headerSize m a ∧
      headerNext m' a = headerNext m a := by
  refine ⟨read32_congr fun x h1 h2 => h x (by omega) (by omega),
    read32_congr fun x h1 h2 => h x (by omega) (by omega),
    read32_congr fun x h1 h2 => h x (by omega) (by omega)⟩

/-- The list depends only on the bytes of its headers. -/
theorem Headers.congr {m m' : Mem} {base a : Nat} {bs : Blocks α} (h : Headers m base bs a)
    (hm : ∀ p b, get bs p = some b → ∀ x, address kmallocHeaderSize base bs p ≤ x + 12 →
      x < address kmallocHeaderSize base bs p → m' x = m x) : Headers m' base bs a := by
  induction bs generalizing a with
  | nil => exact h
  | cons b bs ih =>
    obtain ⟨ha, hfree, hsize, hrest⟩ := h
    have haddr : address kmallocHeaderSize base (b :: bs) (bs.length + 1) = a + 12 := by
      simp [address, ha, kmallocHeaderSize]
    have hhead : ∀ x, a ≤ x → x < a + 12 → m' x = m x := by
      intro x hx1 hx2
      exact hm (bs.length + 1) b (by simp [get_cons]) x (by omega) (by omega)
    obtain ⟨h1, h2, h3⟩ := header_congr hhead
    refine ⟨ha, h1.trans hfree, h2.trans hsize, ?_⟩
    rw [h3]
    refine ih hrest fun p c hc x hx1 hx2 => ?_
    have hle := (get_bounds hc).2
    refine hm p c (by rw [get_push hle]; exact hc) x ?_ ?_
    · rw [address_push _ _ hle]; exact hx1
    · rw [address_push _ _ hle]; exact hx2

/-- What the header of a block says. -/
theorem Headers.get {m : Mem} {base a p : Nat} {b : Block α} {bs : Blocks α}
    (h : Headers m base bs a) (hp : get bs p = some b) :
    headerFree m (address kmallocHeaderSize base bs p - 12) = flagWord b.free ∧
      headerSize m (address kmallocHeaderSize base bs p - 12) = b.size := by
  induction bs generalizing a with
  | nil => simp at hp
  | cons c bs ih =>
    obtain ⟨ha, hfree, hsize, hrest⟩ := h
    simp only [get_cons] at hp
    simp only [address]
    split_ifs at hp ⊢ with he
    · obtain rfl := Option.some.inj hp
      rw [show top kmallocHeaderSize base bs + kmallocHeaderSize - 12 = a by
        simp [ha, kmallocHeaderSize]]
      exact ⟨hfree, hsize⟩
    · exact ih hrest hp

/-- Rewriting the flag word of one header rewrites the flag of its block. -/
theorem Headers.setFree {m : Mem} {base a p : Nat} {b : Block α} {bs : Blocks α} (free : Bool)
    (h : Headers m base bs a) (hp : FirstFit.get bs p = some b) :
    Headers (write32 m (address kmallocHeaderSize base bs p - 12) (flagWord free)) base
      (update (fun b => { b with free := free }) bs p) a := by
  induction bs generalizing a with
  | nil => simp at hp
  | cons c bs ih =>
    obtain ⟨ha, hfree, hsize, hrest⟩ := h
    simp only [get_cons] at hp
    simp only [address, update]
    split_ifs at hp ⊢ with he
    · -- the newest header is the one rewritten
      obtain rfl := Option.some.inj hp
      rw [show top kmallocHeaderSize base bs + kmallocHeaderSize - 12 = a by
        simp [ha, kmallocHeaderSize]]
      have hflag : flagWord free < 2 ^ 32 := by cases free <;> decide
      refine ⟨ha, read32_write32_same m hflag, ?_, ?_⟩
      · exact (read32_write32_of_disjoint m (by omega)).trans hsize
      · rw [show headerNext (write32 m a (flagWord free)) a = headerNext m a from
          read32_write32_of_disjoint m (by omega)]
        refine hrest.congr fun q d hd x _ hx => write32_of_outside m (Or.inl ?_)
        have := (address_bounds kmallocHeaderSize base hd).2
        omega
    · -- an older header: the newest one lies above it
      have hbound := (address_bounds kmallocHeaderSize base hp)
      simp only [kmallocHeaderSize] at hbound
      have hx : ∀ x, a ≤ x → x < a + 12 →
          write32 m (address kmallocHeaderSize base bs p - 12) (flagWord free) x = m x := by
        intro x hx1 hx2
        refine write32_of_outside m (Or.inr ?_)
        simp only [kmallocHeaderSize] at ha ⊢
        omega
      obtain ⟨h1, h2, h3⟩ := header_congr hx
      refine ⟨?_, h1.trans hfree, h2.trans hsize, ?_⟩
      · rw [ha]
        exact (top_update kmallocHeaderSize base (fun b => { b with free := free })
          (fun _ => rfl) bs p).symm
      · rw [h3]
        exact ih hrest hp

/-- The walk of the list is first fit. -/
theorem Headers.findFree {m : Mem} {base a size fuel : Nat} {bs : Blocks α}
    (h : Headers m base bs a) (hbase : 0 < base) (hfuel : bs.length < fuel) :
    findFreeHeapHeader m size fuel a =
      some (address kmallocHeaderSize base bs (find size bs) - 12) := by
  induction bs generalizing a fuel with
  | nil =>
    obtain ⟨f, rfl⟩ : ∃ f, fuel = f + 1 := ⟨fuel - 1, by omega⟩
    have ha : a = 0 := h
    simp [findFreeHeapHeader, ha, address]
  | cons b bs ih =>
    obtain ⟨f, rfl⟩ : ∃ f, fuel = f + 1 := ⟨fuel - 1, by omega⟩
    obtain ⟨ha, hfree, hsize, hrest⟩ := h
    have hne : a ≠ 0 := by
      have := base_le_top kmallocHeaderSize base bs
      omega
    simp only [findFreeHeapHeader, if_neg hne, hfree, hsize, flagWord_eq_one, find]
    split_ifs with hb
    · simp [address, ha, kmallocHeaderSize]
    · rw [ih hrest (by simpa using hfuel), address_push _ _ (find_le size bs)]

/-- The list starts below the end of the blocks. -/
theorem Headers.le_top {m : Mem} {base a : Nat} {bs : Blocks α} (h : Headers m base bs a) :
    a ≤ top kmallocHeaderSize base bs := by
  cases bs with
  | nil =>
    have ha : a = 0 := h
    omega
  | cons b bs =>
    have ha := h.1
    simp only [top]
    omega

theorem writeHeader_of_outside (m : Mem) {a free size next x : Nat} (h : x < a ∨ a + 12 ≤ x) :
    writeHeader m a free size next x = m x := by
  simp only [writeHeader]
  rw [write32_of_outside _ (by omega), write32_of_outside _ (by omega),
    write32_of_outside _ (by omega)]

/-- A new header at the end of the blocks adds a block to the list. -/
theorem Headers.push {m : Mem} {base a size : Nat} (free : Bool) {junk : α} {bs : Blocks α}
    (h : Headers m base bs a) (hsize : size < 2 ^ 32) (ha : a < 2 ^ 32) :
    Headers (writeHeader m (top kmallocHeaderSize base bs) (flagWord free) size a) base
      (⟨size, free, junk⟩ :: bs) (top kmallocHeaderSize base bs) := by
  have hflag : flagWord free < 2 ^ 32 := by cases free <;> decide
  generalize ht : top kmallocHeaderSize base bs = t
  have hfree : headerFree (writeHeader m t (flagWord free) size a) t = flagWord free := by
    simp only [headerFree, writeHeader]
    rw [read32_write32_of_disjoint _ (by omega), read32_write32_of_disjoint _ (by omega),
      read32_write32_same _ hflag]
  have hsz : headerSize (writeHeader m t (flagWord free) size a) t = size := by
    simp only [headerSize, writeHeader]
    rw [read32_write32_of_disjoint _ (by omega), read32_write32_same _ hsize]
  have hnext : headerNext (writeHeader m t (flagWord free) size a) t = a :=
    read32_write32_same _ ha
  refine ⟨ht.symm, hfree, hsz, ?_⟩
  rw [hnext]
  refine h.congr ?_
  intro p b hp x _ hx
  have hbelow := (address_bounds kmallocHeaderSize base hp).2
  exact writeHeader_of_outside m (by omega)

/-! ## Payloads -/

theorem payload_bounds {bs : Blocks α} {p : Nat} {b : Block α} (h : get bs p = some b) :
    kernelHeapStart + 12 ≤ payload bs p ∧ payload bs p + b.size ≤ blocksEnd bs :=
  address_bounds kmallocHeaderSize kernelHeapStart h

theorem payload_ne_zero {bs : Blocks α} {p : Nat} {b : Block α} (h : get bs p = some b) :
    payload bs p ≠ 0 := by
  have := (payload_bounds h).1
  omega

/-- The payload of one block has no byte in the header of another, nor in its own. -/
theorem payload_outside_header {bs : Blocks α} {p q x : Nat} {b c : Block α}
    (hp : get bs p = some b) (hq : get bs q = some c) (h1 : payload bs q ≤ x)
    (h2 : x < payload bs q + c.size) : x < payload bs p - 12 ∨ payload bs p ≤ x := by
  rcases lt_trichotomy p q with hlt | rfl | hgt
  · have := address_disjoint kmallocHeaderSize kernelHeapStart hp hq hlt
    right
    simp only [payload] at *
    omega
  · exact Or.inr h1
  · have := address_disjoint kmallocHeaderSize kernelHeapStart hq hp hgt
    left
    simp only [payload, kmallocHeaderSize] at *
    omega

/-- The payload of one block has no byte in the payload of another. -/
theorem payload_disjoint {bs : Blocks α} {p q x : Nat} {b c : Block α}
    (hp : get bs p = some b) (hq : get bs q = some c) (hpq : p ≠ q) (h1 : payload bs q ≤ x)
    (h2 : x < payload bs q + c.size) : x < payload bs p ∨ payload bs p + b.size ≤ x := by
  rcases lt_or_gt_of_ne hpq with hlt | hgt
  · have := address_disjoint kmallocHeaderSize kernelHeapStart hp hq hlt
    simp only [payload] at *
    omega
  · have := address_disjoint kmallocHeaderSize kernelHeapStart hq hp hgt
    simp only [payload] at *
    omega

theorem blocksEnd_mod {bs : Blocks α}
    (h : ∀ p b, get bs p = some b → (b.size + kmallocHeaderSize) % kmallocPageSize = 0) :
    blocksEnd bs % kmallocPageSize = 0 ∧
      kernelHeapStart + kmallocPageSize * bs.length ≤ blocksEnd bs := by
  induction bs with
  | nil => exact ⟨show kernelHeapStart % kmallocPageSize = 0 by decide, le_rfl⟩
  | cons b bs ih =>
    have hb := h (bs.length + 1) b (by simp [get_cons])
    have hbs := ih fun p c hc => h p c (by rw [get_push (get_bounds hc).2]; exact hc)
    simp only [blocksEnd, top, List.length_cons, kmallocHeaderSize, kmallocPageSize] at *
    omega

/-- An allocation moves no block. -/
theorem payload_kmallocBlocks {grant : Bool} {junk : α} {bs bs' : Blocks α} {size p q : Nat}
    {c : Block α} (h : kmallocBlocks grant junk bs size = (p, bs')) (hq : get bs q = some c) :
    payload bs' q = payload bs q := by
  rcases kmallocBlocks_cases grant junk bs size with hc | ⟨r, b, -, -, -, hc⟩ | ⟨-, -, hc⟩
  all_goals rw [hc] at h; obtain ⟨rfl, rfl⟩ := Prod.mk.inj h
  · rfl
  · exact address_update _ _ (fun b => { b with free := false }) (fun _ => rfl) bs _ q
  · exact address_push _ _ (get_bounds hq).2

theorem payload_kfreeBlocks (bs : Blocks α) (p q : Nat) :
    payload (kfreeBlocks bs p) q = payload bs q := by
  unfold kfreeBlocks
  split
  · split_ifs
    · rfl
    · exact address_update _ _ (fun b => { b with free := true }) (fun _ => rfl) bs _ q
  · rfl

/-! ## The refinement -/

section Refinement

variable {σ : Type} {h h' : Heap σ} {bs : Blocks α}

/-- The page source is no part of what a heap represents. -/
theorem Represents.withPages (hr : Represents h bs) (source : σ) :
    Represents { h with pages := source } bs :=
  ⟨hr.base, hr.limit, hr.brk, hr.brk_le, hr.headers, hr.whole⟩

/-- Changing a flag in memory changes it in the list. -/
theorem Represents.setFree (hr : Represents h bs) {p : Nat} {b : Block α}
    (hp : get bs p = some b) (free : Bool) :
    Represents { h with mem := write32 h.mem (payload bs p - 12) (flagWord free) }
      (update (fun b => { b with free := free }) bs p) := by
  have htop : blocksEnd (update (fun b => { b with free := free }) bs p) = blocksEnd bs :=
    top_update _ _ (fun b => { b with free := free }) (fun _ => rfl) bs p
  refine ⟨hr.base, hr.limit, hr.brk.trans htop.symm, htop.trans_le hr.brk_le,
    hr.headers.setFree free hp, fun q c hc => ?_⟩
  rw [get_update] at hc
  split_ifs at hc with hq
  · obtain ⟨d, hd, rfl⟩ := Option.map_eq_some_iff.1 hc
    exact hr.whole q d hd
  · exact hr.whole q c hc

/-- Writing inside a payload does not concern the list. -/
theorem Represents.fill (hr : Represents h bs) {p n : Nat} {b : Block α}
    (hp : get bs p = some b) (hn : n ≤ b.size) (v : UInt8) :
    Represents { h with mem := fill h.mem (payload bs p) v n } bs := by
  refine ⟨hr.base, hr.limit, hr.brk, hr.brk_le, hr.headers.congr fun q c hq x h1 h2 => ?_,
    hr.whole⟩
  refine fill_of_outside h.mem ?_
  by_contra hin
  have hout := payload_outside_header (x := x) hq hp (by omega) (by omega)
  simp only [payload] at *
  omega

/-- A walk of the list may visit all of its headers. -/
theorem Represents.length_lt_walkFuel (hr : Represents h bs) : bs.length < h.walkFuel := by
  have := (blocksEnd_mod hr.whole).2
  simp only [Heap.walkFuel, hr.base, hr.brk, kmallocPageSize] at *
  omega

/-- **The walk of the header list ends**, and finds the first fit. -/
theorem Represents.findFree (hr : Represents h bs) (size : Nat) :
    findFreeHeapHeader h.mem size h.walkFuel h.kernelHeapLh =
      some (payload bs (find size bs) - 12) :=
  hr.headers.findFree (by decide) hr.length_lt_walkFuel

theorem Represents.brk_ne_zero (hr : Represents h bs) : h.kernelHeapBrk ≠ 0 := by
  have := base_le_top kmallocHeaderSize kernelHeapStart bs
  rw [hr.brk]
  simp only [blocksEnd, kernelHeapStart] at *
  omega

/-- The limit test, made on the unrounded size, leaves room for whole pages: the break and the
limit are page boundaries. -/
theorem heap_room {brk n : Nat} (hn : n ≤ 2 ^ 29) (hle : brk ≤ kernelHeapEnd)
    (hmod : brk % kmallocPageSize = 0)
    (hlimit : u32 (brk + n + kmallocHeaderSize) ≤ kernelHeapEnd) :
    brk + kmallocPageSize * pagesToGet n ≤ kernelHeapEnd := by
  have hlt := pagesToGet_lt hn
  generalize hm : kmallocPageSize * pagesToGet n = m at *
  have hmmod : m % kmallocPageSize = 0 := by rw [← hm]; exact Nat.mul_mod_right _ _
  simp only [kmallocHeaderSize, kmallocPageSize, kernelHeapEnd_eq] at *
  rw [u32_eq (by omega)] at hlimit
  omega

theorem Represents.room (hr : Represents h bs) {n : Nat} (hn : n ≤ 2 ^ 29)
    (hlimit : u32 (h.kernelHeapBrk + n + kmallocHeaderSize) ≤ h.kernelHeapLimit) :
    blocksEnd bs + kmallocPageSize * pagesToGet n ≤ kernelHeapEnd := by
  rw [hr.brk, hr.limit] at hlimit
  exact heap_room hn hr.brk_le (blocksEnd_mod hr.whole).1 hlimit

/-- The pages of a new block, behind a new header, extend the list. -/
theorem Represents.grow (hr : Represents h bs) {n : Nat} (hn : n ≤ 2 ^ 29)
    (hroom : blocksEnd bs + kmallocPageSize * pagesToGet n ≤ kernelHeapEnd) (junk : α)
    (source : σ) :
    Represents { h with
        mem := writeHeader h.mem h.kernelHeapBrk 0
          (u32 (kmallocPageSize * pagesToGet n) - kmallocHeaderSize) h.kernelHeapLh
        kernelHeapLh := h.kernelHeapBrk
        kernelHeapBrk := u32 (h.kernelHeapBrk + kmallocPageSize * pagesToGet n)
        pages := source }
      (⟨kmallocPageSize * pagesToGet n - kmallocHeaderSize, false, junk⟩ :: bs) := by
  have hge := le_pagesToGet hn
  have hend : kernelHeapEnd < 2 ^ 32 := by rw [kernelHeapEnd_eq]; decide
  have hbrk : h.kernelHeapBrk = blocksEnd bs := hr.brk
  have hlh : h.kernelHeapLh < 2 ^ 32 := (hr.headers.le_top).trans_lt (hr.brk_le.trans_lt hend)
  have hnew : blocksEnd (⟨kmallocPageSize * pagesToGet n - kmallocHeaderSize, false, junk⟩ :: bs)
      = blocksEnd bs + kmallocPageSize * pagesToGet n := by
    simp only [blocksEnd, top]
    omega
  refine ⟨hr.base, hr.limit, ?_, ?_, ?_, fun q c hq => ?_⟩
  · show u32 (h.kernelHeapBrk + kmallocPageSize * pagesToGet n) = _
    rw [hnew, hbrk, u32_eq (by omega)]
  · rw [hnew]
    exact hroom
  · show Headers (writeHeader h.mem h.kernelHeapBrk 0
      (u32 (kmallocPageSize * pagesToGet n) - kmallocHeaderSize) h.kernelHeapLh) kernelHeapStart
      (⟨kmallocPageSize * pagesToGet n - kmallocHeaderSize, false, junk⟩ :: bs) h.kernelHeapBrk
    rw [hbrk, u32_eq (by omega)]
    exact hr.headers.push false (by omega) hlh
  · rw [get_cons] at hq
    split_ifs at hq with he
    · obtain rfl := Option.some.inj hq
      show (kmallocPageSize * pagesToGet n - kmallocHeaderSize + kmallocHeaderSize)
        % kmallocPageSize = 0
      rw [Nat.sub_add_cancel (by omega)]
      exact Nat.mul_mod_right _ _
    · exact hr.whole q c hq

/-- **`kmalloc` refines the allocation on the list of blocks**, for one of the two answers of
the page layers; it writes no payload, and when it returns null it writes nothing. -/
theorem Represents.kmalloc [PageSource σ] (hr : Represents h bs) (junk : α) {size ptr : Nat}
    (hs : size ≤ 2 ^ 29) (hk : h.kmalloc size = some (ptr, h')) :
    ∃ grant, Represents h' (kmallocBlocks grant junk bs size).2 ∧
      ptr = payload (kmallocBlocks grant junk bs size).2 (kmallocBlocks grant junk bs size).1 ∧
      (∀ q c x, get bs q = some c → payload bs q ≤ x → x < payload bs q + c.size →
        h'.mem x = h.mem x) ∧
      (ptr = 0 → h' = { h with pages := h'.pages }) := by
  have hle := le_alignUp hs
  have hge := alignUp_le hs
  rcases Heap.kmalloc_cases hk with ⟨rfl, rfl, rfl⟩ |
      ⟨header, h0, hne, hfind, rfl, rfl⟩ | ⟨h0, hfind, header, hcreate, rfl⟩
  · exact ⟨false, by simpa [kmallocBlocks] using hr, by simp [kmallocBlocks],
      fun _ _ _ _ _ _ => rfl, fun _ => rfl⟩
  · -- a free block is taken
    rw [hr.findFree] at hfind
    have hheader := Option.some.inj hfind
    have hp : find (alignUp size 8) bs ≠ 0 := by
      intro hzero
      rw [hzero] at hheader
      simp at hheader
      exact hne hheader.symm
    obtain ⟨b, hb, hbfree, hbsize⟩ := get_find hp
    have hbounds := payload_bounds hb
    refine ⟨false, ?_, ?_, fun q c x hq h1 h2 => ?_, fun hz => absurd hz (by simp [kmallocHeaderSize])⟩
    · rw [kmallocBlocks, if_neg h0, if_pos hp, ← hheader]
      exact hr.setFree hb false
    · rw [kmallocBlocks, if_neg h0, if_pos hp]
      simp only [payload, kmallocHeaderSize] at hheader hbounds ⊢
      rw [address_update _ _ (fun b => { b with free := false }) (fun _ => rfl)]
      omega
    · have := payload_outside_header hb hq h1 h2
      exact write32_of_outside h.mem (by omega)
  · -- no block fits
    rw [hr.findFree] at hfind
    have hp : find (alignUp size 8) bs = 0 := by
      by_contra hp
      obtain ⟨b, hb, -⟩ := get_find hp
      have := (payload_bounds hb).1
      have := Option.some.inj hfind
      simp only [payload, kernelHeapStart] at *
      omega
    have hrefuse : kmallocBlocks false junk bs size = (0, bs) := by simp [kmallocBlocks, hp]
    rcases Heap.createHeapHeader_cases hcreate with ⟨rfl, rfl, -⟩ | ⟨source, -, rfl, rfl⟩ |
        ⟨-, -, source, -, -, -, -, rfl, rfl⟩ |
        ⟨frame, -, source, hn, hpages, hlimit, -, -, -, rfl, rfl⟩
    · exact ⟨false, by rw [hrefuse]; exact hr, by simp [hrefuse], fun _ _ _ _ _ _ => rfl,
        fun _ => rfl⟩
    · exact ⟨false, by rw [hrefuse]; exact hr.withPages source, by simp [hrefuse],
        fun _ _ _ _ _ _ => rfl, fun _ => rfl⟩
    · exact ⟨false, by rw [hrefuse]; exact hr.withPages source, by simp [hrefuse],
        fun _ _ _ _ _ _ => rfl, fun _ => rfl⟩
    · have hgrow : kmallocBlocks true junk bs size = (bs.length + 1,
          ⟨kmallocPageSize * pagesToGet (alignUp size 8) - kmallocHeaderSize, false, junk⟩
            :: bs) := by
        simp [kmallocBlocks, hp, h0, hn, hpages]
      have hroom := hr.room hge hlimit
      refine ⟨true, ?_, ?_, fun q c x hq h1 h2 => ?_, fun hz => ?_⟩
      · rw [hgrow]
        exact hr.grow hge hroom junk source
      · have hne := hr.brk_ne_zero
        rw [hgrow, if_neg hne, hr.brk]
        simp [address]
      · have hbelow := (payload_bounds hq).2
        exact writeHeader_of_outside h.mem (Or.inl (by rw [hr.brk]; omega))
      · have hne := hr.brk_ne_zero
        rw [if_neg hne] at hz
        omega

/-- What `kcalloc` does after the allocation. -/
theorem kcalloc_cases [PageSource σ] {size ptr : Nat} (hk : h.kcalloc size = some (ptr, h')) :
    ∃ h₁, h.kmalloc size = some (ptr, h₁) ∧
      (ptr = 0 ∧ h' = h₁ ∨
        ptr ≠ 0 ∧ h' = { h₁ with mem := ByteMem.fill h₁.mem ptr 0 (alignUp size 8) }) := by
  simp only [Heap.kcalloc] at hk
  split_ifs at hk with h0
  · cases hk
    exact ⟨h, by simp [Heap.kmalloc, h0], Or.inl ⟨rfl, rfl⟩⟩
  · obtain ⟨⟨r, h₁⟩, hmalloc, hk⟩ := Option.bind_eq_some_iff.1 hk
    by_cases hr : r = 0
    · subst hr
      cases hk
      exact ⟨h₁, hmalloc, Or.inl ⟨rfl, rfl⟩⟩
    · rw [if_neg hr] at hk
      cases hk
      exact ⟨h₁, hmalloc, Or.inr ⟨hr, rfl⟩⟩

/-- **`kcalloc` refines the allocation on the list of blocks**; of the payloads of the list it
writes only the one it returns. -/
theorem Represents.kcalloc [PageSource σ] (hr : Represents h bs) (junk : α) {size ptr : Nat}
    (hs : size ≤ 2 ^ 29) (hk : h.kcalloc size = some (ptr, h')) :
    ∃ grant, Represents h' (kmallocBlocks grant junk bs size).2 ∧
      ptr = payload (kmallocBlocks grant junk bs size).2 (kmallocBlocks grant junk bs size).1 ∧
      (∀ q c x, get bs q = some c → q ≠ (kmallocBlocks grant junk bs size).1 →
        payload bs q ≤ x → x < payload bs q + c.size → h'.mem x = h.mem x) := by
  obtain ⟨h₁, hmalloc, hcase⟩ := kcalloc_cases hk
  obtain ⟨grant, hr₁, hptr, hframe, -⟩ := hr.kmalloc junk hs hmalloc
  refine ⟨grant, ?_⟩
  rcases hcase with ⟨-, rfl⟩ | ⟨hne, rfl⟩
  · exact ⟨hr₁, hptr, fun q c x hq _ => hframe q c x hq⟩
  · generalize hres : kmallocBlocks grant junk bs size = r at hr₁ hptr ⊢
    obtain ⟨p, bs'⟩ := r
    have hp : p ≠ 0 := by
      rintro rfl
      simp [hptr] at hne
    obtain ⟨⟨b, hb, -, hsize⟩, hother⟩ := get_kmallocBlocks hs hres hp
    refine ⟨?_, hptr, ?_⟩
    · rw [hptr]
      exact hr₁.fill hb hsize 0
    · intro q c x hq hqp h1 h2
      have hq' : get bs' q = some c := (hother q hqp).trans hq
      have hmove : payload bs' q = payload bs q := payload_kmallocBlocks hres hq
      rw [← hframe q c x hq h1 h2]
      rw [← hmove] at h1 h2
      have hout := payload_disjoint hb hq' (Ne.symm hqp) h1 h2
      refine fill_of_outside h₁.mem ?_
      rw [hptr]
      show x < payload bs' p ∨ payload bs' p + alignUp size 8 ≤ x
      omega

/-- **`kfree` refines the release of a block**; it writes no payload. -/
theorem Represents.kfree (hr : Represents h bs) {p : Nat} {b : Block α}
    (hp : get bs p = some b) :
    Represents (h.kfree (payload bs p)).2 (kfreeBlocks bs p) ∧
      (h.kfree (payload bs p)).2.pages = h.pages ∧
      (∀ q c x, get bs q = some c → payload bs q ≤ x → x < payload bs q + c.size →
        (h.kfree (payload bs p)).2.mem x = h.mem x) := by
  have hbounds := payload_bounds hp
  have hrange : ¬ (payload bs p = 0 ∨ payload bs p < h.kernelHeapBase ∨
      h.kernelHeapBrk < payload bs p) := by
    rw [hr.base, hr.brk]
    omega
  have hflag : headerFree h.mem (payload bs p - kmallocHeaderSize) = flagWord b.free :=
    (hr.headers.get hp).1
  simp only [Heap.kfree, if_neg hrange, hflag, flagWord_eq_one]
  simp only [kfreeBlocks, hp]
  split_ifs with hfree
  · exact ⟨hr, rfl, fun _ _ _ _ _ _ => rfl⟩
  · refine ⟨hr.setFree hp true, rfl, ?_⟩
    intro q c x hq h1 h2
    have hout := payload_outside_header hp hq h1 h2
    refine write32_of_outside h.mem ?_
    show x < payload bs p - 12 ∨ payload bs p - 12 + 4 ≤ x
    omega

end Refinement

end DelOs
