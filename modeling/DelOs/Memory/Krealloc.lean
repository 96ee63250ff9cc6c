import DelOs.Memory.HeapTiling

/-!
# `krealloc` in memory

`krealloc` copies as many bytes as the new block is to have, however many the old block has.

* `kmemcpyLoop`, `kmemcpy`, `Heap.krealloc` — `kmemcpy` and `krealloc` over the byte memory, with
  the addresses that the copy reads.
* `Represents.krealloc` — **a request of no more bytes than the old block has** moves the bytes
  and frees the old block.
* `Reallocates` — what the caller of `krealloc` relies on.
* `reallocates_iff` — **it gets that exactly if it asks for no more bytes than the old block has.**
-/

namespace DelOs

open ByteMem FirstFit Transition

variable {σ : Type}

/-! ## The functions -/

/-- The loop of `kmemcpy` over `n` bytes: the memory after it, and the addresses that it reads. -/
def kmemcpyLoop (m : Mem) (dst src : Nat) : Nat → Mem × List Nat
  | 0 => (m, [])
  | n + 1 =>
    let (m', reads) :=
      kmemcpyLoop (fun x => if x = dst then m src else m x) (u32 (dst + 1)) (u32 (src + 1)) n
    (m', src :: reads)

/-- `kmemcpy`. -/
def kmemcpy (m : Mem) (dst src n : Nat) : Mem × List Nat :=
  if dst = 0 ∨ src = 0 then (m, []) else kmemcpyLoop m dst src n

/-- `krealloc`: the new pointer, the addresses that the copy reads, and the heap after it. -/
def Heap.krealloc [PageSource σ] (h : Heap σ) (ptr size : Nat) :
    Option (Nat × List Nat × Heap σ) := do
  let size := if size = 0 then headerSize h.mem (u32 (ptr + (2 ^ 32 - kmallocHeaderSize))) else size
  let (newPtr, h) ← h.kmalloc size
  if ptr = 0 then return (newPtr, [], h)
  let (mem, reads) := kmemcpy h.mem newPtr ptr size
  return (newPtr, reads, ({ h with mem := mem }.kfree ptr).2)

/-! ## The copy -/

/-- Below the last address the loop is the copy of a range. -/
theorem kmemcpyLoop_mem (m : Mem) {dst src n : Nat} (hd : dst + n ≤ 2 ^ 32)
    (hs : src + n ≤ 2 ^ 32) : (kmemcpyLoop m dst src n).1 = copy m dst src n := by
  induction n generalizing m dst src with
  | zero => rfl
  | succ n ih =>
    cases n with
    | zero => rfl
    | succ n =>
      have hdst : u32 (dst + 1) = dst + 1 := u32_eq (by omega)
      have hsrc : u32 (src + 1) = src + 1 := u32_eq (by omega)
      rw [kmemcpyLoop, copy, hdst, hsrc]
      exact ih _ (by omega) (by omega)

/-- It reads the range that it copies. -/
theorem mem_kmemcpyLoop (m : Mem) {dst src n : Nat} (hs : src + n ≤ 2 ^ 32) {x : Nat} :
    x ∈ (kmemcpyLoop m dst src n).2 ↔ src ≤ x ∧ x < src + n := by
  induction n generalizing m dst src with
  | zero => simp [kmemcpyLoop]
  | succ n ih =>
    rw [kmemcpyLoop, List.mem_cons]
    cases n with
    | zero =>
      simp only [kmemcpyLoop, List.not_mem_nil, or_false]
      omega
    | succ n =>
      have hsrc : u32 (src + 1) = src + 1 := u32_eq (by omega)
      rw [hsrc, ih _ (by omega)]
      omega

/-- However many bytes it copies, it reads as many of the range as there are addresses. -/
theorem reads_kmemcpyLoop (m : Mem) {dst src n i : Nat} (hi : i < n) (hs : src + i < 2 ^ 32) :
    src + i ∈ (kmemcpyLoop m dst src n).2 := by
  induction i generalizing m dst src n with
  | zero =>
    obtain ⟨n, rfl⟩ : ∃ k, n = k + 1 := ⟨n - 1, by omega⟩
    exact List.mem_cons_self
  | succ i ih =>
    obtain ⟨n, rfl⟩ : ∃ k, n = k + 1 := ⟨n - 1, by omega⟩
    have hsrc : u32 (src + 1) = src + 1 := u32_eq (by omega)
    rw [kmemcpyLoop, List.mem_cons, hsrc, show src + (i + 1) = src + 1 + i by omega]
    exact Or.inr (ih _ (by omega) (by omega))

/-! ## The list of blocks -/

section Blocks

universe u

variable {α : Type u} {h h' : Heap σ} {bs : Blocks α}

/-- Writing inside one payload does not concern the list. -/
theorem Represents.withPayload (hr : Represents h bs) {p : Nat} {b : Block α}
    (hp : get bs p = some b) {m : Mem}
    (hm : ∀ x, x < payload bs p ∨ payload bs p + b.size ≤ x → m x = h.mem x) :
    Represents { h with mem := m } bs := by
  refine ⟨hr.base, hr.limit, hr.brk, hr.brk_le, hr.headers.congr fun q c hq x h1 h2 => hm x ?_,
    hr.whole⟩
  by_contra hin
  have hout := payload_outside_header (x := x) hq hp (by omega) (by omega)
  simp only [payload] at *
  omega

/-- A block of the list is not larger than the heap. -/
theorem Represents.size_le (hr : Represents h bs) {p : Nat} {b : Block α}
    (hp : get bs p = some b) :
    b.size ≤ 2 ^ 29 ∧ payload bs p + b.size ≤ 2 ^ 32 := by
  have hbounds := payload_bounds hp
  have hend := hr.brk_le
  rw [kernelHeapEnd_eq] at hend
  rw [kernelHeapStart] at hbounds
  omega

/-- What `krealloc` does after the allocation. -/
theorem krealloc_cases [PageSource σ] {ptr n newPtr : Nat} {reads : List Nat} (hn : 0 < n)
    (hptr : ptr ≠ 0) (hk : h.krealloc ptr n = some (newPtr, reads, h')) :
    ∃ h₁, h.kmalloc n = some (newPtr, h₁) ∧ reads = (kmemcpy h₁.mem newPtr ptr n).2 ∧
      h' = ({ h₁ with mem := (kmemcpy h₁.mem newPtr ptr n).1 }.kfree ptr).2 := by
  simp only [Heap.krealloc, if_neg (Nat.pos_iff_ne_zero.1 hn), if_neg hptr] at hk
  obtain ⟨⟨p, h₁⟩, hmalloc, hk⟩ := Option.bind_eq_some_iff.1 hk
  cases hk
  exact ⟨h₁, hmalloc, rfl, rfl⟩

/-- `krealloc` returns what its allocation returns. -/
theorem krealloc_of_kmalloc [PageSource σ] {ptr n newPtr : Nat} {h₁ : Heap σ} (hn : 0 < n)
    (hk : h.kmalloc n = some (newPtr, h₁)) :
    ∃ reads h', h.krealloc ptr n = some (newPtr, reads, h') := by
  simp only [Heap.krealloc, if_neg (Nat.pos_iff_ne_zero.1 hn), hk, Option.bind_eq_bind,
    Option.bind_some, Option.pure_def]
  split_ifs
  · exact ⟨_, _, rfl⟩
  · exact ⟨_, _, rfl⟩

/-- **`krealloc` of no more bytes than the block has**: the allocation and the release on the list
of blocks, the bytes in the new block, and nothing else written. -/
theorem Represents.krealloc [PageSource σ] (hr : Represents h bs) (junk : α) {k : Nat}
    {b : Block α} (hk : get bs k = some b) (hlive : b.free = false) {n newPtr : Nat}
    {reads : List Nat} (hn : 0 < n) (hle : n ≤ b.size)
    (hcall : h.krealloc (payload bs k) n = some (newPtr, reads, h')) (hne : newPtr ≠ 0) :
    ∃ grant p bs', kmallocBlocks grant junk bs n = (p, bs') ∧ p ≠ 0 ∧ newPtr = payload bs' p ∧
      Represents h' (kfreeBlocks bs' k) ∧
      (∀ i < n, h'.mem (newPtr + i) = h.mem (payload bs k + i)) ∧
      (∀ q c x, get bs q = some c → q ≠ p → payload bs q ≤ x → x < payload bs q + c.size →
        h'.mem x = h.mem x) ∧
      ∀ x ∈ reads, payload bs k ≤ x ∧ x < payload bs k + n := by
  obtain ⟨hsmall, hlow⟩ := hr.size_le hk
  obtain ⟨h₁, hmalloc, rfl, rfl⟩ := krealloc_cases hn (payload_ne_zero hk) hcall
  obtain ⟨grant, hr₁, hptr, hframe₁, -⟩ := hr.kmalloc junk (hle.trans hsmall) hmalloc
  rcases hres : kmallocBlocks grant junk bs n with ⟨p, bs'⟩
  rw [hres] at hr₁ hptr
  simp only at hr₁ hptr
  have hp : p ≠ 0 := by
    rintro rfl
    exact hne (hptr.trans (address_zero _ _ _))
  obtain ⟨⟨b', hb', -, hroom⟩, hother⟩ := get_kmallocBlocks (hle.trans hsmall) hres hp
  have hroom' : n ≤ b'.size := (le_alignUp (hle.trans hsmall)).trans hroom
  have hkp : k ≠ p := by
    rintro rfl
    exact (live_kmallocBlocks hres hp).1 ⟨b, hk, hlive⟩
  have hk' : get bs' k = some b := (hother k hkp).trans hk
  have hmove : payload bs' k = payload bs k := payload_kmallocBlocks hres hk
  obtain ⟨-, hlow'⟩ := hr₁.size_le hb'
  -- the two payloads do not overlap
  have hapart : newPtr + n ≤ payload bs k ∨ payload bs k + n ≤ newPtr := by
    rw [hptr, ← hmove]
    rcases lt_or_gt_of_ne hkp with hlt | hgt
    · have := address_disjoint kmallocHeaderSize kernelHeapStart hk' hb' hlt
      simp only [payload] at *
      omega
    · have := address_disjoint kmallocHeaderSize kernelHeapStart hb' hk' hgt
      simp only [payload] at *
      omega
  have hcopy : kmemcpy h₁.mem newPtr (payload bs k) n =
      kmemcpyLoop h₁.mem newPtr (payload bs k) n :=
    if_neg (not_or.2 ⟨hne, payload_ne_zero hk⟩)
  have hmem : (kmemcpyLoop h₁.mem newPtr (payload bs k) n).1 =
      copy h₁.mem newPtr (payload bs k) n := kmemcpyLoop_mem _ (by omega) (by omega)
  rw [hcopy, hmem]
  have hr₂ : Represents { h₁ with mem := copy h₁.mem newPtr (payload bs k) n } bs' := by
    refine hr₁.withPayload hb' fun x hx => copy_of_outside h₁.mem hapart ?_
    rw [hptr]
    omega
  have hfree := hr₂.kfree hk'
  rw [hmove] at hfree
  obtain ⟨hr₃, -, hframe₃⟩ := hfree
  refine ⟨grant, p, bs', hres, hp, hptr, hr₃, ?_, ?_, fun x hx => ?_⟩
  · intro i hi
    rw [hframe₃ p b' (newPtr + i) hb' (by omega) (by omega)]
    show copy h₁.mem newPtr (payload bs k) n (newPtr + i) = _
    rw [copy_apply h₁.mem _ hapart, if_pos (by omega), show newPtr + i - newPtr = i by omega]
    exact hframe₁ k b _ hk (by omega) (by omega)
  · intro q c x hq hqp h1 h2
    have hq' : get bs' q = some c := (hother q hqp).trans hq
    have hstay : payload bs' q = payload bs q := payload_kmallocBlocks hres hq
    rw [hframe₃ q c x hq' (by omega) (by omega)]
    show copy h₁.mem newPtr (payload bs k) n x = _
    have hout := payload_disjoint hb' hq' (Ne.symm hqp) (x := x) (by omega) (by omega)
    rw [copy_of_outside h₁.mem hapart (by omega)]
    exact hframe₁ q c x hq h1 h2
  · exact (mem_kmemcpyLoop h₁.mem (by omega)).1 hx

end Blocks

/-! ## What a caller relies on -/

/-- What `krealloc(ptr, n)` promises when it returns `newPtr`: the new pointer is live and has room
for `n` bytes, the old one is free, the bytes that fit are copied, the blocks of the other live
pointers stay as they are, and the copy reads bytes of the old block only. -/
structure Reallocates (s : HeapRun σ) (ptr n newPtr : Nat) (reads : List Nat) (h' : Heap σ) :
    Prop where
  inv : HeapInv ⟨h', (newPtr, n) :: s.live.filter fun l => l.1 ≠ ptr⟩
  room : n ≤ headerSize h'.mem (newPtr - kmallocHeaderSize)
  freed : headerFree h'.mem (ptr - kmallocHeaderSize) = 1
  content : ∀ i, i < n → i < headerSize s.heap.mem (ptr - kmallocHeaderSize) →
    h'.mem (newPtr + i) = s.heap.mem (ptr + i)
  others : ∀ q m, (q, m) ∈ s.live → q ≠ ptr →
    headerSize h'.mem (q - kmallocHeaderSize) = headerSize s.heap.mem (q - kmallocHeaderSize) ∧
      ∀ x, q ≤ x → x < q + headerSize s.heap.mem (q - kmallocHeaderSize) →
        h'.mem x = s.heap.mem x
  reads : ∀ x ∈ reads, ptr ≤ x ∧ x < ptr + headerSize s.heap.mem (ptr - kmallocHeaderSize)

variable [PageSource σ] {s : HeapRun σ}

/-- A request of no more bytes than the old block has is honoured. -/
theorem reallocates_of_le (hi : HeapInv s) {ptr n newPtr : Nat} {reads : List Nat} {h' : Heap σ}
    (hl : ptr ∈ s.pointers) (hn : 0 < n)
    (hcall : s.heap.krealloc ptr n = some (newPtr, reads, h')) (hne : newPtr ≠ 0)
    (hle : n ≤ headerSize s.heap.mem (ptr - kmallocHeaderSize)) :
    Reallocates s ptr n newPtr reads h' := by
  obtain ⟨bs, hr, ho⟩ := hi
  obtain ⟨⟨ptr', size⟩, hmem, rfl⟩ := List.mem_map.1 hl
  obtain ⟨k, b, hk, rfl, hlive, -⟩ := ho.block ptr' size hmem
  have hsize : headerSize s.heap.mem (payload bs k - kmallocHeaderSize) = b.size :=
    (hr.headers.get hk).2
  rw [hsize] at hle
  obtain ⟨grant, p, bs', hres, hp, rfl, hr', hcontent, hframe, hreads⟩ :=
    hr.krealloc () hk hlive hn hle hcall hne
  have hn29 : n ≤ 2 ^ 29 := hle.trans (hr.size_le hk).1
  obtain ⟨⟨b', hb', hfree', hroom⟩, hother⟩ := get_kmallocBlocks hn29 hres hp
  have hkp : k ≠ p := by
    rintro rfl
    exact (live_kmallocBlocks hres hp).1 ⟨b, hk, hlive⟩
  have hk' : get bs' k = some b := (hother k hkp).trans hk
  have hmove : payload bs' k = payload bs k := payload_kmallocBlocks hres hk
  -- the header of a block of the new list, at its old place
  have hheader : ∀ {q : Nat} {c : Block Unit}, get (kfreeBlocks bs' k) q = some c →
      headerFree h'.mem (payload bs' q - kmallocHeaderSize) = flagWord c.free ∧
        headerSize h'.mem (payload bs' q - kmallocHeaderSize) = c.size := by
    intro q c hq
    rw [← payload_kfreeBlocks bs' k q]
    exact hr'.headers.get hq
  refine ⟨⟨_, hr', ?_⟩, ?_, ?_, ?_, ?_, ?_⟩
  · have howned := (ho.allocate hn29 hres hp).release hk'
    rw [hmove] at howned
    have hne' : payload bs' p ≠ payload bs k := by
      intro heq
      rw [← hmove] at heq
      exact hkp (address_injective kmallocHeaderSize kernelHeapStart hb' hk' (by decide) heq).symm
    simpa [hne'] using howned
  · have hp' : get (kfreeBlocks bs' k) p = some b' := by rw [get_kfreeBlocks, if_neg (Ne.symm hkp), hb']
    rw [(hheader hp').2]
    exact (le_alignUp hn29).trans hroom
  · have hfreed : get (kfreeBlocks bs' k) k = some { b with free := true } := by
      rw [get_kfreeBlocks, if_pos rfl, hk']
      rfl
    rw [← hmove]
    exact (hheader hfreed).1
  · intro i h1 _
    exact hcontent i h1
  · intro q m hq hqptr
    obtain ⟨j, c, hj, rfl, hcfree, -⟩ := ho.block q m hq
    have hjp : j ≠ p := by
      rintro rfl
      exact (live_kmallocBlocks hres hp).1 ⟨c, hj, hcfree⟩
    have hjk : j ≠ k := by
      rintro rfl
      exact hqptr rfl
    have hstay : payload bs' j = payload bs j := payload_kmallocBlocks hres hj
    have hj' : get (kfreeBlocks bs' k) j = some c := by
      rw [get_kfreeBlocks, if_neg hjk, hother j hjp, hj]
    have hwas : headerSize s.heap.mem (payload bs j - kmallocHeaderSize) = c.size :=
      (hr.headers.get hj).2
    rw [hwas]
    refine ⟨?_, fun x h1 h2 => hframe j c x hj hjp h1 h2⟩
    rw [← hstay]
    exact (hheader hj').2
  · intro x hx
    obtain ⟨h1, h2⟩ := hreads x hx
    rw [hsize]
    omega

/-- A copy of more bytes reads past the end of the old block. -/
theorem not_reallocates_of_lt (hi : HeapInv s) {ptr n newPtr : Nat} {reads : List Nat}
    {h' : Heap σ} (hl : ptr ∈ s.pointers) (hn : 0 < n)
    (hcall : s.heap.krealloc ptr n = some (newPtr, reads, h')) (hne : newPtr ≠ 0)
    (hlt : headerSize s.heap.mem (ptr - kmallocHeaderSize) < n) :
    ¬Reallocates s ptr n newPtr reads h' := by
  intro h
  obtain ⟨bs, hr, ho⟩ := hi
  obtain ⟨⟨ptr', size⟩, hmem, rfl⟩ := List.mem_map.1 hl
  obtain ⟨k, b, hk, rfl, -⟩ := ho.block ptr' size hmem
  have hsize : headerSize s.heap.mem (payload bs k - kmallocHeaderSize) = b.size :=
    (hr.headers.get hk).2
  change headerSize s.heap.mem (payload bs k - kmallocHeaderSize) < n at hlt
  rw [hsize] at hlt
  have hptr := payload_ne_zero hk
  obtain ⟨h₁, -, hreads, -⟩ := krealloc_cases hn hptr hcall
  have hcopy : kmemcpy h₁.mem newPtr (payload bs k) n =
      kmemcpyLoop h₁.mem newPtr (payload bs k) n := if_neg (not_or.2 ⟨hne, hptr⟩)
  -- the first byte behind the block is read
  have hbounds := payload_bounds hk
  have hend := hr.brk_le
  rw [kernelHeapEnd_eq] at hend
  have hpast : payload bs k + b.size ∈ reads := by
    rw [hreads, hcopy]
    exact reads_kmemcpyLoop _ (by omega) (by omega)
  have hread := (h.reads _ hpast).2
  rw [hsize] at hread
  exact lt_irrefl _ hread

/-- **`krealloc` keeps its promise exactly if it asks for no more bytes than the old block has.** -/
theorem reallocates_iff (hi : HeapInv s) {ptr n newPtr : Nat} {reads : List Nat} {h' : Heap σ}
    (hl : ptr ∈ s.pointers) (hn : 0 < n)
    (hcall : s.heap.krealloc ptr n = some (newPtr, reads, h')) (hne : newPtr ≠ 0) :
    Reallocates s ptr n newPtr reads h' ↔
      n ≤ headerSize s.heap.mem (ptr - kmallocHeaderSize) :=
  ⟨fun h => not_lt.1 fun hlt => not_reallocates_of_lt hi hl hn hcall hne hlt h,
    reallocates_of_le hi hl hn hcall hne⟩

/-- What `krealloc` returns on a heap of one page, for the block in use. -/
theorem krealloc_usedHeap {n : Nat} (hn : 0 < n)
    (hk : (usedHeap.heap.kmalloc n).any (fun r => decide (r.1 ≠ 0)) = true) :
    ∃ newPtr reads h', usedHeap.heap.krealloc 0xD000000C n = some (newPtr, reads, h') ∧
      newPtr ≠ 0 := by
  obtain ⟨⟨newPtr, h₁⟩, hmalloc, hne⟩ := (Option.any_eq_true ..).1 hk
  obtain ⟨reads, h', hcall⟩ := krealloc_of_kmalloc hn hmalloc
  exact ⟨newPtr, reads, h', hcall, of_decide_eq_true hne⟩

/-- A block of a page, made smaller. -/
theorem reallocates_smaller : ∃ newPtr reads h',
    usedHeap.heap.krealloc 0xD000000C 40 = some (newPtr, reads, h') ∧
      Reallocates usedHeap 0xD000000C 40 newPtr reads h' := by
  obtain ⟨newPtr, reads, h', hcall, hne⟩ :=
    krealloc_usedHeap (n := 40) (by decide) (by decide +kernel)
  exact ⟨newPtr, reads, h', hcall, (reallocates_iff heapInv_usedHeap (by decide +kernel)
    (by decide) hcall hne).2 (by decide +kernel)⟩

/-- **A block of a page, made larger by one byte**: the copy reads the byte behind it. -/
theorem krealloc_reads_past : ∃ newPtr reads h',
    usedHeap.heap.krealloc 0xD000000C 4085 = some (newPtr, reads, h') ∧
      newPtr ≠ 0 ∧ ¬Reallocates usedHeap 0xD000000C 4085 newPtr reads h' := by
  obtain ⟨newPtr, reads, h', hcall, hne⟩ :=
    krealloc_usedHeap (n := 4085) (by decide) (by decide +kernel)
  exact ⟨newPtr, reads, h', hcall, hne, not_reallocates_of_lt heapInv_usedHeap (by decide +kernel)
    (by decide) hcall hne (by decide +kernel)⟩

end DelOs
