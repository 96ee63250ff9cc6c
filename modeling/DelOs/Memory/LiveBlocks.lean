import DelOs.Memory.KmallocSizes
import DelOs.Memory.Krealloc
import DelOs.Memory.MapRange

/-!
# What an allocation takes

A block of the heap if it succeeds, and pages perhaps if it does not.

* `liveBlocks` — the blocks in use, read off the headers in memory.
* `Kept` — blocks in use stay where they are.
* `Represents.kcalloc_new`, `Represents.kmalloc_kept` — **an allocation makes one block live** and
  keeps the others.
* `RefusesAtOnce` — a refusal before any page was taken.
* `kmalloc_refused` — **every other refusal costs pages.**
-/

namespace DelOs

open ByteMem FirstFit

universe u

variable {α : Type u}

/-! ## The live blocks -/

/-- The blocks in use from the header `header` on, for at most `fuel` headers: where the payload
starts, and its size. -/
def liveHeaders (m : Mem) : Nat → Nat → List (Nat × Nat)
  | 0, _ => []
  | fuel + 1, header =>
      if header = 0 then []
      else if headerFree m header = 1 then liveHeaders m fuel (headerNext m header)
      else (header + kmallocHeaderSize, headerSize m header) ::
        liveHeaders m fuel (headerNext m header)

/-- The blocks of a heap that are in use. -/
def Heap.liveBlocks {σ : Type} (h : Heap σ) : List (Nat × Nat) :=
  liveHeaders h.mem h.walkFuel h.kernelHeapLh

theorem mem_liveHeaders {m : Mem} {base a fuel : Nat} {bs : Blocks α} {block : Nat × Nat}
    (h : Headers m base bs a) (hbase : 0 < base) (hfuel : bs.length < fuel) :
    block ∈ liveHeaders m fuel a ↔ ∃ p b, get bs p = some b ∧ b.free = false ∧
      block = (address kmallocHeaderSize base bs p, b.size) := by
  induction bs generalizing a fuel with
  | nil =>
    obtain ⟨f, rfl⟩ : ∃ f, fuel = f + 1 := ⟨fuel - 1, by omega⟩
    have ha : a = 0 := h
    simp [liveHeaders, ha]
  | cons b bs ih =>
    obtain ⟨f, rfl⟩ : ∃ f, fuel = f + 1 := ⟨fuel - 1, by omega⟩
    obtain ⟨ha, hfree, hsize, hrest⟩ := h
    have hne : a ≠ 0 := by
      have := base_le_top kmallocHeaderSize base bs
      omega
    have hnew : address kmallocHeaderSize base (b :: bs) (bs.length + 1) =
        a + kmallocHeaderSize := by
      rw [address, if_pos rfl, ha]
    -- a block of the rest is where it was
    have hold : (∃ p c, get (b :: bs) p = some c ∧ c.free = false ∧
          block = (address kmallocHeaderSize base (b :: bs) p, c.size)) ↔
        (b.free = false ∧ block = (a + kmallocHeaderSize, b.size)) ∨
          block ∈ liveHeaders m f (headerNext m a) := by
      rw [ih hrest (by simpa using hfuel)]
      constructor
      · rintro ⟨p, c, hc, hlive, rfl⟩
        rw [get_cons] at hc
        split_ifs at hc with hp
        · obtain rfl := Option.some.inj hc
          rw [hp, hnew]
          exact Or.inl ⟨hlive, rfl⟩
        · exact Or.inr ⟨p, c, hc, hlive, by rw [address_push _ _ (get_bounds hc).2]⟩
      · rintro (⟨hlive, rfl⟩ | ⟨p, c, hc, hlive, rfl⟩)
        · exact ⟨bs.length + 1, b, by rw [get_cons, if_pos rfl], hlive, by rw [hnew]⟩
        · have hle := (get_bounds hc).2
          exact ⟨p, c, by rw [get_push hle, hc], hlive, by rw [address_push _ _ hle]⟩
    rw [hold, liveHeaders, if_neg hne, hfree, hsize]
    cases b.free with
    | true => simp [flagWord]
    | false => simp [flagWord]

/-- **The live blocks in memory are those of the list.** -/
theorem Represents.mem_liveBlocks {σ : Type} {h : Heap σ} {bs : Blocks α} {block : Nat × Nat}
    (hr : Represents h bs) : block ∈ h.liveBlocks ↔
      ∃ p b, get bs p = some b ∧ b.free = false ∧ block = (payload bs p, b.size) :=
  mem_liveHeaders hr.headers (by decide) hr.length_lt_walkFuel

/-! ## Blocks that stay -/

/-- The blocks in use stay in use, where they are. -/
def Kept (bs bs' : Blocks α) : Prop :=
  ∀ q c, get bs q = some c → c.free = false → get bs' q = some c ∧ payload bs' q = payload bs q

theorem Kept.refl (bs : Blocks α) : Kept bs bs := fun _ _ hq _ => ⟨hq, rfl⟩

theorem Kept.trans {bs bs₁ bs₂ : Blocks α} (h₁ : Kept bs bs₁) (h₂ : Kept bs₁ bs₂) :
    Kept bs bs₂ := by
  intro q c hq hc
  obtain ⟨hq₁, hpay₁⟩ := h₁ q c hq hc
  obtain ⟨hq₂, hpay₂⟩ := h₂ q c hq₁ hc
  exact ⟨hq₂, hpay₂.trans hpay₁⟩

theorem kept_kmallocBlocks {grant : Bool} {junk : α} {bs bs' : Blocks α} {size p : Nat}
    (h : kmallocBlocks grant junk bs size = (p, bs')) : Kept bs bs' := by
  intro q c hq hc
  by_cases hp : p = 0
  · subst hp
    rw [kmallocBlocks_null h]
    exact ⟨hq, rfl⟩
  · have hqp : q ≠ p := by
      rintro rfl
      exact (live_kmallocBlocks h hp).1 ⟨c, hq, hc⟩
    exact ⟨(get_kmallocBlocks_ne h hqp).trans hq, payload_kmallocBlocks h hq⟩

section Heaps

variable {σ : Type} {h h' : Heap σ} {bs bs' : Blocks Unit} {size ptr p : Nat}

/-- A block that is kept is live in memory, as before. -/
theorem Kept.mem_liveBlocks (hk : Kept bs bs') (hr : Represents h bs) (hr' : Represents h' bs')
    {block : Nat × Nat} (hb : block ∈ h.liveBlocks) : block ∈ h'.liveBlocks := by
  obtain ⟨q, b, hq, hlive, rfl⟩ := hr.mem_liveBlocks.1 hb
  obtain ⟨hq', hpay⟩ := hk q b hq hlive
  exact hr'.mem_liveBlocks.2 ⟨q, b, hq', hlive, by rw [hpay]⟩

/-- Block `p` of the list has room for `size` bytes and has become live; the others are kept. -/
structure NewBlock (bs bs' : Blocks Unit) (p size : Nat) (b : Block Unit) : Prop where
  kept : Kept bs bs'
  block : get bs' p = some b
  live : b.free = false
  room : size ≤ b.size
  fresh : ¬Live bs p

/-- No block that was live begins where the new one does. -/
theorem NewBlock.not_mem_liveBlocks {b : Block Unit} (hn : NewBlock bs bs' p size b)
    (hr : Represents h bs) (n : Nat) : (payload bs' p, n) ∉ h.liveBlocks := by
  intro hmem
  obtain ⟨q, c, hq, hlive, heq⟩ := hr.mem_liveBlocks.1 hmem
  obtain ⟨hq', hpay⟩ := hn.kept q c hq hlive
  have hsame : p = q := by
    refine address_injective kmallocHeaderSize kernelHeapStart hn.block hq' (by decide) ?_
    exact (Prod.mk.inj heq).1.trans hpay.symm
  exact hn.fresh ⟨c, hsame ▸ hq, hlive⟩

variable [PageSource σ]

/-- **What `kcalloc` makes live.** -/
theorem Represents.kcalloc_new (hr : Represents h bs) (hs : size ≤ 2 ^ 29)
    (hk : h.kcalloc size = some (ptr, h')) (hne : ptr ≠ 0) :
    ∃ bs' p b, Represents h' bs' ∧ ptr = payload bs' p ∧ NewBlock bs bs' p size b := by
  obtain ⟨grant, hr', hptr, -⟩ := hr.kcalloc () hs hk
  rcases hres : kmallocBlocks grant () bs size with ⟨p, bs'⟩
  rw [hres] at hr' hptr
  have hp : p ≠ 0 := by
    rintro rfl
    exact hne (hptr.trans (address_zero _ _ _))
  obtain ⟨⟨b, hb, hlive, hroom⟩, -⟩ := get_kmallocBlocks hs hres hp
  exact ⟨bs', p, b, hr', hptr, kept_kmallocBlocks hres, hb, hlive, (le_alignUp hs).trans hroom,
    (live_kmallocBlocks hres hp).1⟩

/-- `kmalloc` keeps what is live, and returns a null pointer or a block. -/
theorem Represents.kmalloc_kept (hr : Represents h bs) (hs : size ≤ 2 ^ 29)
    (hk : h.kmalloc size = some (ptr, h')) :
    ∃ bs', Represents h' bs' ∧ Kept bs bs' ∧
      (ptr = 0 ∨ ∃ p b, ptr = payload bs' p ∧ get bs' p = some b ∧ size ≤ b.size) := by
  obtain ⟨grant, hr', hptr, -⟩ := hr.kmalloc () hs hk
  rcases hres : kmallocBlocks grant () bs size with ⟨p, bs'⟩
  rw [hres] at hr' hptr
  refine ⟨bs', hr', kept_kmallocBlocks hres, ?_⟩
  by_cases hp : p = 0
  · subst hp
    exact Or.inl (hptr.trans (address_zero _ _ _))
  · obtain ⟨⟨b, hb, -, hroom⟩, -⟩ := get_kmallocBlocks hs hres hp
    exact Or.inr ⟨p, b, hptr, hb, (le_alignUp hs).trans hroom⟩

/-- A null pointer from `kcalloc` is one from `kmalloc`; nothing in memory has changed. -/
theorem Represents.kcalloc_null (hr : Represents h bs) (hs : size ≤ 2 ^ 29)
    (hk : h.kcalloc size = some (0, h')) :
    h.kmalloc size = some (0, h') ∧ h' = { h with pages := h'.pages } := by
  obtain ⟨h₁, hmalloc, ⟨-, rfl⟩ | ⟨hne, -⟩⟩ := kcalloc_cases hk
  · obtain ⟨-, -, -, -, hnull⟩ := hr.kmalloc () hs hmalloc
    exact ⟨hmalloc, hnull rfl⟩
  · exact absurd rfl hne

end Heaps

/-! ## What an allocation that is refused costs -/

/-- No free block has room for `size` bytes, and the page layers are not asked for a new one, or
have no free page left. -/
structure Heap.RefusesAtOnce (h : Heap KernelPages) (size : Nat) : Prop where
  noBlock : h.fitFor size = some 0
  noPage : h.kernelHeapLimit < u32 (h.kernelHeapBrk + alignUp size 8 + kmallocHeaderSize) ∨
    h.freePagesAmount = 0

section Allocations

variable {h h' : Heap KernelPages} {size : Nat}

/-- A page request that is refused at once leaves the page layers as they were. -/
theorem kpmmAllocPages_exhausted {n : Nat} (h0 : h.freePagesAmount = 0) :
    PageSource.kpmmAllocPages h.pages n = some (0, h.pages) := by
  have hpmm : h.pages.vmm.pmm.allocPages n = some (0, h.pages.vmm.pmm) := if_pos (Or.inr h0)
  simp [PageSource.kpmmAllocPages, Vmm.kpmmAllocPages, hpmm]

theorem Heap.RefusesAtOnce.kmalloc (hr : h.RefusesAtOnce size) : h.kmalloc size = some (0, h) := by
  by_cases hsize : size = 0
  · rw [Heap.kmalloc, if_pos hsize]
  · have hcreate : h.createHeapHeader (alignUp size 8) = some (0, h) := by
      simp only [Heap.createHeapHeader]
      split_ifs with hno hlimit
      · rfl
      · rfl
      · simp [kpmmAllocPages_exhausted (hr.noPage.resolve_left hlimit)]
    have hfit : findFreeHeapHeader h.mem (alignUp size 8) h.walkFuel h.kernelHeapLh = some 0 :=
      hr.noBlock
    simp [Heap.kmalloc, hsize, hfit, hcreate]

theorem Heap.RefusesAtOnce.kcalloc (hr : h.RefusesAtOnce size) : h.kcalloc size = some (0, h) := by
  simp [Heap.kcalloc, hr.kmalloc]

/-- A page request that is answered with a null pointer has found no free page, or has cost some. -/
theorem kpmmAllocPages_null {n : Nat} {source : KernelPages} (hn : n ≠ 0) (hlt : n < 2 ^ 32)
    (hcall : PageSource.kpmmAllocPages h.pages n = some (0, source)) :
    h.freePagesAmount = 0 ∨
      ({ h with pages := source } : Heap KernelPages).freePagesAmount ≠ h.freePagesAmount := by
  obtain ⟨⟨phys, s₁⟩, hphys, heq⟩ := Option.map_eq_some_iff.1 hcall
  obtain ⟨-, rfl⟩ := Prod.mk.inj heq
  obtain ⟨⟨p, pmm⟩, hpmm, heq⟩ := Option.map_eq_some_iff.1 hphys
  obtain ⟨-, rfl⟩ := Prod.mk.inj heq
  rcases Pmm.allocPages_counter hpmm with ⟨hno, -, -⟩ | ⟨-, -, htaken⟩
  · exact Or.inl (hno.resolve_left hn)
  · right
    intro hsame
    unfold Heap.freePagesAmount at hsame
    dsimp only at hsame
    omega

/-- **A refused allocation that leaves the counter alone was refused at once.** -/
theorem kmalloc_refused (hbrk : h.kernelHeapBrk ≠ 0) (hsize : alignUp size 8 ≠ 0)
    (hpages : pagesToGet (alignUp size 8) ≠ 0) (hk : h.kmalloc size = some (0, h'))
    (hsame : h'.freePagesAmount = h.freePagesAmount) : h.RefusesAtOnce size := by
  rcases Heap.kmalloc_cases hk with ⟨rfl, -, -⟩ | ⟨header, -, -, -, hptr, -⟩ |
      ⟨-, hfind, header, hcreate, hptr⟩
  · exact absurd rfl hsize
  · simp [kmallocHeaderSize] at hptr
  · have hheader : header = 0 := by
      by_contra hne
      rw [if_neg hne] at hptr
      simp [kmallocHeaderSize] at hptr
    subst hheader
    refine ⟨hfind, ?_⟩
    rcases Heap.createHeapHeader_cases hcreate with ⟨-, -, hno⟩ | ⟨source, halloc, -, rfl⟩ |
        ⟨frame, source, source', hlimit, halloc, hframe, hmap, -, rfl⟩ |
        ⟨-, -, -, -, -, -, -, -, -, hnull, -⟩
    · exact Or.inl ((hno.resolve_left hsize).resolve_left hpages)
    · have hlt : pagesToGet (alignUp size 8) < 2 ^ 32 := by
        unfold pagesToGet u32 kmallocPageSize
        omega
      exact Or.inr ((kpmmAllocPages_null hpages hlt halloc).resolve_right fun hne => hne hsame)
    · have hfails : MappingFails h size { h with pages := source' } :=
        ⟨hsize, hfind, frame, source, source', hlimit, halloc, hframe, hmap, rfl⟩
      exact absurd hsame hfails.counter
    · exact absurd hnull.symm hbrk

end Allocations

end DelOs
