import DelOs.Lib.ByteMem

/-!
# The kernel heap: `kmalloc`, `kcalloc`, `kfree`

The allocator of `src/kernel/memory/api`, over a byte memory.  A block is a 12-byte header
(`_free`, `_size`, `_next`, three little-endian words) followed by `_size` payload bytes; the
headers form a list that starts at `kernel_heap_lh` with the newest block.  A request takes
the first free header that is large enough, else it maps fresh pages at `kernel_heap_brk`.

* `PageSource` — what the allocator asks of the page layers below it: frames
  (`kpmm_alloc_pages`) and mappings (`kvmm_map_page`, `kvmm_map_range`), whatever they answer.
* `Heap` — the heap variables of `kmalloc_manager.c`, the memory they point into, and the
  state of the page source.
* `Heap.findFreeHeapHeader`, `Heap.createHeapHeader`, `Heap.kmalloc`, `Heap.kcalloc`,
  `Heap.kfree`, `kmallocInit` — the functions of the same names.

Addresses are natural numbers below `2 ^ 32` and `u32` marks where a 32-bit sum may wrap.  A
function returns `none` where the kernel panics.  The contents of a page that gets mapped are
the bytes the memory already gives for it, so they are arbitrary.
-/

namespace DelOs

open ByteMem

/-! ## Machine integers -/

/-- What a 32-bit unsigned variable keeps of a sum. -/
def u32 (n : Nat) : Nat := n % 2 ^ 32

theorem u32_eq {n : Nat} (h : n < 2 ^ 32) : u32 n = n := Nat.mod_eq_of_lt h

/-- `ALIGN_UP(x, a)` on 32 bits, for a power of two `a`: the mask clears the low bits. -/
def alignUp (x a : Nat) : Nat := u32 (x + (a - 1)) / a * a

/-! ## The page layers, as the heap sees them -/

/-- `KVMM_FLAG_PRESENT | KVMM_FLAG_RW`. -/
def kvmmFlagPresentRw : Nat := 3

/-- The page functions the heap calls, over a state of their own.  An answer of `none` is a
kernel panic; a null frame or `false` is a refusal. -/
class PageSource (σ : Type) where
  /-- `kpmm_alloc_pages(page_count)`. -/
  kpmmAllocPages : σ → Nat → Option (Nat × σ)
  /-- `kvmm_map_page(vaddr, paddr, flags)`. -/
  kvmmMapPage : σ → Nat → Nat → Nat → Option (Bool × σ)
  /-- `kvmm_map_range(vaddr, paddr, flags, amount)`. -/
  kvmmMapRange : σ → Nat → Nat → Nat → Nat → Option (Bool × σ)

/-! ## Headers -/

/-- `KMALLOC_PAGE_SIZE`. -/
def kmallocPageSize : Nat := 4096

/-- `sizeof(kmalloc_header_t)`. -/
def kmallocHeaderSize : Nat := 12

/-- `&__kernel_heap_start`, from the linker script. -/
def kernelHeapStart : Nat := 0xD0000000

/-- `&__kernel_heap_end`: `KERNEL_HEAP_SIZE` bytes after the start. -/
def kernelHeapEnd : Nat := kernelHeapStart + 409600

theorem kernelHeapEnd_eq : kernelHeapEnd = 0xD0064000 := rfl

/-- `header->_free`. -/
def headerFree (m : Mem) (header : Nat) : Nat := read32 m header

/-- `header->_size`. -/
def headerSize (m : Mem) (header : Nat) : Nat := read32 m (header + 4)

/-- `header->_next`. -/
def headerNext (m : Mem) (header : Nat) : Nat := read32 m (header + 8)

/-- The three words of a header. -/
def writeHeader (m : Mem) (header free size next : Nat) : Mem :=
  write32 (write32 (write32 m header free) (header + 4) size) (header + 8) next

/-- The heap variables, the memory and the state of the page source. -/
structure Heap (σ : Type) where
  mem : Mem
  kernelHeapBase : Nat
  kernelHeapBrk : Nat
  kernelHeapLimit : Nat
  kernelHeapLh : Nat
  pages : σ

/-! ## Allocation -/

/-- The loop of `find_free_heap_header`, from the header `tmpHeader` on, for at most `fuel`
headers. -/
def findFreeHeapHeader (m : Mem) (size : Nat) : Nat → Nat → Option Nat
  | 0, _ => none
  | fuel + 1, tmpHeader =>
      if tmpHeader = 0 then some 0
      else if headerFree m tmpHeader = 1 ∧ size ≤ headerSize m tmpHeader then some tmpHeader
      else findFreeHeapHeader m size fuel (headerNext m tmpHeader)

/-- The pages a new block of `size` payload bytes takes. -/
def pagesToGet (size : Nat) : Nat :=
  u32 (size + kmallocHeaderSize + kmallocPageSize - 1) / kmallocPageSize

namespace Heap

variable {σ : Type} [PageSource σ]

/-- How many headers a walk of the list may visit: one for each page below the break, and
the null pointer at the end. -/
def walkFuel (h : Heap σ) : Nat :=
  (h.kernelHeapBrk - h.kernelHeapBase) / kmallocPageSize + 1

/-- `create_heap_header`: the new header, or null. -/
def createHeapHeader (h : Heap σ) (size : Nat) : Option (Nat × Heap σ) :=
  let header := h.kernelHeapBrk
  let pages := pagesToGet size
  if size = 0 ∨ pages = 0 then some (0, h)
  else if h.kernelHeapLimit < u32 (h.kernelHeapBrk + size + kmallocHeaderSize) then some (0, h)
  else do
    let (frame, source) ← PageSource.kpmmAllocPages h.pages pages
    if frame = 0 then return (0, { h with pages := source })
    let (mapped, source) ←
      PageSource.kvmmMapRange source header frame kvmmFlagPresentRw pages
    if mapped = false then return (0, { h with pages := source })
    return (header, { h with
      mem := writeHeader h.mem header 0
        (u32 (kmallocPageSize * pages) - kmallocHeaderSize) h.kernelHeapLh
      kernelHeapLh := header
      kernelHeapBrk := u32 (h.kernelHeapBrk + kmallocPageSize * pages)
      pages := source })

/-- `kmalloc`. -/
def kmalloc (h : Heap σ) (size : Nat) : Option (Nat × Heap σ) :=
  if size = 0 then some (0, h)
  else do
    let size := alignUp size 8
    let header ← findFreeHeapHeader h.mem size h.walkFuel h.kernelHeapLh
    if header = 0 then
      let (header, h) ← h.createHeapHeader size
      return (if header = 0 then 0 else header + kmallocHeaderSize, h)
    else return (header + kmallocHeaderSize, { h with mem := write32 h.mem header 0 })

/-- `kcalloc`: `kmemset` on a null pointer does nothing. -/
def kcalloc (h : Heap σ) (size : Nat) : Option (Nat × Heap σ) :=
  if size = 0 then some (0, h)
  else do
    let (ptr, h) ← h.kmalloc size
    if ptr = 0 then return (0, h)
    return (ptr, { h with mem := fill h.mem ptr 0 (alignUp size 8) })

/-- `kfree`: the answer, and the heap after it. -/
def kfree (h : Heap σ) (ptr : Nat) : Bool × Heap σ :=
  if ptr = 0 ∨ ptr < h.kernelHeapBase ∨ h.kernelHeapBrk < ptr then (false, h)
  else
    let header := ptr - kmallocHeaderSize
    if headerFree h.mem header = 1 then (false, h)
    else (true, { h with mem := write32 h.mem header 1 })

/-! ## What the functions can do -/

/-- Everything `create_heap_header` can do: refuse on its own, be refused a frame, be refused
the mapping, or add a header. -/
theorem createHeapHeader_cases {h h' : Heap σ} {size header : Nat}
    (hk : h.createHeapHeader size = some (header, h')) :
    (header = 0 ∧ h' = h ∧ (size = 0 ∨ pagesToGet size = 0 ∨
      h.kernelHeapLimit < u32 (h.kernelHeapBrk + size + kmallocHeaderSize))) ∨
    (∃ source, PageSource.kpmmAllocPages h.pages (pagesToGet size) = some (0, source) ∧
      header = 0 ∧ h' = { h with pages := source }) ∨
    (∃ frame source source',
      u32 (h.kernelHeapBrk + size + kmallocHeaderSize) ≤ h.kernelHeapLimit ∧
      PageSource.kpmmAllocPages h.pages (pagesToGet size) = some (frame, source) ∧ frame ≠ 0 ∧
      PageSource.kvmmMapRange source h.kernelHeapBrk frame kvmmFlagPresentRw
        (pagesToGet size) = some (false, source') ∧
      header = 0 ∧ h' = { h with pages := source' }) ∨
    (∃ frame source source', size ≠ 0 ∧ pagesToGet size ≠ 0 ∧
      u32 (h.kernelHeapBrk + size + kmallocHeaderSize) ≤ h.kernelHeapLimit ∧
      PageSource.kpmmAllocPages h.pages (pagesToGet size) = some (frame, source) ∧ frame ≠ 0 ∧
      PageSource.kvmmMapRange source h.kernelHeapBrk frame kvmmFlagPresentRw
        (pagesToGet size) = some (true, source') ∧
      header = h.kernelHeapBrk ∧ h' = { h with
        mem := writeHeader h.mem h.kernelHeapBrk 0
          (u32 (kmallocPageSize * pagesToGet size) - kmallocHeaderSize) h.kernelHeapLh
        kernelHeapLh := h.kernelHeapBrk
        kernelHeapBrk := u32 (h.kernelHeapBrk + kmallocPageSize * pagesToGet size)
        pages := source' }) := by
  simp only [createHeapHeader] at hk
  split_ifs at hk with h0 hlimit
  · cases hk
    exact Or.inl ⟨rfl, rfl, or_assoc.1 (Or.inl h0)⟩
  · cases hk
    exact Or.inl ⟨rfl, rfl, Or.inr (Or.inr hlimit)⟩
  · obtain ⟨⟨frame, source⟩, halloc, hk⟩ := Option.bind_eq_some_iff.1 hk
    right
    by_cases hframe : frame = 0
    · subst hframe
      cases hk
      exact Or.inl ⟨source, halloc, rfl, rfl⟩
    right
    rw [if_neg hframe] at hk
    obtain ⟨⟨mapped, source'⟩, hmap, hk⟩ := Option.bind_eq_some_iff.1 hk
    cases mapped with
    | false =>
      cases hk
      exact Or.inl ⟨frame, source, source', not_lt.1 hlimit, halloc, hframe, hmap, rfl, rfl⟩
    | true =>
      cases hk
      exact Or.inr ⟨frame, source, source', fun hc => h0 (Or.inl hc),
        fun hc => h0 (Or.inr hc), not_lt.1 hlimit, halloc, hframe, hmap, rfl, rfl⟩

/-- Everything `kmalloc` can do: refuse the empty request, take the free header it found, or
try to add a header. -/
theorem kmalloc_cases {h h' : Heap σ} {size ptr : Nat}
    (hk : h.kmalloc size = some (ptr, h')) :
    (size = 0 ∧ ptr = 0 ∧ h' = h) ∨
    (∃ header, size ≠ 0 ∧ header ≠ 0 ∧
      findFreeHeapHeader h.mem (alignUp size 8) h.walkFuel h.kernelHeapLh = some header ∧
      ptr = header + kmallocHeaderSize ∧ h' = { h with mem := write32 h.mem header 0 }) ∨
    (size ≠ 0 ∧
      findFreeHeapHeader h.mem (alignUp size 8) h.walkFuel h.kernelHeapLh = some 0 ∧
      ∃ header, h.createHeapHeader (alignUp size 8) = some (header, h') ∧
        ptr = if header = 0 then 0 else header + kmallocHeaderSize) := by
  simp only [kmalloc] at hk
  split_ifs at hk with h0
  · cases hk
    exact Or.inl ⟨h0, rfl, rfl⟩
  · obtain ⟨header, hfind, hk⟩ := Option.bind_eq_some_iff.1 hk
    right
    by_cases hheader : header = 0
    · subst hheader
      rw [if_pos rfl] at hk
      obtain ⟨⟨header, h''⟩, hcreate, hk⟩ := Option.bind_eq_some_iff.1 hk
      cases hk
      exact Or.inr ⟨h0, hfind, header, hcreate, rfl⟩
    · rw [if_neg hheader] at hk
      cases hk
      exact Or.inl ⟨header, h0, hheader, hfind, rfl, rfl⟩

end Heap

/-- `kmalloc_init`, over a memory and a page source: it returns only if it worked, since both
of its failures are panics. -/
def kmallocInit {σ : Type} [PageSource σ] (mem : Mem) (source : σ) : Option (Heap σ) := do
  let (firstFrame, source) ← PageSource.kpmmAllocPages source 1
  if firstFrame = 0 then none
  else do
    let (mapped, source) ←
      PageSource.kvmmMapPage source kernelHeapStart firstFrame kvmmFlagPresentRw
    if mapped = false then none
    else return {
      mem := writeHeader mem kernelHeapStart 1 (kmallocPageSize - kmallocHeaderSize) 0
      kernelHeapBase := kernelHeapStart
      kernelHeapBrk := kernelHeapStart + kmallocPageSize
      kernelHeapLimit := kernelHeapEnd
      kernelHeapLh := kernelHeapStart
      pages := source }

/-- What `kmalloc_init` leaves when it returns: one page, mapped, that is one free block. -/
theorem kmallocInit_some {σ : Type} [PageSource σ] {mem : Mem} {source : σ} {h : Heap σ}
    (hinit : kmallocInit mem source = some h) :
    ∃ frame source₁ source₂, PageSource.kpmmAllocPages source 1 = some (frame, source₁) ∧
      frame ≠ 0 ∧
      PageSource.kvmmMapPage source₁ kernelHeapStart frame kvmmFlagPresentRw =
        some (true, source₂) ∧
      h = {
        mem := writeHeader mem kernelHeapStart 1 (kmallocPageSize - kmallocHeaderSize) 0
        kernelHeapBase := kernelHeapStart
        kernelHeapBrk := kernelHeapStart + kmallocPageSize
        kernelHeapLimit := kernelHeapEnd
        kernelHeapLh := kernelHeapStart
        pages := source₂ } := by
  obtain ⟨⟨frame, source₁⟩, halloc, hinit⟩ := Option.bind_eq_some_iff.1 hinit
  dsimp only at hinit
  by_cases hframe : frame = 0
  · rw [if_pos hframe] at hinit
    cases hinit
  rw [if_neg hframe] at hinit
  obtain ⟨⟨mapped, source₂⟩, hmap, hinit⟩ := Option.bind_eq_some_iff.1 hinit
  cases mapped with
  | false => cases hinit
  | true =>
    cases hinit
    exact ⟨frame, source₁, source₂, halloc, hframe, hmap, rfl⟩

end DelOs
