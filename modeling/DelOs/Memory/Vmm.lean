import DelOs.Lib.TwoLevel
import DelOs.Memory.Pmm

/-!
# Page tables through the recursive mapping

`kvmm_map_page`, `kvmm_map_range` and `kvmm_unmap_page` of `src/kernel/memory/vmm/vmm_map.c`.
They reach the page directory and the page tables at virtual addresses, through the directory
slot 1023, which names the directory itself; so each of their accesses is translated by the
very tables they change, and faults where the translation is missing.

* `Vmm` — the physical frames as tables of entries, CR3, and the page bitmap.
* `Vmm.translate` — what the processor makes of a page.
* `Vmm.load`, `Vmm.store` — an access at a virtual page.
* `Vmm.clearFreshTable` — `kmemset(PHYS_TO_VIRT(frame), 0, 4096)`.
* `Vmm.kvmmMapPage`, `Vmm.kvmmMapRange`, `Vmm.kvmmUnmapPage` — the functions of the same
  names; `none` is a page fault or a kernel panic.

Page and frame numbers are addresses divided by 4096.  `CR0.WP` is not set, so that accesses of
the kernel ignore the read-only bit; the translation of a page is looked up once for each
access, and once for the whole clear.
-/

namespace DelOs

open TwoLevel

/-! ## Entries and frames -/

/-- `page_table_entry_t`, and `page_directory_entry_t` with `_table_addr` for `_frame`; `attrs`
holds the bits between `_user` and `_frame`, which no function here looks at. -/
structure PageEntry where
  present : Bool
  rw : Bool
  user : Bool
  attrs : Nat
  frame : Nat
  deriving DecidableEq, Repr

/-- The word 0. -/
def PageEntry.zero : PageEntry := ⟨false, false, false, 0, 0⟩

instance : TableEntry PageEntry := ⟨PageEntry.present, PageEntry.frame⟩

/-- The physical memory as frames of 1024 words, the frame that CR3 holds, the page bitmap. -/
structure Vmm where
  frames : Frames PageEntry
  cr3 : Nat
  pmm : Pmm

/-- What a page translates to: its frame, the rights of its table entry and those of the
directory entry above it. -/
structure Translation where
  frame : Nat
  rw : Bool
  user : Bool
  dirRw : Bool
  dirUser : Bool
  deriving DecidableEq, Repr

/-- `KVMM_GET_PDE_INDEX`. -/
def pdeIndex (vaddr : Nat) : Nat := vaddr / 2 ^ 22 % 1024

/-- `KVMM_GET_PTE_INDEX`. -/
def pteIndex (vaddr : Nat) : Nat := vaddr / 2 ^ 12 % 1024

/-- The page at `KVMM_RECURSIVE_PD_ADDR`, where `KVMM_GET_PD` points. -/
def recursivePd : Nat := 0xFFFFF

/-- The page at `KVMM_GET_PT_VIA_PDE(pd_index)`. -/
def recursivePt (pdIndex : Nat) : Nat := 0xFFC00 + pdIndex

/-- The page at `PHYS_TO_VIRT` of a frame: the sum wraps at 4 GiB. -/
def physToVirt (frame : Nat) : Nat := (frame + 0xC0000) % 2 ^ 20

/-- A flag of `KVMM_FLAGS` is set. -/
def hasFlag (flags : Nat) (bit : Nat) : Bool := flags.testBit bit

/-- `KVMM_FLAG_PRESENT`, `KVMM_FLAG_RW` and `KVMM_FLAG_USER`, as bit numbers. -/
def flagPresent : Nat := 0
def flagRw : Nat := 1
def flagUser : Nat := 2

/-- The fields that both entry updates of `kvmm_map_page` assign; the others stay. -/
def PageEntry.assign (e : PageEntry) (flags frame : Nat) : PageEntry :=
  { e with
    present := hasFlag flags flagPresent
    rw := hasFlag flags flagRw
    user := hasFlag flags flagUser
    frame := frame }

namespace Vmm

/-! ## Accesses -/

/-- The two entries that a page goes through. -/
def entries (s : Vmm) (page : Nat) : Option (PageEntry × PageEntry) :=
  lookup s.frames s.cr3 (page / 1024) (page % 1024)

/-- The translation of a page. -/
def translate (s : Vmm) (page : Nat) : Option Translation :=
  (s.entries page).map fun e => ⟨e.2.frame, e.2.rw, e.2.user, e.1.rw, e.1.user⟩

/-- The frame an access at a page reaches; `none` is a page fault. -/
def walk (s : Vmm) (page : Nat) : Option Nat := (s.entries page).map fun e => e.2.frame

/-- Read word `i` of a page. -/
def load (s : Vmm) (page i : Nat) : Option PageEntry := (s.walk page).map fun f => s.frames f i

/-- Write word `i` of a page. -/
def store (s : Vmm) (page i : Nat) (e : PageEntry) : Option Vmm :=
  (s.walk page).map fun f => { s with frames := put s.frames f i e }

/-- Clear a frame. -/
def clearFrame (s : Vmm) (frame : Nat) : Vmm :=
  { s with frames := wipe s.frames frame PageEntry.zero }

/-- `kmemset(PHYS_TO_VIRT(frame), 0, 4096)`, which does nothing at the null pointer. -/
def clearFreshTable (s : Vmm) (frame : Nat) : Option Vmm :=
  if physToVirt frame = 0 then some s
  else (s.walk (physToVirt frame)).map s.clearFrame

/-! ## Mapping -/

/-- `kpmm_alloc_pages`. -/
def kpmmAllocPages (s : Vmm) (pageCount : Nat) : Option (Nat × Vmm) :=
  (s.pmm.allocPages pageCount).map fun r => (r.1, { s with pmm := r.2 })

/-- The first half of `kvmm_map_page`: make sure that a directory slot names a table.  The
answer is `false` when there is no frame for a new one.  `clear` stands for the clearing of
the new table. -/
def ensureTable (clear : Vmm → Nat → Option Vmm) (s : Vmm) (pdIndex flags : Nat) :
    Option (Bool × Vmm) := do
  let pde ← s.load recursivePd pdIndex
  if pde.present then return (true, s)
  else do
    let (newPtPhys, pmm) ← s.pmm.allocPages 1
    if newPtPhys = 0 then return (false, { s with pmm := pmm })
    else do
      let s ← clear { s with pmm := pmm } (newPtPhys / kpmmPageSize)
      let pde ← s.load recursivePd pdIndex
      let s ← s.store recursivePd pdIndex (pde.assign flags (newPtPhys / kpmmPageSize))
      return (true, s)

/-- The second half of `kvmm_map_page`: fill the table entry, unless it is present. -/
def fillEntry (s : Vmm) (vaddr paddr flags : Nat) : Option (Bool × Vmm) := do
  let pte ← s.load (recursivePt (pdeIndex vaddr)) (pteIndex vaddr)
  if pte.present then return (false, s)
  else do
    let s ← s.store (recursivePt (pdeIndex vaddr)) (pteIndex vaddr)
      (pte.assign flags (paddr / kpmmPageSize))
    return (true, s)

/-- `kvmm_map_page`, with the clearing of a new table as a parameter. -/
def kvmmMapPageVia (clear : Vmm → Nat → Option Vmm) (s : Vmm) (vaddr paddr flags : Nat) :
    Option (Bool × Vmm) :=
  if vaddr % 4096 ≠ 0 ∨ paddr % 4096 ≠ 0 then some (false, s)
  else do
    let (ok, s) ← s.ensureTable clear (pdeIndex vaddr) flags
    if ok then s.fillEntry vaddr paddr flags else return (false, s)

/-- `kvmm_map_page`. -/
def kvmmMapPage (s : Vmm) (vaddr paddr flags : Nat) : Option (Bool × Vmm) :=
  kvmmMapPageVia clearFreshTable s vaddr paddr flags

/-- The loop of `kvmm_map_range`, from page `i` on for `left` pages. -/
def mapPages (clear : Vmm → Nat → Option Vmm) (vaddr paddr flags : Nat) :
    Vmm → Nat → Nat → Option (Bool × Vmm)
  | s, _, 0 => some (true, s)
  | s, i, left + 1 => do
      let (ok, s) ← kvmmMapPageVia clear s (u32 (vaddr + kpmmPageSize * i))
        (u32 (paddr + kpmmPageSize * i)) flags
      if ok then mapPages clear vaddr paddr flags s (i + 1) left else return (false, s)

/-- `kvmm_map_range`, with the clearing of a new table as a parameter. -/
def kvmmMapRangeVia (clear : Vmm → Nat → Option Vmm) (s : Vmm)
    (vaddr paddr flags amount : Nat) : Option (Bool × Vmm) :=
  if vaddr % 4096 ≠ 0 ∨ paddr % 4096 ≠ 0 then some (false, s)
  else mapPages clear vaddr paddr flags s 0 amount

/-- `kvmm_map_range`. -/
def kvmmMapRange (s : Vmm) (vaddr paddr flags amount : Nat) : Option (Bool × Vmm) :=
  kvmmMapRangeVia clearFreshTable s vaddr paddr flags amount

/-- `kvmm_unmap_page`. -/
def kvmmUnmapPage (s : Vmm) (vaddr : Nat) : Option (Bool × Vmm) :=
  if vaddr % 4096 ≠ 0 then some (false, s)
  else do
    let pde ← s.load recursivePd (pdeIndex vaddr)
    if pde.present = false then return (false, s)
    else do
      let pte ← s.load (recursivePt (pdeIndex vaddr)) (pteIndex vaddr)
      if pte.present = false then return (false, s)
      else do
        let s ← s.store (recursivePt (pdeIndex vaddr)) (pteIndex vaddr) PageEntry.zero
        return (true, s)

/-- One round of the loop of `kvmm_map_range`, where the addresses do not wrap. -/
theorem mapPages_succ (clear : Vmm → Nat → Option Vmm) {vaddr a i : Nat} (flags left : Nat) (s : Vmm)
    (hv : vaddr + kpmmPageSize * i < 2 ^ 32) (ha : a + i < 2 ^ 20) :
    mapPages clear vaddr (a * kpmmPageSize) flags s i (left + 1) =
      (kvmmMapPageVia clear s (vaddr + kpmmPageSize * i) ((a + i) * kpmmPageSize) flags).bind
        fun r => if r.1 then mapPages clear vaddr (a * kpmmPageSize) flags r.2 (i + 1) left
          else some (false, r.2) := by
  have hp : u32 (a * kpmmPageSize + kpmmPageSize * i) = (a + i) * kpmmPageSize := by
    rw [u32_eq (by simp only [kpmmPageSize]; omega)]
    simp only [kpmmPageSize]
    omega
  rw [mapPages, u32_eq hv, hp]
  rfl

end Vmm

end DelOs
