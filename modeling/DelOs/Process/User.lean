import DelOs.Lib.Attempt
import DelOs.Memory.Vmm

/-!
# Building a user process

`kprocess_create_user` of `src/kernel/scheduler/process/process_user.c` and its six helpers.
The new page directory and its tables are written through three temporary windows of the
kernel's own directory, each of which is mapped again to every frame that is written through it.

* `KernelImage` — where the linker has put `ktask_stubs` and `__syscall__`.
* `allocPageDirectory`, `cloneKernelHighHalf`, `mapStubUserPage`, `mapEntryIfKernel`,
  `mapUserStack`, `setupInitialStack`, `finalizeProcessContext`, `kprocessCreateUser` — the
  functions of the same names.

A refusal is `KO_FALSE`; no outcome is a page fault or a kernel panic.  A pointer to a mapped
table is the page it lies in.  The process, its main thread and its context are there.
-/

namespace DelOs

open Attempt TwoLevel

/-! ## Constants -/

/-- `KERNEL_VIRTUAL_BASE`. -/
def kernelVirtualBase : Nat := 0xC0000000

/-- `KVMM_PD_INDEX`. -/
def kvmmPdIndex : Nat := 768

/-- `KVMM_FLAG_PRESENT | KVMM_FLAG_RW | KVMM_FLAG_KERNEL`. -/
def kvmmFlagKernelRw : Nat := 3

/-- `KPROCESS_PD_TMP_VADDR`, `KPROCESS_PT_TMP_VADDR`, `KPROCESS_STACK_TMP_VADDR`. -/
def kprocessPdTmpVaddr : Nat := 0xE0000000
def kprocessPtTmpVaddr : Nat := 0xE0001000
def kprocessStackTmpVaddr : Nat := 0xE0002000

/-- `KPROCESS_USER_STACK_TOP`, `KPROCESS_USER_STACK_PAGE_COUNT`, `KPROCESS_USER_STACK_BOTTOM`. -/
def kprocessUserStackTop : Nat := 0xBFFFE000
def kprocessUserStackPageCount : Nat := 4
def kprocessUserStackBottom : Nat := 0xBFFFA000

/-- `KGDT_USER_CODE_SELECTOR`. -/
def kgdtUserCode : Nat := 0x1B

/-- `KGDT_USER_DATA_SELECTOR`. -/
def kgdtUserData : Nat := 0x23

/-- The addresses of `ktask_stubs` and of `__syscall__`.  The linker script puts the kernel
behind `KERNEL_VIRTUAL_BASE`, in the directory slot that `kvmm_init` maps. -/
structure KernelImage where
  ktaskStubs : Nat
  syscall : Nat
  stubs_slot : ktaskStubs / 2 ^ 22 = kvmmPdIndex
  syscall_slot : syscall / 2 ^ 22 = kvmmPdIndex

/-- The fields of `process_t` and of its main thread's `_ctx` that are set here. -/
structure UserProcess where
  pageDirectory : Nat
  pageDirectoryPhys : Nat
  esp : Nat
  cs : Nat
  ds : Nat
  es : Nat
  fs : Nat
  gs : Nat
  deriving DecidableEq, Repr

/-- A word, read as an entry. -/
def PageEntry.ofWord (w : Nat) : PageEntry :=
  ⟨w.testBit 0, w.testBit 1, w.testBit 2, w / 8 % 512, w / 4096 % 2 ^ 20⟩

/-- The four fields that every entry of the new directory and of its stack table is given. -/
def PageEntry.grant (e : PageEntry) (phys : Nat) : PageEntry :=
  { e with present := true, rw := true, user := true, frame := phys / kpmmPageSize }

namespace Vmm

/-! ## Accesses -/

/-- `kmemset(page, 0, 4096)`. -/
def memsetPage (s : Vmm) (page : Nat) : Option Vmm := (s.walk page).map s.clearFrame

/-- `kmemcpy(dst, src, 4096)`. -/
def memcpyPage (s : Vmm) (dst src : Nat) : Option Vmm := do
  let f ← s.walk dst
  let g ← s.walk src
  return { s with frames := paste s.frames f g }

end Vmm

/-- The page of an address. -/
def pageOf (vaddr : Nat) : Nat := vaddr / kpmmPageSize

/-- Read entry `i` of a mapped table. -/
def loadEntry (page i : Nat) : Attempt Vmm PageEntry := read fun s => s.load page i

/-- Write entry `i` of a mapped table. -/
def storeEntry (page i : Nat) (e : PageEntry) : Attempt Vmm Unit := write fun s => s.store page i e

/-- Frames, or a refusal when the answer is null. -/
def takePages (pageCount : Nat) : Attempt Vmm Nat := do
  let phys ← call fun s => s.kpmmAllocPages pageCount
  if phys = 0 then refuse else pure phys

/-- Map a window again: `kvmm_unmap_page`, whose answer is not looked at, and
`kvmm_map_page(vaddr, phys, KVMM_FLAG_PRESENT | KVMM_FLAG_RW | KVMM_FLAG_KERNEL)`. -/
def openWindow (vaddr phys : Nat) : Attempt Vmm Unit := do
  let _ ← call fun s => s.kvmmUnmapPage vaddr
  check fun s => s.kvmmMapPage vaddr phys kvmmFlagKernelRw

/-- The four assignments to a directory slot or a stack entry. -/
def grantEntry (page i phys : Nat) : Attempt Vmm Unit := do
  let e ← loadEntry page i
  storeEntry page i (e.grant phys)

/-- `pt->_entries[i]._user = 1`. -/
def grantUser (page i : Nat) : Attempt Vmm Unit := do
  let e ← loadEntry page i
  storeEntry page i { e with user := true }

/-! ## The helpers -/

/-- `alloc_page_directory`: the physical address; the page is that of `KPROCESS_PD_TMP_VADDR`. -/
def allocPageDirectory : Attempt Vmm Nat := do
  let pdPhys ← takePages 1
  openWindow kprocessPdTmpVaddr pdPhys
  write fun s => s.memsetPage (pageOf kprocessPdTmpVaddr)
  return pdPhys

/-- The loop of `clone_kernel_high_half`, from slot `i` on for `left` slots. -/
def cloneSlots (dst src : Nat) : Nat → Nat → Attempt Vmm Unit
  | _, 0 => pure ()
  | i, left + 1 => do
      let e ← loadEntry src i
      storeEntry dst i e
      cloneSlots dst src (i + 1) left

/-- `clone_kernel_high_half`. -/
def cloneKernelHighHalf (dst src pdPhys : Nat) : Attempt Vmm Unit := do
  cloneSlots dst src kvmmPdIndex (1023 - kvmmPdIndex)
  let e ← loadEntry dst 1023
  storeEntry dst 1023
    { e with present := true, rw := true, user := false, frame := pdPhys / kpmmPageSize }

/-- Copy a table of the kernel to a new frame, seen through `KPROCESS_PT_TMP_VADDR`. -/
def cloneTable (kernelPt : Nat) : Attempt Vmm Nat := do
  let userPtPhys ← takePages 1
  openWindow kprocessPtTmpVaddr userPtPhys
  write fun s => s.memcpyPage (pageOf kprocessPtTmpVaddr) kernelPt
  return userPtPhys

/-- `map_stub_user_page`: the copied table and its slot. -/
def mapStubUserPage (img : KernelImage) (pd : Nat) : Attempt Vmm (Nat × Nat) := do
  let stubPde := pdeIndex img.ktaskStubs
  let stubPte := pteIndex img.ktaskStubs
  let pte ← loadEntry (recursivePt stubPde) stubPte
  if pte.present = false then refuse
  else do
    let userPtPhys ← cloneTable (recursivePt stubPde)
    grantUser (pageOf kprocessPtTmpVaddr) stubPte
    grantEntry pd stubPde userPtPhys
    return (userPtPhys, stubPde)

/-- The table of `map_entry_if_kernel`: the one of the stub, if it has the same slot, or a copy
of its own. -/
def entryTable (pd entryPde stubUserPtPhys stubPde : Nat) : Attempt Vmm Nat :=
  if entryPde = stubPde then pure stubUserPtPhys
  else do
    let userPtPhys ← cloneTable (recursivePt entryPde)
    grantEntry pd entryPde userPtPhys
    return userPtPhys

/-- `map_entry_if_kernel`. -/
def mapEntryIfKernel (pd entry stubUserPtPhys stubPde : Nat) : Attempt Vmm Unit :=
  let entryPde := pdeIndex entry
  let entryPte := pteIndex entry
  if entry < kernelVirtualBase then pure ()
  else do
    let pte ← loadEntry (recursivePt entryPde) entryPte
    if pte.present = false then refuse
    else do
      let userPtPhys ← entryTable pd entryPde stubUserPtPhys stubPde
      openWindow kprocessPtTmpVaddr userPtPhys
      grantUser (pageOf kprocessPtTmpVaddr) entryPte

/-- The first half of the body of the loop of `map_user_stack`: a table for a slot. -/
def ensureStackTable (pd pde : Nat) : Attempt Vmm Unit := do
  let e ← loadEntry pd pde
  if e.present = false then do
    let ptPhys ← takePages 1
    openWindow kprocessPtTmpVaddr ptPhys
    write fun s => s.memsetPage (pageOf kprocessPtTmpVaddr)
    grantEntry pd pde ptPhys
  else pure ()

/-- The second half: the entry of a page. -/
def fillStackEntry (pd pde pte phys : Nat) : Attempt Vmm Unit := do
  let e ← loadEntry pd pde
  openWindow kprocessPtTmpVaddr (e.frame * kpmmPageSize)
  let entry ← loadEntry (pageOf kprocessPtTmpVaddr) pte
  if entry.present then refuse
  else grantEntry (pageOf kprocessPtTmpVaddr) pte phys

/-- The loop of `map_user_stack`, from page `i` on for `left` pages. -/
def mapStackPages (pd stackPhys : Nat) : Nat → Nat → Attempt Vmm Unit
  | _, 0 => pure ()
  | i, left + 1 => do
      let vaddr := kprocessUserStackBottom + i * kpmmPageSize
      ensureStackTable pd (pdeIndex vaddr)
      fillStackEntry pd (pdeIndex vaddr) (pteIndex vaddr) (u32 (stackPhys + i * kpmmPageSize))
      mapStackPages pd stackPhys (i + 1) left

/-- `map_user_stack`. -/
def mapUserStack (pd : Nat) : Attempt Vmm Nat := do
  let stackPhys ← takePages kprocessUserStackPageCount
  mapStackPages pd stackPhys 0 kprocessUserStackPageCount
  return stackPhys

/-- `setup_initial_stack`. -/
def setupInitialStack (stackPhys entry : Nat) (process : UserProcess) :
    Attempt Vmm UserProcess := do
  let lastPagePhys := u32 (stackPhys + (kprocessUserStackPageCount - 1) * kpmmPageSize)
  openWindow kprocessStackTmpVaddr lastPagePhys
  storeEntry (pageOf kprocessStackTmpVaddr) 1023 (PageEntry.ofWord entry)
  storeEntry (pageOf kprocessStackTmpVaddr) 1022 (PageEntry.ofWord 0)
  return { process with esp := kprocessUserStackTop - 8 }

/-- `finalize_process_context`. -/
def finalizeProcessContext (process : UserProcess) (pdPhys : Nat) : UserProcess :=
  { process with
    pageDirectory := pdPhys
    pageDirectoryPhys := pdPhys
    cs := kgdtUserCode
    ds := kgdtUserData
    es := kgdtUserData
    fs := kgdtUserData
    gs := kgdtUserData
    esp := kprocessUserStackTop - 8 }

/-- `kprocess_create_user`, on a process that is there: the process as it is on success. -/
def kprocessCreateUser (img : KernelImage) (process : UserProcess) (entry : Nat) :
    Attempt Vmm UserProcess :=
  if entry = 0 then refuse
  else do
    let newPd := pageOf kprocessPdTmpVaddr
    let pdPhys ← allocPageDirectory
    cloneKernelHighHalf newPd recursivePd pdPhys
    let (stubUserPtPhys, stubPde) ← mapStubUserPage img newPd
    mapEntryIfKernel newPd img.syscall stubUserPtPhys stubPde
    mapEntryIfKernel newPd entry stubUserPtPhys stubPde
    let stackPhys ← mapUserStack newPd
    let process ← setupInitialStack stackPhys entry process
    return finalizeProcessContext process pdPhys

end DelOs
