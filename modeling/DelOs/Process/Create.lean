import DelOs.Memory.LiveBlocks
import DelOs.Process.Confinement
import DelOs.Sched.Tick

/-!
# Creating a process

`kprocess_create` and `ktask_create`, over the heap, the page tables and the bitmap.

* `ktaskCreate`, `kprocessCreate` — the functions.
* `kprocessCreate_cases` — its four ways to return `NULL`.
* `CostsNothing` — what a refusal may change: nothing.
* `refused_process_costs_nothing_iff` — **a refusal costs nothing exactly if it comes before
  anything was taken.**
* `losesBlock_process`, `RefusedUser.losesBlock` — a process without a task is lost, and a task
  without a user space.
* `process_block_lost` — the block of a process that gets no task.
-/

namespace DelOs

open Attempt ByteMem FirstFit

/-! ## Records -/

/-- Where the fields of a `process_t` are, and its size. -/
def processPidOff : Nat := 0
def processPpidOff : Nat := 4
def processMainThreadOff : Nat := 8
def processStateOff : Nat := 12
def processPageDirectoryOff : Nat := 176
def sizeofProcess : Nat := 184

/-- Where the other fields of a `task_t` are. -/
def taskStackPtrOff : Nat := 68
def taskStackSizeOff : Nat := 72

/-- `KERNEL_PROCESS_STACK_SIZE`, `KGDT_DATA_SELECTOR`, `KPROCESS_ALIVE`. -/
def kernelProcessStackSize : Nat := 2048
def kgdtDataSelector : Nat := 0x10
def kprocessAlive : Nat := 0

namespace Heap

/-- `*(uint32_t *) addr`, which faults if no page is mapped there. -/
def loadWord (h : Heap KernelPages) (addr : Nat) : Option Nat :=
  (h.pages.vmm.walk (addr / kpmmPageSize)).map fun _ => read32 h.mem addr

/-- `*(uint32_t *) addr = value`. -/
def storeWord (h : Heap KernelPages) (addr value : Nat) : Option (Heap KernelPages) :=
  (h.pages.vmm.walk (addr / kpmmPageSize)).map fun _ => { h with mem := write32 h.mem addr value }

/-- Stores at offsets from a pointer, in this order. -/
def storeFields (h : Heap KernelPages) (ptr : Nat) : List (Nat × Nat) → Option (Heap KernelPages)
  | [] => some h
  | (off, value) :: fields => do
      let h ← h.storeWord (u32 (ptr + off)) value
      h.storeFields ptr fields

end Heap

/-! ## The functions -/

/-- `ktask_create` once it has a record.  The stack it allocates is not checked. -/
def fillTask (img : KernelImage) (h : Heap KernelPages) (task entry : Nat) :
    Option (Heap KernelPages) := do
  let h ← h.storeFields task [(taskStateOff, TaskState.idle.toNat)]
  let (stackPtr, h) ← h.kmalloc kernelProcessStackSize
  let h ← h.storeFields task [(taskStackPtrOff, stackPtr),
    (taskStackSizeOff, kernelProcessStackSize), (taskNextOff, 0)]
  let h := { h with mem := fill h.mem task 0 sizeofIsrRegisters }
  let h ← h.storeFields stackPtr [(kernelProcessStackSize - 4, entry),
    (kernelProcessStackSize - 8, 0)]
  h.storeFields task [
    (IsrField.eip.off, img.ktaskStubs),
    (IsrField.esp.off, u32 (stackPtr + (kernelProcessStackSize - 8))),
    (IsrField.cs.off, kgdtCodeSelector),
    (IsrField.eflags.off, 0x202),
    (IsrField.ds.off, kgdtDataSelector),
    (IsrField.es.off, kgdtDataSelector),
    (IsrField.fs.off, kgdtDataSelector),
    (IsrField.gs.off, kgdtDataSelector)]

/-- `ktask_create`. -/
def ktaskCreate (img : KernelImage) (h : Heap KernelPages) (entry : Nat) :
    Option (Nat × Heap KernelPages) :=
  if entry = 0 then some (0, h)
  else do
    let (task, h) ← h.kcalloc sizeofTask
    if task = 0 then return (0, h)
    let h ← fillTask img h task entry
    return (task, h)

/-- The heap with the page layers below it, `kprocess_pid_current` and `ktask_current`. -/
structure ProcessManager where
  heap : Heap KernelPages
  kprocessPidCurrent : Nat
  ktaskCurrent : Nat

/-- The fields that `kprocess_create_user` sets, as they are in memory. -/
def Heap.userProcess (h : Heap KernelPages) (process thread : Nat) : UserProcess where
  pageDirectory := read32 h.mem (process + processPageDirectoryOff)
  pageDirectoryPhys := read32 h.mem (process + processPageDirectoryPhysOff)
  esp := isrField h.mem thread .esp
  cs := isrField h.mem thread .cs
  ds := isrField h.mem thread .ds
  es := isrField h.mem thread .es
  fs := isrField h.mem thread .fs
  gs := isrField h.mem thread .gs

/-- `kprocess_create_user`, on a process in the heap: a refusal leaves its fields alone. -/
def Heap.kprocessCreateUser (img : KernelImage) (h : Heap KernelPages) (process entry : Nat) :
    Option (Bool × Heap KernelPages) := do
  let thread ← h.loadWord (process + processMainThreadOff)
  if thread = 0 then return (false, h)
  let (out, vmm) ← outcome (DelOs.kprocessCreateUser img (h.userProcess process thread) entry)
    h.pages.vmm
  let h := { h with pages := ⟨vmm⟩ }
  match out with
  | none => return (false, h)
  | some user =>
      let h ← h.storeFields thread [(IsrField.esp.off, user.esp), (IsrField.cs.off, user.cs),
        (IsrField.ds.off, user.ds), (IsrField.es.off, user.es), (IsrField.fs.off, user.fs),
        (IsrField.gs.off, user.gs)]
      let h ← h.storeFields process [(processPageDirectoryOff, user.pageDirectory),
        (processPageDirectoryPhysOff, user.pageDirectoryPhys)]
      return (true, h)

namespace ProcessManager

/-- The assignments of `kprocess_create` to a new process and its task, with the next pid. -/
def setFields (s : ProcessManager) (process task : Nat) : Option ProcessManager := do
  let heap ← s.heap.storeFields task [(taskProcessOff, process)]
  let heap ← heap.storeFields process [(processMainThreadOff, task),
    (processPidOff, s.kprocessPidCurrent)]
  let parent ← heap.loadWord (s.ktaskCurrent + taskProcessOff)
  let ppid ← heap.loadWord (parent + processPidOff)
  let heap ← heap.storeFields process [(processPpidOff, ppid), (processStateOff, kprocessAlive)]
  return { s with heap := heap, kprocessPidCurrent := u32 (s.kprocessPidCurrent + 1) }

/-- `kprocess_create`; `attach` is `kprocess_attach_std_streams`. -/
def kprocessCreate (img : KernelImage) (attach : Nat → ProcessManager → Option ProcessManager)
    (s : ProcessManager) (entry : Nat) : Option (Nat × ProcessManager) :=
  if entry = 0 then some (0, s)
  else do
    let (process, heap) ← s.heap.kcalloc sizeofProcess
    if process = 0 then return (0, { s with heap := heap })
    let (task, heap) ← ktaskCreate img heap entry
    if task = 0 then return (0, { s with heap := heap })
    let s ← setFields { s with heap := heap } process task
    let (created, heap) ← s.heap.kprocessCreateUser img process entry
    if created = false then return (0, { s with heap := (heap.kfree process).2 })
    let s ← attach process { s with heap := heap }
    return (process, s)

end ProcessManager

/-! ## The ways to refuse -/

section Refusals

variable {img : KernelImage} {attach : Nat → ProcessManager → Option ProcessManager}
variable {s s' : ProcessManager} {entry : Nat}

/-- What `ktask_create` does. -/
theorem ktaskCreate_cases {h h' : Heap KernelPages} {task : Nat} (hentry : entry ≠ 0)
    (hcall : ktaskCreate img h entry = some (task, h')) :
    (task = 0 ∧ h.kcalloc sizeofTask = some (0, h')) ∨
    (task ≠ 0 ∧ ∃ h₁, h.kcalloc sizeofTask = some (task, h₁) ∧
      fillTask img h₁ task entry = some h') := by
  rw [ktaskCreate, if_neg hentry] at hcall
  obtain ⟨⟨ptr, h₁⟩, hcalloc, hcall⟩ := Option.bind_eq_some_iff.1 hcall
  by_cases hptr : ptr = 0
  · subst hptr
    cases hcall
    exact Or.inl ⟨rfl, hcalloc⟩
  · dsimp only at hcall
    rw [if_neg hptr] at hcall
    obtain ⟨h₂, hfill, hcall⟩ := Option.bind_eq_some_iff.1 hcall
    cases hcall
    exact Or.inr ⟨hptr, h₁, hcalloc, hfill⟩

/-- A refused process, up to the point where it was refused: it has its block and its task, and the
next pid is gone. -/
structure RefusedUser (img : KernelImage) (s s' : ProcessManager) (entry : Nat) : Prop where
  steps : ∃ process task h₁ h₂ s₁ h₃, s.heap.kcalloc sizeofProcess = some (process, h₁) ∧
    process ≠ 0 ∧ ktaskCreate img h₁ entry = some (task, h₂) ∧ task ≠ 0 ∧
    ProcessManager.setFields { s with heap := h₂ } process task = some s₁ ∧
    s₁.heap.kprocessCreateUser img process entry = some (false, h₃) ∧
    s' = { s₁ with heap := (h₃.kfree process).2 }

/-- **The four ways in which `kprocess_create` returns `NULL`.** -/
theorem kprocessCreate_cases (hcall : s.kprocessCreate img attach entry = some (0, s')) :
    (entry = 0 ∧ s' = s) ∨
    (entry ≠ 0 ∧ ∃ h₁, s.heap.kcalloc sizeofProcess = some (0, h₁) ∧
      s' = { s with heap := h₁ }) ∨
    (entry ≠ 0 ∧ ∃ process h₁ h₂, s.heap.kcalloc sizeofProcess = some (process, h₁) ∧
      process ≠ 0 ∧ h₁.kcalloc sizeofTask = some (0, h₂) ∧ s' = { s with heap := h₂ }) ∨
    (entry ≠ 0 ∧ RefusedUser img s s' entry) := by
  unfold ProcessManager.kprocessCreate at hcall
  split_ifs at hcall with h0
  · cases hcall
    exact Or.inl ⟨h0, rfl⟩
  right
  obtain ⟨⟨process, h₁⟩, hprocess, hcall⟩ := Option.bind_eq_some_iff.1 hcall
  by_cases hnull : process = 0
  · subst hnull
    cases hcall
    exact Or.inl ⟨h0, h₁, hprocess, rfl⟩
  right
  dsimp only at hcall
  rw [if_neg hnull] at hcall
  obtain ⟨⟨task, h₂⟩, htask, hcall⟩ := Option.bind_eq_some_iff.1 hcall
  rcases ktaskCreate_cases h0 htask with ⟨rfl, hrefused⟩ | ⟨htask0, -⟩
  · cases hcall
    exact Or.inl ⟨h0, process, h₁, h₂, hprocess, hnull, hrefused, rfl⟩
  dsimp only at hcall
  rw [if_neg htask0] at hcall
  obtain ⟨s₁, hset, hcall⟩ := Option.bind_eq_some_iff.1 hcall
  obtain ⟨⟨created, h₃⟩, huser, hcall⟩ := Option.bind_eq_some_iff.1 hcall
  cases created with
  | false =>
    cases hcall
    exact Or.inr ⟨h0, process, task, h₁, h₂, s₁, h₃, hprocess, hnull, htask, htask0, hset, huser, rfl⟩
  | true =>
    obtain ⟨s₂, -, hcall⟩ := Option.bind_eq_some_iff.1 hcall
    cases hcall
    exact absurd rfl hnull

/-! ## Stores to records -/

/-- The words that `fields` puts at `ptr` lie in no header. -/
def ClearOfHeaders (bs : Blocks Unit) (ptr : Nat) (fields : List (Nat × Nat)) : Prop :=
  ∀ f ∈ fields, ∀ q c, get bs q = some c →
    u32 (ptr + f.1) + 4 ≤ payload bs q - 12 ∨ payload bs q ≤ u32 (ptr + f.1)

/-- Fields of a block. -/
theorem clearOfHeaders_block {h : Heap KernelPages} {bs : Blocks Unit} {p : Nat} {b : Block Unit}
    {fields : List (Nat × Nat)} (hr : Represents h bs) (hp : get bs p = some b)
    (hin : ∀ f ∈ fields, f.1 + 4 ≤ b.size) : ClearOfHeaders bs (payload bs p) fields := by
  intro f hf q c hq
  have hoff := hin f hf
  obtain ⟨-, hlow⟩ := hr.size_le hp
  rw [u32_eq (by omega)]
  have hfirst := payload_outside_header hq hp (x := payload bs p + f.1) (by omega) (by omega)
  have hlast := payload_outside_header hq hp (x := payload bs p + f.1 + 3) (by omega) (by omega)
  have hhead := (payload_bounds hq).1
  omega

/-- Fields of a null pointer. -/
theorem clearOfHeaders_null {bs : Blocks Unit} {fields : List (Nat × Nat)}
    (hin : ∀ f ∈ fields, f.1 + 4 ≤ kpmmPageSize) : ClearOfHeaders bs 0 fields := by
  intro f hf q c hq
  have hoff := hin f hf
  have hhead := (payload_bounds hq).1
  have hle : kpmmPageSize ≤ kernelHeapStart := by decide
  rw [Nat.zero_add, u32_eq (hoff.trans_lt' (by omega) |>.trans_le (by decide))]
  omega

/-- **Stores to fields leave the list of blocks alone.** -/
theorem Represents.storeFields {h h' : Heap KernelPages} {bs : Blocks Unit} {ptr : Nat}
    {fields : List (Nat × Nat)} (hr : Represents h bs) (hclear : ClearOfHeaders bs ptr fields)
    (hs : h.storeFields ptr fields = some h') : Represents h' bs := by
  induction fields generalizing h with
  | nil =>
    cases hs
    exact hr
  | cons f fields ih =>
    obtain ⟨h₁, hstore, hs⟩ := Option.bind_eq_some_iff.1 hs
    obtain ⟨frame, -, rfl⟩ := Option.map_eq_some_iff.1 hstore
    have hout : ∀ q c, get bs q = some c → ∀ x, payload bs q ≤ x + 12 → x < payload bs q →
        write32 h.mem (u32 (ptr + f.1)) f.2 x = h.mem x := by
      intro q c hq x h1 h2
      have hword := hclear f List.mem_cons_self q c hq
      exact write32_of_outside h.mem (by omega)
    have hr₁ : Represents { h with mem := write32 h.mem (u32 (ptr + f.1)) f.2 } bs :=
      ⟨hr.base, hr.limit, hr.brk, hr.brk_le, hr.headers.congr hout, hr.whole⟩
    exact ih hr₁ (fun g hg => hclear g (List.mem_cons_of_mem _ hg)) hs

/-- The rest of `ktask_create` keeps the blocks that are live. -/
theorem fillTask_kept {h h' : Heap KernelPages} {bs : Blocks Unit} {p : Nat} {b : Block Unit}
    (hr : Represents h bs) (hp : get bs p = some b) (hlive : b.free = false)
    (hroom : sizeofTask ≤ b.size) (hfill : fillTask img h (payload bs p) entry = some h') :
    ∃ bs', Represents h' bs' ∧ Kept bs bs' := by
  obtain ⟨h₁, hstate, hfill⟩ := Option.bind_eq_some_iff.1 hfill
  obtain ⟨⟨stackPtr, h₂⟩, hstack, hfill⟩ := Option.bind_eq_some_iff.1 hfill
  obtain ⟨h₃, hfields, hfill⟩ := Option.bind_eq_some_iff.1 hfill
  obtain ⟨h₄, hframe, hctx⟩ := Option.bind_eq_some_iff.1 hfill
  have hr₁ : Represents h₁ bs :=
    hr.storeFields (clearOfHeaders_block hr hp (by simp [taskStateOff, sizeofTask] at *; omega)) hstate
  obtain ⟨bs', hr₂, hkept, hptr⟩ := hr₁.kmalloc_kept (by decide) hstack
  obtain ⟨hp', hpay⟩ := hkept p b hp hlive
  rw [← hpay] at hfields hctx
  have hr₃ : Represents h₃ bs' := by
    refine hr₂.storeFields (clearOfHeaders_block hr₂ hp' ?_) hfields
    simp [taskStackPtrOff, taskStackSizeOff, taskNextOff, sizeofTask] at *
    omega
  have hr₃' : Represents { h₃ with mem := fill h₃.mem (payload bs' p) 0 sizeofIsrRegisters } bs' :=
    hr₃.fill hp' (by simp [sizeofIsrRegisters, sizeofTask] at *; omega) 0
  -- the frame goes to the stack, or to the first page if there is none
  have hclear : ClearOfHeaders bs' stackPtr
      [(kernelProcessStackSize - 4, entry), (kernelProcessStackSize - 8, 0)] := by
    rcases hptr with rfl | ⟨q, c, rfl, hq, hsize⟩
    · exact clearOfHeaders_null (by simp [kernelProcessStackSize, kpmmPageSize])
    · refine clearOfHeaders_block hr₂ hq ?_
      simp [kernelProcessStackSize] at *
      omega
  rw [hpay] at hr₃'
  have hr₄ : Represents h₄ bs' := hr₃'.storeFields hclear hframe
  refine ⟨bs', hr₄.storeFields (clearOfHeaders_block hr₄ hp' ?_) hctx, hkept⟩
  simp [IsrField.off, sizeofTask] at *
  omega

/-- The assignments of `kprocess_create` keep the list of blocks. -/
theorem setFields_represents {bs : Blocks Unit} {p q : Nat} {b c : Block Unit}
    (hr : Represents s.heap bs) (hp : get bs p = some b) (hproc : sizeofProcess ≤ b.size)
    (hq : get bs q = some c) (htask : sizeofTask ≤ c.size)
    (hset : s.setFields (payload bs p) (payload bs q) = some s') : Represents s'.heap bs := by
  obtain ⟨h₁, hback, hset⟩ := Option.bind_eq_some_iff.1 hset
  obtain ⟨h₂, hmain, hset⟩ := Option.bind_eq_some_iff.1 hset
  obtain ⟨parent, -, hset⟩ := Option.bind_eq_some_iff.1 hset
  obtain ⟨ppid, -, hset⟩ := Option.bind_eq_some_iff.1 hset
  obtain ⟨h₃, hlast, hset⟩ := Option.bind_eq_some_iff.1 hset
  cases hset
  have hr₁ : Represents h₁ bs := by
    refine hr.storeFields (clearOfHeaders_block hr hq ?_) hback
    simp [taskProcessOff, sizeofTask] at *
    omega
  have hr₂ : Represents h₂ bs := by
    refine hr₁.storeFields (clearOfHeaders_block hr₁ hp ?_) hmain
    simp [processMainThreadOff, processPidOff, sizeofProcess] at *
    omega
  refine hr₂.storeFields (clearOfHeaders_block hr₂ hp ?_) hlast
  simp [processPpidOff, processStateOff, sizeofProcess] at *
  omega

/-- A refused `kprocess_create_user` has changed the page layers at most. -/
theorem kprocessCreateUser_refused {h h' : Heap KernelPages} {process : Nat}
    (hcall : h.kprocessCreateUser img process entry = some (false, h')) :
    h' = { h with pages := h'.pages } := by
  obtain ⟨thread, -, hcall⟩ := Option.bind_eq_some_iff.1 hcall
  by_cases hthread : thread = 0
  · subst hthread
    cases hcall
    rfl
  · rw [if_neg hthread] at hcall
    obtain ⟨⟨out, vmm⟩, -, hcall⟩ := Option.bind_eq_some_iff.1 hcall
    cases out with
    | none =>
      cases hcall
      rfl
    | some user =>
      obtain ⟨h₁, -, hcall⟩ := Option.bind_eq_some_iff.1 hcall
      obtain ⟨h₂, -, hcall⟩ := Option.bind_eq_some_iff.1 hcall
      cases hcall

/-! ## What is lost -/

/-- A block that was not live is live, and the live ones are. -/
def LosesBlock (h h' : Heap KernelPages) : Prop :=
  (∀ block ∈ h.liveBlocks, block ∈ h'.liveBlocks) ∧
    ∃ ptr n, (ptr, n) ∈ h'.liveBlocks ∧ ∀ k, (ptr, k) ∉ h.liveBlocks

theorem NewBlock.losesBlock {h h' : Heap KernelPages} {bs bs' : Blocks Unit} {p size : Nat}
    {b : Block Unit} (hn : NewBlock bs bs' p size b) (hr : Represents h bs)
    (hr' : Represents h' bs') : LosesBlock h h' :=
  ⟨fun _ hblock => hn.kept.mem_liveBlocks hr hr' hblock, payload bs' p, b.size,
    hr'.mem_liveBlocks.2 ⟨p, b, hn.block, hn.live, rfl⟩, hn.not_mem_liveBlocks hr⟩

/-- Without a task, the block of the process is lost. -/
theorem losesBlock_process {bs : Blocks Unit} {process : Nat} {h₁ h₂ : Heap KernelPages}
    (hr : Represents s.heap bs) (hprocess : s.heap.kcalloc sizeofProcess = some (process, h₁))
    (hne : process ≠ 0) (htask : h₁.kcalloc sizeofTask = some (0, h₂)) :
    LosesBlock s.heap h₂ := by
  obtain ⟨bs₁, p, b, hr₁, -, hnew⟩ := hr.kcalloc_new (by decide) hprocess hne
  obtain ⟨-, hsame⟩ := hr₁.kcalloc_null (by decide) htask
  rw [hsame]
  exact hnew.losesBlock hr (hr₁.withPages _)

/-- **Without a user space, the task is lost**: of what was allocated only the process is freed. -/
theorem RefusedUser.losesBlock {bs : Blocks Unit} (hr : Represents s.heap bs)
    (hrefused : RefusedUser img s s' entry) (hentry : entry ≠ 0) :
    LosesBlock s.heap s'.heap := by
  obtain ⟨process, task, h₁, h₂, s₁, h₃, hprocess, hne, htask, htask0, hset, huser, rfl⟩ :=
    hrefused.steps
  obtain ⟨bs₁, p, b, hr₁, rfl, hnew⟩ := hr.kcalloc_new (by decide) hprocess hne
  obtain ⟨hnull, -⟩ | ⟨-, g, hcalloc, hfill⟩ := ktaskCreate_cases hentry htask
  · exact absurd hnull htask0
  obtain ⟨bs₂, q, c, hr₂, rfl, hnew₂⟩ := hr₁.kcalloc_new (by decide) hcalloc htask0
  obtain ⟨bs₃, hr₃, hkept₃⟩ := fillTask_kept hr₂ hnew₂.block hnew₂.live hnew₂.room hfill
  -- where the two records are in the end
  obtain ⟨hq₃, hpayq⟩ := hkept₃ q c hnew₂.block hnew₂.live
  obtain ⟨hp₂, hpayp₂⟩ := hnew₂.kept p b hnew.block hnew.live
  obtain ⟨hp₃, hpayp₃⟩ := hkept₃ p b hp₂ hnew.live
  rw [← hpayp₂, ← hpayp₃] at hset huser ⊢
  rw [← hpayq] at hset
  have hr₄ : Represents s₁.heap bs₃ := setFields_represents hr₃ hp₃ hnew.room hq₃ hnew₂.room hset
  have hr₅ : Represents h₃ bs₃ := by
    rw [kprocessCreateUser_refused huser]
    exact hr₄.withPages _
  obtain ⟨hr₆, -, -⟩ := hr₅.kfree hp₃
  -- freeing the process concerns neither the task nor the blocks from before
  have hkeep : ∀ r d, r ≠ p → get bs₃ r = some d → d.free = false →
      (payload bs₃ r, d.size) ∈ (h₃.kfree (payload bs₃ p)).2.liveBlocks := by
    intro r d hrp hd hlive
    refine hr₆.mem_liveBlocks.2 ⟨r, d, ?_, hlive, by rw [payload_kfreeBlocks]⟩
    rw [get_kfreeBlocks, if_neg hrp, hd]
  have hqp : q ≠ p := by
    rintro rfl
    exact hnew₂.fresh ⟨b, hnew.block, hnew.live⟩
  refine ⟨fun block hblock => ?_, payload bs₃ q, c.size, hkeep q c hqp hq₃ hnew₂.live, fun k => ?_⟩
  · obtain ⟨r, d, hd, hlive, rfl⟩ := hr.mem_liveBlocks.1 hblock
    have hrp : r ≠ p := by
      rintro rfl
      exact hnew.fresh ⟨d, hd, hlive⟩
    obtain ⟨hd', hpay⟩ := hnew.kept.trans (hnew₂.kept.trans hkept₃) r d hd hlive
    rw [← hpay]
    exact hkeep r d hrp hd' hlive
  · rw [hpayq]
    intro hmem
    exact hnew₂.not_mem_liveBlocks hr₁ k (hnew.kept.mem_liveBlocks hr hr₁ hmem)

/-- Without a user space, the pid is lost besides. -/
theorem RefusedUser.pid (hrefused : RefusedUser img s s' entry) :
    s'.kprocessPidCurrent = u32 (s.kprocessPidCurrent + 1) := by
  obtain ⟨process, task, h₁, h₂, s₁, h₃, -, -, -, -, hset, -, rfl⟩ := hrefused.steps
  obtain ⟨g₁, -, hset⟩ := Option.bind_eq_some_iff.1 hset
  obtain ⟨g₂, -, hset⟩ := Option.bind_eq_some_iff.1 hset
  obtain ⟨parent, -, hset⟩ := Option.bind_eq_some_iff.1 hset
  obtain ⟨ppid, -, hset⟩ := Option.bind_eq_some_iff.1 hset
  obtain ⟨g₃, -, hset⟩ := Option.bind_eq_some_iff.1 hset
  cases hset
  rfl

/-! ## The cost of a refusal -/

/-- A refused process costs nothing. -/
structure CostsNothing (s s' : ProcessManager) : Prop where
  blocks : ∀ block, block ∈ s'.heap.liveBlocks ↔ block ∈ s.heap.liveBlocks
  bitmap : s'.heap.pages.vmm.pmm.kpmmBitmap = s.heap.pages.vmm.pmm.kpmmBitmap
  counter : s'.heap.freePagesAmount = s.heap.freePagesAmount
  pid : s'.kprocessPidCurrent = s.kprocessPidCurrent

theorem LosesBlock.not_costsNothing (hl : LosesBlock s.heap s'.heap) : ¬CostsNothing s s' := by
  obtain ⟨-, ptr, n, hafter, hbefore⟩ := hl
  intro hcost
  exact hbefore n ((hcost.blocks _).1 hafter)

/-- A process whose block is refused at once leaves everything as it was. -/
theorem kprocessCreate_of_refusesAtOnce (hr : s.heap.RefusesAtOnce sizeofProcess) :
    s.kprocessCreate img attach entry = some (0, s) := by
  unfold ProcessManager.kprocessCreate
  split_ifs
  · rfl
  · rw [hr.kcalloc]
    rfl

/-- **A refused process costs nothing exactly if there was no entry, or if its block was refused at
once**: every later refusal loses pages, the block of the process, or its task. -/
theorem refused_process_costs_nothing_iff {bs : Blocks Unit} (hr : Represents s.heap bs)
    (hcall : s.kprocessCreate img attach entry = some (0, s')) :
    CostsNothing s s' ↔ entry = 0 ∨ s.heap.RefusesAtOnce sizeofProcess := by
  constructor
  · intro hcost
    rcases kprocessCreate_cases hcall with ⟨h0, -⟩ | ⟨-, h₁, hrefused, rfl⟩ |
        ⟨-, process, h₁, h₂, hprocess, hne, htask, rfl⟩ | ⟨h0, huser⟩
    · exact Or.inl h0
    · obtain ⟨hmalloc, -⟩ := hr.kcalloc_null (by decide) hrefused
      exact Or.inr (kmalloc_refused hr.brk_ne_zero (by decide) (by decide) hmalloc hcost.counter)
    · exact absurd hcost (losesBlock_process hr hprocess hne htask).not_costsNothing
    · exact absurd hcost (huser.losesBlock hr h0).not_costsNothing
  · rintro (rfl | hrefuses)
    · have hsame : some (0, s) = some (0, s') := hcall
      cases hsame
      exact ⟨fun _ => Iff.rfl, rfl, rfl, rfl⟩
    · rw [kprocessCreate_of_refusesAtOnce hrefuses] at hcall
      cases hcall
      exact ⟨fun _ => Iff.rfl, rfl, rfl, rfl⟩

end Refusals

/-! ## Two free pages -/

/-- A machine with two free pages, which `kmalloc_init` takes. -/
def tightMachine : Vmm := initDir (List.replicate 56 0xFF#8 ++ [0xFC#8]) 2

/-- The heap there, and the first process. -/
def tightManager (h : Heap KernelPages) : ProcessManager := ⟨h, 1, 0⟩

theorem kmallocInit_tightMachine :
    ∃ h bs, kmallocInit (fun _ => 0) (⟨tightMachine⟩ : KernelPages) = some h ∧
      Represents h (bs : Blocks Unit) ∧ h.freePagesAmount = 0 := by
  have hinit : (kmallocInit (fun _ => 0) (⟨tightMachine⟩ : KernelPages)).map
      Heap.freePagesAmount = some 0 := by
    decide +kernel
  obtain ⟨h, hh, hpages⟩ := Option.map_eq_some_iff.1 hinit
  obtain ⟨bs, hr, -⟩ := heapInv_kmallocInit hh
  exact ⟨h, bs, hh, hr, hpages⟩

/-- **The block of a process that gets no task**: the process takes the one free block, and there is
no page left for a task. -/
theorem process_block_lost : ∃ h bs s',
    kmallocInit (fun _ => 0) (⟨tightMachine⟩ : KernelPages) = some h ∧
    Represents h (bs : Blocks Unit) ∧
    (tightManager h).kprocessCreate bootImage (fun _ s => some s) 0xC0102010 = some (0, s') ∧
    ¬CostsNothing (tightManager h) s' := by
  obtain ⟨h, bs, hh, hr, -⟩ := kmallocInit_tightMachine
  have hrun : (kmallocInit (fun _ => 0) (⟨tightMachine⟩ : KernelPages)).bind (fun h =>
      ((tightManager h).kprocessCreate bootImage (fun _ s => some s) 0xC0102010).map fun r =>
        (r.1, h.liveBlocks, r.2.heap.liveBlocks)) = some (0, [], [(0xD000000C, 4084)]) := by
    decide +kernel
  rw [hh] at hrun
  obtain ⟨⟨process, s'⟩, hcall, hres⟩ := Option.map_eq_some_iff.1 hrun
  obtain ⟨rfl, hres⟩ := Prod.mk.inj hres
  obtain ⟨hbefore, hafter⟩ := Prod.mk.inj hres
  refine ⟨h, bs, s', hh, hr, hcall, fun hcost => ?_⟩
  have hmem := (hcost.blocks (0xD000000C, 4084)).1 (by rw [hafter]; exact List.mem_cons_self)
  have hnone : (0xD000000C, 4084) ∈ h.liveBlocks := hmem
  rw [hbefore] at hnone
  cases hnone

/-- Once the one block is in use, a process is refused for nothing. -/
theorem refused_process_tightMachine : ∃ s s',
    s.kprocessCreate bootImage (fun _ s => some s) 0xC0102010 = some (0, s') ∧
    CostsNothing s s' := by
  obtain ⟨h, bs, hh, hr, -⟩ := kmallocInit_tightMachine
  have hrun : (kmallocInit (fun _ => 0) (⟨tightMachine⟩ : KernelPages)).bind (fun h =>
      (h.kmalloc 100).map fun r => (r.2.fitFor sizeofProcess, r.2.freePagesAmount)) =
        some (some 0, 0) := by
    decide +kernel
  rw [hh] at hrun
  obtain ⟨⟨ptr, h₁⟩, hmalloc, hres⟩ := Option.map_eq_some_iff.1 hrun
  obtain ⟨hfit, hpages⟩ := Prod.mk.inj hres
  obtain ⟨bs₁, hr₁, -⟩ := hr.kmalloc_kept (by decide) hmalloc
  have hrefuses : h₁.RefusesAtOnce sizeofProcess := ⟨hfit, Or.inr hpages⟩
  have hcall : (tightManager h₁).kprocessCreate bootImage (fun _ s => some s) 0xC0102010 =
      some (0, tightManager h₁) := kprocessCreate_of_refusesAtOnce hrefuses
  exact ⟨_, _, hcall, (refused_process_costs_nothing_iff hr₁ hcall).2 (Or.inr hrefuses)⟩

end DelOs
