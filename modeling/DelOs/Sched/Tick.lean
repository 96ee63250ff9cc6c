import DelOs.Sched.Context

/-!
# The tick of the scheduler

`kscheduler_tick` saves the interrupted context of the current task, picks the next one and leaves
through `kcontext_switch_from_isr`.

* `Kernel` — the scheduler and the processor state that a tick touches.
* `saveContext`, `kschedulerTick` — the code.
* `interruptedFrame` — what the interrupted task has to find again.
* `saveContext_field`, `saveContext_outside` — **the tick saves the frame**, in the record of the
  current task alone.
* `kschedulerTick_esp0` — where a tick leaves the stack for entries from ring 3.
-/

namespace DelOs

open ByteMem Ia32

/-! ## The code -/

/-- `KGDT_CODE_SELECTOR`, `KGDT_USER_DATA_SELECTOR` -/
def kgdtCodeSelector : Nat := 0x08
def kgdtUserDataSelector : Nat := 0x23

/-- Where `_page_directory_phys` is in a `process_t`. -/
def processPageDirectoryPhysOff : Nat := 180

/-- The scheduler, and what of the processor its ticks change: the registers, the page directory
and `gdt_tss._esp0`. -/
structure Kernel where
  sched : Sched
  cpu : Cpu
  cr3 : Nat
  esp0 : Nat

/-- `kscheduler_tick` up to its pick: `_ctx` of the task gets the frame and, in place of its
`_esp`, the interrupted stack pointer. -/
def saveContext (m : Mem) (task regs : Nat) : Mem :=
  let m := copy m task regs sizeofIsrRegisters
  if isrField m regs .cs % 4 = 3 then
    let m := write32 m (task + IsrField.esp.off) (read32 m (regs + 68))
    let m := write32 m (task + IsrField.ds.off) kgdtUserDataSelector
    let m := write32 m (task + IsrField.es.off) kgdtUserDataSelector
    let m := write32 m (task + IsrField.fs.off) kgdtUserDataSelector
    write32 m (task + IsrField.gs.off) kgdtUserDataSelector
  else write32 m (task + IsrField.esp.off) ((regs + sizeofIsrRegisters) % 2 ^ 32)

namespace Kernel

/-- `kmmu_load_cr3` and `kgdt_set_kernel_stack` for a task whose process has a page directory. -/
def enterProcess (stackEnd : Nat) (k : Kernel) (task : Nat) : Kernel :=
  let process := read32 k.sched.mem (task + taskProcessOff)
  let directory := read32 k.sched.mem (process + processPageDirectoryPhysOff)
  if process ≠ 0 ∧ directory ≠ 0 then { k with cr3 := directory, esp0 := stackEnd } else k

/-- Leave through `kcontext_switch_from_isr(&task->_ctx)`.  The handler runs with the code segment
of the interrupt gate. -/
def switchTo (k : Kernel) (task : Nat) : Kernel :=
  let t := switchContext (k.cpu.setSeg .cs kgdtCodeSelector) k.sched.mem task
  { k with sched := { k.sched with mem := t.mem }, cpu := t.cpu }

/-- `kscheduler_tick`.  The result is `false` when it returns `KO_FALSE`, and `true` when it leaves
through the switch; `stackEnd` is the address `__kernel_stack_end`. -/
def kschedulerTick (stackEnd fuel : Nat) (k : Kernel) (regs : Nat) : Option (Bool × Kernel) :=
  if regs = 0 ∨ k.sched.ktaskCurrent = 0 then some (false, k)
  else
    let saved := { k.sched with mem := saveContext k.sched.mem k.sched.ktaskCurrent regs }
    (saved.kschedulerPickNext fuel).map fun next =>
      if next = 0 then (false, { k with sched := saved })
      else
        let k := { k with sched := { saved with ktaskCurrent := next } }
        (true, (k.enterProcess stackEnd next).switchTo next)

end Kernel

/-! ## Saving the context -/

/-- What the interrupted task has to find again: the words of its frame, with the stack pointer
that the interrupt found, which is above the frame in ring 0 and in word 17 of it in ring 3. -/
def interruptedFrame (m : Mem) (regs : Nat) (f : IsrField) : Nat :=
  if f = .esp then
    if isrField m regs .cs % 4 = 3 then read32 m (regs + 68) else regs + sizeofIsrRegisters
  else isrField m regs f

theorem IsrField.off_apart (f g : IsrField) (h : f ≠ g) :
    f.off + 4 ≤ g.off ∨ g.off + 4 ≤ f.off := by
  cases f <;> cases g <;> first | exact absurd rfl h | decide

/-- Storing a field. -/
theorem isrField_write32 {m : Mem} {task v : Nat} {f g : IsrField} (hv : v < 2 ^ 32) :
    isrField (write32 m (task + g.off) v) task f = if f = g then v else isrField m task f := by
  by_cases hfg : f = g
  · subst hfg
    rw [if_pos rfl]
    exact read32_write32_same m hv
  · have := f.off_apart g hfg
    rw [if_neg hfg]
    exact read32_write32_of_disjoint m (by omega)

/-- Storing a field changes nothing outside the context. -/
theorem write32_field_outside {m : Mem} {task v x : Nat} (g : IsrField)
    (hx : x < task ∨ task + sizeofIsrRegisters ≤ x) : write32 m (task + g.off) v x = m x := by
  have := g.off_le
  exact write32_of_outside m (by omega)

section Save

variable {m : Mem} {task regs : Nat}

/-- The frame, with the word above it, does not overlap the task. -/
def FrameApart (task regs : Nat) : Prop := regs + 72 ≤ task ∨ task + sizeofTask ≤ regs

theorem saveContext_outside (h : FrameApart task regs) {x : Nat}
    (hx : x < task ∨ task + sizeofIsrRegisters ≤ x) : saveContext m task regs x = m x := by
  have hcopy : copy m task regs sizeofIsrRegisters x = m x := by
    apply copy_of_outside m _ hx
    simp only [FrameApart, sizeofTask, sizeofIsrRegisters] at h ⊢
    omega
  rw [saveContext]
  split_ifs
  · simp only [write32_field_outside _ hx, hcopy]
  · rw [write32_field_outside _ hx, hcopy]

/-- **The tick saves the frame**, up to the data segments. -/
theorem saveContext_field (h : FrameApart task regs) (hregs : regs + 72 ≤ 2 ^ 32) {f : IsrField}
    (hf : f ∉ [IsrField.gs, .fs, .es, .ds]) :
    isrField (saveContext m task regs) task f = interruptedFrame m regs f := by
  have happ : task + sizeofIsrRegisters ≤ regs ∨ regs + sizeofIsrRegisters ≤ task := by
    simp only [FrameApart, sizeofTask, sizeofIsrRegisters] at h ⊢
    omega
  have hcopied : ∀ g, isrField (copy m task regs sizeofIsrRegisters) task g = isrField m regs g :=
    fun g => read32_copy m happ g.off_le
  -- the copy leaves the frame and the word above it alone
  have hframe : ∀ i, i < 72 → copy m task regs sizeofIsrRegisters (regs + i) = m (regs + i) := by
    intro i hi
    apply copy_of_outside m happ
    simp only [FrameApart, sizeofTask, sizeofIsrRegisters] at h ⊢
    omega
  have hword : ∀ i, i + 4 ≤ 72 →
      read32 (copy m task regs sizeofIsrRegisters) (regs + i) = read32 m (regs + i) := by
    intro i hi
    apply read32_congr
    intro x hx hx'
    obtain ⟨j, rfl⟩ := Nat.exists_eq_add_of_le hx
    rw [Nat.add_assoc]
    exact hframe _ (by omega)
  have hcs : isrField (copy m task regs sizeofIsrRegisters) regs .cs = isrField m regs .cs :=
    hword _ (by decide)
  simp only [List.mem_cons, List.not_mem_nil, or_false, not_or] at hf
  obtain ⟨hgs, hfs, hes, hds⟩ := hf
  have hesp := hword 68 (by decide)
  have hsel : kgdtUserDataSelector < 2 ^ 32 := by decide
  have hmod : (regs + sizeofIsrRegisters) % 2 ^ 32 = regs + sizeofIsrRegisters := by
    simp only [sizeofIsrRegisters]
    omega
  simp only [saveContext, hcs, interruptedFrame]
  by_cases hring : isrField m regs .cs % 4 = 3
  · rw [if_pos hring, if_pos hring]
    rw [isrField_write32 hsel, if_neg hgs, isrField_write32 hsel, if_neg hfs,
      isrField_write32 hsel, if_neg hes, isrField_write32 hsel, if_neg hds,
      isrField_write32 (read32_lt _ _), hesp, hcopied]
  · rw [if_neg hring, if_neg hring, isrField_write32 (Nat.mod_lt _ (by decide)), hmod, hcopied]

end Save

/-! ## The stack for entries from ring 3 -/

/-- A tick leaves `_esp0` as it is, or at `__kernel_stack_end`. -/
theorem kschedulerTick_esp0 {stackEnd fuel regs : Nat} {k k' : Kernel} {left : Bool}
    (h : k.kschedulerTick stackEnd fuel regs = some (left, k')) :
    k'.esp0 = k.esp0 ∨ k'.esp0 = stackEnd := by
  rw [Kernel.kschedulerTick] at h
  split_ifs at h with hnone
  · obtain ⟨-, rfl⟩ := Prod.mk.inj (Option.some.inj h)
    exact Or.inl rfl
  · obtain ⟨next, -, hnext⟩ := Option.map_eq_some_iff.1 h
    by_cases hnull : next = 0
    · rw [if_pos hnull] at hnext
      obtain ⟨-, rfl⟩ := Prod.mk.inj hnext
      exact Or.inl rfl
    · rw [if_neg hnull] at hnext
      obtain ⟨-, rfl⟩ := Prod.mk.inj hnext
      simp only [Kernel.switchTo, Kernel.enterProcess]
      split_ifs
      · exact Or.inr rfl
      · exact Or.inl rfl

end DelOs
