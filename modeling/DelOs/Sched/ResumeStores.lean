import DelOs.Process.User
import DelOs.Sched.Preemption

/-!
# Where resuming a task writes

`kcontext_switch_from_isr` runs in ring 0 and builds the frame of `iret` on the stack of the task
that it resumes, wherever that stack pointer goes.

* `switchStores`, `tickStores`, `lastStores` — the words stored by the switch, by a tick and by the
  last tick of a run.
* `StoredBelow` — every byte of these words lies below a limit.
* `stores_kcontextSwitchFromIsr` — the five words below a user stack pointer.
* `RoomBelowKernel` — a stack pointer with room for them below `KERNEL_VIRTUAL_BASE`.
* `resume_stores_below_iff` — **in every run, resuming a task that was interrupted in ring 3 writes
  only below `KERNEL_VIRTUAL_BASE` exactly if its stack pointer has that room**.
* `resume_stores_in_kernel` — a stack pointer of the kernel half.
-/

namespace DelOs

open ByteMem Ia32 Ring Transition

/-! ## The stores of a switch -/

/-- The words stored by `kcontext_switch_from_isr(&task->_ctx)` before its `iret`. -/
def Kernel.switchStores (k : Kernel) (task : Nat) : List Nat :=
  let cpu := (k.cpu.setSeg .cs kgdtCodeSelector).setReg .esi task
  stores 0 kcontextSwitchFromIsr ⟨cpu, k.sched.mem⟩

/-- The words stored by the switch with which the tick on this interrupt leaves. -/
def tickStores (stackEnd fuel : Nat) (k : Kernel) (e : Interrupt) : List Nat :=
  if e.regs = 0 ∨ k.sched.ktaskCurrent = 0 then []
  else
    let saved := k.saving e k.sched.ktaskCurrent
    match saved.sched.kschedulerPickNext fuel with
    | none => []
    | some next =>
        if next = 0 then []
        else ((k.saving e next).enterProcess stackEnd next).switchStores next

/-- The words stored by the last switch of a run of ticks. -/
def lastStores (stackEnd fuel : Nat) (k : Kernel) (e : Interrupt) : List Interrupt → List Nat
  | [] => tickStores stackEnd fuel k e
  | e' :: es =>
      match tickStep stackEnd fuel k e with
      | none => []
      | some q => lastStores stackEnd fuel q e' es

/-- Every byte of the stored words lies below `limit`. -/
def StoredBelow (limit : Nat) (words : List Nat) : Prop :=
  ∀ a ∈ words, ∀ i < 4, (a + i) % 2 ^ 32 < limit

instance (limit : Nat) (words : List Nat) : Decidable (StoredBelow limit words) :=
  inferInstanceAs (Decidable (∀ a ∈ words, ∀ i < 4, (a + i) % 2 ^ 32 < limit))

/-- The stack pointer has room for five words below it, all of them below
`KERNEL_VIRTUAL_BASE`. -/
def RoomBelowKernel (esp : Nat) : Prop := 20 ≤ esp ∧ esp ≤ kernelVirtualBase

instance (esp : Nat) : Decidable (RoomBelowKernel esp) := inferInstanceAs (Decidable (_ ∧ _))

/-! ## What the routine stores -/

section Routine

variable {s : State} {p : Nat}

/-- The address of the `n`-th word below a stack pointer. -/
def wordBelow (p n : Nat) : Nat := (p + (2 ^ 32 - 4 * n)) % 2 ^ 32

theorem wordBelow_zero (hp : p < 2 ^ 32) : wordBelow p 0 = p := by
  unfold wordBelow
  omega

theorem wordBelow_succ {n : Nat} (hn : n < 5) (hesp : s.cpu.gpr .esp = wordBelow p n) :
    (s.cpu.gpr .esp + (2 ^ 32 - 4)) % 2 ^ 32 = wordBelow p (n + 1) := by
  rw [hesp, wordBelow, wordBelow]
  omega

theorem push_esp {n v : Nat} (hn : n < 5) (hesp : s.cpu.gpr .esp = wordBelow p n) :
    (s.push v).cpu.gpr .esp = wordBelow p (n + 1) := by
  rw [State.push, Cpu.gpr_setReg_same, wordBelow_succ hn hesp]

/-- The pushes of the frame, when `n` words are on the stack already. -/
theorem stores_pushIretFrame {n : Nat} (hn : n + 3 ≤ 5) (hesp : s.cpu.gpr .esp = wordBelow p n) :
    stores 0 (pushIretFrame ++ restoreRegisters) s =
      [wordBelow p (n + 1), wordBelow p (n + 2), wordBelow p (n + 3)] := by
  have hesp₁ : (step s (.pushMem .esi 64)).cpu.gpr .esp = wordBelow p (n + 1) :=
    push_esp (by omega) hesp
  have hesp₂ : (step (step s (.pushMem .esi 64)) (.pushMem .esi 60)).cpu.gpr .esp =
      wordBelow p (n + 2) := push_esp (by omega) hesp₁
  rw [stores_append (by simp [pushIretFrame]), show stores 0 restoreRegisters _ = [] from rfl,
    List.append_nil]
  show [_, _, _] = _
  rw [wordBelow_succ (by omega) hesp, wordBelow_succ (by omega) hesp₁,
    wordBelow_succ (by omega) hesp₂]

theorem stores_pushUserStack (hesp : s.cpu.gpr .esp = wordBelow p 0) :
    stores 0 (pushUserStack ++ (pushIretFrame ++ restoreRegisters)) s =
      [wordBelow p 1, wordBelow p 2, wordBelow p 3, wordBelow p 4, wordBelow p 5] := by
  have hesp₁ : (step s (.pushImm 0x23)).cpu.gpr .esp = wordBelow p 1 := push_esp (by decide) hesp
  have hesp₂ : (exec 0 pushUserStack s).cpu.gpr .esp = wordBelow p 2 :=
    push_esp (by decide) hesp₁
  rw [stores_append (by simp [pushUserStack]), stores_pushIretFrame (by decide) hesp₂]
  show [_, _] ++ _ = _
  rw [wordBelow_succ (by decide) hesp, wordBelow_succ (by decide) hesp₁]
  rfl

/-- **The routine stores three words below the stack pointer of a context of ring 0, and five
below that of any other.** -/
theorem stores_kcontextSwitchFromIsr {cpu : Cpu} {m : Mem} {ctx : Nat}
    (hctx : ctx + sizeofIsrRegisters ≤ 2 ^ 32) :
    stores 0 kcontextSwitchFromIsr ⟨cpu.setReg .esi ctx, m⟩ =
      if isrField m ctx .cs % 4 = 0 then
        [wordBelow (isrField m ctx .esp) 1, wordBelow (isrField m ctx .esp) 2,
          wordBelow (isrField m ctx .esp) 3]
      else
        [wordBelow (isrField m ctx .esp) 1, wordBelow (isrField m ctx .esp) 2,
          wordBelow (isrField m ctx .esp) 3, wordBelow (isrField m ctx .esp) 4,
          wordBelow (isrField m ctx .esp) 5] := by
  have hjump := switchStack_spec (s := ⟨cpu.setReg .esi ctx, m⟩) hctx (Cpu.gpr_setReg_same ..)
  have hesp := hjump.esp.trans (wordBelow_zero (isrField_lt m ctx .esp)).symm
  have hnone : ∀ t, stores 0 switchStack t = [] := fun t => rfl
  have hnone' : ∀ t, stores 0 loadSegments t = [] := fun t => rfl
  rw [kcontextSwitchFromIsr, stores_append (by simp [loadSegments]),
    stores_append (by simp [switchStack]), stores_jz, hnone, hnone', List.nil_append,
    List.nil_append, hjump.zf, stores_pushIretFrame (by decide) hesp, stores_pushUserStack hesp]
  by_cases hcs : isrField m ctx .cs % 4 = 0
  · rw [if_pos hcs, if_pos (by simpa using hcs)]
  · rw [if_neg hcs, if_neg (by simpa using hcs)]

/-- Five words below a stack pointer lie below the kernel exactly if there is room for them. -/
theorem storedBelow_iff (hp : p < 2 ^ 32) :
    StoredBelow kernelVirtualBase [wordBelow p 1, wordBelow p 2, wordBelow p 3, wordBelow p 4,
      wordBelow p 5] ↔ RoomBelowKernel p := by
  simp only [StoredBelow, RoomBelowKernel, kernelVirtualBase, List.forall_mem_cons, wordBelow]
  constructor
  · rintro ⟨h1, -, -, -, h5, -⟩
    have hfirst := h1 3 (by decide)
    have hlast := h5 0 (by decide)
    omega
  · rintro ⟨hlow, hhigh⟩
    refine ⟨?_, ?_, ?_, ?_, ?_, by simp⟩ <;> intro i hi <;> omega

/-- Resuming a context of ring 3 writes below the kernel exactly if its stack pointer has room
there. -/
theorem switchStores_below_iff {k : Kernel} {task : Nat}
    (htask : task + sizeofIsrRegisters ≤ 2 ^ 32) (hcs : isrField k.sched.mem task .cs % 4 = 3) :
    StoredBelow kernelVirtualBase (k.switchStores task) ↔
      RoomBelowKernel (isrField k.sched.mem task .esp) := by
  rw [Kernel.switchStores, stores_kcontextSwitchFromIsr htask, if_neg (by omega)]
  exact storedBelow_iff (isrField_lt _ _ _)

end Routine

/-! ## Runs -/

/-- The interrupts of a run in which every task of ring 3 has room below its stack pointer. -/
def UserTick (tasks : List Nat) (k : Kernel) (e : Interrupt) : Prop :=
  Interrupted tasks k e ∧ (isrField e.mem e.regs .cs % 4 = 3 →
    RoomBelowKernel (interruptedFrame e.mem e.regs .esp))

section Runs

variable {stackEnd fuel c : Nat} {tasks : List Nat} {k k' : Kernel} {e : Interrupt}

/-- With the task records in the kernel half the frame of `iret` stays away from them. -/
theorem UserTick.stackRoom (hkernel : ∀ t ∈ tasks, kernelVirtualBase ≤ t)
    (h : UserTick tasks k e) : StackRoom tasks e := by
  intro t ht
  have hlow := hkernel t ht
  rcases h.1.ring with hring | hring
  · -- an interrupted stack pointer of ring 0 is right above the frame
    have happ := h.1.apart t ht
    rw [interruptedFrame, if_pos rfl, if_neg (by omega)]
    simp only [FrameApart, StackClear, sizeofTask, sizeofIsrRegisters] at *
    omega
  · obtain ⟨hroom, hbelow⟩ := h.2 hring
    exact ⟨hroom, Or.inl (hbelow.trans hlow)⟩

theorem UserTick.tickOk (hkernel : ∀ t ∈ tasks, kernelVirtualBase ≤ t)
    (h : UserTick tasks k e) : TickOk tasks k e := ⟨h.1, h.stackRoom hkernel⟩

/-- The stack pointers of the other tasks leave room for the frame of `iret`. -/
def OthersClear (tasks : List Nat) (c : Nat) (m : Mem) : Prop :=
  ∀ t ∈ tasks, t ≠ c → ∀ u ∈ tasks, StackClear (isrField m t .esp) u sizeofTask

/-- A tick that goes on with another task than `c` leaves the contexts alone but for the one that
it saves, whatever the stack pointer of `c`. -/
theorem tick_others (hobj : Objects tasks) (hfuel : tasks.length ≤ fuel)
    (hcur : k.sched.ktaskCurrent ∈ tasks) (hclear : OthersClear tasks c k.sched.mem)
    (hint : Interrupted tasks k e) (hroom : k.sched.ktaskCurrent ≠ c → StackRoom tasks e)
    (h : tickStep stackEnd fuel k e = some k') (haway : k'.sched.ktaskCurrent ≠ c) :
    k'.sched.ktaskCurrent ∈ tasks ∧ OthersClear tasks c k'.sched.mem ∧
      (∀ t ∈ tasks, t ≠ k.sched.ktaskCurrent → ∀ f,
        isrField k'.sched.mem t f = isrField k.sched.mem t f) ∧
      ∀ f ∉ [IsrField.gs, .fs, .es, .ds],
        isrField k'.sched.mem k.sched.ktaskCurrent f = interruptedFrame e.mem e.regs f := by
  obtain ⟨next, hnext, hk⟩ := tickStep_next hobj hfuel hcur hint h
  have hcurrent : k'.sched.ktaskCurrent = next := by
    rw [hk]
    simp [Kernel.switchTo, Kernel.saving]
  have hclear' : OthersClear tasks c (k.saving e next).sched.mem := by
    intro t ht hne u hu
    by_cases htcur : t = k.sched.ktaskCurrent
    · rw [htcur, saving_current hcur hint (by decide)]
      exact hroom (htcur ▸ hne) u hu
    · rw [saving_other hobj hcur hint ht htcur]
      exact hclear t ht hne u hu
  obtain ⟨-, hsame⟩ := switchTo_spec (k := (k.saving e next).enterProcess stackEnd next) hobj
    hnext (by simpa using hclear' next hnext (hcurrent ▸ haway))
  rw [← hk, Kernel.enterProcess_sched] at hsame
  refine ⟨hcurrent ▸ hnext, ?_, ?_, ?_⟩
  · intro t ht hne u hu
    rw [hsame t ht]
    exact hclear' t ht hne u hu
  · intro t ht hne f
    rw [hsame t ht, saving_other hobj hcur hint ht hne]
  · intro f hf
    rw [hsame _ hcur, saving_current hcur hint hf]

/-- The stores of a tick are those of the switch to the task that it goes on with. -/
theorem tickStores_eq (hobj : Objects tasks) (hfuel : tasks.length ≤ fuel)
    (hcur : k.sched.ktaskCurrent ∈ tasks) (hint : Interrupted tasks k e)
    (h : tickStep stackEnd fuel k e = some k') :
    k'.sched.ktaskCurrent ∈ tasks ∧ tickStores stackEnd fuel k e =
      ((k.saving e k'.sched.ktaskCurrent).enterProcess stackEnd k'.sched.ktaskCurrent).switchStores
        k'.sched.ktaskCurrent := by
  have hne : k.sched.ktaskCurrent ≠ 0 := hobj.ne_null _ hcur
  obtain ⟨next, hnext, hpick, hk⟩ := tickStep_pick hobj hfuel hcur hint h
  have hcurrent : k'.sched.ktaskCurrent = next := by
    rw [hk]
    simp [Kernel.switchTo, Kernel.saving]
  have hnull : next ≠ 0 := hobj.ne_null _ hnext
  refine ⟨hcurrent ▸ hnext, ?_⟩
  simp only [tickStores, hint.regs_ne, hne, or_self, if_false, hpick, if_neg hnull, hcurrent]

/-- While other tasks run, the saved context of `c` stays, whatever its stack pointer; then the
tick that goes on with `c` stores below the kernel exactly if that stack pointer has room there. -/
theorem lastStores_below_iff (hobj : Objects tasks)
    (hkernel : ∀ t ∈ tasks, kernelVirtualBase ≤ t) (hfuel : tasks.length ≤ fuel) (hc : c ∈ tasks)
    {es : List Interrupt} (hcur : k.sched.ktaskCurrent ∈ tasks)
    (hne : k.sched.ktaskCurrent ≠ c) (hclear : OthersClear tasks c k.sched.mem)
    (hcs : isrField k.sched.mem c .cs % 4 = 3)
    (hadm : Admissible (tickStep stackEnd fuel) (UserTick tasks) k (e :: es))
    (haway : Admissible (tickStep stackEnd fuel) (fun r _ => r.sched.ktaskCurrent ≠ c) k (e :: es))
    (hrun : run (tickStep stackEnd fuel) k (e :: es) = some k')
    (hback : k'.sched.ktaskCurrent = c) :
    StoredBelow kernelVirtualBase (lastStores stackEnd fuel k e es) ↔
      RoomBelowKernel (isrField k.sched.mem c .esp) := by
  have htask : c + sizeofIsrRegisters ≤ 2 ^ 32 := by
    have := hobj.in_memory c hc
    simp only [sizeofTask, sizeofIsrRegisters] at this ⊢
    omega
  induction es generalizing k e with
  | nil =>
    obtain ⟨q, hq, hrest⟩ := run_cons_some.1 hrun
    obtain rfl : q = k' := by simpa using hrest
    have hint := hadm.1.1
    have hkept : ∀ f, isrField (k.saving e c).sched.mem c f = isrField k.sched.mem c f :=
      saving_other hobj hcur hint hc (Ne.symm hne)
    obtain ⟨-, hstores⟩ := tickStores_eq hobj hfuel hcur hint hq
    rw [lastStores, hstores, hback, switchStores_below_iff htask, Kernel.enterProcess_sched, hkept]
    rw [Kernel.enterProcess_sched, hkept]
    exact hcs
  | cons e' es ih =>
    obtain ⟨q, hq, hrest⟩ := run_cons_some.1 hrun
    obtain ⟨he, hadm'⟩ := hadm
    have hqaway : q.sched.ktaskCurrent ≠ c := (haway.2 q hq).1
    obtain ⟨hqcur, hqclear, hkept, -⟩ := tick_others hobj hfuel hcur hclear he.1
      (fun _ => he.stackRoom hkernel) hq hqaway
    have hfields := hkept c hc (Ne.symm hne)
    rw [lastStores, hq, ← hfields .esp]
    exact ih hqcur hqaway hqclear ((hfields .cs).symm ▸ hcs) (hadm' q hq) (haway.2 q hq) hrest

/-- **Resuming a task of ring 3 writes only below `KERNEL_VIRTUAL_BASE` exactly if the stack
pointer that it was interrupted with has room there.**  The run is any run of ticks in which the
other tasks of ring 3 have that room; the interrupt `e` comes from the current task in ring 3, with
any registers; the last tick is the first one that goes on with that task again. -/
theorem resume_stores_below_iff {k₀ q : Kernel} {pre es : List Interrupt} (hobj : Objects tasks)
    (hkernel : ∀ t ∈ tasks, kernelVirtualBase ≤ t) (hfuel : tasks.length ≤ fuel)
    (hstart : RunOk tasks k₀)
    (hadm₀ : Admissible (tickStep stackEnd fuel) (UserTick tasks) k₀ pre)
    (hrun₀ : run (tickStep stackEnd fuel) k₀ pre = some q) (hint : Interrupted tasks q e)
    (hring : isrField e.mem e.regs .cs % 4 = 3)
    (hlater : ∀ q', tickStep stackEnd fuel q e = some q' →
      Admissible (tickStep stackEnd fuel) (UserTick tasks) q' es ∧
      Admissible (tickStep stackEnd fuel)
        (fun r _ => r.sched.ktaskCurrent ≠ q.sched.ktaskCurrent) q' es)
    (hrun : run (tickStep stackEnd fuel) q (e :: es) = some k')
    (hback : k'.sched.ktaskCurrent = q.sched.ktaskCurrent) :
    StoredBelow kernelVirtualBase (lastStores stackEnd fuel q e es) ↔
      RoomBelowKernel (interruptedFrame e.mem e.regs .esp) := by
  have hq : RunOk tasks q := run_invariant
    (fun _ _ _ hk he h => runOk_step hobj hfuel hk (UserTick.tickOk hkernel he) h) hstart hadm₀
    hrun₀
  have hcur := hq.current
  have htask : q.sched.ktaskCurrent + sizeofIsrRegisters ≤ 2 ^ 32 := by
    have := hobj.in_memory _ hcur
    simp only [sizeofTask, sizeofIsrRegisters] at this ⊢
    omega
  have hcs : interruptedFrame e.mem e.regs .cs % 4 = 3 := by
    rw [interruptedFrame, if_neg (by decide)]
    exact hring
  obtain ⟨q', hq', hrest⟩ := run_cons_some.1 hrun
  cases es with
  | nil =>
    -- the tick goes on with the task that it has just saved
    obtain rfl : q' = k' := by simpa using hrest
    obtain ⟨-, hstores⟩ := tickStores_eq hobj hfuel hcur hint hq'
    rw [lastStores, hstores, hback, switchStores_below_iff htask, Kernel.enterProcess_sched,
      saving_current hcur hint (by decide)]
    rw [Kernel.enterProcess_sched, saving_current hcur hint (by decide)]
    exact hcs
  | cons e' es =>
    obtain ⟨hadm, haway⟩ := hlater q' hq'
    have hne := haway.1
    have hclear : OthersClear tasks q.sched.ktaskCurrent q.sched.mem :=
      fun t ht _ u hu => hq.clear t ht u hu
    obtain ⟨hqcur, hqclear, -, hsaved⟩ := tick_others hobj hfuel hcur hclear hint
      (fun h => absurd rfl h) hq' hne
    rw [lastStores, hq', ← hsaved .esp (by decide)]
    refine lastStores_below_iff hobj hkernel hfuel hcur hqcur hne hqclear ?_ hadm haway hrest hback
    rw [hsaved .cs (by decide)]
    exact hcs

end Runs

/-! ## A stack pointer of the kernel half -/

/-- The first two of the ticks at hand: the first task is interrupted in ring 3 with this stack
pointer, the second one runs, and the first one is resumed. -/
structure TwoTicks (esp : Nat) : Prop where
  tick₁ : tickStep kernelStackTop 2 twoTasks (interrupt₁ esp) = some (kernel₁ esp)
  tick₂ : tickStep kernelStackTop 2 (kernel₁ esp) (interrupt₂ esp) = some (kernel₂ esp)
  current₁ : (kernel₁ esp).sched.ktaskCurrent = taskB
  current₂ : (kernel₂ esp).sched.ktaskCurrent = taskA
  interrupted₁ : Interrupted [taskA, taskB] twoTasks (interrupt₁ esp)
  ring₁ : isrField (interrupt₁ esp).mem (interrupt₁ esp).regs .cs % 4 = 3
  later : UserTick [taskA, taskB] (kernel₁ esp) (interrupt₂ esp)

theorem TwoTicks.run {esp : Nat} (h : TwoTicks esp) :
    run (tickStep kernelStackTop 2) twoTasks [interrupt₁ esp, interrupt₂ esp] =
      some (kernel₂ esp) :=
  run_cons_some.2 ⟨_, h.tick₁, run_cons_some.2 ⟨_, h.tick₂, rfl⟩⟩

theorem twoTicks_of {esp : Nat}
    (h₁ : (tickStep kernelStackTop 2 twoTasks (interrupt₁ esp)).isSome)
    (h₂ : (tickStep kernelStackTop 2 (kernel₁ esp) (interrupt₂ esp)).isSome)
    (hcur : (kernel₁ esp).sched.ktaskCurrent = taskB ∧ (kernel₂ esp).sched.ktaskCurrent = taskA)
    (hnext : taskNext (kernel₁ esp).sched.mem taskA = taskB ∧
      taskNext (kernel₁ esp).sched.mem taskB = taskA)
    (hring : isrField (interrupt₁ esp).mem (interrupt₁ esp).regs .cs % 4 = 3)
    (hroom : RoomBelowKernel (interruptedFrame (interrupt₂ esp).mem (interrupt₂ esp).regs .esp)) :
    TwoTicks esp := by
  have happ : ∀ t ∈ [taskA, taskB], FrameApart t frameRegs := by
    simp only [FrameApart]
    decide
  have hring₀ : IsRing (taskNext twoTasks.sched.mem) [taskA, taskB] :=
    IsRing.pair (by decide) (by decide +kernel) (by decide +kernel)
  have hring₁ : IsRing (taskNext (kernel₁ esp).sched.mem) [taskA, taskB] :=
    IsRing.pair (by decide) hnext.1 hnext.2
  refine ⟨?_, ?_, hcur.1, hcur.2, ?_, hring, ?_, fun _ => hroom⟩
  · rw [kernel₁, ← Option.get_eq_getD _ (h := h₁), Option.some_get]
  · rw [kernel₂, ← Option.get_eq_getD _ (h := h₂), Option.some_get]
  · exact userInterrupt_interrupted (by decide) (by decide) happ hring₀
  · exact userInterrupt_interrupted (by decide) (by decide) happ hring₁

/-- A user stack pointer in the image of the kernel: the frame of `iret` is written there. -/
theorem resume_stores_in_kernel :
    Objects [taskA, taskB] ∧ RunOk [taskA, taskB] twoTasks ∧ TwoTicks 0xC0101000 ∧
      ¬StoredBelow kernelVirtualBase
        (lastStores kernelStackTop 2 twoTasks (interrupt₁ 0xC0101000) [interrupt₂ 0xC0101000]) := by
  have h : TwoTicks 0xC0101000 :=
    twoTicks_of (by decide +kernel) (by decide +kernel) (by decide +kernel) (by decide +kernel)
      (by decide +kernel) (by decide +kernel)
  refine ⟨objects_two, runOk_two, h, ?_⟩
  decide +kernel

/-- A user stack pointer with room: the first task is resumed from user memory. -/
theorem resume_stores_below_iff_twoTicks :
    StoredBelow kernelVirtualBase
        (lastStores kernelStackTop 2 twoTasks (interrupt₁ 0x9100) [interrupt₂ 0x9100]) ↔
      RoomBelowKernel (interruptedFrame (interrupt₁ 0x9100).mem (interrupt₁ 0x9100).regs .esp) := by
  have h : TwoTicks 0x9100 :=
    twoTicks_of (by decide +kernel) (by decide +kernel) (by decide +kernel) (by decide +kernel)
      (by decide +kernel) (by decide +kernel)
  have hadm : Admissible (tickStep kernelStackTop 2) (UserTick [taskA, taskB]) twoTasks [] :=
    trivial
  refine resume_stores_below_iff objects_two (by decide) (by decide) runOk_two hadm rfl
    h.interrupted₁ h.ring₁ ?_ h.run h.current₂
  intro q hq
  obtain rfl : kernel₁ 0x9100 = q := Option.some.inj (h.tick₁.symm.trans hq)
  have haway : (kernel₁ 0x9100).sched.ktaskCurrent ≠ twoTasks.sched.ktaskCurrent := by
    rw [h.current₁]
    decide
  exact ⟨⟨h.later, fun _ _ => trivial⟩, haway, fun _ _ => trivial⟩

end DelOs
