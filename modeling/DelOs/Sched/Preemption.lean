import DelOs.Lib.Transition
import DelOs.Sched.RoundRobin
import DelOs.Sched.Tick

/-!
# Preemption preserves the registers

Runs of ticks.  Between two ticks the tasks may do anything, except that nothing but a tick
writes saved contexts and links.

* `Interrupt`, `tickStep` — a run: the memory that each tick finds, and where the frame is.
* `Interrupted` — what the interrupts of a run are.
* `StacksClear`, `StackRoom` — **the frame of `iret` stays away from the tasks**.  The code does not
  see to it: it builds the frame below whatever stack pointer the interrupted task had.
* `Ticked`, `tickStep_spec` — what a tick does.
* `preemption_preserves` — **a task that is picked again goes on with the registers it was
  interrupted with**.
* `preemption_corrupts` — a stack pointer into a task record makes a tick destroy a saved context.
-/

namespace DelOs

open ByteMem Ia32 Ring Transition

/-! ## Runs of ticks -/

/-- A timer interrupt that calls `kscheduler_tick`: the memory as the interrupted task left it,
with the frame at `regs`. -/
structure Interrupt where
  mem : Mem
  regs : Nat

/-- The tick on this interrupt.  There is no next state if the tick returns, since `irq_timer` panics
then. -/
def tickStep (stackEnd fuel : Nat) (k : Kernel) (e : Interrupt) : Option Kernel :=
  match Kernel.kschedulerTick stackEnd fuel { k with sched := { k.sched with mem := e.mem } }
    e.regs with
  | some (true, k') => some k'
  | _ => none

/-- The interrupt comes from ring 0 or ring 3, its frame is on a stack and not among the tasks,
which are still linked, and no saved context has changed since the last tick. -/
structure Interrupted (tasks : List Nat) (k : Kernel) (e : Interrupt) : Prop where
  regs_ne : e.regs ≠ 0
  regs_le : e.regs + 72 ≤ 2 ^ 32
  ring : isrField e.mem e.regs .cs % 4 = 0 ∨ isrField e.mem e.regs .cs % 4 = 3
  apart : ∀ t ∈ tasks, FrameApart t e.regs
  linked : IsRing (taskNext e.mem) tasks
  saved : ∀ t ∈ tasks, ∀ f, isrField e.mem t f = isrField k.sched.mem t f

/-- The interrupted stack pointer leaves room for the frame of `iret`, away from the tasks. -/
def StackRoom (tasks : List Nat) (e : Interrupt) : Prop :=
  ∀ t ∈ tasks, StackClear (interruptedFrame e.mem e.regs .esp) t sizeofTask

/-- So do the stack pointers in the saved contexts. -/
def StacksClear (tasks : List Nat) (m : Mem) : Prop :=
  ∀ t ∈ tasks, ∀ u ∈ tasks, StackClear (isrField m t .esp) u sizeofTask

/-- What a tick does: it goes on with a task of the ring, has saved the interrupted one, and has
left the contexts of the others alone. -/
structure Ticked (tasks : List Nat) (k : Kernel) (e : Interrupt) (k' : Kernel) : Prop where
  current : k'.sched.ktaskCurrent ∈ tasks
  resumes : Resumes k'.cpu (isrField k'.sched.mem k'.sched.ktaskCurrent)
  saved : ∀ f ∉ [IsrField.gs, .fs, .es, .ds],
    isrField k'.sched.mem k.sched.ktaskCurrent f = interruptedFrame e.mem e.regs f
  others : ∀ t ∈ tasks, t ≠ k.sched.ktaskCurrent → ∀ f,
    isrField k'.sched.mem t f = isrField e.mem t f

section Tick

variable {stackEnd fuel : Nat} {tasks : List Nat} {k k' : Kernel} {e : Interrupt}

/-- Two tasks of the ring are the same or do not overlap. -/
theorem Objects.apart (hobj : Objects tasks) {t u : Nat} (ht : t ∈ tasks) (hu : u ∈ tasks)
    (hne : t ≠ u) : t + sizeofTask ≤ u ∨ u + sizeofTask ≤ t := by
  have : Std.Symm fun t u => t + sizeofTask ≤ u ∨ u + sizeofTask ≤ t := ⟨fun _ _ h => h.symm⟩
  exact hobj.disjoint.forall ht hu hne

/-- Saving a context leaves the other contexts and all links alone. -/
theorem saveContext_other {t : Nat} (hobj : Objects tasks) (hcur : k.sched.ktaskCurrent ∈ tasks)
    (hint : Interrupted tasks k e) (ht : t ∈ tasks) (hne : t ≠ k.sched.ktaskCurrent)
    (f : IsrField) : isrField (saveContext e.mem k.sched.ktaskCurrent e.regs) t f =
      isrField e.mem t f := by
  have happ := hobj.apart ht hcur hne
  have := f.off_le
  apply read32_congr
  intro x hx hx'
  apply saveContext_outside (hint.apart _ hcur)
  simp only [sizeofTask, sizeofIsrRegisters] at *
  omega

theorem saveContext_next {t : Nat} (hobj : Objects tasks) (hcur : k.sched.ktaskCurrent ∈ tasks)
    (hint : Interrupted tasks k e) (ht : t ∈ tasks) :
    taskNext (saveContext e.mem k.sched.ktaskCurrent e.regs) t = taskNext e.mem t := by
  apply read32_congr
  intro x hx hx'
  apply saveContext_outside (hint.apart _ hcur)
  by_cases hne : t = k.sched.ktaskCurrent
  · simp only [taskNextOff, sizeofIsrRegisters] at *
    omega
  · have happ := hobj.apart ht hcur hne
    simp only [taskNextOff, sizeofTask, sizeofIsrRegisters] at *
    omega

/-- The kernel with the interrupted context saved and another task current. -/
def Kernel.saving (k : Kernel) (e : Interrupt) (next : Nat) : Kernel :=
  { k with sched := { k.sched with
      mem := saveContext e.mem k.sched.ktaskCurrent e.regs
      ktaskCurrent := next } }

@[simp] theorem Kernel.saving_mem (k : Kernel) (e : Interrupt) (next : Nat) :
    (k.saving e next).sched.mem = saveContext e.mem k.sched.ktaskCurrent e.regs := by
  rw [Kernel.saving]

@[simp] theorem Kernel.saving_ktaskCurrent (k : Kernel) (e : Interrupt) (next : Nat) :
    (k.saving e next).sched.ktaskCurrent = next := by
  rw [Kernel.saving]

/-- A tick that does not return goes on with a task of the ring. -/
theorem tickStep_pick (hobj : Objects tasks) (hfuel : tasks.length ≤ fuel)
    (hcur : k.sched.ktaskCurrent ∈ tasks) (hint : Interrupted tasks k e)
    (h : tickStep stackEnd fuel k e = some k') :
    ∃ next ∈ tasks, (k.saving e k.sched.ktaskCurrent).sched.kschedulerPickNext fuel = some next ∧
      k' = ((k.saving e next).enterProcess stackEnd next).switchTo next := by
  have hne : k.sched.ktaskCurrent ≠ 0 := hobj.ne_null _ hcur
  have hring : IsRing (taskNext (k.saving e k.sched.ktaskCurrent).sched.mem) tasks := by
    obtain ⟨hnodup, a, ha, hpath⟩ := hint.linked
    rw [Kernel.saving_mem]
    exact ⟨hnodup, a, ha, hpath.congr fun t ht => saveContext_next hobj hcur hint ht⟩
  obtain ⟨next, hpick, hnext⟩ := pickNext_mem hring (by rwa [Kernel.saving_ktaskCurrent])
    (by rwa [Kernel.saving_ktaskCurrent]) hfuel
  have hsaved : ({ k.sched with mem := saveContext e.mem k.sched.ktaskCurrent e.regs } : Sched) =
      (k.saving e k.sched.ktaskCurrent).sched := rfl
  simp only [tickStep, Kernel.kschedulerTick, hint.regs_ne, hne, or_self, if_false, hsaved,
    hpick, Option.map_some] at h
  by_cases hnull : next = 0
  · simp [hnull] at h
  · rw [if_neg hnull] at h
    exact ⟨next, hnext.resolve_left hnull, hpick, (Option.some.inj h).symm⟩

theorem tickStep_next (hobj : Objects tasks) (hfuel : tasks.length ≤ fuel)
    (hcur : k.sched.ktaskCurrent ∈ tasks) (hint : Interrupted tasks k e)
    (h : tickStep stackEnd fuel k e = some k') :
    ∃ next ∈ tasks, k' = ((k.saving e next).enterProcess stackEnd next).switchTo next := by
  obtain ⟨next, hnext, -, hk⟩ := tickStep_pick hobj hfuel hcur hint h
  exact ⟨next, hnext, hk⟩

@[simp] theorem Kernel.enterProcess_sched (t : Nat) :
    (k.enterProcess stackEnd t).sched = k.sched := by
  rw [Kernel.enterProcess]
  split_ifs <;> rfl

@[simp] theorem Kernel.enterProcess_cpu (t : Nat) :
    (k.enterProcess stackEnd t).cpu = k.cpu := by
  rw [Kernel.enterProcess]
  split_ifs <;> rfl

/-- Saving the interrupted context leaves the contexts of the other tasks as they were at the last
tick. -/
theorem saving_other {next t : Nat} (hobj : Objects tasks) (hcur : k.sched.ktaskCurrent ∈ tasks)
    (hint : Interrupted tasks k e) (ht : t ∈ tasks) (hne : t ≠ k.sched.ktaskCurrent)
    (f : IsrField) : isrField (k.saving e next).sched.mem t f = isrField k.sched.mem t f := by
  rw [Kernel.saving_mem, saveContext_other hobj hcur hint ht hne, hint.saved t ht]

/-- The interrupted context is saved. -/
theorem saving_current {next : Nat} (hcur : k.sched.ktaskCurrent ∈ tasks)
    (hint : Interrupted tasks k e) {f : IsrField} (hf : f ∉ [IsrField.gs, .fs, .es, .ds]) :
    isrField (k.saving e next).sched.mem k.sched.ktaskCurrent f =
      interruptedFrame e.mem e.regs f := by
  rw [Kernel.saving_mem]
  exact saveContext_field (hint.apart _ hcur) hint.regs_le hf

/-- After saving, every stack pointer leaves room for the frame of `iret`. -/
theorem saving_clear (next : Nat) (hobj : Objects tasks) (hcur : k.sched.ktaskCurrent ∈ tasks)
    (hint : Interrupted tasks k e) (hclear : StacksClear tasks k.sched.mem)
    (hroom : StackRoom tasks e) : StacksClear tasks (k.saving e next).sched.mem := by
  intro t ht u hu
  by_cases hne : t = k.sched.ktaskCurrent
  · rw [hne, saving_current hcur hint (by decide)]
    exact hroom u hu
  · rw [saving_other hobj hcur hint ht hne]
    exact hclear t ht u hu

/-- The switch to a task of the ring: the processor resumes its context, and no context
changes. -/
theorem switchTo_spec {next : Nat} (hobj : Objects tasks) (hnext : next ∈ tasks)
    (hclear : ∀ u ∈ tasks, StackClear (isrField k.sched.mem next .esp) u sizeofTask) :
    Resumes (k.switchTo next).cpu (isrField k.sched.mem next) ∧
      ∀ t ∈ tasks, ∀ f, isrField (k.switchTo next).sched.mem t f = isrField k.sched.mem t f := by
  have hctx : next + sizeofIsrRegisters ≤ 2 ^ 32 := by
    have := hobj.in_memory next hnext
    simp only [sizeofTask, sizeofIsrRegisters] at this ⊢
    omega
  have hown : StackClear (isrField k.sched.mem next .esp) next sizeofIsrRegisters := by
    have := hclear next hnext
    simp only [StackClear, sizeofTask, sizeofIsrRegisters] at this ⊢
    omega
  have hring : (k.cpu.setSeg .cs kgdtCodeSelector).seg .cs % 4 = 0 := by
    simp [Cpu.setSeg, kgdtCodeSelector]
  obtain ⟨hres, hout⟩ := kcontextSwitchFromIsr_spec hring hctx hown
  -- from here on it does not matter which routine the switch runs
  obtain ⟨r, hr⟩ : ∃ r, switchContext (k.cpu.setSeg .cs kgdtCodeSelector) k.sched.mem next = r :=
    ⟨_, rfl⟩
  have hswitch : k.switchTo next =
      { k with sched := { k.sched with mem := r.mem }, cpu := r.cpu } := by
    rw [← hr]
    rfl
  rw [hr] at hres hout
  rw [hswitch]
  refine ⟨hres, fun t ht f => ?_⟩
  have happ := hclear t ht
  have := f.off_le
  apply read32_congr
  intro x hx hx'
  apply hout
  simp only [StackClear, sizeofTask, sizeofIsrRegisters] at *
  omega

/-- **What a tick does**, when every stack pointer leaves room for the frame of `iret`. -/
theorem tickStep_spec (hobj : Objects tasks) (hfuel : tasks.length ≤ fuel)
    (hcur : k.sched.ktaskCurrent ∈ tasks) (hclear : StacksClear tasks k.sched.mem)
    (hint : Interrupted tasks k e) (hroom : StackRoom tasks e)
    (h : tickStep stackEnd fuel k e = some k') :
    Ticked tasks k e k' ∧ StacksClear tasks k'.sched.mem := by
  obtain ⟨next, hnext, hk⟩ := tickStep_next hobj hfuel hcur hint h
  have hclear' := saving_clear next hobj hcur hint hclear hroom
  have hcurrent : k'.sched.ktaskCurrent = next := by
    rw [hk]
    simp [Kernel.switchTo, Kernel.saving]
  obtain ⟨hres, hsame⟩ := switchTo_spec (k := (k.saving e next).enterProcess stackEnd next) hobj
    hnext (by simpa using hclear' next hnext)
  rw [← hk, Kernel.enterProcess_sched] at hres hsame
  refine ⟨⟨?_, ?_, ?_, ?_⟩, ?_⟩
  · rw [hcurrent]
    exact hnext
  · rw [hcurrent, funext (hsame next hnext)]
    exact hres
  · intro f hf
    rw [hsame _ hcur, saving_current hcur hint hf]
  · intro t ht hne f
    rw [hsame t ht, Kernel.saving_mem]
    exact saveContext_other hobj hcur hint ht hne f
  · intro t ht u hu
    rw [hsame t ht]
    exact hclear' t ht u hu

end Tick

/-! ## Whole runs -/

section Runs

variable {stackEnd fuel : Nat} {tasks : List Nat} {k k' : Kernel}

theorem Resumes.congr {cpu : Cpu} {w w' : IsrField → Nat} (h : Resumes cpu w)
    (hw : ∀ f ∉ [IsrField.gs, .fs, .es, .ds], w f = w' f) : Resumes cpu w' := by
  obtain ⟨h₁, h₂, h₃, h₄, h₅, h₆, h₇, h₈, h₉, h₁₀, h₁₁⟩ := h
  rw [hw _ (by decide)] at h₁ h₂ h₃ h₄ h₅ h₆ h₇ h₈ h₉ h₁₀ h₁₁
  exact ⟨h₁, h₂, h₃, h₄, h₅, h₆, h₇, h₈, h₉, h₁₀, h₁₁⟩

/-- The tasks between two ticks. -/
structure RunOk (tasks : List Nat) (k : Kernel) : Prop where
  current : k.sched.ktaskCurrent ∈ tasks
  clear : StacksClear tasks k.sched.mem

/-- The interrupts of a run, with stack pointers that leave room for the frame of `iret`. -/
def TickOk (tasks : List Nat) (k : Kernel) (e : Interrupt) : Prop :=
  Interrupted tasks k e ∧ StackRoom tasks e

/-- Every tick keeps the tasks as a run needs them. -/
theorem runOk_step (hobj : Objects tasks) (hfuel : tasks.length ≤ fuel) {e : Interrupt}
    (hk : RunOk tasks k) (he : TickOk tasks k e) (h : tickStep stackEnd fuel k e = some k') :
    RunOk tasks k' := by
  obtain ⟨hticked, hclear⟩ := tickStep_spec hobj hfuel hk.current hk.clear he.1 he.2 h
  exact ⟨hticked.current, hclear⟩

/-- While other tasks run, the saved context of a task stays. -/
theorem context_kept (hobj : Objects tasks) (hfuel : tasks.length ≤ fuel) {t : Nat}
    (ht : t ∈ tasks) {es : List Interrupt} (hk : RunOk tasks k)
    (hadm : Admissible (tickStep stackEnd fuel) (TickOk tasks) k es)
    (haway : Admissible (tickStep stackEnd fuel) (fun q _ => q.sched.ktaskCurrent ≠ t) k es)
    (hrun : run (tickStep stackEnd fuel) k es = some k') (f : IsrField) :
    isrField k'.sched.mem t f = isrField k.sched.mem t f := by
  induction es generalizing k with
  | nil =>
    obtain rfl : k = k' := by simpa using hrun
    rfl
  | cons e es ih =>
    obtain ⟨q, hq, hrest⟩ := run_cons_some.1 hrun
    obtain ⟨⟨hint, hroom⟩, hadm'⟩ := hadm
    obtain ⟨hne, haway'⟩ := haway
    have hticked := (tickStep_spec hobj hfuel hk.current hk.clear hint hroom hq).1
    rw [ih (runOk_step hobj hfuel hk ⟨hint, hroom⟩ hq) (hadm' q hq) (haway' q hq) hrest,
      hticked.others t ht (Ne.symm hne), hint.saved t ht]

/-- The last tick of a run resumes the saved context of its current task. -/
theorem run_resumes (hobj : Objects tasks) (hfuel : tasks.length ≤ fuel) {e : Interrupt}
    {es : List Interrupt} (hk : RunOk tasks k)
    (hadm : Admissible (tickStep stackEnd fuel) (TickOk tasks) k (e :: es))
    (hrun : run (tickStep stackEnd fuel) k (e :: es) = some k') :
    Resumes k'.cpu (isrField k'.sched.mem k'.sched.ktaskCurrent) := by
  induction es generalizing k e with
  | nil =>
    obtain ⟨q, hq, hrest⟩ := run_cons_some.1 hrun
    obtain rfl : q = k' := by simpa using hrest
    exact (tickStep_spec hobj hfuel hk.current hk.clear hadm.1.1 hadm.1.2 hq).1.resumes
  | cons e' es ih =>
    obtain ⟨q, hq, hrest⟩ := run_cons_some.1 hrun
    exact ih (runOk_step hobj hfuel hk hadm.1 hq) (hadm.2 q hq) hrest

/-- **Preemption preserves the registers.**  In every run whose interrupted stack pointers leave
room for the frame of `iret` away from the tasks, a task that is picked again goes on with the
registers it was interrupted with, and no tick changes the saved context of a task that is not
current. -/
theorem preemption_preserves {k₀ q : Kernel} {pre : List Interrupt} (hobj : Objects tasks)
    (hfuel : tasks.length ≤ fuel) (hstart : RunOk tasks k₀)
    (hadm₀ : Admissible (tickStep stackEnd fuel) (TickOk tasks) k₀ pre)
    (hrun₀ : run (tickStep stackEnd fuel) k₀ pre = some q) :
    (∀ e es k', Admissible (tickStep stackEnd fuel) (TickOk tasks) q (e :: es) →
      run (tickStep stackEnd fuel) q (e :: es) = some k' →
      (∀ q', tickStep stackEnd fuel q e = some q' → Admissible (tickStep stackEnd fuel)
        (fun r _ => r.sched.ktaskCurrent ≠ q.sched.ktaskCurrent) q' es) →
      k'.sched.ktaskCurrent = q.sched.ktaskCurrent →
      Resumes k'.cpu (interruptedFrame e.mem e.regs)) ∧
    (∀ e k', TickOk tasks q e → tickStep stackEnd fuel q e = some k' →
      ∀ t ∈ tasks, t ≠ q.sched.ktaskCurrent → ∀ f,
        isrField k'.sched.mem t f = isrField e.mem t f) := by
  have hq : RunOk tasks q := run_invariant
    (fun _ _ _ hk he h => runOk_step hobj hfuel hk he h) hstart hadm₀ hrun₀
  refine ⟨?_, ?_⟩
  · intro e es k' hadm hrun haway hback
    obtain ⟨q', hq', hrest⟩ := run_cons_some.1 hrun
    obtain ⟨he, hadm'⟩ := hadm
    have hok := runOk_step hobj hfuel hq he hq'
    have hticked := (tickStep_spec hobj hfuel hq.current hq.clear he.1 he.2 hq').1
    have hkept := context_kept hobj hfuel hq.current hok (hadm' q' hq') (haway q' hq') hrest
    have hres := run_resumes hobj hfuel hq ⟨he, hadm'⟩ hrun
    rw [hback] at hres
    exact hres.congr fun f hf => (hkept f).trans (hticked.saved f hf)
  · intro e k' he h t ht hne f
    exact (tickStep_spec hobj hfuel hq.current hq.clear he.1 he.2 h).1.others t ht hne f

end Runs

/-! ## A stack pointer into a task record -/

/-- A memory with a frame from ring 3 at `regs`. -/
def ring3Frame (m : Mem) (regs eip esp : Nat) : Mem :=
  let m := write32 m (regs + IsrField.eip.off) eip
  let m := write32 m (regs + IsrField.cs.off) 0x1B
  let m := write32 m (regs + IsrField.eflags.off) 0x202
  write32 m (regs + 68) esp

theorem ring3Frame_outside {m : Mem} {regs eip esp x : Nat} (hx : x < regs ∨ regs + 72 ≤ x) :
    ring3Frame m regs eip esp x = m x := by
  simp only [ring3Frame, IsrField.off]
  rw [write32_of_outside _ (by omega), write32_of_outside _ (by omega),
    write32_of_outside _ (by omega), write32_of_outside _ (by omega)]

/-- An interrupt of a task in ring 3 that has written nothing. -/
def userInterrupt (k : Kernel) (regs eip esp : Nat) : Interrupt :=
  ⟨ring3Frame k.sched.mem regs eip esp, regs⟩

theorem userInterrupt_interrupted {tasks : List Nat} {k : Kernel} {regs eip esp : Nat}
    (hne : regs ≠ 0) (hle : regs + 72 ≤ 2 ^ 32) (happ : ∀ t ∈ tasks, FrameApart t regs)
    (hring : IsRing (taskNext k.sched.mem) tasks) :
    Interrupted tasks k (userInterrupt k regs eip esp) := by
  have hword : ∀ t ∈ tasks, ∀ i, i + 4 ≤ sizeofTask →
      read32 (ring3Frame k.sched.mem regs eip esp) (t + i) = read32 k.sched.mem (t + i) := by
    intro t ht i hi
    have := happ t ht
    apply read32_congr
    intro x hx hx'
    apply ring3Frame_outside
    simp only [FrameApart] at this
    omega
  refine ⟨hne, hle, Or.inr ?_, happ, ?_, ?_⟩
  · have hcs : isrField (ring3Frame k.sched.mem regs eip esp) regs .cs = 0x1B := by
      simp only [isrField, ring3Frame, IsrField.off]
      rw [read32_write32_of_disjoint _ (by omega), read32_write32_of_disjoint _ (by omega),
        read32_write32_same _ (by decide)]
    rw [userInterrupt, hcs]
  · obtain ⟨hnodup, a, ha, hpath⟩ := hring
    exact ⟨hnodup, a, ha, hpath.congr fun t ht => hword t ht _ (by decide)⟩
  · intro t ht f
    have := f.off_le
    exact hword t ht _ (by simp only [sizeofTask, sizeofIsrRegisters] at *; omega)

/-- Two tasks on the kernel heap, and the place of the frames on the kernel stack. -/
def taskA : Nat := 0xC0800000
def taskB : Nat := 0xC0800100
def kernelStackTop : Nat := 0xC0108000
def frameRegs : Nat := kernelStackTop - 76

/-- The two tasks as `ktask_create` leaves them, on stacks of their own; the first one runs. -/
def twoTasks : Kernel :=
  let s := (Sched.boot fun _ => 0).addTasks [taskA, taskB]
  let m := write32 s.mem (taskA + IsrField.esp.off) 0xC0900000
  let m := write32 m (taskB + IsrField.esp.off) 0xC0910000
  { sched := { s with mem := m, ktaskCurrent := taskA }
    cpu := ⟨fun _ => 0, fun _ => 0, 0, 0, false⟩
    cr3 := 0
    esp0 := kernelStackTop }

/-- The first task is interrupted in ring 3 with this stack pointer; the second one, after it, at
`0x8001234`; and the first one again. -/
def interrupt₁ (esp : Nat) : Interrupt := userInterrupt twoTasks frameRegs 0x8000000 esp
def kernel₁ (esp : Nat) : Kernel :=
  (tickStep kernelStackTop 2 twoTasks (interrupt₁ esp)).getD twoTasks
def interrupt₂ (esp : Nat) : Interrupt := userInterrupt (kernel₁ esp) frameRegs 0x8001234 0x9000
def kernel₂ (esp : Nat) : Kernel :=
  (tickStep kernelStackTop 2 (kernel₁ esp) (interrupt₂ esp)).getD twoTasks
def interrupt₃ (esp : Nat) : Interrupt := userInterrupt (kernel₂ esp) frameRegs 0x8000010 0xA000
def kernel₃ (esp : Nat) : Kernel :=
  (tickStep kernelStackTop 2 (kernel₂ esp) (interrupt₃ esp)).getD twoTasks

/-- The three ticks switch to the second task, to the first and to the second again. -/
structure ThreeTicks (esp : Nat) : Prop where
  tick₁ : tickStep kernelStackTop 2 twoTasks (interrupt₁ esp) = some (kernel₁ esp)
  tick₂ : tickStep kernelStackTop 2 (kernel₁ esp) (interrupt₂ esp) = some (kernel₂ esp)
  tick₃ : tickStep kernelStackTop 2 (kernel₂ esp) (interrupt₃ esp) = some (kernel₃ esp)
  current₁ : (kernel₁ esp).sched.ktaskCurrent = taskB
  current₂ : (kernel₂ esp).sched.ktaskCurrent = taskA
  current₃ : (kernel₃ esp).sched.ktaskCurrent = taskB
  ring₁ : IsRing (taskNext (kernel₁ esp).sched.mem) [taskA, taskB]
  ring₂ : IsRing (taskNext (kernel₂ esp).sched.mem) [taskA, taskB]

/-- The ticks are what running them shows. -/
theorem threeTicks_of {esp : Nat}
    (h₁ : (tickStep kernelStackTop 2 twoTasks (interrupt₁ esp)).isSome)
    (h₂ : (tickStep kernelStackTop 2 (kernel₁ esp) (interrupt₂ esp)).isSome)
    (h₃ : (tickStep kernelStackTop 2 (kernel₂ esp) (interrupt₃ esp)).isSome)
    (hcur : (kernel₁ esp).sched.ktaskCurrent = taskB ∧
      (kernel₂ esp).sched.ktaskCurrent = taskA ∧ (kernel₃ esp).sched.ktaskCurrent = taskB)
    (hnext₁ : taskNext (kernel₁ esp).sched.mem taskA = taskB ∧
      taskNext (kernel₁ esp).sched.mem taskB = taskA)
    (hnext₂ : taskNext (kernel₂ esp).sched.mem taskA = taskB ∧
      taskNext (kernel₂ esp).sched.mem taskB = taskA) : ThreeTicks esp where
  tick₁ := by rw [kernel₁, ← Option.get_eq_getD _ (h := h₁), Option.some_get]
  tick₂ := by rw [kernel₂, ← Option.get_eq_getD _ (h := h₂), Option.some_get]
  tick₃ := by rw [kernel₃, ← Option.get_eq_getD _ (h := h₃), Option.some_get]
  current₁ := hcur.1
  current₂ := hcur.2.1
  current₃ := hcur.2.2
  ring₁ := IsRing.pair (by decide) hnext₁.1 hnext₁.2
  ring₂ := IsRing.pair (by decide) hnext₂.1 hnext₂.2

theorem objects_two : Objects [taskA, taskB] := ⟨by decide, by decide, by decide⟩

theorem runOk_two : RunOk [taskA, taskB] twoTasks := by
  refine ⟨by decide, ?_⟩
  simp only [StacksClear]
  decide +kernel

/-- The interrupts of the three ticks are interrupts of a run. -/
theorem ThreeTicks.interrupted {esp : Nat} (h : ThreeTicks esp) :
    Interrupted [taskA, taskB] twoTasks (interrupt₁ esp) ∧
      Interrupted [taskA, taskB] (kernel₁ esp) (interrupt₂ esp) ∧
      Interrupted [taskA, taskB] (kernel₂ esp) (interrupt₃ esp) := by
  have happ : ∀ t ∈ [taskA, taskB], FrameApart t frameRegs := by
    simp only [FrameApart]
    decide
  have hring : IsRing (taskNext twoTasks.sched.mem) [taskA, taskB] :=
    IsRing.pair (by decide) (by decide +kernel) (by decide +kernel)
  exact ⟨userInterrupt_interrupted (by decide) (by decide) happ hring,
    userInterrupt_interrupted (by decide) (by decide) happ h.ring₁,
    userInterrupt_interrupted (by decide) (by decide) happ h.ring₂⟩

/-- A user stack pointer into the record of the other task: the frame of `iret` destroys the
context that the other task is resumed from later. -/
theorem preemption_corrupts :
    Objects [taskA, taskB] ∧ RunOk [taskA, taskB] twoTasks ∧ ThreeTicks (taskB + 68) ∧
      Interrupted [taskA, taskB] twoTasks (interrupt₁ (taskB + 68)) ∧
      Interrupted [taskA, taskB] (kernel₁ (taskB + 68)) (interrupt₂ (taskB + 68)) ∧
      Interrupted [taskA, taskB] (kernel₂ (taskB + 68)) (interrupt₃ (taskB + 68)) ∧
      ¬Resumes (kernel₃ (taskB + 68)).cpu
        (interruptedFrame (interrupt₂ (taskB + 68)).mem (interrupt₂ (taskB + 68)).regs) := by
  have h : ThreeTicks (taskB + 68) :=
    threeTicks_of (by decide +kernel) (by decide +kernel) (by decide +kernel) (by decide +kernel)
      (by decide +kernel) (by decide +kernel)
  obtain ⟨h₁, h₂, h₃⟩ := h.interrupted
  refine ⟨objects_two, runOk_two, h, h₁, h₂, h₃, fun hres => ?_⟩
  have heip := hres.eip
  revert heip
  decide +kernel

/-- With a stack pointer away from the tasks, the second task goes on where it was. -/
theorem preemption_preserves_threeTicks :
    Resumes (kernel₃ 0x9100).cpu
      (interruptedFrame (interrupt₂ 0x9100).mem (interrupt₂ 0x9100).regs) := by
  have h : ThreeTicks 0x9100 :=
    threeTicks_of (by decide +kernel) (by decide +kernel) (by decide +kernel) (by decide +kernel)
      (by decide +kernel) (by decide +kernel)
  obtain ⟨h₁, h₂, h₃⟩ := h.interrupted
  have hok₁ : TickOk [taskA, taskB] twoTasks (interrupt₁ 0x9100) := ⟨h₁, by
    simp only [StackRoom]
    decide +kernel⟩
  have hok₂ : TickOk [taskA, taskB] (kernel₁ 0x9100) (interrupt₂ 0x9100) := ⟨h₂, by
    simp only [StackRoom]
    decide +kernel⟩
  have hok₃ : TickOk [taskA, taskB] (kernel₂ 0x9100) (interrupt₃ 0x9100) := ⟨h₃, by
    simp only [StackRoom]
    decide +kernel⟩
  have hpre : run (tickStep kernelStackTop 2) twoTasks [interrupt₁ 0x9100] =
      some (kernel₁ 0x9100) := run_cons_some.2 ⟨_, h.tick₁, rfl⟩
  have hrun : run (tickStep kernelStackTop 2) (kernel₁ 0x9100)
      [interrupt₂ 0x9100, interrupt₃ 0x9100] = some (kernel₃ 0x9100) :=
    run_cons_some.2 ⟨_, h.tick₂, run_cons_some.2 ⟨_, h.tick₃, rfl⟩⟩
  have hadm : Admissible (tickStep kernelStackTop 2) (TickOk [taskA, taskB]) twoTasks
      [interrupt₁ 0x9100] := ⟨hok₁, fun _ _ => trivial⟩
  refine (preemption_preserves objects_two (by decide) runOk_two hadm hpre).1 _ _ _ ⟨hok₂, ?_⟩
    hrun ?_ ?_
  · intro q hq
    obtain rfl : kernel₂ 0x9100 = q := Option.some.inj (h.tick₂.symm.trans hq)
    exact ⟨hok₃, fun _ _ => trivial⟩
  · intro q hq
    obtain rfl : kernel₂ 0x9100 = q := Option.some.inj (h.tick₂.symm.trans hq)
    refine ⟨?_, fun _ _ => trivial⟩
    simp only [h.current₂, h.current₁]
    decide
  · rw [h.current₃, h.current₁]

end DelOs
