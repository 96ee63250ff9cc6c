import DelOs.Lib.Transition
import DelOs.Sched.Tick

/-!
# Timer interrupts while the kernel boots

`irq_timer`, and the part of `kmain` that runs with interrupts enabled before there is a task.

* `Timer`, `irqTimer` — the counters and the handler; every third interrupt calls the scheduler.
* `BootStep`, `kmainWindow` — what `kmain` does from `kinterruption_extern_start` on, up to the
  assignment of `ktask_current` in `kscheduler_init`.
* `bootEvent` — the machine: timer interrupts between and within the steps of `kmain`.
* `irqTimer_no_task` — the handler without a task: it returns, or panics on every third interrupt.
* `boot_tolerates_iff` — **the boot survives fewer than three interrupts, and no more**.
-/

namespace DelOs

open ByteMem Transition

/-! ## The handler -/

/-- `PIT_TARGET_FREQUENCY`, `KERNEL_SCHEDULER_CONTEXT_TICKER` -/
def pitTargetFrequency : Nat := 100
def kernelSchedulerContextTicker : Nat := 3

/-- `ticks_count`, `seconds_count` and the `sec_tick_count` of the handler. -/
structure Timer where
  ticksCount : Nat
  secondsCount : Nat
  secTickCount : Nat
  deriving DecidableEq, Repr

/-- What becomes of the interrupted code: the handler returns to it, leaves to the task that the
scheduler picked, or panics. -/
inductive TimerOutcome where
  | returns
  | switches
  | panics
  deriving DecidableEq, Repr

/-- The counters after an interrupt. -/
def Timer.count (t : Timer) : Timer :=
  let ticks := (t.ticksCount + 1) % 2 ^ 32
  let secTicks := (t.secTickCount + 1) % 2 ^ 32
  if secTicks % pitTargetFrequency = 0 then ⟨ticks, (t.secondsCount + 1) % 2 ^ 32, 0⟩
  else ⟨ticks, t.secondsCount, secTicks⟩

/-- `irq_timer` -/
def irqTimer (stackEnd fuel : Nat) (t : Timer) (k : Kernel) (regs : Nat) :
    Option (TimerOutcome × Timer × Kernel) :=
  if t.count.ticksCount % kernelSchedulerContextTicker = 0 then
    (k.kschedulerTick stackEnd fuel regs).map fun (left, k') =>
      (if left then .switches else .panics, t.count, k')
  else some (.returns, t.count, k)

/-! ## The boot -/

/-- The steps of `kmain` with interrupts enabled and no task: the functions that it calls, with
`kscheduler_init` up to its `ktask_current = NULL` and then up to its `kscheduler_start`. -/
inductive BootStep where
  | kearlyMallocDisable
  | kmallocInit
  | kfsInit
  | kprocessKernelInit
  | clearCurrent
  | addFirstTask
  deriving DecidableEq, Repr

/-- `kmain` from `kinterruption_extern_start` on, up to `kscheduler_start`. -/
def kmainWindow : List BootStep :=
  [.kearlyMallocDisable, .kmallocInit, .kfsInit, .kprocessKernelInit, .clearCurrent, .addFirstTask]

/-- What a step does to the scheduler: the first four write memory only. -/
def BootStep.exec (first : Nat) (m : Mem) (s : Sched) : BootStep → Sched
  | .clearCurrent => { s with kschedulerIsRunning := false, ktaskCurrent := 0 }
  | .addFirstTask => (s.kschedulerAddTask first).2
  | _ => { s with mem := m }

/-- `kscheduler_init` is its two steps and `kscheduler_start`. -/
theorem kschedulerInit_eq {s : Sched} {first : Nat} {m : Mem} (hrun : s.kschedulerIsRunning = false)
    (hhead : s.ktaskHead = 0) (hfirst : first ≠ 0) :
    s.kschedulerInit first = (true, (BootStep.exec first m (BootStep.exec first m s .clearCurrent)
      .addFirstTask).kschedulerStart) := by
  simp [Sched.kschedulerInit, BootStep.exec, Sched.kschedulerAddTask, hrun, hhead, hfirst]

/-- The kernel, the counters and what `kmain` still has to do in the window. -/
structure Boot where
  kernel : Kernel
  timer : Timer
  rest : List BootStep

/-- The kernel when `kmain` enables the interrupts. -/
def Boot.start (k : Kernel) : Boot :=
  ⟨{ k with sched := Sched.boot k.sched.mem }, ⟨0, 0, 0⟩, kmainWindow⟩

/-- What happens next: a timer interrupt with its frame at `regs`, or the next step of `kmain`.
Before either, the code that runs may have written memory. -/
inductive BootEvent where
  | timer (m : Mem) (regs : Nat)
  | advance (m : Mem)

/-- The kernel with other memory. -/
def Kernel.withMem (k : Kernel) (m : Mem) : Kernel := { k with sched := { k.sched with mem := m } }

/-- An event; there is no next state when the handler does not return to `kmain`, or when the
window is over. -/
def bootEvent (stackEnd fuel first : Nat) (b : Boot) : BootEvent → Option Boot
  | .timer m regs =>
      match irqTimer stackEnd fuel b.timer (b.kernel.withMem m) regs with
      | some (.returns, t, k) => some { b with kernel := k, timer := t }
      | _ => none
  | .advance m =>
      match b.rest with
      | [] => none
      | step :: rest =>
          some { b with
            kernel := { b.kernel with sched := step.exec first m b.kernel.sched }
            rest := rest }

/-- The number of timer interrupts. -/
def timers : List BootEvent → Nat
  | [] => 0
  | .timer _ _ :: es => timers es + 1
  | .advance _ :: es => timers es

/-- The number of steps of `kmain`. -/
def advances : List BootEvent → Nat
  | [] => 0
  | .timer _ _ :: es => advances es
  | .advance _ :: es => advances es + 1

/-! ## Without a task -/

variable (stackEnd fuel first : Nat)

/-- **The handler without a task** returns, and on every third interrupt panics. -/
theorem irqTimer_no_task (t : Timer) {k : Kernel} (regs : Nat)
    (hcur : k.sched.ktaskCurrent = 0) :
    irqTimer stackEnd fuel t k regs =
      some (if t.count.ticksCount % 3 = 0 then .panics else .returns, t.count, k) := by
  simp only [irqTimer, kernelSchedulerContextTicker, Kernel.kschedulerTick, hcur, or_true,
    if_true, Option.map_some]
  split_ifs with hthird hfalse
  · exact absurd hfalse (by decide)
  · rfl
  · rfl

/-- No step of the window sets `ktask_current`. -/
theorem bootStep_current {m : Mem} {s : Sched} (hcur : s.ktaskCurrent = 0) (step : BootStep) :
    (step.exec first m s).ktaskCurrent = 0 := by
  cases step with
  | clearCurrent => rfl
  | addFirstTask =>
    simp only [BootStep.exec, Sched.kschedulerAddTask]
    split_ifs <;> exact hcur
  | _ => exact hcur

theorem count_ticksCount {t : Timer} (h : t.ticksCount < 3) :
    t.count.ticksCount = t.ticksCount + 1 := by
  have : (t.ticksCount + 1) % 2 ^ 32 = t.ticksCount + 1 := by omega
  rw [Timer.count]
  split_ifs <;> exact this

/-- From a state of the window on, the interrupts return as long as they are fewer than three with
those that were before. -/
theorem bootEvents_isSome {b : Boot} {es : List BootEvent} (hcur : b.kernel.sched.ktaskCurrent = 0)
    (hticks : b.timer.ticksCount < 3) (hwindow : advances es ≤ b.rest.length) :
    (run (bootEvent stackEnd fuel first) b es).isSome ↔ b.timer.ticksCount + timers es < 3 := by
  induction es generalizing b with
  | nil => simpa [timers] using hticks
  | cons e es ih =>
    cases e with
    | timer m regs =>
      have hcount := count_ticksCount hticks
      have hirq := irqTimer_no_task stackEnd fuel b.timer (k := b.kernel.withMem m) regs hcur
      by_cases hthird : b.timer.ticksCount + 1 = 3
      · rw [hcount, hthird, if_pos (Nat.mod_self 3)] at hirq
        simp only [run, bootEvent, hirq, timers]
        simp
        omega
      · have hlt : b.timer.count.ticksCount < 3 := by omega
        rw [hcount, if_neg (by omega)] at hirq
        simp only [run, bootEvent, hirq, Option.bind_some, timers]
        rw [ih (b := { b with kernel := b.kernel.withMem m, timer := b.timer.count }) hcur hlt
          hwindow, hcount]
        omega
    | advance m =>
      simp only [advances] at hwindow
      cases hrest : b.rest with
      | nil => simp [hrest] at hwindow
      | cons step rest =>
        simp only [run, bootEvent, hrest, Option.bind_some, timers]
        refine ih (bootStep_current first hcur step) hticks ?_
        simpa [hrest] using hwindow

/-- **The boot survives fewer than three interrupts, and no more**, wherever they fall between the
steps of `kmain`. -/
theorem boot_tolerates_iff (k : Kernel) (es : List BootEvent)
    (hwindow : advances es ≤ kmainWindow.length) :
    (run (bootEvent stackEnd fuel first) (Boot.start k) es).isSome ↔ timers es < 3 := by
  have h := bootEvents_isSome stackEnd fuel first (b := Boot.start k) rfl
    (show 0 < 3 by decide) hwindow
  rwa [show (Boot.start k).timer.ticksCount = 0 from rfl, Nat.zero_add] at h

/-- The kernel as it is loaded, and a boot with an interrupt before `kmalloc_init` and another one
after it. -/
def bootKernel : Kernel := ⟨Sched.boot fun _ => 0, ⟨fun _ => 0, fun _ => 0, 0, 0, false⟩, 0, 0⟩
def twoInterrupts : List BootEvent :=
  [.advance fun _ => 0, .timer (fun _ => 0) 0xC0107F00, .advance fun _ => 0,
    .timer (fun _ => 0) 0xC0107F00]

theorem boot_tolerates_twoInterrupts :
    (run (bootEvent 0xC0108000 1 0xC0800000) (Boot.start bootKernel) twoInterrupts).isSome :=
  (boot_tolerates_iff 0xC0108000 1 0xC0800000 bootKernel twoInterrupts (by decide)).2 (by decide)

/-- A third interrupt, before there is a task, ends in the panic. -/
theorem boot_panics :
    (run (bootEvent 0xC0108000 1 0xC0800000) (Boot.start bootKernel) twoInterrupts).map (fun b =>
      (irqTimer 0xC0108000 1 b.timer b.kernel 0xC0107F00).map Prod.fst) =
        some (some .panics) := by
  decide +kernel

end DelOs
