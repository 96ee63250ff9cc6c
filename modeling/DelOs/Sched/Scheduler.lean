import DelOs.Lib.ByteMem
import DelOs.Lib.Ring

/-!
# The scheduler's list of tasks

`kernel/scheduler/scheduler.c`: the tasks of the kernel, linked into a ring by their `_next`
fields.

* `TaskState`, `taskNext`, `isZombie` — the fields of a `task_t` that the scheduler reads, at
  their places in memory.
* `Sched` — the memory and the variables of `scheduler.c`.
* `kschedulerAddTask`, `kschedulerStart`, `kschedulerInit`, `kschedulerPickNext` — its functions.
* `Objects` — task pointers that stand for different `task_t` objects.
* `read32_setNext` — what setting a link changes.
-/

namespace DelOs

open ByteMem

/-! ## Tasks in memory -/

/-- `task_state_t`. -/
inductive TaskState where
  | idle
  | running
  | paused
  | zombie
  deriving DecidableEq, Repr

/-- The number that C gives to the constant. -/
def TaskState.toNat : TaskState → Nat
  | idle => 0
  | running => 1
  | paused => 2
  | zombie => 3

/-- Where the fields of a `task_t` are; its `_ctx` is at the start. -/
def taskStateOff : Nat := 76
def taskNextOff : Nat := 80
def taskProcessOff : Nat := 84

/-- `sizeof(task_t)` -/
def sizeofTask : Nat := 88

/-- `task->_next` -/
def taskNext (m : Mem) (task : Nat) : Nat := read32 m (task + taskNextOff)

/-- `task->_next = next` -/
def setNext (m : Mem) (task next : Nat) : Mem := write32 m (task + taskNextOff) next

/-- `task->_state == KTASK_ZOMBIE` -/
def isZombie (m : Mem) (task : Nat) : Bool :=
  read32 m (task + taskStateOff) == TaskState.zombie.toNat

/-- `task->_state = state` -/
def setState (m : Mem) (task : Nat) (state : TaskState) : Mem :=
  write32 m (task + taskStateOff) state.toNat

/-- The task may run. -/
abbrev isLive (m : Mem) (task : Nat) : Bool := !isZombie m task

/-- The pointers stand for different objects of type `task_t`. -/
structure Objects (tasks : List Nat) : Prop where
  ne_null : ∀ t ∈ tasks, t ≠ 0
  in_memory : ∀ t ∈ tasks, t + sizeofTask ≤ 2 ^ 32
  disjoint : tasks.Pairwise fun t u => t + sizeofTask ≤ u ∨ u + sizeofTask ≤ t

/-! ## The functions of `scheduler.c` -/

/-- The memory and the variables of `scheduler.c`. -/
structure Sched where
  mem : Mem
  ktaskHead : Nat
  ktaskTail : Nat
  ktaskCurrent : Nat
  kschedulerIsRunning : Bool

/-- The variables as the kernel image initialises them. -/
def Sched.boot (m : Mem) : Sched := ⟨m, 0, 0, 0, false⟩

namespace Sched

/-- `kscheduler_add_task` -/
def kschedulerAddTask (s : Sched) (task : Nat) : Bool × Sched :=
  if task = 0 then (false, s)
  else if s.ktaskHead = 0 then
    (true, { s with
      mem := setNext s.mem task task
      ktaskHead := task
      ktaskTail := task })
  else
    (true, { s with
      mem := setNext (setNext s.mem task s.ktaskHead) s.ktaskTail task
      ktaskTail := task })

/-- `kscheduler_start` -/
def kschedulerStart (s : Sched) : Sched :=
  if s.ktaskHead = 0 ∨ s.kschedulerIsRunning then s
  else { s with
    mem := setState s.mem s.ktaskHead .running
    ktaskCurrent := s.ktaskHead
    kschedulerIsRunning := true }

/-- `kscheduler_init` -/
def kschedulerInit (s : Sched) (firstTask : Nat) : Bool × Sched :=
  if s.kschedulerIsRunning then (false, s)
  else
    let s := { s with kschedulerIsRunning := false, ktaskCurrent := 0 }
    if s.ktaskHead = 0 then
      if firstTask = 0 then (false, s)
      else
        let (added, s) := s.kschedulerAddTask firstTask
        if added then (true, s.kschedulerStart) else (false, s)
    else (true, s.kschedulerStart)

/-- `kscheduler_pick_next`.  The fuel bounds the loop, which follows the links as long as it is
at a zombie that is not the current task. -/
def kschedulerPickNext (fuel : Nat) (s : Sched) : Option Nat :=
  if s.ktaskCurrent = 0 then some 0
  else
    let stop := fun p => isLive s.mem p || p == s.ktaskCurrent
    (Ring.search (taskNext s.mem) stop fuel (taskNext s.mem s.ktaskCurrent)).map fun next =>
      if isZombie s.mem next then 0 else next

end Sched

/-! ## Setting a link -/

variable {m : Mem} {t u v : Nat}

/-- Setting a link changes nothing outside its four bytes. -/
theorem read32_setNext {a : Nat} (h : a + 4 ≤ t + taskNextOff ∨ t + taskNextOff + 4 ≤ a) :
    read32 (setNext m t v) a = read32 m a :=
  read32_write32_of_disjoint m h

theorem taskNext_setNext_same (hv : v < 2 ^ 32) : taskNext (setNext m t v) t = v :=
  read32_write32_same m hv

theorem taskNext_setNext_other (h : t + sizeofTask ≤ u ∨ u + sizeofTask ≤ t) :
    taskNext (setNext m t v) u = taskNext m u := by
  apply read32_setNext
  simp only [sizeofTask, taskNextOff] at h ⊢
  omega

end DelOs
