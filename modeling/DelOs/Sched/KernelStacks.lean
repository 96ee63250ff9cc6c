import DelOs.Sched.Boot
import DelOs.Sched.RoundRobin

/-!
# The kernel stacks of suspended tasks

User processes that make syscalls and are interrupted in them.  On every entry from ring 3 the
processor loads `esp` from `gdt_tss._esp0`, which is the end of the one kernel stack for all of
them: `kgdt_setup_tss` and `kscheduler_tick` store `__kernel_stack_end` there.

* `Mode`, `Stacks` — where a task runs, and on which part of which stack.
* `StackEvent`, `stackEvent` — syscalls, kernel calls, returns and timer interrupts.
* `Stacks.Private` — the stack regions of suspended tasks are disjoint.
* `OneStack`, `oneStack_step` — every task in a syscall is on the stack that ends at
  `__kernel_stack_end`.
* `stacks_private` — **the regions are disjoint when and only when at most one task is suspended
  in a syscall**, which is so in runs where no task enters one while another is in one.
* `stacks_overlap` — two processes that wait for the keyboard overwrite each other's frames.
-/

namespace DelOs

open ByteMem Transition

/-! ## Tasks in ring 3 and in syscalls -/

/-- Where a task runs. -/
inductive Mode where
  /-- A task of the kernel, in ring 0 on a stack of its own, with frames down to `esp`. -/
  | kernelTask (esp : Nat)
  /-- In ring 3, on a stack of its process. -/
  | user
  /-- In a syscall: entered on the stack with this top, with frames down to `esp`. -/
  | syscall (top esp : Nat) (enabled : Bool)
  deriving DecidableEq, Repr

/-- The kernel with its timer, and where the tasks are. -/
structure Stacks where
  kernel : Kernel
  timer : Timer
  mode : Nat → Mode

/-- What the current task does, or what happens to it. -/
inductive StackEvent where
  /-- `int 0x80` in ring 3. -/
  | syscall
  /-- Kernel code calls or returns: its frames now go down to `esp`. -/
  | call (esp : Nat)
  /-- `kinterruption_extern_start`, as in `kkeyboard_getchar`. -/
  | enable
  /-- The syscall returns to ring 3. -/
  | sysret
  /-- A timer interrupt that finds this memory. -/
  | timer (m : Mem)

/-- What the processor and `isr_stubs.s` push on an entry from ring 3: `ss`, `esp`, `eflags`, `cs`,
`eip` and the rest of `isr_registers_t`. -/
def entryFrameSize : Nat := 76

namespace Stacks

variable (s : Stacks)

def current : Nat := s.kernel.sched.ktaskCurrent

/-- Change the mode of the current task. -/
def setMode (mode : Mode) : Stacks :=
  { s with mode := Function.update s.mode s.current mode }

/-- Interrupts are enabled: in ring 3 and in kernel tasks always. -/
def enabled : Bool :=
  match s.mode s.current with
  | .syscall _ _ enabled => enabled
  | _ => true

/-- Where the frame of an interrupt goes: below the interrupted stack pointer in ring 0, and on an
entry from ring 3 below `_esp0`. -/
def regs : Nat :=
  match s.mode s.current with
  | .user => s.kernel.esp0 - entryFrameSize
  | .kernelTask esp | .syscall _ esp _ => esp - sizeofIsrRegisters

end Stacks

/-- A step; there is no next state if the event cannot happen there, or if the kernel panics. -/
def stackEvent (stackEnd fuel : Nat) (s : Stacks) : StackEvent → Option Stacks
  | .syscall =>
      match s.mode s.current with
      | .user =>
          some (s.setMode (.syscall s.kernel.esp0 (s.kernel.esp0 - entryFrameSize) false))
      | _ => none
  | .call esp =>
      match s.mode s.current with
      | .syscall top _ enabled =>
          if esp + entryFrameSize ≤ top then some (s.setMode (.syscall top esp enabled)) else none
      | _ => none
  | .enable =>
      match s.mode s.current with
      | .syscall top esp _ => some (s.setMode (.syscall top esp true))
      | _ => none
  | .sysret =>
      match s.mode s.current with
      | .syscall _ _ _ => some (s.setMode .user)
      | _ => none
  | .timer m =>
      if s.enabled then
        match irqTimer stackEnd fuel s.timer (s.kernel.withMem m) s.regs with
        | some (.panics, _) => none
        | some (_, timer, kernel) => some { s with timer := timer, kernel := kernel }
        | none => none
      else none

/-! ## Private stacks -/

/-- The task is in a syscall, and not current. -/
def Stacks.Suspended (s : Stacks) (t : Nat) : Prop :=
  t ≠ s.current ∧ ∃ top esp enabled, s.mode t = .syscall top esp enabled

/-- The stack regions of different suspended tasks, from the saved stack pointer up to the top that
they entered on, are disjoint. -/
def Stacks.Private (s : Stacks) : Prop :=
  ∀ t u, t ≠ u → t ≠ s.current → u ≠ s.current → ∀ top esp enabled top' esp' enabled',
    s.mode t = .syscall top esp enabled → s.mode u = .syscall top' esp' enabled' →
      top ≤ esp' ∨ top' ≤ esp

/-- All entries from ring 3 use the stack that ends at `__kernel_stack_end`. -/
structure OneStack (stackEnd : Nat) (s : Stacks) : Prop where
  esp0 : s.kernel.esp0 = stackEnd
  mode : ∀ t top esp enabled, s.mode t = .syscall top esp enabled →
    top = stackEnd ∧ esp + entryFrameSize ≤ top

/-- After `kgdt_init`, no task has made a syscall. -/
structure FreshStacks (stackEnd : Nat) (s : Stacks) : Prop where
  esp0 : s.kernel.esp0 = stackEnd
  mode : ∀ t top esp enabled, s.mode t ≠ .syscall top esp enabled

/-- A syscall is entered only while no other task is in one. -/
def SyscallAlone (s : Stacks) : StackEvent → Prop
  | .syscall => ∀ t, t ≠ s.current → ∀ top esp enabled, s.mode t ≠ .syscall top esp enabled
  | _ => True

/-- The tick saves the interrupted stack pointer of a task in ring 0. -/
theorem interruptedFrame_ring0 {m : Mem} {esp : Nat} (hesp : sizeofIsrRegisters ≤ esp)
    (hring : isrField m (esp - sizeofIsrRegisters) .cs % 4 = 0) :
    interruptedFrame m (esp - sizeofIsrRegisters) .esp = esp := by
  rw [interruptedFrame, if_pos rfl, if_neg (by omega)]
  omega

/-! ## Steps -/

/-- What a step can do. -/
inductive StackStep (stackEnd : Nat) (s : Stacks) : StackEvent → Stacks → Prop where
  | syscall (h : s.mode s.current = .user) : StackStep stackEnd s .syscall
      (s.setMode (.syscall s.kernel.esp0 (s.kernel.esp0 - entryFrameSize) false))
  /-- A task in a syscall stays there, on its stack. -/
  | inside {e : StackEvent} {top esp esp' : Nat} {enabled enabled' : Bool}
      (h : s.mode s.current = .syscall top esp enabled)
      (hesp : esp' = esp ∨ esp' + entryFrameSize ≤ top) :
      StackStep stackEnd s e (s.setMode (.syscall top esp' enabled'))
  | sysret : StackStep stackEnd s .sysret (s.setMode .user)
  | timer {m : Mem} {s' : Stacks} (hmode : s'.mode = s.mode)
      (hesp0 : s'.kernel.esp0 = s.kernel.esp0 ∨ s'.kernel.esp0 = stackEnd) :
      StackStep stackEnd s (.timer m) s'

section Steps

variable {stackEnd fuel : Nat} {s s' : Stacks} {e : StackEvent}

theorem irqTimer_esp0 {t t' : Timer} {k k' : Kernel} {regs : Nat} {o : TimerOutcome}
    (h : irqTimer stackEnd fuel t k regs = some (o, t', k')) :
    k'.esp0 = k.esp0 ∨ k'.esp0 = stackEnd := by
  rw [irqTimer] at h
  split_ifs at h with hthird
  · obtain ⟨⟨left, k''⟩, htick, hk⟩ := Option.map_eq_some_iff.1 h
    simp only [Prod.mk.injEq] at hk
    obtain ⟨-, -, rfl⟩ := hk
    exact kschedulerTick_esp0 htick
  · simp only [Option.some.injEq, Prod.mk.injEq] at h
    obtain ⟨-, -, rfl⟩ := h
    exact Or.inl rfl

theorem stackEvent_step (h : stackEvent stackEnd fuel s e = some s') :
    StackStep stackEnd s e s' := by
  cases e with
  | syscall =>
    simp only [stackEvent] at h
    split at h
    · next hmode =>
      obtain rfl := Option.some.inj h
      exact .syscall hmode
    · cases h
  | call esp =>
    simp only [stackEvent] at h
    split at h
    · next hmode =>
      split_ifs at h with hesp
      obtain rfl := Option.some.inj h
      exact .inside hmode (Or.inr hesp)
    · cases h
  | enable =>
    simp only [stackEvent] at h
    split at h
    · next hmode =>
      obtain rfl := Option.some.inj h
      exact .inside hmode (Or.inl rfl)
    · cases h
  | sysret =>
    simp only [stackEvent] at h
    split at h
    · obtain rfl := Option.some.inj h
      exact .sysret
    · cases h
  | timer m =>
    simp only [stackEvent] at h
    split_ifs at h
    cases hirq : irqTimer stackEnd fuel s.timer (s.kernel.withMem m) s.regs with
    | none => simp [hirq] at h
    | some r =>
      obtain ⟨o, t, k⟩ := r
      have hesp0 := irqTimer_esp0 hirq
      rw [hirq] at h
      cases o with
      | panics => cases h
      | _ =>
        rw [← Option.some.inj h]
        exact .timer rfl hesp0

/-- The mode of a task after the current one has changed its mode. -/
theorem mode_setMode {t : Nat} {mode : Mode} :
    (s.setMode mode).mode t = if t = s.current then mode else s.mode t :=
  Function.update_apply ..

/-- Every step keeps the tasks on the one stack. -/
theorem oneStack_step (hstack : entryFrameSize ≤ stackEnd) (hs : OneStack stackEnd s)
    (h : StackStep stackEnd s e s') : OneStack stackEnd s' := by
  -- a task that is in a syscall on the one stack afterwards
  have hset : ∀ mode, (∀ top esp enabled, mode = .syscall top esp enabled →
      top = stackEnd ∧ esp + entryFrameSize ≤ top) → OneStack stackEnd (s.setMode mode) := by
    intro mode hmode
    refine ⟨hs.esp0, ?_⟩
    intro t top esp enabled ht
    rw [mode_setMode] at ht
    split_ifs at ht
    · exact hmode top esp enabled ht
    · exact hs.mode t top esp enabled ht
  cases h with
  | syscall hmode =>
    apply hset
    rintro top esp enabled ⟨⟩
    rw [hs.esp0]
    exact ⟨rfl, Nat.sub_add_cancel hstack ▸ le_rfl⟩
  | inside hmode hesp =>
    apply hset
    rintro top esp enabled ⟨⟩
    have hold := hs.mode _ _ _ _ hmode
    refine ⟨hold.1, ?_⟩
    rcases hesp with rfl | hesp
    · exact hold.2
    · exact hesp
  | sysret =>
    apply hset
    rintro top esp enabled ⟨⟩
  | timer hmode hesp0 =>
    refine ⟨hesp0.elim (fun h => h.trans hs.esp0) id, ?_⟩
    rw [hmode]
    exact hs.mode

/-- At most one task is in a syscall. -/
def AloneInside (s : Stacks) : Prop :=
  ∀ t u, ∀ top esp enabled top' esp' enabled', s.mode t = .syscall top esp enabled →
    s.mode u = .syscall top' esp' enabled' → t = u

/-- This is so as long as no task enters a syscall while another is in one. -/
theorem aloneInside_step (hs : AloneInside s) (hok : SyscallAlone s e)
    (h : StackStep stackEnd s e s') : AloneInside s' := by
  cases h with
  | syscall hmode =>
    intro t u top esp enabled top' esp' enabled' ht hu
    rw [mode_setMode] at ht hu
    split_ifs at ht hu with htc huc huc
    · exact htc.trans huc.symm
    · exact absurd hu (hok u huc _ _ _)
    · exact absurd ht (hok t htc _ _ _)
    · exact hs t u _ _ _ _ _ _ ht hu
  | inside hmode hesp =>
    intro t u top esp enabled top' esp' enabled' ht hu
    rw [mode_setMode] at ht hu
    split_ifs at ht hu with htc huc huc
    · exact htc.trans huc.symm
    · exact htc.trans (hs _ u _ _ _ _ _ _ hmode hu)
    · exact (hs t _ _ _ _ _ _ _ ht hmode).trans huc.symm
    · exact hs t u _ _ _ _ _ _ ht hu
  | sysret =>
    intro t u top esp enabled top' esp' enabled' ht hu
    rw [mode_setMode] at ht hu
    split_ifs at ht hu
    exact hs t u _ _ _ _ _ _ ht hu
  | timer hmode hesp0 =>
    intro t u top esp enabled top' esp' enabled' ht hu
    rw [hmode] at ht hu
    exact hs t u _ _ _ _ _ _ ht hu

end Steps

/-! ## Runs -/

section Runs

variable {stackEnd fuel : Nat} {s₀ s : Stacks} {es : List StackEvent}

/-- On the one stack, two suspended tasks overlap. -/
theorem private_iff (hs : OneStack stackEnd s) :
    s.Private ↔ ∀ t u, s.Suspended t → s.Suspended u → t = u := by
  constructor
  · rintro hpriv t u ⟨ht, top, esp, enabled, hmt⟩ ⟨hu, top', esp', enabled', hmu⟩
    by_contra hne
    obtain ⟨rfl, hesp⟩ := hs.mode t _ _ _ hmt
    obtain ⟨rfl, hesp'⟩ := hs.mode u _ _ _ hmu
    have := hpriv t u hne ht hu _ _ _ _ _ _ hmt hmu
    simp only [entryFrameSize] at hesp hesp'
    omega
  · intro hone t u hne ht hu top esp enabled top' esp' enabled' hmt hmu
    exact absurd (hone t u ⟨ht, _, _, _, hmt⟩ ⟨hu, _, _, _, hmu⟩) hne

/-- **The stacks of suspended tasks.**  In every run, the stack regions of suspended tasks are
disjoint when and only when at most one task is suspended in a syscall; in runs where no task enters
a syscall while another is in one, they are disjoint. -/
theorem stacks_private (hstack : entryFrameSize ≤ stackEnd) (hfresh : FreshStacks stackEnd s₀)
    (hrun : run (stackEvent stackEnd fuel) s₀ es = some s) :
    (s.Private ↔ ∀ t u, s.Suspended t → s.Suspended u → t = u) ∧
      (Admissible (stackEvent stackEnd fuel) SyscallAlone s₀ es → s.Private) := by
  have hstart : OneStack stackEnd s₀ :=
    ⟨hfresh.esp0, fun t top esp enabled h => absurd h (hfresh.mode t _ _ _)⟩
  have hone : OneStack stackEnd s := run_invariant
    (fun _ _ _ hs _ h => oneStack_step hstack hs (stackEvent_step h)) hstart
    (admissible_of_forall (fun _ _ => trivial) s₀ es) hrun
  refine ⟨private_iff hone, fun hadm => (private_iff hone).2 ?_⟩
  have halone : AloneInside s := run_invariant
    (fun _ _ _ hs hok h => aloneInside_step hs hok (stackEvent_step h))
    (fun t u _ _ _ _ _ _ ht _ => absurd ht (hfresh.mode t _ _ _)) hadm hrun
  rintro t u ⟨-, _, _, _, ht⟩ ⟨-, _, _, _, hu⟩
  exact halone t u _ _ _ _ _ _ ht hu

end Runs

/-! ## Two processes that wait for the keyboard -/

/-- Three tasks in a ring: one of the kernel and two of user processes, the first of which runs. -/
def keyboardTasks : Sched := (Sched.boot fun _ => 0).addTasks [0xC0800000, 0xC0800100, 0xC0800200]

def keyboardStart : Stacks where
  kernel :=
    { sched := { keyboardTasks with ktaskCurrent := 0xC0800100 }
      cpu := ⟨fun _ => 0, fun _ => 0, 0, 0, false⟩
      cr3 := 0
      esp0 := 0xC0108000 }
  timer := ⟨0, 0, 0⟩
  mode t := if t = 0xC0800000 then .kernelTask 0xC0900000 else .user

/-- A read of the keyboard that waits until the third timer interrupt switches away. -/
def waitForKey : List StackEvent :=
  [.syscall, .call 0xC0107E00, .enable, .timer keyboardTasks.mem, .timer keyboardTasks.mem,
    .timer keyboardTasks.mem]

def stacksAfter (es : List StackEvent) : Stacks :=
  (run (stackEvent 0xC0108000 3) keyboardStart es).getD keyboardStart

theorem keyboardStart_fresh : FreshStacks 0xC0108000 keyboardStart := by
  refine ⟨rfl, fun t top esp enabled => ?_⟩
  simp only [keyboardStart]
  split_ifs <;> simp

/-- While the first process waits for a key, the second one enters the kernel on the same stack and
waits, too: the frames of both are on the same bytes. -/
theorem stacks_overlap :
    FreshStacks 0xC0108000 keyboardStart ∧
      (run (stackEvent 0xC0108000 3) keyboardStart (waitForKey ++ waitForKey)).isSome ∧
      ¬(stacksAfter (waitForKey ++ waitForKey)).Private := by
  refine ⟨keyboardStart_fresh, by decide +kernel, fun hpriv => ?_⟩
  have h := hpriv 0xC0800100 0xC0800200 (by decide) (by decide +kernel) (by decide +kernel)
    0xC0108000 0xC0107E00 true 0xC0108000 0xC0107E00 true (by decide +kernel)
    (by decide +kernel)
  revert h
  decide

/-- One process that waits is alone in the kernel. -/
theorem stacks_private_waitForKey : (stacksAfter waitForKey).Private := by
  have hsome : (run (stackEvent 0xC0108000 3) keyboardStart waitForKey).isSome := by
    decide +kernel
  have hrun : run (stackEvent 0xC0108000 3) keyboardStart waitForKey =
      some (stacksAfter waitForKey) := by
    rw [stacksAfter, ← Option.get_eq_getD _ (h := hsome), Option.some_get]
  refine (stacks_private (by decide) keyboardStart_fresh hrun).2 ⟨?_, fun s _ => ?_⟩
  · intro t ht top esp enabled
    exact keyboardStart_fresh.mode t top esp enabled
  · exact ⟨trivial, fun _ _ => ⟨trivial, fun _ _ => ⟨trivial, fun _ _ => ⟨trivial, fun _ _ =>
      ⟨trivial, fun _ _ => trivial⟩⟩⟩⟩⟩

end DelOs
