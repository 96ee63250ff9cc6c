import DelOs.Sched.Scheduler

/-!
# Round robin over the live tasks

What the scheduler's ring looks like and in which order it is walked.

* `TaskRing` — the tasks are linked into a ring from `ktask_head` to `ktask_tail`.
* `TaskRing.add`, `addTasks_ring` — **adding tasks builds the ring in insertion order**.
* `pickNext_eq` — **the pick returns the first live task after the current one**.
* `ring_pick`, `picks_perm` — the picks walk the ring of the live tasks, so that as many picks as
  there are live tasks return each of them once.
-/

namespace DelOs

open ByteMem Ring

/-! ## Building the ring -/

/-- The tasks, linked by `_next` in this order and back, from `ktask_head` to `ktask_tail`. -/
structure TaskRing (s : Sched) (tasks : List Nat) : Prop where
  ring : IsRing (taskNext s.mem) tasks
  head : tasks.head? = some s.ktaskHead
  tail : tasks.getLast? = some s.ktaskTail

/-- The last task of the ring is linked to the first. -/
theorem TaskRing.tail_next {s : Sched} {tasks : List Nat} (h : TaskRing s tasks) :
    taskNext s.mem s.ktaskTail = s.ktaskHead := by
  obtain ⟨l, hl⟩ := List.getLast?_eq_some_iff.1 h.tail
  have hring := h.ring
  have hhead := h.head
  rw [hl] at hring hhead
  have hnext := hring.next_eq
  rw [List.nil_append, hhead] at hnext
  exact (Option.some.inj hnext).symm

namespace Sched

/-- `kscheduler_add_task` for each of the tasks. -/
def addTasks (s : Sched) (tasks : List Nat) : Sched :=
  tasks.foldl (fun s t => (s.kschedulerAddTask t).2) s

end Sched

/-- The first task is a ring of its own. -/
theorem TaskRing.first {s : Sched} {t : Nat} (hhead : s.ktaskHead = 0) (hobj : Objects [t]) :
    (s.kschedulerAddTask t).1 = true ∧ TaskRing (s.kschedulerAddTask t).2 [t] := by
  have ht : t ≠ 0 := hobj.ne_null t List.mem_cons_self
  have hlt : t < 2 ^ 32 := by
    have := hobj.in_memory t List.mem_cons_self
    simp only [sizeofTask] at this
    omega
  simp only [Sched.kschedulerAddTask, if_neg ht, if_pos hhead]
  exact ⟨trivial, IsRing.single (taskNext_setNext_same hlt), rfl, rfl⟩

/-- A further task comes after the last one. -/
theorem TaskRing.add {s : Sched} {tasks : List Nat} {t : Nat} (h : TaskRing s tasks)
    (hobj : Objects (tasks ++ [t])) :
    (s.kschedulerAddTask t).1 = true ∧
      TaskRing (s.kschedulerAddTask t).2 (tasks ++ [t]) := by
  obtain ⟨l, hl⟩ := List.getLast?_eq_some_iff.1 h.tail
  have hmem : s.ktaskHead ∈ tasks := List.mem_of_head? h.head
  have hlt : ∀ u ∈ tasks ++ [t], u < 2 ^ 32 := by
    intro u hu
    have := hobj.in_memory u hu
    simp only [sizeofTask] at this
    omega
  have ht : t ≠ 0 := hobj.ne_null t (by simp)
  have hhead : s.ktaskHead ≠ 0 := hobj.ne_null _ (by simp [hmem])
  have hdisj : ∀ u ∈ tasks, u + sizeofTask ≤ t ∨ t + sizeofTask ≤ u := by
    have := hobj.disjoint
    simp only [List.pairwise_append, List.mem_singleton, forall_eq] at this
    exact this.2.2
  have hlast : ∀ u ∈ l, u + sizeofTask ≤ s.ktaskTail ∨ s.ktaskTail + sizeofTask ≤ u := by
    have := hobj.disjoint
    rw [hl] at this
    simp only [List.pairwise_append, List.mem_singleton, forall_eq] at this
    exact this.1.2.2
  have htail : s.ktaskTail ∈ tasks := by simp [hl]
  have htt := hdisj _ htail
  simp only [Sched.kschedulerAddTask, if_neg ht, if_neg hhead]
  refine ⟨trivial, ?_, ?_, ?_⟩
  · have hring := h.ring
    rw [hl] at hring ⊢
    refine hring.snoc (hl ▸ h.head) ?_ ?_ (taskNext_setNext_same (hlt t (by simp))) ?_
    · rw [← hl]
      intro hin
      have := hdisj t hin
      simp only [sizeofTask] at this
      omega
    · rw [taskNext_setNext_other htt]
      exact taskNext_setNext_same (hlt _ (by simp [hmem]))
    · intro u hu
      rw [taskNext_setNext_other (hlast u hu).symm,
        taskNext_setNext_other (hdisj u (by simp [hl, hu])).symm]
  · simp [h.head]
  · simp

theorem Objects.append_left {l l' : List Nat} (h : Objects (l ++ l')) : Objects l :=
  ⟨fun t ht => h.ne_null t (List.mem_append_left l' ht),
    fun t ht => h.in_memory t (List.mem_append_left l' ht),
    (List.pairwise_append.1 h.disjoint).1⟩

/-- **Adding tasks builds the ring in insertion order.** -/
theorem addTasks_ring {s : Sched} {tasks : List Nat} (hhead : s.ktaskHead = 0)
    (hne : tasks ≠ []) (hobj : Objects tasks) : TaskRing (s.addTasks tasks) tasks := by
  induction tasks using List.reverseRecOn with
  | nil => exact absurd rfl hne
  | append_singleton tasks t ih =>
    rw [Sched.addTasks, List.foldl_append]
    by_cases hnil : tasks = []
    · subst hnil
      exact (TaskRing.first hhead hobj).2
    · exact ((ih hnil hobj.append_left).add hobj).2

/-! ## Picking the next task -/

section Picks

variable {s : Sched} {l₁ l₂ : List Nat} {fuel : Nat}

/-- **The pick returns the first live task after the current one**, which comes last itself; it
returns `NULL` if there is none. -/
theorem pickNext_eq (hne : s.ktaskCurrent ≠ 0)
    (hring : IsRing (taskNext s.mem) (l₁ ++ s.ktaskCurrent :: l₂))
    (hfuel : (l₁ ++ s.ktaskCurrent :: l₂).length ≤ fuel) :
    s.kschedulerPickNext fuel =
      some (((l₂ ++ l₁ ++ [s.ktaskCurrent]).find? (isLive s.mem)).getD 0) := by
  have hlen : (l₂ ++ l₁ ++ [s.ktaskCurrent]).length ≤ fuel := by
    simp only [List.length_append, List.length_cons, List.length_nil] at hfuel ⊢
    omega
  have hstop := search_eq_find hring.path_next
    (P := fun p => isLive s.mem p || p == s.ktaskCurrent)
    ⟨s.ktaskCurrent, by simp, by simp⟩ hlen
  simp only [Sched.kschedulerPickNext, if_neg hne, hstop]
  -- the current task does not come again before the end of the ring
  have hnotin : ∀ t ∈ l₂ ++ l₁, t ≠ s.ktaskCurrent := by
    rintro t ht rfl
    have := hring.nodup
    simp only [List.nodup_append, List.nodup_cons, List.mem_cons] at this
    rcases List.mem_append.1 ht with ht | ht
    · exact this.2.1.1 ht
    · exact this.2.2 _ ht _ (Or.inl rfl) rfl
  have hsame : (l₂ ++ l₁).find? (fun p => isLive s.mem p || p == s.ktaskCurrent) =
      (l₂ ++ l₁).find? (isLive s.mem) := by
    apply List.find?_congr
    intro t ht
    simp [hnotin t ht]
  generalize l₂ ++ l₁ = l at hsame ⊢
  rw [List.find?_append, List.find?_append, hsame]
  cases hfind : l.find? (isLive s.mem) with
  | some t =>
    have hlive := List.find?_some hfind
    simp at hlive
    simp [hlive]
  | none => cases hcur : isZombie s.mem s.ktaskCurrent <;> simp [hcur]

/-- The pick ends, with `NULL` or with a task of the ring. -/
theorem pickNext_mem {tasks : List Nat} (hring : IsRing (taskNext s.mem) tasks)
    (hne : s.ktaskCurrent ≠ 0) (hcur : s.ktaskCurrent ∈ tasks) (hfuel : tasks.length ≤ fuel) :
    ∃ next, s.kschedulerPickNext fuel = some next ∧ (next = 0 ∨ next ∈ tasks) := by
  obtain ⟨l₁, l₂, rfl⟩ := List.append_of_mem hcur
  refine ⟨_, pickNext_eq hne hring hfuel, ?_⟩
  cases hfind : (l₂ ++ l₁ ++ [s.ktaskCurrent]).find? (isLive s.mem) with
  | none => exact Or.inl rfl
  | some t =>
    have := List.mem_of_find?_eq_some hfind
    simp only [List.mem_append, List.mem_cons, List.not_mem_nil, or_false,
      Option.getD_some] at this ⊢
    tauto

/-- The task that a pick returns, by the current task. -/
def picked (s : Sched) (fuel : Nat) (current : Nat) : Nat :=
  (Sched.kschedulerPickNext fuel { s with ktaskCurrent := current }).getD 0

/-- Pick a number of times; each picked task becomes the current one. -/
def Sched.picks (fuel : Nat) : Nat → Sched → Option (List Nat)
  | 0, _ => some []
  | k + 1, s => do
      let next ← s.kschedulerPickNext fuel
      let rest ← picks fuel k { s with ktaskCurrent := next }
      return next :: rest

/-- The picks walk the ring of the live tasks. -/
theorem ring_picked {tasks : List Nat} (hring : IsRing (taskNext s.mem) tasks)
    (hne : ∀ t ∈ tasks, t ≠ 0) (hfuel : tasks.length ≤ fuel)
    (hlive : tasks.filter (isLive s.mem) ≠ []) :
    IsRing (picked s fuel) (tasks.filter (isLive s.mem)) := by
  apply isRing_of_next hlive (hring.nodup.filter _)
  intro f₁ t f₂ hf
  -- where the task is in the ring of all tasks
  obtain ⟨r₁, r, rfl, hr₁, hr⟩ := List.filter_eq_append_iff.1 hf
  obtain ⟨z, r₂, rfl, hz, ht, hr₂⟩ := List.filter_eq_cons_iff.1 hr
  have hsplit : r₁ ++ (z ++ t :: r₂) = (r₁ ++ z) ++ t :: r₂ := by simp
  rw [hsplit] at hring hne hfuel
  have hpick := pickNext_eq (s := { s with ktaskCurrent := t }) (hne t (by simp)) hring hfuel
  have hzf : z.filter (isLive s.mem) = [] := List.filter_eq_nil_iff.2 hz
  have hhead : (f₂ ++ f₁ ++ [t]).head? = (r₂ ++ (r₁ ++ z) ++ [t]).find? (isLive s.mem) := by
    rw [← List.head?_filter]
    simp [List.filter_append, hr₁, hr₂, hzf, ht]
  rw [hhead, picked, hpick]
  cases hfind : (r₂ ++ (r₁ ++ z) ++ [t]).find? (isLive s.mem) with
  | some u => rfl
  | none =>
    have := List.find?_eq_none.1 hfind t (by simp)
    exact absurd ht this

/-- The picks return what one finds when following the ring of the live tasks. -/
theorem picks_eq_iterate {tasks : List Nat} (hring : IsRing (taskNext s.mem) tasks)
    (hne : ∀ t ∈ tasks, t ≠ 0) (hfuel : tasks.length ≤ fuel) {k : Nat} {t : Nat}
    (ht : t ∈ tasks.filter (isLive s.mem)) :
    Sched.picks fuel k { s with ktaskCurrent := t } =
      some (List.iterate (picked s fuel) (picked s fuel t) k) := by
  have hlive := ring_picked hring hne hfuel (List.ne_nil_of_mem ht)
  induction k generalizing t with
  | zero => rfl
  | succ k ih =>
    obtain ⟨l₁, l₂, rfl⟩ := List.append_of_mem (List.mem_of_mem_filter ht)
    have hpick := pickNext_eq (s := { s with ktaskCurrent := t }) (hne t (by simp)) hring hfuel
    have hsome : Sched.kschedulerPickNext fuel { s with ktaskCurrent := t } =
        some (picked s fuel t) := by
      rw [picked, hpick]
      rfl
    obtain ⟨f₁, f₂, hf⟩ := List.append_of_mem ht
    have hnext : picked s fuel t ∈ (l₁ ++ t :: l₂).filter (isLive s.mem) := by
      rw [hf] at hlive ⊢
      have := List.mem_of_head? hlive.next_eq
      simp only [List.mem_append, List.mem_cons, List.not_mem_nil, or_false] at this ⊢
      tauto
    simp only [Sched.picks, hsome, Option.bind_eq_bind, Option.bind_some, List.iterate]
    rw [ih hnext]
    rfl

/-- **As many picks as there are live tasks return each of them once.** -/
theorem picks_perm {tasks : List Nat} (hring : IsRing (taskNext s.mem) tasks)
    (hne : ∀ t ∈ tasks, t ≠ 0) (hfuel : tasks.length ≤ fuel)
    (hcur : s.ktaskCurrent ∈ tasks.filter (isLive s.mem)) :
    ∃ ps, s.picks fuel (tasks.filter (isLive s.mem)).length = some ps ∧
      ps.Perm (tasks.filter (isLive s.mem)) :=
  ⟨_, picks_eq_iterate hring hne hfuel hcur,
    (ring_picked hring hne hfuel (List.ne_nil_of_mem hcur)).iterate_perm hcur⟩

end Picks

/-! ## The round robin -/

/-- **Round robin over the live tasks.**  Tasks that are added one after the other form one ring,
in insertion order; from any task of a ring, whatever the states, the pick ends, returns `NULL`
exactly when all tasks are zombies and otherwise the first live task after the current one; and
from a live task, as many picks as there are live tasks return each of them once. -/
theorem round_robin :
    (∀ (s : Sched) (tasks : List Nat), s.ktaskHead = 0 → tasks ≠ [] → Objects tasks →
      TaskRing (s.addTasks tasks) tasks ∧
        taskNext (s.addTasks tasks).mem (s.addTasks tasks).ktaskTail =
          (s.addTasks tasks).ktaskHead) ∧
    (∀ (s : Sched) (l₁ l₂ : List Nat) (fuel : Nat),
      IsRing (taskNext s.mem) (l₁ ++ s.ktaskCurrent :: l₂) →
      (∀ t ∈ l₁ ++ s.ktaskCurrent :: l₂, t ≠ 0) →
      (l₁ ++ s.ktaskCurrent :: l₂).length ≤ fuel →
      ∃ next, s.kschedulerPickNext fuel = some next ∧
        (next = 0 ↔ ∀ t ∈ l₁ ++ s.ktaskCurrent :: l₂, isZombie s.mem t = true) ∧
        (next ≠ 0 → (l₂ ++ l₁ ++ [s.ktaskCurrent]).find? (isLive s.mem) = some next)) ∧
    (∀ (s : Sched) (tasks : List Nat) (fuel : Nat), IsRing (taskNext s.mem) tasks →
      (∀ t ∈ tasks, t ≠ 0) → tasks.length ≤ fuel →
      s.ktaskCurrent ∈ tasks.filter (isLive s.mem) →
      ∃ ps, s.picks fuel (tasks.filter (isLive s.mem)).length = some ps ∧
        ps.Perm (tasks.filter (isLive s.mem))) := by
  refine ⟨?_, ?_, ?_⟩
  · intro s tasks hhead hne hobj
    have hring := addTasks_ring hhead hne hobj
    exact ⟨hring, hring.tail_next⟩
  · intro s l₁ l₂ fuel hring hne hfuel
    refine ⟨_, pickNext_eq (hne _ (by simp)) hring hfuel, ?_⟩
    cases hfind : (l₂ ++ l₁ ++ [s.ktaskCurrent]).find? (isLive s.mem) with
    | none =>
      refine ⟨⟨fun _ t ht => ?_, fun _ => rfl⟩, fun h => absurd rfl h⟩
      have hmem : t ∈ l₂ ++ l₁ ++ [s.ktaskCurrent] := by
        simp only [List.mem_append, List.mem_cons, List.not_mem_nil, or_false] at ht ⊢
        tauto
      simpa using List.find?_eq_none.1 hfind t hmem
    | some t =>
      have hlive := List.find?_some hfind
      have hmem : t ∈ l₁ ++ s.ktaskCurrent :: l₂ := by
        have := List.mem_of_find?_eq_some hfind
        simp only [List.mem_append, List.mem_cons, List.not_mem_nil, or_false] at this ⊢
        tauto
      refine ⟨⟨fun h => absurd h (hne t hmem), fun h => ?_⟩, fun _ => rfl⟩
      simp [h t hmem] at hlive
  · intro s tasks fuel hring hne hfuel hcur
    exact picks_perm hring hne hfuel hcur

/-- Three tasks, the second one a zombie, when the third is running. -/
def threeTasks : Sched :=
  let s := (Sched.boot fun _ => 0).addTasks [4096, 8192, 12288]
  { s with mem := setState s.mem 8192 .zombie, ktaskCurrent := 12288 }

theorem round_robin_threeTasks :
    (∃ next, threeTasks.kschedulerPickNext 3 = some next ∧ next ≠ 0) ∧
      ∃ ps, threeTasks.picks 3 2 = some ps ∧ ps.Perm [4096, 12288] := by
  have hobj : Objects [4096, 8192, 12288] := ⟨by decide, by decide, by decide⟩
  have hbuilt := (round_robin.1 (Sched.boot fun _ => 0) [4096, 8192, 12288] rfl (by simp) hobj).1
  have hring : IsRing (taskNext threeTasks.mem) [4096, 8192, 12288] := by
    obtain ⟨hnodup, a, ha, hpath⟩ := hbuilt.ring
    refine ⟨hnodup, a, ha, hpath.congr ?_⟩
    decide +kernel
  have hlive : [4096, 8192, 12288].filter (isLive threeTasks.mem) = [4096, 12288] := by
    decide +kernel
  refine ⟨?_, ?_⟩
  · obtain ⟨next, hnext, hnull, -⟩ :=
      round_robin.2.1 threeTasks [4096, 8192] [] 3 hring (by decide +kernel) (by simp)
    refine ⟨next, hnext, fun h => ?_⟩
    have := hnull.1 h 4096 (by simp)
    revert this
    decide +kernel
  · have h := round_robin.2.2 threeTasks [4096, 8192, 12288] 3 hring (by decide) (by simp)
    rw [hlive] at h
    exact h (by decide)

end DelOs
