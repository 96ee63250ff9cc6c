import DelOs.Lib.RingBuffer
import DelOs.Lib.Transition

/-!
# The keyboard buffer

The interrupt handler pushes the keys into a buffer of 128 bytes, `src/kernel/interruption/irq`, and
`kkeyboard_getchar` of `src/kernel/misc/keyboard.c` pops them.  An index outside the buffer gives
`none`.

* `kkeyboardPush`, `kkeyboardPop`, `kkeyboardGetchar` — the functions of those names.
* `Trace` — the buffer with the bytes that it has accepted, and the ones taken from it.
* `Fifo`, `Fifo.step` — **what is taken and what is pending is what was accepted, in order.**
* `GotAll` — what `kkeyboard_getchar` has returned is what was taken.
* `keyboard_fifo` — both, for every order of the calls.
-/

namespace DelOs.Keyboard

open RingBuffer Transition

/-! ## The buffer -/

def KEYBOARD_BUFFER_SIZE : Nat := 128

/-- `keyboard_buffer`, `keyboard_head` and `keyboard_tail`. -/
structure Buffer where
  bytes : List UInt8
  head : Nat
  tail : Nat
  deriving DecidableEq, Repr

/-- `kkeyboard_push`. -/
def kkeyboardPush (k : Buffer) (c : UInt8) : Option Buffer :=
  let next := (k.head + 1) % KEYBOARD_BUFFER_SIZE
  if next ≠ k.tail then
    if k.head < k.bytes.length then some { k with bytes := k.bytes.set k.head c, head := next }
    else none
  else some k

/-- `kkeyboard_pop`: an `int8_t` becomes an `int32_t`. -/
def kkeyboardPop (k : Buffer) : Option (Int × Buffer) :=
  if k.head = k.tail then some (-1, k)
  else do
    let c ← k.bytes[k.tail]?
    return (c.toInt8.toInt, { k with tail := (k.tail + 1) % KEYBOARD_BUFFER_SIZE })

/-- The buffer at the start. -/
def initial : Buffer := ⟨List.replicate KEYBOARD_BUFFER_SIZE 0, 0, 0⟩

/-! ## Histories -/

/-- The buffer, the bytes of the pushes that it has accepted, and the bytes that pops have taken. -/
structure Trace where
  buffer : Buffer
  accepted : List UInt8
  taken : List UInt8

/-- The byte of a `char`. -/
def byteOf (v : Int) : UInt8 := UInt8.ofNat (v % 2 ^ 8).toNat

/-- A push; it was accepted if it has moved the head. -/
def Trace.push (t : Trace) (c : UInt8) : Option Trace := do
  let k ← kkeyboardPush t.buffer c
  return { t with buffer := k, accepted := if k = t.buffer then t.accepted else t.accepted ++ [c] }

/-- A pop; it has taken something if it has moved the tail. -/
def Trace.pop (t : Trace) : Option (Int × Trace) := do
  let (v, k) ← kkeyboardPop t.buffer
  return (v, { t with
    buffer := k, taken := if k = t.buffer then t.taken else t.taken ++ [byteOf v] })

/-- A call, made as one step. -/
inductive Event
  | push (c : UInt8)
  | pop
  deriving DecidableEq, Repr

def Trace.step (t : Trace) : Event → Option Trace
  | .push c => t.push c
  | .pop => t.pop.map Prod.snd

/-- Nothing has happened. -/
def start : Trace := ⟨initial, [], []⟩

/-! ## `kkeyboard_getchar` -/

/-- The pushes of the interrupts during one halt. -/
def Trace.pushes (t : Trace) : List UInt8 → Option Trace
  | [] => some t
  | c :: cs => do
    let t ← t.push c
    t.pushes cs

/-- The loop of `kkeyboard_getchar`, with the pushes of each halt in turn: the `char` that it
returns, or nothing as long as it is still waiting behind the last of them. -/
def kkeyboardGetchar (t : Trace) : List (List UInt8) → Option (Option UInt8 × Trace)
  | [] => do
    let (v, t) ← t.pop
    return (if byteOf v = 0xff then none else some (byteOf v), t)
  | halt :: halts => do
    let (v, t) ← t.pop
    if byteOf v = 0xff then
      let t ← t.pushes halt
      kkeyboardGetchar t halts
    else return (some (byteOf v), t)

/-- A push, or a call of `kkeyboard_getchar` with the pushes of its halts. -/
inductive KeyUse
  | press (c : UInt8)
  | getchar (halts : List (List UInt8))
  deriving DecidableEq, Repr

/-- A history with what `kkeyboard_getchar` has returned. -/
structure Reading where
  trace : Trace
  returned : List UInt8

def Reading.step (r : Reading) : KeyUse → Option Reading
  | .press c => do
    let t ← r.trace.push c
    return { r with trace := t }
  | .getchar halts => do
    let (c, t) ← kkeyboardGetchar r.trace halts
    return ⟨t, r.returned ++ c.toList⟩

/-! ## The queue -/

/-- **What is taken and what is pending is what was accepted, in order.** -/
structure Fifo (t : Trace) : Prop where
  size : t.buffer.bytes.length = KEYBOARD_BUFFER_SIZE
  head_lt : t.buffer.head < KEYBOARD_BUFFER_SIZE
  tail_lt : t.buffer.tail < KEYBOARD_BUFFER_SIZE
  fifo : t.taken ++ pending t.buffer.bytes t.buffer.head t.buffer.tail = t.accepted

theorem Fifo.start : Fifo start := by
  refine ⟨List.length_replicate, Nat.succ_pos _, Nat.succ_pos _, ?_⟩
  rfl

variable {t : Trace}

theorem Fifo.head_lt_length (h : Fifo t) : t.buffer.head < t.buffer.bytes.length :=
  h.head_lt.trans_eq h.size.symm

theorem Fifo.tail_lt_length (h : Fifo t) : t.buffer.tail < t.buffer.bytes.length :=
  h.tail_lt.trans_eq h.size.symm

theorem Fifo.taken_prefix (h : Fifo t) : t.taken <+: t.accepted := ⟨_, h.fifo⟩

theorem Fifo.length (h : Fifo t) : t.accepted.length =
    t.taken.length + (pending t.buffer.bytes t.buffer.head t.buffer.tail).length := by
  rw [← h.fifo, List.length_append]

/-- A push onto a full buffer. -/
theorem Fifo.push_full (h : Fifo t)
    (hfull : next KEYBOARD_BUFFER_SIZE t.buffer.head = t.buffer.tail) (c : UInt8) :
    kkeyboardPush t.buffer c = some t.buffer := by
  rw [kkeyboardPush, next_eq_mod h.head_lt, if_neg (not_not.2 hfull)]

/-- A push onto a buffer with room. -/
theorem Fifo.push_room (h : Fifo t)
    (hroom : next KEYBOARD_BUFFER_SIZE t.buffer.head ≠ t.buffer.tail) (c : UInt8) :
    kkeyboardPush t.buffer c = some { t.buffer with
      bytes := t.buffer.bytes.set t.buffer.head c
      head := next KEYBOARD_BUFFER_SIZE t.buffer.head } := by
  rw [kkeyboardPush, next_eq_mod h.head_lt, if_pos hroom, if_pos h.head_lt_length]

theorem next_ne (i : Nat) : next KEYBOARD_BUFFER_SIZE i ≠ i := by
  unfold next KEYBOARD_BUFFER_SIZE
  split_ifs <;> omega

/-- A push or a pop that does something moves its index. -/
theorem pushed_ne (k : Buffer) (bytes : List UInt8) :
    { k with bytes := bytes, head := next KEYBOARD_BUFFER_SIZE k.head } ≠ k :=
  fun heq => next_ne _ (congrArg Buffer.head heq)

theorem popped_ne (k : Buffer) : { k with tail := next KEYBOARD_BUFFER_SIZE k.tail } ≠ k :=
  fun heq => next_ne _ (congrArg Buffer.tail heq)

/-- **A push is dropped exactly if 127 bytes are pending.** -/
theorem Fifo.push_dropped_iff (h : Fifo t) (c : UInt8) :
    ∃ k, kkeyboardPush t.buffer c = some k ∧
      (k = t.buffer ↔ t.accepted.length = t.taken.length + 127) := by
  have hcount : t.accepted.length = t.taken.length + 127 ↔
      next KEYBOARD_BUFFER_SIZE t.buffer.head = t.buffer.tail := by
    rw [← h.size, ← length_pending_eq_iff h.head_lt_length h.tail_lt_length, h.size, h.length,
      KEYBOARD_BUFFER_SIZE]
    omega
  rw [hcount]
  by_cases hfull : next KEYBOARD_BUFFER_SIZE t.buffer.head = t.buffer.tail
  · exact ⟨_, h.push_full hfull c, iff_of_true rfl hfull⟩
  · exact ⟨_, h.push_room hfull c, iff_of_false (pushed_ne _ _) hfull⟩

/-- **A push keeps the order.** -/
theorem Fifo.push (h : Fifo t) (c : UInt8) :
    ∃ t', t.push c = some t' ∧ Fifo t' ∧ t'.taken = t.taken ∧ t.accepted <+: t'.accepted := by
  by_cases hfull : next KEYBOARD_BUFFER_SIZE t.buffer.head = t.buffer.tail
  · refine ⟨t, ?_, h, rfl, List.prefix_rfl⟩
    rw [Trace.push, h.push_full hfull]
    simp
  · refine ⟨{ t with
        buffer := { t.buffer with
          bytes := t.buffer.bytes.set t.buffer.head c
          head := next KEYBOARD_BUFFER_SIZE t.buffer.head }
        accepted := t.accepted ++ [c] }, ?_, ⟨?_, next_lt h.head_lt, h.tail_lt, ?_⟩, rfl,
      List.prefix_append _ _⟩
    · rw [Trace.push, h.push_room hfull, Option.bind_eq_bind, Option.bind_some,
        if_neg (pushed_ne _ _)]
      rfl
    · exact List.length_set.trans h.size
    · have hpending := pending_push c h.head_lt_length h.tail_lt_length (by rwa [h.size])
      rw [h.size] at hpending
      show t.taken ++ pending _ _ _ = t.accepted ++ [c]
      rw [hpending, ← List.append_assoc, h.fifo]

theorem byteOf_ofNat : ∀ n < 256, byteOf (UInt8.ofNat n).toInt8.toInt = UInt8.ofNat n := by
  decide +kernel

/-- The byte that is popped is the one that was pushed. -/
theorem byteOf_char (c : UInt8) : byteOf c.toInt8.toInt = c := by
  have h := byteOf_ofNat c.toNat c.toNat_lt
  rwa [UInt8.ofNat_toNat] at h

/-- A pop from a buffer with a byte in it. -/
theorem Fifo.pop_some (h : Fifo t) (hsome : t.buffer.head ≠ t.buffer.tail) :
    ∃ c, kkeyboardPop t.buffer = some (c.toInt8.toInt,
        { t.buffer with tail := next KEYBOARD_BUFFER_SIZE t.buffer.tail }) ∧
      pending t.buffer.bytes t.buffer.head t.buffer.tail =
        c :: pending t.buffer.bytes t.buffer.head (next KEYBOARD_BUFFER_SIZE t.buffer.tail) := by
  have htail := h.tail_lt_length
  have hpending := pending_pop h.head_lt_length htail hsome
  rw [h.size] at hpending
  refine ⟨t.buffer.bytes[t.buffer.tail], ?_, hpending⟩
  rw [kkeyboardPop, if_neg hsome, List.getElem?_eq_getElem htail, next_eq_mod h.tail_lt]
  rfl

/-- **A pop takes nothing exactly if nothing is pending**, and then it says so. -/
theorem Fifo.pop_nothing_iff (h : Fifo t) :
    ∃ v k, kkeyboardPop t.buffer = some (v, k) ∧ (k = t.buffer ↔ t.accepted = t.taken) ∧
      (k = t.buffer → v = -1) := by
  have hnil : t.accepted = t.taken ↔ t.buffer.head = t.buffer.tail := by
    rw [← pending_eq_nil_iff h.tail_lt_length, ← h.fifo]
    simp
  rw [hnil]
  by_cases hempty : t.buffer.head = t.buffer.tail
  · exact ⟨-1, t.buffer, if_pos hempty, iff_of_true rfl hempty, fun _ => rfl⟩
  · obtain ⟨c, hpop, -⟩ := h.pop_some hempty
    exact ⟨_, _, hpop, iff_of_false (popped_ne _) hempty, fun heq => absurd heq (popped_ne _)⟩

/-- **A pop keeps the order**: it takes the next byte, or there is none. -/
theorem Fifo.pop (h : Fifo t) :
    ∃ v t', t.pop = some (v, t') ∧ Fifo t' ∧ t'.accepted = t.accepted ∧
      (t'.taken = t.taken ++ [byteOf v] ∨ v = -1 ∧ t'.taken = t.taken ∧ t.taken = t.accepted) := by
  by_cases hempty : t.buffer.head = t.buffer.tail
  · have hnil := (pending_eq_nil_iff h.tail_lt_length).2 hempty
    refine ⟨-1, t, ?_, h, rfl, .inr ⟨rfl, rfl, ?_⟩⟩
    · rw [Trace.pop, kkeyboardPop, if_pos hempty]
      simp
    · rw [← h.fifo, hnil, List.append_nil]
  · obtain ⟨c, hpop, hpending⟩ := h.pop_some hempty
    refine ⟨c.toInt8.toInt, { t with
        buffer := { t.buffer with tail := next KEYBOARD_BUFFER_SIZE t.buffer.tail }
        taken := t.taken ++ [byteOf c.toInt8.toInt] }, ?_,
      ⟨h.size, h.head_lt, next_lt h.tail_lt, ?_⟩, rfl, .inl rfl⟩
    · rw [Trace.pop, hpop, Option.bind_eq_bind, Option.bind_some]
      simp [popped_ne t.buffer]
    · show (t.taken ++ [byteOf _]) ++ pending _ _ _ = t.accepted
      rw [byteOf_char, List.append_assoc, List.singleton_append, ← hpending, h.fifo]

/-- One call, whichever it is. -/
theorem Fifo.step (h : Fifo t) (e : Event) : ∃ t', t.step e = some t' ∧ Fifo t' := by
  cases e with
  | push c =>
    obtain ⟨t', ht', hfifo, -⟩ := h.push c
    exact ⟨t', ht', hfifo⟩
  | pop =>
    obtain ⟨v, t', ht', hfifo, -⟩ := h.pop
    exact ⟨t', by rw [Trace.step, ht']; rfl, hfifo⟩

/-! ## Reading -/

/-- The pushes of a halt. -/
theorem Fifo.pushes (h : Fifo t) (cs : List UInt8) :
    ∃ t', t.pushes cs = some t' ∧ Fifo t' ∧ t'.taken = t.taken ∧ t.accepted <+: t'.accepted := by
  induction cs generalizing t with
  | nil => exact ⟨t, rfl, h, rfl, List.prefix_rfl⟩
  | cons c cs ih =>
    obtain ⟨mid, hmid, hfifo, htaken, haccepted⟩ := h.push c
    obtain ⟨t', ht', hfifo', htaken', haccepted'⟩ := ih hfifo
    refine ⟨t', ?_, hfifo', htaken'.trans htaken, haccepted.trans haccepted'⟩
    rw [Trace.pushes, hmid]
    exact ht'

/-- The byte that is taken for "nothing". -/
theorem byteOf_nothing : byteOf (-1) = 0xff := by decide

/-- A pop by its `char`: if no byte is 0xFF, that one says that there is nothing. -/
theorem Fifo.pop_char (h : Fifo t) :
    ∃ v t', t.pop = some (v, t') ∧ Fifo t' ∧ t'.accepted = t.accepted ∧
      (0xff ∉ t.accepted → if byteOf v = 0xff then t'.taken = t.taken ∧ t'.taken = t'.accepted
        else t'.taken = t.taken ++ [byteOf v]) := by
  obtain ⟨v, t', hpop, hfifo, haccepted, htaken | ⟨rfl, htaken, hall⟩⟩ := h.pop
  · refine ⟨v, t', hpop, hfifo, haccepted, fun hclean => ?_⟩
    have hmem : byteOf v ∈ t.accepted := by
      rw [← haccepted]
      refine hfifo.taken_prefix.subset ?_
      rw [htaken]
      exact List.mem_append_right _ (List.mem_singleton_self _)
    rw [if_neg fun heq : byteOf v = 0xff => hclean (heq ▸ hmem)]
    exact htaken
  · refine ⟨-1, t', hpop, hfifo, haccepted, fun _ => ?_⟩
    rw [if_pos byteOf_nothing]
    exact ⟨htaken, by rw [htaken, hall, haccepted]⟩

/-- **`kkeyboard_getchar` returns the byte that it takes**, if none is 0xFF, and waits only while
nothing is pending. -/
theorem Fifo.getchar (h : Fifo t) (halts : List (List UInt8)) :
    ∃ c t', kkeyboardGetchar t halts = some (c, t') ∧ Fifo t' ∧ t.accepted <+: t'.accepted ∧
      (0xff ∉ t'.accepted → t'.taken = t.taken ++ c.toList ∧
        (c = none → t'.taken = t'.accepted)) := by
  induction halts generalizing t with
  | nil =>
    obtain ⟨v, mid, hpop, hfifo, haccepted, hread⟩ := h.pop_char
    rw [kkeyboardGetchar, hpop, Option.bind_eq_bind, Option.bind_some]
    refine ⟨_, mid, rfl, hfifo, haccepted ▸ List.prefix_rfl, fun hclean => ?_⟩
    have := hread (haccepted ▸ hclean)
    by_cases hv : byteOf v = 0xff
    · rw [if_pos hv] at this ⊢
      exact ⟨this.1.trans (List.append_nil _).symm, fun _ => this.2⟩
    · rw [if_neg hv] at this ⊢
      exact ⟨this, fun hnone => nomatch hnone⟩
  | cons halt halts ih =>
    obtain ⟨v, mid, hpop, hfifo, haccepted, hread⟩ := h.pop_char
    rw [kkeyboardGetchar, hpop, Option.bind_eq_bind, Option.bind_some]
    by_cases hv : byteOf v = 0xff
    · obtain ⟨woken, hwoken, hfifo', htaken', hgrown⟩ := hfifo.pushes halt
      obtain ⟨c, t', hrest, hfifo'', hgrown', hread'⟩ := ih hfifo'
      rw [haccepted] at hgrown
      refine ⟨c, t', ?_, hfifo'', hgrown.trans hgrown', fun hclean => ?_⟩
      · refine (if_pos hv).trans ?_
        rw [hwoken]
        exact hrest
      · have hnone := hread fun hmem => hclean ((hgrown.trans hgrown').subset hmem)
        rw [if_pos hv] at hnone
        rw [← hnone.1, ← htaken']
        exact hread' hclean
    · refine ⟨some (byteOf v), mid, if_neg hv, hfifo, haccepted ▸ List.prefix_rfl,
        fun hclean => ?_⟩
      have := hread (haccepted ▸ hclean)
      rw [if_neg hv] at this
      exact ⟨this, fun hnone => nomatch hnone⟩

/-- **What `kkeyboard_getchar` has returned is what was taken**, if no byte is 0xFF. -/
structure GotAll (r : Reading) : Prop where
  fifo : Fifo r.trace
  returned_eq : 0xff ∉ r.trace.accepted → r.returned = r.trace.taken

theorem GotAll.start : GotAll ⟨start, []⟩ := ⟨Fifo.start, fun _ => rfl⟩

variable {r : Reading}

/-- A key, or a call of `kkeyboard_getchar`. -/
theorem GotAll.step (h : GotAll r) (use : KeyUse) : ∃ r', r.step use = some r' ∧ GotAll r' := by
  cases use with
  | press c =>
    obtain ⟨t', ht', hfifo, htaken, hgrown⟩ := h.fifo.push c
    refine ⟨⟨t', r.returned⟩, by rw [Reading.step, ht']; rfl, hfifo, fun hclean => ?_⟩
    exact (h.returned_eq fun hmem => hclean (hgrown.subset hmem)).trans htaken.symm
  | getchar halts =>
    obtain ⟨c, t', ht', hfifo, hgrown, hread⟩ := h.fifo.getchar halts
    refine ⟨⟨t', r.returned ++ c.toList⟩, by rw [Reading.step, ht']; rfl, hfifo,
      fun hclean => ?_⟩
    have hbefore := h.returned_eq fun hmem => hclean (hgrown.subset hmem)
    calc r.returned ++ c.toList = r.trace.taken ++ c.toList := by rw [hbefore]
      _ = t'.taken := (hread hclean).1.symm

/-- What the next call returns goes on with the accepted bytes, and it waits only if all of them
have been returned. -/
theorem GotAll.next (h : GotAll r) (halts : List (List UInt8)) :
    ∃ c t', kkeyboardGetchar r.trace halts = some (c, t') ∧
      (0xff ∉ t'.accepted → r.returned ++ c.toList <+: t'.accepted ∧
        (c = none → r.returned = t'.accepted)) := by
  obtain ⟨c, t', ht', hfifo, hgrown, hread⟩ := h.fifo.getchar halts
  refine ⟨c, t', ht', fun hclean => ?_⟩
  obtain ⟨htaken, hnone⟩ := hread hclean
  have hbefore := h.returned_eq fun hmem => hclean (hgrown.subset hmem)
  rw [hbefore, ← htaken]
  refine ⟨hfifo.taken_prefix, ?_⟩
  rintro rfl
  rw [← hnone rfl, htaken]
  exact (List.append_nil _).symm

/-- **The keyboard buffer is a queue.**  After every order of pushes and pops, the bytes taken are
the first ones of those accepted; a push is dropped exactly if 127 of them are pending, and a pop
takes nothing exactly if none is.  After every order of pushes and calls of `kkeyboard_getchar`
without a byte 0xFF, the ones returned are the first ones accepted, and so it goes on. -/
theorem keyboard_fifo :
    (∀ events : List Event, ∃ t, run Trace.step start events = some t ∧
      t.taken <+: t.accepted ∧
      (∀ c, ∃ k, kkeyboardPush t.buffer c = some k ∧
        (k = t.buffer ↔ t.accepted.length = t.taken.length + 127)) ∧
      ∃ v k, kkeyboardPop t.buffer = some (v, k) ∧ (k = t.buffer ↔ t.accepted = t.taken) ∧
        (k = t.buffer → v = -1)) ∧
    ∀ uses : List KeyUse, ∃ r, run Reading.step ⟨start, []⟩ uses = some r ∧
      (0xff ∉ r.trace.accepted → r.returned <+: r.trace.accepted) ∧
      ∀ halts, ∃ c t', kkeyboardGetchar r.trace halts = some (c, t') ∧
        (0xff ∉ t'.accepted → r.returned ++ c.toList <+: t'.accepted ∧
          (c = none → r.returned = t'.accepted)) := by
  refine ⟨fun events => ?_, fun uses => ?_⟩
  · obtain ⟨t, ht, hfifo⟩ := run_total (fun _ e h _ => Fifo.step h e) Fifo.start
      (admissible_of_forall (fun _ _ => trivial) start events)
    exact ⟨t, ht, hfifo.taken_prefix, hfifo.push_dropped_iff, hfifo.pop_nothing_iff⟩
  · obtain ⟨r, hr, hgot⟩ := run_total (fun _ use h _ => GotAll.step h use) GotAll.start
      (admissible_of_forall (fun _ _ => trivial) _ uses)
    refine ⟨r, hr, fun hclean => ?_, hgot.next⟩
    rw [hgot.returned_eq hclean]
    exact hgot.fifo.taken_prefix

-- a byte 0xFF is taken for "nothing" and lost
example : (run Reading.step ⟨start, []⟩ [.press 0xff, .press 0x61, .getchar [[]]]).map
    Reading.returned = some [0x61] := by decide +kernel

end DelOs.Keyboard
