import DelOs.Shell.LineEditor
import DelOs.Sys.Keyboard

/-!
# From the keys to their characters

`irq_keyboard_press` turns the codes of the keyboard controller into characters, by the layout and
the keys that are held, and `kkeyboard_getchar` takes them out of the buffer.

* `kkeyboardGetKeymapValues`, `irqKeyboardPress`, `KeyState.kkeyboardGetchar` — the functions of
  those names.
* `shiftHeld`, `capsOn`, `typedChar` — what the codes so far say.
* `TypedQueue` — the characters that are typed, in a queue of 127.
* `Types` — the keyboard stands for the queue.
* `keyboard_types` — **for every order of codes and calls, what is read is what was typed**.
-/

namespace DelOs.Keyboard

open RingBuffer Transition
open Shell (bytesOf)

/-! ## The layouts -/

inductive Keymap
  | KKEYMAP_QWERTY
  | KKEYMAP_AZERTY
  deriving DecidableEq, Repr

/-- A table of 128 codes, of which the first ones are given. -/
def scancodeTable (row : List UInt8) : List UInt8 := row ++ List.replicate (128 - row.length) 0

def scancodeToAsciiQwerty : List UInt8 :=
  scancodeTable ([0x00, 27] ++ bytesOf "1234567890-=\x08" ++ bytesOf "\tqwertyuiop[]\n" ++ [0x00] ++
    bytesOf "asdfghjkl;'`" ++ [0x00] ++ bytesOf "\\zxcvbnm,./" ++ [0x00, 0x2a, 0x00, 0x20])

def scancodeToAsciiQwertyShift : List UInt8 :=
  scancodeTable ([0x00, 0x1b] ++ bytesOf "!@#$%^&*()_+\x08" ++ bytesOf "\tQWERTYUIOP\x7b\x7d\n" ++
    [0x00] ++ bytesOf "ASDFGHJKL:\"~" ++ [0x00] ++ bytesOf "|ZXCVBNM<>?" ++
    [0x00, 0x2a, 0x00, 0x20])

def scancodeToAsciiAzerty : List UInt8 :=
  scancodeTable ([0x00, 0x1b, 0x26, 0x82] ++ bytesOf "\"'(-" ++ [0x8a, 0x5f, 0x87, 0x85] ++
    bytesOf ")=\x08" ++ bytesOf "\tazertyuiop^$\n" ++ [0x00] ++ bytesOf "qsdfghjklm" ++
    [0x97, 0x88, 0x00] ++ bytesOf "*wxcvbn,;./" ++ [0x00, 0x2a, 0x00, 0x20])

def scancodeToAsciiAzertyShift : List UInt8 :=
  scancodeTable ([0x00, 0x1b] ++ bytesOf "1234567890" ++ [0xb0] ++ bytesOf "+\x08" ++
    bytesOf "\tAZERTYUIOP" ++ [0xa8, 0xa3, 0x0a, 0x00] ++ bytesOf "QSDFGHJKLM%" ++ [0xb5, 0x00] ++
    bytesOf "*WXCVBN?./" ++ [0xa7, 0x00, 0x2a, 0x00, 0x20])

/-- `kkeyboard_get_keymap_values`. -/
def kkeyboardGetKeymapValues : Keymap → Bool → List UInt8
  | .KKEYMAP_QWERTY, shifted =>
    if shifted then scancodeToAsciiQwertyShift else scancodeToAsciiQwerty
  | .KKEYMAP_AZERTY, shifted =>
    if shifted then scancodeToAsciiAzertyShift else scancodeToAsciiAzerty

/-! ## The interrupt -/

def KEY_LEFT_SHIFT : UInt8 := 0x2a
def KEY_RIGHT_SHIFT : UInt8 := 0x36
def KEY_CAPS_LOCK : UInt8 := 0x3a

/-- `keymap`, `keyboard_buffer` with its indices, `shift_pressed` and `caps_lock_activated`. -/
structure KeyState where
  keymap : Keymap
  buffer : Buffer
  shiftPressed : Bool
  capsLockActivated : Bool

/-- `irq_keyboard_press`, for a code that is read from the controller. -/
def irqKeyboardPress (k : KeyState) (code : UInt8) : Option KeyState :=
  let scancodes := kkeyboardGetKeymapValues k.keymap (k.shiftPressed ^^ k.capsLockActivated)
  if code &&& 0x80 = 0 then
    if code = KEY_LEFT_SHIFT ∨ code = KEY_RIGHT_SHIFT then some { k with shiftPressed := true }
    else if code = KEY_CAPS_LOCK then some { k with capsLockActivated := !k.capsLockActivated }
    else do
      let c ← scancodes[code.toNat]?
      if c ≠ 0 then
        let buffer ← kkeyboardPush k.buffer c
        return { k with buffer := buffer }
      else return k
  else if code ^^^ 0x80 = KEY_LEFT_SHIFT ∨ code ^^^ 0x80 = KEY_RIGHT_SHIFT then
    some { k with shiftPressed := false }
  else some k

/-- The interrupts of a halt. -/
def KeyState.interrupts (k : KeyState) : List UInt8 → Option KeyState
  | [] => some k
  | code :: codes => do
    let k ← irqKeyboardPress k code
    k.interrupts codes

/-- `kkeyboard_getchar`, with the codes that arrive in each halt in turn: its character, or nothing
as long as it is still waiting behind the last of them. -/
def KeyState.kkeyboardGetchar (k : KeyState) : List (List UInt8) → Option (Option UInt8 × KeyState)
  | [] => do
    let (v, buffer) ← kkeyboardPop k.buffer
    return (if byteOf v = 0xff then none else some (byteOf v), { k with buffer := buffer })
  | halt :: halts => do
    let (v, buffer) ← kkeyboardPop k.buffer
    if byteOf v = 0xff then
      let k ← { k with buffer := buffer }.interrupts halt
      k.kkeyboardGetchar halts
    else return (some (byteOf v), { k with buffer := buffer })

/-- An interrupt, a call of `kkeyboard_getchar` with the codes of its halts, or a `keymap` that is
stored. -/
inductive KeyEvent
  | code (code : UInt8)
  | getchar (halts : List (List UInt8))
  | keymap (keymap : Keymap)
  deriving DecidableEq, Repr

/-- An event, and the character that it returns. -/
def KeyState.step (k : KeyState) : KeyEvent → Option (Option UInt8 × KeyState)
  | .code code => do
    let k ← irqKeyboardPress k code
    return (none, k)
  | .getchar halts => k.kkeyboardGetchar halts
  | .keymap keymap => some (none, { k with keymap := keymap })

/-- The keyboard at the start. -/
def KeyState.initial : KeyState := ⟨.KKEYMAP_AZERTY, Keyboard.initial, false, false⟩

/-! ## What is typed -/

/-- A code of a shift key, pressed or released. -/
def isShiftCode (code : UInt8) : Bool :=
  code &&& 0x7f = KEY_LEFT_SHIFT || code &&& 0x7f = KEY_RIGHT_SHIFT

/-- The last code of a shift key was a press. -/
def shiftHeld (codes : List UInt8) : Bool :=
  (codes.reverse.find? isShiftCode).any fun code => code &&& 0x80 = 0

/-- Caps lock has been pressed an odd number of times. -/
def capsOn (codes : List UInt8) : Bool := codes.count KEY_CAPS_LOCK % 2 = 1

/-- The character of a code, behind the codes so far, if it has one. -/
def typedChar (keymap : Keymap) (codes : List UInt8) (code : UInt8) : Option UInt8 :=
  (kkeyboardGetKeymapValues keymap (shiftHeld codes ^^ capsOn codes))[code.toNat]?.filter (· ≠ 0)

/-- What the keyboard is for: all the codes so far, and a queue of characters. -/
structure TypedQueue where
  keymap : Keymap
  codes : List UInt8
  queue : List UInt8

namespace TypedQueue

/-- A character goes into the queue if there are fewer than 127. -/
def code (q : TypedQueue) (code : UInt8) : TypedQueue where
  keymap := q.keymap
  codes := q.codes ++ [code]
  queue := q.queue ++
    ((typedChar q.keymap q.codes code).filter fun _ => q.queue.length < 127).toList

/-- The first character, or the first one that the codes to come bring. -/
def getchar (q : TypedQueue) : List (List UInt8) → Option UInt8 × TypedQueue
  | [] => (q.queue.head?, { q with queue := q.queue.tail })
  | halt :: halts =>
    match q.queue with
    | [] => (halt.foldl TypedQueue.code q).getchar halts
    | c :: queue => (some c, { q with queue := queue })

def step (q : TypedQueue) : KeyEvent → Option (Option UInt8 × TypedQueue)
  | .code code => some (none, q.code code)
  | .getchar halts => some (q.getchar halts)
  | .keymap keymap => some (none, { q with keymap := keymap })

/-- Nothing has been typed. -/
def initial : TypedQueue := ⟨.KKEYMAP_AZERTY, [], []⟩

end TypedQueue

/-! ## The codes -/

/-- A press has a place in the tables, a release has none. -/
structure CodeIs (code : UInt8) : Prop where
  pressed : code &&& 0x80 = 0 → code.toNat < 128 ∧
    (isShiftCode code = true ↔ code = KEY_LEFT_SHIFT ∨ code = KEY_RIGHT_SHIFT)
  released : ¬code &&& 0x80 = 0 → 128 ≤ code.toNat ∧ code ≠ KEY_CAPS_LOCK ∧
    (isShiftCode code = true ↔ code ^^^ 0x80 = KEY_LEFT_SHIFT ∨ code ^^^ 0x80 = KEY_RIGHT_SHIFT)

instance (code : UInt8) : Decidable (CodeIs code) :=
  decidable_of_iff (_ ∧ _) ⟨fun h => ⟨h.1, h.2⟩, fun h => ⟨h.pressed, h.released⟩⟩

theorem codeIs_ofNat : ∀ n < 256, CodeIs (UInt8.ofNat n) := by
  decide +kernel

theorem codeIs (code : UInt8) : CodeIs code := by
  have h := codeIs_ofNat code.toNat code.toNat_lt
  rwa [UInt8.ofNat_toNat] at h

/-- What the tables have in common: a shift key and caps lock have no character, and none is
0xFF. -/
structure IsTable (table : List UInt8) : Prop where
  length : table.length = 128
  left : table[KEY_LEFT_SHIFT.toNat]? = some 0
  right : table[KEY_RIGHT_SHIFT.toNat]? = some 0
  caps : table[KEY_CAPS_LOCK.toNat]? = some 0
  clean : 0xff ∉ table

instance (table : List UInt8) : Decidable (IsTable table) :=
  decidable_of_iff (_ ∧ _ ∧ _ ∧ _ ∧ _) ⟨fun h => ⟨h.1, h.2.1, h.2.2.1, h.2.2.2.1, h.2.2.2.2⟩,
    fun h => ⟨h.length, h.left, h.right, h.caps, h.clean⟩⟩

theorem isTable (keymap : Keymap) (shifted : Bool) :
    IsTable (kkeyboardGetKeymapValues keymap shifted) := by
  cases keymap <;> cases shifted <;> decide +kernel

theorem shiftHeld_concat (codes : List UInt8) (code : UInt8) :
    shiftHeld (codes ++ [code]) =
      if isShiftCode code then decide (code &&& 0x80 = 0) else shiftHeld codes := by
  unfold shiftHeld
  rw [List.reverse_append, List.reverse_singleton, List.singleton_append, List.find?_cons]
  cases isShiftCode code <;> rfl

theorem capsOn_concat (codes : List UInt8) (code : UInt8) :
    capsOn (codes ++ [code]) = if code = KEY_CAPS_LOCK then !capsOn codes else capsOn codes := by
  unfold capsOn
  rw [List.count_append]
  split_ifs with hcode
  · rw [hcode, List.count_singleton_self, Bool.eq_iff_iff]
    simp only [decide_eq_true_eq, Bool.not_eq_true', decide_eq_false_iff_not]
    omega
  · rw [List.count_singleton, if_neg (by simpa using hcode), Nat.add_zero]

/-! ## The keyboard and the queue -/

/-- **The keyboard stands for the queue**: the flags are what the codes so far say, and what is
pending is what is queued. -/
structure Types (k : KeyState) (q : TypedQueue) : Prop where
  keymap : k.keymap = q.keymap
  shift : k.shiftPressed = shiftHeld q.codes
  caps : k.capsLockActivated = capsOn q.codes
  fifo : Fifo ⟨k.buffer, q.queue, []⟩
  clean : 0xff ∉ q.queue

variable {k : KeyState} {q : TypedQueue}

/-- What is pending is the queue, and there are fewer than 128 characters in it. -/
theorem Types.pending_eq (h : Types k q) :
    pending k.buffer.bytes k.buffer.head k.buffer.tail = q.queue ∧ q.queue.length < 128 := by
  have hpending : pending k.buffer.bytes k.buffer.head k.buffer.tail = q.queue := h.fifo.fifo
  refine ⟨hpending, ?_⟩
  rw [← hpending, length_pending h.fifo.tail_lt_length]
  exact (count_lt h.fifo.head_lt_length h.fifo.tail_lt_length).trans_eq h.fifo.size

/-- A push goes into the queue if there is room. -/
theorem Types.push (h : Types k q) (c : UInt8) :
    ∃ buffer, kkeyboardPush k.buffer c = some buffer ∧
      Fifo ⟨buffer, q.queue ++ if q.queue.length < 127 then [c] else [], []⟩ := by
  obtain ⟨t', hpush, hfifo, -, -⟩ := h.fifo.push c
  obtain ⟨buffer, hbuffer, hdropped⟩ := h.fifo.push_dropped_iff c
  rw [Trace.push, hbuffer] at hpush
  obtain rfl := Option.some.inj hpush
  refine ⟨buffer, hbuffer, ?_⟩
  by_cases hfull : buffer = k.buffer
  · have hlong : q.queue.length = 0 + 127 := hdropped.1 hfull
    simpa [hfull, hlong] using hfifo
  · have hroom : q.queue.length < 127 := by
      have hlong := h.pending_eq.2
      have hne : ¬q.queue.length = 0 + 127 := fun heq => hfull (hdropped.2 heq)
      omega
    simpa [hfull, hroom] using hfifo

/-- The modifiers behind one more code. -/
theorem Types.code_of_eq (h : Types k q) {code : UInt8} {buffer : Buffer} {shift caps : Bool}
    (hshift : shift = if isShiftCode code then decide (code &&& 0x80 = 0) else k.shiftPressed)
    (hcaps : caps = if code = KEY_CAPS_LOCK then !k.capsLockActivated else k.capsLockActivated)
    (hfifo : Fifo ⟨buffer, (q.code code).queue, []⟩) (hclean : 0xff ∉ (q.code code).queue) :
    Types ⟨k.keymap, buffer, shift, caps⟩ (q.code code) := by
  refine ⟨h.keymap, ?_, ?_, hfifo, hclean⟩
  · rw [hshift, h.shift]
    exact (shiftHeld_concat q.codes code).symm
  · rw [hcaps, h.caps]
    exact (capsOn_concat q.codes code).symm

/-- A code without a character does not change the queue. -/
theorem TypedQueue.code_none {code : UInt8} (h : typedChar q.keymap q.codes code = none) :
    (q.code code).queue = q.queue := by
  simp [TypedQueue.code, h]

/-- The table that the handler looks into. -/
theorem Types.typedChar_eq (h : Types k q) (code : UInt8) :
    typedChar q.keymap q.codes code = (kkeyboardGetKeymapValues k.keymap
      (k.shiftPressed ^^ k.capsLockActivated))[code.toNat]?.filter (· ≠ 0) := by
  rw [typedChar, h.keymap, h.shift, h.caps]

/-- **A code does to the keyboard what it does to the queue.** -/
theorem Types.irqKeyboardPress (h : Types k q) (code : UInt8) :
    ∃ k', irqKeyboardPress k code = some k' ∧ Types k' (q.code code) := by
  have htable := isTable k.keymap (k.shiftPressed ^^ k.capsLockActivated)
  have hchar := h.typedChar_eq code
  have hquiet : typedChar q.keymap q.codes code = none →
      Fifo ⟨k.buffer, (q.code code).queue, []⟩ ∧ 0xff ∉ (q.code code).queue := fun hnone => by
    rw [TypedQueue.code_none hnone]
    exact ⟨h.fifo, h.clean⟩
  unfold Keyboard.irqKeyboardPress
  by_cases hpressed : code &&& 0x80 = 0
  · obtain ⟨hplace, hshift⟩ := (codeIs code).pressed hpressed
    rw [if_pos hpressed]
    by_cases hheld : code = KEY_LEFT_SHIFT ∨ code = KEY_RIGHT_SHIFT
    · -- a shift key goes down
      have hnone : typedChar q.keymap q.codes code = none := by
        rw [hchar]
        rcases hheld with rfl | rfl
        · rw [htable.left]
          rfl
        · rw [htable.right]
          rfl
      have hcaps : code ≠ KEY_CAPS_LOCK := by
        rcases hheld with rfl | rfl <;> decide
      refine ⟨_, if_pos hheld, h.code_of_eq ?_ ?_ (hquiet hnone).1 (hquiet hnone).2⟩
      · rw [if_pos (hshift.2 hheld), hpressed]
        rfl
      · rw [if_neg hcaps]
    have hnoshift : isShiftCode code = false := by
      rw [Bool.eq_false_iff]
      exact fun hs => hheld (hshift.1 hs)
    rw [if_neg hheld]
    by_cases hlock : code = KEY_CAPS_LOCK
    · have hnone : typedChar q.keymap q.codes code = none := by
        rw [hchar, hlock, htable.caps]
        rfl
      refine ⟨_, if_pos hlock, h.code_of_eq ?_ ?_ (hquiet hnone).1 (hquiet hnone).2⟩
      · rw [hnoshift]
        rfl
      · rw [if_pos hlock]
    -- a key with a place in the table
    have hget : code.toNat < (kkeyboardGetKeymapValues k.keymap
        (k.shiftPressed ^^ k.capsLockActivated)).length := htable.length ▸ hplace
    rw [if_neg hlock, List.getElem?_eq_getElem hget, Option.bind_eq_bind, Option.bind_some]
    rw [List.getElem?_eq_getElem hget] at hchar
    have hmem := List.getElem_mem hget
    generalize (kkeyboardGetKeymapValues k.keymap
      (k.shiftPressed ^^ k.capsLockActivated))[code.toNat] = c at hchar hmem ⊢
    by_cases hc : c = 0
    · have hnone : typedChar q.keymap q.codes code = none := by
        rw [hchar, hc]
        rfl
      refine ⟨k, by simp [hc], h.code_of_eq ?_ ?_ (hquiet hnone).1 (hquiet hnone).2⟩
      · rw [hnoshift]
        rfl
      · rw [if_neg hlock]
    · obtain ⟨buffer, hpush, hfifo⟩ := h.push c
      have hqueue : (q.code code).queue =
          q.queue ++ if q.queue.length < 127 then [c] else [] := by
        by_cases hroom : q.queue.length < 127 <;> simp [TypedQueue.code, hchar, hc, hroom]
      refine ⟨{ k with buffer := buffer }, by simp [hc, hpush],
        h.code_of_eq ?_ ?_ (hqueue ▸ hfifo) ?_⟩
      · rw [hnoshift]
        rfl
      · rw [if_neg hlock]
      · rw [hqueue, List.mem_append, not_or]
        refine ⟨h.clean, fun hin => htable.clean ?_⟩
        split_ifs at hin
        · rwa [List.mem_singleton.1 hin]
        · cases hin
  · obtain ⟨hplace, hnolock, hshift⟩ := (codeIs code).released hpressed
    have hnone : typedChar q.keymap q.codes code = none := by
      rw [hchar, List.getElem?_eq_none (htable.length ▸ hplace)]
      rfl
    rw [if_neg hpressed]
    by_cases hup : code ^^^ 0x80 = KEY_LEFT_SHIFT ∨ code ^^^ 0x80 = KEY_RIGHT_SHIFT
    · refine ⟨_, if_pos hup, h.code_of_eq ?_ ?_ (hquiet hnone).1 (hquiet hnone).2⟩
      · rw [if_pos (hshift.2 hup)]
        simp [hpressed]
      · rw [if_neg hnolock]
    · have hnoshift : isShiftCode code = false := by
        rw [Bool.eq_false_iff]
        exact fun hs => hup (hshift.1 hs)
      refine ⟨k, if_neg hup, h.code_of_eq ?_ ?_ (hquiet hnone).1 (hquiet hnone).2⟩
      · rw [hnoshift]
        rfl
      · rw [if_neg hnolock]

/-- The codes of a halt. -/
theorem Types.interrupts (h : Types k q) (codes : List UInt8) :
    ∃ k', k.interrupts codes = some k' ∧ Types k' (codes.foldl TypedQueue.code q) := by
  induction codes generalizing k q with
  | nil => exact ⟨k, rfl, h⟩
  | cons code codes ih =>
    obtain ⟨k₁, hirq, h₁⟩ := h.irqKeyboardPress code
    obtain ⟨k₂, hrest, h₂⟩ := ih h₁
    exact ⟨k₂, by rw [KeyState.interrupts, hirq]; exact hrest, h₂⟩

/-- A pop takes the first character, or says that there is none. -/
theorem Types.pop (h : Types k q) :
    (q.queue = [] ∧ kkeyboardPop k.buffer = some (-1, k.buffer)) ∨
      ∃ c queue v buffer, q.queue = c :: queue ∧ kkeyboardPop k.buffer = some (v, buffer) ∧
        byteOf v = c ∧ c ≠ 0xff ∧ Types { k with buffer := buffer } { q with queue := queue } := by
  have hpending := h.pending_eq.1
  by_cases hempty : k.buffer.head = k.buffer.tail
  · refine Or.inl ⟨?_, if_pos hempty⟩
    rw [← hpending]
    exact (pending_eq_nil_iff h.fifo.tail_lt_length).2 hempty
  · obtain ⟨c, hpop, hqueue⟩ := h.fifo.pop_some hempty
    have hcons := hpending.symm.trans hqueue
    have hclean := h.clean
    rw [hcons, List.mem_cons, not_or] at hclean
    exact Or.inr ⟨c, _, _, _, hcons, hpop, byteOf_char c, Ne.symm hclean.1, h.keymap, h.shift,
      h.caps, ⟨h.fifo.size, h.fifo.head_lt, next_lt h.fifo.tail_lt, rfl⟩, hclean.2⟩

/-- **`kkeyboard_getchar` returns the first character of the queue**, or the first one that arrives
while it waits.  By induction on the halts. -/
theorem Types.kkeyboardGetchar (h : Types k q) (halts : List (List UInt8)) :
    ∃ k', k.kkeyboardGetchar halts = some ((q.getchar halts).1, k') ∧
      Types k' (q.getchar halts).2 := by
  induction halts generalizing k q with
  | nil =>
    rcases h.pop with ⟨hnil, hpop⟩ | ⟨c, queue, v, buffer, hcons, hpop, rfl, hc, h'⟩
    · refine ⟨k, ?_, ?_⟩
      · simp [KeyState.kkeyboardGetchar, hpop, byteOf_nothing, TypedQueue.getchar, hnil]
      · simpa [TypedQueue.getchar, hnil] using hnil ▸ h
    · refine ⟨{ k with buffer := buffer }, ?_, ?_⟩
      · simp [KeyState.kkeyboardGetchar, hpop, hc, TypedQueue.getchar, hcons]
      · simpa [TypedQueue.getchar, hcons] using h'
  | cons halt halts ih =>
    rcases h.pop with ⟨hnil, hpop⟩ | ⟨c, queue, v, buffer, hcons, hpop, rfl, hc, h'⟩
    · obtain ⟨k₁, hwoken, h₁⟩ := h.interrupts halt
      obtain ⟨k₂, hrest, h₂⟩ := ih h₁
      refine ⟨k₂, ?_, ?_⟩
      · simpa [KeyState.kkeyboardGetchar, hpop, byteOf_nothing, TypedQueue.getchar, hnil, hwoken]
          using hrest
      · simpa [TypedQueue.getchar, hnil] using h₂
    · refine ⟨{ k with buffer := buffer }, ?_, ?_⟩
      · simp [KeyState.kkeyboardGetchar, hpop, hc, TypedQueue.getchar, hcons]
      · simpa [TypedQueue.getchar, hcons] using h'

theorem Types.step (h : Types k q) (e : KeyEvent) :
    ∃ c k' q', k.step e = some (c, k') ∧ q.step e = some (c, q') ∧ Types k' q' := by
  cases e with
  | code code =>
    obtain ⟨k', hirq, h'⟩ := h.irqKeyboardPress code
    exact ⟨none, k', q.code code, by simp [KeyState.step, hirq], rfl, h'⟩
  | getchar halts =>
    obtain ⟨k', hget, h'⟩ := h.kkeyboardGetchar halts
    exact ⟨_, k', _, hget, rfl, h'⟩
  | keymap keymap => exact ⟨none, _, _, rfl, rfl, rfl, h.shift, h.caps, h.fifo, h.clean⟩

theorem Types.initial : Types KeyState.initial TypedQueue.initial :=
  ⟨rfl, rfl, rfl, ⟨List.length_replicate, Nat.succ_pos _, Nat.succ_pos _, rfl⟩, List.not_mem_nil⟩

/-! ## Letters -/

/-- A small letter. -/
def isSmall (c : UInt8) : Bool := 0x61 ≤ c && c ≤ 0x7a

/-- Where a layout has a small letter it has the capital with shift. -/
theorem capital_of_small (keymap : Keymap) : ∀ i < 128,
    ((kkeyboardGetKeymapValues keymap false)[i]?.filter isSmall).all (fun c =>
      (kkeyboardGetKeymapValues keymap true)[i]? = some (c - 0x20)) = true := by
  cases keymap <;> decide +kernel

/-- **A letter is a capital where exactly one of shift and caps lock is on**, on every layout. -/
theorem typedChar_capital {keymap : Keymap} {codes codes' : List UInt8} {code c : UInt8}
    (hlow : (shiftHeld codes ^^ capsOn codes) = false)
    (hhigh : (shiftHeld codes' ^^ capsOn codes') = true)
    (hc : typedChar keymap codes code = some c) (hsmall : isSmall c = true) :
    typedChar keymap codes' code = some (c - 0x20) := by
  unfold typedChar at hc ⊢
  rw [hlow] at hc
  rw [hhigh]
  obtain ⟨hget, -⟩ := Option.filter_eq_some_iff.1 hc
  have hplace : code.toNat < 128 := by
    rw [← (isTable keymap false).length]
    exact (List.getElem?_eq_some_iff.1 hget).1
  have hcapital := capital_of_small keymap code.toNat hplace
  rw [hget, Option.filter_some, if_pos hsmall, Option.all_some, decide_eq_true_iff] at hcapital
  rw [hcapital, Option.filter_some, if_pos]
  have hbounds : 0x61 ≤ c ∧ c ≤ 0x7a := by simpa [isSmall] using hsmall
  have hne : c - 0x20 ≠ 0 := fun h0 => by
    have hspace : c = 0x20 := by
      have hsum : c - 0x20 + 0x20 = 0 + 0x20 := by rw [h0]
      rwa [UInt8.sub_add_cancel, UInt8.zero_add] at hsum
    exact absurd hbounds.1 (hspace ▸ by decide)
  simpa using hne

/-- **What is read is what was typed**: over every order of codes, of calls of `kkeyboard_getchar`
with the codes that arrive while they wait, and of layouts, the calls return the characters of the
queue, which depend on the last shift key, on the number of times that caps lock was pressed, and on
the layout. -/
theorem keyboard_types (events : List KeyEvent) :
    ∃ cs k q, outputs KeyState.step KeyState.initial events = some (cs, k) ∧
      outputs TypedQueue.step TypedQueue.initial events = some (cs, q) ∧ Types k q := by
  have hstep : ∀ k q e, Types k q → True →
      ∃ c k' q', KeyState.step k e = some (c, k') ∧ TypedQueue.step q e = some (c, q') ∧
        Types k' q' := fun k q e h _ => h.step e
  exact outputs_simulates hstep Types.initial
    (admissible_of_forall (fun _ _ => trivial) KeyState.initial events)

-- `A`, with the right shift key held, and then `a`
example : (outputs KeyState.step KeyState.initial [.keymap .KKEYMAP_QWERTY, .code 0x36, .code 0x1e,
    .code 0xb6, .code 0x1e, .getchar [], .getchar [], .getchar [[]]]).map Prod.fst =
    some [none, none, none, none, none, some 0x41, some 0x61, none] := by
  decide +kernel

end DelOs.Keyboard
