import DelOs.Lib.Words

/-!
# The arguments of a command line

The scanners of `src/kernel/shell/parser/arguments.c` and `setup_run_shell_command` of
`src/kernel/shell/shell.c`, over the prompt buffer.  A buffer is the list of its bytes, and a
pointer into it an index, or what is left of the buffer from there; reading or writing outside
the buffer gives `none`, as storing past the last slot of `argv` does.

* `kshellParseGetArgc`, `kshellParseFormattingBuffer`, `kshellParseGetArgv`,
  `setupRunShellCommand` — the functions of those names.
* `ParsesLine` — the command gets the words of the line, and nothing else.
* `getArgc_iff` — **the words are counted right** just if nothing is counted behind the line.
* `collects_iff` — **`argv` holds the strings** that stand one behind the other.
-/

namespace DelOs.Shell

open Words

/-- The bytes of the prompt buffer, or of its end. -/
abbrev Buffer := List UInt8

def KERNEL_SHELL_BUFFER_SIZE : Nat := 512
def SHELL_ARGV_MAX_COUNT : Nat := 16

/-- `kshell_parse_is_delimiter`: a tab, a newline or a space. -/
def kshellParseIsDelimiter (c : UInt8) : Bool := c == 0x09 || c == 0x0a || c == 0x20

/-- `kstrlen`. -/
def kstrlen : Buffer → Option Nat
  | [] => none
  | c :: rest => if c = 0 then some 0 else (kstrlen rest).map (· + 1)

/-! ## Counting -/

/-- `while (kshell_parse_is_delimiter(*buffer)) buffer++`. -/
def skipDelimiters : Buffer → Option Buffer
  | [] => none
  | c :: rest => if kshellParseIsDelimiter c then skipDelimiters rest else some (c :: rest)

/-- The loop of `kshell_parse_get_argc`.  The delimiters are skipped before the byte is looked
at, and the byte after that is passed whatever it is, the end of the line too. -/
def getArgcFrom : Nat → Bool → Nat → Buffer → Option Nat
  | 0, _, _, _ => none
  | _ + 1, _, _, [] => none
  | fuel + 1, inAWord, argcValue, c :: buffer =>
    if c = 0 then some argcValue
    else
      let inAWord := if kshellParseIsDelimiter c then false else inAWord
      match skipDelimiters (c :: buffer) with
      | none => none
      | some [] => none
      | some (c' :: rest) =>
        if inAWord = false ∧ c' ≠ 0 then getArgcFrom fuel true (argcValue + 1) rest
        else getArgcFrom fuel inAWord argcValue rest

/-- `kshell_parse_get_argc`. -/
def kshellParseGetArgc (buffer : Buffer) : Option Nat :=
  getArgcFrom (buffer.length + 1) false 0 buffer

/-! ## Formatting -/

/-- `while (!kshell_parse_is_delimiter(buffer[i]) && buffer[i] != '\0') i++`, from `buffer[i]`
on. -/
def wordEnd : Buffer → Nat → Option Nat
  | [], _ => none
  | c :: rest, i => if !kshellParseIsDelimiter c && c != 0 then wordEnd rest (i + 1) else some i

/-- `while (kshell_parse_is_delimiter(buffer[i + 1 + jump_tmp])) jump_tmp++`, from
`buffer[i + 1 + jump_tmp]` on. -/
def skipJump : Buffer → Nat → Option Nat
  | [], _ => none
  | c :: rest, jump => if kshellParseIsDelimiter c then skipJump rest (jump + 1) else some jump

/-- `while (n) { *d++ = *s++; n--; }`. -/
def copyUp : Nat → Nat → Nat → Buffer → Option Buffer
  | 0, _, _, buffer => some buffer
  | n + 1, d, s, buffer =>
    match buffer[s]? with
    | none => none
    | some c => if d < buffer.length then copyUp n (d + 1) (s + 1) (buffer.set d c) else none

/-- `while (n) { *d-- = *s--; n--; }`, from the last of `n` bytes. -/
def copyDown : Nat → Nat → Nat → Buffer → Option Buffer
  | 0, _, _, buffer => some buffer
  | n + 1, d, s, buffer =>
    match buffer[s + n]? with
    | none => none
    | some c => if d + n < buffer.length then copyDown n d s (buffer.set (d + n) c) else none

/-- `kmemmove`. -/
def kmemmove (buffer : Buffer) (dst src n : Nat) : Option Buffer :=
  if src < dst then copyDown n dst src buffer else copyUp n dst src buffer

/-- The loop of `kshell_parse_formatting_buffer`.  `jump_tmp` is not set back between two
words, and the body also runs with `buffer[i]` the end of the line. -/
def formatFrom : Nat → Nat → Nat → Buffer → Option Buffer
  | 0, _, _, _ => none
  | fuel + 1, i, jumpTmp, buffer =>
    match buffer[i]? with
    | none => none
    | some c =>
      if c = 0 then some buffer
      else do
        let i ← wordEnd (buffer.drop i) i
        let buffer := buffer.set i 0
        let jumpTmp ← skipJump (buffer.drop (i + 1 + jumpTmp)) jumpTmp
        let len ← kstrlen (buffer.drop (i + 1 + jumpTmp))
        let buffer ← kmemmove buffer (i + 1) (i + 1 + jumpTmp) (len + 1)
        formatFrom fuel (i + 1) jumpTmp buffer

/-- `kshell_parse_formatting_buffer`. -/
def kshellParseFormattingBuffer (buffer : Buffer) : Option Buffer :=
  formatFrom (buffer.length + 1) 0 0 buffer

/-! ## Collecting -/

/-- The loop of `kshell_parse_get_argv`, with `buffer` standing at `pos`. -/
def getArgvFrom : Nat → Buffer → Nat → Nat → List (Option Nat) → Option (List (Option Nat))
  | 0, _, _, _, _ => none
  | fuel + 1, buffer, pos, index, argv =>
    match buffer[pos]? with
    | none => none
    | some c =>
      if c = 0 then some argv
      else if index < argv.length then
        match kstrlen (buffer.drop pos) with
        | none => none
        | some len =>
          getArgvFrom fuel buffer (pos + (len + 1)) (index + 1) (argv.set index (some pos))
      else none

/-- `kshell_parse_get_argv`. -/
def kshellParseGetArgv (buffer : Buffer) (argv : List (Option Nat)) :
    Option (List (Option Nat)) :=
  getArgvFrom (buffer.length + 1) buffer 0 0 argv

/-- What `kshell_execute_command` is given, and the buffer that `argv` points into. -/
structure Command where
  argc : Nat
  argv : List (Option Nat)
  buffer : Buffer

/-- The string at a place of the buffer. -/
def Command.string (r : Command) (pos : Nat) : Buffer :=
  (r.buffer.drop pos).takeWhile (· ≠ 0)

/-- `char *argv[SHELL_ARGV_MAX_COUNT] = {0}`. -/
def noArguments : List (Option Nat) := List.replicate SHELL_ARGV_MAX_COUNT none

/-- `setup_run_shell_command`, up to the call of `kshell_execute_command`.  An empty line is
left with no argument, and no command is executed. -/
def setupRunShellCommand (buffer : Buffer) : Option Command :=
  match buffer with
  | [] => none
  | c :: _ =>
    if c = 0 then some ⟨0, noArguments, buffer⟩
    else do
      let argc ← kshellParseGetArgc buffer
      let formatted ← kshellParseFormattingBuffer buffer
      let argv ← kshellParseGetArgv formatted noArguments
      some ⟨argc, argv, formatted⟩

/-! ## What a line says -/

/-- The prompt buffer, with a line in it. -/
structure PromptBuffer where
  bytes : Buffer
  size : bytes.length = KERNEL_SHELL_BUFFER_SIZE
  terminated : 0 ∈ bytes

/-- The line: the bytes in front of the first NUL. -/
def line (buffer : Buffer) : Buffer := buffer.takeWhile (· ≠ 0)

/-- What stands in the buffer behind the line. -/
def stale (buffer : Buffer) : Buffer := (buffer.dropWhile (· ≠ 0)).tail

/-- The words of a line. -/
def lineWords (buffer : Buffer) : List Buffer := words kshellParseIsDelimiter (line buffer)

/-- **The command gets the words of the line**: as many as there are, in order, and NULL behind
them if there is a slot left. -/
def ParsesLine (buffer : Buffer) : Prop :=
  ∃ r, setupRunShellCommand buffer = some r ∧ r.argc = (lineWords buffer).length ∧
    (∀ i (hi : i < (lineWords buffer).length),
      ∃ pos, r.argv[i]? = some (some pos) ∧ r.string pos = (lineWords buffer)[i]) ∧
    ((lineWords buffer).length < SHELL_ARGV_MAX_COUNT →
      r.argv[(lineWords buffer).length]? = some none)

theorem line_append_stale {buffer : Buffer} (h : 0 ∈ buffer) :
    line buffer ++ 0 :: stale buffer = buffer := by
  unfold line stale
  induction buffer with
  | nil => simp at h
  | cons c buffer ih =>
    by_cases hc : c = 0
    · simp [hc]
    · have hmem : 0 ∈ buffer := by simpa [Ne.symm hc] using h
      simpa [hc] using ih hmem

theorem zero_not_mem_line (buffer : Buffer) : 0 ∉ line buffer := by
  intro h
  simpa using List.all_eq_true.1 List.all_takeWhile 0 h

/-- The line ends with a delimiter. -/
def endsInGap (text : Buffer) : Bool := text.getLast?.any kshellParseIsDelimiter

theorem endsInGap_append (front : Buffer) {text : Buffer} (h : text ≠ []) :
    endsInGap (front ++ text) = endsInGap text := by
  simp [endsInGap, List.getLast?_append_of_ne_nil front h]

theorem endsInGap_gap {d : UInt8} {gap : Buffer} (hd : kshellParseIsDelimiter d = true)
    (hgap : ∀ c ∈ gap, kshellParseIsDelimiter c = true) : endsInGap (d :: gap) = true := by
  have hlast := List.getLast_mem (List.cons_ne_nil d gap)
  rw [endsInGap, List.getLast?_eq_getLast_of_ne_nil (List.cons_ne_nil d gap)]
  rcases List.mem_cons.1 hlast with h | h
  · simpa [h] using hd
  · exact hgap _ h

theorem endsInGap_word {word : Buffer} (h : ∀ c ∈ word, kshellParseIsDelimiter c = false) :
    endsInGap word = false := by
  rcases hlast : word.getLast? with _ | c
  · simp [endsInGap, hlast]
  · simpa [endsInGap, hlast] using h c (List.mem_of_getLast? hlast)

/-! ## The count -/

/-- What `kshell_parse_get_argc` passes over when it has come behind the end of the line: NULs
behind delimiters, up to a NUL in front. -/
inductive Skipped : Buffer → Prop
  | stop (rest : Buffer) : Skipped (0 :: rest)
  | again {d : UInt8} {text rest : Buffer} (hd : kshellParseIsDelimiter d = true)
      (hgap : text.dropWhile kshellParseIsDelimiter = 0 :: rest) (h : Skipped rest) :
      Skipped (d :: text)

theorem not_delimiter_zero : kshellParseIsDelimiter 0 = false := rfl

theorem skipDelimiters_eq {text rest : Buffer} {c : UInt8}
    (h : text.dropWhile kshellParseIsDelimiter = c :: rest) :
    skipDelimiters text = some (c :: rest) := by
  induction text with
  | nil => simp at h
  | cons d text ih =>
    by_cases hd : kshellParseIsDelimiter d = true
    · rw [List.dropWhile_cons_of_pos hd] at h
      simpa [skipDelimiters, hd] using ih h
    · rw [List.dropWhile_cons_of_neg hd] at h
      simpa [skipDelimiters, hd] using h

theorem skipDelimiters_none {text : Buffer} (h : text.dropWhile kshellParseIsDelimiter = []) :
    skipDelimiters text = none := by
  induction text with
  | nil => rfl
  | cons d text ih =>
    by_cases hd : kshellParseIsDelimiter d = true
    · rw [List.dropWhile_cons_of_pos hd] at h
      simpa [skipDelimiters, hd] using ih h
    · rw [List.dropWhile_cons_of_neg hd] at h
      simp at h

theorem skipDelimiters_gap {gap : Buffer} (hgap : ∀ c ∈ gap, kshellParseIsDelimiter c = true)
    {c : UInt8} (hc : kshellParseIsDelimiter c = false) (rest : Buffer) :
    skipDelimiters (gap ++ c :: rest) = some (c :: rest) := by
  apply skipDelimiters_eq
  rw [List.dropWhile_append_of_pos hgap, List.dropWhile_cons_of_neg (by simp [hc])]

/-- The first letter of a word is counted. -/
theorem getArgcFrom_letter (fuel n : Nat) {c : UInt8} (hc : kshellParseIsDelimiter c = false)
    (h0 : c ≠ 0) (rest : Buffer) :
    getArgcFrom (fuel + 1) false n (c :: rest) = getArgcFrom fuel true (n + 1) rest := by
  simp [getArgcFrom, skipDelimiters, hc, h0]

/-- The letters behind it are not. -/
theorem getArgcFrom_letters (n : Nat) {run : Buffer}
    (hrun : ∀ c ∈ run, kshellParseIsDelimiter c = false) (h0 : 0 ∉ run) (fuel : Nat)
    (rest : Buffer) :
    getArgcFrom (fuel + run.length) true n (run ++ rest) = getArgcFrom fuel true n rest := by
  induction run with
  | nil => rfl
  | cons c run ih =>
    have hc := hrun c List.mem_cons_self
    have hne : c ≠ 0 := fun h => h0 (h ▸ List.mem_cons_self)
    have hrest := ih (fun x hx => hrun x (List.mem_cons_of_mem c hx))
      fun h => h0 (List.mem_cons_of_mem c h)
    rw [← hrest, List.length_cons, ← Nat.add_assoc, List.cons_append]
    simp [getArgcFrom, skipDelimiters, hc, hne]

theorem delimiter_ne_zero {d : UInt8} (hd : kshellParseIsDelimiter d = true) : d ≠ 0 := by
  rintro rfl
  simp [not_delimiter_zero] at hd

/-- Behind a gap the first letter of a word is counted in the same round. -/
theorem getArgcFrom_gap (fuel n : Nat) (inAWord : Bool) {d : UInt8} {gap : Buffer}
    (hd : kshellParseIsDelimiter d = true)
    (hgap : ∀ c ∈ gap, kshellParseIsDelimiter c = true) {c : UInt8}
    (hc : kshellParseIsDelimiter c = false) (h0 : c ≠ 0) (rest : Buffer) :
    getArgcFrom (fuel + 1) inAWord n (d :: (gap ++ c :: rest)) =
      getArgcFrom fuel true (n + 1) rest := by
  have hskip : skipDelimiters (d :: (gap ++ c :: rest)) = some (c :: rest) := by
    simpa [skipDelimiters, hd] using skipDelimiters_gap hgap hc rest
  simp [getArgcFrom, hskip, hd, h0, delimiter_ne_zero hd]

/-- A NUL behind a gap is passed over. -/
theorem getArgcFrom_gap_end (fuel n : Nat) (inAWord : Bool) {d : UInt8} {gap : Buffer}
    (hd : kshellParseIsDelimiter d = true)
    (hgap : ∀ c ∈ gap, kshellParseIsDelimiter c = true) (rest : Buffer) :
    getArgcFrom (fuel + 1) inAWord n (d :: (gap ++ 0 :: rest)) =
      getArgcFrom fuel false n rest := by
  have hskip : skipDelimiters (d :: (gap ++ 0 :: rest)) = some (0 :: rest) := by
    simpa [skipDelimiters, hd] using skipDelimiters_gap hgap not_delimiter_zero rest
  simp [getArgcFrom, hskip, hd, delimiter_ne_zero hd]

/-- **A text that begins with a word is counted right** up to its end.  If it ends with a gap
the scanner goes on behind the end. -/
theorem getArgcFrom_text {text : Buffer} (rest : Buffer) (h : Starts kshellParseIsDelimiter text)
    (h0 : 0 ∉ text) (fuel n : Nat) (hfuel : (text ++ 0 :: rest).length ≤ fuel) :
    ∃ fuel', rest.length < fuel' ∧ getArgcFrom fuel false n (text ++ 0 :: rest) =
      if endsInGap text then
        getArgcFrom fuel' false (n + (words kshellParseIsDelimiter text).length) rest
      else some (n + (words kshellParseIsDelimiter text).length) := by
  -- over the words; a gap and the first letter behind it are one round of the loop
  induction hlen : text.length using Nat.strong_induction_on generalizing text fuel n with
  | _ len ih =>
  obtain ⟨word, hne, hword, htext⟩ := h.split
  rcases word with _ | ⟨c, run⟩
  · exact absurd rfl hne
  have hc := hword c List.mem_cons_self
  have hrun : ∀ x ∈ run, kshellParseIsDelimiter x = false := fun x hx =>
    hword x (List.mem_cons_of_mem c hx)
  have hmem : ∀ x ∈ c :: run, x ∈ text := by
    rcases htext with htext | ⟨d, gap, tail, htext, -⟩ <;> intro x hx <;>
      simp only [htext, List.mem_append] <;> tauto
  have hcne : c ≠ 0 := fun hx => h0 (hx ▸ hmem c List.mem_cons_self)
  have hrun0 : 0 ∉ run := fun hx => h0 (hmem 0 (List.mem_cons_of_mem c hx))
  -- the word itself
  have hone : ∀ k (tail : Buffer), run.length + 1 + k ≤ fuel → ∃ f, k ≤ f ∧
      f ≤ fuel ∧ getArgcFrom fuel false n (c :: run ++ tail) = getArgcFrom f true (n + 1) tail := by
    intro k tail hk
    refine ⟨fuel - 1 - run.length, by omega, by omega, ?_⟩
    rw [show fuel = fuel - 1 - run.length + run.length + 1 by omega, List.cons_append,
      getArgcFrom_letter _ _ hc hcne, getArgcFrom_letters _ hrun hrun0]
    congr 1
    omega
  rcases htext with htext | ⟨d, gap, tail, htext, hd, hgap, htail⟩
  · subst htext
    obtain ⟨f, hf, -, heq⟩ := hone (rest.length + 1) (0 :: rest)
      (by simp only [List.length_append, List.length_cons] at hfuel; omega)
    refine ⟨f, by omega, ?_⟩
    obtain ⟨f, rfl⟩ : ∃ f', f = f' + 1 := ⟨f - 1, by omega⟩
    rw [heq, endsInGap_word hword, words_last hne hword]
    simp [getArgcFrom]
  · subst htext
    simp only [List.length_append, List.length_cons] at hfuel hlen
    obtain ⟨f, hf, hle, heq⟩ := hone (gap.length + tail.length + rest.length + 2)
      (d :: (gap ++ tail) ++ 0 :: rest) (by omega)
    obtain ⟨f, rfl⟩ : ∃ f', f = f' + 1 := ⟨f - 1, by omega⟩
    rw [List.append_assoc, heq, endsInGap_append _ (List.cons_ne_nil d _),
      words_run hne hword hd, words_gap hgap]
    rcases htail with rfl | htail
    · refine ⟨f, by omega, ?_⟩
      rw [List.append_nil, List.cons_append, getArgcFrom_gap_end _ _ _ hd hgap,
        endsInGap_gap hd hgap]
      simp
    · rcases tail with _ | ⟨c', tail⟩
      · exact htail.elim
      have hc' : kshellParseIsDelimiter c' = false := htail
      have h0' : 0 ∉ c' :: tail := fun hx => h0 (by simp [hx])
      have hcne' : c' ≠ 0 := fun hx => h0' (hx ▸ List.mem_cons_self)
      obtain ⟨f', hf', heq'⟩ := ih _ (by omega) htail h0' (f + 1) (n + 1)
        (by simp only [List.length_append, List.length_cons] at hf ⊢; omega) rfl
      refine ⟨f', hf', ?_⟩
      rw [List.cons_append, List.append_assoc, List.cons_append,
        getArgcFrom_gap _ _ _ hd hgap hc' hcne', ← getArgcFrom_letter _ _ hc' hcne',
        ← List.cons_append, heq', ← List.cons_append, endsInGap_append _ (List.cons_ne_nil c' tail),
        List.length_cons, Nat.add_assoc, Nat.add_comm 1]

/-- The count never goes down. -/
theorem getArgcFrom_le {fuel n k : Nat} {inAWord : Bool} {buffer : Buffer}
    (h : getArgcFrom fuel inAWord n buffer = some k) : n ≤ k := by
  induction fuel generalizing inAWord n buffer with
  | zero => simp [getArgcFrom] at h
  | succ fuel ih =>
    rcases buffer with _ | ⟨c, buffer⟩
    · simp [getArgcFrom] at h
    rw [getArgcFrom] at h
    by_cases h0 : c = 0
    · rw [if_pos h0, Option.some.injEq] at h
      exact h.le
    · rw [if_neg h0] at h
      dsimp only at h
      generalize (if kshellParseIsDelimiter c = true then false else inAWord) = inAWord' at h
      split at h
      · cases h
      · cases h
      · split at h
        · exact (Nat.le_succ n).trans (ih h)
        · exact ih h

/-- **Nothing is counted behind the line** just if what stands there is passed over. -/
theorem getArgcFrom_skipped {rest : Buffer} {fuel : Nat} (n : Nat) (hfuel : rest.length < fuel) :
    getArgcFrom fuel false n rest = some n ↔ Skipped rest := by
  induction hlen : rest.length using Nat.strong_induction_on generalizing rest fuel with
  | _ len ih =>
  obtain ⟨fuel, rfl⟩ : ∃ f, fuel = f + 1 := ⟨fuel - 1, by omega⟩
  -- once a letter of a word is counted the count stays too high
  have hcounted : ∀ f b tail, getArgcFrom f b (n + 1) tail ≠ some n := fun f b tail h =>
    absurd (getArgcFrom_le h) (by omega)
  rcases rest with _ | ⟨c, rest⟩
  · exact iff_of_false (by simp [getArgcFrom]) nofun
  by_cases h0 : c = 0
  · subst h0
    exact iff_of_true (by simp [getArgcFrom]) (Skipped.stop rest)
  by_cases hd : kshellParseIsDelimiter c = true
  · rcases hdrop : rest.dropWhile kshellParseIsDelimiter with _ | ⟨x, tail⟩
    · have hnone : skipDelimiters (c :: rest) = none := by
        simpa [skipDelimiters, hd] using skipDelimiters_none hdrop
      refine iff_of_false (by simp [getArgcFrom, h0, hnone]) fun h => ?_
      cases h with
      | stop => exact h0 rfl
      | again _ hgap _ => simp [hdrop] at hgap
    · have hskip : skipDelimiters (c :: rest) = some (x :: tail) := by
        simpa [skipDelimiters, hd] using skipDelimiters_eq hdrop
      by_cases hx : x = 0
      · subst hx
        have hle : (rest.dropWhile kshellParseIsDelimiter).length ≤ rest.length :=
          (List.dropWhile_suffix kshellParseIsDelimiter).length_le
        simp only [hdrop, List.length_cons] at hle hlen hfuel
        have hiff := @ih tail.length (by omega) tail fuel (by omega) rfl
        have hstep : getArgcFrom (fuel + 1) false n (c :: rest) =
            getArgcFrom fuel false n tail := by
          simp [getArgcFrom, h0, hskip, hd]
        rw [hstep, hiff]
        refine ⟨fun h => Skipped.again hd hdrop h, fun h => ?_⟩
        cases h with
        | stop => exact absurd rfl h0
        | again _ hgap h =>
          rw [hdrop, List.cons.injEq] at hgap
          exact hgap.2 ▸ h
      · refine iff_of_false ?_ fun h => ?_
        · simpa [getArgcFrom, h0, hskip, hd, hx] using hcounted _ _ _
        · cases h with
          | stop => exact h0 rfl
          | again _ hgap _ =>
            rw [hdrop, List.cons.injEq] at hgap
            exact hx hgap.1
  · have hc : kshellParseIsDelimiter c = false := by simpa using hd
    rw [getArgcFrom_letter _ _ hc h0]
    refine iff_of_false (hcounted _ _ _) fun h => ?_
    cases h with
    | stop => exact h0 rfl
    | again hd' _ _ => exact hd hd'

/-- A text is a word with more behind it, or begins with a gap. -/
theorem starts_or_gap (text : Buffer) : text = [] ∨ Starts kshellParseIsDelimiter text ∨
    ∃ d gap tail, text = d :: (gap ++ tail) ∧ kshellParseIsDelimiter d = true ∧
      (∀ c ∈ gap, kshellParseIsDelimiter c = true) ∧
      (tail = [] ∨ Starts kshellParseIsDelimiter tail) := by
  rcases text with _ | ⟨d, text⟩
  · exact Or.inl rfl
  by_cases hd : kshellParseIsDelimiter d = true
  · refine Or.inr (Or.inr ⟨d, text.takeWhile kshellParseIsDelimiter,
      text.dropWhile kshellParseIsDelimiter, by simp, hd,
      fun x hx => List.all_eq_true.1 List.all_takeWhile x hx, ?_⟩)
    have hhead := List.head?_dropWhile_not kshellParseIsDelimiter text
    rcases hrest : text.dropWhile kshellParseIsDelimiter with _ | ⟨b, rest⟩
    · exact Or.inl rfl
    · rw [hrest] at hhead
      exact Or.inr (by simpa [Starts] using hhead)
  · exact Or.inr (Or.inl (by simpa [Starts] using hd))

theorem getArgcFrom_text_iff {text : Buffer} (rest : Buffer)
    (h : Starts kshellParseIsDelimiter text) (h0 : 0 ∉ text) (fuel n : Nat)
    (hfuel : (text ++ 0 :: rest).length ≤ fuel) :
    getArgcFrom fuel false n (text ++ 0 :: rest) =
        some (n + (words kshellParseIsDelimiter text).length) ↔
      (endsInGap text = true → Skipped rest) := by
  obtain ⟨fuel', hfuel', heq⟩ := getArgcFrom_text rest h h0 fuel n hfuel
  rw [heq]
  by_cases hend : endsInGap text = true
  · rw [if_pos hend, getArgcFrom_skipped _ hfuel']
    exact ⟨fun h _ => h, fun h => h hend⟩
  · rw [if_neg hend]
    exact iff_of_true rfl fun h => absurd h hend

/-- **The words of the line are counted right** just if the line does not end with a gap, or
what stands behind it is passed over. -/
theorem getArgc_iff {text : Buffer} (rest : Buffer) (h0 : 0 ∉ text) :
    kshellParseGetArgc (text ++ 0 :: rest) = some (words kshellParseIsDelimiter text).length ↔
      (endsInGap text = true → Skipped rest) := by
  unfold kshellParseGetArgc
  rcases starts_or_gap text with rfl | hstart | ⟨d, gap, tail, rfl, hd, hgap, htail⟩
  · exact iff_of_true (by simp [getArgcFrom]) (by simp [endsInGap])
  · simpa using getArgcFrom_text_iff rest hstart h0 _ 0 (Nat.le_succ _)
  · rw [words_sep hd, words_gap hgap]
    rcases htail with rfl | htail
    · rw [List.append_nil, List.cons_append, getArgcFrom_gap_end _ _ _ hd hgap,
        endsInGap_gap hd hgap, words_nil, List.length_nil,
        getArgcFrom_skipped 0 (by simp only [List.length_cons, List.length_append]; omega)]
      simp
    · have h0' : 0 ∉ tail := fun hx => h0 (by simp [hx])
      have hne : tail ≠ [] := by
        rintro rfl
        exact htail
      rw [← List.cons_append, endsInGap_append _ hne, ← getArgcFrom_text_iff rest htail h0'
        ((d :: gap ++ tail ++ 0 :: rest).length + 1) 0
        (by simp only [List.length_cons, List.length_append]; omega), Nat.zero_add]
      rcases tail with _ | ⟨c, tail⟩
      · exact htail.elim
      have hc : kshellParseIsDelimiter c = false := htail
      have hcne : c ≠ 0 := fun hx => h0' (hx ▸ List.mem_cons_self)
      rw [List.append_assoc, List.cons_append, List.cons_append,
        getArgcFrom_gap _ _ _ hd hgap hc hcne, getArgcFrom_letter _ _ hc hcne]

/-! ## The arguments -/

/-- Strings one behind the other, up to an empty one. -/
inductive Strings : Buffer → List Buffer → Prop
  | stop (rest : Buffer) : Strings (0 :: rest) []
  | next {word rest : Buffer} {ws : List Buffer} (hne : word ≠ []) (h0 : 0 ∉ word)
      (h : Strings rest ws) : Strings (word ++ 0 :: rest) (word :: ws)

theorem kstrlen_string {word : Buffer} (h0 : 0 ∉ word) (rest : Buffer) :
    kstrlen (word ++ 0 :: rest) = some word.length := by
  induction word with
  | nil => rfl
  | cons c word ih =>
    have hc : c ≠ 0 := fun h => h0 (h ▸ List.mem_cons_self)
    have hword := ih fun h => h0 (List.mem_cons_of_mem c h)
    simp [kstrlen, hc, hword]

theorem kstrlen_none {buffer : Buffer} (h0 : 0 ∉ buffer) : kstrlen buffer = none := by
  induction buffer with
  | nil => rfl
  | cons c buffer ih =>
    have hc : c ≠ 0 := fun h => h0 (h ▸ List.mem_cons_self)
    have hrest := ih fun h => h0 (List.mem_cons_of_mem c h)
    simp [kstrlen, hc, hrest]

theorem takeWhile_string {word : Buffer} (h0 : 0 ∉ word) (rest : Buffer) :
    (word ++ 0 :: rest).takeWhile (· ≠ 0) = word := by
  have hall : ∀ c ∈ word, (decide (c ≠ 0)) = true := fun c hc => by
    simpa using fun h : c = 0 => h0 (h ▸ hc)
  rw [List.takeWhile_append_of_pos hall]
  simp

/-- One round of `kshell_parse_get_argv`. -/
theorem getArgvFrom_next {front word : Buffer} (rest : Buffer) (hne : word ≠ []) (h0 : 0 ∉ word)
    (fuel index : Nat) (argv : List (Option Nat)) (hindex : index < argv.length) :
    getArgvFrom (fuel + 1) (front ++ (word ++ 0 :: rest)) front.length index argv =
      getArgvFrom fuel ((front ++ (word ++ [0])) ++ rest) (front ++ (word ++ [0])).length
        (index + 1) (argv.set index (some front.length)) := by
  rcases word with _ | ⟨c, word⟩
  · exact absurd rfl hne
  have hc : c ≠ 0 := fun h => h0 (h ▸ List.mem_cons_self)
  have hget : (front ++ (c :: word ++ 0 :: rest))[front.length]? = some c := by simp
  have hlen : kstrlen ((front ++ (c :: word ++ 0 :: rest)).drop front.length) =
      some (c :: word).length := by
    rw [List.drop_left]
    exact kstrlen_string h0 rest
  simp only [getArgvFrom, hget, if_neg hc, if_pos hindex, hlen]
  simp

/-- **`argv` holds the strings that stand one behind the other**, if there are slots for them. -/
theorem getArgv_strings {text : Buffer} {ws : List Buffer} (h : Strings text ws) (front : Buffer)
    (fuel index : Nat) (argv : List (Option Nat)) (hfuel : text.length < fuel)
    (hroom : index + ws.length ≤ argv.length) :
    ∃ argv', getArgvFrom fuel (front ++ text) front.length index argv = some argv' ∧
      (∀ j, j < index ∨ index + ws.length ≤ j → argv'[j]? = argv[j]?) ∧
      ∀ i (hi : i < ws.length), ∃ pos, argv'[index + i]? = some (some pos) ∧
        ((front ++ text).drop pos).takeWhile (· ≠ 0) = ws[i] := by
  induction h generalizing front fuel index argv with
  | stop rest =>
    obtain ⟨fuel, rfl⟩ : ∃ f, fuel = f + 1 := ⟨fuel - 1, by omega⟩
    exact ⟨argv, by simp [getArgvFrom], fun j _ => rfl, nofun⟩
  | @next word rest ws hne h0 h ih =>
    obtain ⟨fuel, rfl⟩ : ∃ f, fuel = f + 1 := ⟨fuel - 1, by omega⟩
    simp only [List.length_append, List.length_cons] at hfuel hroom
    obtain ⟨argv', heq, hother, hstrings⟩ := ih (front ++ (word ++ [0])) fuel (index + 1)
      (argv.set index (some front.length)) (by omega) (by rw [List.length_set]; omega)
    have happend : front ++ (word ++ [0]) ++ rest = front ++ (word ++ 0 :: rest) := by simp
    refine ⟨argv', ?_, fun j hj => ?_, fun i hi => ?_⟩
    · rw [getArgvFrom_next rest hne h0 _ _ _ (by omega), heq]
    · rw [List.length_cons] at hj
      rw [hother j (by omega), List.getElem?_set_ne (by omega)]
    · rcases i with _ | i
      · refine ⟨front.length, ?_, ?_⟩
        · rw [Nat.add_zero, hother index (by omega), List.getElem?_set_self (by omega)]
        · rw [List.drop_left, takeWhile_string h0]
          rfl
      · obtain ⟨pos, hpos, hstring⟩ := hstrings i (by simpa using hi)
        refine ⟨pos, ?_, ?_⟩
        · rw [← hpos, Nat.add_right_comm, Nat.add_assoc]
        · rw [← happend, hstring]
          rfl

/-- With a slot too few something is stored past the last one. -/
theorem getArgv_none {text : Buffer} {ws : List Buffer} (h : Strings text ws) (front : Buffer)
    (fuel index : Nat) (argv : List (Option Nat)) (hindex : index ≤ argv.length)
    (hroom : argv.length < index + ws.length) :
    getArgvFrom fuel (front ++ text) front.length index argv = none := by
  induction h generalizing front fuel index argv with
  | stop rest => simp at hroom; omega
  | @next word rest ws hne h0 h ih =>
    rcases fuel with _ | fuel
    · rfl
    by_cases hlt : index < argv.length
    · rw [getArgvFrom_next rest hne h0 _ _ _ hlt]
      apply ih
      · rw [List.length_set]
        omega
      · rw [List.length_cons] at hroom
        rw [List.length_set]
        omega
    · rcases word with _ | ⟨c, word⟩
      · exact absurd rfl hne
      have hc : c ≠ 0 := fun h => h0 (h ▸ List.mem_cons_self)
      simp [getArgvFrom, hc, hlt]

/-- `argv` is read back from the formatted buffer as these words, with NULL behind them. -/
def Collects (formatted : Buffer) (expected : List Buffer) : Prop :=
  ∃ argv, kshellParseGetArgv formatted noArguments = some argv ∧
    (∀ i (hi : i < expected.length), ∃ pos, argv[i]? = some (some pos) ∧
      (formatted.drop pos).takeWhile (· ≠ 0) = expected[i]) ∧
    (expected.length < SHELL_ARGV_MAX_COUNT → argv[expected.length]? = some none)

/-- **`argv` holds just these words** if the strings in the buffer are these words. -/
theorem collects_iff {text : Buffer} {ws expected : List Buffer} (h : Strings text ws)
    (hexpected : expected.length ≤ SHELL_ARGV_MAX_COUNT) :
    Collects text expected ↔ ws = expected := by
  have hslots : noArguments.length = SHELL_ARGV_MAX_COUNT := rfl
  have hnull : ∀ j, j < SHELL_ARGV_MAX_COUNT → noArguments[j]? = some none := fun j hj => by
    simp [noArguments, hj]
  by_cases hroom : ws.length ≤ SHELL_ARGV_MAX_COUNT
  · obtain ⟨argv, heq, hother, hstrings⟩ := getArgv_strings h [] (text.length + 1) 0 noArguments
      (Nat.lt_succ_self _) (by omega)
    simp only [List.nil_append, List.length_nil, Nat.zero_add, Nat.not_lt_zero, false_or]
      at heq hother hstrings
    constructor
    · rintro ⟨argv', heq', hwords, hend⟩
      obtain rfl : argv = argv' := Option.some.inj (heq.symm.trans heq')
      have hle : expected.length ≤ ws.length := by
        by_contra hlt
        obtain ⟨pos, hpos, -⟩ := hwords ws.length (by omega)
        rw [hother _ le_rfl, hnull _ (by omega)] at hpos
        cases hpos
      have hge : ws.length ≤ expected.length := by
        by_contra hlt
        obtain ⟨pos, hpos, -⟩ := hstrings expected.length (by omega)
        rw [hend (by omega)] at hpos
        cases hpos
      refine List.ext_getElem (by omega) fun i hi hi' => ?_
      obtain ⟨pos, hpos, hstring⟩ := hstrings i hi
      obtain ⟨pos', hpos', hstring'⟩ := hwords i hi'
      rw [hpos, Option.some.injEq, Option.some.injEq] at hpos'
      rw [← hstring, ← hstring', hpos']
    · rintro rfl
      exact ⟨argv, heq, hstrings, fun hlt => by rw [hother _ le_rfl, hnull _ hlt]⟩
  · have hnone := getArgv_none h [] (text.length + 1) 0 noArguments (Nat.zero_le _) (by omega)
    refine iff_of_false ?_ fun heq => hroom (heq ▸ hexpected)
    rintro ⟨argv, heq, -⟩
    simp only [List.nil_append, List.length_nil] at hnone
    rw [kshellParseGetArgv, hnone] at heq
    cases heq

end DelOs.Shell
