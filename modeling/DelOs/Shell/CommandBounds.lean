import DelOs.Shell.Parse

/-!
# Where a command line takes the shell's scanners

None of the three scanners of `setup_run_shell_command` is given a length.  How far each of
them goes is decided by the line, by what stands behind it in the prompt buffer, and for
`argv` by how many strings the formatter leaves.

* `CountStops` — the counting scanner meets a NUL that it does not step over.
* `Passes` — the rounds of the formatter over a text, each with an end for the next one.
* `getArgc_isSome_iff`, `format_isSome_iff` — **each scanner stays in the buffer** just then.
* `passes_of_blank` — two NULs with nothing but delimiters between them stop the formatter.
* `command_line_inside` — **a command line is read and stored inside the arrays** just if both
  scanners stop and not more strings are left than `argv` has slots.
-/

namespace DelOs.Shell

open Words

/-! ## Counting -/

/-- Some NUL of the buffer stands in front of everything, or behind a byte that is no
delimiter.  A NUL behind a delimiter is stepped over. -/
def CountStops (buffer : Buffer) : Prop :=
  ∃ front rest, buffer = front ++ 0 :: rest ∧ endsInGap front = false

theorem zero_not_mem_gap {gap : Buffer} (hgap : ∀ c ∈ gap, kshellParseIsDelimiter c = true) :
    0 ∉ gap := fun h => by simpa [not_delimiter_zero] using hgap 0 h

theorem endsInGap_of_gap {gap : Buffer} (hne : gap ≠ [])
    (hgap : ∀ c ∈ gap, kshellParseIsDelimiter c = true) : endsInGap gap = true := by
  rcases gap with _ | ⟨d, gap⟩
  · exact absurd rfl hne
  · exact endsInGap_gap (hgap d List.mem_cons_self) fun c hc => hgap c (List.mem_cons_of_mem d hc)

/-- A round of the counting scanner passes a gap and the byte behind it, and leaves no NUL out
at which it could have stopped. -/
theorem countStops_round {gap rest : Buffer} {c : UInt8}
    (hgap : ∀ x ∈ gap, kshellParseIsDelimiter x = true) (hc : kshellParseIsDelimiter c = false)
    (hne : gap ≠ [] ∨ c ≠ 0) : CountStops (gap ++ c :: rest) ↔ CountStops rest := by
  constructor
  · rintro ⟨front, behind, heq, hend⟩
    rcases List.append_eq_append_iff.1 heq with ⟨more, rfl, hmore⟩ | ⟨more, rfl, hmore⟩
    · -- the NUL stands behind the gap
      rcases more with _ | ⟨x, more⟩
      · obtain ⟨rfl, -⟩ := List.cons.inj hmore
        rw [List.append_nil, endsInGap_of_gap (by simpa using hne) hgap] at hend
        cases hend
      · obtain ⟨rfl, rfl⟩ := List.cons.inj hmore
        refine ⟨more, behind, rfl, ?_⟩
        by_cases hnil : more = []
        · rw [hnil]
          rfl
        · have hfront := endsInGap_append (gap ++ [c]) hnil
          rw [List.append_assoc] at hfront
          exact hfront.symm.trans hend
    · -- there is no NUL in the gap
      rcases more with _ | ⟨x, more⟩
      · obtain ⟨rfl, -⟩ := List.cons.inj hmore
        rw [List.append_nil] at hgap hne
        rw [endsInGap_of_gap (by simpa using hne) hgap] at hend
        cases hend
      · obtain ⟨rfl, -⟩ := List.cons.inj hmore
        exact absurd (by simp) (zero_not_mem_gap hgap)
  · rintro ⟨front, behind, rfl, hend⟩
    refine ⟨gap ++ c :: front, behind, by simp, ?_⟩
    by_cases hnil : front = []
    · rw [hnil, endsInGap_append gap (List.cons_ne_nil c [])]
      simpa [endsInGap] using hc
    · have hfront := endsInGap_append (gap ++ [c]) hnil
      rw [List.append_assoc] at hfront
      exact hfront.trans hend

theorem not_countStops_of_gap {gap : Buffer}
    (hgap : ∀ c ∈ gap, kshellParseIsDelimiter c = true) : ¬CountStops gap := by
  rintro ⟨front, rest, rfl, -⟩
  exact zero_not_mem_gap hgap (by simp)

/-- **The counting scanner stays in the buffer** just if it meets a NUL to stop at. -/
theorem getArgcFrom_isSome_iff {fuel : Nat} {buffer : Buffer} (inAWord : Bool) (n : Nat)
    (hfuel : buffer.length < fuel) :
    (getArgcFrom fuel inAWord n buffer).isSome = true ↔ CountStops buffer := by
  induction fuel generalizing inAWord n buffer with
  | zero => omega
  | succ fuel ih =>
    rcases buffer with _ | ⟨c, buffer⟩
    · exact iff_of_false (by simp [getArgcFrom]) (not_countStops_of_gap nofun)
    by_cases h0 : c = 0
    · subst h0
      exact iff_of_true (by simp [getArgcFrom]) ⟨[], buffer, rfl, rfl⟩
    -- the gap in front of the byte that is looked at
    have hsplit := (c :: buffer).takeWhile_append_dropWhile (p := kshellParseIsDelimiter)
    have hgap : ∀ x ∈ (c :: buffer).takeWhile kshellParseIsDelimiter,
        kshellParseIsDelimiter x = true := fun x hx => List.all_eq_true.1 List.all_takeWhile x hx
    rw [getArgcFrom, if_neg h0]
    dsimp only
    generalize (if kshellParseIsDelimiter c = true then false else inAWord) = inAWord'
    rcases hdrop : (c :: buffer).dropWhile kshellParseIsDelimiter with _ | ⟨x, rest⟩
    · rw [hdrop, List.append_nil] at hsplit
      rw [hsplit] at hgap
      rw [skipDelimiters_none hdrop]
      exact iff_of_false (by simp) (not_countStops_of_gap hgap)
    · have hx : kshellParseIsDelimiter x = false := head_next hdrop
      rw [hdrop] at hsplit
      have hlen := congrArg List.length hsplit
      rw [skipDelimiters_eq hdrop, ← hsplit, countStops_round hgap hx]
      · have hrest : rest.length < fuel := by
          simp only [List.length_append, List.length_cons] at hlen hfuel
          omega
        dsimp only
        split
        · exact ih true (n + 1) hrest
        · exact ih inAWord' n hrest
      · by_contra hboth
        simp only [not_or, not_not] at hboth
        rw [hboth.1, hboth.2] at hsplit
        exact h0 (List.cons.inj hsplit).1.symm

theorem getArgc_isSome_iff (buffer : Buffer) :
    (kshellParseGetArgc buffer).isSome = true ↔ CountStops buffer :=
  getArgcFrom_isSome_iff false 0 (Nat.lt_succ_self _)

/-! ## Formatting -/

/-- The rounds of the formatter over a text.  Behind a word and the byte that ends it `jump`
bytes are passed over, and a gap; the text found there takes the place behind the word, with
its NUL, and the length of the gap is added to `jump`.  An empty text is the end, `n` rounds
later. -/
inductive Passes : Nat → Buffer → Nat → Prop
  | stop (jump : Nat) (rest : Buffer) : Passes jump (0 :: rest) 0
  | next {jump n : Nat} {word behind gap text rest : Buffer} {c : UInt8}
      (hne : word ≠ [] ∨ c ≠ 0) (hword : ∀ x ∈ word, inWord x = true) (hc : inWord c = false)
      (hfound : behind.drop jump = gap ++ (text ++ 0 :: rest))
      (hgap : ∀ x ∈ gap, kshellParseIsDelimiter x = true) (h0 : 0 ∉ text)
      (hstart : text = [] ∨ Starts kshellParseIsDelimiter text)
      (h : Passes (jump + gap.length) (text ++ 0 :: behind.drop (text.length + 1)) n) :
      Passes jump (word ++ c :: behind) (n + 1)

/-- What a scan finds in front of a NUL: a gap, and a text up to the first NUL behind it. -/
theorem found_text {scanned : Buffer} (h0 : 0 ∈ scanned) :
    ∃ gap text rest, scanned = gap ++ (text ++ 0 :: rest) ∧
      (∀ x ∈ gap, kshellParseIsDelimiter x = true) ∧ 0 ∉ text ∧
      (text = [] ∨ Starts kshellParseIsDelimiter text) := by
  have hsplit := line_append_stale (zero_mem_dropWhile h0)
  refine ⟨scanned.takeWhile kshellParseIsDelimiter,
    line (scanned.dropWhile kshellParseIsDelimiter),
    stale (scanned.dropWhile kshellParseIsDelimiter), ?_,
    fun x hx => List.all_eq_true.1 List.all_takeWhile x hx, zero_not_mem_line _, ?_⟩
  · rw [hsplit, List.takeWhile_append_dropWhile]
  · have hhead := head_moved scanned []
    rcases hline : line (scanned.dropWhile kshellParseIsDelimiter) with _ | ⟨x, text⟩
    · exact Or.inl rfl
    · rw [hline] at hhead
      exact Or.inr (by simpa [Starts] using hhead)

/-- The first word of a text is cut off. -/
theorem first_word_cut {c : UInt8} {text : Buffer} (hc : c ≠ 0)
    (hrun : (c :: text).dropWhile inWord ≠ []) :
    ∃ word x behind, c :: text = word ++ x :: behind ∧ (c :: text).takeWhile inWord = word ∧
      (word ≠ [] ∨ x ≠ 0) ∧ (∀ y ∈ word, inWord y = true) ∧ inWord x = false := by
  have hsplit := (c :: text).takeWhile_append_dropWhile (p := inWord)
  have hhead := List.head?_dropWhile_not inWord (c :: text)
  rcases hbehind : (c :: text).dropWhile inWord with _ | ⟨x, behind⟩
  · exact absurd hbehind hrun
  rw [hbehind] at hsplit hhead
  refine ⟨_, x, behind, hsplit.symm, rfl, ?_, takeWhile_inWord _, by simpa using hhead⟩
  by_contra hboth
  simp only [not_or, not_not] at hboth
  rw [hboth.1, hboth.2] at hsplit
  exact hc (List.cons.inj hsplit).1.symm

/-- **The formatter leaves as many strings** as there are rounds. -/
theorem wordsLeft_of_passes {jump n : Nat} {text : Buffer} (h : Passes jump text n) {fuel : Nat}
    (hfuel : text.length < fuel) : ∃ ws, wordsLeft fuel jump text = some ws ∧ ws.length = n := by
  induction h generalizing fuel with
  | stop jump rest =>
    obtain ⟨fuel, rfl⟩ : ∃ f, fuel = f + 1 := ⟨fuel - 1, by omega⟩
    exact ⟨[], wordsLeft_stop fuel jump rest, rfl⟩
  | @next jump n word behind gap text rest c hne hword hc hfound hgap h0 hstart h ih =>
    obtain ⟨fuel, rfl⟩ : ∃ f, fuel = f + 1 := ⟨fuel - 1, by omega⟩
    have hlen := congrArg List.length hfound
    simp only [List.length_drop, List.length_append, List.length_cons] at hlen hfuel
    obtain ⟨ws, hws, hn⟩ := @ih fuel (by
      simp only [List.length_append, List.length_cons, List.length_drop]
      omega)
    refine ⟨word :: ws, ?_, by rw [List.length_cons, hn]⟩
    rw [wordsLeft_round fuel jump hne hword hc hfound hgap h0 hstart, hws]
    rfl

theorem passes_of_wordsLeft {fuel jump : Nat} {text : Buffer} {ws : List Buffer}
    (h : wordsLeft fuel jump text = some ws) : Passes jump text ws.length := by
  induction fuel generalizing jump text ws with
  | zero => cases h
  | succ fuel ih =>
    rcases text with _ | ⟨c, text⟩
    · cases h
    by_cases hc : c = 0
    · subst hc
      rw [wordsLeft_stop, Option.some.injEq] at h
      subst h
      exact Passes.stop jump text
    by_cases hrun : (c :: text).dropWhile inWord = []
    · simp [wordsLeft, hc, hrun] at h
    obtain ⟨word, x, behind, hsplit, -, hne, hword, hx⟩ := first_word_cut hc hrun
    rw [hsplit] at h ⊢
    by_cases h0 : 0 ∈ behind.drop jump
    · obtain ⟨gap, next, rest, hfound, hgap, hnext, hstart⟩ := found_text h0
      rw [wordsLeft_round fuel jump hne hword hx hfound hgap hnext hstart,
        Option.map_eq_some_iff] at h
      obtain ⟨ws, hws, rfl⟩ := h
      exact Passes.next hne hword hx hfound hgap hnext hstart (ih hws)
    · have hnone : 0 ∉ (behind.drop jump).dropWhile kshellParseIsDelimiter := fun hmem =>
        h0 ((List.dropWhile_suffix _).subset hmem)
      rw [wordsLeft_step fuel jump hne hword hx rfl, if_neg hnone] at h
      cases h

/-- The buffer begins with a delimiter, which the formatter makes the end of an empty string. -/
def startsInGap (buffer : Buffer) : Bool := buffer.head?.any kshellParseIsDelimiter

/-- The formatter leaves the words it passes, behind an empty string if the buffer begins with a
delimiter, or runs out of the buffer. -/
theorem format_cases {c : UInt8} {buffer : Buffer} (hc : c ≠ 0) :
    match wordsLeft (buffer.length + 2) 0 (c :: buffer) with
    | none => kshellParseFormattingBuffer (c :: buffer) = none
    | some ws => ∃ formatted, kshellParseFormattingBuffer (c :: buffer) = some formatted ∧
        Strings formatted (if startsInGap (c :: buffer) then [] else ws) := by
  by_cases hd : kshellParseIsDelimiter c = true
  · have hstarts : startsInGap (c :: buffer) = true := hd
    have hstep := @wordsLeft_step [] buffer _ c (buffer.length + 1) 0 (Or.inr hc)
      (fun _ hx => absurd hx List.not_mem_nil) (by simp [inWord, hd]) rfl
    rw [List.nil_append, List.drop_zero] at hstep
    rw [hstep]
    by_cases h0 : 0 ∈ buffer.dropWhile kshellParseIsDelimiter
    · rw [if_pos h0, format_gap hd rfl h0, Nat.zero_add]
      have hspec := formatFrom_spec (buffer.length + 1)
        (buffer.length - (buffer.dropWhile kshellParseIsDelimiter).length) [0]
        (head_moved buffer
          (buffer.drop ((line (buffer.dropWhile kshellParseIsDelimiter)).length + 1)))
      rcases hws : wordsLeft (buffer.length + 1)
        (buffer.length - (buffer.dropWhile kshellParseIsDelimiter).length)
        (line (buffer.dropWhile kshellParseIsDelimiter) ++ 0 ::
          buffer.drop ((line (buffer.dropWhile kshellParseIsDelimiter)).length + 1)) with _ | ws
      · rw [hws] at hspec
        exact hspec
      · rw [hws] at hspec
        obtain ⟨formatted, heq, -⟩ := hspec
        refine ⟨_, heq, ?_⟩
        rw [if_pos hstarts]
        exact Strings.stop formatted
    · rw [if_neg h0]
      exact @formatFrom_fails [] [] buffer c (buffer.length + 1) 0 (Or.inr hc)
        (fun _ hx => absurd hx List.not_mem_nil) (by simp [inWord, hd]) h0
  · have hstarts : startsInGap (c :: buffer) = false := by simpa [startsInGap] using hd
    have hspec := @formatFrom_spec (c :: buffer) (buffer.length + 2) 0 []
      (by simpa using hd)
    simp only [hstarts, Bool.false_eq_true, if_false]
    exact hspec

/-- **The formatter stays in the buffer** just if every round finds an end for the next one; and
it leaves one string a round then. -/
theorem format_passes {c : UInt8} {buffer : Buffer} {n : Nat} (hc : c ≠ 0)
    (h : Passes 0 (c :: buffer) n) :
    ∃ formatted ws, kshellParseFormattingBuffer (c :: buffer) = some formatted ∧
      Strings formatted ws ∧ ws.length = if startsInGap (c :: buffer) then 0 else n := by
  obtain ⟨ws, hws, rfl⟩ := wordsLeft_of_passes h (Nat.lt_succ_self _)
  have hcases := @format_cases c buffer hc
  rw [List.length_cons] at hws
  rw [hws] at hcases
  obtain ⟨formatted, heq, hstrings⟩ := hcases
  refine ⟨formatted, _, heq, hstrings, ?_⟩
  split <;> rfl

theorem passes_of_format {c : UInt8} {buffer formatted : Buffer} (hc : c ≠ 0)
    (h : kshellParseFormattingBuffer (c :: buffer) = some formatted) :
    ∃ n, Passes 0 (c :: buffer) n := by
  have hcases := @format_cases c buffer hc
  rcases hws : wordsLeft (buffer.length + 2) 0 (c :: buffer) with _ | ws
  · rw [hws, h] at hcases
    cases hcases
  · exact ⟨ws.length, passes_of_wordsLeft hws⟩

/-- The first NUL is found where there is one to be found. -/
theorem found_length_le {scanned gap text rest behind : Buffer} {d : Nat}
    (hfound : scanned = gap ++ (text ++ 0 :: rest))
    (hgap : ∀ x ∈ gap, kshellParseIsDelimiter x = true) (h0 : 0 ∉ text)
    (hd : scanned.drop d = 0 :: behind) : gap.length + text.length ≤ d := by
  have hget : scanned[d]? = some 0 := by
    rw [← List.head?_drop, hd]
    rfl
  have hfront : 0 ∉ gap ++ text := by
    rw [List.mem_append, not_or]
    exact ⟨zero_not_mem_gap hgap, h0⟩
  by_contra hlt
  rw [hfound, ← List.append_assoc, List.getElem?_append_left (by
    rw [List.length_append]
    omega)] at hget
  exact hfront (List.mem_of_getElem? hget)

theorem run_length_le (text rest : Buffer) :
    ((text ++ 0 :: rest).takeWhile inWord).length ≤ text.length := by
  rw [List.takeWhile_append]
  split
  · simp [inWord]
  · exact (List.takeWhile_prefix inWord).length_le

/-- The scans do not come past two NULs with nothing but delimiters between them, `q` bytes from
where the text begins. -/
theorem passes_in_front_of_blank {jump q : Nat} {text gap rest : Buffer}
    (hgap : ∀ x ∈ gap, kshellParseIsDelimiter x = true)
    (hblank : text.drop q = 0 :: (gap ++ 0 :: rest))
    (hword : (text.takeWhile inWord).length + jump ≤ q) : ∃ n, Passes jump text n := by
  -- over the text, which every round makes shorter by a word and the byte behind it
  induction hlen : text.length using Nat.strong_induction_on generalizing jump q text with
  | _ len ih =>
  rcases text with _ | ⟨c, text⟩
  · simp at hblank
  by_cases hc : c = 0
  · subst hc
    exact ⟨0, Passes.stop jump text⟩
  have hmem : 0 ∈ c :: text := (List.drop_suffix q _).subset (hblank ▸ List.mem_cons_self)
  have hrun : (c :: text).dropWhile inWord ≠ [] := fun hnil => by
    have hsplit := (c :: text).takeWhile_append_dropWhile (p := inWord)
    rw [hnil, List.append_nil] at hsplit
    exact zero_not_mem_run (c :: text) (hsplit.symm ▸ hmem)
  obtain ⟨word, x, behind, hsplit, hcut, hne, hin, hx⟩ := first_word_cut hc hrun
  rw [hcut] at hword
  rw [hsplit] at hblank hlen ⊢
  -- the place of the two NULs, counted from behind the word
  have hdrop : ∀ k, (word ++ x :: behind).drop (word.length + (k + 1)) = behind.drop k := fun k => by
    simp
  obtain ⟨k, rfl⟩ : ∃ k, q = word.length + (jump + k) := ⟨q - word.length - jump, by omega⟩
  rcases k with _ | d
  · have hfound : behind.drop jump = gap ++ ([] ++ 0 :: rest) := by
      have hnext := congrArg (List.drop 1) hblank
      rw [List.drop_drop, Nat.add_zero, Nat.add_assoc, hdrop] at hnext
      exact hnext
    exact ⟨1, Passes.next hne hin hx hfound hgap List.not_mem_nil (Or.inl rfl)
      (Passes.stop _ _)⟩
  · rw [← Nat.add_assoc jump, hdrop] at hblank
    have hscan : (behind.drop jump).drop d = 0 :: (gap ++ 0 :: rest) := by
      rw [List.drop_drop, hblank]
    obtain ⟨gap', next, rest', hfound, hgap', h0, hstart⟩ :=
      found_text ((List.drop_suffix d _).subset (hscan ▸ List.mem_cons_self))
    have hle := found_length_le hfound hgap' h0 hscan
    have hsize := congrArg List.length hfound
    simp only [List.length_drop, List.length_append, List.length_cons] at hsize hlen
    -- what is moved ends in front of the two NULs, or with the first of them
    have hmoved : (next ++ 0 :: behind.drop (next.length + 1)).drop (jump + d) =
        0 :: (gap ++ 0 :: rest) := by
      rcases Nat.lt_or_ge next.length (jump + d) with hlt | hge
      · obtain ⟨m, hm⟩ : ∃ m, jump + d = next.length + (m + 1) := ⟨jump + d - next.length - 1,
          by omega⟩
        rw [hm, List.drop_length_add_append, List.drop_succ_cons, List.drop_drop, ← hblank, hm]
        congr 1
        omega
      · have heq : jump + d = next.length := by omega
        rw [heq, List.drop_left, ← List.drop_drop, ← heq, hblank]
        rfl
    have hword' : ((next ++ 0 :: behind.drop (next.length + 1)).takeWhile inWord).length +
        (jump + gap'.length) ≤ jump + d := by
      have hshort := run_length_le next (behind.drop (next.length + 1))
      omega
    obtain ⟨n, hn⟩ := ih _ (by
      rw [← hlen]
      simp only [List.length_append, List.length_cons, List.length_drop]
      omega) hmoved hword' rfl
    exact ⟨n + 1, Passes.next hne hin hx hfound hgap' h0 hstart hn⟩

/-- **Two NULs with nothing but delimiters between them stop the formatter**, whatever stands in
front of them and behind. -/
theorem passes_of_blank {front gap : Buffer} (rest : Buffer)
    (hgap : ∀ x ∈ gap, kshellParseIsDelimiter x = true) :
    ∃ n, Passes 0 (front ++ 0 :: (gap ++ 0 :: rest)) n :=
  passes_in_front_of_blank hgap (q := front.length) List.drop_left
    (run_length_le front (gap ++ 0 :: rest))

/-! ## The command -/

/-- `argv` has a slot for every string. -/
theorem getArgv_isSome_iff {text : Buffer} {ws : List Buffer} (h : Strings text ws) :
    (∃ argv, kshellParseGetArgv text noArguments = some argv) ↔
      ws.length ≤ SHELL_ARGV_MAX_COUNT := by
  have hslots : noArguments.length = SHELL_ARGV_MAX_COUNT := rfl
  constructor
  · rintro ⟨argv, heq⟩
    by_contra hroom
    have hnone := getArgv_none h [] (text.length + 1) 0 noArguments (Nat.zero_le _) (by omega)
    exact absurd (hnone.symm.trans heq) nofun
  · intro hroom
    obtain ⟨argv, heq, -⟩ := getArgv_strings h [] (text.length + 1) 0 noArguments
      (Nat.lt_succ_self _) (by omega)
    exact ⟨argv, heq⟩

/-- When the command line stays inside the shell's arrays.  The line is empty; or a NUL stands
where the counting scanner stops, every round of the formatter finds a NUL for the next one,
and there are no more rounds than `argv` has slots, or the line begins with a delimiter. -/
def StaysInside (buffer : Buffer) : Prop :=
  line buffer = [] ∨
    (CountStops buffer ∧ ∃ n, Passes 0 buffer n ∧
      (n ≤ SHELL_ARGV_MAX_COUNT ∨ startsInGap buffer = true))

/-- **A command line is read and stored inside the prompt buffer and `argv`** just if both
scanners stop in the buffer and `argv` has a slot for every string. -/
theorem command_line_inside (prompt : PromptBuffer) :
    (∃ r, setupRunShellCommand prompt.bytes = some r) ↔ StaysInside prompt.bytes := by
  rcases hbytes : prompt.bytes with _ | ⟨c, buffer⟩
  · have hmem := prompt.terminated
    rw [hbytes] at hmem
    cases hmem
  unfold StaysInside setupRunShellCommand
  by_cases hc : c = 0
  · subst hc
    exact iff_of_true ⟨_, rfl⟩ (Or.inl (by simp [line]))
  have hline : line (c :: buffer) ≠ [] := by simp [line, hc]
  simp only [if_neg hc, Option.bind_eq_bind, Option.bind_eq_some_iff, hline, false_or,
    Option.some.injEq]
  constructor
  · rintro ⟨_, argc, hargc, formatted, hformatted, argv, hargv, -⟩
    obtain ⟨n, hpasses⟩ := passes_of_format hc hformatted
    refine ⟨(getArgc_isSome_iff _).1 (by rw [hargc]; rfl), n, hpasses, ?_⟩
    obtain ⟨formatted', ws, heq, hstrings, hlength⟩ := format_passes hc hpasses
    obtain rfl : formatted = formatted' := Option.some.inj (hformatted.symm.trans heq)
    have hroom := (getArgv_isSome_iff hstrings).1 ⟨argv, hargv⟩
    by_cases hstarts : startsInGap (c :: buffer) = true
    · exact Or.inr hstarts
    · rw [hlength, if_neg hstarts] at hroom
      exact Or.inl hroom
  · rintro ⟨hstops, n, hpasses, hroom⟩
    obtain ⟨argc, hargc⟩ := Option.isSome_iff_exists.1 ((getArgc_isSome_iff _).2 hstops)
    obtain ⟨formatted, ws, hformatted, hstrings, hlength⟩ := format_passes hc hpasses
    have hslots : ws.length ≤ SHELL_ARGV_MAX_COUNT := by
      rw [hlength]
      rcases hroom with hroom | hroom
      · split
        · exact Nat.zero_le _
        · exact hroom
      · rw [if_pos hroom]
        exact Nat.zero_le _
    obtain ⟨argv, hargv⟩ := (getArgv_isSome_iff hstrings).2 hslots
    exact ⟨_, argc, hargc, formatted, hformatted, argv, hargv, rfl⟩

/-- Seventeen words, in a buffer that holds nothing else. -/
def seventeenWords : PromptBuffer :=
  promptOf ((List.replicate 16 [0x61, 0x20]).flatten ++ [0x61]) [] (by decide)

/-- Both scanners stop in the buffer, and the seventeenth word is stored behind the last slot of
`argv`. -/
theorem seventeen_words_outside :
    (kshellParseGetArgc seventeenWords.bytes).isSome = true ∧
      (kshellParseFormattingBuffer seventeenWords.bytes).isSome = true ∧
      ¬∃ r, setupRunShellCommand seventeenWords.bytes = some r := by
  refine ⟨by decide +kernel, by decide +kernel, ?_⟩
  have hnone : (setupRunShellCommand seventeenWords.bytes).isNone = true := by decide +kernel
  rintro ⟨r, hr⟩
  rw [hr] at hnone
  cases hnone

end DelOs.Shell
