import Mathlib.Data.List.TakeWhile
import DelOs.Shell.Format

/-!
# A command line is parsed into its words

When the words of a line are what `setup_run_shell_command` gives to the command.  The
formatter does not set `jump_tmp` back between two words, so that the scan for a word begins
behind the first letters of it when the gap in front is shorter than the one before; and it
looks for another word behind the end of the line, where older text stands.

* `Residue` — what a move leaves behind the terminator of the text that has moved up.
* `wordsLeft_iff` — **every word is left** if every scan lands in the gap, or behind the line;
  and only then, if no word of the line ends with an earlier one.
* `prompt_parsed` — **the prompt buffer is parsed into the words of its line** under the same
  conditions.
-/

namespace DelOs.Shell

open Words

/-! ## Rounds of the formatter -/

theorem wordsLeft_stop (fuel jump : Nat) (text : Buffer) :
    wordsLeft (fuel + 1) jump (0 :: text) = some [] := by
  simp [wordsLeft]

theorem inWord_word {word : Buffer} (hword : ∀ x ∈ word, kshellParseIsDelimiter x = false)
    (h0 : 0 ∉ word) : ∀ x ∈ word, inWord x = true := fun x hx =>
  inWord_of_starts (hword x hx) fun h => h0 (h ▸ hx)

theorem line_append {text : Buffer} (h0 : 0 ∉ text) (rest : Buffer) :
    line (text ++ 0 :: rest) = text := takeWhile_string h0 rest

/-- A round, with the first word cut off. -/
theorem wordsLeft_step {word behind next : Buffer} {c : UInt8} (fuel jump : Nat)
    (hne : word ≠ [] ∨ c ≠ 0) (hword : ∀ x ∈ word, inWord x = true) (hc : inWord c = false)
    (hnext : (behind.drop jump).dropWhile kshellParseIsDelimiter = next) :
    wordsLeft (fuel + 1) jump (word ++ c :: behind) =
      if 0 ∈ next then
        (wordsLeft fuel (jump + ((behind.drop jump).length - next.length))
          (line next ++ 0 :: behind.drop ((line next).length + 1))).map (word :: ·)
      else none := by
  have hrun : (word ++ c :: behind).dropWhile inWord = c :: behind := by
    rw [List.dropWhile_append_of_pos hword, List.dropWhile_cons_of_neg (by simp [hc])]
  have htake : (word ++ c :: behind).takeWhile inWord = word := by
    rw [List.takeWhile_append_of_pos hword, List.takeWhile_cons_of_neg (by simp [hc]),
      List.append_nil]
  obtain ⟨d, text, htext, hd⟩ : ∃ d text, word ++ c :: behind = d :: text ∧ d ≠ 0 := by
    rcases word with _ | ⟨d, word⟩
    · exact ⟨c, behind, rfl, by simpa using hne⟩
    · refine ⟨d, word ++ c :: behind, rfl, ?_⟩
      rintro rfl
      simpa [inWord] using hword 0 List.mem_cons_self
  rw [htext] at hrun htake ⊢
  simp only [wordsLeft, if_neg hd, hrun, htake, hnext]

/-- A round in which the scan finds an end. -/
theorem wordsLeft_round {word behind gap next rest : Buffer} {c : UInt8} (fuel jump : Nat)
    (hne : word ≠ [] ∨ c ≠ 0) (hword : ∀ x ∈ word, inWord x = true) (hc : inWord c = false)
    (hbehind : behind.drop jump = gap ++ (next ++ 0 :: rest))
    (hgap : ∀ x ∈ gap, kshellParseIsDelimiter x = true) (h0 : 0 ∉ next)
    (hnext : next = [] ∨ Starts kshellParseIsDelimiter next) :
    wordsLeft (fuel + 1) jump (word ++ c :: behind) =
      (wordsLeft fuel (jump + gap.length) (next ++ 0 :: behind.drop (next.length + 1))).map
        (word :: ·) := by
  have hscan : (behind.drop jump).dropWhile kshellParseIsDelimiter = next ++ 0 :: rest := by
    rw [hbehind, List.dropWhile_append_of_pos hgap]
    rcases next with _ | ⟨x, next⟩
    · rfl
    · have hx : kshellParseIsDelimiter x = false := by simpa [Starts] using hnext
      rw [List.cons_append, List.dropWhile_cons_of_neg (by simp [hx])]
  have hsize : (behind.drop jump).length - (next ++ 0 :: rest).length = gap.length := by
    rw [hbehind, List.length_append]
    omega
  rw [wordsLeft_step fuel jump hne hword hc hscan, hsize, line_append h0, if_pos (by simp)]

/-- The first word is left whatever comes behind it. -/
theorem wordsLeft_first {c : UInt8} {text : Buffer} {fuel jump : Nat} {ws : List Buffer}
    (hc : c ≠ 0) (h : wordsLeft fuel jump (c :: text) = some ws) :
    ∃ others, ws = (c :: text).takeWhile inWord :: others := by
  rcases fuel with _ | fuel
  · cases h
  simp only [wordsLeft, if_neg hc] at h
  split at h
  · cases h
  · split at h
    · rw [Option.map_eq_some_iff] at h
      obtain ⟨others, -, rfl⟩ := h
      exact ⟨others, rfl⟩
    · cases h

/-- The scan behind the last word finds nothing just if nothing stands where it begins. -/
theorem wordsLeft_last {word behind rest : Buffer} {c : UInt8} (fuel jump : Nat)
    (hne : word ≠ []) (hword : ∀ x ∈ word, inWord x = true) (hc : inWord c = false)
    (hrest : behind.drop jump = rest) :
    wordsLeft (fuel + 2) jump (word ++ c :: behind) = some [word] ↔ Blank rest := by
  constructor
  · intro h
    by_contra hblank
    rw [wordsLeft_step (fuel + 1) jump (Or.inl hne) hword hc rfl, hrest] at h
    rcases hscan : rest.dropWhile kshellParseIsDelimiter with _ | ⟨x, next⟩
    · simp [hscan] at h
    have hx : x ≠ 0 := by
      rintro rfl
      exact hblank ⟨next, hscan⟩
    rw [hscan] at h
    split at h
    · -- another word has been found
      rw [Option.map_eq_some_iff] at h
      obtain ⟨others, hothers, heq⟩ := h
      obtain rfl : others = [] := by simpa using heq
      have hline : line (x :: next) = x :: line next := by simp [line, hx]
      rw [hline, List.cons_append] at hothers
      obtain ⟨_, habs⟩ := wordsLeft_first hx hothers
      cases habs
    · cases h
  · rintro ⟨tail, hscan⟩
    have hsplit : rest.takeWhile kshellParseIsDelimiter ++ ([] ++ 0 :: tail) = rest := by
      rw [List.nil_append, ← hscan, List.takeWhile_append_dropWhile]
    rw [wordsLeft_round (fuel + 1) jump (Or.inl hne) hword hc (hrest.trans hsplit.symm)
      (fun x hx => List.all_eq_true.1 List.all_takeWhile x hx) List.not_mem_nil (Or.inl rfl)]
    simp [wordsLeft]

/-- A scan that lands in a gap, with nothing behind it, finds nothing. -/
theorem wordsLeft_trailing {word behind gap rest : Buffer} {c : UInt8} (fuel jump : Nat)
    (hne : word ≠ []) (hword : ∀ x ∈ word, inWord x = true) (hc : inWord c = false)
    (hbehind : behind.drop jump = gap ++ 0 :: rest)
    (hgap : ∀ x ∈ gap, kshellParseIsDelimiter x = true) :
    wordsLeft (fuel + 2) jump (word ++ c :: behind) = some [word] := by
  refine (wordsLeft_last fuel jump hne hword hc hbehind).2 ⟨rest, ?_⟩
  rw [List.dropWhile_append_of_pos hgap, List.dropWhile_cons_of_neg (by simp [not_delimiter_zero])]

/-- The first word is the right one; the others decide. -/
theorem map_cons_iff {word : Buffer} {left : Option (List Buffer)} {ws : List Buffer} :
    left.map (word :: ·) = some (word :: ws) ↔ left = some ws := by
  rcases left with _ | others <;> simp

/-! ## Scans that land behind the line -/

theorem drop_behind {word behind rest : Buffer} {c : UInt8} {jump : Nat}
    (h : (word ++ c :: behind).drop jump = word ++ c :: rest) : behind.drop jump = rest := by
  have hcut := congrArg (List.drop (word.length + 1)) h
  rw [List.drop_drop, Nat.add_comm jump, ← List.drop_drop, List.drop_length_add_append,
    List.drop_length_add_append] at hcut
  exact hcut

/-- A move does not change what stands behind the text that has moved. -/
theorem drop_moved {text behind : Buffer} {jump : Nat} (h : text.length < jump) :
    (text ++ 0 :: behind.drop (text.length + 1)).drop jump = behind.drop jump := by
  obtain ⟨k, rfl⟩ : ∃ k, jump = text.length + (k + 1) := ⟨jump - text.length - 1, by omega⟩
  rw [List.drop_length_add_append, List.drop_succ_cons, List.drop_drop]
  congr 1
  omega

/-- **Behind the line the same text stands once more**, and there every word is found. -/
theorem wordsLeft_behind {text behind rest : Buffer} {fuel jump : Nat}
    (h : Starts kshellParseIsDelimiter text) (h0 : 0 ∉ text)
    (hcopy : (text ++ 0 :: behind).drop jump = text ++ 0 :: rest) (hjump : text.length < jump)
    (hfuel : (text ++ 0 :: behind).length < fuel) :
    wordsLeft fuel jump (text ++ 0 :: behind) = some (words kshellParseIsDelimiter text) ↔
      Blank rest ∨ endsInGap text = true := by
  -- over the words; every move leaves the copy where it stands
  induction hlen : text.length using Nat.strong_induction_on
    generalizing text behind fuel jump with
  | _ len ih =>
  simp only [List.length_append, List.length_cons] at hfuel
  obtain ⟨fuel, rfl⟩ : ∃ f, fuel = f + 2 := ⟨fuel - 2, by omega⟩
  obtain ⟨word, hne, hword, htext⟩ := h.split
  have hpos := List.length_pos_of_ne_nil hne
  rcases htext with rfl | ⟨d, gap, tail, rfl, hd, hgap, htail⟩
  · rw [words_last hne hword, endsInGap_word hword,
      wordsLeft_last fuel jump hne (inWord_word hword h0) rfl (drop_behind hcopy)]
    simp
  · have hin := inWord_word hword fun hx => h0 (by simp [hx])
    have hdin : inWord d = false := by simp [inWord, hd]
    rw [List.append_assoc, List.append_assoc, List.cons_append, List.cons_append] at hcopy
    have hscan := drop_behind hcopy
    rw [List.append_assoc, List.append_assoc] at hscan
    rw [List.append_assoc, List.cons_append, List.append_assoc, words_run hne hword hd,
      words_gap hgap, endsInGap_append _ (List.cons_ne_nil d _)]
    rcases htail with rfl | htail
    · rw [words_nil, List.append_nil, endsInGap_gap hd hgap]
      exact iff_of_true (wordsLeft_trailing fuel jump hne hin hdin hscan hgap) (Or.inr rfl)
    · have h0' : 0 ∉ tail := fun hx => h0 (by simp [hx])
      have htne : tail ≠ [] := by
        rintro rfl
        exact htail
      simp only [List.length_append, List.length_cons] at hjump hfuel hlen
      rw [wordsLeft_round (fuel + 1) jump (Or.inl hne) hin hdin hscan hgap h0' (Or.inr htail),
        map_cons_iff, ← List.cons_append, endsInGap_append _ htne]
      refine ih tail.length (by omega) htail h0' ?_ (by omega) ?_ rfl
      · rw [drop_moved (by omega), ← List.drop_drop, hscan, List.drop_left]
      · simp only [List.length_append, List.length_cons, List.length_drop]
        omega

/-! ## What a move leaves behind -/

/-- Behind the terminator of a text that has moved up by `jump` bytes stands the end of the text
from before, with its terminator, and then what stood behind it. -/
def Residue (jump : Nat) (text behind rest : Buffer) : Prop :=
  ∃ front left, behind = left ++ rest ∧ left.length = jump ∧ 0 ∉ front ∧
    left <:+ front ++ text ++ [0]

theorem Residue.start (text behind : Buffer) : Residue 0 text behind behind :=
  ⟨[], [], rfl, rfl, List.not_mem_nil, List.nil_suffix⟩

theorem Residue.drop {jump : Nat} {text behind rest : Buffer}
    (h : Residue jump text behind rest) : behind.drop jump = rest := by
  obtain ⟨_, left, rfl, rfl, -⟩ := h
  exact List.drop_left

/-- A scan that begins behind a short rest of the line begins in a copy of it. -/
theorem Residue.copy {jump : Nat} {text behind rest : Buffer}
    (h : Residue jump text behind rest) {tail : Buffer} (htail : tail <:+ text)
    (hlt : tail.length < jump) :
    (tail ++ 0 :: behind).drop jump = tail ++ 0 :: rest := by
  obtain ⟨front, left, rfl, rfl, -, hleft⟩ := h
  obtain ⟨lead, rfl⟩ := htail
  have htail : tail ++ [0] <:+ front ++ (lead ++ tail) ++ [0] := ⟨front ++ lead, by simp⟩
  obtain ⟨lost, hlost⟩ := List.suffix_of_suffix_length_le htail hleft
    (by rw [List.length_append]; exact hlt)
  rw [← hlost, show tail ++ 0 :: (lost ++ (tail ++ [0]) ++ rest) =
    (tail ++ [0] ++ lost) ++ (tail ++ 0 :: rest) by simp]
  exact List.drop_left' (by simp; omega)

/-- A move makes a new residue, in front of the one there was. -/
theorem Residue.move {gap : Buffer} (hgap : 0 ∉ gap) (tail behind : Buffer) :
    Residue gap.length tail ((gap ++ (tail ++ 0 :: behind)).drop (tail.length + 1)) behind := by
  refine ⟨gap, (gap ++ (tail ++ [0])).drop (tail.length + 1), ?_, by simp, hgap, ?_⟩
  · rw [show gap ++ (tail ++ 0 :: behind) = gap ++ (tail ++ [0]) ++ behind by simp,
      List.drop_append_of_le_length (by simp)]
  · rw [List.append_assoc]
    exact List.drop_suffix _ _

/-- **What the scan at the end of the line finds** after a move: nothing, if only the
terminator was left over; a word, if more was. -/
theorem Residue.blank {jump : Nat} {text behind rest : Buffer}
    (h : Residue jump text behind rest) (hend : endsInGap text = false) (hne : text ≠ [])
    (h0 : 0 ∉ text) : Blank behind ↔ jump = 1 ∨ jump = 0 ∧ Blank rest := by
  obtain ⟨front, left, rfl, rfl, hfront, hleft⟩ := h
  rcases left.eq_nil_or_concat with rfl | ⟨lost, c, rfl⟩
  · simp
  rw [List.concat_eq_append] at hleft ⊢
  obtain ⟨rfl, hlost⟩ : c = 0 ∧ lost <:+ front ++ text := by
    obtain ⟨lead, hlead⟩ := hleft
    rw [← List.append_assoc] at hlead
    have heq := List.append_inj' hlead rfl
    exact ⟨by simpa using heq.2, ⟨lead, heq.1⟩⟩
  rcases List.eq_nil_or_concat lost with rfl | ⟨more, x, rfl⟩
  · refine iff_of_true ⟨rest, ?_⟩ (Or.inl rfl)
    simp [not_delimiter_zero]
  · rw [List.concat_eq_append] at hlost ⊢
    refine iff_of_false ?_ (by simp)
    rintro ⟨tail, htail⟩
    have hlast : text.getLast? = some x := by
      obtain ⟨lead, hlead⟩ := hlost
      have h := congrArg List.getLast? hlead
      rw [List.getLast?_append_of_ne_nil _ hne] at h
      rw [← h]
      simp
    have hx : kshellParseIsDelimiter x = false := by simpa [endsInGap, hlast] using hend
    -- the bytes in front of the terminator are no NULs, and not all of them are delimiters
    have hbytes : 0 ∉ more ++ [x] := by
      intro hmem
      rcases List.mem_append.1 (hlost.subset hmem) with h | h
      · exact hfront h
      · exact h0 h
    have hstop : ((more ++ [x]).dropWhile kshellParseIsDelimiter).isEmpty = false := by
      rcases hdrop : (more ++ [x]).dropWhile kshellParseIsDelimiter with _ | _
      · have := List.dropWhile_eq_nil_iff.1 hdrop x (by simp)
        simp [hx] at this
      · rfl
    rw [List.append_assoc, List.dropWhile_append, hstop] at htail
    rcases hdrop : (more ++ [x]).dropWhile kshellParseIsDelimiter with _ | ⟨y, ys⟩
    · simp [hdrop] at hstop
    · have hy : y ∈ more ++ [x] := (List.dropWhile_suffix kshellParseIsDelimiter).subset
        (hdrop ▸ List.mem_cons_self)
      rw [hdrop] at htail
      obtain rfl : y = 0 := by simpa using congrArg List.head? htail
      exact hbytes hy

/-! ## Scans that land in a word -/

/-- No word of the line ends with a word in front of it. -/
def SuffixFree (ws : List Buffer) : Prop := ws.Pairwise fun word later => ¬word <:+ later

/-- The first word that is found when letters of a text have been dropped is not its first
word. -/
theorem first_dropped {tail found : Buffer} {d : Nat} {word : Buffer} {more others : List Buffer}
    (h : Starts kshellParseIsDelimiter tail) (hd : 0 < d)
    (hfound : (tail.drop d).dropWhile kshellParseIsDelimiter = found)
    (hwords : words kshellParseIsDelimiter tail = word :: others)
    (hfree : SuffixFree (word :: others)) : words kshellParseIsDelimiter found ≠ word :: more := by
  intro habs
  obtain ⟨first, hne, hfirst, htail⟩ := h.split
  rcases Nat.lt_or_ge d first.length with hlt | hge
  · -- what is left of the first word is shorter
    have hleft : ∀ x ∈ first.drop d, kshellParseIsDelimiter x = false := fun x hx =>
      hfirst x (List.mem_of_mem_drop hx)
    have hlne : first.drop d ≠ [] := by
      rw [ne_eq, List.drop_eq_nil_iff]
      omega
    have hstop : ∀ rest, (first.drop d ++ rest).dropWhile kshellParseIsDelimiter =
        first.drop d ++ rest := by
      intro rest
      rcases hx : first.drop d with _ | ⟨x, xs⟩
      · exact absurd hx hlne
      · have hxn := hleft x (hx ▸ List.mem_cons_self)
        rw [List.cons_append, List.dropWhile_cons_of_neg (by simp [hxn])]
    have hshort : first.drop d ≠ first := fun h => by
      have := congrArg List.length h
      rw [List.length_drop] at this
      omega
    rcases htail with rfl | ⟨e, gap, rest, rfl, he, -, -⟩
    · rw [words_last hne hfirst] at hwords
      have hstop' := hstop []
      rw [List.append_nil] at hstop'
      rw [← hfound, hstop', words_last hlne hleft] at habs
      injection hwords with hword
      injection habs with habs
      exact hshort (habs.trans hword.symm)
    · rw [words_run hne hfirst he] at hwords
      rw [← hfound, List.drop_append_of_le_length hlt.le, hstop, words_run hlne hleft he] at habs
      injection hwords with hword
      injection habs with habs
      exact hshort (habs.trans hword.symm)
  · -- all of the first word has been dropped
    have hsuffix : found <:+ tail.drop d := hfound ▸ List.dropWhile_suffix _
    have hmem : word ∈ words kshellParseIsDelimiter found := habs ▸ List.mem_cons_self
    rcases htail with rfl | ⟨e, gap, rest, rfl, he, -, -⟩
    · rw [List.drop_eq_nil_iff.2 hge] at hsuffix
      obtain rfl := List.suffix_nil.1 hsuffix
      simp at habs
    · rw [words_run hne hfirst he] at hwords
      injection hwords with hword hothers
      have hdrop : found <:+ e :: (gap ++ rest) := by
        obtain ⟨k, rfl⟩ : ∃ k, d = first.length + k := ⟨d - first.length, by omega⟩
        rw [List.drop_length_add_append] at hsuffix
        exact hsuffix.trans (List.drop_suffix k _)
      obtain ⟨longer, hlonger, hends⟩ := first_suffix_of_word hdrop hmem
      rw [words_sep he, hothers] at hlonger
      exact (List.pairwise_cons.1 hfree).1 longer hlonger hends

/-- The first word of a line, as the formatter sees it. -/
theorem first_word {text : Buffer} (h : Starts kshellParseIsDelimiter text) (h0 : 0 ∉ text)
    (rest : Buffer) : ∃ first more, words kshellParseIsDelimiter text = first :: more ∧
      (text ++ 0 :: rest).takeWhile inWord = first := by
  obtain ⟨first, hne, hfirst, htext⟩ := h.split
  rcases htext with rfl | ⟨e, gap, tail, rfl, he, -, -⟩
  · refine ⟨text, [], words_last hne hfirst, ?_⟩
    rw [List.takeWhile_append_of_pos (inWord_word hfirst h0)]
    simp [inWord]
  · refine ⟨first, _, words_run hne hfirst he, ?_⟩
    rw [List.append_assoc,
      List.takeWhile_append_of_pos (inWord_word hfirst fun hx => h0 (by simp [hx]))]
    simp [inWord, he]

/-- **A scan that lands in a word loses it**, unless a later word ends with it. -/
theorem wordsLeft_inside {word gap tail behind : Buffer} {c : UInt8} {fuel jump : Nat}
    (hne : word ≠ []) (hword : ∀ x ∈ word, inWord x = true) (hc : inWord c = false)
    (htail : Starts kshellParseIsDelimiter tail) (h0 : 0 ∉ tail) (hgap : gap.length < jump)
    (hjump : jump ≤ gap.length + tail.length)
    (hfree : SuffixFree (words kshellParseIsDelimiter tail)) :
    wordsLeft (fuel + 2) jump (word ++ c :: (gap ++ (tail ++ 0 :: behind))) ≠
      some (word :: words kshellParseIsDelimiter tail) := by
  obtain ⟨d, rfl⟩ : ∃ d, jump = gap.length + d := ⟨jump - gap.length, by omega⟩
  obtain ⟨found, hfound⟩ :
      ∃ found, (tail.drop d).dropWhile kshellParseIsDelimiter = found := ⟨_, rfl⟩
  have hscan : (gap ++ (tail ++ 0 :: behind)).drop (gap.length + d) =
      (tail.drop d).takeWhile kshellParseIsDelimiter ++ (found ++ 0 :: behind) := by
    rw [List.drop_length_add_append, List.drop_append_of_le_length (by omega), ← hfound,
      ← List.append_assoc, List.takeWhile_append_dropWhile]
  have hsuffix : found <:+ tail := (hfound ▸ List.dropWhile_suffix _).trans (List.drop_suffix d tail)
  have hstarts : found = [] ∨ Starts kshellParseIsDelimiter found := by
    rcases found with _ | ⟨x, found⟩
    · exact Or.inl rfl
    · exact Or.inr (head_next hfound)
  rw [wordsLeft_round (fuel + 1) _ (Or.inl hne) hword hc hscan
    (fun x hx => List.all_eq_true.1 List.all_takeWhile x hx)
    (fun hx => h0 (hsuffix.subset hx)) hstarts, ne_eq, map_cons_iff]
  intro hleft
  rcases hstarts with rfl | hstarts
  · rw [List.nil_append, wordsLeft_stop, Option.some.injEq] at hleft
    exact htail.words_ne_nil hleft.symm
  · obtain ⟨first, more, hmore, htake⟩ := first_word hstarts
      (fun hx => h0 (hsuffix.subset hx)) ((gap ++ (tail ++ 0 :: behind)).drop (found.length + 1))
    rcases found with _ | ⟨x, found⟩
    · exact hstarts.elim
    have hx : x ≠ 0 := by
      rintro rfl
      exact h0 (hsuffix.subset List.mem_cons_self)
    rw [List.cons_append] at hleft htake
    obtain ⟨others, hothers⟩ := wordsLeft_first hx hleft
    rw [htake] at hothers
    exact first_dropped htail (by omega) hfound hothers (hothers ▸ hfree) hmore

/-! ## The words that are left -/

/-- A scan that lands in the gap at the end of the line, or in the copy of it behind the line, finds
nothing. -/
theorem Residue.wordsLeft_gap {word gap behind rest : Buffer} {d : UInt8} {jump : Nat} (fuel : Nat)
    (hres : Residue jump (word ++ d :: gap) behind rest) (hne : word ≠ [])
    (hword : ∀ x ∈ word, inWord x = true) (hd : inWord d = false)
    (hgap : ∀ x ∈ gap, kshellParseIsDelimiter x = true) :
    wordsLeft (fuel + 2) jump (word ++ d :: (gap ++ 0 :: behind)) = some [word] := by
  rcases Nat.lt_or_ge gap.length jump with hjump | hjump
  · have hcopy := hres.copy (show gap <:+ _ from ⟨word ++ [d], by simp⟩) hjump
    exact wordsLeft_trailing fuel jump hne hword hd hcopy hgap
  · have hdrop : (gap ++ 0 :: behind).drop jump = gap.drop jump ++ 0 :: behind :=
      List.drop_append_of_le_length hjump
    exact wordsLeft_trailing fuel jump hne hword hd hdrop fun x hx =>
      hgap x (List.mem_of_mem_drop hx)

/-- A scan that lands behind the line finds the text that stands there once more. -/
theorem Residue.wordsLeft_over {word gap tail behind rest : Buffer} {d : UInt8} {fuel jump : Nat}
    (hres : Residue jump (word ++ d :: (gap ++ tail)) behind rest) (hne : word ≠ [])
    (hword : ∀ x ∈ word, inWord x = true) (hd : inWord d = false)
    (hgap : ∀ x ∈ gap, kshellParseIsDelimiter x = true)
    (htail : Starts kshellParseIsDelimiter tail) (h0 : 0 ∉ tail)
    (hjump : gap.length + tail.length < jump)
    (hfuel : gap.length + (tail.length + (behind.length + 1)) < fuel + 1) :
    wordsLeft (fuel + 2) jump (word ++ d :: (gap ++ (tail ++ 0 :: behind))) =
        some (word :: words kshellParseIsDelimiter tail) ↔
      Blank rest ∨ endsInGap tail = true := by
  have hcopy := hres.copy (show gap ++ tail <:+ _ from ⟨word ++ [d], by simp⟩)
    (by rw [List.length_append]; exact hjump)
  rw [List.append_assoc, List.append_assoc] at hcopy
  rw [wordsLeft_round (fuel + 1) jump (Or.inl hne) hword hd hcopy hgap h0 (Or.inr htail),
    map_cons_iff]
  refine wordsLeft_behind htail h0 ?_ (by omega) ?_
  · rw [drop_moved (by omega), ← List.drop_drop, hcopy, List.drop_left]
  · simp only [List.length_append, List.length_cons, List.length_drop]
    omega

/-- **The words of the line are left** if every scan lands in the gap or behind the line, and
only then if no word ends with one in front of it. -/
theorem wordsLeft_iff {text behind rest : Buffer} {fuel jump : Nat} {tidy : Prop}
    (h : Starts kshellParseIsDelimiter text) (h0 : 0 ∉ text)
    (hres : Residue jump text behind rest) (htidy : endsInGap text = false → (tidy ↔ Blank rest))
    (hfuel : (text ++ 0 :: behind).length < fuel) :
    (Lands jump tidy text →
      wordsLeft fuel jump (text ++ 0 :: behind) = some (words kshellParseIsDelimiter text)) ∧
    (SuffixFree (words kshellParseIsDelimiter text) →
      wordsLeft fuel jump (text ++ 0 :: behind) = some (words kshellParseIsDelimiter text) →
      Lands jump tidy text) := by
  -- over the words, as long as no scan has landed behind the line
  induction hlen : text.length using Nat.strong_induction_on
    generalizing text behind rest fuel jump tidy with
  | _ len ih =>
  simp only [List.length_append, List.length_cons] at hfuel
  obtain ⟨fuel, rfl⟩ : ∃ f, fuel = f + 2 := ⟨fuel - 2, by omega⟩
  obtain ⟨word, hne, hword, htext⟩ := h.split
  have hpos := List.length_pos_of_ne_nil hne
  rcases htext with rfl | ⟨d, gap, tail, rfl, hd, hgap, htail⟩
  · rw [words_last hne hword, lands_word hword, htidy (endsInGap_word hword),
      wordsLeft_last fuel jump hne (inWord_word hword h0) rfl hres.drop]
    exact ⟨id, fun _ => id⟩
  have hin := inWord_word hword fun hx => h0 (by simp [hx])
  have hdin : inWord d = false := by simp [inWord, hd]
  have hgap0 : 0 ∉ gap := fun hx => by
    simpa [not_delimiter_zero] using hgap 0 hx
  rw [List.append_assoc, List.cons_append, List.append_assoc, words_run hne hword hd,
    words_gap hgap]
  rcases htail with rfl | htail
  · -- nothing comes behind the gap
    rw [List.append_nil] at hres
    rw [words_nil, List.append_nil, List.nil_append]
    exact ⟨fun _ => hres.wordsLeft_gap fuel hne hin hdin hgap,
      fun _ _ => lands_trailing hword hd hgap jump tidy⟩
  have h0' : 0 ∉ tail := fun hx => h0 (by simp [hx])
  have htne : tail ≠ [] := by
    rintro rfl
    exact htail
  have hends : endsInGap (word ++ d :: (gap ++ tail)) = endsInGap tail := by
    rw [endsInGap_append _ (List.cons_ne_nil d _), ← List.cons_append,
      endsInGap_append _ htne]
  rw [hends] at htidy
  simp only [List.length_append, List.length_cons] at hlen hfuel
  rw [lands_gap hword hd hgap htail]
  rcases Nat.lt_or_ge gap.length jump with hjump | hjump
  · rw [if_neg (by omega)]
    rcases Nat.lt_or_ge (gap.length + tail.length) jump with hbehind | hinside
    · -- the scan lands behind the line
      have hiff := hres.wordsLeft_over hne hin hdin hgap htail h0' hbehind
        (show gap.length + (tail.length + (behind.length + 1)) < fuel + 1 by omega)
      have htidy' : tidy ∨ endsInGap tail = true ↔ Blank rest ∨ endsInGap tail = true := by
        by_cases hend : endsInGap tail = true
        · simp [hend]
        · rw [htidy (by simpa using hend)]
      rw [hiff, htidy']
      exact ⟨fun h => h.2, fun _ h => ⟨hbehind, h⟩⟩
    · -- the scan lands in a word
      refine ⟨fun h => by omega, fun hfree habs => ?_⟩
      exact absurd habs (wordsLeft_inside hne hin hdin htail h0' hjump hinside
        (List.pairwise_cons.1 hfree).2)
  · -- the scan lands in the gap
    have hscan : (gap ++ (tail ++ 0 :: behind)).drop jump =
        gap.drop jump ++ (tail ++ 0 :: behind) := List.drop_append_of_le_length hjump
    have hsize : jump + (gap.drop jump).length = gap.length := by
      rw [List.length_drop]
      omega
    rw [if_pos hjump, wordsLeft_round (fuel + 1) jump (Or.inl hne) hin hdin hscan
      (fun x hx => hgap x (List.mem_of_mem_drop hx)) h0' (Or.inr htail), map_cons_iff, hsize]
    have hih := @ih tail.length (by omega) tail _ _ (fuel + 1) _ (jump = 1 ∨ jump = 0 ∧ tidy)
      htail h0' (Residue.move hgap0 tail behind) (fun hend => ?_) ?_ rfl
    · exact ⟨hih.1, fun hfree => hih.2 (List.pairwise_cons.1 hfree).2⟩
    · rw [htidy hend, hres.blank (hends.trans hend) (by simp) h0]
    · simp only [List.length_append, List.length_cons, List.length_drop]
      omega

/-! ## The command -/

/-- When the scanners find the words of the line in the buffer.  The line is empty; or it is
all gap, or begins with a word and every scan of the formatter lands, and nothing is counted
behind a line that ends with a gap. -/
def ScansMeet (buffer : Buffer) : Prop :=
  line buffer = [] ∨
    ((lineWords buffer = [] ∨
        Starts kshellParseIsDelimiter (line buffer) ∧
          Lands 0 (Blank (stale buffer)) (line buffer)) ∧
      (endsInGap (line buffer) = true → Skipped (stale buffer)))

/-- The command is what the three scanners make of the buffer. -/
theorem parsesLine_iff_scanners {c : UInt8} {buffer : Buffer} (hc : c ≠ 0) :
    ParsesLine (c :: buffer) ↔
      kshellParseGetArgc (c :: buffer) = some (lineWords (c :: buffer)).length ∧
        ∃ formatted, kshellParseFormattingBuffer (c :: buffer) = some formatted ∧
          Collects formatted (lineWords (c :: buffer)) := by
  unfold ParsesLine setupRunShellCommand
  simp only [if_neg hc, Option.bind_eq_bind, Option.bind_eq_some_iff, Option.some.injEq]
  constructor
  · rintro ⟨_, ⟨argc, hargc, formatted, hformatted, argv, hargv, rfl⟩, rfl, hwords, hend⟩
    exact ⟨hargc, formatted, hformatted, argv, hargv, hwords, hend⟩
  · rintro ⟨hargc, formatted, hformatted, argv, hargv, hwords, hend⟩
    exact ⟨⟨_, argv, formatted⟩, ⟨_, hargc, formatted, hformatted, argv, hargv, rfl⟩, rfl, hwords,
      hend⟩

theorem zero_mem_dropWhile {text : Buffer} (h : 0 ∈ text) :
    0 ∈ text.dropWhile kshellParseIsDelimiter := by
  rw [← List.takeWhile_append_dropWhile (p := kshellParseIsDelimiter) (l := text)] at h
  rcases List.mem_append.1 h with h | h
  · simpa [not_delimiter_zero] using List.all_eq_true.1 List.all_takeWhile 0 h
  · exact h

/-- The first round on a line that begins with a gap: its first byte becomes a terminator. -/
theorem format_gap {d : UInt8} {behind next : Buffer} (hd : kshellParseIsDelimiter d = true)
    (hnext : behind.dropWhile kshellParseIsDelimiter = next) (h0 : 0 ∈ next) :
    kshellParseFormattingBuffer (d :: behind) =
      formatFrom (behind.length + 1) [(0 : UInt8)].length (behind.length - next.length)
        ([0] ++ (line next ++ 0 :: behind.drop ((line next).length + 1))) := by
  have hround := @formatFrom_round [] [] behind next d (behind.length + 1) 0
    (Or.inr (delimiter_ne_zero hd)) (fun _ hx => absurd hx List.not_mem_nil)
    (by simp [inWord, hd]) hnext h0
  simpa [kshellParseFormattingBuffer] using hround

/-- Then no argument is found. -/
theorem format_gap_strings {d : UInt8} {behind formatted : Buffer}
    (hd : kshellParseIsDelimiter d = true) (h0 : 0 ∈ behind)
    (h : kshellParseFormattingBuffer (d :: behind) = some formatted) : Strings formatted [] := by
  rw [format_gap hd rfl (zero_mem_dropWhile h0)] at h
  have hspec := formatFrom_spec (behind.length + 1)
    (behind.length - (behind.dropWhile kshellParseIsDelimiter).length) [0]
    (head_moved behind
      (behind.drop ((line (behind.dropWhile kshellParseIsDelimiter)).length + 1)))
  split at hspec
  · rw [hspec] at h
    cases h
  · obtain ⟨rest, heq, -⟩ := hspec
    rw [heq, Option.some.injEq] at h
    subst h
    exact Strings.stop rest

/-- A line that is all gap is formatted. -/
theorem format_all_gap {d : UInt8} {gap rest : Buffer} (hd : kshellParseIsDelimiter d = true)
    (hgap : ∀ c ∈ gap, kshellParseIsDelimiter c = true) :
    ∃ formatted, kshellParseFormattingBuffer (d :: (gap ++ 0 :: rest)) = some formatted := by
  have hnext : (gap ++ 0 :: rest).dropWhile kshellParseIsDelimiter = 0 :: rest := by
    rw [List.dropWhile_append_of_pos hgap]
    simp [not_delimiter_zero]
  rw [format_gap hd hnext List.mem_cons_self]
  simp [line, formatFrom]

/-! ## The claim about a whole line -/

theorem lineWords_text {text : Buffer} (h0 : 0 ∉ text) (rest : Buffer) :
    lineWords (text ++ 0 :: rest) = words kshellParseIsDelimiter text := by
  rw [lineWords, line_append h0]

/-- The words that are left decide over a line that begins with a word. -/
theorem collects_words_iff {text rest : Buffer} (h : Starts kshellParseIsDelimiter text)
    (hfew : (words kshellParseIsDelimiter text).length ≤ SHELL_ARGV_MAX_COUNT) :
    (∃ formatted, kshellParseFormattingBuffer (text ++ 0 :: rest) = some formatted ∧
        Collects formatted (words kshellParseIsDelimiter text)) ↔
      wordsLeft ((text ++ 0 :: rest).length + 1) 0 (text ++ 0 :: rest) =
        some (words kshellParseIsDelimiter text) := by
  have hspec := @formatFrom_spec (text ++ 0 :: rest) ((text ++ 0 :: rest).length + 1) 0 []
    (by
      rcases text with _ | ⟨c, text⟩
      · exact h.elim
      · have hc : kshellParseIsDelimiter c = false := h
        simpa using hc)
  unfold kshellParseFormattingBuffer
  rw [List.nil_append, List.length_nil] at hspec
  split at hspec
  · rename_i hnone
    rw [hspec, hnone]
    simp
  · rename_i ws hws
    obtain ⟨formatted, heq, hstrings⟩ := hspec
    rw [List.nil_append] at heq
    rw [heq, hws, Option.some.injEq, ← collects_iff hstrings hfew]
    simp

theorem stale_text {text : Buffer} (h0 : 0 ∉ text) (rest : Buffer) :
    stale (text ++ 0 :: rest) = rest := by
  have hall : ∀ c ∈ text, decide (c ≠ 0) = true := fun c hc => by
    simpa using fun h : c = 0 => h0 (h ▸ hc)
  rw [stale, List.dropWhile_append_of_pos hall]
  simp

/-- A line that begins with a gap is parsed right just if it is all gap. -/
theorem collects_gap_iff {d : UInt8} {gap tail rest : Buffer}
    (hd : kshellParseIsDelimiter d = true)
    (hgap : ∀ c ∈ gap, kshellParseIsDelimiter c = true)
    (htail : tail = [] ∨ Starts kshellParseIsDelimiter tail)
    (hfew : (words kshellParseIsDelimiter tail).length ≤ SHELL_ARGV_MAX_COUNT) :
    (∃ formatted, kshellParseFormattingBuffer (d :: (gap ++ tail ++ 0 :: rest)) = some formatted ∧
        Collects formatted (words kshellParseIsDelimiter tail)) ↔
      words kshellParseIsDelimiter tail = [] := by
  constructor
  · rintro ⟨formatted, heq, hcollects⟩
    have hstrings := format_gap_strings hd (by simp) heq
    exact ((collects_iff hstrings hfew).1 hcollects).symm
  · intro hnone
    rcases htail with rfl | htail
    · rw [List.append_nil]
      obtain ⟨formatted, heq⟩ := @format_all_gap d gap rest hd hgap
      exact ⟨formatted, heq, (collects_iff (format_gap_strings hd (by simp) heq) hfew).2 rfl⟩
    · exact absurd hnone htail.words_ne_nil

/-- **A command line is parsed into its words** if the scanners meet; and only then, if no word
of the line ends with one in front of it. -/
theorem parsesLine_text {text rest : Buffer} (h0 : 0 ∉ text)
    (hfew : (words kshellParseIsDelimiter text).length ≤ SHELL_ARGV_MAX_COUNT) :
    (ScansMeet (text ++ 0 :: rest) → ParsesLine (text ++ 0 :: rest)) ∧
      (SuffixFree (words kshellParseIsDelimiter text) → ParsesLine (text ++ 0 :: rest) →
        ScansMeet (text ++ 0 :: rest)) := by
  unfold ScansMeet
  rw [line_append h0, lineWords_text h0, stale_text h0]
  rcases text with _ | ⟨c, text⟩
  · refine ⟨fun _ => ⟨_, rfl, ?_, ?_, ?_⟩, fun _ _ => Or.inl rfl⟩ <;>
      simp [lineWords, line, noArguments, SHELL_ARGV_MAX_COUNT]
  have hc : c ≠ 0 := fun h => h0 (h ▸ List.mem_cons_self)
  have hargc := getArgc_iff rest h0
  have hparses := @parsesLine_iff_scanners c (text ++ 0 :: rest) hc
  rw [← List.cons_append, lineWords_text h0, hargc] at hparses
  rw [hparses]
  rcases starts_or_gap (c :: text) with habs | hstart | ⟨d, gap, tail, heq, hd, hgap, htail⟩
  · cases habs
  · rw [collects_words_iff hstart hfew]
    obtain ⟨hof, hto⟩ := wordsLeft_iff hstart h0 (Residue.start (c :: text) rest)
      (fun _ => (Iff.rfl : Blank rest ↔ Blank rest)) (Nat.lt_succ_self _)
    refine ⟨?_, fun hfree h => Or.inr ⟨Or.inr ⟨hstart, hto hfree h.2⟩, h.1⟩⟩
    rintro (habs | ⟨habs | ⟨-, hlands⟩, hskip⟩)
    · cases habs
    · exact absurd habs hstart.words_ne_nil
    · exact ⟨hskip, hof hlands⟩
  · have hnstart : ¬Starts kshellParseIsDelimiter (c :: text) := by
      rw [heq]
      simp [Starts, hd]
    have hwords : words kshellParseIsDelimiter (c :: text) = words kshellParseIsDelimiter tail := by
      rw [heq, words_sep hd, words_gap hgap]
    rw [hwords] at hfew ⊢
    have hcollects := @collects_gap_iff d gap tail rest hd hgap htail hfew
    rw [← List.cons_append, ← heq] at hcollects
    rw [hcollects]
    refine ⟨?_, fun _ h => Or.inr ⟨Or.inl h.2, h.1⟩⟩
    rintro (habs | ⟨hnone | ⟨habs, -⟩, hskip⟩)
    · cases habs
    · exact ⟨hskip, hnone⟩
    · exact absurd habs hnstart

/-- **The prompt buffer is parsed into the words of its line** if the scanners meet; and only
then, if no word of the line ends with one in front of it. -/
theorem prompt_parsed (prompt : PromptBuffer)
    (hfew : (lineWords prompt.bytes).length ≤ SHELL_ARGV_MAX_COUNT) :
    (ScansMeet prompt.bytes → ParsesLine prompt.bytes) ∧
      (SuffixFree (lineWords prompt.bytes) → ParsesLine prompt.bytes →
        ScansMeet prompt.bytes) := by
  have h := @parsesLine_text _ (stale prompt.bytes) (zero_not_mem_line prompt.bytes) hfew
  rw [line_append_stale prompt.terminated] at h
  exact h

/-- A line, typed where nothing has been typed before but what is left of older lines. -/
def promptOf (text older : Buffer) (h : text.length + older.length < KERNEL_SHELL_BUFFER_SIZE) :
    PromptBuffer where
  bytes := text ++ 0 :: (older ++
    List.replicate (KERNEL_SHELL_BUFFER_SIZE - 1 - (text.length + older.length)) 0)
  size := by
    simp only [List.length_append, List.length_cons, List.length_replicate]
    omega
  terminated := by simp

/-- `ls -l` in a buffer that holds nothing else. -/
def lsLong : PromptBuffer := promptOf [0x6c, 0x73, 0x20, 0x2d, 0x6c] [] (by decide)

theorem lsLong_words : words kshellParseIsDelimiter [0x6c, 0x73, 0x20, 0x2d, 0x6c] =
    [[0x6c, 0x73], [0x2d, 0x6c]] := by
  decide

theorem prompt_parsed_ls : ParsesLine lsLong.bytes := by
  have hline : lineWords lsLong.bytes = [[0x6c, 0x73], [0x2d, 0x6c]] :=
    (lineWords_text (by decide) _).trans lsLong_words
  refine (prompt_parsed lsLong (by rw [hline]; decide)).1 ?_
  unfold ScansMeet lsLong promptOf
  rw [line_append (by decide), stale_text (by decide)]
  refine Or.inr ⟨Or.inr ⟨by decide, ?_⟩, fun h => absurd h (by decide)⟩
  -- one gap, and nothing behind the line
  refine (@lands_gap [0x6c, 0x73] [] [0x2d, 0x6c] _ (by simp [kshellParseIsDelimiter])
    (by decide) (by simp) (by decide) 0 _).2 ?_
  rw [if_pos (Nat.zero_le _), lands_word (by simp [kshellParseIsDelimiter])]
  exact Or.inr ⟨rfl, _, rfl⟩

/-- `ls`, in a buffer that holds nothing else, and where `abcdef` has been typed before. -/
def lsClean : PromptBuffer := promptOf [0x6c, 0x73] [] (by decide)

def lsStale : PromptBuffer := promptOf [0x6c, 0x73] [0x64, 0x65, 0x66] (by decide)

/-- The same line is parsed into its one word, or not, by what stands behind it. -/
theorem stale_bytes_parsed : line lsStale.bytes = line lsClean.bytes ∧
    (lineWords lsStale.bytes).length ≤ SHELL_ARGV_MAX_COUNT ∧
    ParsesLine lsClean.bytes ∧ ¬ParsesLine lsStale.bytes := by
  have h0 : (0 : UInt8) ∉ [0x6c, 0x73] := by decide
  have hword : ∀ x ∈ [(0x6c : UInt8), 0x73], kshellParseIsDelimiter x = false := by
    simp [kshellParseIsDelimiter]
  have hwords : words kshellParseIsDelimiter [0x6c, 0x73] = [[0x6c, 0x73]] :=
    words_last (by simp) hword
  have hfew : (words kshellParseIsDelimiter [0x6c, 0x73]).length ≤ SHELL_ARGV_MAX_COUNT := by
    rw [hwords]
    decide
  refine ⟨?_, ?_, ?_, ?_⟩
  · exact (line_append h0 _).trans (line_append h0 _).symm
  · exact (congrArg List.length (lineWords_text h0 _)).trans_le hfew
  · refine (parsesLine_text h0 hfew).1 ?_
    unfold ScansMeet
    rw [line_append h0, stale_text h0]
    refine Or.inr ⟨Or.inr ⟨by decide, ?_⟩, fun h => absurd h (by decide)⟩
    exact (lands_word hword 0 _).2 ⟨_, rfl⟩
  · intro hparses
    have hfree : SuffixFree (words kshellParseIsDelimiter [0x6c, 0x73]) := by
      rw [hwords]
      exact List.pairwise_singleton _ _
    have hmeet := (parsesLine_text h0 hfew).2 hfree hparses
    unfold ScansMeet at hmeet
    rw [line_append h0, stale_text h0, lineWords_text h0, hwords] at hmeet
    rcases hmeet with h | ⟨h | ⟨-, h⟩, -⟩
    · cases h
    · cases h
    · obtain ⟨_, hblank⟩ := (lands_word hword 0 _).1 h
      rw [List.cons_append, List.dropWhile_cons_of_neg (by decide)] at hblank
      injection hblank with hd
      exact absurd hd (by decide)

end DelOs.Shell
