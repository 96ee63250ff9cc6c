import Mathlib.Tactic

/-!
# The words of a text

A text is a list over an alphabet in which some letters separate.  Its words are its maximal
runs of other letters.

* `words` — the words of a text, in order.
* `words_run` — a run of letters in front of a separator, or of nothing, is the first word.
* `Starts` — the text begins with a letter of a word; `Starts.split` cuts such a text into its
  first word, the gap behind it and what comes then.
* `first_suffix_of_word` — **a text that ends another one begins with the end of one of its
  words.**
-/

namespace Words

variable {α : Type} {sep : α → Bool}

/-- The maximal runs of letters that do not separate. -/
def words (sep : α → Bool) (text : List α) : List (List α) :=
  (text.splitOnP sep).filter fun word => !word.isEmpty

/-- The text begins with a letter of a word. -/
def Starts (sep : α → Bool) : List α → Prop
  | [] => False
  | c :: _ => sep c = false

instance (text : List α) : Decidable (Starts sep text) := by
  cases text <;> unfold Starts <;> infer_instance

@[simp] theorem words_nil : words sep [] = [] := by simp [words]

theorem words_sep {c : α} (hc : sep c = true) (text : List α) :
    words sep (c :: text) = words sep text := by
  simp [words, List.splitOnP_cons_eq_if_modifyHead, hc]

/-- The letters of a part of a text are letters of the text. -/
theorem mem_of_mem_splitOnP {text part : List α} (h : part ∈ text.splitOnP sep) {x : α}
    (hx : x ∈ part) : x ∈ text := by
  induction text generalizing part with
  | nil =>
    rw [List.splitOnP_nil, List.mem_singleton] at h
    rwa [h] at hx
  | cons c text ih =>
    rw [List.splitOnP_cons_eq_if_modifyHead] at h
    split_ifs at h
    · rcases List.mem_cons.1 h with rfl | h
      · cases hx
      · exact List.mem_cons_of_mem c (ih h hx)
    · cases hparts : text.splitOnP sep with
      | nil =>
        rw [hparts] at h
        cases h
      | cons first parts =>
        rw [hparts, List.modifyHead_cons] at h
        rcases List.mem_cons.1 h with rfl | h
        · rcases List.mem_cons.1 hx with rfl | hx
          · exact List.mem_cons_self
          · exact List.mem_cons_of_mem c (ih (hparts ▸ List.mem_cons_self) hx)
        · exact List.mem_cons_of_mem c (ih (hparts ▸ List.mem_cons_of_mem first h) hx)

theorem mem_of_mem_words {text word : List α} (h : word ∈ words sep text) {x : α} (hx : x ∈ word) :
    x ∈ text :=
  mem_of_mem_splitOnP (List.mem_of_mem_filter h) hx

/-- Separators in front of a text do not count. -/
theorem words_gap {gap : List α} (hgap : ∀ c ∈ gap, sep c = true) (text : List α) :
    words sep (gap ++ text) = words sep text := by
  induction gap with
  | nil => rfl
  | cons c gap ih =>
    rw [List.cons_append, words_sep (hgap c List.mem_cons_self)]
    exact ih fun x hx => hgap x (List.mem_cons_of_mem c hx)

/-- A run of letters in front of a separator is the first word. -/
theorem words_run {word text : List α} {c : α} (hne : word ≠ [])
    (hword : ∀ x ∈ word, sep x = false) (hc : sep c = true) :
    words sep (word ++ c :: text) = word :: words sep text := by
  simp [words, List.splitOnP_append_cons_of_forall_mem hword c hc, hne]

/-- A run of letters with nothing behind it is the only word. -/
theorem words_last {word : List α} (hne : word ≠ []) (hword : ∀ x ∈ word, sep x = false) :
    words sep word = [word] := by
  simp [words, List.splitOnP_eq_singleton hword, hne]

/-! ## The first word -/

/-- **A text that begins with a word** is this word, and then nothing or a gap and more. -/
theorem Starts.split {text : List α} (h : Starts sep text) :
    ∃ word, word ≠ [] ∧ (∀ x ∈ word, sep x = false) ∧
      (text = word ∨
        ∃ d gap rest, text = word ++ d :: (gap ++ rest) ∧ sep d = true ∧
          (∀ x ∈ gap, sep x = true) ∧ (rest = [] ∨ Starts sep rest)) := by
  induction text with
  | nil => exact h.elim
  | cons c text ih =>
    have hc : sep c = false := h
    rcases text with _ | ⟨d, text⟩
    · exact ⟨[c], by simp, by simpa using hc, Or.inl rfl⟩
    · by_cases hd : sep d = true
      · refine ⟨[c], by simp, by simpa using hc,
          Or.inr ⟨d, text.takeWhile sep, text.dropWhile sep, by simp, hd,
            fun x hx => List.all_eq_true.1 List.all_takeWhile x hx, ?_⟩⟩
        have hhead := List.head?_dropWhile_not sep text
        rcases hrest : text.dropWhile sep with _ | ⟨b, rest⟩
        · exact Or.inl rfl
        · right
          rw [hrest] at hhead
          simpa [Starts] using hhead
      · obtain ⟨word, hne, hword, hrest⟩ := ih (by simpa [Starts] using hd)
        refine ⟨c :: word, by simp, fun x hx => ?_, ?_⟩
        · rcases List.mem_cons.1 hx with rfl | hx
          · exact hc
          · exact hword x hx
        · rcases hrest with hrest | ⟨d', gap, rest, hrest, hd', hgap, hstart⟩
          · exact Or.inl (by rw [hrest])
          · exact Or.inr ⟨d', gap, rest, by rw [hrest, List.cons_append], hd', hgap, hstart⟩

theorem Starts.words_ne_nil {text : List α} (h : Starts sep text) : words sep text ≠ [] := by
  obtain ⟨word, hne, hword, rfl | ⟨d, gap, rest, rfl, hd, -, -⟩⟩ := h.split
  · simp [words_last hne hword]
  · simp [words_run hne hword hd]

/-- One more letter in front keeps every word, or makes one of them longer. -/
theorem words_cons_suffix (c : α) {text word : List α} (h : word ∈ words sep text) :
    ∃ longer ∈ words sep (c :: text), word <:+ longer := by
  by_cases hc : sep c = true
  · exact ⟨word, by rwa [words_sep hc], List.suffix_refl word⟩
  · have hc : sep c = false := by simpa using hc
    have hone : ∀ x ∈ [c], sep x = false := by simpa using hc
    by_cases hs : Starts sep text
    · obtain ⟨run, hne, hrun, htext⟩ := hs.split
      have hlong : ∀ x ∈ c :: run, sep x = false := by
        intro x hx
        rcases List.mem_cons.1 hx with rfl | hx
        · exact hc
        · exact hrun x hx
      rcases htext with htext | ⟨d, gap, rest, htext, hd, -, -⟩
      · rw [htext, words_last hne hrun, List.mem_singleton] at h
        rw [htext, words_last (List.cons_ne_nil c run) hlong, h]
        exact ⟨c :: run, List.mem_singleton_self _, List.suffix_cons c run⟩
      · rw [htext, words_run hne hrun hd] at h
        rw [htext, ← List.cons_append, words_run (List.cons_ne_nil c run) hlong hd]
        rcases List.mem_cons.1 h with rfl | h
        · exact ⟨c :: word, List.mem_cons_self, List.suffix_cons c word⟩
        · exact ⟨word, List.mem_cons_of_mem _ h, List.suffix_refl word⟩
    · rcases text with _ | ⟨d, text⟩
      · simp at h
      · have hd : sep d = true := by simpa [Starts] using hs
        rw [words_sep hd] at h
        refine ⟨word, ?_, List.suffix_refl word⟩
        rw [show c :: d :: text = [c] ++ d :: text from rfl,
          words_run (List.cons_ne_nil c []) hone hd]
        exact List.mem_cons_of_mem _ h

/-- **A text that ends another one begins with the end of one of its words.** -/
theorem first_suffix_of_word {text rest : List α} (h : rest <:+ text) {word : List α}
    (hword : word ∈ words sep rest) : ∃ longer ∈ words sep text, word <:+ longer := by
  obtain ⟨front, rfl⟩ := h
  induction front with
  | nil => exact ⟨word, hword, List.suffix_refl word⟩
  | cons c front ih =>
    obtain ⟨longer, hlonger, hsuffix⟩ := ih
    obtain ⟨longest, hlongest, hsuffix'⟩ := words_cons_suffix c hlonger
    exact ⟨longest, hlongest, hsuffix.trans hsuffix'⟩

end Words
