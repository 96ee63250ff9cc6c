import DelOs.Kstdlib.SprintfText

/-!
# What `kprintf` prints

On a format that is made of the pieces that the documentation lists, `kprintf` and `ksprintf` find
the same directives, none of them unknown.

* `directives_items` — the directives of a format.
* `kprintf_items` — **`kprintf` prints what is documented exactly if no number with a
  prefix is padded**, for characters that are not NUL.
-/

namespace DelOs

variable (args : VaArgs)

/-- A letter of the documentation has a case, and takes the words of its argument. -/
theorem Specifier.letter_known (spec : Specifier) :
    conversionOf (spec.letters.getLastD 0) ≠ .unknown ∧
      argWords ⟨0, 0, spec.words == 2, spec.letters.getLastD 0, []⟩ = spec.words ∧
      (conversionOf (spec.letters.getLastD 0) = .char → spec = .c) := by
  cases spec <;> decide

/-- **The directives of a format are its fields**, and the percent signs.  By induction on the
pieces. -/
theorem directives_items (items : List FormatItem) (va fuel : Nat)
    (hfuel : (formatOf items).length ≤ fuel) :
    ∃ ds, directives fuel (formatOf items) va = some ds ∧
      ∀ d ∈ ds, conversionOf d.1.letter ≠ .unknown ∧ (conversionOf d.1.letter = .char →
        ∃ f, (f, d.2) ∈ fieldsOf items va ∧ f.specifier = .c) := by
  induction items generalizing va fuel with
  | nil => exact ⟨[], by cases fuel <;> rfl, fun d hd => absurd hd List.not_mem_nil⟩
  | cons item items ih =>
    have hformat : formatOf (item :: items) = item.text ++ formatOf items := List.flatMap_cons
    rw [hformat, List.length_append] at hfuel
    rw [hformat]
    cases item with
    | char c ordinary =>
      obtain ⟨n, rfl⟩ : ∃ n, fuel = n + 1 := ⟨fuel - 1, by simp [FormatItem.text] at hfuel; omega⟩
      obtain ⟨ds, hds, hknown⟩ := ih va n (by simp [FormatItem.text] at hfuel; omega)
      exact ⟨ds, by simp [FormatItem.text, directives, ordinary.1, hds], hknown⟩
    | percent =>
      obtain ⟨n, rfl⟩ : ∃ n, fuel = n + 1 := ⟨fuel - 1, by simp [FormatItem.text] at hfuel; omega⟩
      obtain ⟨ds, hds, hknown⟩ := ih va n (by simp [FormatItem.text] at hfuel; omega)
      have hwords : argWords ⟨0, 0x20, false, 0x25, formatOf items⟩ = 0 := rfl
      refine ⟨(⟨0, 0x20, false, 0x25, formatOf items⟩, va) :: ds, ?_, ?_⟩
      · simp [FormatItem.text, directives, parseDirective_percent, hwords, hds]
      · have hpercent : conversionOf 0x25 = .percent := rfl
        refine List.forall_mem_cons.2 ⟨⟨?_, fun h => ?_⟩, hknown⟩
        · rw [hpercent]
          exact Conversion.noConfusion
        · rw [hpercent] at h
          cases h
    | field f =>
      obtain ⟨n, rfl⟩ : ∃ n, fuel = n + 1 := ⟨fuel - 1, by simp [FormatItem.text] at hfuel; omega⟩
      obtain ⟨hletter, hword, hchar⟩ := f.specifier.letter_known
      have hwords : argWords (f.directive (formatOf items)) = f.specifier.words := hword
      obtain ⟨ds, hds, hknown⟩ := ih (va + f.specifier.words) n (by
        simp [FormatItem.text] at hfuel
        omega)
      have hne : f.text ++ formatOf items ≠ [] := by
        intro hnil
        have hparse := parseDirective_field f (formatOf items)
        rw [hnil] at hparse
        cases hparse
      have hrest : (f.directive (formatOf items)).rest = formatOf items := rfl
      refine ⟨(f.directive (formatOf items), va) :: ds, ?_, ?_⟩
      · rw [FormatItem.text, List.cons_append, directives, if_pos ⟨rfl, hne⟩,
          parseDirective_field, Option.bind_eq_bind, Option.bind_some, hwords, hrest, hds]
        rfl
      · refine List.forall_mem_cons.2 ⟨⟨hletter, fun h => ⟨f, List.mem_cons_self, hchar h⟩⟩, ?_⟩
        intro d hd
        refine ⟨(hknown d hd).1, fun h => ?_⟩
        obtain ⟨g, hg, hspec⟩ := (hknown d hd).2 h
        exact ⟨g, List.mem_cons_of_mem _ hg, hspec⟩

/-- No character among the arguments is NUL. -/
def CharsShown (items : List FormatItem) : Prop :=
  ∀ f ∈ fieldsOf items 0, f.1.specifier = .c → args.char f.2 ≠ 0

variable {args}

/-- **`kprintf` prints what is documented exactly if the prefix of no number gets in the way of its
padding**, for any format and any arguments whose characters are not NUL, and returns the number of
characters of what it has printed. -/
theorem kprintf_items (items : List FormatItem) (hchars : CharsShown args items) :
    ∃ p, kprintf (formatOf items) args = some p ∧ p.count = u32 p.text.length ∧
      (p.text = documented args items 0 ↔ ∀ f ∈ fieldsOf items 0, f.1.InWidth args f.2) := by
  obtain ⟨ds, hds, hknown⟩ := directives_items items 0 _ le_rfl
  have hnul : ∀ d ∈ ds, conversionOf d.1.letter = .char → args.char d.2 ≠ 0 := fun d hd hchar => by
    obtain ⟨f, hf, hspec⟩ := (hknown d hd).2 hchar
    exact hchars (f, d.2) hf hspec
  obtain ⟨p, q, hp, hq, hagree⟩ := loop_agree args _ _ 0 hds hnul
  obtain ⟨q', hq', hcount, hcompares⟩ := loop_items args items 0 _ le_rfl
  obtain rfl : q = q' := Option.some.inj (hq.symm.trans hq')
  have htext : p.text = q.text :=
    hagree.text.2 fun d hd hunknown => absurd hunknown (hknown d hd).1
  exact ⟨p, hp, by rw [hagree.count, hcount, htext], by rw [htext]; exact hcompares.text⟩

end DelOs
