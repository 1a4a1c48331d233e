import Almanac.Proofs.Wordings
/-!
# Short forms

Whatever is left out of an expression stands for a fixed text, and an alias for the words of a whole expression.

- `Wording.Shortens`: one part is left out, or a `T` saves a blank.
- `ShortFor`: the words of all short forms, and the words of the long forms that they stand for.
- `Schedule.ofExpressionIn_shortFor`: both read as one schedule or fail with one error.
-/
namespace Almanac

theorem IsAlias.words_eq {word : List Char} (h : IsAlias word) : words word = [word] := by
  refine words_of_forall ?_ fun c hc => isBlank_of_isAlphanum (by simp [Char.isAlphanum, h.isAlpha c hc])
  rintro rfl
  exact absurd h (by decide +kernel)

namespace Parts

variable {find? : String → Option Zone} {z : Option Zone} {e e' : String} {rest rest' : List (List Char)}
  {word : List Char}

/-- An alias stands for the words of its expression, which has no alias in it. -/
theorem expandAlias_alias {entry : String × List String} (ha : entry ∈ aliases)
    (hword : word.map Char.toLower = entry.1.toList) :
    expandAlias [word] = expandAlias (entry.2.map String.toList).reverse := by
  have honce : ∀ entry ∈ aliases, ∀ entry' ∈ aliases, entry.1.toList = entry'.1.toList → entry = entry' := by
    decide +kernel
  have hlong : ∀ entry ∈ aliases, expandAlias (entry.2.map String.toList).reverse =
      (entry.2.map String.toList).reverse := by decide +kernel
  rcases expandAlias_cases word with ⟨-, hno⟩ | ⟨entry', ha', hword', heq⟩
  · exact absurd ⟨entry, ha, hword⟩ hno
  · rw [heq, hlong entry ha, honce entry ha entry' ha' (hword.symm.trans hword')]

/-- Two expressions with one zone have the same parts if they have the same words but for an alias. -/
theorem ofExpression_congr (h : takeZone find? (words e.toList).reverse = (z, rest))
    (h' : takeZone find? (words e'.toList).reverse = (z, rest')) (hne : rest ≠ []) (hne' : rest' ≠ [])
    (heq : expandAlias rest = expandAlias rest') : ofExpression find? e = ofExpression find? e' := by
  simp only [ofExpression, ne_nil_of_takeZone h hne, ne_nil_of_takeZone h' hne', h, h', hne, hne', heq, if_false]

end Parts

/-- The wordings in which one part is left out, and those in which it is written. -/
inductive Wording.Shortens : Wording → Wording → Prop
  | joined (w : Wording) : Shortens { w with joined := true } { w with joined := false }
  | second (w : Wording) (hour minute : List Char) :
      Shortens { w with time := some ⟨hour, minute, none⟩ } { w with time := some ⟨hour, minute, some ['0', '0']⟩ }
  | year (w : Wording) (month day : List Char) :
      Shortens { w with date := some ⟨none, month, day⟩ } { w with date := some ⟨some ['*'], month, day⟩ }
  | date (w : Wording) :
      Shortens { w with date := none } { w with date := some ⟨some ['*'], ['*'], ['*']⟩ }
  | time (w : Wording) :
      Shortens { w with time := none } { w with time := some ⟨['0', '0'], ['0', '0'], some ['0', '0']⟩ }
  | weekday (w : Wording) : Shortens { w with weekday := none } { w with weekday := some ['*'] }

theorem Wording.Shortens.fieldText_eq {w w' : Wording} (h : w.Shortens w') : w.fieldText = w'.fieldText := by
  funext f
  cases h <;> cases f <;> rfl

/-- The words of short forms, and the words that they stand for. -/
inductive ShortFor : List (List Char) → List (List Char) → Prop
  | wording {w w' : Wording} (h : w.Shortens w') (hw : w.Legible) (hw' : w'.Legible) : ShortFor w.texts w'.texts
  | expansion {entry : String × List String} {word : List Char} (h : entry ∈ Parts.aliases)
      (hword : word.map Char.toLower = entry.1.toList) : ShortFor [word] (entry.2.map String.toList)

namespace Schedule

variable {find? : String → Option Zone} {zone : Option (List Char)} {short long : List (List Char)}

/-- A short form and its long form read as one schedule, or fail with one error. No word is the name of a zone,
but there may be one after both. -/
theorem ofExpressionIn_shortFor (h : ShortFor short long) (hzone : Parts.NamesZone find? zone)
    (hfree : ∀ word ∈ short ++ long, find? (.ofList word) = none) (z : Zone) :
    ofExpressionIn find? (expression short zone) z = ofExpressionIn find? (expression long zone) z := by
  have hshort (word : List Char) (hw : word ∈ short) := hfree word (List.mem_append_left _ hw)
  have hlong (word : List Char) (hw : word ∈ long) := hfree word (List.mem_append_right _ hw)
  have hparts : Parts.ofExpression find? (expression short zone) = Parts.ofExpression find? (expression long zone) := by
    cases h with
    | wording h hw hw' =>
      rw [Wording.ofExpression_eq hw hzone hshort, Wording.ofExpression_eq hw' hzone hlong, h.fieldText_eq]
    | expansion h hword =>
      have hwords : ∀ entry ∈ Parts.aliases, ∀ text ∈ entry.2.map String.toList, words text = [text] := by
        decide +kernel
      have hne : ∀ entry ∈ Parts.aliases, (entry.2.map String.toList).reverse ≠ [] := by decide +kernel
      refine Parts.ofExpression_congr (Parts.takeZone_expression hzone ?_ hshort)
        (Parts.takeZone_expression hzone (hwords _ h) hlong) (by simp) (hne _ h) (Parts.expandAlias_alias h hword)
      simpa using IsAlias.words_eq ⟨_, h, hword⟩
  rw [ofExpressionIn, ofExpressionIn, hparts]

/-- A `T` for the blank between a date and a time in Kyiv, and an alias in small letters and capitals. Each compiles, to
the schedule of its long form. -/
theorem ofExpressionIn_shortFor_fridays :
    ShortFor ["Fri".toList, "1-13T18:00".toList] ["Fri".toList, "1-13".toList, "18:00".toList] ∧
      ShortFor ["weeKLY".toList] ["Mon".toList, "*-*-*".toList, "00:00:00".toList] ∧
      Parts.NamesZone Zone.find? (some "Europe/Kyiv".toList) ∧
      (∃ s, ofExpressionIn Zone.find? "Fri 1-13T18:00 Europe/Kyiv" Zone.utc = .ok s ∧
        ofExpressionIn Zone.find? "Fri 1-13 18:00 Europe/Kyiv" Zone.utc = .ok s ∧
        s.text = "Fri *-01-13 18:00:00 Europe/Kyiv") ∧
      ∃ s, ofExpressionIn Zone.find? "weeKLY" Zone.utc = .ok s ∧
        ofExpressionIn Zone.find? "Mon *-*-* 00:00:00" Zone.utc = .ok s ∧ s.text = "Mon *-*-* 00:00:00 UTC" := by
  have hjoined : ShortFor ["Fri".toList, "1-13T18:00".toList] ["Fri".toList, "1-13".toList, "18:00".toList] :=
    .wording (.joined ⟨some "Fri".toList, some ⟨none, "1".toList, "13".toList⟩,
      some ⟨"18".toList, "00".toList, none⟩, true⟩) (by decide +kernel) (by decide +kernel)
  have halias : ShortFor ["weeKLY".toList] ["Mon".toList, "*-*-*".toList, "00:00:00".toList] :=
    @ShortFor.expansion ("weekly", ["Mon", "*-*-*", "00:00:00"]) _ (by decide +kernel) (by decide +kernel)
  have hzone : Parts.NamesZone Zone.find? (some "Europe/Kyiv".toList) := by unfold Parts.NamesZone; decide +kernel
  have hnone : Parts.NamesZone Zone.find? none := by simp [Parts.NamesZone]
  obtain ⟨htext, htext'⟩ :
      (ofExpressionIn Zone.find? "Fri 1-13T18:00 Europe/Kyiv" Zone.utc).toOption.map text =
          some "Fri *-01-13 18:00:00 Europe/Kyiv" ∧
        (ofExpressionIn Zone.find? "weeKLY" Zone.utc).toOption.map text = some "Mon *-*-* 00:00:00 UTC" := by
    decide +kernel
  obtain ⟨s, hs, htext⟩ := exists_ok_of_map htext
  obtain ⟨s', hs', htext'⟩ := exists_ok_of_map htext'
  refine ⟨hjoined, halias, hzone, ⟨s, hs, ?_, htext⟩, s', hs', ?_, htext'⟩
  · exact (ofExpressionIn_shortFor hjoined hzone (by decide +kernel) Zone.utc).symm.trans hs
  · exact (ofExpressionIn_shortFor halias hnone (by decide +kernel) Zone.utc).symm.trans hs'

end Schedule
end Almanac
