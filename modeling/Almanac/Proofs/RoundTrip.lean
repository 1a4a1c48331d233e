import Almanac.Proofs.ConditionText
import Mathlib.Data.List.Nodup
/-!
# Schedules read back

The text of a schedule that was read is an expression of the same schedule, whatever zone is the
default. It has a word for the date, one for the time and one for the zone, and before them one for
the days of the week unless every day passes.

- `Zone.Named`: the zone has a name of one word, by which it is found.
- `Parts.ofExpression_text`: the parts of the text.
- `Schedule.ofExpressionIn_text`: the schedule of the text.
-/
namespace Almanac

/-! ## Words -/

section Words

variable {l r : List Char}

theorem words_append_blank (l r : List Char) : words (l ++ ' ' :: r) = words l ++ words r := by
  have hblank : isBlank ' ' = true := by decide
  rw [words, List.splitOnP_append_cons l r hblank, List.filter_append]
  rfl

theorem words_of_forall (hne : l ≠ []) (h : ∀ c ∈ l, isBlank c = false) : words l = [l] := by
  rw [words, List.splitOnP_eq_singleton h]
  simp [hne]

end Words

/-- The name of the zone is one word, and `find?` finds the zone by it. -/
structure Zone.Named (find? : String → Option Zone) (z : Zone) : Prop where
  words_name : words z.name.toList = [z.name.toList]
  found : find? z.name = some z

theorem Zone.find?_name {z : Zone} (h : z ∈ known) : find? z.name = some z := by
  have hnodup : (known.map (·.name)).Nodup := by decide +kernel
  obtain ⟨z', hz'⟩ : ∃ z', find? z.name = some z' := Option.isSome_iff_exists.1 <|
    List.find?_isSome.2 ⟨z, h, beq_self_eq_true _⟩
  have heq := List.inj_on_of_nodup_map hnodup (mem_known_of_find? hz') h (name_of_find? hz')
  rw [hz', heq]

theorem Zone.named_of_mem_known {z : Zone} (h : z ∈ known) : z.Named find? :=
  have hwords : ∀ z ∈ known, words z.name.toList = [z.name.toList] := by decide +kernel
  ⟨hwords z h, find?_name h⟩

theorem Zone.named_of_find? {name : String} {z : Zone} (h : find? name = some z) : z.Named find? :=
  named_of_mem_known (mem_known_of_find? h)

namespace Parts

variable {l r : List Char}

/-! ## Dates and times -/

/-- A text is split exactly if it has a `T` between two digits or stars. -/
theorem splitAtT?_eq_none_iff :
    splitAtT? l = none ↔ ∀ a b, [a, 'T', b] <:+: l → ¬ (isDigitOrStar a ∧ isDigitOrStar b) := by
  fun_induction splitAtT? l with
  | case1 a m b rest h =>
    obtain ⟨rfl, hjoint⟩ := h
    exact iff_of_false (by simp) fun hno => hno a b (List.prefix_append [a, 'T', b] rest).isInfix hjoint
  | case2 a m b rest h ih =>
    rw [Option.map_eq_none_iff, ih]
    refine ⟨fun hno c d hcd => ?_, fun hno c d hcd => hno c d (hcd.trans (List.suffix_cons _ _).isInfix)⟩
    rcases List.infix_cons_iff.1 hcd with hprefix | hinfix
    · simp only [List.cons_prefix_cons, List.nil_prefix, and_true] at hprefix
      obtain ⟨rfl, rfl, rfl⟩ := hprefix
      exact fun hjoint => h ⟨rfl, hjoint⟩
    · exact hno c d hinfix
  | case3 l hl =>
    refine iff_of_true rfl fun a b hab => ?_
    match l, hab.length_le with
    | c :: m :: d :: rest, _ => exact absurd rfl (hl c m d rest)

theorem splitAtT?_eq_none (h : 'T' ∉ l) : splitAtT? l = none :=
  splitAtT?_eq_none_iff.2 fun a b hab => absurd (hab.subset (by simp)) h

theorem splitTime_intercalate {h m s : List Char} (hh : h ≠ []) (hm : m ≠ []) (hs : s ≠ [])
    (hc : ∀ l ∈ [h, m, s], ':' ∉ l) : splitTime ([':'].intercalate [h, m, s]) = .ok (h, m, s) := by
  rw [splitTime, List.splitOn_intercalate _ hc (by simp)]
  exact if_pos ⟨hh, hm, hs⟩

theorem splitDate_intercalate {y m d : List Char} (hy : y ≠ []) (hm : m ≠ []) (hd : d ≠ [])
    (hc : ∀ l ∈ [y, m, d], '-' ∉ l) : splitDate (['-'].intercalate [y, m, d]) = .ok (y, m, d) := by
  rw [splitDate, List.splitOn_intercalate _ hc (by simp)]
  exact if_pos ⟨hy, hm, hd⟩

/-- The parts of an expression that has a date, a time and a zone in words of their own. -/
theorem ofExpression_of_words {find? : String → Option Zone} {expression : String} {z : Zone}
    {name time date year month day hour minute second weekday : List Char}
    {rest : List (List Char)} (hwords : words expression.toList = rest.reverse ++ [date, time, name])
    (hz : find? (.ofList name) = some z) (hT : splitAtT? time = none) (hcolon : ':' ∈ time)
    (htime : splitTime time = .ok (hour, minute, second)) (hlooks : looksLikeDate date)
    (hdate : splitDate date = .ok (year, month, day)) (hrest : takeDayOfWeek rest = .ok weekday) :
    ∃ parts, ofExpression find? expression = .ok parts ∧ parts.zone = some z ∧
      parts.texts .year = year ∧ parts.texts .month = month ∧ parts.texts .dayOfMonth = day ∧
      parts.texts .dayOfWeek = weekday ∧ parts.texts .hour = hour ∧ parts.texts .minute = minute ∧
      parts.texts .second = second := by
  have hrev : (words expression.toList).reverse = name :: time :: date :: rest := by simp [hwords]
  simp only [ofExpression, hrev, takeZone, hz, expandAlias, separateAtT, hT, takeTime, if_pos hcolon,
    takeDate, hlooks, if_true, Option.getD_some, htime, hdate, hrest, reduceCtorEq, if_false, bind,
    Except.bind, pure, Except.pure]
  exact ⟨_, rfl, rfl, rfl, rfl, rfl, rfl, rfl, rfl, rfl⟩

theorem exists_name_of_takeZone {find? : String → Option Zone} {z : Zone} {all : List (List Char)}
    (h : (takeZone find? all).1 = some z) : ∃ name, find? name = some z := by
  cases all with
  | nil => cases h
  | cons last before =>
    simp only [takeZone] at h
    cases hf : find? (.ofList last) with
    | none => simp [hf] at h
    | some z' =>
      simp only [hf, Option.some.injEq] at h
      exact ⟨_, h ▸ hf⟩

/-- An expression names only zones that are found. -/
theorem exists_name_of_ofExpression {find? : String → Option Zone} {expression : String} {z : Zone}
    {parts : Parts} (h : ofExpression find? expression = .ok parts) (hz : parts.zone = some z) :
    ∃ name, find? name = some z := by
  have hzone : parts.zone = (takeZone find? (words expression.toList).reverse).1 := by
    simp only [ofExpression] at h
    split at h
    · cases h
    split at h
    · cases h
    obtain ⟨time, -, h⟩ := ok_of_bind h
    split at h <;>
    · obtain ⟨date, -, h⟩ := ok_of_bind h
      obtain ⟨weekday, -, h⟩ := ok_of_bind h
      cases h
      rfl
  exact exists_name_of_takeZone (hzone ▸ hz)

end Parts

namespace Schedule

variable {s : Schedule} {z : Zone}

/-! ## The words of a schedule -/

/-- The wildcard stands alone on every field. -/
def Normal (s : Schedule) : Prop := ∀ f, (s.alternatives f).Normal

/-- What is written for the field. -/
def fieldText (s : Schedule) (f : Field) : List Char := (s.alternatives f).text.toList

def dateText (s : Schedule) : List Char :=
  ['-'].intercalate [s.fieldText .year, s.fieldText .month, s.fieldText .dayOfMonth]

def timeText (s : Schedule) : List Char :=
  [':'].intercalate [s.fieldText .hour, s.fieldText .minute, s.fieldText .second]

/-- The word for the days of the week, if there is one. -/
def weekdayWords (s : Schedule) : List (List Char) :=
  if (s.alternatives .dayOfWeek).isWildcard then [] else [s.fieldText .dayOfWeek]

theorem Normal.notMem_fieldText (h : s.Normal) (f : Field) {c : Char} (hc : c.isAlphanum = false)
    (hm : c ∉ ['*', '.', '/', ',']) : c ∉ s.fieldText f :=
  (h f).writes_text.notMem hc hm

theorem Normal.isBlank_fieldText (h : s.Normal) (f : Field) :
    ∀ c ∈ s.fieldText f, isBlank c = false :=
  (h f).writes_text.isBlank_eq_false (by simp [isBlank])

theorem Normal.words_fieldText (h : s.Normal) (f : Field) : words (s.fieldText f) = [s.fieldText f] :=
  words_of_forall (h f).text_ne_nil (h.isBlank_fieldText f)

/-- The texts of three fields, with a mark between them, are one word. -/
theorem Normal.words_joined (h : s.Normal) {m : Char} (hm : isBlank m = false) (f g k : Field) :
    words ([m].intercalate [s.fieldText f, s.fieldText g, s.fieldText k]) =
      [[m].intercalate [s.fieldText f, s.fieldText g, s.fieldText k]] := by
  refine words_of_forall (by simp) (forall_mem_intercalate hm ?_)
  simp only [List.forall_mem_cons]
  exact ⟨h.isBlank_fieldText f, h.isBlank_fieldText g, h.isBlank_fieldText k, by simp⟩

theorem Normal.words_dateText (h : s.Normal) : words s.dateText = [s.dateText] :=
  h.words_joined (by decide) _ _ _

theorem Normal.words_timeText (h : s.Normal) : words s.timeText = [s.timeText] :=
  h.words_joined (by decide) _ _ _

theorem toList_text (s : Schedule) : s.text.toList =
    (if (s.alternatives .dayOfWeek).isWildcard then [] else s.fieldText .dayOfWeek ++ [' ']) ++
      s.dateText ++ ' ' :: s.timeText ++ ' ' :: s.zone.name.toList := by
  by_cases hw : (s.alternatives .dayOfWeek).isWildcard <;>
    simp [text, hw, dateText, timeText, fieldText, List.intercalate_cons_cons]

/-- The text is a word for the days of the week, unless every day passes, and three more words. -/
theorem Normal.words_text (h : s.Normal) {find? : String → Option Zone} (hz : s.zone.Named find?) :
    words s.text.toList = s.weekdayWords ++ [s.dateText, s.timeText, s.zone.name.toList] := by
  rw [toList_text]
  by_cases hw : (s.alternatives .dayOfWeek).isWildcard
  · simp [hw, weekdayWords, words_append_blank, h.words_dateText, h.words_timeText, hz.words_name]
  · simp [hw, weekdayWords, words_append_blank, h.words_dateText, h.words_timeText, hz.words_name,
      h.words_fieldText]

/-! ## The parts of a schedule -/

theorem Normal.splitDate_dateText (h : s.Normal) : Parts.splitDate s.dateText =
    .ok (s.fieldText .year, s.fieldText .month, s.fieldText .dayOfMonth) := by
  refine Parts.splitDate_intercalate (h _).text_ne_nil (h _).text_ne_nil (h _).text_ne_nil ?_
  simp only [List.forall_mem_cons]
  have hc (f : Field) : '-' ∉ s.fieldText f := h.notMem_fieldText f (by decide) (by decide)
  exact ⟨hc _, hc _, hc _, by simp⟩

theorem Normal.splitTime_timeText (h : s.Normal) : Parts.splitTime s.timeText =
    .ok (s.fieldText .hour, s.fieldText .minute, s.fieldText .second) := by
  refine Parts.splitTime_intercalate (h _).text_ne_nil (h _).text_ne_nil (h _).text_ne_nil ?_
  simp only [List.forall_mem_cons]
  have hc (f : Field) : ':' ∉ s.fieldText f := h.notMem_fieldText f (by decide) (by decide)
  exact ⟨hc _, hc _, hc _, by simp⟩

/-- No time has a letter, so none is taken for a date and a time with a `T` between them. -/
theorem Normal.splitAtT?_timeText (h : s.Normal) : Parts.splitAtT? s.timeText = none := by
  have hT {f : Field} (hf : f ≠ .dayOfWeek) : ∀ c ∈ s.fieldText f, c ≠ 'T' := by
    rintro c hc rfl
    rcases (h f).writes_text 'T' hc with hw | hw
    · simp [Field.isWordChar, hf, show 'T'.isDigit = false by decide] at hw
    · simp at hw
  have htime : ∀ c ∈ s.timeText, c ≠ 'T' := by
    refine forall_mem_intercalate (by decide) ?_
    simp only [List.forall_mem_cons]
    exact ⟨hT (by decide), hT (by decide), hT (by decide), by simp⟩
  exact Parts.splitAtT?_eq_none fun hmem => htime 'T' hmem rfl

theorem Normal.looksLikeDate_dateText (h : s.Normal) : Parts.looksLikeDate s.dateText := by
  obtain ⟨c, hc, hw⟩ := (h .year).head_text
  have hhead : s.dateText.head? = some c := by
    simp only [dateText, List.intercalate_cons_cons, fieldText]
    simp_all
  have hstar : Parts.isDigitOrStar c := by
    rcases hw with hw | rfl
    · simp_all [Field.isWordChar, Parts.isDigitOrStar]
    · decide
  have hmem : '-' ∈ s.dateText := by simp only [dateText, List.intercalate_cons_cons]; simp
  simp [Parts.looksLikeDate, hhead, hstar, hmem]

theorem Normal.takeDayOfWeek_weekdayWords (h : s.Normal) :
    Parts.takeDayOfWeek s.weekdayWords = .ok (s.fieldText .dayOfWeek) := by
  by_cases hw : (s.alternatives .dayOfWeek).isWildcard
  · rw [weekdayWords, if_pos hw, fieldText, (h .dayOfWeek).eq_any hw, Alternatives.toList_text_any]
    rfl
  · rw [weekdayWords, if_neg hw]
    rfl

/-- The text falls into the texts of the fields and the zone. -/
theorem Normal.ofExpression_text (h : s.Normal) {find? : String → Option Zone}
    (hz : s.zone.Named find?) :
    Parts.ofExpression find? s.text = .ok ⟨s.fieldText, some s.zone⟩ := by
  have hwords : words s.text.toList =
      s.weekdayWords.reverse ++ [s.dateText, s.timeText, s.zone.name.toList] := by
    rw [h.words_text hz, weekdayWords]
    split <;> rfl
  have hfound : find? (.ofList s.zone.name.toList) = some s.zone := by
    rw [String.ofList_toList, hz.found]
  have hcolon : ':' ∈ s.timeText := by simp only [timeText, List.intercalate_cons_cons]; simp
  obtain ⟨⟨texts, zone⟩, hparts, rfl, hyear, hmonth, hday, hweekday, hhour, hminute, hsecond⟩ :=
    Parts.ofExpression_of_words hwords hfound h.splitAtT?_timeText hcolon h.splitTime_timeText
      h.looksLikeDate_dateText h.splitDate_dateText h.takeDayOfWeek_weekdayWords
  rw [hparts, show texts = s.fieldText from funext fun f => by cases f <;> assumption]

/-! ## The schedule of its text -/

/-- The text reads as the schedule whatever the default zone is. -/
theorem Normal.read_text (h : s.Normal) {find? : String → Option Zone}
    (hz : s.zone.Named find?) (z : Zone) : ofExpressionIn find? s.text z = .ok s := by
  have hread (f : Field) : Alternatives.ofText f (s.fieldText f) = .ok (s.alternatives f) :=
    Alternatives.ofText_text (h f)
  simp only [ofExpressionIn, h.ofExpression_text hz, ofParts, hread, bind, Except.bind, pure,
    Except.pure, Option.getD_some]
  congr 1
  exact Schedule.ext (fun f => by cases f <;> rfl) rfl

theorem normal_of_ofParts {parts : Parts} (h : ofParts parts z = .ok s) : s.Normal ∧ s.zone = z := by
  obtain ⟨year, hyear, h⟩ := ok_of_bind h
  obtain ⟨month, hmonth, h⟩ := ok_of_bind h
  obtain ⟨dayOfMonth, hdayOfMonth, h⟩ := ok_of_bind h
  obtain ⟨dayOfWeek, hdayOfWeek, h⟩ := ok_of_bind h
  obtain ⟨hour, hhour, h⟩ := ok_of_bind h
  obtain ⟨minute, hminute, h⟩ := ok_of_bind h
  obtain ⟨second, hsecond, h⟩ := ok_of_bind h
  cases h
  refine ⟨fun f => ?_, rfl⟩
  cases f <;> exact Alternatives.normal_of_ofText ‹_›

theorem normal_of_ofExpressionIn {find? : String → Option Zone} {expression : String}
    (h : ofExpressionIn find? expression z = .ok s) :
    s.Normal ∧ (s.zone = z ∨ ∃ name, find? name = some s.zone) := by
  obtain ⟨parts, hparts, h⟩ := ok_of_bind h
  obtain ⟨hnormal, hzone⟩ := normal_of_ofParts h
  refine ⟨hnormal, ?_⟩
  cases hp : parts.zone with
  | none => exact .inl (by rw [hzone, hp, Option.getD_none])
  | some z' =>
    have hz : s.zone = z' := by rw [hzone, hp, Option.getD_some]
    exact .inr (hz ▸ Parts.exists_name_of_ofExpression hparts hp)

/-- A schedule that was read is read back from its text, whatever the default zone is, if the zones
that can be found, and the one it was read with, are found by their names. -/
theorem ofExpressionIn_text {find? : String → Option Zone}
    (hfind : ∀ name z, find? name = some z → z.Named find?) {expression : String}
    (hz : z.Named find?) (h : ofExpressionIn find? expression z = .ok s) (z' : Zone) :
    ofExpressionIn find? s.text z' = .ok s := by
  obtain ⟨hnormal, rfl | ⟨name, hname⟩⟩ := normal_of_ofExpressionIn h
  · exact hnormal.read_text hz z'
  · exact hnormal.read_text (hfind name _ hname) z'

/-- Days that run past the end of the week, years of two digits and a step, in a zone of their own. -/
theorem ofExpressionIn_text_weekends :
    (∀ name z, Zone.find? name = some z → z.Named Zone.find?) ∧ Zone.utc.Named Zone.find? ∧
      ∃ s, ofExpressionIn Zone.find? "Sat..Sun 71..75-2..4-5,6 1..3/2:0:0 Europe/Kyiv" Zone.utc = .ok s ∧
        s.text = "Sat,Sun 1971..1975-02..04-05,06 01..03/2:00:00 Europe/Kyiv" ∧
        ∀ z', ofExpressionIn Zone.find? s.text z' = .ok s := by
  have hutc : Zone.utc.Named Zone.find? := Zone.named_of_mem_known (by decide +kernel)
  have htext : (ofExpressionIn Zone.find? "Sat..Sun 71..75-2..4-5,6 1..3/2:0:0 Europe/Kyiv"
      Zone.utc).toOption.map text =
        some "Sat,Sun 1971..1975-02..04-05,06 01..03/2:00:00 Europe/Kyiv" := by decide +kernel
  refine ⟨fun _ _ => Zone.named_of_find?, hutc, ?_⟩
  obtain ⟨s, h, htext⟩ := exists_ok_of_map htext
  exact ⟨s, h, htext, ofExpressionIn_text (fun _ _ => Zone.named_of_find?) hutc h⟩

end Schedule
end Almanac
