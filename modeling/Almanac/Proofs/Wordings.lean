import Almanac.Proofs.RoundTrip
import Almanac.Proofs.Spelling
/-!
# Expressions with parts left out

The words of an expression are told apart by their characters, from the last one to the first: a zone is what is
found as one, a time has a colon, a date a hyphen and a digit or star in front, and the days of the week are what
is left. So as long as the texts of the fields keep clear of these marks, no word that is left out changes what
the others are taken for.

- `Parts.splitAtT?_append`: a date and a time that are joined by a `T` come apart there.
- `Plain`: the texts of fields that keep clear of the marks.
- `Wording`: the ways to write an expression out of its parts.
- `Wording.ofExpression_eq`: the parts are read as they were meant, whichever of them are left out.
-/
namespace Almanac

theorem intercalate_cons_cons (sep : Char) (text next : List Char) (texts : List (List Char)) :
    [sep].intercalate (text :: next :: texts) = text ++ sep :: [sep].intercalate (next :: texts) := by
  rw [List.intercalate_cons_cons, List.append_assoc, List.singleton_append]

theorem words_intercalate {texts : List (List Char)} (h : ∀ text ∈ texts, words text = [text]) :
    words ([' '].intercalate texts) = texts := by
  induction texts with
  | nil => rfl
  | cons text texts ih =>
    have ih := ih fun t ht => h t (List.mem_cons_of_mem _ ht)
    have htext := h text List.mem_cons_self
    cases texts with
    | nil => simpa using htext
    | cons next texts =>
      rw [intercalate_cons_cons, words_append_blank, htext, ih]
      rfl

/-- The text of an expression of these words, followed by the name of a zone if there is one. -/
def expression (texts : List (List Char)) (zone : Option (List Char)) : String :=
  .ofList ([' '].intercalate (texts ++ zone.toList))

namespace Parts

variable {l r : List Char} {sep : Char} {texts : List (List Char)}

/-! ## Joints -/

theorem splitAtT?_of_cons {a : Char} (h : splitAtT? (a :: l) = none) : splitAtT? l = none :=
  splitAtT?_eq_none_iff.2 fun b c hbc =>
    splitAtT?_eq_none_iff.1 h b c (hbc.trans (List.suffix_cons a l).isInfix)

/-- What follows a text makes no joint with its first character, nor does a `T` unless it follows that right away. -/
theorem splitAtT?_cons_append {a c : Char} (hc : isDigitOrStar c = false) (hne : l ≠ [] ∨ c ≠ 'T')
    (hl : splitAtT? (a :: l) = none) : splitAtT? (a :: (l ++ c :: r)) =
      (splitAtT? (l ++ c :: r)).map fun (date, time) => (a :: date, time) := by
  match l with
  | [] =>
    match r with
    | [] => rfl
    | b :: rest => exact if_neg fun h => hne.elim (· rfl) (· h.1)
  | [m] => exact if_neg fun h => by simp [hc] at h
  | m :: b :: rest =>
    refine if_neg fun h => ?_
    rw [splitAtT?, if_pos h] at hl
    cases hl

/-- A joint does not run over a mark. -/
theorem splitAtT?_append_cons (hsep : isDigitOrStar sep = false) (hT : sep ≠ 'T') (hl : splitAtT? l = none)
    (hr : splitAtT? r = none) : splitAtT? (l ++ sep :: r) = none := by
  induction l with
  | nil =>
    match r with
    | [] => rfl
    | [b] => rfl
    | m :: b :: rest => rw [List.nil_append, splitAtT?, if_neg (by simp [hsep]), hr, Option.map_none]
  | cons a l ih =>
    rw [List.cons_append, splitAtT?_cons_append hsep (.inr hT) hl, ih (splitAtT?_of_cons hl), Option.map_none]

theorem splitAtT?_intercalate (hsep : isDigitOrStar sep = false) (hT : sep ≠ 'T')
    (h : ∀ text ∈ texts, splitAtT? text = none) : splitAtT? ([sep].intercalate texts) = none := by
  induction texts with
  | nil => rfl
  | cons text texts ih =>
    have ih := ih fun t ht => h t (List.mem_cons_of_mem _ ht)
    have htext := h text List.mem_cons_self
    cases texts with
    | nil => simpa using htext
    | cons next texts =>
      rw [intercalate_cons_cons]
      exact splitAtT?_append_cons hsep hT htext ih

/-- Where the first text has no joint, there is one where the texts meet. -/
theorem splitAtT?_append (hl : splitAtT? l = none) (hlast : l.getLast?.any isDigitOrStar)
    (hhead : r.head?.any isDigitOrStar) : splitAtT? (l ++ 'T' :: r) = some (l, r) := by
  induction l with
  | nil => simp at hlast
  | cons a l ih =>
    match l with
    | [] =>
      match r with
      | b :: rest => exact if_pos ⟨rfl, by simpa using hlast, by simpa using hhead⟩
    | m :: rest =>
      rw [List.cons_append, splitAtT?_cons_append (by decide) (.inl (by simp)) hl,
        ih (splitAtT?_of_cons hl) (by simpa using hlast)]
      rfl

end Parts

/-! ## Texts of fields -/

/-- A text for a field that is a word and has nothing of what dates, times and joints are told by. -/
structure Plain (text : List Char) : Prop where
  ne_nil : text ≠ []
  notBlank : ∀ c ∈ text, isBlank c = false
  colon_notMem : ':' ∉ text
  hyphen_notMem : '-' ∉ text
  not_joint : ∀ a b, [a, 'T', b] <:+: text → ¬ (Parts.isDigitOrStar a ∧ Parts.isDigitOrStar b)

theorem plain_iff {text : List Char} : Plain text ↔ text ≠ [] ∧ text.all (!isBlank ·) ∧ ':' ∉ text ∧ '-' ∉ text ∧
    Parts.splitAtT? text = none := by
  have hblank : text.all (!isBlank ·) ↔ ∀ c ∈ text, isBlank c = false := by simp
  constructor
  · rintro ⟨h1, h2, h3, h4, h5⟩
    exact ⟨h1, hblank.2 h2, h3, h4, Parts.splitAtT?_eq_none_iff.2 h5⟩
  · rintro ⟨h1, h2, h3, h4, h5⟩
    exact ⟨h1, hblank.1 h2, h3, h4, Parts.splitAtT?_eq_none_iff.1 h5⟩

instance (text : List Char) : Decidable (Plain text) := decidable_of_iff' _ plain_iff

theorem Plain.splitAtT?_eq_none {text : List Char} (h : Plain text) : Parts.splitAtT? text = none :=
  (plain_iff.1 h).2.2.2.2

/-- A date as it is written, with or without a year. -/
structure DateText where
  year : Option (List Char)
  month : List Char
  day : List Char

/-- A time as it is written, with or without seconds. -/
structure TimeText where
  hour : List Char
  minute : List Char
  second : Option (List Char)

namespace DateText

variable {d : DateText}

def fields (d : DateText) : List (List Char) := d.year.toList ++ [d.month, d.day]

def text (d : DateText) : List Char := ['-'].intercalate d.fields

@[mk_iff]
structure Legible (d : DateText) : Prop where
  plain : ∀ text ∈ d.fields, Plain text
  begins : d.text.head?.any Parts.isDigitOrStar

instance (d : DateText) : Decidable d.Legible := decidable_of_iff' _ (legible_iff d)

theorem hyphen_mem (d : DateText) : '-' ∈ d.text := by
  cases hy : d.year <;> simp [text, fields, hy, List.intercalate_cons_cons]

namespace Legible

theorem notBlank (h : d.Legible) : ∀ c ∈ d.text, isBlank c = false :=
  forall_mem_intercalate (by decide) fun text ht => (h.plain text ht).notBlank

theorem colon_notMem (h : d.Legible) : ':' ∉ d.text := fun hmem =>
  forall_mem_intercalate (p := (· ≠ ':')) (by decide)
    (fun text ht _ hc he => (h.plain text ht).colon_notMem (he ▸ hc)) ':' hmem rfl

theorem splitAtT?_eq_none (h : d.Legible) : Parts.splitAtT? d.text = none :=
  Parts.splitAtT?_intercalate (by decide) (by decide) fun text ht => (h.plain text ht).splitAtT?_eq_none

theorem looksLikeDate (h : d.Legible) : Parts.looksLikeDate d.text = true := by
  simp [Parts.looksLikeDate, h.begins, d.hyphen_mem]

/-- A date without a year is one of any year. -/
theorem splitDate_text (h : d.Legible) :
    Parts.splitDate d.text = .ok (d.year.getD ['*'], d.month, d.day) := by
  have hne (text : List Char) (ht : text ∈ d.fields) : text ≠ [] := (h.plain text ht).ne_nil
  have hmark (text : List Char) (ht : text ∈ d.fields) : '-' ∉ text := (h.plain text ht).hyphen_notMem
  rw [Parts.splitDate, text, List.splitOn_intercalate _ hmark (by simp [fields])]
  cases hy : d.year <;> simp_all [fields]

end Legible
end DateText

namespace TimeText

variable {t : TimeText}

def fields (t : TimeText) : List (List Char) := [t.hour, t.minute] ++ t.second.toList

def text (t : TimeText) : List Char := [':'].intercalate t.fields

def Legible (t : TimeText) : Prop := ∀ text ∈ t.fields, Plain text

instance (t : TimeText) : Decidable t.Legible := inferInstanceAs (Decidable (∀ text ∈ t.fields, Plain text))

theorem colon_mem (t : TimeText) : ':' ∈ t.text := by
  cases hs : t.second <;> simp [text, fields, hs, List.intercalate_cons_cons]

namespace Legible

theorem notBlank (h : t.Legible) : ∀ c ∈ t.text, isBlank c = false :=
  forall_mem_intercalate (by decide) fun text ht => (h text ht).notBlank

theorem splitAtT?_eq_none (h : t.Legible) : Parts.splitAtT? t.text = none :=
  Parts.splitAtT?_intercalate (by decide) (by decide) fun text ht => (h text ht).splitAtT?_eq_none

/-- A time without seconds is one at the start of the minute. -/
theorem splitTime_text (h : t.Legible) :
    Parts.splitTime t.text = .ok (t.hour, t.minute, t.second.getD ['0', '0']) := by
  have hne (text : List Char) (ht : text ∈ t.fields) : text ≠ [] := (h text ht).ne_nil
  have hmark (text : List Char) (ht : text ∈ t.fields) : ':' ∉ text := (h text ht).colon_notMem
  rw [Parts.splitTime, text, List.splitOn_intercalate _ hmark (by simp [fields])]
  cases hs : t.second <;> simp_all [fields]

end Legible
end TimeText

/-! ## Aliases -/

/-- The word is an alias, in capitals and small letters as they come. -/
def IsAlias (word : List Char) : Prop := ∃ entry ∈ Parts.aliases, word.map Char.toLower = entry.1.toList

instance (word : List Char) : Decidable (IsAlias word) := by unfold IsAlias; infer_instance

theorem IsAlias.isAlpha {word : List Char} (h : IsAlias word) : ∀ c ∈ word, c.isAlpha := by
  obtain ⟨entry, ha, heq⟩ := h
  have hlower : ∀ entry ∈ Parts.aliases, entry.1.toList.all Char.isLower := by decide +kernel
  exact fun c hc => isAlpha_of_isLower_toLower
    (List.all_eq_true.1 (hlower entry ha) _ (heq ▸ List.mem_map_of_mem hc))

namespace Parts

variable {find? : String → Option Zone} {zone time date : Option (List Char)} {z : Option Zone}
  {texts rest before : List (List Char)}

/-- A single word becomes the words of an alias that it is, or stays. -/
theorem expandAlias_cases (word : List Char) : expandAlias [word] = [word] ∧ ¬ IsAlias word ∨
    ∃ entry ∈ aliases, word.map Char.toLower = entry.1.toList ∧
      expandAlias [word] = (entry.2.map String.toList).reverse := by
  unfold expandAlias
  dsimp only
  split
  case h_1 name expansion hfind =>
    exact .inr ⟨_, List.mem_of_find?_eq_some hfind, by simpa using List.find?_some hfind, rfl⟩
  case h_2 hfind =>
    exact .inl ⟨rfl, fun ⟨entry, ha, heq⟩ => List.find?_eq_none.1 hfind entry ha (by simpa using heq)⟩

theorem expandAlias_of_not_isAlias (h : ∀ word ∈ rest, ¬ IsAlias word) : expandAlias rest = rest := by
  rcases rest with - | ⟨word, - | ⟨next, rest⟩⟩
  · rfl
  · rcases expandAlias_cases word with ⟨heq, -⟩ | ⟨entry, ha, heq, -⟩
    · exact heq
    · exact absurd ⟨entry, ha, heq⟩ (h word List.mem_cons_self)
  · rfl

/-! ## Telling the words apart -/

theorem takeZone_append (hzone : ∀ name ∈ zone, (find? (.ofList name)).isSome)
    (hrest : ∀ word ∈ rest, find? (.ofList word) = none) :
    takeZone find? (zone.toList ++ rest) = (zone.bind fun name => find? (.ofList name), rest) := by
  cases zone with
  | none =>
    cases rest with
    | nil => rfl
    | cons last before => simp [takeZone, hrest last List.mem_cons_self]
  | some name =>
    obtain ⟨z, hz⟩ := Option.isSome_iff_exists.1 (hzone name rfl)
    simp [takeZone, hz]

theorem separateAtT_of_forall (h : ∀ word ∈ rest, splitAtT? word = none) : separateAtT rest = rest := by
  cases rest with
  | nil => rfl
  | cons last before => simp only [separateAtT, h last List.mem_cons_self]

theorem takeTime_append (htime : ∀ word ∈ time, ':' ∈ word) (hbefore : ∀ word ∈ before, ':' ∉ word) :
    takeTime (time.toList ++ before) = (time, before) := by
  cases time with
  | some word => exact if_pos (htime word rfl)
  | none =>
    cases before with
    | nil => rfl
    | cons last before => exact if_neg (hbefore last List.mem_cons_self)

theorem takeDate_append (hdate : ∀ word ∈ date, looksLikeDate word = true)
    (hbefore : ∀ word ∈ before, ¬ looksLikeDate word = true) :
    takeDate (date.toList ++ before) = (date, before) := by
  cases date with
  | some word => exact if_pos (hdate word rfl)
  | none =>
    cases before with
    | nil => rfl
    | cons last before => exact if_neg (hbefore last List.mem_cons_self)

theorem takeDayOfWeek_toList (weekday : Option (List Char)) :
    takeDayOfWeek weekday.toList = .ok (weekday.getD ['*']) := by
  cases weekday <;> rfl

theorem ne_nil_of_takeZone (h : takeZone find? texts = (z, rest)) (hne : rest ≠ []) : texts ≠ [] := by
  rintro rfl
  cases h
  exact hne rfl

/-- What is written for the zone, if anything is, is one word and is found. -/
def NamesZone (find? : String → Option Zone) (zone : Option (List Char)) : Prop :=
  ∀ name ∈ zone, words name = [name] ∧ (find? (.ofList name)).isSome

theorem takeZone_expression (hzone : NamesZone find? zone) (hwords : ∀ text ∈ texts, words text = [text])
    (hfree : ∀ text ∈ texts, find? (.ofList text) = none) :
    takeZone find? (words (expression texts zone).toList).reverse =
      (zone.bind fun name => find? (.ofList name), texts.reverse) := by
  have hall : ∀ text ∈ texts ++ zone.toList, words text = [text] := by
    simp only [List.mem_append, Option.mem_toList]
    rintro text (ht | ht)
    · exact hwords text ht
    · exact (hzone text ht).1
  have hrev : zone.toList.reverse = zone.toList := by cases zone <;> rfl
  rw [expression, String.toList_ofList, words_intercalate hall, List.reverse_append, hrev]
  exact takeZone_append (fun name hn => (hzone name hn).2) fun text ht => hfree text (List.mem_reverse.1 ht)

end Parts

/-! ## Expressions with parts left out -/

/-- What is written before the zone: the parts that are not left out. -/
structure Wording where
  weekday : Option (List Char)
  date : Option DateText
  time : Option TimeText
  /-- There is a `T` between a date and a time, and no blank. -/
  joined : Bool

namespace Wording

variable {w : Wording} {find? : String → Option Zone} {zone : Option (List Char)} {word : List Char}

/-- The words of what is written. -/
def texts (w : Wording) : List (List Char) :=
  w.weekday.toList ++
    match w.joined, w.date, w.time with
    | true, some date, some time => [date.text ++ 'T' :: time.text]
    | _, date, time => (date.map DateText.text).toList ++ (time.map TimeText.text).toList

/-- What the field is meant to be: any date or day of the week if none is written, and midnight if no time is. -/
def fieldText (w : Wording) : Field → List Char
  | .year => (w.date.bind DateText.year).getD ['*']
  | .month => (w.date.map DateText.month).getD ['*']
  | .dayOfMonth => (w.date.map DateText.day).getD ['*']
  | .dayOfWeek => w.weekday.getD ['*']
  | .hour => (w.time.map TimeText.hour).getD ['0', '0']
  | .minute => (w.time.map TimeText.minute).getD ['0', '0']
  | .second => (w.time.bind TimeText.second).getD ['0', '0']

/-- Something is written, and no part of it can be taken for another one. -/
@[mk_iff]
structure Legible (w : Wording) : Prop where
  ne_nil : w.texts ≠ []
  weekday : ∀ text ∈ w.weekday, Plain text ∧ ¬ IsAlias text
  date : ∀ d ∈ w.date, d.Legible
  time : ∀ t ∈ w.time, t.Legible
  joint : w.joined = true → ∀ d ∈ w.date, ∀ t ∈ w.time,
    d.text.getLast?.any Parts.isDigitOrStar ∧ t.text.head?.any Parts.isDigitOrStar

instance (w : Wording) : Decidable w.Legible := decidable_of_iff' _ (legible_iff w)

/-- The words from the last one to the first, with a date and a time in words of their own. -/
def separated (w : Wording) : List (List Char) :=
  (w.time.map TimeText.text).toList ++ ((w.date.map DateText.text).toList ++ w.weekday.toList)

theorem reverse_texts (w : Wording) : w.texts.reverse = w.separated ∨
    w.joined = true ∧ ∃ d ∈ w.date, ∃ t ∈ w.time, w.texts.reverse = (d.text ++ 'T' :: t.text) :: w.weekday.toList := by
  obtain ⟨weekday, date, time, joined⟩ := w
  have hrev : weekday.toList.reverse = weekday.toList := by cases weekday <;> rfl
  cases joined <;> cases date <;> cases time <;> simp [texts, separated, hrev]

theorem text_cases (h : word ∈ w.texts) : word ∈ w.separated ∨
    ∃ d ∈ w.date, ∃ t ∈ w.time, word = d.text ++ 'T' :: t.text := by
  rw [← List.mem_reverse] at h
  rcases w.reverse_texts with heq | ⟨-, d, hd, t, ht, heq⟩ <;> rw [heq] at h
  · exact .inl h
  · rcases List.mem_cons.1 h with rfl | hw
    · exact .inr ⟨d, hd, t, ht, rfl⟩
    · exact .inl (by simp [separated, hw])

theorem mem_separated : word ∈ w.separated ↔
    (∃ t ∈ w.time, t.text = word) ∨ (∃ d ∈ w.date, d.text = word) ∨ word ∈ w.weekday := by
  simp [separated]

namespace Legible

/-! Every stage of the reader finds what was written for it, and leaves the rest to the next one. -/

theorem words_eq (h : w.Legible) (hword : word ∈ w.texts) : words word = [word] := by
  rcases text_cases hword with hw | ⟨d, hd, t, ht, rfl⟩
  · rcases mem_separated.1 hw with ⟨t, ht, rfl⟩ | ⟨d, hd, rfl⟩ | hw
    · exact words_of_forall (List.ne_nil_of_mem t.colon_mem) (h.time t ht).notBlank
    · exact words_of_forall (List.ne_nil_of_mem d.hyphen_mem) (h.date d hd).notBlank
    · exact words_of_forall (h.weekday word hw).1.ne_nil (h.weekday word hw).1.notBlank
  · refine words_of_forall (by simp) fun c hc => ?_
    rcases List.mem_append.1 hc with hc | hc
    · exact (h.date d hd).notBlank c hc
    · rcases List.mem_cons.1 hc with rfl | hc
      · decide
      · exact (h.time t ht).notBlank c hc

theorem not_isAlias (h : w.Legible) (hword : word ∈ w.texts) : ¬ IsAlias word := by
  intro halias
  rcases text_cases hword with hw | ⟨d, -, t, -, rfl⟩
  · rcases mem_separated.1 hw with ⟨t, -, rfl⟩ | ⟨d, -, rfl⟩ | hw
    · exact absurd (halias.isAlpha _ t.colon_mem) (by decide)
    · exact absurd (halias.isAlpha _ d.hyphen_mem) (by decide)
    · exact (h.weekday word hw).2 halias
  · exact absurd (halias.isAlpha _ (List.mem_append_left _ d.hyphen_mem)) (by decide)

theorem separateAtT_reverse_texts (h : w.Legible) : Parts.separateAtT w.texts.reverse = w.separated := by
  rcases w.reverse_texts with heq | ⟨hjoined, d, hd, t, ht, heq⟩ <;> rw [heq]
  · refine Parts.separateAtT_of_forall fun word hword => ?_
    rcases mem_separated.1 hword with ⟨t, ht, rfl⟩ | ⟨d, hd, rfl⟩ | hw
    · exact (h.time t ht).splitAtT?_eq_none
    · exact (h.date d hd).splitAtT?_eq_none
    · exact (h.weekday word hw).1.splitAtT?_eq_none
  · obtain ⟨hlast, hhead⟩ := h.joint hjoined d hd t ht
    have hsplit := Parts.splitAtT?_append (h.date d hd).splitAtT?_eq_none hlast hhead
    rw [Option.mem_def] at hd ht
    simp [Parts.separateAtT, hsplit, separated, hd, ht]

theorem takeTime_separated (h : w.Legible) : Parts.takeTime w.separated =
    (w.time.map TimeText.text, (w.date.map DateText.text).toList ++ w.weekday.toList) := by
  refine Parts.takeTime_append (fun word hword => ?_) fun word hword => ?_
  · obtain ⟨t, -, rfl⟩ := Option.map_eq_some_iff.1 hword
    exact t.colon_mem
  · rcases List.mem_append.1 hword with hword | hword
    · obtain ⟨d, hd, rfl⟩ := Option.map_eq_some_iff.1 (Option.mem_toList.1 hword)
      exact (h.date d hd).colon_notMem
    · exact (h.weekday word (Option.mem_toList.1 hword)).1.colon_notMem

theorem takeDate_separated (h : w.Legible) :
    Parts.takeDate ((w.date.map DateText.text).toList ++ w.weekday.toList) =
      (w.date.map DateText.text, w.weekday.toList) := by
  refine Parts.takeDate_append (fun word hword => ?_) fun word hword => ?_
  · obtain ⟨d, hd, rfl⟩ := Option.map_eq_some_iff.1 hword
    exact (h.date d hd).looksLikeDate
  · simp [Parts.looksLikeDate, (h.weekday word (Option.mem_toList.1 hword)).1.hyphen_notMem]

theorem splitTime_getD (h : w.Legible) : Parts.splitTime ((w.time.map TimeText.text).getD "00:00:00".toList) =
    .ok (w.fieldText .hour, w.fieldText .minute, w.fieldText .second) := by
  cases ht : w.time with
  | none =>
    have hmidnight : Parts.splitTime "00:00:00".toList = .ok (['0', '0'], ['0', '0'], ['0', '0']) := by decide +kernel
    simpa [fieldText, ht] using hmidnight
  | some t => simpa [fieldText, ht] using (h.time t ht).splitTime_text

end Legible

/-- The parts of a legible expression are those that were meant, whatever is left out of it. -/
theorem ofExpression_eq (h : w.Legible) (hzone : Parts.NamesZone find? zone)
    (hfree : ∀ text ∈ w.texts, find? (.ofList text) = none) :
    Parts.ofExpression find? (expression w.texts zone) =
      .ok ⟨w.fieldText, zone.bind fun name => find? (.ofList name)⟩ := by
  have htake := Parts.takeZone_expression hzone (fun _ => h.words_eq) hfree
  have hne : w.texts.reverse ≠ [] := by simpa using h.ne_nil
  have halias : Parts.expandAlias w.texts.reverse = w.texts.reverse :=
    Parts.expandAlias_of_not_isAlias fun word hword => h.not_isAlias (List.mem_reverse.1 hword)
  simp only [Parts.ofExpression, Parts.ne_nil_of_takeZone htake hne, htake, hne, if_false, halias,
    h.separateAtT_reverse_texts, h.takeTime_separated, h.splitTime_getD, h.takeDate_separated,
    Parts.takeDayOfWeek_toList, bind, Except.bind, pure, Except.pure]
  cases hd : w.date with
  | none =>
    simp only [Option.map_none]
    refine congrArg Except.ok (congrArg (Parts.mk · _) (funext fun f => ?_))
    cases f <;> simp [fieldText, hd]
  | some d =>
    simp only [Option.map_some, (h.date d hd).splitDate_text]
    refine congrArg Except.ok (congrArg (Parts.mk · _) (funext fun f => ?_))
    cases f <;> simp [fieldText, hd]

end Wording

end Almanac
