import Almanac.Proofs.ConditionText
import Mathlib.Data.List.Forall2
/-!
# The grammar of field expressions

A list of items is written with commas between them. An item is a base, and a step after a slash if it
repeats; a base is a word, or two words with dots between them, or a `*` that a step repeats. A word is a
number in ASCII digits or begins the name of a weekday. A text has one reading: what is read is what it
spells.

- `Word`, `Base.Spelling`, `Item.Spelling`, `Item.ListSpelling`: the texts of each part.
- `Item.read_eq_ok_iff`: an entry is read as the item that it spells.
- `Item.ListSpelling.unique`: a text spells one list of items.
- `Item.readList_eq_ok_iff`: a text is read as the list that it spells.
-/
namespace Almanac

/-! ## Spellings -/

/-- The text is the number in one or more ASCII digits. -/
def Numeral.Spelling (n : Nat) (text : List Char) : Prop :=
  text ≠ [] ∧ (∀ c ∈ text, c.isDigit) ∧ value text = n

instance (n : Nat) (text : List Char) : Decidable (Numeral.Spelling n text) :=
  decidable_of_iff (text ≠ [] ∧ text.all Char.isDigit = true ∧ Numeral.value text = n)
    (by rw [List.all_eq_true]; exact Iff.rfl)

/-- The words for a value: a number up to the largest, or three or more of the first letters of a weekday
in any letter case. -/
inductive Word : List Char → Nat → Prop
  | number {word : List Char} {n : Nat} (spelled : Numeral.Spelling n word) (le : n ≤ Field.largest) :
    Word word n
  | weekday {word : List Char} (w : Weekday) (long : 3 ≤ word.length)
    (begins : word.map Char.toLower <+: w.name.toList) : Word word w.index

/-- The texts of a base: a word, two words with dots between them, and a `*` for 0 where a step
repeats it. -/
def Base.Spelling (repeated : Bool) : Base → List Char → Prop
  | .value v, text => Word text v ∨ (repeated = true ∧ v = 0 ∧ text = ['*'])
  | .range a b, text => ∃ start stop, text = start ++ '.' :: '.' :: stop ∧ Word start a ∧ Word stop b

/-- The texts of an item: its base, and its step after a slash if it has one. -/
def Item.Spelling : Item → List Char → Prop
  | ⟨base, none⟩, text => base.Spelling false text
  | ⟨base, some k⟩, text =>
    ∃ before after, text = before ++ '/' :: after ∧ base.Spelling true before ∧ Numeral.Spelling k after

/-- The texts of a list of one or more items, with commas between them. -/
def Item.ListSpelling (items : List Item) (text : List Char) : Prop :=
  items ≠ [] ∧ ∃ entries, text = [','].intercalate entries ∧ List.Forall₂ Item.Spelling items entries

/-! ## Words -/

theorem Numeral.read?_eq_some_iff {most n : Nat} {text : List Char} :
    read? most text = some n ↔ Spelling n text ∧ n ≤ most := by
  unfold read? Spelling
  rw [Option.ite_none_right_eq_some, List.all_eq_true]
  constructor
  · rintro ⟨⟨hne, hd, hle⟩, hn⟩
    cases hn
    exact ⟨⟨hne, hd, rfl⟩, hle⟩
  · rintro ⟨⟨hne, hd, rfl⟩, hle⟩
    exact ⟨⟨hne, hd, hle⟩, rfl⟩

theorem isAlpha_of_isLower_toLower {c : Char} (h : c.toLower.isLower) : c.isAlpha := by
  unfold Char.isAlpha
  unfold Char.toLower at h
  split at h
  case isTrue hc =>
    have hupper : c.isUpper = true := decide_eq_true hc
    simp [hupper]
  case isFalse => simp [h]

namespace Weekday

variable {word : List Char} {w w' : Weekday}

theorem isLower_name {c : Char} (h : c ∈ w.name.toList) : c.isLower := by
  have hall : w.name.toList.all Char.isLower = true := by cases w <;> decide
  exact List.all_eq_true.1 hall c h

theorem isAlpha_of_begins (h : word.map Char.toLower <+: w.name.toList) : ∀ c ∈ word, c.isAlpha :=
  fun _ hc => isAlpha_of_isLower_toLower (isLower_name (h.subset (List.mem_map_of_mem hc)))

/-- Three letters are enough to tell the weekdays apart. -/
theorem eq_of_begins (long : 3 ≤ word.length) (h : word.map Char.toLower <+: w.name.toList)
    (h' : word.map Char.toLower <+: w'.name.toList) : w = w' := by
  have hthree {w : Weekday} (h : word.map Char.toLower <+: w.name.toList) :
      (word.map Char.toLower).take 3 = w.name.toList.take 3 := by
    obtain ⟨rest, hrest⟩ := h
    rw [← hrest, List.take_append_of_le_length (by simpa using long)]
  have hnames : w.name.toList.take 3 = w'.name.toList.take 3 := (hthree h).symm.trans (hthree h')
  revert hnames
  cases w <;> cases w' <;> decide

theorem read?_eq_some_iff :
    read? word = some w ↔ 3 ≤ word.length ∧ word.map Char.toLower <+: w.name.toList := by
  unfold read?
  constructor
  · intro h
    split at h
    case isTrue hw =>
      have hbegins := List.find?_some h
      exact ⟨hw.1, List.isPrefixOf_iff_prefix.1 hbegins⟩
    case isFalse => cases h
  · rintro ⟨long, begins⟩
    rw [if_pos ⟨long, List.all_eq_true.2 (isAlpha_of_begins begins)⟩]
    obtain ⟨w', hw'⟩ : ∃ w', all.find? (fun w => (word.map Char.toLower).isPrefixOf w.name.toList) = some w' :=
      Option.isSome_iff_exists.1 <|
        List.find?_isSome.2 ⟨w, by cases w <;> decide, List.isPrefixOf_iff_prefix.2 begins⟩
    have hbegins := List.find?_some hw'
    rw [hw', eq_of_begins long begins (List.isPrefixOf_iff_prefix.1 hbegins)]

end Weekday

theorem Item.readValue_eq_ok_iff {word : List Char} {v : Nat} : readValue word = .ok v ↔ Word word v := by
  unfold readValue
  constructor
  · intro h
    cases hw : Weekday.read? word with
    | some w =>
      obtain ⟨long, begins⟩ := Weekday.read?_eq_some_iff.1 hw
      simp only [hw, Option.map_some] at h
      cases h
      exact .weekday w long begins
    | none =>
      cases hn : Numeral.read? Field.largest word with
      | none => simp [hw, hn] at h
      | some n =>
        obtain ⟨spelled, le⟩ := Numeral.read?_eq_some_iff.1 hn
        simp only [hw, hn, Option.map_none] at h
        cases h
        exact .number spelled le
  · intro h
    cases h with
    | number spelled le =>
      -- a digit is no letter, so the word names no weekday
      have hw : Weekday.read? word = none := by
        obtain ⟨c, hc⟩ := List.exists_mem_of_ne_nil _ spelled.1
        apply Option.eq_none_iff_forall_not_mem.2
        intro w hw
        have begins := (Weekday.read?_eq_some_iff.1 hw).2
        exact Field.not_isAlpha_of_isDigit (spelled.2.1 c hc) (Weekday.isAlpha_of_begins begins c hc)
      simp [hw, Numeral.read?_eq_some_iff.2 ⟨spelled, le⟩]
    | weekday w long begins => simp [Weekday.read?_eq_some_iff.2 ⟨long, begins⟩]

namespace Word

variable {word : List Char} {v v' : Nat}

theorem unique (h : Word word v) (h' : Word word v') : v = v' := by
  rw [← Item.readValue_eq_ok_iff] at h h'
  exact Except.ok.inj (h.symm.trans h')

theorem ne_nil (h : Word word v) : word ≠ [] := by
  cases h with
  | number spelled _ => exact spelled.1
  | weekday w long _ =>
    rintro rfl
    cases long

theorem isAlphanum (h : Word word v) : ∀ c ∈ word, c.isAlphanum := by
  intro c hc
  unfold Char.isAlphanum
  cases h with
  | number spelled _ => simp [spelled.2.1 c hc]
  | weekday w _ begins => simp [Weekday.isAlpha_of_begins begins c hc]

theorem notMem (h : Word word v) {c : Char} (hc : c.isAlphanum = false) : c ∉ word :=
  fun hmem => by simp [h.isAlphanum c hmem] at hc

theorem ne_star (h : Word word v) : word ≠ ['*'] := by
  rintro rfl
  exact h.notMem (by decide : '*'.isAlphanum = false) List.mem_cons_self

end Word

/-! ## Separators -/

/-- A text is split at the first of a mark in one way. -/
theorem append_cons_inj {m : Char} {l l' r r' : List Char} (h : m ∉ l) (h' : m ∉ l')
    (e : l ++ m :: r = l' ++ m :: r') : l = l' ∧ r = r' := by
  induction l generalizing l' with
  | nil =>
    cases l' with
    | nil => exact ⟨rfl, (List.cons.inj e).2⟩
    | cons c l' => exact absurd (List.mem_cons.2 (.inl (List.cons.inj e).1)) h'
  | cons c l ih =>
    cases l' with
    | nil => exact absurd (List.mem_cons.2 (.inl (List.cons.inj e).1.symm)) h
    | cons c' l' =>
      simp only [List.cons_append, List.cons.injEq] at e
      obtain ⟨rfl, e⟩ := e
      obtain ⟨rfl, rfl⟩ := ih (mt (List.mem_cons_of_mem _) h) (mt (List.mem_cons_of_mem _) h') e
      exact ⟨rfl, rfl⟩

namespace Item

variable {text l r : List Char}

theorem eq_append_of_splitSlash? (h : splitSlash? text = some (l, r)) : text = l ++ '/' :: r := by
  unfold splitSlash? at h
  split at h
  · cases h
  case h_2 c after hdrop =>
    cases h
    have hslash : c = '/' := by
      have hhead := List.head_dropWhile_not (· != '/') (by simp [hdrop] : text.dropWhile (· != '/') ≠ [])
      simpa [hdrop] using hhead
    rw [← hslash, ← hdrop, hslash, List.takeWhile_append_dropWhile]

theorem eq_append_of_splitDots? (h : splitDots? text = some (l, r)) : text = l ++ '.' :: '.' :: r := by
  induction text generalizing l with
  | nil => cases h
  | cons c cs ih =>
    unfold splitDots? at h
    split at h
    · cases h
      rfl
    · obtain ⟨⟨before, after⟩, hsplit, he⟩ := Option.map_eq_some_iff.1 h
      cases he
      rw [ih hsplit, List.cons_append]

end Item

/-! ## Bases -/

namespace Base

variable {repeated : Bool} {base base' : Base} {v : Nat} {text : List Char} {c : Char}

theorem Spelling.notMem (h : base.Spelling repeated text) (hc : c.isAlphanum = false) (hstar : c ≠ '*')
    (hdot : c ≠ '.') : c ∉ text := by
  cases base with
  | value v =>
    rcases h with h | ⟨-, -, rfl⟩
    · exact h.notMem hc
    · simpa using hstar
  | range a b =>
    obtain ⟨start, stop, rfl, ha, hb⟩ := h
    simp [ha.notMem hc, hb.notMem hc, hdot]

theorem Spelling.slash_notMem (h : base.Spelling repeated text) : '/' ∉ text :=
  h.notMem (by decide) (by decide) (by decide)

theorem Spelling.dot_notMem (h : (Base.value v).Spelling repeated text) : '.' ∉ text := by
  rcases h with h | ⟨-, -, rfl⟩
  · exact h.notMem (by decide)
  · decide

theorem Spelling.unique (h : base.Spelling repeated text) (h' : base'.Spelling repeated text) :
    base = base' := by
  cases base with
  | value v =>
    cases base' with
    | value v' =>
      rcases h with h | ⟨-, rfl, rfl⟩ <;> rcases h' with h' | ⟨-, rfl, he⟩
      · rw [h.unique h']
      · exact absurd he h.ne_star
      · exact absurd rfl h'.ne_star
      · rfl
    | range a b =>
      obtain ⟨start, stop, rfl, -, -⟩ := h'
      exact absurd (by simp) h.dot_notMem
  | range a b =>
    obtain ⟨start, stop, rfl, ha, hb⟩ := h
    cases base' with
    | value v => exact absurd (by simp) h'.dot_notMem
    | range a' b' =>
      obtain ⟨start', stop', he, ha', hb'⟩ := h'
      obtain ⟨rfl, htail⟩ := append_cons_inj (ha.notMem (by decide)) (ha'.notMem (by decide)) he
      obtain ⟨-, rfl⟩ := List.cons.inj htail
      rw [ha.unique ha', hb.unique hb']

/-- A range does not run backwards, unless it is one of days of the week. -/
def InOrder (f : Field) : Base → Prop
  | .value _ => True
  | .range a b => a ≤ b ∨ f = .dayOfWeek

/-- A range that runs backwards is two: up to the end of the week, and on from its start. -/
def unroll (f : Field) : Base → List Base
  | .value v => [.value v]
  | .range a b => if a ≤ b then [.range a b] else [.ofEnds a f.highest, .ofEnds f.lowest b]

end Base

/-! ## One item -/

namespace Item

variable {f : Field} {item item' : Item} {bases : List Base} {items : List Item}
  {text entry : List Char} {step : Option Nat}

theorem basesOfRange_eq_ok_iff {a b : Nat} :
    basesOfRange f.cycle? text a b = .ok bases ↔
      (Base.range a b).InOrder f ∧ bases = (Base.range a b).unroll f := by
  unfold basesOfRange Base.InOrder Base.unroll Field.cycle?
  by_cases hab : a ≤ b
  · simp [hab, eq_comm]
  · by_cases hf : f = .dayOfWeek
    · simp [hab, hf, eq_comm]
    · simp [hab, hf]

theorem readBases_eq_ok_iff :
    readBases f.cycle? text step = .ok bases ↔
      ∃ base : Base, base.Spelling step.isSome text ∧ base.InOrder f ∧ bases = base.unroll f := by
  unfold readBases
  constructor
  · intro h
    split at h
    case h_1 start stop hsplit =>
      split at h
      · cases h
      obtain ⟨a, ha, h⟩ := ok_of_bind h
      obtain ⟨b, hb, h⟩ := ok_of_bind h
      rw [readValue_eq_ok_iff] at ha hb
      exact ⟨.range a b, ⟨start, stop, eq_append_of_splitDots? hsplit, ha, hb⟩, basesOfRange_eq_ok_iff.1 h⟩
    case h_2 =>
      split at h
      case isTrue hstar =>
        cases h
        exact ⟨.value 0, .inr ⟨hstar.2, rfl, hstar.1⟩, trivial, rfl⟩
      case isFalse =>
        obtain ⟨v, hv, h⟩ := ok_of_bind h
        cases h
        exact ⟨.value v, .inl (readValue_eq_ok_iff.1 hv), trivial, rfl⟩
  · rintro ⟨base, hspell, hord, rfl⟩
    cases base with
    | value v =>
      rw [splitDots?_eq_none hspell.dot_notMem]
      rcases hspell with h | ⟨hstep, rfl, rfl⟩
      · simp only [h.ne_star, false_and, if_false, readValue_eq_ok_iff.2 h]
        rfl
      · simp [hstep, Base.unroll]
    | range a b =>
      obtain ⟨start, stop, rfl, ha, hb⟩ := hspell
      rw [splitDots?_append (ha.notMem (by decide))]
      simp only [splitDots?_eq_none (hb.notMem (by decide : '.'.isAlphanum = false)),
        readValue_eq_ok_iff.2 ha, readValue_eq_ok_iff.2 hb, Option.isSome_none, Bool.false_eq_true, if_false,
        bind, Except.bind, basesOfRange_eq_ok_iff.2 ⟨hord, rfl⟩]

/-- The item can be read from its texts, though its values may be none of the field. -/
def Readable (f : Field) (item : Item) : Prop :=
  item.base.InOrder f ∧ ∀ k, item.step = some k → k ≤ Field.largest

def unroll (f : Field) (item : Item) : List Item := (item.base.unroll f).map (⟨·, item.step⟩)

theorem unroll_ne_nil (item : Item) (f : Field) : item.unroll f ≠ [] := by
  obtain ⟨base, step⟩ := item
  simp only [unroll, ne_eq, List.map_eq_nil_iff]
  cases base with
  | value v => simp [Base.unroll]
  | range a b =>
    simp only [Base.unroll]
    split <;> simp

/-- An entry is read as the item that it spells. -/
theorem read_eq_ok_iff :
    read f.cycle? entry = .ok items ↔
      ∃ item : Item, item.Spelling entry ∧ item.Readable f ∧ items = item.unroll f := by
  constructor
  · intro h
    obtain ⟨⟨text, step⟩, hsplit, h⟩ := ok_of_bind h
    obtain ⟨bases, hbases, h⟩ := ok_of_bind h
    obtain ⟨base, hspell, hord, rfl⟩ := readBases_eq_ok_iff.1 hbases
    cases h
    unfold splitStep at hsplit
    cases hslash : splitSlash? entry with
    | none =>
      simp only [hslash] at hsplit
      cases hsplit
      exact ⟨⟨base, none⟩, hspell, ⟨hord, nofun⟩, rfl⟩
    | some parts =>
      obtain ⟨before, after⟩ := parts
      cases hk : Numeral.read? Field.largest after with
      | none => simp [hslash, hk] at hsplit
      | some k =>
        simp only [hslash, hk] at hsplit
        cases hsplit
        obtain ⟨hafter, hle⟩ := Numeral.read?_eq_some_iff.1 hk
        refine ⟨⟨base, some k⟩, ⟨text, after, eq_append_of_splitSlash? hslash, hspell, hafter⟩, ⟨hord, ?_⟩, rfl⟩
        rintro _ ⟨⟩
        exact hle
  · rintro ⟨⟨base, step⟩, hspell, ⟨hord, hle⟩, rfl⟩
    unfold read splitStep
    cases step with
    | none =>
      have hbases : readBases f.cycle? entry none = .ok (base.unroll f) :=
        readBases_eq_ok_iff.2 ⟨base, hspell, hord, rfl⟩
      simp only [splitSlash?_eq_none (Base.Spelling.slash_notMem hspell), bind, Except.bind, hbases]
      rfl
    | some k =>
      obtain ⟨before, after, rfl, hbefore, hafter⟩ := hspell
      have hbases : readBases f.cycle? before (some k) = .ok (base.unroll f) :=
        readBases_eq_ok_iff.2 ⟨base, hbefore, hord, rfl⟩
      have hk := Numeral.read?_eq_some_iff.2 ⟨hafter, hle k rfl⟩
      simp only [splitSlash?_append hbefore.slash_notMem, hk, bind, Except.bind, hbases]
      rfl

theorem Spelling.unique (h : item.Spelling entry) (h' : item'.Spelling entry) : item = item' := by
  obtain ⟨base, step⟩ := item
  obtain ⟨base', step'⟩ := item'
  cases step with
  | none =>
    cases step' with
    | none => rw [Base.Spelling.unique h h']
    | some k =>
      obtain ⟨before, after, rfl, -, -⟩ := h'
      exact absurd (by simp) (Base.Spelling.slash_notMem h)
  | some k =>
    obtain ⟨before, after, rfl, hb, hk⟩ := h
    cases step' with
    | none => exact absurd (by simp) (Base.Spelling.slash_notMem h')
    | some k' =>
      obtain ⟨before', after', he, hb', hk'⟩ := h'
      obtain ⟨rfl, rfl⟩ := append_cons_inj hb.slash_notMem hb'.slash_notMem he
      rw [hb.unique hb', ← hk.2.2, ← hk'.2.2]

theorem Spelling.comma_notMem (h : item.Spelling entry) : ',' ∉ entry := by
  obtain ⟨base, step⟩ := item
  cases step with
  | none => exact Base.Spelling.notMem h (by decide) (by decide) (by decide)
  | some k =>
    obtain ⟨before, after, rfl, hbefore, hafter⟩ := h
    have hcomma : ',' ∉ after := fun hmem => absurd (hafter.2.1 _ hmem) (by decide)
    simp [hbefore.notMem (by decide : ','.isAlphanum = false) (by decide) (by decide), hcomma]

/-- No item is written as nothing, or as a star that no step repeats. -/
theorem Spelling.ne (h : item.Spelling entry) : entry ≠ [] ∧ entry ≠ ['*'] := by
  obtain ⟨base, step⟩ := item
  cases step with
  | none =>
    cases base with
    | value v =>
      rcases h with h | ⟨he, -⟩
      · exact ⟨h.ne_nil, h.ne_star⟩
      · cases he
    | range a b =>
      obtain ⟨start, stop, rfl, -, -⟩ := h
      constructor <;> intro he <;> simpa [he] using (by simp : '.' ∈ start ++ '.' :: '.' :: stop)
  | some k =>
    obtain ⟨before, after, rfl, -, -⟩ := h
    constructor <;> intro he <;> simpa [he] using (by simp : '/' ∈ before ++ '/' :: after)

/-! ## A list of items -/

theorem splitOn_intercalate {entries : List (List Char)} (hne : items ≠ [])
    (h : List.Forall₂ Item.Spelling items entries) : ([','].intercalate entries).splitOn ',' = entries := by
  have hcomma : ∀ entry ∈ entries, ',' ∉ entry := by
    clear hne
    induction h with
    | nil => simp
    | cons hspell _ ih => exact List.forall_mem_cons.2 ⟨hspell.comma_notMem, ih⟩
  apply List.splitOn_intercalate _ hcomma
  rintro rfl
  cases h
  exact hne rfl

/-- A text spells one list of items. -/
theorem ListSpelling.unique {items' : List Item} (h : ListSpelling items text)
    (h' : ListSpelling items' text) : items = items' := by
  obtain ⟨hne, entries, rfl, hspell⟩ := h
  obtain ⟨hne', entries', he, hspell'⟩ := h'
  have hentries : entries = entries' := by
    rw [← splitOn_intercalate hne hspell, he, splitOn_intercalate hne' hspell']
  rw [← hentries] at hspell'
  exact List.left_unique_forall₂' (fun _ _ _ h h' => h.unique h') hspell hspell'

theorem ListSpelling.ne (h : ListSpelling items text) : text ≠ [] ∧ text ≠ ['*'] := by
  obtain ⟨hne, entries, rfl, hspell⟩ := h
  have hsplit := splitOn_intercalate hne hspell
  have hsingle {entry : List Char} (hentry : [entry] = entries) : entry ≠ [] ∧ entry ≠ ['*'] := by
    subst hentry
    cases hspell with
    | cons h _ => exact h.ne
  constructor
  · intro he
    rw [he] at hsplit
    exact (hsingle hsplit).1 rfl
  · intro he
    rw [he] at hsplit
    exact (hsingle hsplit).2 rfl

theorem mapM_read_eq_ok_iff {entries : List (List Char)} {parts : List (List Item)} :
    entries.mapM (read f.cycle?) = .ok parts ↔
      ∃ items, List.Forall₂ Item.Spelling items entries ∧ (∀ item ∈ items, item.Readable f) ∧
        parts = items.map (Item.unroll f) := by
  induction entries generalizing parts with
  | nil =>
    constructor
    · intro h
      cases h
      exact ⟨[], .nil, by simp, rfl⟩
    · rintro ⟨items, hspell, -, rfl⟩
      cases hspell
      rfl
  | cons entry entries ih =>
    rw [List.mapM_cons]
    constructor
    · intro h
      obtain ⟨first, hfirst, h⟩ := ok_of_bind h
      obtain ⟨rest, hrest, h⟩ := ok_of_bind h
      cases h
      obtain ⟨item, hspell, hread, rfl⟩ := read_eq_ok_iff.1 hfirst
      obtain ⟨items, hspells, hreads, rfl⟩ := ih.1 hrest
      exact ⟨item :: items, .cons hspell hspells, List.forall_mem_cons.2 ⟨hread, hreads⟩, rfl⟩
    · rintro ⟨items, hspells, hreads, rfl⟩
      cases hspells with
      | cons hspell hspells =>
        obtain ⟨hread, hreads⟩ := List.forall_mem_cons.1 hreads
        simp only [read_eq_ok_iff.2 ⟨_, hspell, hread, rfl⟩, ih.2 ⟨_, hspells, hreads, rfl⟩, bind, Except.bind]
        rfl

/-- A text is read as the list that it spells. -/
theorem readList_eq_ok_iff (hnil : text ≠ []) (hstar : text ≠ ['*']) :
    readList f.cycle? text = .ok items ↔
      ∃ written, ListSpelling written text ∧ (∀ item ∈ written, item.Readable f) ∧
        items = written.flatMap (Item.unroll f) := by
  unfold readList
  rw [if_neg (by simp [hnil, hstar])]
  constructor
  · intro h
    obtain ⟨parts, hparts, h⟩ := ok_of_bind h
    obtain ⟨written, hspell, hread, rfl⟩ := mapM_read_eq_ok_iff.1 hparts
    cases h
    refine ⟨written, ⟨?_, _, (List.intercalate_splitOn ',').symm, hspell⟩, hread, List.flatMap_def.symm⟩
    rintro rfl
    exact List.splitOn_ne_nil _ _ (List.forall₂_nil_left_iff.1 hspell)
  · rintro ⟨written, ⟨hne, entries, rfl, hspell⟩, hread, rfl⟩
    simp only [splitOn_intercalate hne hspell, mapM_read_eq_ok_iff.2 ⟨written, hspell, hread, rfl⟩, bind,
      Except.bind, List.flatMap_def]
    rfl

end Item
end Almanac
