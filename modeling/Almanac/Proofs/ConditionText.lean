import Almanac.Schedule.Expression
/-!
# Conditions read back

What is written for the conditions on a field is read as the same conditions. Nothing is written with
the characters that separate its parts from each other, so a text falls apart where it was put
together.

- `Field.Writes`: the characters of what is written for a field.
- `Alternatives.Normal`: the wildcard stands alone, as it does in all conditions that were read.
- `Alternatives.ofText_text`: such conditions are read back from their text.
-/
namespace Almanac

/-! ## Separators -/

namespace Item

variable {l r : List Char}

theorem splitSlash?_eq_none (h : '/' ∉ l) : splitSlash? l = none := by
  have hall : ∀ c ∈ l, (c != '/') = true := fun c hc => by
    simpa using fun e : c = '/' => h (e ▸ hc)
  have hdrop := @List.dropWhile_append_of_pos _ _ l [] hall
  rw [List.append_nil, List.dropWhile_nil] at hdrop
  simp only [splitSlash?, hdrop]

theorem splitSlash?_append (h : '/' ∉ l) : splitSlash? (l ++ '/' :: r) = some (l, r) := by
  have hall : ∀ c ∈ l, (c != '/') = true := fun c hc => by
    simpa using fun e : c = '/' => h (e ▸ hc)
  simp [splitSlash?, List.dropWhile_append_of_pos hall, List.takeWhile_append_of_pos hall]

theorem splitDots?_eq_none (h : '.' ∉ l) : splitDots? l = none := by
  induction l with
  | nil => rfl
  | cons c l ih =>
    have hc : c ≠ '.' := fun e => h (e ▸ List.mem_cons_self)
    simp [splitDots?, hc, ih fun hl => h (List.mem_cons_of_mem _ hl)]

theorem splitDots?_append (h : '.' ∉ l) : splitDots? (l ++ '.' :: '.' :: r) = some (l, r) := by
  induction l with
  | nil => rfl
  | cons c l ih =>
    have hc : c ≠ '.' := fun e => h (e ▸ List.mem_cons_self)
    simp [splitDots?, hc, ih fun hl => h (List.mem_cons_of_mem _ hl)]

end Item

/-! ## Characters -/

theorem forall_mem_intercalate {p : Char → Prop} {m : Char} {texts : List (List Char)} (hm : p m)
    (h : ∀ t ∈ texts, ∀ c ∈ t, p c) : ∀ c ∈ [m].intercalate texts, p c := by
  match texts with
  | [] => simp
  | [t] => simpa using h t
  | t :: u :: texts =>
    have ih := forall_mem_intercalate hm fun t ht => h t (List.mem_cons_of_mem _ ht)
    simp only [List.intercalate_cons_cons, List.mem_append, List.mem_singleton]
    rintro c ((hc | rfl) | hc)
    · exact h t List.mem_cons_self c hc
    · exact hm
    · exact ih c hc

theorem isDigit_iff {c : Char} : c.isDigit = true ↔ 48 ≤ c.toNat ∧ c.toNat ≤ 57 := by
  have h : c.isDigit = (decide (48 ≤ c.val) && decide (c.val ≤ 57)) := rfl
  simp only [h, Bool.and_eq_true, decide_eq_true_eq, UInt32.le_iff_toNat_le]
  exact Iff.rfl

theorem isAlpha_iff {c : Char} :
    c.isAlpha = true ↔ (65 ≤ c.toNat ∧ c.toNat ≤ 90) ∨ (97 ≤ c.toNat ∧ c.toNat ≤ 122) := by
  have hupper : c.isUpper = decide (65 ≤ c.val ∧ c.val ≤ 90) := rfl
  have hlower : c.isLower = (decide (97 ≤ c.val) && decide (c.val ≤ 122)) := rfl
  have h : c.isAlpha = (c.isUpper || c.isLower) := rfl
  simp only [h, hupper, hlower, Bool.or_eq_true, Bool.and_eq_true, decide_eq_true_eq,
    UInt32.le_iff_toNat_le]
  exact Iff.rfl

theorem isBlank_of_isAlphanum {c : Char} (h : c.isAlphanum) : isBlank c = false := by
  simp only [Char.isAlphanum, Bool.or_eq_true, isAlpha_iff, isDigit_iff] at h
  simp [isBlank]
  omega

namespace Field

variable {f : Field} {marks text text' : List Char} {c : Char}

/-- A character of a value or of a step. -/
def isWordChar (f : Field) (c : Char) : Bool := c.isDigit || (f == .dayOfWeek && c.isAlpha)

/-- The text has characters of values and steps, and the marks. -/
def Writes (f : Field) (marks text : List Char) : Prop := ∀ c ∈ text, f.isWordChar c ∨ c ∈ marks

theorem Writes.notMem (h : f.Writes marks text) (hc : c.isAlphanum = false) (hm : c ∉ marks) :
    c ∉ text := fun hmem => by
  rcases h c hmem with hw | hw
  · simp only [Char.isAlphanum, Bool.or_eq_false_iff] at hc
    simp [isWordChar, hc.1, hc.2] at hw
  · exact hm hw

theorem Writes.isBlank_eq_false (h : f.Writes marks text) (hm : ∀ c ∈ marks, isBlank c = false) :
    ∀ c ∈ text, isBlank c = false := fun c hc => by
  rcases h c hc with hw | hw
  · refine isBlank_of_isAlphanum ?_
    simp only [isWordChar, Bool.or_eq_true, Bool.and_eq_true] at hw
    simp only [Char.isAlphanum, Bool.or_eq_true]
    exact hw.elim .inr fun hw => .inl hw.2
  · exact hm c hw

theorem Writes.mono {marks' : List Char} (h : f.Writes marks text) (hm : marks ⊆ marks') :
    f.Writes marks' text :=
  fun c hc => (h c hc).imp_right fun hmem => hm hmem

theorem Writes.append (h : f.Writes marks text) (h' : f.Writes marks text') :
    f.Writes marks (text ++ text') :=
  fun c hc => (List.mem_append.1 hc).elim (h c) (h' c)

theorem Writes.intercalate {m : Char} {texts : List (List Char)} (hm : m ∈ marks)
    (h : ∀ t ∈ texts, f.Writes marks t) : f.Writes marks ([m].intercalate texts) :=
  forall_mem_intercalate (.inr hm) h

theorem writes_of_isDigit (h : ∀ c ∈ text, c.isDigit) : f.Writes marks text :=
  fun c hc => .inl (by simp [isWordChar, h c hc])

/-- The text begins with a character of a value. -/
def Begins (f : Field) (text : List Char) : Prop := ∃ c ∈ text.head?, f.isWordChar c

theorem Begins.ne_nil (h : f.Begins text) : text ≠ [] := by
  rintro rfl
  obtain ⟨c, hc, -⟩ := h
  cases hc

theorem Begins.append (h : f.Begins text) (text' : List Char) : f.Begins (text ++ text') := by
  obtain ⟨c, hc, hw⟩ := h
  exact ⟨c, by simp_all, hw⟩

theorem begins_of_isDigit (hne : text ≠ []) (h : ∀ c ∈ text, c.isDigit) : f.Begins text := by
  obtain ⟨c, l, rfl⟩ := List.exists_cons_of_ne_nil hne
  exact ⟨c, rfl, by simp [isWordChar, h c List.mem_cons_self]⟩

/-! ## Values -/

variable {v : Nat}

theorem not_isAlpha_of_isDigit (h : c.isDigit) : ¬ c.isAlpha := by
  rw [isDigit_iff] at h
  rw [isAlpha_iff]
  omega

theorem writes_valueText (f : Field) (v : Nat) : f.Writes marks (f.valueText v).toList := by
  cases f
  case dayOfWeek =>
    have hw (w : Weekday) : w.abbreviation.toList.all (isWordChar .dayOfWeek) = true := by
      cases w <;> decide
    exact fun c hc => .inl (List.all_eq_true.1 (hw _) c hc)
  all_goals exact writes_of_isDigit fun _ => Numeral.isDigit_of_mem_padded

theorem begins_valueText (f : Field) (v : Nat) : f.Begins (f.valueText v).toList := by
  cases f
  case dayOfWeek =>
    have hw (w : Weekday) : ∃ c ∈ w.abbreviation.toList.head?, isWordChar .dayOfWeek c := by
      cases w <;> exact ⟨_, rfl, by decide⟩
    exact hw _
  all_goals
    exact begins_of_isDigit (Numeral.padded_ne_nil _ _) fun _ => Numeral.isDigit_of_mem_padded

theorem notMem_valueText (f : Field) (v : Nat) (hc : c.isAlphanum = false) :
    c ∉ (f.valueText v).toList :=
  Writes.notMem (writes_valueText f v) hc List.not_mem_nil

theorem readValue_padded (h : v ≤ largest) (width : Nat) :
    Item.readValue (Numeral.padded width v).toList = .ok v := by
  have hread : Weekday.read? (Numeral.padded width v).toList = none := by
    obtain ⟨c, hc⟩ := List.exists_mem_of_ne_nil _ (Numeral.padded_ne_nil width v)
    have hd := Numeral.isDigit_of_mem_padded hc
    exact if_neg fun hall => not_isAlpha_of_isDigit hd (List.all_eq_true.1 hall.2 c hc)
  simp [Item.readValue, hread, Numeral.read?_padded h width]

theorem readValue_valueText (h : f.Admits v) : Item.readValue (f.valueText v).toList = .ok v := by
  have hle : v ≤ largest := Nat.le_trans h.2 (by cases f <;> decide)
  cases f
  case dayOfWeek =>
    have hw (w : Weekday) : Item.readValue w.abbreviation.toList = .ok w.index := by cases w <;> rfl
    rw [valueText, hw, Weekday.index_ofIndex (Nat.lt_succ_of_le h.2)]
  all_goals exact readValue_padded hle _

/-! ## Bases -/

def baseText (f : Field) : Base → String
  | .value v => f.valueText v
  | .range a b => f.valueText a ++ ".." ++ f.valueText b

theorem begins_baseText (f : Field) (base : Base) : f.Begins (f.baseText base).toList := by
  cases base with
  | value v => exact begins_valueText f v
  | range a b => simpa [baseText] using (begins_valueText f a).append _

theorem writes_baseText (f : Field) (base : Base) : f.Writes ['.'] (f.baseText base).toList := by
  cases base with
  | value v => exact writes_valueText f v
  | range a b =>
    have hdots : f.Writes ['.'] "..".toList := fun c hc => .inr (by simpa using hc)
    simpa [baseText] using ((writes_valueText f a).append hdots).append (writes_valueText f b)

theorem readBases_baseText {cycle : Option (Nat × Nat)} {base : Base} {step : Option Nat}
    (h : base.Within f) : Item.readBases cycle (f.baseText base).toList step = .ok [base] := by
  have hdot (v : Nat) : '.' ∉ (f.valueText v).toList := notMem_valueText f v (by decide)
  cases base with
  | value v =>
    have hstar : (f.valueText v).toList ≠ ['*'] := fun e =>
      notMem_valueText f v (by decide : '*'.isAlphanum = false) (by simp [e])
    simp only [Item.readBases, baseText, Item.splitDots?_eq_none (hdot v), hstar,
      readValue_valueText h]
    rfl
  | range a b =>
    obtain ⟨hle, ha, hb⟩ := h
    have hsplit : Item.splitDots? (f.baseText (.range a b)).toList =
        some ((f.valueText a).toList, (f.valueText b).toList) := by
      simpa [baseText] using Item.splitDots?_append (hdot a)
    simp only [Item.readBases, hsplit, Item.splitDots?_eq_none (hdot b), readValue_valueText ha,
      readValue_valueText hb, Item.basesOfRange, bind, Except.bind, if_pos hle]
    rfl

end Field

/-! ## Conditions -/

namespace Base

variable {f : Field} {base : Base}

/-- What is within the interval of the field was expanded already. -/
theorem expand_of_within (h : base.Within f) : base.expand f = base := by
  have hv {v : Nat} (hv : f.Admits v) : f.expand v = v := by
    by_cases hf : f = .year
    · subst hf
      have := hv.1
      simp only [Field.lowest] at this
      simp only [Field.expand, if_true]
      rw [if_neg (by omega), if_neg (by omega)]
    · simp only [Field.expand, if_neg hf]
  cases base with
  | value v => simp only [expand, hv h]
  | range a b =>
    obtain ⟨hle, ha, hb⟩ := h
    simp only [expand, hv ha, hv hb]
    exact if_neg fun hlt => Nat.not_lt.2 hle hlt.2

end Base

namespace Condition

variable {f : Field} {base : Base} {step : Option Nat}

theorem ofItem_of_within (h : base.Within f) (hs : f.AdmitsStep step) :
    ofItem f ⟨base, step⟩ = .ok (.constrained base step h hs) := by
  simp only [ofItem, make, Base.expand_of_within h, dif_pos h, dif_pos hs]

theorem ne_wildcard_of_ofItem {item : Item} {c : Condition f} (h : ofItem f item = .ok c) :
    c ≠ .wildcard := by
  rintro rfl
  simp only [ofItem, make] at h
  split at h
  · split at h <;> cases h
  · cases h

theorem text_constrained (h : base.Within f) (hs : f.AdmitsStep step) :
    (constrained base step h hs).text = match step with
      | none => f.baseText base
      | some k => f.baseText base ++ "/" ++ Numeral.digits k := by
  cases base <;> cases step <;> rfl

theorem begins_text {c : Condition f} (hc : c ≠ .wildcard) : f.Begins c.text.toList := by
  cases c with
  | wildcard => exact absurd rfl hc
  | constrained base step h hs =>
    have hb := Field.begins_baseText f base
    rw [text_constrained]
    cases step with
    | none => exact hb
    | some k => simpa using hb.append _

theorem writes_text {c : Condition f} (hc : c ≠ .wildcard) :
    f.Writes ['.', '/'] c.text.toList := by
  cases c with
  | wildcard => exact absurd rfl hc
  | constrained base step h hs =>
    have hb : f.Writes ['.', '/'] (f.baseText base).toList :=
      (Field.writes_baseText f base).mono (by simp)
    rw [text_constrained]
    cases step with
    | none => exact hb
    | some k =>
      have hslash : f.Writes ['.', '/'] "/".toList := fun c hc => .inr (by simp_all)
      simpa using (hb.append hslash).append
        (Field.writes_of_isDigit fun _ => Numeral.isDigit_of_mem_digits)

/-- One entry of the list is read as one item, and the item as the condition. -/
theorem read_text {c : Condition f} (hc : c ≠ .wildcard) (cycle : Option (Nat × Nat)) :
    ∃ item, Item.read cycle c.text.toList = .ok [item] ∧ ofItem f item = .ok c := by
  cases c with
  | wildcard => exact absurd rfl hc
  | constrained base step h hs =>
    refine ⟨⟨base, step⟩, ?_, ofItem_of_within h hs⟩
    have hslash := (Field.writes_baseText f base).notMem (c := '/') (by decide) (by decide)
    have hsplit : Item.splitStep (constrained base step h hs).text.toList =
        .ok ((f.baseText base).toList, step) := by
      rw [text_constrained]
      cases step with
      | none => simp only [Item.splitStep, Item.splitSlash?_eq_none hslash]
      | some k =>
        have hk : k ≤ Field.largest :=
          Nat.le_trans (hs k rfl).2 (by cases f <;> decide)
        have happ := Item.splitSlash?_append (r := (Numeral.digits k).toList) hslash
        simp [Item.splitStep, happ, Numeral.read?_digits hk]
    simp only [Item.read, hsplit, bind, Except.bind, Field.readBases_baseText h]
    rfl

end Condition

/-! ## Alternatives -/

namespace Alternatives

variable {f : Field} {as : Alternatives f}

/-- The wildcard stands alone. -/
def Normal (as : Alternatives f) : Prop := as = any f ∨ .wildcard ∉ as.conditions

theorem wildcard_notMem_of_mapM {items : List Item} {cs : List (Condition f)}
    (h : items.mapM (Condition.ofItem f) = .ok cs) : .wildcard ∉ cs := by
  induction items generalizing cs with
  | nil =>
    cases h
    exact List.not_mem_nil
  | cons item items ih =>
    rw [List.mapM_cons] at h
    obtain ⟨c, hc, h⟩ := ok_of_bind h
    obtain ⟨cs', hcs, h⟩ := ok_of_bind h
    cases h
    exact List.not_mem_cons_of_ne_of_not_mem (Ne.symm (Condition.ne_wildcard_of_ofItem hc)) (ih hcs)

theorem normal_of_ofText {text : List Char} (h : ofText f text = .ok as) : as.Normal := by
  obtain ⟨items, -, h⟩ := ok_of_bind h
  obtain ⟨cs, hcs, h⟩ := ok_of_bind h
  cases cs with
  | nil =>
    cases h
    exact .inl rfl
  | cons c cs =>
    cases h
    exact .inr (wildcard_notMem_of_mapM hcs)

theorem toList_text (as : Alternatives f) :
    as.text.toList = [','].intercalate (as.conditions.map (·.text.toList)) := by
  simp [text, String.toList_intercalate, Function.comp_def]

/-- The entries of the list are read one by one. -/
theorem mapM_read_text {cs : List (Condition f)} (h : .wildcard ∉ cs) (cycle : Option (Nat × Nat)) :
    ∃ items : List Item, (cs.map (·.text.toList)).mapM (Item.read cycle) = .ok (items.map ([·])) ∧
      items.mapM (Condition.ofItem f) = .ok cs := by
  induction cs with
  | nil => exact ⟨[], rfl, rfl⟩
  | cons c cs ih =>
    obtain ⟨hc, hcs⟩ := not_or.1 (mt List.mem_cons.2 h)
    obtain ⟨item, hread, hof⟩ := Condition.read_text (Ne.symm hc) cycle
    obtain ⟨items, hreads, hofs⟩ := ih hcs
    refine ⟨item :: items, ?_, ?_⟩
    · simp only [List.map_cons, List.mapM_cons, hread, hreads, bind, Except.bind]
      rfl
    · simp only [List.mapM_cons, hof, hofs, bind, Except.bind]
      rfl

theorem begins_text_of_notMem (h : .wildcard ∉ as.conditions) : f.Begins as.text.toList := by
  rw [toList_text]
  obtain ⟨cs, hne⟩ := as
  obtain ⟨c, cs, rfl⟩ := List.exists_cons_of_ne_nil hne
  have hc : f.Begins c.text.toList :=
    Condition.begins_text fun e => h (List.mem_cons.2 (.inl e.symm))
  cases cs with
  | nil => simpa using hc
  | cons d cs => simpa [List.intercalate_cons_cons] using hc.append _

theorem writes_text_of_notMem (h : .wildcard ∉ as.conditions) :
    f.Writes ['.', '/', ','] as.text.toList := by
  rw [toList_text]
  refine Field.Writes.intercalate (by simp) fun t ht => ?_
  obtain ⟨c, hc, rfl⟩ := List.mem_map.1 ht
  exact (Condition.writes_text fun e => h (e ▸ hc)).mono (by simp)

theorem toList_text_any (f : Field) : (any f).text.toList = ['*'] := by
  simp [toList_text, any, Condition.text]

theorem Normal.writes_text (h : as.Normal) : f.Writes ['*', '.', '/', ','] as.text.toList := by
  rcases h with rfl | h
  · exact fun c hc => .inr (by simp_all [toList_text_any])
  · exact (writes_text_of_notMem h).mono (by simp)

theorem Normal.head_text (h : as.Normal) :
    ∃ c ∈ as.text.toList.head?, f.isWordChar c ∨ c = '*' := by
  rcases h with rfl | h
  · exact ⟨'*', by simp [toList_text_any], .inr rfl⟩
  · obtain ⟨c, hc, hw⟩ := begins_text_of_notMem h
    exact ⟨c, hc, .inl hw⟩

theorem Normal.text_ne_nil (h : as.Normal) : as.text.toList ≠ [] := fun e => by
  obtain ⟨c, hc, -⟩ := h.head_text
  simp [e] at hc

theorem Normal.eq_any (h : as.Normal) (hw : as.isWildcard) : as = any f := by
  rcases h with h | h
  · exact h
  obtain ⟨c, cs, hcs⟩ := List.exists_cons_of_ne_nil as.ne_nil
  simp only [isWildcard, hcs, List.all_cons, Bool.and_eq_true, beq_iff_eq] at hw
  exact absurd (by simp [hcs, hw.1]) h

/-- Conditions that were read, or are like them, are read back from their text. -/
theorem ofText_text (h : as.Normal) : ofText f as.text.toList = .ok as := by
  rcases h with rfl | h
  · have hlist : Item.readList f.cycle? (any f).text.toList = .ok [] := if_pos (.inr (toList_text_any f))
    simp only [ofText, hlist, bind, Except.bind]
    rfl
  have hstar : as.text.toList ≠ ['*'] := fun e =>
    (writes_text_of_notMem h).notMem (by decide : '*'.isAlphanum = false) (by decide) (by simp [e])
  have hcomma : ∀ l ∈ as.conditions.map (·.text.toList), ',' ∉ l := by
    simp only [List.mem_map, forall_exists_index, and_imp, forall_apply_eq_imp_iff₂]
    exact fun c hc => (Condition.writes_text fun e => h (e ▸ hc)).notMem (by decide) (by decide)
  have hsplit : as.text.toList.splitOn ',' = as.conditions.map (·.text.toList) := by
    rw [toList_text, List.splitOn_intercalate _ hcomma (by simpa using as.ne_nil)]
  obtain ⟨items, hread, hof⟩ := mapM_read_text h f.cycle?
  have hlist : Item.readList f.cycle? as.text.toList = .ok items := by
    simp only [Item.readList, (begins_text_of_notMem h).ne_nil, hstar, or_self, if_false, hsplit, hread, bind,
      Except.bind, ← List.flatMap_def, List.flatMap_singleton']
    rfl
  obtain ⟨cs, hne⟩ := as
  simp only [ofText, hlist, ofItems, hof, bind, Except.bind]
  cases cs with
  | nil => exact absurd rfl hne
  | cons c cs => rfl

end Alternatives
end Almanac
