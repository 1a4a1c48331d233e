import Almanac.Proofs.Spelling
/-!
# Which field expressions are accepted

A field accepts a text that constrains nothing, and a list of items whose values, once years of two digits are
expanded, lie in its interval and whose steps are positive and no larger than its last value. A range runs
forwards, unless its values are days of the week. Each item becomes one condition, or two if it runs past the end
of the week.

- `Item.Allowed`, `Item.parts`: which items are accepted and what they become.
- `Item.allowed_iff`: an item is accepted if its text can be read and its parts are those of conditions.
- `Alternatives.ofText_eq_ok_iff`: what a list of items is compiled to.
- `Alternatives.ofText_spec`: what is accepted, and as what.
-/
namespace Almanac

/-! ## What a field allows -/

/-- The values lie in the interval of the field once years of two digits are expanded, and a range does
not run backwards unless it is one of days of the week. -/
def Base.Allowed (f : Field) : Base → Prop
  | .value v => f.Admits (f.expand v)
  | .range a b => f.Admits (f.expand a) ∧ f.Admits (f.expand b) ∧ (a ≤ b ∨ f = .dayOfWeek)

instance (f : Field) : (base : Base) → Decidable (base.Allowed f)
  | .value v => inferInstanceAs (Decidable (f.Admits (f.expand v)))
  | .range a b => inferInstanceAs <| Decidable <|
      f.Admits (f.expand a) ∧ f.Admits (f.expand b) ∧ (a ≤ b ∨ f = .dayOfWeek)

namespace Item

def Allowed (f : Field) (item : Item) : Prop := item.base.Allowed f ∧ f.AdmitsStep item.step

instance (f : Field) (item : Item) : Decidable (item.Allowed f) :=
  inferInstanceAs (Decidable (item.base.Allowed f ∧ f.AdmitsStep item.step))

def expand (f : Field) (item : Item) : Item := ⟨item.base.expand f, item.step⟩

/-- The bases and steps of the conditions that an item stands for. -/
def parts (f : Field) (item : Item) : List Item := (item.unroll f).map (expand f)

/-- The base and the step can be those of a condition. -/
def Fits (f : Field) (item : Item) : Prop := item.base.Within f ∧ f.AdmitsStep item.step

end Item

/-! ## From items to conditions -/

namespace Base

variable {f : Field} {base : Base} {a b : Nat}

theorem expand_range (h : a ≤ b) :
    (Base.range a b).expand f = .range (min (f.expand a) (f.expand b)) (max (f.expand a) (f.expand b)) := by
  simp only [expand]
  by_cases hf : f = .year
  · by_cases hlt : f.expand b < f.expand a
    · rw [if_pos ⟨hf, hlt⟩, Nat.min_eq_right (Nat.le_of_lt hlt), Nat.max_eq_left (Nat.le_of_lt hlt)]
    · have hle := Nat.le_of_not_lt hlt
      rw [if_neg fun hc => hlt hc.2, Nat.min_eq_left hle, Nat.max_eq_right hle]
  · have hid (v : Nat) : f.expand v = v := by simp [Field.expand, hf]
    rw [if_neg fun hc => hf hc.1, hid, hid, Nat.min_eq_left h, Nat.max_eq_right h]

theorem expand_dayOfWeek (base : Base) : base.expand .dayOfWeek = base := by
  cases base <;> simp [expand, Field.expand]

theorem within_ofEnds (h : f.Admits a) (h' : f.Admits b) (hle : a ≤ b) : (ofEnds a b).Within f := by
  unfold ofEnds
  split
  · exact h
  · exact ⟨hle, h, h'⟩

theorem admits_of_within_ofEnds (h : (ofEnds a b).Within f) : f.Admits a ∧ f.Admits b := by
  unfold ofEnds at h
  split at h
  case isTrue he => exact ⟨h, he ▸ h⟩
  case isFalse => exact h.2

theorem allowed_iff :
    base.Allowed f ↔ base.InOrder f ∧ ∀ part ∈ base.unroll f, (part.expand f).Within f := by
  cases base with
  | value v => simp [Allowed, InOrder, unroll, expand, Within]
  | range a b =>
    by_cases hab : a ≤ b
    · have hwithin : (Base.range (min (f.expand a) (f.expand b)) (max (f.expand a) (f.expand b))).Within f ↔
          f.Admits (f.expand a) ∧ f.Admits (f.expand b) := by
        simp only [Within, Field.Admits]
        omega
      simp [Allowed, InOrder, unroll, hab, expand_range hab, hwithin]
    · by_cases hf : f = .dayOfWeek
      · subst hf
        simp only [Allowed, InOrder, unroll, if_neg hab, or_true, true_and, and_true, List.forall_mem_cons,
          List.not_mem_nil, false_implies, implies_true, expand_dayOfWeek, Field.expand, reduceCtorEq, if_false]
        constructor
        · rintro ⟨ha, hb⟩
          exact ⟨within_ofEnds ha (by decide) ha.2, within_ofEnds (by decide) hb hb.1⟩
        · rintro ⟨ha, hb⟩
          exact ⟨(admits_of_within_ofEnds ha).1, (admits_of_within_ofEnds hb).2⟩
      · simp [Allowed, InOrder, hab, hf]

end Base

namespace Item

variable {f : Field} {item : Item}

theorem allowed_iff : item.Allowed f ↔ item.Readable f ∧ ∀ part ∈ item.parts f, part.Fits f := by
  have hlargest : f.highest ≤ Field.largest := by cases f <;> decide
  obtain ⟨base, step⟩ := item
  have hne : base.unroll f ≠ [] := by simpa [unroll] using unroll_ne_nil ⟨base, step⟩ f
  have hparts : (∀ part ∈ parts f ⟨base, step⟩, part.Fits f) ↔
      (∀ b ∈ base.unroll f, (b.expand f).Within f) ∧ f.AdmitsStep step := by
    simp only [parts, unroll, List.map_map, List.forall_mem_map, Function.comp_apply, expand, Fits]
    constructor
    · intro h
      obtain ⟨b, hb⟩ := List.exists_mem_of_ne_nil _ hne
      exact ⟨fun b hb => (h b hb).1, (h b hb).2⟩
    · rintro ⟨h, hstep⟩ b hb
      exact ⟨h b hb, hstep⟩
  rw [hparts, Allowed, Base.allowed_iff, Readable]
  constructor
  · rintro ⟨⟨hord, hwithin⟩, hstep⟩
    exact ⟨⟨hord, fun k hk => Nat.le_trans (hstep k hk).2 hlargest⟩, hwithin, hstep⟩
  · rintro ⟨⟨hord, -⟩, hwithin, hstep⟩
    exact ⟨⟨hord, hwithin⟩, hstep⟩

theorem flatMap_unroll_ne_nil {items : List Item} (h : items ≠ []) (f : Field) : items.flatMap (unroll f) ≠ [] := by
  obtain ⟨item, hitem⟩ := List.exists_mem_of_ne_nil _ h
  obtain ⟨part, hpart⟩ := List.exists_mem_of_ne_nil _ (item.unroll_ne_nil f)
  exact List.ne_nil_of_mem (List.mem_flatMap.2 ⟨item, hitem, hpart⟩)

theorem map_expand_flatMap_unroll (items : List Item) (f : Field) :
    (items.flatMap (unroll f)).map (expand f) = items.flatMap (parts f) := by
  rw [List.map_flatMap]
  rfl

end Item

namespace Condition

variable {f : Field} {item : Item} {items : List Item} {c : Condition f} {cs : List (Condition f)}

/-- What a constrained condition consists of. -/
def item? : Condition f → Option Item
  | .wildcard => none
  | .constrained base step .. => some ⟨base, step⟩

/-- The condition that consists of a base and a step. -/
def ofFits (item : Item) (h : item.Fits f) : Condition f := .constrained item.base item.step h.1 h.2

theorem item?_eq_some_iff :
    c.item? = some item ↔ ∃ (h : item.base.Within f) (hs : f.AdmitsStep item.step),
      c = .constrained item.base item.step h hs := by
  cases c with
  | wildcard => simp [item?]
  | constrained base step h hs =>
    simp only [item?, Option.some.injEq]
    constructor
    · rintro rfl
      exact ⟨h, hs, rfl⟩
    · rintro ⟨h, hs, he⟩
      cases he
      rfl

theorem map_item?_pmap_ofFits (h : ∀ item ∈ items, item.Fits f) :
    (items.pmap ofFits h).map item? = items.map some := by
  rw [List.map_pmap]
  exact List.pmap_eq_map _

theorem ofItem_eq_ok_iff : ofItem f item = .ok c ↔ c.item? = some (item.expand f) := by
  simp only [item?_eq_some_iff, ofItem, make, Item.expand]
  by_cases h : (item.base.expand f).Within f
  · by_cases hs : f.AdmitsStep item.step
    · simp [h, hs, eq_comm]
    · simp [h, hs]
  · simp [h]

theorem mapM_ofItem_iff :
    items.mapM (ofItem f) = .ok cs ↔ cs.map item? = (items.map (Item.expand f)).map some := by
  induction items generalizing cs with
  | nil =>
    constructor
    · intro h
      cases h
      rfl
    · intro h
      rw [List.map_eq_nil_iff.1 h]
      rfl
  | cons item items ih =>
    rw [List.mapM_cons]
    constructor
    · intro h
      obtain ⟨c, hc, h⟩ := ok_of_bind h
      obtain ⟨cs', hcs, h⟩ := ok_of_bind h
      cases h
      simp only [List.map_cons, ofItem_eq_ok_iff.1 hc, ih.1 hcs]
    · intro h
      cases cs with
      | nil => simp at h
      | cons c cs =>
        simp only [List.map_cons, List.cons.injEq] at h
        simp only [ofItem_eq_ok_iff.2 h.1, ih.2 h.2, bind, Except.bind]
        rfl

end Condition

namespace Alternatives

variable {f : Field} {as : Alternatives f} {text : List Char} {items : List Item}

theorem ofItems_eq_ok_iff (hne : items ≠ []) :
    ofItems f items = .ok as ↔ as.conditions.map Condition.item? = (items.map (Item.expand f)).map some := by
  rw [← Condition.mapM_ofItem_iff]
  unfold ofItems
  constructor
  · intro h
    obtain ⟨cs, hcs, h⟩ := ok_of_bind h
    cases cs with
    | nil =>
      have hmap := Condition.mapM_ofItem_iff.1 hcs
      exact absurd (List.map_eq_nil_iff.1 (List.map_eq_nil_iff.1 hmap.symm)) hne
    | cons c cs =>
      cases h
      exact hcs
  · intro h
    obtain ⟨cs, hcs⟩ := as
    simp only [h, bind, Except.bind]
    cases cs with
    | nil => exact absurd rfl hcs
    | cons c cs => rfl

theorem ofText_unconstrained (h : text = [] ∨ text = ['*']) : ofText f text = .ok (any f) := by
  have hlist : Item.readList f.cycle? text = .ok [] := if_pos h
  simp only [ofText, hlist, bind, Except.bind]
  rfl

theorem exists_item?_iff (h : as.conditions.map Condition.item? = items.map some) {item : Item} :
    (∃ c ∈ as.conditions, c.item? = some item) ↔ item ∈ items := by
  rw [← List.mem_map, h]
  simp only [List.mem_map, Option.some.injEq, exists_eq_right]

theorem fits_of_map_item? (h : as.conditions.map Condition.item? = items.map some) :
    ∀ item ∈ items, item.Fits f := by
  intro item hitem
  obtain ⟨c, -, hc⟩ := (exists_item?_iff h).2 hitem
  obtain ⟨hwithin, hstep, -⟩ := Condition.item?_eq_some_iff.1 hc
  exact ⟨hwithin, hstep⟩

/-- The conditions of a list are the parts of its items, in the order of the text. -/
theorem ofText_eq_ok_iff (hs : Item.ListSpelling items text) :
    ofText f text = .ok as ↔ (∀ item ∈ items, item.Allowed f) ∧
      as.conditions.map Condition.item? = (items.flatMap (Item.parts f)).map some := by
  obtain ⟨hnil, hstar⟩ := hs.ne
  have hne := Item.flatMap_unroll_ne_nil hs.1 f
  have hparts := Item.map_expand_flatMap_unroll items f
  constructor
  · intro h
    obtain ⟨read, hread, h⟩ := ok_of_bind h
    obtain ⟨items', hs', hreadable, rfl⟩ := (Item.readList_eq_ok_iff hnil hstar).1 hread
    obtain rfl := hs.unique hs'
    rw [ofItems_eq_ok_iff hne, hparts] at h
    refine ⟨fun item hitem => Item.allowed_iff.2 ⟨hreadable item hitem, fun part hpart => ?_⟩, h⟩
    exact fits_of_map_item? h part (List.mem_flatMap.2 ⟨item, hitem, hpart⟩)
  · rintro ⟨hallowed, h⟩
    have hreadable : ∀ item ∈ items, item.Readable f := fun item hitem => (Item.allowed_iff.1 (hallowed item hitem)).1
    have hread := (Item.readList_eq_ok_iff hnil hstar).2 ⟨items, hs, hreadable, rfl⟩
    rw [← hparts, ← ofItems_eq_ok_iff hne] at h
    simp only [ofText, hread, bind, Except.bind, h]

/-- A list of items that the field allows has conditions. -/
theorem exists_ofText_of_allowed (hs : Item.ListSpelling items text) (h : ∀ item ∈ items, item.Allowed f) :
    ∃ as, ofText f text = .ok as := by
  have hfits : ∀ part ∈ items.flatMap (Item.parts f), part.Fits f := by
    intro part hpart
    obtain ⟨item, hitem, hpart⟩ := List.mem_flatMap.1 hpart
    exact (Item.allowed_iff.1 (h item hitem)).2 part hpart
  have hne : (items.flatMap (Item.parts f)).pmap Condition.ofFits hfits ≠ [] := by
    rw [ne_eq, List.pmap_eq_nil_iff, ← Item.map_expand_flatMap_unroll, List.map_eq_nil_iff]
    exact Item.flatMap_unroll_ne_nil hs.1 f
  exact ⟨⟨_, hne⟩, (ofText_eq_ok_iff hs).2 ⟨h, Condition.map_item?_pmap_ofFits hfits⟩⟩

theorem exists_listSpelling_of_ofText (h : ofText f text = .ok as) (hnil : text ≠ []) (hstar : text ≠ ['*']) :
    ∃ items, Item.ListSpelling items text := by
  obtain ⟨read, hread, -⟩ := ok_of_bind h
  obtain ⟨items, hs, -⟩ := (Item.readList_eq_ok_iff hnil hstar).1 hread
  exact ⟨items, hs⟩

/-- A text is accepted exactly if it constrains nothing or spells a list of items that the field allows. What
comes of it is one wildcard, or the parts of the items in the order of the text, with ends and steps of the
field. -/
theorem ofText_spec (f : Field) (text : List Char) :
    ((∃ as, ofText f text = .ok as) ↔
      (text = [] ∨ text = ['*']) ∨ ∃ items, Item.ListSpelling items text ∧ ∀ item ∈ items, item.Allowed f) ∧
    ∀ as, ofText f text = .ok as →
      ((text = [] ∨ text = ['*']) ∧ as.conditions = [.wildcard]) ∨
      ∃ items, Item.ListSpelling items text ∧ as.conditions ≠ [] ∧
        as.conditions.map Condition.item? = (items.flatMap (Item.parts f)).map some ∧
        ∀ part ∈ items.flatMap (Item.parts f), part.base.Within f ∧ f.AdmitsStep part.step := by
  by_cases hfree : text = [] ∨ text = ['*']
  · have hok := ofText_unconstrained (f := f) hfree
    refine ⟨iff_of_true ⟨_, hok⟩ (.inl hfree), fun as has => .inl ⟨hfree, ?_⟩⟩
    rw [hok] at has
    cases has
    rfl
  · obtain ⟨hnil, hstar⟩ := not_or.1 hfree
    have hcompiled {as} (has : ofText f text = .ok as) : ∃ items, Item.ListSpelling items text ∧
        (∀ item ∈ items, item.Allowed f) ∧
        as.conditions.map Condition.item? = (items.flatMap (Item.parts f)).map some := by
      obtain ⟨items, hs⟩ := exists_listSpelling_of_ofText has hnil hstar
      exact ⟨items, hs, (ofText_eq_ok_iff hs).1 has⟩
    refine ⟨⟨?_, ?_⟩, ?_⟩
    · rintro ⟨as, has⟩
      obtain ⟨items, hs, hallowed, -⟩ := hcompiled has
      exact .inr ⟨items, hs, hallowed⟩
    · rintro (h | ⟨items, hs, hallowed⟩)
      · exact absurd h hfree
      · exact exists_ofText_of_allowed hs hallowed
    · intro as has
      obtain ⟨items, hs, -, hmap⟩ := hcompiled has
      exact .inr ⟨items, hs, as.ne_nil, hmap, fits_of_map_item? hmap⟩

/-- A range past the end of the week is two conditions, and both have its step. -/
theorem ofText_spec_fridayToMonday :
    ∃ as : Alternatives .dayOfWeek, ofText .dayOfWeek "Fri..mon/2,*/3".toList = .ok as ∧
      as.conditions.map Condition.item? =
        [some ⟨.range 5 6, some 2⟩, some ⟨.range 0 1, some 2⟩, some ⟨.value 0, some 3⟩] := by
  let items : List Item := [⟨.range 5 1, some 2⟩, ⟨.value 0, some 3⟩]
  have hs : Item.ListSpelling items "Fri..mon/2,*/3".toList := by
    refine ⟨by decide, ["Fri..mon/2".toList, "*/3".toList], by decide, .cons ?_ (.cons ?_ .nil)⟩
    · refine ⟨"Fri..mon".toList, ['2'], by decide, ⟨"Fri".toList, "mon".toList, by decide, ?_, ?_⟩, ?_⟩
      · exact Item.readValue_eq_ok_iff.1 rfl
      · exact Item.readValue_eq_ok_iff.1 rfl
      · decide
    · exact ⟨['*'], ['3'], by decide, .inr ⟨rfl, rfl, rfl⟩, by decide⟩
  have hallowed : ∀ item ∈ items, item.Allowed .dayOfWeek := by decide
  obtain ⟨haccepted, hconditions⟩ := ofText_spec .dayOfWeek "Fri..mon/2,*/3".toList
  obtain ⟨as, has⟩ := haccepted.2 (.inr ⟨items, hs, hallowed⟩)
  rcases hconditions as has with ⟨hfree, -⟩ | ⟨items', hs', -, hmap, -⟩
  · exact absurd hfree (by decide)
  · obtain rfl := hs.unique hs'
    exact ⟨as, has, hmap⟩

end Alternatives
end Almanac
