import Almanac.Proofs.Acceptance
import Almanac.Proofs.Distance
/-!
# What a field expression means

A value passes the conditions of a text exactly if one of its items has the value: a number is itself, a range is
all that lies between its ends, and a step repeats a number up to the last value of the field and the start of a
range up to its end. Years of two digits are expanded first, and the ends of a range are put in order after that.

- `Item.Has`, `Item.Denotes`: the values of an item, as its numbers stand and as they are meant.
- `Condition.passes_iff_has`: one condition.
- `Alternatives.passes_iff_has`: a list, by the parts of its items.
- `Alternatives.passes_iff_denotes`: a text whose ranges run forwards.
-/
namespace Almanac

namespace Item

/-- The values of an item as its numbers stand. -/
def Has (f : Field) : Item → Nat → Prop
  | ⟨.value n, none⟩, v => v = n
  | ⟨.range a b, none⟩, v => a ≤ v ∧ v ≤ b
  | ⟨.value n, some k⟩, v => v ≤ f.highest ∧ ∃ i, v = n + k * i
  | ⟨.range a b, some k⟩, v => v ≤ b ∧ ∃ i, v = a + k * i

/-- The values that an item denotes: years of two digits are expanded, and the ends of a range are put in order
after that. -/
def Denotes (f : Field) : Item → Nat → Prop
  | ⟨.value n, step⟩ => Has f ⟨.value (f.expand n), step⟩
  | ⟨.range a b, step⟩ =>
    Has f ⟨.range (min (f.expand a) (f.expand b)) (max (f.expand a) (f.expand b)), step⟩

/-- The item is no range that runs backwards as it is written. -/
def Forward (item : Item) : Prop := ∀ a b, item.base = .range a b → a ≤ b

theorem Forward.parts {item : Item} (h : item.Forward) (f : Field) : item.parts f = [item.expand f] := by
  obtain ⟨base, step⟩ := item
  cases base with
  | value n => rfl
  | range a b => simp [Item.parts, unroll, Base.unroll, h a b rfl]

theorem Forward.has_expand {item : Item} {f : Field} {v : Nat} (h : item.Forward) :
    (item.expand f).Has f v ↔ item.Denotes f v := by
  obtain ⟨base, step⟩ := item
  cases base with
  | value n => exact Iff.rfl
  | range a b =>
    unfold expand Denotes
    rw [Base.expand_range (h a b rfl)]

end Item

/-- A condition lets the values pass that its base and its step have. -/
theorem Condition.passes_iff_has {f : Field} {c : Condition f} {item : Item} {v : Nat}
    (h : c.item? = some item) : c.passes v = true ↔ item.Has f v := by
  obtain ⟨base, step⟩ := item
  obtain ⟨hwithin, hstep, rfl⟩ := item?_eq_some_iff.1 h
  cases step with
  | none =>
    cases base with
    | value n => exact beq_iff_eq.trans eq_comm
    | range a b => simp [passes, Item.Has, Base.between]
  | some k =>
    have hk : 0 < k := (hstep k rfl).1
    have hmem := passes_iff_mem (v := v) hwithin hstep
    cases base with
    | value n => exact hmem.trans (Progression.mem_values hk)
    | range a b => exact hmem.trans (Progression.mem_values hk)

namespace Alternatives

variable {f : Field} {as : Alternatives f} {text : List Char} {items : List Item}

theorem passes_iff_has (hs : Item.ListSpelling items text) (h : ofText f text = .ok as) {v : Nat} :
    as.passes v = true ↔ ∃ item ∈ items, ∃ part ∈ item.parts f, part.Has f v := by
  have hmap := ((ofText_eq_ok_iff hs).1 h).2
  unfold passes
  rw [List.any_eq_true]
  constructor
  · rintro ⟨c, hc, hpass⟩
    have hmem : c.item? ∈ (items.flatMap (Item.parts f)).map some := hmap ▸ List.mem_map_of_mem hc
    obtain ⟨part, hpart, he⟩ := List.mem_map.1 hmem
    obtain ⟨item, hitem, hpart⟩ := List.mem_flatMap.1 hpart
    exact ⟨item, hitem, part, hpart, (Condition.passes_iff_has he.symm).1 hpass⟩
  · rintro ⟨item, hitem, part, hpart, hhas⟩
    obtain ⟨c, hc, he⟩ := (exists_item?_iff hmap).2 (List.mem_flatMap.2 ⟨item, hitem, hpart⟩)
    exact ⟨c, hc, (Condition.passes_iff_has he).2 hhas⟩

/-- A text that constrains nothing lets everything pass. Of any other text whose ranges run forwards, the values
pass that one of its items denotes. -/
theorem passes_iff_denotes (h : ofText f text = .ok as) :
    ((text = [] ∨ text = ['*']) ∧ ∀ v, as.passes v = true) ∨
    (∃ items, Item.ListSpelling items text) ∧
      ∀ items, Item.ListSpelling items text → (∀ item ∈ items, item.Forward) →
        ∀ v, as.passes v = true ↔ ∃ item ∈ items, item.Denotes f v := by
  by_cases hfree : text = [] ∨ text = ['*']
  · rw [ofText_unconstrained hfree] at h
    cases h
    exact .inl ⟨hfree, fun _ => rfl⟩
  · obtain ⟨hnil, hstar⟩ := not_or.1 hfree
    refine .inr ⟨exists_listSpelling_of_ofText h hnil hstar, ?_⟩
    intro items hs hforward v
    rw [passes_iff_has hs h]
    apply exists_congr
    intro item
    apply and_congr_right
    intro hitem
    simp only [(hforward item hitem).parts, List.mem_singleton, exists_eq_left, (hforward item hitem).has_expand]

/-- The year 2003 comes after 1998, so a range from 3 to 98 begins with 1998. -/
theorem passes_iff_denotes_threeToNinetyEight :
    ∃ as : Alternatives .year, ofText .year "3..98/2,30".toList = .ok as ∧
      ∀ v, as.passes v = true ↔ v = 1998 ∨ v = 2000 ∨ v = 2002 ∨ v = 2030 := by
  let items : List Item := [⟨.range 3 98, some 2⟩, ⟨.value 30, none⟩]
  have hs : Item.ListSpelling items "3..98/2,30".toList := by
    refine ⟨by decide, ["3..98/2".toList, "30".toList], by decide, .cons ?_ (.cons ?_ .nil)⟩
    · refine ⟨"3..98".toList, ['2'], by decide, ⟨['3'], "98".toList, by decide, ?_, ?_⟩, ?_⟩
      · exact Item.readValue_eq_ok_iff.1 rfl
      · exact Item.readValue_eq_ok_iff.1 rfl
      · decide
    · exact .inl (Item.readValue_eq_ok_iff.1 rfl)
  obtain ⟨as, has⟩ := exists_ofText_of_allowed (f := .year) hs (by decide)
  rcases passes_iff_denotes has with ⟨hfree, -⟩ | ⟨-, hmeans⟩
  · exact absurd hfree (by decide)
  · refine ⟨as, has, fun v => ?_⟩
    have hforward : ∀ item ∈ items, item.Forward := by
      rw [List.forall_mem_cons, List.forall_mem_singleton]
      exact ⟨fun a b he => by cases he; decide, fun a b he => by cases he⟩
    have hrange : (⟨.range 3 98, some 2⟩ : Item).Denotes .year v ↔ v ≤ 2003 ∧ ∃ i, v = 1998 + 2 * i := Iff.rfl
    have hvalue : (⟨.value 30, none⟩ : Item).Denotes .year v ↔ v = 2030 := Iff.rfl
    simp only [hmeans items hs hforward v, items, List.exists_mem_cons_iff, List.not_mem_nil, false_and, exists_false,
      or_false, hrange, hvalue]
    constructor
    · rintro (⟨hle, i, rfl⟩ | rfl) <;> omega
    · rintro (rfl | rfl | rfl | rfl)
      · exact .inl ⟨by decide, 0, rfl⟩
      · exact .inl ⟨by decide, 1, rfl⟩
      · exact .inl ⟨by decide, 2, rfl⟩
      · exact .inr rfl

end Alternatives
end Almanac
