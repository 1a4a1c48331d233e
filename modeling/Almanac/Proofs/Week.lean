import Almanac.Proofs.Meaning
/-!
# Ranges around the end of the week

A range of days of the week is a walk from its first day forward to its last, past Saturday if need be. Without
steps the days that pass are exactly those of the walks. A step does not only leave days out: a range that runs
past the end of the week and ends on Sunday has Sunday as a value of its own, and a step repeats a value up to the
end of the week.

- `Base.Walk`, `Item.Strays`: the days that are written, and the days onto which a step carries such a range.
- `Item.walk_or_strays_of_has`: an item has no other days.
- `Alternatives.walk_or_strays_of_passes`: which days pass.
- `Alternatives.not_walk_of_passes_fridayToSunday`: a Tuesday between Friday and Sunday.
-/
namespace Almanac

/-- The days on the way from the first day of a range forward to its last. A value is a day of its own. -/
def Base.Walk : Base → Nat → Prop
  | .value a, v => v = a
  | .range a b, v => ∃ i ≤ (b + 7 - a) % 7, v = (a + i) % 7

theorem Base.walk_range_iff {a b v : Nat} (ha : Field.dayOfWeek.Admits a) (hb : Field.dayOfWeek.Admits b) :
    (Base.range a b).Walk v ↔ if a ≤ b then a ≤ v ∧ v ≤ b else (a ≤ v ∧ v ≤ 6) ∨ v ≤ b := by
  have ha6 : a ≤ 6 := ha.2
  have hb6 : b ≤ 6 := hb.2
  unfold Walk
  constructor
  · rintro ⟨i, hi, rfl⟩
    split <;> omega
  · intro h
    -- the walk begins with the first day, so a day before it comes after the end of the week
    by_cases hav : a ≤ v
    · refine ⟨v - a, ?_, ?_⟩ <;> split at h <;> omega
    · refine ⟨v + 7 - a, ?_, ?_⟩ <;> split at h <;> omega

theorem Base.Allowed.admits {a b : Nat} (h : (Base.range a b).Allowed .dayOfWeek) :
    Field.dayOfWeek.Admits a ∧ Field.dayOfWeek.Admits b := ⟨h.1, h.2.1⟩

namespace Item

variable {item : Item} {step : Option Nat} {a b v : Nat} {f : Field}

/-- The item ends on Sunday, past the end of the week, and its step carries Sunday on to the day. -/
def Strays (item : Item) (v : Nat) : Prop :=
  ∃ a k, item = ⟨.range a 0, some k⟩ ∧ 0 < a ∧ v ≤ Field.dayOfWeek.highest ∧ ∃ i, v = k * i

/-! ## The days of one item -/

theorem between_of_has_range (h : Has f ⟨.range a b, step⟩ v) : a ≤ v ∧ v ≤ b := by
  cases step with
  | none => exact h
  | some k =>
    obtain ⟨hle, i, rfl⟩ := h
    exact ⟨Nat.le_add_right a _, hle⟩

theorem has_ofEnds_none_iff : Has f ⟨.ofEnds a b, none⟩ v ↔ a ≤ v ∧ v ≤ b := by
  unfold Base.ofEnds
  split
  case isTrue h =>
    rw [h, ← Nat.le_antisymm_iff, eq_comm]
    exact Iff.rfl
  case isFalse => exact Iff.rfl

/-- Only a step carries an item out of its ends, and only if they are one value. -/
theorem between_or_of_has_ofEnds (h : Has f ⟨.ofEnds a b, step⟩ v) :
    (a ≤ v ∧ v ≤ b) ∨ a = b ∧ ∃ k, step = some k ∧ v ≤ f.highest ∧ ∃ i, v = a + k * i := by
  cases step with
  | none => exact .inl (has_ofEnds_none_iff.1 h)
  | some k =>
    unfold Base.ofEnds at h
    split at h
    case isTrue hab => exact .inr ⟨hab, k, rfl, h⟩
    case isFalse => exact .inl (between_of_has_range h)

theorem parts_dayOfWeek_of_le (h : a ≤ b) : parts .dayOfWeek ⟨.range a b, step⟩ = [⟨.range a b, step⟩] := by
  simp [parts, unroll, Base.unroll, h, expand, Base.expand_dayOfWeek]

theorem parts_dayOfWeek_of_lt (h : b < a) :
    parts .dayOfWeek ⟨.range a b, step⟩ = [⟨.ofEnds a 6, step⟩, ⟨.ofEnds 0 b, step⟩] := by
  simp [parts, unroll, Base.unroll, Nat.not_le.2 h, expand, Base.expand_dayOfWeek, Field.highest, Field.lowest]

theorem walk_or_strays_of_has {part : Item} (hallowed : Allowed .dayOfWeek ⟨.range a b, step⟩)
    (hpart : part ∈ parts .dayOfWeek ⟨.range a b, step⟩) (h : part.Has .dayOfWeek v) :
    (Base.range a b).Walk v ∨ Strays ⟨.range a b, step⟩ v := by
  obtain ⟨ha, hb⟩ := hallowed.1.admits
  rw [Base.walk_range_iff ha hb]
  by_cases hab : a ≤ b
  · rw [parts_dayOfWeek_of_le hab, List.mem_singleton] at hpart
    subst hpart
    rw [if_pos hab]
    exact .inl (between_of_has_range h)
  · rw [parts_dayOfWeek_of_lt (Nat.lt_of_not_le hab), List.mem_pair] at hpart
    rw [if_neg hab]
    rcases hpart with rfl | rfl
    · rcases between_or_of_has_ofEnds h with h | ⟨rfl, k, -, hle, i, rfl⟩
      · exact .inl (.inl h)
      · exact .inl (.inl ⟨Nat.le_add_right 6 _, hle⟩)
    · rcases between_or_of_has_ofEnds h with h | ⟨rfl, k, rfl, hle, i, rfl⟩
      · exact .inl (.inr h.2)
      · exact .inr ⟨a, k, rfl, Nat.lt_of_not_le hab, hle, i, Nat.zero_add _⟩

theorem Strays.exists_has (h : item.Strays v) : ∃ part ∈ item.parts .dayOfWeek, part.Has .dayOfWeek v := by
  obtain ⟨a, k, rfl, ha, hle, i, rfl⟩ := h
  rw [parts_dayOfWeek_of_lt ha]
  exact ⟨_, List.mem_cons_of_mem _ (List.mem_singleton_self _), hle, i, (Nat.zero_add _).symm⟩

theorem exists_has_iff_walk (hallowed : Allowed .dayOfWeek ⟨.range a b, none⟩) :
    (∃ part ∈ parts .dayOfWeek ⟨.range a b, none⟩, part.Has .dayOfWeek v) ↔ (Base.range a b).Walk v := by
  obtain ⟨ha, hb⟩ := hallowed.1.admits
  rw [Base.walk_range_iff ha hb]
  by_cases hab : a ≤ b
  · rw [parts_dayOfWeek_of_le hab, if_pos hab]
    simp only [List.mem_singleton, exists_eq_left]
    exact Iff.rfl
  · rw [parts_dayOfWeek_of_lt (Nat.lt_of_not_le hab), if_neg hab]
    simp only [List.mem_pair, exists_eq_or_imp, exists_eq_left, has_ofEnds_none_iff, Nat.zero_le, true_and]

end Item

/-! ## The days of a list -/

namespace Alternatives

variable {as : Alternatives .dayOfWeek} {text : List Char} {items : List Item}

/-- Of a list of ranges, the days that pass are on the walk of one of them or are days onto which one strays, and
the latter do pass. Without steps they are exactly the days of the walks. -/
theorem walk_or_strays_of_passes (h : ofText .dayOfWeek text = .ok as) (hs : Item.ListSpelling items text)
    (hranges : ∀ item ∈ items, ∃ a b, item.base = .range a b) :
    (∀ v, as.passes v = true → ∃ item ∈ items, item.base.Walk v ∨ item.Strays v) ∧
    (∀ item ∈ items, ∀ v, item.Strays v → as.passes v = true) ∧
    ((∀ item ∈ items, item.step = none) → ∀ v, as.passes v = true ↔ ∃ item ∈ items, item.base.Walk v) := by
  have hallowed := ((ofText_eq_ok_iff hs).1 h).1
  refine ⟨?_, ?_, ?_⟩
  · intro v hpass
    obtain ⟨⟨base, step⟩, hitem, part, hpart, hhas⟩ := (passes_iff_has hs h).1 hpass
    obtain ⟨a, b, rfl⟩ := hranges _ hitem
    exact ⟨_, hitem, Item.walk_or_strays_of_has (hallowed _ hitem) hpart hhas⟩
  · intro item hitem v hstrays
    exact (passes_iff_has hs h).2 ⟨item, hitem, hstrays.exists_has⟩
  · intro hstep v
    rw [passes_iff_has hs h]
    apply exists_congr
    rintro ⟨base, step⟩
    apply and_congr_right
    intro hitem
    obtain ⟨a, b, rfl⟩ := hranges _ hitem
    obtain rfl := hstep _ hitem
    exact Item.exists_has_iff_walk (hallowed _ hitem)

/-- From Saturday to Monday and on to Wednesday, which leaves Thursday and Friday. -/
theorem walk_or_strays_of_passes_saturdayToMonday :
    ∃ as : Alternatives .dayOfWeek, ofText .dayOfWeek "Sat..Mon,2..3".toList = .ok as ∧
      ∀ v, as.passes v = true ↔ v ≤ 3 ∨ v = 6 := by
  let items : List Item := [⟨.range 6 1, none⟩, ⟨.range 2 3, none⟩]
  have hs : Item.ListSpelling items "Sat..Mon,2..3".toList := by
    refine ⟨by decide, ["Sat..Mon".toList, "2..3".toList], by decide, .cons ?_ (.cons ?_ .nil)⟩
    · refine ⟨"Sat".toList, "Mon".toList, by decide, ?_, ?_⟩
      · exact Item.readValue_eq_ok_iff.1 rfl
      · exact Item.readValue_eq_ok_iff.1 rfl
    · refine ⟨['2'], ['3'], by decide, ?_, ?_⟩
      · exact Item.readValue_eq_ok_iff.1 rfl
      · exact Item.readValue_eq_ok_iff.1 rfl
  have hranges : ∀ item ∈ items, ∃ a b, item.base = .range a b := by
    rw [List.forall_mem_cons, List.forall_mem_singleton]
    exact ⟨⟨6, 1, rfl⟩, ⟨2, 3, rfl⟩⟩
  obtain ⟨as, has⟩ := exists_ofText_of_allowed (f := .dayOfWeek) hs (by decide)
  obtain ⟨-, -, hwalks⟩ := walk_or_strays_of_passes has hs hranges
  refine ⟨as, has, fun v => ?_⟩
  simp only [hwalks (by decide) v, items, List.exists_mem_cons_iff, List.not_mem_nil, false_and, exists_false,
    or_false, Base.walk_range_iff (by decide : Field.dayOfWeek.Admits 6) (by decide : Field.dayOfWeek.Admits 1),
    Base.walk_range_iff (by decide : Field.dayOfWeek.Admits 2) (by decide : Field.dayOfWeek.Admits 3)]
  rw [if_neg (by decide), if_pos (by decide)]
  omega

/-- Every second day from Friday to Sunday has Sunday, and with it Tuesday. -/
theorem not_walk_of_passes_fridayToSunday :
    ∃ (as : Alternatives .dayOfWeek) (items : List Item),
      ofText .dayOfWeek "Fri..Sun/2".toList = .ok as ∧ Item.ListSpelling items "Fri..Sun/2".toList ∧
      (∀ item ∈ items, ∃ a b, item.base = .range a b) ∧
      ∃ v, as.passes v = true ∧ ¬∃ item ∈ items, item.base.Walk v := by
  have hs : Item.ListSpelling [⟨.range 5 0, some 2⟩] "Fri..Sun/2".toList := by
    refine ⟨by decide, ["Fri..Sun/2".toList], by decide, .cons ?_ .nil⟩
    refine ⟨"Fri..Sun".toList, ['2'], by decide, ⟨"Fri".toList, "Sun".toList, by decide, ?_, ?_⟩, ?_⟩
    · exact Item.readValue_eq_ok_iff.1 rfl
    · exact Item.readValue_eq_ok_iff.1 rfl
    · decide
  obtain ⟨as, has⟩ := exists_ofText_of_allowed (f := .dayOfWeek) hs (by decide)
  have hstrays : Item.Strays ⟨.range 5 0, some 2⟩ Weekday.tuesday.index := ⟨5, 2, rfl, by decide, by decide, 1, rfl⟩
  refine ⟨as, _, has, hs, ?_, Weekday.tuesday.index, ?_, ?_⟩
  · rw [List.forall_mem_singleton]
    exact ⟨5, 0, rfl⟩
  · exact (passes_iff_has hs has).2 ⟨_, List.mem_singleton_self _, hstrays.exists_has⟩
  · rintro ⟨item, hitem, hwalk⟩
    obtain rfl := List.mem_singleton.1 hitem
    have hdays := (Base.walk_range_iff (by decide) (by decide)).1 hwalk
    exact absurd hdays (by decide)

end Alternatives
end Almanac
