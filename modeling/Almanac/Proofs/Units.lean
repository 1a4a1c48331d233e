import Almanac.Field
import Almanac.Proofs.Calendar
/-!
# Units of the fields

A field counts units of the local time: years, months, days, hours, minutes or seconds. The two
fields of a day count the same unit. Its value repeats with the next coarser unit, but the units
themselves only go up, so that "moved on by so many units" is addition.

- `Field.unitStart_le_iff`: a unit has begun at exactly the local times from its start on.
- `Field.ofLocal_of_unit`: as long as the values do not start again, each unit adds one to the value.
- `Field.ofLocal_congr`: the value depends on the unit alone.
- `Field.ofLocal_of_coarser`: until the values start again, the coarser fields keep theirs.
-/
namespace Almanac

/-! ## The time of day -/

namespace Clock

theorem hour_eq (l : Int) : hour l = (l / 3600 % 24).toNat := by
  simp only [hour, secondOfDay]; omega

theorem hour_le (l : Int) : hour l ≤ 23 := by
  rw [hour_eq]
  omega

theorem minute_eq (l : Int) : minute l = (l / 60 % 60).toNat := by
  simp only [minute, secondOfDay]; omega

theorem second_eq (l : Int) : second l = (l % 60).toNat := by
  simp only [second, secondOfDay]; omega

end Clock

namespace Field

/-- The number of the unit that a local time lies in. -/
def unit (f : Field) (l : Int) : Int :=
  match f with
  | .year => (Clock.date l).year
  | .month => (Clock.date l).monthIndex
  | .dayOfMonth | .dayOfWeek => Clock.dayNumber l
  | .hour => l / 3600
  | .minute => l / 60
  | .second => l

/-- The first local time of a unit. -/
def unitStart (f : Field) (n : Int) : Int :=
  match f with
  | .year => Clock.midnight (Date.monthStart (12 * n))
  | .month => Clock.midnight (Date.monthStart n)
  | .dayOfMonth | .dayOfWeek => Clock.midnight n
  | .hour => 3600 * n
  | .minute => 60 * n
  | .second => n

theorem midnight_le_iff {day l : Int} : Clock.midnight day ≤ l ↔ day ≤ Clock.dayNumber l := by
  simp only [Clock.midnight, Clock.dayNumber]; omega

theorem unitStart_le_iff {f : Field} {n l : Int} : f.unitStart n ≤ l ↔ n ≤ f.unit l := by
  cases f
  case year => exact midnight_le_iff.trans Date.yearStart_le_iff
  case month => exact midnight_le_iff.trans Date.monthStart_le_iff
  case dayOfMonth => exact midnight_le_iff
  case dayOfWeek => exact midnight_le_iff
  case second => exact Iff.rfl
  all_goals simp only [unitStart, unit]; omega

theorem unit_mono (f : Field) {l l' : Int} (h : l ≤ l') : f.unit l ≤ f.unit l' :=
  unitStart_le_iff.1 (Int.le_trans (unitStart_le_iff.2 (Int.le_refl _)) h)

/-- The start of a unit lies in it. -/
theorem unit_unitStart (f : Field) (n : Int) : f.unit (f.unitStart n) = n := by
  refine Int.le_antisymm (Int.le_of_not_gt fun hlt => ?_) (unitStart_le_iff.1 (Int.le_refl _))
  have h : f.unitStart (n + 1) ≤ f.unitStart n := unitStart_le_iff.2 hlt
  cases f
  case year =>
    have := Date.monthStart_lt_monthStart_iff.2 (show 12 * n < 12 * (n + 1) by omega)
    simp only [unitStart, Clock.midnight] at h
    omega
  case month =>
    have := Date.monthStart_lt_monthStart_iff.2 (show n < n + 1 by omega)
    simp only [unitStart, Clock.midnight] at h
    omega
  all_goals
    simp only [unitStart, Clock.midnight] at h
    omega

/-- Months do not go back when years go forward. -/
theorem year_unit_mono {l l' : Int} (h : month.unit l' ≤ month.unit l) : year.unit l' ≤ year.unit l := by
  have hv := Date.valid_ofDayNumber (Clock.dayNumber l)
  have hv' := Date.valid_ofDayNumber (Clock.dayNumber l')
  simp only [unit, Date.monthIndex, Clock.date, Date.Valid] at *
  omega

/-! ## Values -/

/-- The last value before the field starts again, on a day whose clocks are not changed. -/
def lastValue (f : Field) (l : Int) : Nat :=
  match f with
  | .dayOfMonth => Date.daysInMonth (Clock.date l).year (Clock.date l).month
  | _ => f.highest

theorem lastValue_le (f : Field) (l : Int) : f.lastValue l ≤ f.highest := by
  cases f
  case dayOfMonth => exact Date.daysInMonth_le _ _
  all_goals exact Nat.le_refl _

/-- Only a year can lie outside the interval of its field. -/
theorem ofLocal_bounds {f : Field} (h : f ≠ .year) (l : Int) :
    f.lowest ≤ f.ofLocal l ∧ f.ofLocal l ≤ f.lastValue l := by
  obtain ⟨hm1, hm12, hd1, hd⟩ := Date.valid_ofDayNumber (Clock.dayNumber l)
  cases f
  case year => exact absurd rfl h
  case month => exact ⟨hm1, hm12⟩
  case dayOfMonth => exact ⟨hd1, hd⟩
  case dayOfWeek =>
    have := (Weekday.ofDayNumber (Clock.dayNumber l)).index_lt
    exact ⟨Nat.zero_le _, Nat.le_of_lt_succ this⟩
  all_goals
    simp only [lowest, lastValue, highest, ofLocal, Clock.hour_eq, Clock.minute_eq, Clock.second_eq]
    omega

theorem admits_ofLocal {f : Field} (h : f ≠ .year) (l : Int) : f.Admits (f.ofLocal l) :=
  ⟨(ofLocal_bounds h l).1, Nat.le_trans (ofLocal_bounds h l).2 (f.lastValue_le l)⟩

/-- A year that is a value of the field is read without being cut down. -/
theorem ofLocal_year_of_admits {l : Int} (h : Field.year.Admits (Field.year.ofLocal l)) :
    (Clock.date l).year = Field.year.ofLocal l := by
  have hlargest : largest = 65535 := rfl
  simp only [Admits, lowest, highest, ofLocal] at h ⊢
  by_cases hy : 0 ≤ (Clock.date l).year ∧ (Clock.date l).year ≤ largest
  · rw [if_pos hy]; omega
  · rw [if_neg hy] at h; omega

/-- A year inside the interval of values is read as it is. -/
theorem ofLocal_year {l : Int} {y : Nat} (h : (Clock.date l).year = y) (hy : y ≤ largest) :
    Field.year.ofLocal l = y := by
  simp only [ofLocal, h]
  rw [if_pos (by omega)]
  omega

theorem index_ofDayNumber (n : Int) : (Weekday.ofDayNumber n).index = ((n + 4) % 7).toNat := by
  obtain ⟨k, hk⟩ : ∃ k : Nat, (n + 4) % 7 = k := ⟨((n + 4) % 7).toNat, by omega⟩
  rw [Weekday.ofDayNumber, hk]
  rcases (show k = 0 ∨ k = 1 ∨ k = 2 ∨ k = 3 ∨ k = 4 ∨ k = 5 ∨ k = 6 by omega) with
    rfl | rfl | rfl | rfl | rfl | rfl | rfl <;> rfl

/-- A field that does not start again in between goes up with its units. -/
theorem ofLocal_of_unit {f : Field} {l l' : Int} {k : Nat} (hadm : f.Admits (f.ofLocal l))
    (hunit : f.unit l' = f.unit l + k) (hk : f.ofLocal l + k ≤ f.lastValue l) :
    f.ofLocal l' = f.ofLocal l + k := by
  cases f
  case year =>
    have hl := ofLocal_year_of_admits hadm
    simp only [unit, hl] at hunit
    simp only [lastValue, highest] at hk
    exact ofLocal_year (by rw [hunit]; push_cast; rfl) (by simp only [largest]; omega)
  case month =>
    have hv := Date.valid_ofDayNumber (Clock.dayNumber l)
    have hv' := Date.valid_ofDayNumber (Clock.dayNumber l')
    simp only [unit, Date.monthIndex, Clock.date, ofLocal, lastValue, highest, Date.Valid] at *
    omega
  case dayOfMonth =>
    simp only [unit] at hunit
    simp only [ofLocal, lastValue, Clock.date] at hk ⊢
    rw [hunit, Date.ofDayNumber_add hk]
  case dayOfWeek =>
    simp only [unit] at hunit
    simp only [ofLocal, lastValue, highest, index_ofDayNumber, hunit] at hk ⊢
    omega
  all_goals
    simp only [unit, ofLocal, lastValue, highest, Clock.hour_eq, Clock.minute_eq, Clock.second_eq] at *
    omega

theorem ofLocal_congr {f : Field} {l l' : Int} (h : f.unit l' = f.unit l) :
    f.ofLocal l' = f.ofLocal l := by
  cases f
  case year => simp only [unit] at h; simp only [ofLocal, h]
  case month =>
    have hv := Date.valid_ofDayNumber (Clock.dayNumber l)
    have hv' := Date.valid_ofDayNumber (Clock.dayNumber l')
    simp only [unit, Date.monthIndex, Clock.date, ofLocal, Date.Valid] at *
    omega
  case dayOfMonth => simp only [unit] at h; simp only [ofLocal, Clock.date, h]
  case dayOfWeek => simp only [unit] at h; simp only [ofLocal, h]
  all_goals
    simp only [unit, ofLocal, Clock.hour_eq, Clock.minute_eq, Clock.second_eq] at *
    omega

/-- Local times of one day agree in every field of the date. -/
theorem ofLocal_of_dayNumber {f : Field} (hf : f.index < Field.hour.index) {l l' : Int}
    (h : Clock.dayNumber l' = Clock.dayNumber l) : f.ofLocal l' = f.ofLocal l := by
  have hd : Clock.date l' = Clock.date l := by rw [Clock.date, h, Clock.date]
  cases f <;> simp [index] at hf <;> simp only [ofLocal, hd, h]

/-- Local times of one minute agree in every field but the second. -/
theorem ofLocal_of_minute {f : Field} (hf : f.index < Field.second.index) {l l' : Int} (h : l' / 60 = l / 60) :
    f.ofLocal l' = f.ofLocal l := by
  cases f with
  | second => exact absurd hf (by decide)
  | hour => exact ofLocal_congr (by simp only [unit]; omega)
  | minute => exact ofLocal_congr h
  | _ => exact ofLocal_of_dayNumber (by decide) (by simp only [Clock.dayNumber]; omega)

/-! ## Coarser and finer fields -/

/-- A unit of a field lies in one unit of every coarser field. -/
theorem unit_eq_of_finer {f g : Field} (hg : g.index ≤ f.index) {l l' : Int} (h : f.unit l' = f.unit l) :
    g.unit l' = g.unit l := by
  have hv := Date.valid_ofDayNumber (Clock.dayNumber l)
  have hv' := Date.valid_ofDayNumber (Clock.dayNumber l')
  by_cases hf : f.index < dayOfMonth.index
  · cases f <;> cases g <;> simp [index] at hf hg <;>
      simp only [unit, Date.monthIndex, Clock.date, Date.Valid] at * <;> omega
  · have hday : Clock.dayNumber l' = Clock.dayNumber l := by
      cases f <;> simp [index] at hf <;> simp only [unit, Clock.dayNumber] at h ⊢ <;> omega
    cases g with
    | year | month | dayOfMonth | dayOfWeek => simp only [unit, Clock.date, hday]
    | _ => cases f <;> simp [index] at hg <;> simp only [unit] at h ⊢ <;> omega

theorem ofLocal_of_finer {f g : Field} (hg : g.index ≤ f.index) {l l' : Int} (h : f.unit l' = f.unit l) :
    g.ofLocal l' = g.ofLocal l := ofLocal_congr (unit_eq_of_finer hg h)

/-- As long as the values of a field do not start again, coarser fields keep theirs. -/
theorem ofLocal_of_coarser {f g : Field} (hf : f ≠ .dayOfWeek) (hg : g.index < f.index) {l l' : Int} {k : Nat}
    (hunit : f.unit l' = f.unit l + k) (hk : f.ofLocal l + k ≤ f.lastValue l) : g.ofLocal l' = g.ofLocal l := by
  have hv := Date.valid_ofDayNumber (Clock.dayNumber l)
  have hv' := Date.valid_ofDayNumber (Clock.dayNumber l')
  cases f with
  | year => exact absurd hg (Nat.not_lt_zero _)
  | month =>
    refine ofLocal_of_finer (f := .year) (Nat.le_of_lt_succ hg) ?_
    simp only [unit, Date.monthIndex, Clock.date, ofLocal, lastValue, highest, Date.Valid] at *
    omega
  | dayOfMonth =>
    refine ofLocal_of_finer (f := .month) (Nat.le_of_lt_succ hg) ?_
    simp only [unit] at hunit
    simp only [ofLocal, lastValue, Clock.date] at hk
    rw [unit, unit, Clock.date, Clock.date, hunit, Date.ofDayNumber_add hk]
    rfl
  | dayOfWeek => exact absurd rfl hf
  | hour =>
    refine ofLocal_of_finer (f := .dayOfWeek) (Nat.le_of_lt_succ hg) ?_
    simp only [unit, Clock.dayNumber, ofLocal, lastValue, highest, Clock.hour_eq] at *
    omega
  | minute =>
    refine ofLocal_of_finer (f := .hour) (Nat.le_of_lt_succ hg) ?_
    simp only [unit, ofLocal, lastValue, highest, Clock.minute_eq] at *
    omega
  | second =>
    refine ofLocal_of_finer (f := .minute) (Nat.le_of_lt_succ hg) ?_
    simp only [unit, ofLocal, lastValue, highest, Clock.second_eq] at *
    omega

/-- Fields of the time depend on the time of the day alone. -/
theorem ofLocal_of_time {f : Field} (hf : hour.index ≤ f.index) {l l' : Int} (h : l' % 86400 = l % 86400) :
    f.ofLocal l' = f.ofLocal l := by
  cases f <;> simp [index] at hf <;>
    simp only [ofLocal, Clock.hour_eq, Clock.minute_eq, Clock.second_eq] <;> omega

end Field
end Almanac
