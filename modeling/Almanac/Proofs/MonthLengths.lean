import Almanac.Proofs.Steady
/-!
# The end of a month

How many days a month has is read off a table, with a rule for leap years beside it. Which date a refinement by days
leads to is left to day numbers, which count in years from March and know no such table. The two agree in every
year, also before year 0: a candidate that is moved on by no more days than the table has left stays in its month,
and one day more leads to the first day of the next month.

- `Date.nextMonth`: the first day of the next month.
- `Date.dayNumber_laterDay`, `Date.dayNumber_nextMonth`: the days up to it are those of the table.
- `Zone.Steady.moveOn?_dayOfMonth_of_date`: a refinement by days leads to the start of a date, unless that comes after
  the last year.
- `Zone.Steady.moveOn?_dayOfMonth_spec`: refinements within a month and out of it.
-/
namespace Almanac

/-! ## The next month -/

namespace Date

variable {d : Date} {k : Nat}

/-- The first day of the month after; December is followed by January of the next year. -/
def nextMonth (d : Date) : Date :=
  if d.month = 12 then ⟨d.year + 1, 1, 1⟩ else ⟨d.year, d.month + 1, 1⟩

theorem valid_nextMonth (h : d.Valid) : d.nextMonth.Valid := by
  obtain ⟨h1, h12, -, -⟩ := h
  unfold nextMonth
  split
  case isTrue => exact ⟨Nat.le_refl 1, (by decide : 1 ≤ 12), Nat.le_refl 1, daysInMonth_pos _ _⟩
  case isFalse => exact ⟨Nat.le_add_left 1 _, (by omega : d.month + 1 ≤ 12), Nat.le_refl 1, daysInMonth_pos _ _⟩

theorem dayNumber_nextMonth (h : d.Valid) (hk : d.day + k = daysInMonth d.year d.month + 1) :
    d.nextMonth.dayNumber = d.dayNumber + k := by
  have hday : d.nextMonth.day = 1 := by unfold nextMonth; split <;> rfl
  have hindex : d.nextMonth.monthIndex = d.monthIndex + 1 := by
    unfold nextMonth
    split <;> simp only [monthIndex] <;> omega
  rw [dayNumber_eq_monthStart (valid_nextMonth h), hday, hindex, monthStart_monthIndex_succ h,
    dayNumber_eq_monthStart h]
  omega

theorem dayNumber_laterDay (d : Date) (k : Nat) : { d with day := d.day + k }.dayNumber = d.dayNumber + k := by
  simp only [dayNumber]
  omega

theorem valid_laterDay (h : d.Valid) (hk : d.day + k ≤ daysInMonth d.year d.month) :
    ({ d with day := d.day + k } : Date).Valid := by
  obtain ⟨h1, h12, hd1, -⟩ := h
  exact ⟨h1, h12, Nat.le_add_right_of_le hd1, hk⟩

/-- The last date is the last one of its year. -/
theorem dayNumber_le_lastDay_iff (h : d.Valid) : d.dayNumber ≤ Clock.lastDay ↔ d.year ≤ 262142 := by
  have hlast : Clock.lastDay + 1 = monthStart (12 * 262143) := by decide
  have hyear := yearStart_le_iff (y := 262143) (N := d.dayNumber)
  rw [ofDayNumber_dayNumber h] at hyear
  omega

end Date

/-! ## Refinements by days -/

namespace Zone

variable {z : Zone} {t u : Int} {d : Nat} {date : Date}

/-- The clocks show 00:00:00 of the date. -/
def Begins (z : Zone) (date : Date) (u : Int) : Prop :=
  Clock.date (z.toLocal u) = date ∧ Clock.secondOfDay (z.toLocal u) = 0

theorem begins_of_midnight (h : date.Valid) (hu : z.toLocal u = Clock.midnight date.dayNumber) : z.Begins date u := by
  have hday : Clock.dayNumber (z.toLocal u) = date.dayNumber := by
    rw [hu]
    simp only [Clock.midnight, Clock.dayNumber]
    omega
  refine ⟨?_, ?_⟩
  · rw [Clock.date, hday, Date.ofDayNumber_dayNumber h]
  · rw [hu]
    simp only [Clock.midnight, Clock.secondOfDay]
    omega

/-- Wherever the day numbers say that a date comes, a refinement by so many days leads to its start, unless the date
comes after the last year. -/
theorem Steady.moveOn?_dayOfMonth_of_date (hz : z.Steady) (h : date.Valid)
    (hd : date.dayNumber = (Clock.date (z.toLocal t)).dayNumber + d) :
    (z.moveOn? t .dayOfMonth d = none ↔ 262142 < date.year) ∧
      ∀ u, z.moveOn? t .dayOfMonth d = some u → z.Begins date u := by
  have hday : z.dayAt t + d = date.dayNumber := by rw [hd, Clock.date, Date.dayNumber_ofDayNumber]; rfl
  have hmove : z.moveOn? t .dayOfMonth d = z.startOfDay? date.dayNumber := by rw [← hday]; rfl
  rw [hmove]
  constructor
  · have hlast := Date.dayNumber_le_lastDay_iff h
    simp only [startOfDay?, ite_eq_right_iff, reduceCtorEq, imp_false]
    omega
  · intro u hu
    obtain ⟨-, rfl⟩ := startOfDay?_eq_some_iff.1 hu
    exact begins_of_midnight h (hz.toLocal_toInstant _)

/-- Let `n` be the length of the month of a candidate, as the table has it. To move on by the days that are left leads
to those days of the month. To move on by one day more leads to the first day of the next month, unless there is no
time left. -/
theorem Steady.moveOn?_dayOfMonth_spec (hz : z.Steady) (ht : z.dayAt t ≤ Clock.lastDay) :
    let date := Clock.date (z.toLocal t)
    let n := (Field.dayOfMonth.values (some ⟨z, t⟩)).length
    date.day ≤ n ∧
      (∀ u, z.moveOn? t .dayOfMonth (n - date.day + 1) = some u → z.Begins date.nextMonth u) ∧
      (z.moveOn? t .dayOfMonth (n - date.day + 1) = none ↔ date.year = 262142 ∧ date.month = 12) ∧
      ∀ d, 1 ≤ d → d ≤ n - date.day →
        ∃ u, z.moveOn? t .dayOfMonth d = some u ∧ z.Begins { date with day := date.day + d } u := by
  intro date n
  have hv : date.Valid := Date.valid_ofDayNumber _
  have hn : n = Date.daysInMonth date.year date.month := Field.length_interval _ _
  have hday : date.day ≤ n := hn ▸ hv.2.2.2
  have hyear : date.year ≤ 262142 := by
    refine (Date.dayNumber_le_lastDay_iff hv).1 ?_
    rw [show date.dayNumber = z.dayAt t from Date.dayNumber_ofDayNumber _]
    exact ht
  obtain ⟨hnone, hnext⟩ := hz.moveOn?_dayOfMonth_of_date (Date.valid_nextMonth hv)
    (Date.dayNumber_nextMonth hv (by omega : date.day + (n - date.day + 1) = _))
  refine ⟨hday, hnext, hnone.trans ?_, fun d _ hd => ?_⟩
  · unfold Date.nextMonth
    split <;> simp only <;> omega
  · obtain ⟨hnone, hlater⟩ := hz.moveOn?_dayOfMonth_of_date (t := t)
      (Date.valid_laterDay hv (by omega : date.day + d ≤ _)) (Date.dayNumber_laterDay _ _)
    cases hm : z.moveOn? t .dayOfMonth d with
    | none => exact absurd (hnone.1 hm) (Int.not_lt.2 hyear)
    | some u => exact ⟨u, rfl, hlater u hm⟩

/-- The year 400 before year 0 is leap, though it begins a century. -/
theorem Steady.moveOn?_dayOfMonth_spec_leapCentury :
    gmtPlus14.Steady ∧ gmtPlus14.dayAt (-74784986995) ≤ Clock.lastDay ∧
      Clock.date (gmtPlus14.toLocal (-74784986995)) = ⟨-400, 2, 28⟩ ∧
      (∃ u, gmtPlus14.moveOn? (-74784986995) .dayOfMonth 1 = some u ∧ gmtPlus14.Begins ⟨-400, 2, 29⟩ u) ∧
      ∃ u, gmtPlus14.moveOn? (-74784986995) .dayOfMonth 2 = some u ∧ gmtPlus14.Begins ⟨-400, 3, 1⟩ u := by
  have hz : gmtPlus14.Steady := fun _ _ => rfl
  have ht : gmtPlus14.dayAt (-74784986995) ≤ Clock.lastDay := by decide +kernel
  have hdate : Clock.date (gmtPlus14.toLocal (-74784986995)) = ⟨-400, 2, 28⟩ := by decide +kernel
  have hn : (Field.dayOfMonth.values (some ⟨gmtPlus14, -74784986995⟩)).length = 29 := by decide +kernel
  have h := hz.moveOn?_dayOfMonth_spec ht
  simp only [hdate, hn] at h
  obtain ⟨-, hnext, hnone, hlater⟩ := h
  refine ⟨hz, ht, hdate, hlater 1 (by decide) (by decide), ?_⟩
  cases hm : gmtPlus14.moveOn? (-74784986995) .dayOfMonth 2 with
  | none => exact absurd (hnone.1 hm) (by decide)
  | some u => exact ⟨u, rfl, hnext u hm⟩

end Zone
end Almanac
