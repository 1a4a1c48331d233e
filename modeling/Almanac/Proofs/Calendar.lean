import Almanac.Date.Lemmas
import Mathlib.Order.Monotone.Basic
/-!
# Months in a row

Months are counted from January of year 0, on both sides of it, so that "the month after" and "the
January of the year after" need no case of their own.

- `Date.monthStart_succ`: a month begins when the one before it has had all its days.
- `Date.monthStart_le_iff`: the month of a day is the last one that has begun by then.
- `Date.ofDayNumber_add`: within a month, the date of a later day is a later day of the same month.
-/
namespace Almanac.Date

/-- Months from January of year 0 to the month of the date. -/
def monthIndex (d : Date) : Int := 12 * d.year + d.month - 1

/-- Day number of the first day of a month. -/
def monthStart (n : Int) : Int := (⟨n / 12, (n % 12).toNat + 1, 1⟩ : Date).dayNumber

/-- The days of a month are counted from its first one. -/
theorem dayNumber_eq_monthStart {d : Date} (h : d.Valid) :
    d.dayNumber = monthStart d.monthIndex + d.day - 1 := by
  obtain ⟨h1, h12, -, -⟩ := h
  have hy : d.monthIndex / 12 = d.year := by simp only [monthIndex]; omega
  have hm : (d.monthIndex % 12).toNat + 1 = d.month := by simp only [monthIndex]; omega
  simp only [monthStart, hy, hm, dayNumber]
  omega

/-- Only February asks for the year: it ends with the year that began in March. -/
theorem monthStart_succ (n : Int) :
    monthStart (n + 1) = monthStart n + daysInMonth (n / 12) ((n % 12).toNat + 1) := by
  have hfeb := daysToMarch_succ (n / 12 - 1)
  rw [Int.sub_add_cancel] at hfeb
  obtain ⟨k, hk⟩ : ∃ k : Nat, n % 12 = k := ⟨(n % 12).toNat, by omega⟩
  by_cases hdec : k = 11
  · have hy : (n + 1) / 12 = n / 12 + 1 := by omega
    have hm : (n + 1) % 12 = 0 := by omega
    subst hdec
    simp [monthStart, dayNumber, daysInMonth, daysToMonth, hy, hm, hk]
    omega
  · have hy : (n + 1) / 12 = n / 12 := by omega
    have hm : (n + 1) % 12 = (k + 1 : Nat) := by omega
    simp only [monthStart, hy, hm, hk, Int.toNat_natCast]
    by_cases hfebruary : k = 1
    -- the two March years meet at the end of February
    · subst hfebruary
      simp only [dayNumber, daysInMonth, daysToMonth]
      by_cases hl : isLeap (n / 12) = true <;> simp [hl] at hfeb ⊢ <;> omega
    · rcases (show k = 0 ∨ k = 2 ∨ k = 3 ∨ k = 4 ∨ k = 5 ∨ k = 6 ∨ k = 7 ∨ k = 8 ∨ k = 9 ∨ k = 10 by
        omega) with rfl | rfl | rfl | rfl | rfl | rfl | rfl | rfl | rfl | rfl <;>
        simp [dayNumber, daysInMonth, daysToMonth] <;> omega

theorem daysInMonth_pos (y : Int) (m : Nat) : 0 < daysInMonth y m := by
  unfold daysInMonth; repeat' split
  all_goals omega

/-- The month after the one of a date begins when that has had all its days. -/
theorem monthStart_monthIndex_succ {d : Date} (h : d.Valid) :
    monthStart (d.monthIndex + 1) = monthStart d.monthIndex + daysInMonth d.year d.month := by
  obtain ⟨h1, h12, -, -⟩ := h
  have hy : d.monthIndex / 12 = d.year := by simp only [monthIndex]; omega
  have hm : (d.monthIndex % 12).toNat + 1 = d.month := by simp only [monthIndex]; omega
  rw [monthStart_succ, hy, hm]

theorem monthStart_lt_monthStart_iff {m n : Int} : monthStart m < monthStart n ↔ m < n := by
  refine StrictMono.lt_iff_lt (strictMono_int_of_lt_succ fun n => ?_)
  have := daysInMonth_pos (n / 12) ((n % 12).toNat + 1)
  rw [monthStart_succ]
  omega

/-- A day belongs to a month when the month has begun and the next one has not. -/
theorem monthStart_bounds (N : Int) :
    monthStart (ofDayNumber N).monthIndex ≤ N ∧ N < monthStart ((ofDayNumber N).monthIndex + 1) := by
  have hv := valid_ofDayNumber N
  have hN := dayNumber_eq_monthStart hv
  rw [dayNumber_ofDayNumber] at hN
  rw [monthStart_monthIndex_succ hv]
  obtain ⟨-, -, hd1, hd⟩ := hv
  omega

theorem monthStart_le_iff {n N : Int} : monthStart n ≤ N ↔ n ≤ (ofDayNumber N).monthIndex := by
  obtain ⟨hl, hr⟩ := monthStart_bounds N
  constructor
  · intro h
    have := monthStart_lt_monthStart_iff.1 (Int.lt_of_le_of_lt h hr)
    omega
  · intro h
    refine Int.le_trans (Int.le_of_not_gt fun hlt => ?_) hl
    have := monthStart_lt_monthStart_iff.1 hlt
    omega

theorem yearStart_le_iff {y N : Int} : monthStart (12 * y) ≤ N ↔ y ≤ (ofDayNumber N).year := by
  obtain ⟨h1, h12, -, -⟩ := valid_ofDayNumber N
  rw [monthStart_le_iff, monthIndex]
  omega

/-! ## Later dates -/

theorem dayNumber_yearsLater (d : Date) (k : Nat) :
    (d.yearsLater k).dayNumber = monthStart (12 * (d.year + k)) := by
  have hy : 12 * (d.year + k) / 12 = d.year + k := by omega
  have hm : (12 * (d.year + k) % 12).toNat + 1 = 1 := by omega
  rw [monthStart, hy, hm, yearsLater]

theorem dayNumber_monthsLater {d : Date} (h : d.Valid) (k : Nat) :
    (d.monthsLater k).dayNumber = monthStart (d.monthIndex + k) := by
  have h1 := h.1
  have hy : (d.monthIndex + k) / 12 = d.year + ((d.month - 1 + k) / 12 : Nat) := by
    simp only [monthIndex]; omega
  have hm : ((d.monthIndex + k) % 12).toNat + 1 = (d.month - 1 + k) % 12 + 1 := by
    simp only [monthIndex]; omega
  rw [monthStart, hy, hm, monthsLater]

theorem ofDayNumber_add {N : Int} {k : Nat}
    (h : (ofDayNumber N).day + k ≤ daysInMonth (ofDayNumber N).year (ofDayNumber N).month) :
    ofDayNumber (N + k) = { ofDayNumber N with day := (ofDayNumber N).day + k } := by
  obtain ⟨h1, h12, hd1, -⟩ := valid_ofDayNumber N
  have hv : ({ ofDayNumber N with day := (ofDayNumber N).day + k } : Date).Valid :=
    ⟨h1, h12, by simp only; omega, h⟩
  have hN : N + k = ({ ofDayNumber N with day := (ofDayNumber N).day + k } : Date).dayNumber := by
    conv_lhs => rw [← dayNumber_ofDayNumber N]
    simp only [dayNumber]
    omega
  rw [hN, ofDayNumber_dayNumber hv]

end Almanac.Date
