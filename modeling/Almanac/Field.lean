import Almanac.Moment
import Almanac.Weekday
import Almanac.Zone.Day
/-!
# Calendar fields

The seven fields of an expression, from the most significant to the least. Each takes the values of
an interval; at a given instant the calendar may leave some of them out (a short month, a skipped
hour) or repeat them (a fold).
-/
namespace Almanac

inductive Field where
  | year | month | dayOfMonth | dayOfWeek | hour | minute | second
deriving DecidableEq

namespace Field

/-- All fields, the most significant first. -/
def all : List Field := [.year, .month, .dayOfMonth, .dayOfWeek, .hour, .minute, .second]

def name : Field → String
  | .year => "year"
  | .month => "month"
  | .dayOfMonth => "day of month"
  | .dayOfWeek => "day of week"
  | .hour => "hour"
  | .minute => "minute"
  | .second => "second"

/-- Position in `all`. -/
def index : Field → Nat
  | .year => 0
  | .month => 1
  | .dayOfMonth => 2
  | .dayOfWeek => 3
  | .hour => 4
  | .minute => 5
  | .second => 6

/-! ## Values -/

def lowest : Field → Nat
  | .year => 1970
  | .month | .dayOfMonth => 1
  | .dayOfWeek | .hour | .minute | .second => 0

def highest : Field → Nat
  | .year => 2200
  | .month => 12
  | .dayOfMonth => 31
  | .dayOfWeek => 6
  | .hour => 23
  | .minute | .second => 59

/-- The value lies in the interval of the field. -/
def Admits (f : Field) (v : Nat) : Prop := f.lowest ≤ v ∧ v ≤ f.highest

instance (f : Field) (v : Nat) : Decidable (f.Admits v) := by unfold Admits; infer_instance

/-- First and last value of a field whose ranges may run past its end, as `Fri..Mon` does. -/
def cycle? (f : Field) : Option (Nat × Nat) :=
  if f = .dayOfWeek then some (f.lowest, f.highest) else none

/-- A year of two digits means 1970 to 2069; every other value means itself. -/
def expand (f : Field) (v : Nat) : Nat :=
  if f = .year then
    if v < 70 then v + 2000 else if v < 100 then v + 1900 else v
  else v

/-! ## On the calendar -/

/-- The largest number that a value can be. -/
def largest : Nat := 65535

/-- What a clock that shows `l` has in the field. A year that is no value reads as the largest
value, which only the wildcard lets pass. -/
def ofLocal (f : Field) (l : Int) : Nat :=
  match f with
  | .year =>
    let year := (Clock.date l).year
    if 0 ≤ year ∧ year ≤ largest then year.toNat else largest
  | .month => (Clock.date l).month
  | .dayOfMonth => (Clock.date l).day
  | .dayOfWeek => (Weekday.ofDayNumber (Clock.dayNumber l)).index
  | .hour => Clock.hour l
  | .minute => Clock.minute l
  | .second => Clock.second l

/-- From `a` to `b`, both included. -/
def interval (a b : Nat) : List Nat := List.range' a (b + 1 - a)

/-- The values that the calendar has around a moment, in chronological order: the days of its month,
the hours of its day, the minutes of its hour. -/
def calendarValues (f : Field) (m : Moment) : Option (List Nat) :=
  match f with
  | .dayOfMonth =>
    let date := Clock.date m.localTime
    some (interval 1 (Date.daysInMonth date.year date.month))
  | .hour => m.zone.shownHours? m.instant
  | .minute => m.zone.shownMinutes? m.instant
  | _ => none

/-- The values that the field runs through, in order: all of its interval, unless the calendar
around `context` has others. -/
def values (f : Field) (context : Option Moment) : List Nat :=
  (context.bind f.calendarValues).getD (interval f.lowest f.highest)

theorem mem_all (f : Field) : f ∈ all := by cases f <;> decide

end Field
end Almanac
