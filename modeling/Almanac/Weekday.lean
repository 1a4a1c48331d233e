/-!
# Days of the week

The week begins on Sunday, which has index 0. A name may be cut down to three letters or more and
is read in any letter case.
-/
namespace Almanac

inductive Weekday where
  | sunday | monday | tuesday | wednesday | thursday | friday | saturday
deriving DecidableEq

namespace Weekday

def all : List Weekday :=
  [.sunday, .monday, .tuesday, .wednesday, .thursday, .friday, .saturday]

def index : Weekday → Nat
  | .sunday => 0
  | .monday => 1
  | .tuesday => 2
  | .wednesday => 3
  | .thursday => 4
  | .friday => 5
  | .saturday => 6

/-- The weekday of an index; 7 is Sunday again. -/
def ofIndex (n : Nat) : Weekday :=
  match n % 7 with
  | 0 => .sunday
  | 1 => .monday
  | 2 => .tuesday
  | 3 => .wednesday
  | 4 => .thursday
  | 5 => .friday
  | _ => .saturday

/-- The weekday of a day number; day 0 was a Thursday. -/
def ofDayNumber (n : Int) : Weekday := ofIndex ((n + 4) % 7).toNat

def name : Weekday → String
  | .sunday => "sunday"
  | .monday => "monday"
  | .tuesday => "tuesday"
  | .wednesday => "wednesday"
  | .thursday => "thursday"
  | .friday => "friday"
  | .saturday => "saturday"

def abbreviation : Weekday → String
  | .sunday => "Sun"
  | .monday => "Mon"
  | .tuesday => "Tue"
  | .wednesday => "Wed"
  | .thursday => "Thu"
  | .friday => "Fri"
  | .saturday => "Sat"

/-- The weekday whose name begins with the word, of which three letters are needed. -/
def read? (word : List Char) : Option Weekday :=
  if 3 ≤ word.length ∧ word.all Char.isAlpha then
    all.find? fun w => (word.map Char.toLower).isPrefixOf w.name.toList
  else none

theorem index_ofIndex {n : Nat} (h : n < 7) : (ofIndex n).index = n :=
  (by decide : ∀ n < 7, (ofIndex n).index = n) n h

theorem index_lt (w : Weekday) : w.index < 7 := by cases w <;> decide

end Weekday
end Almanac
