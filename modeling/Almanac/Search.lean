import Almanac.Condition.Distance
import Almanac.Schedule
/-!
# The search for occurrences

An occurrence of a schedule is an instant at which all seven fields pass. A search pass begins at a
candidate and refines it: the most significant field that does not pass is moved on by the distance
to its next value, and all finer fields start again from their lowest values. A pass takes a limited
number of refinements.

- `Schedule.search`: one pass.
- `Schedule.next`: up to a number of occurrences strictly after a reference.
- `Schedule.next?`: the first of them.
-/
namespace Almanac

/-! ## Moving on -/

namespace Zone

/-- The start of a day, unless the day comes after the last one. -/
def startOfDay? (z : Zone) (day : Int) : Option Int :=
  if day ≤ Clock.lastDay then some (z.startOfDay day) else none

/-- The candidate moved on by `distance` units of the field, with all finer fields at their lowest
values. Nothing if that lies past the end of time. The date that the candidate shows may lie past the
last one; `moveOnChecked?` reads it first. -/
def moveOn? (z : Zone) (t : Int) (f : Field) (distance : Nat) : Option Int :=
  match f with
  | .year => z.startOfDay? ((Clock.date (z.toLocal t)).yearsLater distance).dayNumber
  | .month => z.startOfDay? ((Clock.date (z.toLocal t)).monthsLater distance).dayNumber
  | .dayOfMonth | .dayOfWeek => z.startOfDay? (z.dayAt t + distance)
  | .hour => (Clock.within? (t + 3600 * distance)).map z.hourStart
  | .minute => (Clock.within? (t + 60 * distance)).map z.minuteStart
  | .second => Clock.within? (t + distance)

end Zone

namespace Schedule

/-! ## One pass -/

/-- The most significant field that does not pass on clocks that show `l`. -/
def mismatch? (s : Schedule) (l : Int) : Option Field :=
  Field.all.find? fun f => !s.passes f (f.ofLocal l)

/-- The shortest distance that a condition on the field has from its value at `t`. -/
def distance? (s : Schedule) (t : Int) (f : Field) : Option Nat :=
  ((s.conditions f).filterMap fun c =>
    c.distance? (f.ofLocal (s.zone.toLocal t)) (some ⟨s.zone, t⟩)).min?

def moveOn (s : Schedule) (t : Int) (f : Field) (distance : Nat) : Except ScheduleError Int :=
  match s.zone.moveOn? t f distance with
  | some u => .ok u
  | none => .error (.noMoreTime ⟨s.zone, t⟩ distance f)

/-- What a look at a candidate leads to. -/
inductive Verdict where
  | occurrence
  /-- No later value of the field passes. -/
  | impossible (f : Field)
  | refine (f : Field) (distance : Nat)

def verdict (s : Schedule) (t : Int) : Verdict :=
  match s.mismatch? (s.zone.toLocal t) with
  | none => .occurrence
  | some f =>
    match s.distance? t f with
    | none => .impossible f
    | some distance => .refine f distance

/-- Looks at candidates from `t` on as long as looks are left. -/
def searchFrom (s : Schedule) (limit : Nat) : Nat → Int → Except ScheduleError (Option Int)
  | 0, _ => .error (.unsettled limit)
  | left + 1, t =>
    match s.verdict t with
    | .occurrence => .ok (some t)
    | .impossible _ => .ok none
    | .refine f distance => do searchFrom s limit left (← s.moveOn t f distance)

/-- The first occurrence from `t` on, nothing if there is none any more, or an error if `limit`
looks do not settle it. -/
def search (s : Schedule) (limit : Nat) (t : Int) : Except ScheduleError (Option Int) :=
  s.searchFrom limit limit t

/-- How many looks a pass may take. -/
def passLimit : Nat := 4000

/-! ## Many passes -/

/-- The first whole second after the reference. -/
def candidateAfter (s : Schedule) (reference : Timestamp) : Except ScheduleError Int :=
  match Clock.within? (reference.second + 1) with
  | some t => .ok t
  | none => .error (.noSecondAfter s.zone reference)

/-- Up to `count` occurrences from `t` on. -/
def collect (s : Schedule) : Nat → Int → Except ScheduleError (List Int)
  | 0, _ => .ok []
  | count + 1, t => do
    match ← s.search passLimit t with
    | none => return []
    | some found => return found :: (← collect s count (← s.candidateAfter (.ofSecond found)))

/-- Up to `count` occurrences strictly after the reference, fewer when there are no more. -/
def next (s : Schedule) (count : Nat) (reference : Timestamp) :
    Except ScheduleError (List Int) := do
  s.collect count (← s.candidateAfter reference)

/-- The first occurrence strictly after the reference. -/
def next? (s : Schedule) (reference : Timestamp) : Except ScheduleError (Option Int) := do
  return (← s.next 1 reference).head?

end Schedule
end Almanac
