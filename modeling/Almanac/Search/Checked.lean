import Almanac.Search
import Almanac.Zone.Checked
/-!
# The search up to the ends of time

The search of `Almanac.Search` as far as it can be carried out with instants and dates within time.
Where it goes beyond, the pass has an error of its own to give out, or the program ends: the one is
part of the answer, the other leaves none.

- `Condition.distanceChecked?`: the distance to the next value.
- `Schedule.searchChecked`: one pass.
- `Schedule.nextChecked`: up to a number of occurrences strictly after a reference.
-/
namespace Almanac

open Clock (OutOfTime checked)

/-! ## Distances -/

namespace Field

def valuesChecked (f : Field) (context : Option Moment) : Except OutOfTime (List Nat) :=
  match f, context with
  | .hour, some m => do
    if ← m.zone.changesOnDayChecked m.instant then
      m.zone.hoursOfDayChecked (m.zone.dayAt m.instant)
    else return f.values none
  | .minute, some m => do
    if ← m.zone.changesOnDayChecked m.instant then m.zone.minutesOfHourChecked m.instant
    else return f.values none
  | f, context => .ok (f.values context)

/-- The last of two equal hours is looked up for a repeated one. -/
def looksUpLast (f : Field) (context : Option Moment) : Except OutOfTime Bool :=
  match f, context with
  | .hour, some m => m.zone.isRepeatChecked m.instant
  | _, _ => .ok false

end Field

namespace Condition

variable {f : Field}

def distanceChecked? (c : Condition f) (current : Nat) (context : Option Moment) :
    Except OutOfTime (Option Nat) :=
  if f.Admits current then
    match c with
    | .wildcard => .ok (some 1)
    | .constrained base step .. => do
      let values ← f.valuesChecked context
      let last ← f.looksUpLast context
      let position? := if last then Field.lastPosition? values current else values.idxOf? current
      return position?.map fun here =>
        match base.target? step values current here with
        | some there => if here < there then there - here else values.length - here
        | none => values.length - here
  else .ok none

end Condition

/-! ## Moving on -/

namespace Zone

def startOfDayChecked? (z : Zone) (day : Int) : Except OutOfTime (Option Int) :=
  if day ≤ Clock.lastDay then do return some (← z.startOfDayChecked day) else .ok none

/-- The date of the candidate is read for every field. -/
def moveOnChecked? (z : Zone) (t : Int) (f : Field) (distance : Nat) :
    Except OutOfTime (Option Int) := do
  let l ← checked (z.toLocal t)
  match f with
  | .year => z.startOfDayChecked? ((Clock.date l).yearsLater distance).dayNumber
  | .month => z.startOfDayChecked? ((Clock.date l).monthsLater distance).dayNumber
  | .dayOfMonth | .dayOfWeek => z.startOfDayChecked? (Clock.dayNumber l + distance)
  | .hour => (Clock.within? (t + 3600 * distance)).mapM z.hourStartChecked
  | .minute => (Clock.within? (t + 60 * distance)).mapM z.minuteStartChecked
  | .second => return Clock.within? (t + distance)

end Zone

namespace Schedule

/-! ## One pass -/

def distanceChecked? (s : Schedule) (t : Int) (f : Field) : Except OutOfTime (Option Nat) := do
  let distances ← (s.conditions f).mapM fun c =>
    c.distanceChecked? (f.ofLocal (s.zone.toLocal t)) (some ⟨s.zone, t⟩)
  return (distances.filterMap id).min?

def searchCheckedFrom (s : Schedule) (limit : Nat) :
    Nat → Int → Except OutOfTime (Except ScheduleError (Option Int))
  | 0, _ => .ok (.error (.unsettled limit))
  | left + 1, t =>
    match s.mismatch? (s.zone.toLocal t) with
    | none => .ok (.ok (some t))
    | some f => do
      match ← s.distanceChecked? t f with
      | none => return .ok none
      | some distance =>
        match ← s.zone.moveOnChecked? t f distance with
        | none => return .error (.noMoreTime ⟨s.zone, t⟩ distance f)
        | some u => searchCheckedFrom s limit left u

/-- What `search` answers from `t` on, if the pass comes to its end. -/
def searchChecked (s : Schedule) (limit : Nat) (t : Int) :
    Except OutOfTime (Except ScheduleError (Option Int)) :=
  s.searchCheckedFrom limit limit t

/-! ## Many passes -/

def collectChecked (s : Schedule) : Nat → Int → Except OutOfTime (Except ScheduleError (List Int))
  | 0, _ => .ok (.ok [])
  | count + 1, t => do
    match ← s.searchChecked passLimit t with
    | .error e => return .error e
    | .ok none => return .ok []
    | .ok (some found) =>
      match s.candidateAfter (.ofSecond found) with
      | .error e => return .error e
      | .ok u => return (← collectChecked s count u).map (found :: ·)

/-- What `next` answers, if all passes come to their end. -/
def nextChecked (s : Schedule) (count : Nat) (reference : Timestamp) :
    Except OutOfTime (Except ScheduleError (List Int)) :=
  match s.candidateAfter reference with
  | .error e => .ok (.error e)
  | .ok t => s.collectChecked count t

end Schedule
end Almanac
