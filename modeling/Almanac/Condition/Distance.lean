import Almanac.Condition
/-!
# How far the next value is

A search that stands on a value of a field moves on by as many units of the field as lie before the
next value that a condition may let pass. The units are counted along the values that the calendar
has around the candidate. When the next value is not ahead of the current one, the distance leads
to the end of these values, and the more significant fields have to be looked at again.

- `Condition.distance?`: the distance, nothing from a value that the calendar does not have.
-/
namespace Almanac

namespace Base

/-- Position of the value to go to from `current`, which is at `here`. A range goes on to its next
value or back to its start; a step goes on to its next value, and from the last one of a range back
to the start. -/
def target? (base : Base) (step : Option Nat) (values : List Nat) (current here : Nat) :
    Option Nat :=
  match base, step with
  | .value v, none => values.idxOf? v
  | .range a b, none =>
    if between a b current && values[here + 1]?.any (between a b) then some (here + 1)
    else values.idxOf? a
  | .value v, some k =>
    ((base.progression (values.max?.getD v) k).after? current).bind values.idxOf?
  | .range a b, some k => values.idxOf? (((base.progression b k).after? current).getD a)

end Base

namespace Field

/-- Position of the last `v` in a list. -/
def lastPosition? (values : List Nat) (v : Nat) : Option Nat :=
  (values.reverse.idxOf? v).map (values.length - 1 - ·)

/-- Position of the current value. Of two equal hours a repeated one is the later. -/
def position? (f : Field) (context : Option Moment) (current : Nat) : Option Nat :=
  if f = .hour ∧ context.any (fun m => m.zone.isRepeat m.instant) then
    lastPosition? (f.values context) current
  else (f.values context).idxOf? current

end Field

namespace Condition

variable {f : Field}

/-- Units of the field from `current` to the next value that may pass, or to the end of the values
that the calendar has around `context`. -/
def distance? (c : Condition f) (current : Nat) (context : Option Moment) : Option Nat :=
  if f.Admits current then
    match c with
    | .wildcard => some 1
    | .constrained base step .. =>
      let values := f.values context
      (f.position? context current).map fun here =>
        match base.target? step values current here with
        | some there => if here < there then there - here else values.length - here
        | none => values.length - here
  else none

end Condition
end Almanac
