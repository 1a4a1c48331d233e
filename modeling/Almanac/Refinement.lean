import Almanac.Search
/-!
# Searches that keep a log

The same search as `Schedule.next`, which also returns every refinement that it made, for an account
of why an occurrence was found where it was.
-/
namespace Almanac

/-- One refinement of a candidate. -/
structure Refinement where
  /-- Counts from 1 in each pass. -/
  iteration : Nat
  /-- The candidate after the step. -/
  candidate : Moment
  /-- The field that did not pass. -/
  field : Field
  /-- Units of the field, nothing if no later value passes. -/
  distance : Option Nat
deriving DecidableEq

namespace Refinement

def text (step : Refinement) : String :=
  Numeral.aligned ' ' 4 step.iteration ++ " " ++ step.candidate.text ++ " " ++
    step.field.name ++ " " ++
    match step.distance with
    | some d => "+" ++ Numeral.digits d
    | none => "impossible"

end Refinement

namespace Schedule

/-- A pass and its steps, the first of which has number `iteration`. -/
def searchLoggedFrom (s : Schedule) (limit : Nat) :
    Nat → Nat → Int → Except ScheduleError (Option Int × List Refinement)
  | 0, _, _ => .error (.unsettled limit)
  | left + 1, iteration, t =>
    match s.verdict t with
    | .occurrence => .ok (some t, [])
    | .impossible f => .ok (none, [⟨iteration, ⟨s.zone, t⟩, f, none⟩])
    | .refine f distance => do
      let u ← s.moveOn t f distance
      let (found, steps) ← searchLoggedFrom s limit left (iteration + 1) u
      return (found, ⟨iteration, ⟨s.zone, u⟩, f, some distance⟩ :: steps)

/-- Up to `count` occurrences from `t` on, and the steps of all passes. -/
def collectLogged (s : Schedule) : Nat → Int → Except ScheduleError (List Int × List Refinement)
  | 0, _ => .ok ([], [])
  | count + 1, t => do
    match ← s.searchLoggedFrom passLimit passLimit 1 t with
    | (none, steps) => return ([], steps)
    | (some found, steps) =>
      let (more, moreSteps) ← collectLogged s count (← s.candidateAfter (.ofSecond found))
      return (found :: more, steps ++ moreSteps)

/-- Up to `count` occurrences strictly after the reference, and every step taken to find them. -/
def nextLogged (s : Schedule) (count : Nat) (reference : Timestamp) :
    Except ScheduleError (List Int × List Refinement) := do
  s.collectLogged count (← s.candidateAfter reference)

end Schedule
end Almanac
