import Almanac.Zone.Day
/-!
# Days and hours up to the ends of time

A calendar that works with instants and dates can only name those within time. The functions of
`Zone` and `Zone.Day` count on past both ends of it; these are the same functions as far as they can
be carried out. Whatever is asked for beyond, be it only to be compared with, ends the program.

- `Zone.toInstantChecked`: the instant that a local time stands for.
- `Zone.changesOnDayChecked`: whether the offset changes on the day of an instant.
- `Zone.hoursOfDayChecked`, `Zone.minutesOfHourChecked`: the values of such a day and of its hours.
- `Zone.hourStartChecked`: the first instant of an hour.
-/
namespace Almanac.Zone

open Clock (OutOfTime checked)

/-! ## Local times -/

/-- An instant beyond the ends of time shows nothing, so that a local time which only such an instant
shows is looked for as in a gap. So is a repeated one whose second copy lies past the end; the offset of
the day before is that of the first copy, which it stands for all the same. -/
def toInstantChecked (z : Zone) (l : Int) : Except OutOfTime Int :=
  match (z.toInstant? l).filter fun t => decide (Clock.InTime t) with
  | some t => .ok t
  | none => do
    let dayBefore ← checked (l - 86400)
    checked (l - z.shift dayBefore)

def startOfDayChecked (z : Zone) (day : Int) : Except OutOfTime Int :=
  z.toInstantChecked (Clock.midnight day)

def isRepeatChecked (z : Zone) (t : Int) : Except OutOfTime Bool := do
  let first ← z.toInstantChecked (← checked (z.toLocal t))
  return first != t

def dayAtChecked (z : Zone) (t : Int) : Except OutOfTime Int := do
  return Clock.dayNumber (← checked (z.toLocal t))

/-! ## Days with a change -/

def changesOnDayChecked (z : Zone) (t : Int) : Except OutOfTime Bool := do
  let day ← z.dayAtChecked t
  if day < Clock.lastDay then
    let first ← z.startOfDayChecked day
    let last ← checked ((← z.startOfDayChecked (day + 1)) - 1)
    let before ← checked (first - 1)
    return z.shift before != z.shift first || z.shift first != z.shift last
  else return false

/-- Looks at every `step` seconds from `t` on and collects the values, up to the first look that has
none. -/
def valuesWhile (step : Int) (look : Int → Except OutOfTime (Option Nat)) :
    Nat → Int → Except OutOfTime (List Nat)
  | 0, _ => .ok []
  | n + 1, t => do
    match ← look t with
    | none => return []
    | some v => return v :: (← valuesWhile step look n (← checked (t + step)))

/-- The hour, if the day is that one. -/
def hourOnDayChecked (z : Zone) (day t : Int) : Except OutOfTime (Option Nat) := do
  return if (← z.dayAtChecked t) = day then some (Clock.hour (z.toLocal t)) else none

def hoursOfDayChecked (z : Zone) (day : Int) : Except OutOfTime (List Nat) := do
  valuesWhile 3600 (z.hourOnDayChecked day) 73 (← z.startOfDayChecked day)

/-! ## Hours with a change -/

def minuteStartChecked (z : Zone) (t : Int) : Except OutOfTime Int := checked (z.minuteStart t)

def backWithinHourChecked (z : Zone) (t : Int) : Nat → Int → Except OutOfTime Int
  | 0, u => .ok u
  | n + 1, u => do
    let before ← checked (u - 60)
    if z.sameHour t before then backWithinHourChecked z t n before else return u

def firstMinuteChecked (z : Zone) (t : Int) : Except OutOfTime Int := do
  z.backWithinHourChecked t 60 (← z.minuteStartChecked t)

/-- The minute of `u`, if it belongs to the hour of `t`. -/
def minuteInHour (z : Zone) (t u : Int) : Option Nat :=
  if z.sameHour t u then some (Clock.minute (z.toLocal u)) else none

def minutesOfHourChecked (z : Zone) (t : Int) : Except OutOfTime (List Nat) := do
  valuesWhile 60 (fun u => .ok (z.minuteInHour t u)) 60 (← z.firstMinuteChecked t)

def hourStartChecked (z : Zone) (t : Int) : Except OutOfTime Int := do
  let start ← z.minuteStartChecked t
  let full ← checked (start - 60 * Clock.minute (z.toLocal t))
  let l := z.toLocal full
  if Clock.hour l = Clock.hour (z.toLocal t) ∧ Clock.minute l = 0 then return full
  else z.backWithinHourChecked t 60 start

end Almanac.Zone
