import Almanac.Zone
/-!
# Days and hours on which the clocks change

A transition can take hours out of a local day or give it some twice, and can cut an hour short.
These are the hours of the day and the minutes of the hour around an instant, in chronological
order.

- `Zone.shownHours?`: the hours shown at the start of the day and every hour after it.
- `Zone.shownMinutes?`: the minutes of the stretch around an instant with one hour and one offset.
- `Zone.hourStart`: the first instant of such a stretch.
-/
namespace Almanac.Zone

/-- Day number of the local date. -/
def dayAt (z : Zone) (t : Int) : Int := Clock.dayNumber (z.toLocal t)

/-- The offset differs between the second before the local day, its first second and its last one.
The last date has no day after it and counts as unchanged. The first date has a second before it here,
but not in `changesOnDayChecked`. -/
def changesOnDay (z : Zone) (t : Int) : Bool :=
  let day := z.dayAt t
  if day < Clock.lastDay then
    let first := z.startOfDay day
    let last := z.startOfDay (day + 1) - 1
    z.shift (first - 1) != z.shift first || z.shift first != z.shift last
  else false

/-! ## Hours -/

/-- The hours shown every 3600 seconds from the start of a day on, while that day lasts. Offsets are
less than a day, so a local date is over within 72 hours. -/
def hoursOfDay (z : Zone) (day : Int) : List Nat :=
  let start := z.startOfDay day
  let samples := (List.range 73).map fun (i : Nat) => z.toLocal (start + 3600 * i)
  (samples.takeWhile fun l => Clock.dayNumber l == day).map Clock.hour

/-- The hours of the local day of `t`, if the offset changes on it. -/
def shownHours? (z : Zone) (t : Int) : Option (List Nat) :=
  if z.changesOnDay t then some (z.hoursOfDay (z.dayAt t)) else none

/-! ## Minutes -/

/-- The start of the minute of `t`. There is no fraction of a second to be taken off besides: a search
begins at a whole second and goes on by whole seconds, and any other instant has the minute of its
second. -/
def minuteStart (z : Zone) (t : Int) : Int := t - Clock.second (z.toLocal t)

/-- `u` shows the same hour as `t`, and with the same offset. -/
def sameHour (z : Zone) (t u : Int) : Bool :=
  Clock.hour (z.toLocal u) == Clock.hour (z.toLocal t) && z.shift u == z.shift t

/-- Goes back from `u` by whole minutes while the minute before belongs to the hour of `t`. -/
def backWithinHour (z : Zone) (t : Int) : Nat → Int → Int
  | 0, u => u
  | n + 1, u => if z.sameHour t (u - 60) then backWithinHour z t n (u - 60) else u

/-- The first minute of the hour of `t` that is reached from `t` with no change of offset. An hour
has 60 minutes, so the walk ends by itself. -/
def firstMinute (z : Zone) (t : Int) : Int := z.backWithinHour t 60 (z.minuteStart t)

/-- The minutes of the hour of `t` that are shown with the offset of `t`. -/
def minutesOfHour (z : Zone) (t : Int) : List Nat :=
  let start := z.firstMinute t
  let samples := (List.range 60).map fun (i : Nat) => start + 60 * i
  (samples.takeWhile (z.sameHour t)).map fun u => Clock.minute (z.toLocal u)

/-- The minutes of the hour of `t`, if the offset changes on that day. -/
def shownMinutes? (z : Zone) (t : Int) : Option (List Nat) :=
  if z.changesOnDay t then some (z.minutesOfHour t) else none

/-- The first instant of the hour of `t`. Where the full hour is not shown, the hour begins at a
transition and is found by walking back. -/
def hourStart (z : Zone) (t : Int) : Int :=
  let full := z.minuteStart t - 60 * Clock.minute (z.toLocal t)
  let l := z.toLocal full
  if Clock.hour l = Clock.hour (z.toLocal t) ∧ Clock.minute l = 0 then full else z.firstMinute t

end Almanac.Zone
