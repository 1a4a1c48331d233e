import Almanac.Clock
/-!
# Time zones

A zone is the offset that its clocks began with and the transitions at which the offset changed,
in chronological order. Between two transitions the local time runs with the instant; at a
transition it jumps, so a local time may be shown never (a gap), once or twice (a fold).

- `Zone.offsetAt`: the offset in force at an instant.
- `Zone.toInstant`: the instant that a local time stands for, the earliest in a fold and the time
  shifted by the length of the gap in a gap.
-/
namespace Almanac

/-- Seconds east of UTC, less than a day either way, and what the clocks call it. -/
structure Offset where
  seconds : Int
  abbreviation : String
  bounded : -86400 < seconds ∧ seconds < 86400
deriving DecidableEq

/-- The offset of so many seconds; one of a day or more is cut down to a second less than a day. -/
def Offset.ofSeconds (seconds : Int) (abbreviation : String) : Offset :=
  ⟨max (-86399) (min seconds 86399), abbreviation, by omega⟩

/-- From `instant` on the clocks run with `offset`. -/
structure Transition where
  instant : Int
  offset : Offset
deriving DecidableEq

/-- No transition comes before one that precedes it in the list. -/
def Chronological (ts : List Transition) : Prop :=
  ts.Pairwise (·.instant ≤ ·.instant)

structure Zone where
  name : String
  /-- In force before the first transition. -/
  initial : Offset
  transitions : List Transition
  chronological : Chronological transitions
deriving DecidableEq

/-- A zone whose clocks were never changed. -/
def Zone.fixed (name : String) (offset : Offset) : Zone := ⟨name, offset, [], .nil⟩

/-! ## From an instant to the local time -/

namespace Zone

/-- The offset of the last transition at or before `t`, and `start` when there is none. -/
def offsetAfter (start : Offset) : List Transition → Int → Offset
  | [], _ => start
  | c :: cs, t => if c.instant ≤ t then offsetAfter c.offset cs t else start

def offsetAt (z : Zone) (t : Int) : Offset := offsetAfter z.initial z.transitions t

/-- Seconds east of UTC at an instant. -/
def shift (z : Zone) (t : Int) : Int := (z.offsetAt t).seconds

def toLocal (z : Zone) (t : Int) : Int := t + z.shift t

/-! ## From a local time to the instant -/

/-- The earliest instant that shows `l`. The stretch that runs with `start` ends at the first
transition; `begun` tells whether it begins early enough to show `l`. -/
def earliestShowing (start : Offset) (begun : Bool) : List Transition → Int → Option Int
  | [], l => if begun then some (l - start.seconds) else none
  | c :: cs, l =>
    if begun ∧ l - start.seconds < c.instant then some (l - start.seconds)
    else earliestShowing c.offset (c.instant ≤ l - c.offset.seconds) cs l

/-- The earliest instant that shows `l`, if one does. -/
def toInstant? (z : Zone) (l : Int) : Option Int :=
  earliestShowing z.initial true z.transitions l

/-- The earliest instant that shows `l`. A local time in a gap is read with the offset of the day
before, which moves it past the gap by the gap's length. The instant may lie beyond the ends of time;
`toInstantChecked` stays within. -/
def toInstant (z : Zone) (l : Int) : Int :=
  (z.toInstant? l).getD (l - z.shift (l - 86400))

/-- The instant that 00:00:00 of a day stands for. -/
def startOfDay (z : Zone) (day : Int) : Int := z.toInstant (Clock.midnight day)

/-- The local time of `t` has been shown before `t`. -/
def isRepeat (z : Zone) (t : Int) : Bool := z.toInstant (z.toLocal t) != t

end Zone
end Almanac
