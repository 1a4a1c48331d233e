import Almanac.Schedule
/-!
# Sample schedules

The schedules that the theory is tried on: ordinary ones, and those that meet a change of the clocks or the
end of time.

- `Alternatives.only`: exactly one value passes.
-/
namespace Almanac

/-- Exactly the one value passes. -/
def Alternatives.only {f : Field} (v : Nat) (h : f.Admits v := by decide) : Alternatives f :=
  ⟨[.constrained (.value v) none h f.admitsStep_none], List.cons_ne_nil _ _⟩

namespace Schedule

/-! ## In universal time -/

/-- Midnight of every Friday the 13th, up to the last year that can be asked for. -/
def fridayThe13th : Schedule where
  alternatives
    | .year => ⟨[.constrained (.range 1970 2200) none (by decide) (by decide)], by simp⟩
    | .month => .any .month
    | .dayOfMonth => ⟨[.constrained (.value 13) none (by decide) (by decide)], by simp⟩
    | .dayOfWeek => ⟨[.constrained (.value 5) none (by decide) (by decide)], by simp⟩
    | f => ⟨[.constrained (.value f.lowest) none (by cases f <;> decide) f.admitsStep_none], by simp⟩
  zone := .utc

/-- The first midnight of 2024. -/
def newYear2024 : Schedule where
  alternatives
    | .year => ⟨[.constrained (.value 2024) none (by decide) (by decide)], by simp⟩
    | .dayOfWeek => .any .dayOfWeek
    | f => ⟨[.constrained (.value f.lowest) none (by cases f <;> decide) f.admitsStep_none], by simp⟩
  zone := .utc

/-- Every second of universal time. -/
def everySecond : Schedule where
  alternatives := Alternatives.any
  zone := .utc

/-! ## Around a change of the clocks -/

/-- 02:30:00 of every day in Brisbane, where that time was shown twice on 4 March 1990. -/
def halfPastTwo : Schedule where
  alternatives
    | .hour => ⟨[.constrained (.value 2) none (by decide) (by decide)], by simp⟩
    | .minute => ⟨[.constrained (.value 30) none (by decide) (by decide)], by simp⟩
    | .second => ⟨[.constrained (.value 0) none (by decide) (by decide)], by simp⟩
    | f => .any f
  zone := .brisbane

/-- The full hours that pass, in Brisbane, where 2 o'clock was skipped on 29 October 1989. -/
def onTheHour (hours : Alternatives .hour) : Schedule where
  alternatives
    | .hour => hours
    | .minute => ⟨[.constrained (.value 0) none (by decide) (by decide)], by simp⟩
    | .second => ⟨[.constrained (.value 0) none (by decide) (by decide)], by simp⟩
    | f => .any f
  zone := .brisbane

/-- 2 and 3 o'clock, each a condition of its own. -/
def twoAndThree : Alternatives .hour :=
  ⟨[.constrained (.value 2) none (by decide) (by decide), .constrained (.value 3) none (by decide) (by decide)],
    by simp⟩

/-- From 2 to 5 o'clock, as one condition. -/
def twoToFive : Alternatives .hour := ⟨[.constrained (.range 2 5) none (by decide) (by decide)], by simp⟩

/-- Midnight of every day. -/
def midnightAtStJohns : Schedule where
  alternatives
    | .hour => ⟨[.constrained (.value 0) none (by decide) (by decide)], by simp⟩
    | .minute => ⟨[.constrained (.value 0) none (by decide) (by decide)], by simp⟩
    | .second => ⟨[.constrained (.value 0) none (by decide) (by decide)], by simp⟩
    | f => .any f
  zone := .stJohns

/-- Midnight of every 29 October, a date that began twice in 1989. -/
def october29AtStJohns : Schedule where
  alternatives
    | .month => ⟨[.constrained (.value 10) none (by decide) (by decide)], by simp⟩
    | .dayOfMonth => ⟨[.constrained (.value 29) none (by decide) (by decide)], by simp⟩
    | .hour => ⟨[.constrained (.value 0) none (by decide) (by decide)], by simp⟩
    | .minute => ⟨[.constrained (.value 0) none (by decide) (by decide)], by simp⟩
    | .second => ⟨[.constrained (.value 0) none (by decide) (by decide)], by simp⟩
    | f => .any f
  zone := .stJohns

/-- Once a day, by the clocks of a zone. -/
def daily (zone : Zone) (hour minute : Nat) (hh : Field.hour.Admits hour := by decide)
    (hm : Field.minute.Admits minute := by decide) : Schedule where
  alternatives
    | .hour => .only hour hh
    | .minute => .only minute hm
    | .second => .only 0
    | f => .any f
  zone := zone

/-! ## One constraint in two spellings -/

/-- On the hour, in universal time. -/
def atHours (hours : Alternatives .hour) : Schedule where
  alternatives
    | .hour => hours
    | .minute => .only 0
    | .second => .only 0
    | f => .any f
  zone := .utc

/-- Every sixth hour as one step. -/
def sixthHours : Alternatives .hour := ⟨[.constrained (.value 0) (some 6) (by decide) (by decide)], by simp⟩

/-- Every sixth hour as a list of values and ranges that overlap. -/
def sixthHoursListed : Alternatives .hour :=
  ⟨[.constrained (.range 12 20) (some 6) (by decide) (by decide),
    .constrained (.value 18) none (by decide) (by decide),
    .constrained (.range 0 6) (some 6) (by decide) (by decide)], by simp⟩

/-! ## Seldom, and late in time -/

/-- Half past twelve and five seconds on every 29 February. -/
def leapDay : Schedule where
  alternatives
    | .month => .only 2
    | .dayOfMonth => .only 29
    | .hour => .only 12
    | .minute => .only 30
    | .second => .only 5
    | f => .any f
  zone := .utc

/-- The first second of every year, fourteen hours ahead of universal time. -/
def newYear : Schedule where
  alternatives
    | .month => .only 1
    | .dayOfMonth => .only 1
    | .hour => .only 0
    | .minute => .only 0
    | .second => .only 0
    | f => .any f
  zone := .gmtPlus14

end Schedule
end Almanac
