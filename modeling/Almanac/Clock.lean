import Almanac.Date
/-!
# Clock readings

An instant is a number of whole seconds since 1970-01-01 00:00:00 UTC. A local time is what the
clocks of some place show, counted in seconds in the same way as if that place kept UTC; it says
nothing about which instant shows it. Both are plain integers, and this module reads the parts of
the latter.
-/
namespace Almanac.Clock

/-- Day number of the date that is shown. -/
def dayNumber (l : Int) : Int := l / 86400

def date (l : Int) : Date := .ofDayNumber (dayNumber l)

/-- Seconds since 00:00:00 of the date that is shown. -/
def secondOfDay (l : Int) : Nat := (l % 86400).toNat

def hour (l : Int) : Nat := secondOfDay l / 3600

def minute (l : Int) : Nat := secondOfDay l / 60 % 60

def second (l : Int) : Nat := secondOfDay l % 60

/-- 00:00:00 of a day. -/
def midnight (day : Int) : Int := day * 86400

/-! ## The ends of time

Instants and dates are limited. The plain functions of this library count on past the limits; those
that end there are the checked ones, `Zone.toInstantChecked` and what is built on it. -/

/-- Day number of the first date. -/
def firstDay : Int := (⟨-262143, 1, 1⟩ : Date).dayNumber

/-- Day number of the last date. -/
def lastDay : Int := (⟨262142, 12, 31⟩ : Date).dayNumber

/-- 00:00:00 UTC on the first date. -/
def firstInstant : Int := midnight firstDay

/-- 23:59:59 UTC on the last date. -/
def lastInstant : Int := midnight (lastDay + 1) - 1

/-- The instant, unless it lies past the last one. -/
def within? (t : Int) : Option Int := if t ≤ lastInstant then some t else none

/-- There is such an instant; of a local time, its date is one that there is. -/
def InTime (t : Int) : Prop := firstInstant ≤ t ∧ t ≤ lastInstant

instance (t : Int) : Decidable (InTime t) := by unfold InTime; infer_instance

/-- No error that is handed on, but the end of the program: something was asked for that lies
beyond the ends of time. -/
inductive OutOfTime where
  | stop
deriving DecidableEq

/-- The instant or the local time, where there is one; otherwise the program ends. -/
def checked (t : Int) : Except OutOfTime Int := if InTime t then .ok t else .error .stop

end Almanac.Clock
