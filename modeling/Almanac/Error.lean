import Almanac.Field
import Almanac.Item
/-!
# What can go wrong

An expression is refused while it is read, and a search can end without an answer. Each
constructor is one cause; `ScheduleError.message` words it.
-/
namespace Almanac

inductive ScheduleError where
  | emptyExpression
  /-- The expression, which names a zone and nothing else. -/
  | zoneOnly (expression : String)
  | malformedTime (text : String)
  | malformedDate (text : String)
  /-- The word is neither a number nor a weekday. -/
  | unknownValue (word : String)
  | invalidRange (text : String)
  /-- The step of the item is no number. -/
  | invalidStep (item : String)
  | baseOutside (field : Field) (base : Base)
  | stepOutside (field : Field) (step : Nat)
  | leftoverWords (words : String)
  | unsettled (limit : Nat)
  /-- The reference lies in the last second of time, or past it. -/
  | noSecondAfter (zone : Zone) (reference : Timestamp)
  /-- Moving on by so many units of the field leaves the end of time behind. -/
  | noMoreTime (candidate : Moment) (distance : Nat) (field : Field)
deriving DecidableEq

namespace ScheduleError

def message : ScheduleError → String
  | emptyExpression => "invalid calendar expression: expression is empty"
  | zoneOnly e => "invalid calendar expression: expression has timezone only: " ++ e
  | malformedTime s => "invalid calendar expression: time component is malformed: " ++ s
  | malformedDate s => "invalid calendar expression: date component is malformed: " ++ s
  | unknownValue s => "invalid segment value: " ++ s
  | invalidRange s => "invalid range value: " ++ s
  | invalidStep s => "invalid repeating pattern: " ++ s
  | baseOutside f b =>
    "invalid " ++ f.name ++ " value: base " ++ b.text ++ " is outside of allowed range " ++
      (Base.range f.lowest f.highest).text
  | stepOutside f k =>
    "invalid " ++ f.name ++ " value: step " ++ Numeral.digits k ++ " must be > 0 and <= " ++
      Numeral.digits f.highest
  | leftoverWords s => "expression parts not parsed: " ++ s
  | unsettled n =>
    "too many iterations: " ++ Numeral.digits n ++ ", expression looks malformed"
  | noSecondAfter z t => "invalid local time: " ++ t.textIn z
  | noMoreTime m d f =>
    "invalid local time: " ++ m.text ++ " + " ++ Numeral.digits d ++ " of " ++ f.name

end ScheduleError

/-! ## Steps that can go wrong -/

section Steps

variable {ε α β : Type} {x : Except ε α} {g : α → Except ε β} {b : β}

theorem bind_ok (a : α) (g : α → Except ε β) : Except.ok a >>= g = g a := rfl

theorem ok_of_bind (h : x >>= g = .ok b) : ∃ a, x = .ok a ∧ g a = .ok b := by
  cases x with
  | error e => cases h
  | ok a => exact ⟨a, rfl, h⟩

/-- What is known of the result, if there is one, tells that there is one. -/
theorem exists_ok_of_map {f : α → β} (h : x.toOption.map f = some b) : ∃ a, x = .ok a ∧ f a = b := by
  cases x with
  | error e => cases h
  | ok a => exact ⟨a, rfl, Option.some.inj h⟩

end Steps
end Almanac
