import Almanac.Words
import Almanac.Item.Reader
import Almanac.Schedule
/-!
# Calendar expressions

`Mon..Fri 2024-*-01,15 09:00:00 Europe/Kyiv`: days of the week, a date, a time and a zone, separated
by blanks. Every part may be left out as long as one of the others is there. An alias such as
`daily` stands for a whole expression without a zone, and a date and a time may be joined by `T`.

- `Schedule.ofExpression`: the schedule of an expression, or why there is none.
-/
namespace Almanac

/-- The texts of the parts of an expression. -/
structure Parts where
  texts : Field → List Char
  /-- The zone that the expression names. -/
  zone : Option Zone

namespace Parts

/-- The words that an alias stands for. -/
def aliases : List (String × List String) :=
  [("minutely", ["*-*-*", "*:*:00"]),
   ("hourly", ["*-*-*", "*:00:00"]),
   ("daily", ["*-*-*", "00:00:00"]),
   ("monthly", ["*-*-01", "00:00:00"]),
   ("weekly", ["Mon", "*-*-*", "00:00:00"]),
   ("yearly", ["*-01-01", "00:00:00"]),
   ("quarterly", ["*-01,04,07,10-01", "00:00:00"]),
   ("semiannually", ["*-01,07-01", "00:00:00"])]

/-! The words are taken off the end of an expression one by one, so they are kept in reverse. -/

/-- The zone named by the last word, which `find?` knows, and the words before it. -/
def takeZone (find? : String → Option Zone) : List (List Char) → Option Zone × List (List Char)
  | [] => (none, [])
  | last :: before =>
    match find? (.ofList last) with
    | some z => (some z, before)
    | none => (none, last :: before)

/-- A single word that is an alias in any letter case becomes the words of the alias. -/
def expandAlias (words : List (List Char)) : List (List Char) :=
  match words with
  | [word] =>
    match aliases.find? fun (name, _) => word.map Char.toLower == name.toList with
    | some (_, expansion) => (expansion.map String.toList).reverse
    | none => words
  | _ => words

/-- A character next to which a `T` may join a date and a time, or with which a date begins. -/
def isDigitOrStar (c : Char) : Bool := c.isDigit || c == '*'

/-- The texts around the first `T` between two digits or stars. -/
def splitAtT? : List Char → Option (List Char × List Char)
  | a :: m :: b :: rest =>
    if m = 'T' ∧ isDigitOrStar a ∧ isDigitOrStar b then some ([a], b :: rest)
    else (splitAtT? (m :: b :: rest)).map fun (date, time) => (a :: date, time)
  | _ => none

/-- A last word that joins a date and a time becomes two words. -/
def separateAtT : List (List Char) → List (List Char)
  | [] => []
  | last :: before =>
    match splitAtT? last with
    | some (date, time) => time :: date :: before
    | none => last :: before

/-- The time in the last word, and the words before it. -/
def takeTime : List (List Char) → Option (List Char) × List (List Char)
  | [] => (none, [])
  | last :: before => if ':' ∈ last then (some last, before) else (none, last :: before)

/-- The last word is a date. -/
def looksLikeDate (word : List Char) : Bool := word.contains '-' && word.head?.any isDigitOrStar

/-- The date in the last word, and the words before it. -/
def takeDate : List (List Char) → Option (List Char) × List (List Char)
  | [] => (none, [])
  | last :: before => if looksLikeDate last then (some last, before) else (none, last :: before)

/-- Hours, minutes and seconds of a time `h:m` or `h:m:s`, none of which is empty. -/
def splitTime (text : List Char) : Except ScheduleError (List Char × List Char × List Char) :=
  match text.splitOn ':' with
  | [h, m] => if h ≠ [] ∧ m ≠ [] then .ok (h, m, ['0', '0']) else malformed
  | [h, m, s] => if h ≠ [] ∧ m ≠ [] ∧ s ≠ [] then .ok (h, m, s) else malformed
  | _ => malformed
where malformed := .error (.malformedTime (.ofList text))

/-- Years, months and days of a date `m-d` or `y-m-d`, none of which is empty. -/
def splitDate (text : List Char) : Except ScheduleError (List Char × List Char × List Char) :=
  match text.splitOn '-' with
  | [m, d] => if m ≠ [] ∧ d ≠ [] then .ok (['*'], m, d) else malformed
  | [y, m, d] => if y ≠ [] ∧ m ≠ [] ∧ d ≠ [] then .ok (y, m, d) else malformed
  | _ => malformed
where malformed := .error (.malformedDate (.ofList text))

/-- The days of the week, which are the one word that is left. -/
def takeDayOfWeek : List (List Char) → Except ScheduleError (List Char)
  | [] => .ok ['*']
  | [word] => .ok word
  | _ :: before => .error (.leftoverWords (" ".intercalate (before.reverse.map String.ofList)))

/-- The parts of an expression. A missing time is midnight, and a missing date or day of the week is
any. -/
def ofExpression (find? : String → Option Zone) (expression : String) : Except ScheduleError Parts := do
  let all := (words expression.toList).reverse
  if all = [] then throw .emptyExpression
  let (zone, rest) := takeZone find? all
  if rest = [] then throw (.zoneOnly expression)
  let (time?, rest) := takeTime (separateAtT (expandAlias rest))
  let (hour, minute, second) ← splitTime (time?.getD "00:00:00".toList)
  let (date?, rest) := takeDate rest
  let (year, month, day) ← match date? with
    | some date => splitDate date
    | none => pure (['*'], ['*'], ['*'])
  let weekday ← takeDayOfWeek rest
  let texts
    | .year => year
    | .month => month
    | .dayOfMonth => day
    | .dayOfWeek => weekday
    | .hour => hour
    | .minute => minute
    | .second => second
  return ⟨texts, zone⟩

end Parts

/-- The conditions of a field expression. -/
def Alternatives.ofText (f : Field) (text : List Char) : Except ScheduleError (Alternatives f) := do
  ofItems f (← Item.readList f.cycle? text)

namespace Schedule

/-- The schedule of the parts of an expression. The first field with a fault names the error. -/
def ofParts (parts : Parts) (zone : Zone) : Except ScheduleError Schedule := do
  let year ← Alternatives.ofText .year (parts.texts .year)
  let month ← Alternatives.ofText .month (parts.texts .month)
  let dayOfMonth ← Alternatives.ofText .dayOfMonth (parts.texts .dayOfMonth)
  let dayOfWeek ← Alternatives.ofText .dayOfWeek (parts.texts .dayOfWeek)
  let hour ← Alternatives.ofText .hour (parts.texts .hour)
  let minute ← Alternatives.ofText .minute (parts.texts .minute)
  let second ← Alternatives.ofText .second (parts.texts .second)
  let alternatives
    | .year => year
    | .month => month
    | .dayOfMonth => dayOfMonth
    | .dayOfWeek => dayOfWeek
    | .hour => hour
    | .minute => minute
    | .second => second
  return ⟨alternatives, zone⟩

/-- The schedule of an expression, in `zone` unless the expression names one that `find?` knows. -/
def ofExpressionIn (find? : String → Option Zone) (expression : String) (zone : Zone) :
    Except ScheduleError Schedule := do
  let parts ← Parts.ofExpression find? expression
  ofParts parts (parts.zone.getD zone)

/-- The schedule of an expression that may name any of the known zones. -/
def ofExpression (expression : String) (zone : Zone) : Except ScheduleError Schedule :=
  ofExpressionIn Zone.find? expression zone

end Schedule
end Almanac
