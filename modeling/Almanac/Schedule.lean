import Almanac.Condition.Text
import Almanac.Zone.Known
/-!
# Schedules

A schedule has for every field the conditions of which one has to pass, and the zone on whose clocks
the fields are read.

- `Schedule.passes`: which values a schedule lets pass.
- `Schedule.text`: the schedule as an expression.
-/
namespace Almanac

/-- Conditions of which one has to pass. There is at least one. -/
structure Alternatives (f : Field) where
  conditions : List (Condition f)
  ne_nil : conditions ≠ []
deriving DecidableEq

namespace Alternatives

variable {f : Field}

/-- Every value passes. -/
def any (f : Field) : Alternatives f := ⟨[.wildcard], by simp⟩

/-- A condition for each item, or the wildcard if there is no item. -/
def ofItems (f : Field) (items : List Item) : Except ScheduleError (Alternatives f) := do
  match ← items.mapM (Condition.ofItem f) with
  | [] => return any f
  | c :: cs => return ⟨c :: cs, by simp⟩

def passes (as : Alternatives f) (v : Nat) : Bool := as.conditions.any (·.passes v)

def isWildcard (as : Alternatives f) : Bool := as.conditions.all fun c => c == .wildcard

def text (as : Alternatives f) : String := ",".intercalate (as.conditions.map Condition.text)

end Alternatives

structure Schedule where
  alternatives : (f : Field) → Alternatives f
  zone : Zone

namespace Schedule

@[ext]
theorem ext {s s' : Schedule} (h : ∀ f, s.alternatives f = s'.alternatives f)
    (hz : s.zone = s'.zone) : s = s' := by
  obtain ⟨a, z⟩ := s
  obtain ⟨a', z'⟩ := s'
  cases hz
  cases funext h
  rfl

instance : DecidableEq Schedule := fun s s' =>
  decidable_of_iff ((∀ f ∈ Field.all, s.alternatives f = s'.alternatives f) ∧ s.zone = s'.zone)
    ⟨fun h => ext (fun f => h.1 f f.mem_all) h.2, fun h => h ▸ ⟨fun _ _ => rfl, rfl⟩⟩

/-- The conditions on a field, never empty. -/
def conditions (s : Schedule) (f : Field) : List (Condition f) := (s.alternatives f).conditions

/-- The value satisfies a condition on the field. -/
def passes (s : Schedule) (f : Field) (v : Nat) : Bool := (s.alternatives f).passes v

/-- The schedule as an expression. The day of the week is left out when every day passes. -/
def text (s : Schedule) : String :=
  let part (f : Field) := (s.alternatives f).text
  (if (s.alternatives .dayOfWeek).isWildcard then "" else part .dayOfWeek ++ " ") ++
    part .year ++ "-" ++ part .month ++ "-" ++ part .dayOfMonth ++ " " ++
    part .hour ++ ":" ++ part .minute ++ ":" ++ part .second ++ " " ++ s.zone.name

/-- The text in double quotes, as a value of JSON. It has no character that JSON would escape. -/
def jsonText (s : Schedule) : String := "\"" ++ s.text ++ "\""

end Schedule
end Almanac
