import Almanac.Condition
/-!
# Conditions as text, and their order

A condition is written in the form in which it is read: years with four digits, days of the week by
name, other values with two digits. Conditions are ordered by field, then the wildcard before all
others, values before ranges, by their numbers, and no step before any step.
-/
namespace Almanac

/-- A value as it is written in a schedule. -/
def Field.valueText (f : Field) (v : Nat) : String :=
  match f with
  | .year => Numeral.padded 4 v
  | .dayOfWeek => (Weekday.ofIndex v).abbreviation
  | _ => Numeral.padded 2 v

namespace Condition

variable {f g : Field}

def text (c : Condition f) : String :=
  match c with
  | .wildcard => "*"
  | .constrained base step .. =>
    let base := match base with
      | .value v => f.valueText v
      | .range a b => f.valueText a ++ ".." ++ f.valueText b
    match step with
    | none => base
    | some k => base ++ "/" ++ Numeral.digits k

/-- Numbers whose lexicographic order is the order of conditions. -/
def orderKey (c : Condition f) : List Nat :=
  f.index :: match c with
    | .wildcard => [0]
    | .constrained base step .. =>
      let base := match base with
        | .value v => [0, v]
        | .range a b => [1, a, b]
      1 :: base ++ step.toList

/-- The order of two conditions, which may be on different fields. -/
def order (c : Condition f) (d : Condition g) : Ordering :=
  compare c.orderKey d.orderKey

end Condition
end Almanac
