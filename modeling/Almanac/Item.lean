import Almanac.Numeral
/-!
# Items of a field expression

An item such as `1..5/2` has a base, which is a value or a range, and may have a step by which it
repeats.
-/
namespace Almanac

inductive Base where
  | value (v : Nat)
  /-- From `a` to `b`, both included. -/
  | range (a b : Nat)
deriving DecidableEq

structure Item where
  base : Base
  step : Option Nat
deriving DecidableEq

namespace Base

/-- A range of a single value is that value. -/
def ofEnds (a b : Nat) : Base := if a = b then .value a else .range a b

def text : Base → String
  | .value v => Numeral.digits v
  | .range a b => Numeral.digits a ++ ".." ++ Numeral.digits b

end Base
end Almanac
