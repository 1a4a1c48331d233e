import Almanac.Error
import Almanac.Progression
/-!
# Conditions on a field

A condition lets every value of a field pass, or the values of a base, repeated by a step if it has
one. What is outside the interval of the field cannot be written down as a condition.

- `Condition.make`: the condition of a base and a step, or why there is none.
- `Condition.passes`: which values pass.
-/
namespace Almanac

/-! ## Bases of a field -/

namespace Base

/-- Both ends are in the interval of the field and in order. -/
def Within (f : Field) : Base → Prop
  | .value v => f.Admits v
  | .range a b => a ≤ b ∧ f.Admits a ∧ f.Admits b

instance (f : Field) : (b : Base) → Decidable (b.Within f)
  | .value v => inferInstanceAs (Decidable (f.Admits v))
  | .range a b => inferInstanceAs (Decidable (a ≤ b ∧ f.Admits a ∧ f.Admits b))

/-- Years of two digits are expanded, and years are put in order after that. -/
def expand (f : Field) : Base → Base
  | .value v => .value (f.expand v)
  | .range a b =>
    let a := f.expand a
    let b := f.expand b
    if f = .year ∧ b < a then .range b a else .range a b

/-- From `a` to `b`, both included. -/
def between (a b v : Nat) : Bool := a ≤ v && v ≤ b

/-- Repeats the base by a step: a value up to `last`, a range up to its own end. -/
def progression (base : Base) (last step : Nat) : Progression :=
  match base with
  | .value v => ⟨v, last, step⟩
  | .range a b => ⟨a, b, step⟩

end Base

/-- A step is positive and no larger than the largest value of the field. -/
def Field.AdmitsStep (f : Field) (step : Option Nat) : Prop :=
  ∀ k, step = some k → 0 < k ∧ k ≤ f.highest

instance (f : Field) (step : Option Nat) : Decidable (f.AdmitsStep step) :=
  match step with
  | none => isTrue fun _ h => by cases h
  | some k => decidable_of_iff (0 < k ∧ k ≤ f.highest)
      ⟨fun h _ e => Option.some.inj e ▸ h, fun h => h k rfl⟩

theorem Field.admitsStep_none (f : Field) : f.AdmitsStep none := fun _ h => by cases h

/-! ## Conditions -/

inductive Condition (f : Field) where
  /-- Every value passes. -/
  | wildcard
  | constrained (base : Base) (step : Option Nat) (within : base.Within f)
    (stepped : f.AdmitsStep step)
deriving DecidableEq

namespace Condition

variable {f : Field}

/-- The condition of a base and a step as they are written. -/
def make (f : Field) (base : Base) (step : Option Nat) : Except ScheduleError (Condition f) :=
  let base := base.expand f
  if h : base.Within f then
    if hs : f.AdmitsStep step then .ok (.constrained base step h hs)
    else .error (.stepOutside f (step.getD 0))
  else .error (.baseOutside f base)

def ofItem (f : Field) (item : Item) : Except ScheduleError (Condition f) :=
  make f item.base item.step

def base? : Condition f → Option Base
  | .wildcard => none
  | .constrained base .. => some base

def step? : Condition f → Option Nat
  | .wildcard => none
  | .constrained _ step .. => step

/-- The value passes. -/
def passes (c : Condition f) (v : Nat) : Bool :=
  match c with
  | .wildcard => true
  | .constrained (.value b) none .. => b == v
  | .constrained (.range a b) none .. => Base.between a b v
  | .constrained base (some k) .. => (base.progression f.highest k).contains v

/-- A value is in the interval of the field; with no value, the ends of the condition are. -/
def inInterval (c : Condition f) (value : Option Nat) : Bool :=
  match value, c with
  | some v, _ => f.Admits v
  | none, .wildcard => true
  | none, .constrained (.value v) .. => f.Admits v
  | none, .constrained (.range a b) .. => f.Admits a && f.Admits b

end Condition
end Almanac
