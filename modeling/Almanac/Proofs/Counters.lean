import Almanac.Proofs.Unchanged
/-!
# Counting a progression out

The values of a step are counted out one by one, and each is followed by the sum that leads to the next, also the
last one. So a count goes past its end before it stops there, and the end has to leave room for one more step. Numbers
are no larger than `Field.largest`. The interval of a field and the limit on its steps leave the room, wherever the
calendar cuts the values off.

- `Counter`: a count in which a sum can be too large, and `Counter.Runs`, a whole run of it.
- `Counter.exists_runs`: with room for one more step a count runs through all values of its progression.
- `Condition.passesCounted`, `Condition.distanceCounted?`: the questions put to a condition, with steps counted out.
- `Condition.counted_spec`: the answers are the same, and no count is at fault.
-/
namespace Almanac

/-! ## Counters -/

/-- Gives out the values of a progression one by one. -/
structure Counter where
  next : Nat
  last : Nat
  step : Nat
  step_pos : 0 < step

namespace Counter

/-- What stops a count before its end. -/
inductive Fault where
  /-- The sum is larger than any number. -/
  | tooLarge (a b : Nat)
  /-- The step leads nowhere. -/
  | standstill
deriving DecidableEq

/-- The first sum is formed at once, to see that the step leads somewhere. -/
def start (p : Progression) : Except Fault Counter :=
  if Field.largest < p.first + p.step then .error (.tooLarge p.first p.step)
  else if h : p.first + p.step = p.first then .error .standstill
  else .ok ⟨p.first, p.last, p.step, by omega⟩

/-- The next value and the counter after it, nothing past the last value. -/
def pull (c : Counter) : Except Fault (Option (Nat × Counter)) :=
  if c.last < c.next then .ok none
  else if Field.largest < c.next + c.step then .error (.tooLarge c.next c.step)
  else .ok (some (c.next, { c with next := c.next + c.step }))

variable {c rest : Counter} {p : Progression} {v n : Nat} {vs : List Nat} {test : Nat → Bool}

theorem pull_eq_none_iff : c.pull = .ok none ↔ c.last < c.next := by
  unfold pull
  split
  · simp [*]
  · split <;> simp [*]

theorem pull_eq_some_iff : c.pull = .ok (some (v, rest)) ↔
    c.next ≤ c.last ∧ c.next + c.step ≤ Field.largest ∧ c.next = v ∧
      { c with next := c.next + c.step } = rest := by
  unfold pull
  split
  case isTrue h => simp [Nat.not_le.2 h]
  case isFalse h =>
    split
    case isTrue h' => simp [Nat.not_le.2 h']
    case isFalse h' => simp [Nat.not_lt.1 h, Nat.not_lt.1 h']

/-- How far the end is. -/
def left (c : Counter) : Nat := c.last + 1 - c.next

theorem left_lt_of_pull (h : c.pull = .ok (some (v, rest))) : rest.left < c.left := by
  obtain ⟨hle, -, -, rfl⟩ := pull_eq_some_iff.1 h
  have := c.step_pos
  simp only [left]
  omega

/-- Pulls until a value passes the test. -/
def find (test : Nat → Bool) (c : Counter) : Except Fault (Option Nat) :=
  match h : c.pull with
  | .error fault => .error fault
  | .ok none => .ok none
  | .ok (some (v, rest)) =>
    have := left_lt_of_pull h
    if test v then .ok (some v) else rest.find test
termination_by c.left

theorem find_of_ended (h : c.pull = .ok none) : c.find test = .ok none := by
  rw [find]
  split <;> simp_all

theorem find_of_given (h : c.pull = .ok (some (v, rest))) :
    c.find test = if test v then .ok (some v) else rest.find test := by
  rw [find]
  split <;> simp_all

/-- The first value of a progression that passes the test, found by counting. -/
def lookUp (p : Progression) (test : Nat → Bool) : Except Fault (Option Nat) := do
  let c ← start p
  c.find test

/-! ## Runs -/

/-- Pulled until nothing comes any more, the counter gives out these values, and none of its sums is too large. -/
inductive Runs : Counter → List Nat → Prop
  | ended {c : Counter} (h : c.pull = .ok none) : Runs c []
  | gives {c rest : Counter} {v : Nat} {vs : List Nat} (h : c.pull = .ok (some (v, rest))) (hrun : Runs rest vs) :
      Runs c (v :: vs)

/-- A count that is broken off at a value is the beginning of a run. -/
theorem Runs.find_eq (h : c.Runs vs) : c.find test = .ok (vs.find? test) := by
  induction h with
  | ended hend => exact find_of_ended hend
  | gives hpull hrun ih =>
    rw [find_of_given hpull, ih, List.find?_cons]
    split <;> simp [*]

/-- So many values come as lie from the next one up to the end. -/
theorem runs_range' (hroom : c.last + c.step ≤ Field.largest)
    (hlen : ∀ k, k < n ↔ c.next + c.step * k ≤ c.last) : c.Runs (List.range' c.next n c.step) := by
  have h0 := hlen 0
  induction n generalizing c with
  | zero => exact .ended (pull_eq_none_iff.2 (by omega))
  | succ n ih =>
    refine .gives (pull_eq_some_iff.2 ⟨by omega, by omega, rfl, rfl⟩) ?_
    have hlen' (k : Nat) : k < n ↔ c.next + c.step + c.step * k ≤ c.last := by
      have hk := hlen (k + 1)
      rw [Nat.mul_succ] at hk
      omega
    exact ih hroom hlen' (hlen' 0)

/-- With room for one more step past the first value and past the last one, a count can be begun, and it runs through
all values of the progression. -/
theorem exists_runs (hstep : 0 < p.step) (hfirst : p.first + p.step ≤ Field.largest)
    (hlast : p.last + p.step ≤ Field.largest) : ∃ c, start p = .ok c ∧ c.Runs p.values := by
  refine ⟨⟨p.first, p.last, p.step, hstep⟩, ?_, runs_range' hlast fun k => Progression.lt_length_iff hstep⟩
  rw [start, if_neg (by omega), dif_neg (by omega)]

end Counter

/-! ## The steps of a field -/

theorem Field.highest_le (f : Field) : f.highest ≤ 2200 := by cases f <;> decide

namespace Base

variable {f : Field} {base : Base} {step : Option Nat} {values : List Nat} {last k current here : Nat}

/-- Where a step is cut off among the values of the calendar: a repeated value at the largest of them, a range at its
own end. -/
def cutOff (values : List Nat) : Base → Nat
  | .value v => values.max?.getD v
  | .range _ b => b

theorem cutOff_le (h : base.Within f) (hle : ∀ x ∈ values, x ≤ f.highest) : base.cutOff values ≤ f.highest := by
  cases base with
  | range a b => exact h.2.2.2
  | value v =>
    cases hmax : values.max? with
    | none => simpa only [cutOff, hmax, Option.getD_none] using h.2
    | some m => simpa only [cutOff, hmax, Option.getD_some] using hle m (List.max?_eq_some_iff.1 hmax).1

theorem step_progression (base : Base) (last k : Nat) : (base.progression last k).step = k := by
  cases base <;> rfl

/-- A progression of a field ends within its interval, and so does one step further within the numbers. -/
theorem exists_runs (h : base.Within f) (hk : f.AdmitsStep (some k)) (hl : last ≤ f.highest) :
    ∃ c, Counter.start (base.progression last k) = .ok c ∧ c.Runs (base.progression last k).values := by
  obtain ⟨hk0, hk⟩ := hk k rfl
  have hhighest := f.highest_le
  have hlargest : Field.largest = 65535 := rfl
  cases base with
  | value v =>
    have hv := h.2
    exact Counter.exists_runs hk0 (by simp only [progression]; omega) (by simp only [progression]; omega)
  | range a b =>
    obtain ⟨-, ⟨-, ha⟩, -, hb⟩ := h
    exact Counter.exists_runs hk0 (by simp only [progression]; omega) (by simp only [progression]; omega)

theorem lookUp_eq (h : base.Within f) (hk : f.AdmitsStep (some k)) (hl : last ≤ f.highest) {test : Nat → Bool} :
    Counter.lookUp (base.progression last k) test = .ok ((base.progression last k).values.find? test) := by
  obtain ⟨c, hc, hruns⟩ := exists_runs h hk hl
  rw [Counter.lookUp, hc]
  exact hruns.find_eq

/-- The position of the value to go to, with the step counted out. -/
def targetCounted? (base : Base) (step : Option Nat) (values : List Nat) (current here : Nat) :
    Except Counter.Fault (Option Nat) :=
  match step with
  | none => return base.target? none values current here
  | some k => do
    let next? ← Counter.lookUp (base.progression (base.cutOff values) k) (current < ·)
    return match base with
      | .value _ => next?.bind values.idxOf?
      | .range a _ => values.idxOf? (next?.getD a)

theorem targetCounted?_eq (h : base.Within f) (hk : f.AdmitsStep step) (hle : ∀ x ∈ values, x ≤ f.highest) :
    base.targetCounted? step values current here = .ok (base.target? step values current here) := by
  cases step with
  | none => rfl
  | some k =>
    rw [targetCounted?, lookUp_eq h hk (cutOff_le h hle)]
    cases base <;> rfl

end Base

/-! ## Conditions -/

namespace Condition

variable {f : Field}

/-- `Condition.passes`, with the step counted out. -/
def passesCounted (c : Condition f) (v : Nat) : Except Counter.Fault Bool :=
  match c with
  | .constrained base (some k) .. => do
    let found? ← Counter.lookUp (base.progression f.highest k) (· == v)
    return found?.isSome
  | c => return c.passes v

/-- `Condition.distance?`, with the step counted out. -/
def distanceCounted? (c : Condition f) (current : Nat) (context : Option Moment) :
    Except Counter.Fault (Option Nat) :=
  if f.Admits current then
    match c, f.position? context current with
    | .wildcard, _ => return some 1
    | .constrained .., none => return none
    | .constrained base step .., some here => do
      let values := f.values context
      match ← base.targetCounted? step values current here with
      | some there => return some (if here < there then there - here else values.length - here)
      | none => return some (values.length - here)
  else return none

/-- The progressions that are counted out: up to the last value of the field to tell whether a value passes, and as
far as the calendar has values to find the next one. -/
def progressions (c : Condition f) (context : Option Moment) : List Progression :=
  match c with
  | .constrained base (some k) .. =>
    [base.progression f.highest k, base.progression (base.cutOff (f.values context)) k]
  | _ => []

theorem passesCounted_eq (c : Condition f) (v : Nat) : c.passesCounted v = .ok (c.passes v) := by
  cases c with
  | wildcard => rfl
  | constrained base step h hk =>
    cases step with
    | none => cases base <;> rfl
    | some k =>
      have hpasses : (constrained base (some k) h hk).passes v = (base.progression f.highest k).contains v := by
        cases base <;> rfl
      have hfound : ((base.progression f.highest k).values.find? (· == v)).isSome =
          (base.progression f.highest k).contains v := by
        rw [List.isSome_find?, List.any_beq']
        rfl
      rw [hpasses, passesCounted, Base.lookUp_eq h hk (Nat.le_refl _), ← hfound]
      rfl

theorem distanceCounted?_eq (c : Condition f) (current : Nat) (context : Option Moment) :
    c.distanceCounted? current context = .ok (c.distance? current context) := by
  unfold distanceCounted? distance?
  split
  case isFalse => rfl
  case isTrue hadm =>
    cases c with
    | wildcard => rfl
    | constrained base step h hk =>
      cases f.position? context current with
      | none => rfl
      | some here =>
        simp only [Base.targetCounted?_eq h hk fun x hx => (Field.admits_of_mem_values hx).2, Option.map_some]
        cases base.target? step (f.values context) current here <;> rfl

/-- A condition answers the same when its steps are counted out. Each count can be begun and ends, none of its sums is
too large, and it gives out in increasing order exactly the values from the first one on, by steps, up to the last. -/
theorem counted_spec (c : Condition f) (context : Option Moment) :
    (∀ v, c.passesCounted v = .ok (c.passes v)) ∧
    (∀ current, c.distanceCounted? current context = .ok (c.distance? current context)) ∧
    ∀ p ∈ c.progressions context, ∃ counter, Counter.start p = .ok counter ∧ counter.Runs p.values ∧
      p.values.Pairwise (· < ·) ∧ ∀ v, v ∈ p.values ↔ v ≤ p.last ∧ ∃ k, v = p.first + p.step * k := by
  refine ⟨c.passesCounted_eq, fun current => c.distanceCounted?_eq current context, fun p hp => ?_⟩
  cases c with
  | wildcard => cases hp
  | constrained base step h hk =>
    cases step with
    | none => cases hp
    | some k =>
      obtain ⟨last, hl, rfl⟩ : ∃ last ≤ f.highest, base.progression last k = p := by
        rcases List.mem_cons.1 hp with rfl | hp
        · exact ⟨_, Nat.le_refl _, rfl⟩
        · exact ⟨_, Base.cutOff_le h fun x hx => (Field.admits_of_mem_values hx).2, (List.mem_singleton.1 hp).symm⟩
      have hstep : 0 < (base.progression last k).step := by
        rw [Base.step_progression]
        exact (hk k rfl).1
      obtain ⟨counter, hstart, hruns⟩ := Base.exists_runs h hk hl
      exact ⟨counter, hstart, hruns, Progression.pairwise_values hstep, fun v => Progression.mem_values hstep⟩

/-- February has no day from the 31st on, so a count that is cut off at its end gives out nothing. -/
theorem counted_spec_thirtyFirst :
    let everySecond : Condition .dayOfMonth := .constrained (.value 31) (some 2) (by decide) (by decide)
    (⟨31, 28, 2⟩ : Progression) ∈ everySecond.progressions (some ⟨.utc, 1675209600⟩) ∧
      ∃ counter, Counter.start ⟨31, 28, 2⟩ = .ok counter ∧ counter.Runs [] := by
  intro everySecond
  have hmem : (⟨31, 28, 2⟩ : Progression) ∈ everySecond.progressions (some ⟨.utc, 1675209600⟩) := by decide +kernel
  obtain ⟨-, -, hcount⟩ := everySecond.counted_spec (some ⟨.utc, 1675209600⟩)
  obtain ⟨counter, hstart, hruns, -⟩ := hcount _ hmem
  exact ⟨hmem, counter, hstart, hruns⟩

end Condition
end Almanac
