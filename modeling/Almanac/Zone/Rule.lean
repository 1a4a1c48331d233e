import Almanac.Weekday
import Almanac.Zone
/-!
# Transitions that recur every year

Clocks are mostly changed by a rule such as "the last Sunday in March at 02:00". A rule holds for a
run of years and gives one transition in each of them; its time is read on the clocks as they run
before the change. A zone is built from its rules and from the transitions that follow no rule.

- `Zone.ofRules`: the zone with all of them in chronological order.
- `Zone.mem_transitions_ofRules`: it has exactly the transitions of its rules and the single ones.
-/
namespace Almanac

/-- Which day of a month. -/
inductive MonthDay where
  | day (d : Nat)
  /-- The first such weekday on or after a day; it may fall into the next month. -/
  | onOrAfter (w : Weekday) (d : Nat)
  | last (w : Weekday)
deriving DecidableEq

/-- Day number in a month of a year. -/
def MonthDay.dayNumber (year : Int) (month : Nat) : MonthDay → Int
  | .day d => (⟨year, month, d⟩ : Date).dayNumber
  | .onOrAfter w d =>
    let n := (⟨year, month, d⟩ : Date).dayNumber
    n + (w.index + 7 - (Weekday.ofDayNumber n).index) % 7
  | .last w =>
    let n := (⟨year, month, Date.daysInMonth year month⟩ : Date).dayNumber
    n - ((Weekday.ofDayNumber n).index + 7 - w.index) % 7

/-- One transition in each year from `first` to `last`, from the offset `before` to `after`. -/
structure YearlyRule where
  first : Nat
  last : Nat
  month : Nat
  day : MonthDay
  /-- Seconds after 00:00:00. -/
  time : Int
  before : Int
  after : Offset
deriving DecidableEq

namespace YearlyRule

def transition (r : YearlyRule) (year : Int) : Transition :=
  ⟨Clock.midnight (r.day.dayNumber year r.month) + r.time - r.before, r.after⟩

def transitions (r : YearlyRule) : List Transition :=
  (List.range' r.first (r.last + 1 - r.first)).map fun (year : Nat) => r.transition year

end YearlyRule

/-! ## Chronological order -/

namespace Transition

/-- Places a transition before the first that comes later. -/
def place (c : Transition) : List Transition → List Transition
  | [] => [c]
  | d :: ds => if c.instant ≤ d.instant then c :: d :: ds else d :: place c ds

theorem mem_place {c x : Transition} {ts : List Transition} : x ∈ place c ts ↔ x = c ∨ x ∈ ts := by
  induction ts with
  | nil => simp [place]
  | cons d ds ih => unfold place; split <;> simp [ih, or_left_comm]

theorem chronological_place (c : Transition) {ts : List Transition} (h : Chronological ts) :
    Chronological (place c ts) := by
  induction ts with
  | nil => simp [place, Chronological]
  | cons d ds ih =>
    obtain ⟨hd, hds⟩ := List.pairwise_cons.1 h
    unfold place
    split <;> rename_i hc
    · refine List.pairwise_cons.2 ⟨fun x hx => ?_, h⟩
      rcases List.mem_cons.1 hx with rfl | hx
      · exact hc
      · exact Int.le_trans hc (hd x hx)
    · refine List.pairwise_cons.2 ⟨fun x hx => ?_, ih hds⟩
      rcases mem_place.1 hx with rfl | hx
      · omega
      · exact hd x hx

/-- The same transitions in chronological order. -/
def inOrder (ts : List Transition) : List Transition := ts.foldr place []

theorem mem_inOrder {x : Transition} {ts : List Transition} : x ∈ inOrder ts ↔ x ∈ ts := by
  induction ts with
  | nil => simp [inOrder]
  | cons d ds ih => rw [inOrder, List.foldr_cons, mem_place, ← inOrder, ih, List.mem_cons]

theorem chronological_inOrder (ts : List Transition) : Chronological (inOrder ts) := by
  induction ts with
  | nil => exact List.Pairwise.nil
  | cons d ds ih => exact chronological_place d ih

end Transition

namespace Zone

/-- The zone with the transitions of `rules` and the single ones. -/
def ofRules (name : String) (initial : Offset) (rules : List YearlyRule)
    (singles : List Transition) : Zone where
  name := name
  initial := initial
  transitions := Transition.inOrder (singles ++ rules.flatMap YearlyRule.transitions)
  chronological := Transition.chronological_inOrder _

/-- The same clocks under another name. -/
def renamed (z : Zone) (name : String) : Zone := { z with name := name }

theorem mem_transitions_ofRules {name : String} {initial : Offset} {rules : List YearlyRule}
    {singles : List Transition} {x : Transition} :
    x ∈ (ofRules name initial rules singles).transitions ↔
      x ∈ singles ∨ ∃ r ∈ rules, x ∈ r.transitions := by
  simp [ofRules, Transition.mem_inOrder, List.mem_flatMap]

/-! ## The words that zone tables are written in -/

/-- A time of day in seconds. -/
def timeOfDay (hour minute second : Int) : Int := 3600 * hour + 60 * minute + second

/-- A yearly rule, with the name that the clocks' time has after the change. -/
def rule (first last month : Nat) (day : MonthDay) (time before after : Int) (abbreviation : String) :
    YearlyRule :=
  ⟨first, last, month, day, time, before, .ofSeconds after abbreviation⟩

/-- A single transition. -/
def once (instant after : Int) (abbreviation : String) : Transition :=
  ⟨instant, .ofSeconds after abbreviation⟩

end Zone
end Almanac
