import Almanac.Proofs.PassesInTime
import Almanac.Proofs.Steady
/-!
# The length of a pass

Where the clocks are never changed and every day of the week passes, a refinement comes nearer to the first
occurrence in one of three ways. It leads to a later month, to the very day, hour, minute or second of the
first occurrence, or from within a day, an hour or a minute to the start of a later one. There are at most
231 years to go; the second way can be taken four times, and the third three times before another one has
to be taken. So a pass that has something to find never runs out of looks.

- `Schedule.year_le_of_isLeast`: the first occurrence lies at most 230 years after the year of the candidate.
- `Schedule.refinement_cases`: the three ways.
- `Schedule.refinementsLeft_lt`: the measure that each of them lowers.
- `Schedule.search_of_anyWeekday`: a pass finds the first occurrence, unless it runs into the end of time.
- `Schedule.searchChecked_of_anyWeekday`: it finds it within time, if its date is one that there is and its hour
  ends before time does.
-/
namespace Almanac

/-! ## Leap years -/

namespace Date

/-- Of two multiples of four in a row one is a leap year. -/
theorem exists_isLeap (y : Int) : ∃ y', y < y' ∧ y' ≤ y + 8 ∧ isLeap y' = true := by
  simp only [isLeap, Bool.and_eq_true, beq_iff_eq, Bool.or_eq_true, bne_iff_ne]
  by_cases h : (4 * (y / 4) + 4) % 100 = 0
  · exact ⟨4 * (y / 4) + 8, by omega⟩
  · exact ⟨4 * (y / 4) + 4, by omega⟩

/-- No month is longer than in a leap year. -/
theorem daysInMonth_le_of_isLeap {y y' : Int} (h : isLeap y' = true) (month : Nat) :
    daysInMonth y month ≤ daysInMonth y' month := by
  unfold daysInMonth
  rw [if_pos h]
  split
  · split <;> omega
  · exact Nat.le_refl _

end Date

/-! ## The ends of time -/

/-- From 1970 on dates are later than the first one. -/
theorem Clock.firstDay_lt_of_year {l : Int} (h : 1970 ≤ (Clock.date l).year) : Clock.firstDay < Clock.dayNumber l := by
  have hepoch : Field.year.unitStart 1970 ≤ l := Field.unitStart_le_iff.2 h
  rw [show Field.year.unitStart 1970 = 0 by decide] at hepoch
  have hfirst : Clock.firstDay < 0 := by decide
  simp only [Clock.dayNumber]
  omega

namespace Zone

/-- The date is not later than the last one, and the hour ends before time does. -/
structure WithinTime (z : Zone) (t : Int) : Prop where
  date : z.dayAt t ≤ Clock.lastDay
  hour : t + (3599 - z.toLocal t % 3600) ≤ Clock.lastInstant

/-- With an offset of whole hours this is so until the clocks, or those of universal time, have passed the
last second. -/
theorem withinTime_iff {z : Zone} {t : Int} (h : z.shift t % 3600 = 0) :
    z.WithinTime t ↔ t ≤ Clock.lastInstant ∧ z.toLocal t ≤ Clock.lastInstant := by
  have hlocal : z.toLocal t = t + z.shift t := rfl
  have hend : Clock.lastInstant = 86400 * Clock.lastDay + 86399 := by
    simp only [Clock.lastInstant, Clock.midnight]
    omega
  constructor
  · rintro ⟨hdate, hhour⟩
    simp only [dayAt, Clock.dayNumber] at hdate
    omega
  · rintro ⟨ht, hl⟩
    refine ⟨?_, by omega⟩
    simp only [dayAt, Clock.dayNumber]
    omega

/-- A candidate can be moved on as far as an instant within time. -/
theorem Steady.exists_moveOn? {z : Zone} (hz : z.Steady) {f : Field} {t m : Int} {d : Nat} (hm : z.WithinTime m)
    (hle : f.unitStart (f.unit (z.toLocal t) + d) ≤ z.toLocal m) : ∃ u, z.moveOn? t f d = some u := by
  have hlocal := hz.toLocal_eq t m
  obtain ⟨hdate, hhour⟩ := hm
  by_cases hf : f.index < Field.hour.index
  · obtain ⟨day, he, hday⟩ := moveOn?_eq_startOfDay? hf z t d
    rw [← hday, Field.midnight_le_iff] at hle
    exact ⟨_, he.trans (startOfDay?_eq_some_iff.2 ⟨Int.le_trans hle hdate, rfl⟩)⟩
  · cases f with
    | hour =>
      simp only [Field.unitStart, Field.unit] at hle
      exact ⟨_, moveOn?_hour_eq_some_iff.2 ⟨by omega, rfl⟩⟩
    | minute =>
      simp only [Field.unitStart, Field.unit] at hle
      exact ⟨_, moveOn?_minute_eq_some_iff.2 ⟨by omega, rfl⟩⟩
    | second =>
      simp only [Field.unitStart, Field.unit] at hle
      exact ⟨_, moveOn?_second_eq_some_iff.2 ⟨by omega, rfl⟩⟩
    | _ => exact absurd (by decide) hf

end Zone

/-! ## Units and the fields around them -/

namespace Field

/-- The values of the one field begin again with each unit of the other. -/
inductive RestartsWith : Field → Field → Prop
  | day : RestartsWith .dayOfMonth .month
  | hour : RestartsWith .hour .dayOfWeek
  | minute : RestartsWith .minute .hour
  | second : RestartsWith .second .minute

variable {f p : Field} {l l' : Int} {d : Nat}

theorem RestartsWith.index_lt (h : f.RestartsWith p) : p.index < f.index := by cases h <;> decide

/-- When the values are used up the next unit of the other field begins. -/
theorem RestartsWith.unitStart_eq (h : f.RestartsWith p) (hd : f.ofLocal l + d = f.lastValue l + 1) :
    f.unitStart (f.unit l + d) = p.unitStart (p.unit l + 1) := by
  cases h with
  | day =>
    have hv := Date.valid_ofDayNumber (Clock.dayNumber l)
    have hN := Date.dayNumber_eq_monthStart hv
    have hnext := Date.monthStart_monthIndex_succ hv
    rw [Date.dayNumber_ofDayNumber] at hN
    simp only [unitStart, unit]
    simp only [ofLocal, lastValue, Clock.date] at hd hN ⊢
    congr 1
    omega
  | hour =>
    simp only [unitStart, unit, Clock.midnight, Clock.dayNumber, ofLocal, lastValue, highest, Clock.hour_eq] at *
    omega
  | minute =>
    simp only [unitStart, unit, ofLocal, lastValue, highest, Clock.minute_eq] at *
    omega
  | second =>
    simp only [unitStart, unit, ofLocal, lastValue, highest, Clock.second_eq] at *
    omega

/-- The time of the one unit that lies as far in it as `l'` lies in its own. -/
def transfer (f : Field) (l l' : Int) : Int := f.unitStart (f.unit l) + (l' - f.unitStart (f.unit l'))

theorem unit_transfer (hf : dayOfWeek.index ≤ f.index) : f.unit (f.transfer l l') = f.unit l := by
  cases f <;> simp [index] at hf <;>
    simp only [transfer, unit, unitStart, Clock.midnight, Clock.dayNumber] <;> omega

/-- It reads like `l` down to the field, and like `l'` from there on. -/
theorem ofLocal_transfer (hf : dayOfWeek.index ≤ f.index) (g : Field) (l l' : Int) :
    (g.index ≤ f.index → g.ofLocal (f.transfer l l') = g.ofLocal l) ∧
      (f.index < g.index → g.ofLocal (f.transfer l l') = g.ofLocal l') := by
  refine ⟨fun hg => ofLocal_of_finer hg (unit_transfer hf), fun hg => ?_⟩
  have hmod : dayOfWeek.index < g.index := by omega
  cases g <;> simp [index] at hmod <;> cases f <;> simp [index] at hf hg <;>
    simp only [transfer, unit, unitStart, ofLocal, Clock.midnight, Clock.dayNumber, Clock.hour_eq, Clock.minute_eq,
      Clock.second_eq] <;> omega

end Field

namespace Schedule

variable {s : Schedule} {f p : Field} {c t u m l l' : Int} {d : Nat}

/-! ## The first occurrence -/

/-- Restricted years are values of their field wherever something occurs. -/
theorem year_of_occurs (ho : s.Occurs m) (hyear : .wildcard ∉ s.conditions .year) :
    1970 ≤ (Clock.date (s.zone.toLocal m)).year ∧ (Clock.date (s.zone.toLocal m)).year ≤ 2200 := by
  obtain ⟨C, hC, hp⟩ := passes_iff.1 (ho .year)
  cases C with
  | wildcard => exact absurd hC hyear
  | constrained base step hw hk =>
    have hadm := Condition.admits_of_passes hp
    have hy := Field.ofLocal_year_of_admits hadm
    simp only [Field.Admits, Field.lowest, Field.highest] at hadm
    omega

/-- When every year passes, what occurs occurs on the same date of a leap year before. -/
theorem occurs_in_leapYear (hz : s.zone.Steady) (hw : .wildcard ∈ s.conditions .dayOfWeek)
    (hyear : .wildcard ∈ s.conditions .year) (ho : s.Occurs m) {y : Int} (hleap : Date.isLeap y = true) :
    ∃ v, (Clock.date (s.zone.toLocal v)).year = y ∧ s.Occurs v := by
  let date : Date := { Clock.date (s.zone.toLocal m) with year := y }
  have hvalid : date.Valid := by
    obtain ⟨h1, h12, hd1, hd⟩ := Date.valid_ofDayNumber (Clock.dayNumber (s.zone.toLocal m))
    exact ⟨h1, h12, hd1, Nat.le_trans hd (Date.daysInMonth_le_of_isLeap hleap _)⟩
  let v := s.zone.toInstant (Clock.midnight date.dayNumber + s.zone.toLocal m % 86400)
  have hl : s.zone.toLocal v = Clock.midnight date.dayNumber + s.zone.toLocal m % 86400 :=
    hz.toLocal_toInstant _
  have hday : Clock.dayNumber (s.zone.toLocal v) = date.dayNumber := by
    rw [Clock.dayNumber, hl, Clock.midnight]
    omega
  have hv : Clock.date (s.zone.toLocal v) = date := by
    rw [Clock.date, hday, Date.ofDayNumber_dayNumber hvalid]
  refine ⟨v, by rw [hv], fun f => ?_⟩
  cases f with
  | year => exact passesAt_of_wildcard hyear
  | dayOfWeek => exact passesAt_of_wildcard hw
  | month =>
    rw [PassesAt, Field.ofLocal, hv]
    exact ho .month
  | dayOfMonth =>
    rw [PassesAt, Field.ofLocal, hv]
    exact ho .dayOfMonth
  | _ =>
    rw [PassesAt, Field.ofLocal_of_time (by decide) (l := s.zone.toLocal m) (by
      rw [hl, Clock.midnight]
      omega)]
    exact ho _

/-- From 1970 on the first occurrence lies at most 230 years after the candidate: restricted years end
with 2200, and of any other years every leap year has it. -/
theorem year_le_of_isLeast (hz : s.zone.Steady) (hw : .wildcard ∈ s.conditions .dayOfWeek)
    (hc : 1970 ≤ (Clock.date (s.zone.toLocal c)).year) (hm : IsLeast {u | c ≤ u ∧ s.Occurs u} m) :
    (Clock.date (s.zone.toLocal m)).year ≤ (Clock.date (s.zone.toLocal c)).year + 230 := by
  obtain ⟨⟨hcm, ho⟩, hleast⟩ := hm
  by_cases hyear : .wildcard ∈ s.conditions .year
  · refine Int.le_of_not_gt fun hlate => ?_
    obtain ⟨y, hcy, hy, hleap⟩ := Date.exists_isLeap (Clock.date (s.zone.toLocal c)).year
    obtain ⟨v, hv, hov⟩ := occurs_in_leapYear hz hw hyear ho hleap
    have hcv : c < v := Int.lt_of_not_ge fun hvc => by
      have : (Clock.date (s.zone.toLocal v)).year ≤ (Clock.date (s.zone.toLocal c)).year := hz.unit_mono .year hvc
      omega
    have hmv : m ≤ v := hleast ⟨Int.le_of_lt hcv, hov⟩
    have : (Clock.date (s.zone.toLocal m)).year ≤ (Clock.date (s.zone.toLocal v)).year := hz.unit_mono .year hmv
    omega
  · have := (year_of_occurs ho hyear).2
    omega

/-! ## One refinement -/

/-- On the way to an occurrence every field that does not pass has a distance. -/
theorem exists_distance?_of_occurs (hz : s.zone.Steady) (ht : 1970 ≤ (Clock.date (s.zone.toLocal t)).year)
    (htm : t ≤ m) (ho : s.Occurs m) (hfail : ¬ s.PassesAt f t) : ∃ d, s.distance? t f = some d := by
  refine exists_distance?_of_admits hz ?_ hfail
  by_cases hf : f = .year
  · subst hf
    have hm := year_of_occurs ho fun hyear => hfail (passesAt_of_wildcard hyear)
    have hmono : (Clock.date (s.zone.toLocal t)).year ≤ (Clock.date (s.zone.toLocal m)).year :=
      hz.unit_mono .year htm
    rw [Field.ofLocal_year (y := (Clock.date (s.zone.toLocal t)).year.toNat) (by omega)
      (by simp only [Field.largest]; omega)]
    simp only [Field.Admits, Field.lowest, Field.highest]
    omega
  · exact Field.admits_ofLocal hf _

/-- The start of a unit from which on only finer fields may not pass yet belongs to the unit of the first
occurrence: the time of the first occurrence within its own unit occurs within this one too. -/
theorem unit_eq_of_isLeast (hz : s.zone.Steady) (hm : IsLeast {u | c ≤ u ∧ s.Occurs u} m)
    (hp : Field.dayOfWeek.index ≤ p.index) (hct : c ≤ t) (htm : t ≤ m)
    (hstart : p.unitStart (p.unit (s.zone.toLocal t)) = s.zone.toLocal t)
    (hpass : ∀ g : Field, g.index ≤ p.index → s.PassesAt g t) :
    p.unit (s.zone.toLocal t) = p.unit (s.zone.toLocal m) := by
  obtain ⟨⟨hcm, ho⟩, hleast⟩ := hm
  let v := s.zone.toInstant (p.transfer (s.zone.toLocal t) (s.zone.toLocal m))
  have hl : s.zone.toLocal v = p.transfer (s.zone.toLocal t) (s.zone.toLocal m) := hz.toLocal_toInstant _
  have hov : s.Occurs v := fun g => by
    have hread := Field.ofLocal_transfer hp g (s.zone.toLocal t) (s.zone.toLocal m)
    rw [PassesAt, hl]
    by_cases hg : g.index ≤ p.index
    · rw [hread.1 hg]
      exact hpass g hg
    · rw [hread.2 (by omega)]
      exact ho g
  have htv : s.zone.toLocal t ≤ s.zone.toLocal v := by
    have : p.unitStart (p.unit (s.zone.toLocal m)) ≤ s.zone.toLocal m :=
      Field.unitStart_le_iff.2 (Int.le_refl _)
    rw [hl, Field.transfer]
    omega
  have hlocal := hz.toLocal_eq t v
  have hle := hz.unit_mono p (hleast ⟨by omega, hov⟩)
  rw [hl, Field.unit_transfer hp] at hle
  exact Int.le_antisymm (hz.unit_mono p htm) hle

/-- Where a distance ends with a later value, this field and all coarser ones pass. -/
theorem passesAt_of_refines (hz : s.zone.Steady) (h : s.Refines t f d u) (hf : f ≠ .dayOfWeek)
    (hd : f.ofLocal (s.zone.toLocal t) + d ≤ f.lastValue (s.zone.toLocal t))
    (hunit : f.unit (s.zone.toLocal u) = f.unit (s.zone.toLocal t) + d) {g : Field} (hg : g.index ≤ f.index) :
    s.PassesAt g u := by
  have hadm := admits_of_distance? h.distance
  by_cases hgf : g.index < f.index
  · rw [PassesAt, Field.ofLocal_of_coarser hf hgf hunit hd]
    exact h.coarser g hgf
  · obtain rfl : g = f := by
      cases g <;> cases f <;> simp [Field.index] at hg hgf <;> rfl
    have hstands : s.Stands t g _ := Field.standsAt_of_unchanged (hz.changesOnDay_eq_false t) hadm
    rw [PassesAt, Field.ofLocal_of_unit hadm hunit hd]
    refine passes_at_landing hstands h.fails h.distance ?_
    have := hadm.1
    rw [Field.values_of_unchanged (hz.changesOnDay_eq_false t), Field.getElem?_interval]
    omega

/-- How a refinement comes nearer to the first occurrence: by a later month, by a day, an hour, a minute or
a second of it that the candidate was not in, or by the start of a day, an hour or a minute in place of a
time within an earlier one. -/
inductive Nearer (m l l' : Int) : Prop
  | month (hmonth : Field.month.unit l < Field.month.unit l') (hstart : l' % 86400 = 0)
  | reaches (p : Field) (hp : Field.dayOfWeek.index ≤ p.index) (hl : p.unit l ≠ p.unit m)
      (hl' : p.unit l' = p.unit m)
  | begins (p : Field) (hp : Field.dayOfWeek.index ≤ p.index) (hl : p.unitStart (p.unit l) ≠ l)
      (hl' : p.unitStart (p.unit l') = l')

theorem le_of_refines (hz : s.zone.Steady) (htm : t ≤ m) (ho : s.Occurs m) (h : s.Refines t f d u) : u ≤ m := by
  have hle := unitStart_le_of_passesAt hz h.fails h.distance htm (ho f)
  rw [← hz.toLocal_moveOn h.moved, hz.toLocal_eq u m] at hle
  omega

/-- A distance to a later value reaches the unit of the first occurrence. -/
theorem nearer_of_value (hz : s.zone.Steady) (hw : .wildcard ∈ s.conditions .dayOfWeek)
    (hm : IsLeast {u | c ≤ u ∧ s.Occurs u} m) (hct : c ≤ t) (htm : t ≤ m) (h : s.Refines t f d u)
    (hp : f.RestartsWith p) (hd : f.ofLocal (s.zone.toLocal t) + d ≤ f.lastValue (s.zone.toLocal t)) :
    Nearer (s.zone.toLocal m) (s.zone.toLocal t) (s.zone.toLocal u) := by
  have hu := hz.toLocal_moveOn h.moved
  have hunit : f.unit (s.zone.toLocal u) = f.unit (s.zone.toLocal t) + d := by rw [hu, Field.unit_unitStart]
  have hstart : f.unitStart (f.unit (s.zone.toLocal u)) = s.zone.toLocal u := by rw [hunit, hu]
  have hf : f ≠ .dayOfWeek := by cases hp <;> decide
  have hpass (g : Field) (hg : g.index ≤ f.index) : s.PassesAt g u := passesAt_of_refines hz h hf hd hunit hg
  have hne : f.unit (s.zone.toLocal t) ≠ f.unit (s.zone.toLocal m) := fun he => h.fails (by
    rw [PassesAt, Field.ofLocal_congr he]
    exact hm.1.2 f)
  have htu := (fails_before_refinement hz h).1
  have hum := le_of_refines hz htm hm.1.2 h
  by_cases hday : f = .dayOfMonth
  -- every day of the week passes, so that the day is one of the first occurrence
  · subst hday
    refine .reaches .dayOfWeek (Nat.le_refl _) hne (unit_eq_of_isLeast hz hm (Nat.le_refl _) (by omega) hum
      hstart fun g hg => ?_)
    by_cases hgw : g = .dayOfWeek
    · subst hgw
      exact passesAt_of_wildcard hw
    · exact hpass g (by cases g <;> simp_all [Field.index])
  · have hindex : Field.dayOfWeek.index ≤ f.index := by cases hp <;> simp_all [Field.index]
    exact .reaches f hindex hne (unit_eq_of_isLeast hz hm hindex (by omega) hum hstart hpass)

/-- A distance to where the values begin again leaves a unit within which the candidate was. -/
theorem nearer_of_end (hz : s.zone.Steady) (hm : IsLeast {u | c ≤ u ∧ s.Occurs u} m) (hct : c ≤ t)
    (htm : t ≤ m) (h : s.Refines t f d u) (hp : f.RestartsWith p)
    (hd : f.ofLocal (s.zone.toLocal t) + d = f.lastValue (s.zone.toLocal t) + 1) :
    Nearer (s.zone.toLocal m) (s.zone.toLocal t) (s.zone.toLocal u) := by
  have hu : s.zone.toLocal u = p.unitStart (p.unit (s.zone.toLocal t) + 1) := by
    rw [hz.toLocal_moveOn h.moved, hp.unitStart_eq hd]
  have hunit : p.unit (s.zone.toLocal u) = p.unit (s.zone.toLocal t) + 1 := by rw [hu, Field.unit_unitStart]
  by_cases hmonth : p = .month
  · subst hmonth
    exact .month (by omega) (by rw [hu, Field.unitStart, Clock.midnight]; omega)
  · have hindex : Field.dayOfWeek.index ≤ p.index := by cases hp <;> simp_all [Field.index]
    refine .begins p hindex (fun hstart => ?_) (by rw [hunit, hu])
    -- at its start the unit would be the one of the first occurrence
    have hsame := unit_eq_of_isLeast hz hm hindex hct htm hstart fun g hg =>
      h.coarser g (Nat.lt_of_le_of_lt hg hp.index_lt)
    have hle := hz.unit_mono p (le_of_refines hz htm hm.1.2 h)
    omega

theorem refinement_cases (hz : s.zone.Steady) (hw : .wildcard ∈ s.conditions .dayOfWeek)
    (hm : IsLeast {u | c ≤ u ∧ s.Occurs u} m) (hct : c ≤ t) (htm : t ≤ m) (h : s.Refines t f d u) :
    Nearer (s.zone.toLocal m) (s.zone.toLocal t) (s.zone.toLocal u) := by
  have hu := hz.toLocal_moveOn h.moved
  have hpos := distance?_pos h.distance
  have hrestarts {p : Field} (hp : f.RestartsWith p) :
      Nearer (s.zone.toLocal m) (s.zone.toLocal t) (s.zone.toLocal u) := by
    rcases Nat.lt_or_eq_of_le (ofLocal_add_distance?_le hz h.fails h.distance) with hd | hd
    · exact nearer_of_value hz hw hm hct htm h hp (Nat.le_of_lt_succ hd)
    · exact nearer_of_end hz hm hct htm h hp hd
  cases f with
  | year =>
    have hunit : Field.year.unit (s.zone.toLocal u) = Field.year.unit (s.zone.toLocal t) + d := by
      rw [hu, Field.unit_unitStart]
    refine .month (Int.lt_of_not_ge fun hle => ?_) (by rw [hu, Field.unitStart, Clock.midnight]; omega)
    have := Field.year_unit_mono hle
    omega
  | month =>
    have hunit : Field.month.unit (s.zone.toLocal u) = Field.month.unit (s.zone.toLocal t) + d := by
      rw [hu, Field.unit_unitStart]
    exact .month (by omega) (by rw [hu, Field.unitStart, Clock.midnight]; omega)
  | dayOfMonth => exact hrestarts .day
  | dayOfWeek => exact absurd (passesAt_of_wildcard hw) h.fails
  | hour => exact hrestarts .hour
  | minute => exact hrestarts .minute
  | second => exact hrestarts .second

/-! ## The measure -/

/-- How many of the day, the hour, the minute and the second are not those of `m`. -/
def unitsBehind (m l : Int) : Nat :=
  if l / 86400 ≠ m / 86400 then 4
  else if l / 3600 ≠ m / 3600 then 3
  else if l / 60 ≠ m / 60 then 2
  else if l ≠ m then 1
  else 0

/-- How many of the day, the hour and the minute have begun before. -/
def unitsBegun (l : Int) : Nat :=
  if l % 86400 = 0 then 0
  else if l % 3600 = 0 then 1
  else if l % 60 = 0 then 2
  else 3

/-- A bound for the refinements from `l` to `m`. -/
def refinementsLeft (m l : Int) : Nat :=
  (Field.month.unit m - Field.month.unit l).toNat + 4 * unitsBehind m l + unitsBegun l

theorem unitsBegun_le (l : Int) : unitsBegun l ≤ 3 := by
  unfold unitsBegun
  repeat' split
  all_goals omega

theorem unitsBehind_le (m l : Int) : unitsBehind m l ≤ 4 := by
  unfold unitsBehind
  repeat' split
  all_goals omega

theorem unitsBehind_anti (hl : l ≤ l') (hm : l' ≤ m) : unitsBehind m l' ≤ unitsBehind m l := by
  unfold unitsBehind
  repeat' split
  all_goals omega

theorem unitsBehind_lt (hp : Field.dayOfWeek.index ≤ p.index) (hl : p.unit l ≠ p.unit m)
    (hl' : p.unit l' = p.unit m) : unitsBehind m l' < unitsBehind m l := by
  unfold unitsBehind
  cases p <;> simp [Field.index] at hp <;> simp only [Field.unit, Clock.dayNumber] at hl hl'
  all_goals
    repeat' split
    all_goals omega

theorem unitsBegun_lt (hp : Field.dayOfWeek.index ≤ p.index) (hl : p.unitStart (p.unit l) ≠ l)
    (hl' : p.unitStart (p.unit l') = l') : unitsBegun l' < unitsBegun l := by
  unfold unitsBegun
  cases p <;> simp [Field.index] at hp <;>
    simp only [Field.unit, Field.unitStart, Clock.midnight, Clock.dayNumber] at hl hl'
  all_goals
    repeat' split
    all_goals omega

theorem refinementsLeft_lt (h : Nearer m l l') (hl : l ≤ l') (hm : l' ≤ m) :
    refinementsLeft m l' < refinementsLeft m l := by
  have hmonth := Field.unit_mono .month hl
  have hmonth' := Field.unit_mono .month hm
  have hbehind := unitsBehind_anti hl hm
  have hbegun := unitsBegun_le l'
  unfold refinementsLeft
  cases h with
  | month hlt hstart =>
    have : unitsBegun l' = 0 := if_pos hstart
    omega
  | reaches p hp hne heq =>
    have := unitsBehind_lt hp hne heq
    omega
  | begins p hp hne heq =>
    have := unitsBegun_lt hp hne heq
    omega

/-! ## The pass -/

/-- There are at most 2771 months to go, and 19 refinements of the other kinds. -/
theorem refinementsLeft_lt_passLimit {l : Int} (h : (Clock.date m).year ≤ (Clock.date l).year + 230) :
    refinementsLeft m l < passLimit := by
  have hv := Date.valid_ofDayNumber (Clock.dayNumber l)
  have hv' := Date.valid_ofDayNumber (Clock.dayNumber m)
  have hbehind := unitsBehind_le m l
  have hbegun := unitsBegun_le l
  simp only [refinementsLeft, passLimit, Field.unit, Date.monthIndex, Clock.date, Date.Valid] at *
  omega

/-- A candidate on the way to the first occurrence can be refined, and wherever that leads is nearer to it. -/
theorem exists_nearer (hz : s.zone.Steady) (hw : .wildcard ∈ s.conditions .dayOfWeek)
    (hm : IsLeast {u | c ≤ u ∧ s.Occurs u} m) (hct : c ≤ t) (htm : t ≤ m)
    (ht : 1970 ≤ (Clock.date (s.zone.toLocal t)).year) (hot : ¬ s.Occurs t) :
    ∃ f d, s.FirstFailing t f ∧ s.distance? t f = some d ∧ ∀ u, s.zone.moveOn? t f d = some u →
      (c ≤ u ∧ u ≤ m) ∧
        refinementsLeft (s.zone.toLocal m) (s.zone.toLocal u) <
          refinementsLeft (s.zone.toLocal m) (s.zone.toLocal t) := by
  obtain ⟨f, hf⟩ := exists_firstFailing hot
  obtain ⟨d, hd⟩ := exists_distance?_of_occurs hz ht htm hm.1.2 hf.fails
  refine ⟨f, d, hf, hd, fun u hu => ?_⟩
  have h : s.Refines t f d u := ⟨hf, hd, hu⟩
  have htu := (fails_before_refinement hz h).1
  have hum := le_of_refines hz htm hm.1.2 h
  have hnearer := refinement_cases hz hw hm hct htm h
  exact ⟨⟨by omega, hum⟩,
    refinementsLeft_lt hnearer (hz.toLocal_mono (Int.le_of_lt htu)) (hz.toLocal_mono hum)⟩

/-- Where every day of the week passes, a pass finds the first of the occurrences from its candidate on. It
may run into the end of time before, but not when one of them lies within time. -/
theorem search_of_anyWeekday (hz : s.zone.Steady) (hw : .wildcard ∈ s.conditions .dayOfWeek)
    (hc : 1970 ≤ (Clock.date (s.zone.toLocal c)).year) (hcm : c ≤ m) (ho : s.Occurs m) :
    (∃ t, s.search passLimit c = .ok (some t) ∧ IsLeast {u | c ≤ u ∧ s.Occurs u} t) ∨
      (¬ s.zone.WithinTime m ∧
        ∃ t d f, s.search passLimit c = .error (.noMoreTime ⟨s.zone, t⟩ d f)) := by
  obtain ⟨n, hn⟩ := exists_isLeast_from hcm ho
  have hnm : n ≤ m := hn.2 ⟨hcm, ho⟩
  have hstep (t : Int) (ht : c ≤ t ∧ t ≤ n) (hot : ¬ s.Occurs t) :=
    exists_nearer hz hw hn ht.1 ht.2 (Int.le_trans hc (hz.unit_mono .year ht.1)) hot
  have hlooks : refinementsLeft (s.zone.toLocal n) (s.zone.toLocal c) < passLimit :=
    refinementsLeft_lt_passLimit (year_le_of_isLeast hz hw hc hn)
  rcases searchFrom_of_measure hstep ⟨Int.le_refl c, hn.1.1⟩ hlooks with
    ⟨t, hs, ⟨hct, htn⟩, hot⟩ | ⟨t, f, d, hs, ⟨hct, htn⟩, hf, hd, hnone⟩
  · have hnt : n ≤ t := hn.2 ⟨hct, hot⟩
    obtain rfl := Int.le_antisymm htn hnt
    exact .inl ⟨t, hs, hn⟩
  · refine .inr ⟨fun hm => ?_, t, d, f, hs⟩
    obtain ⟨u, hu⟩ := hz.exists_moveOn? hm
      (unitStart_le_of_passesAt hz hf.fails hd (show t ≤ m by omega) (ho f))
    rw [hnone] at hu
    cases hu

/-- Where every day of the week passes and an instant from the candidate on occurs, a pass finds the first one, if the
date of that instant is one that there is and its hour ends before time does. Wherever the instant lies, the pass
neither runs out of looks nor takes the schedule for one that has come to its end. -/
theorem searchChecked_of_anyWeekday (hz : s.zone.Steady) (hw : .wildcard ∈ s.conditions .dayOfWeek)
    (hc : 1970 ≤ (Clock.date (s.zone.toLocal c)).year) (hcm : c ≤ m) (hm : m ≤ Clock.lastInstant) (ho : s.Occurs m) :
    (s.zone.WithinTime m →
      ∃ t, s.searchChecked passLimit c = .ok (.ok (some t)) ∧ IsLeast {u | c ≤ u ∧ s.Occurs u} t) ∧
    (∀ limit, s.searchChecked passLimit c ≠ .ok (.error (.unsettled limit))) ∧
    s.searchChecked passLimit c ≠ .ok (.ok none) := by
  have hb := s.zone.toLocal_bounds c
  have hfirst : Clock.firstDay < s.zone.dayAt c := Clock.firstDay_lt_of_year hc
  have hin : Clock.InTime c := by
    simp only [Zone.dayAt, Clock.dayNumber, Clock.InTime, Clock.firstInstant, Clock.midnight] at *
    omega
  refine ⟨fun hwithin => ?_, fun limit h => ?_, fun h => ?_⟩
  · obtain ⟨t, ht, hleast⟩ :=
      (search_of_anyWeekday hz hw hc hcm ho).resolve_right fun hno => hno.1 hwithin
    refine ⟨t, ?_, hleast⟩
    obtain ⟨⟨hct, hot⟩, hle⟩ := hleast
    have htm := hle ⟨hcm, ho⟩
    -- candidates lie between the first one and what is found
    refine (searchCheckedFrom_eq (P := fun u => c ≤ u ∧ u ≤ t) hz.calmAtEnds (fun u hu => ?_)
      (fun u f d v hu hr => ?_) ⟨Int.le_refl c, hct⟩).trans (congrArg _ ht)
    · obtain ⟨hcu, hut⟩ := hu
      have hlo : s.zone.dayAt c ≤ s.zone.dayAt u := hz.unit_mono .dayOfMonth hcu
      have hhi : s.zone.dayAt u ≤ s.zone.dayAt m := hz.unit_mono .dayOfMonth (Int.le_trans hut htm)
      have hdate := hwithin.date
      exact ⟨⟨Int.le_trans hin.1 hcu, by omega⟩, Zone.onCalendar_of_date (by omega) (by omega)⟩
    · have := (fails_before_refinement hz hr).1
      exact ⟨by omega, le_of_refines hz hu.2 hot hr⟩
  all_goals
    have hplain := (search_of_checked hin h).1
    rcases search_of_anyWeekday hz hw hc hcm ho with ⟨t, ht, -⟩ | ⟨-, t, d, f, ht⟩
    all_goals
      rw [ht] at hplain
      cases hplain

/-- From March 2096 on it takes until 2104. -/
theorem searchChecked_of_anyWeekday_leapDay :
    leapDay.zone.Steady ∧ .wildcard ∈ leapDay.conditions .dayOfWeek ∧
      1970 ≤ (Clock.date (leapDay.zone.toLocal 3981398400)).year ∧ (3981398400 : Int) ≤ 4233731405 ∧
      (4233731405 : Int) ≤ Clock.lastInstant ∧ leapDay.Occurs 4233731405 ∧ leapDay.zone.WithinTime 4233731405 ∧
      ∃ t, leapDay.searchChecked passLimit 3981398400 = .ok (.ok (some t)) ∧
        IsLeast {u | 3981398400 ≤ u ∧ leapDay.Occurs u} t := by
  have hz : leapDay.zone.Steady := fun _ _ => rfl
  have hw : .wildcard ∈ leapDay.conditions .dayOfWeek := by decide
  have hc : 1970 ≤ (Clock.date (leapDay.zone.toLocal 3981398400)).year := by decide +kernel
  have hm : (4233731405 : Int) ≤ Clock.lastInstant := by decide
  have ho : leapDay.Occurs 4233731405 := by decide +kernel
  have hin : leapDay.zone.WithinTime 4233731405 :=
    (Zone.withinTime_iff (by decide +kernel)).2 ⟨hm, by decide +kernel⟩
  exact ⟨hz, hw, hc, by decide, hm, ho, hin, (searchChecked_of_anyWeekday hz hw hc (by decide) hm ho).1 hin⟩

/-- Where clocks are ahead, the year after the last one begins before time ends, and is not found. -/
theorem not_searchChecked_of_anyWeekday_newYear :
    newYear.zone.Steady ∧ .wildcard ∈ newYear.conditions .dayOfWeek ∧
      1970 ≤ (Clock.date (newYear.zone.toLocal 8210266826399)).year ∧
      newYear.Occurs 8210266826400 ∧ 8210266826400 ≤ Clock.lastInstant ∧
      newYear.searchChecked passLimit 8210266826399 =
        .ok (.error (.noMoreTime ⟨newYear.zone, 8210266826399⟩ 1 .month)) := by
  refine ⟨fun _ _ => rfl, ?_⟩
  decide +kernel

end Schedule
end Almanac
