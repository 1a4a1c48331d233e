import Almanac.Occurrences
import Almanac.Proofs.Distance
/-!
# Runs of the search

A search pass is a run of refinements, so what it finds is settled by what one refinement keeps.

- `Schedule.Refines`: what one refinement is, and `Schedule.Occurs`: what is searched for.
- `Schedule.searchFrom_ok`: a result keeps what every refinement keeps.
- `Schedule.searchFrom_settles`: a measure that every refinement lowers bounds the looks of a pass.
- `Schedule.fails_before_landing`: no value between a candidate and its refinement passes.
-/
namespace Almanac

/-! ## Moving on -/

theorem Clock.within?_eq_some_iff {t u : Int} : Clock.within? t = some u ↔ t ≤ Clock.lastInstant ∧ t = u := by
  simp [Clock.within?]

theorem Clock.map_within?_eq_some_iff {t u : Int} {start : Int → Int} :
    (Clock.within? t).map start = some u ↔ t ≤ Clock.lastInstant ∧ start t = u := by
  rw [Option.map_eq_some_iff]
  simp only [Clock.within?_eq_some_iff]
  constructor
  · rintro ⟨_, ⟨hle, rfl⟩, hu⟩
    exact ⟨hle, hu⟩
  · rintro ⟨hle, hu⟩
    exact ⟨t, ⟨hle, rfl⟩, hu⟩

theorem Zone.startOfDay?_eq_some_iff {z : Zone} {day u : Int} :
    z.startOfDay? day = some u ↔ day ≤ Clock.lastDay ∧ z.startOfDay day = u := by
  simp [Zone.startOfDay?]

/-- A field of the date is moved on to the start of a day, the first of a later unit. -/
theorem Zone.moveOn?_eq_startOfDay? {f : Field} (hf : f.index < Field.hour.index) (z : Zone) (t : Int) (d : Nat) :
    ∃ day, z.moveOn? t f d = z.startOfDay? day ∧
      Clock.midnight day = f.unitStart (f.unit (z.toLocal t) + d) := by
  have hv : (Clock.date (z.toLocal t)).Valid := Date.valid_ofDayNumber _
  cases f with
  | year => exact ⟨_, rfl, by rw [Date.dayNumber_yearsLater]; rfl⟩
  | month => exact ⟨_, rfl, by rw [Date.dayNumber_monthsLater hv]; rfl⟩
  | dayOfMonth => exact ⟨_, rfl, rfl⟩
  | dayOfWeek => exact ⟨_, rfl, rfl⟩
  | _ => simp [Field.index] at hf

theorem Zone.moveOn?_date {z : Zone} {t u : Int} {f : Field} {d : Nat} (hf : f.index < Field.hour.index)
    (h : z.moveOn? t f d = some u) :
    ∃ day, z.startOfDay day = u ∧ Clock.midnight day = f.unitStart (f.unit (z.toLocal t) + d) := by
  obtain ⟨day, he, hday⟩ := Zone.moveOn?_eq_startOfDay? hf z t d
  exact ⟨day, (startOfDay?_eq_some_iff.1 (he ▸ h)).2, hday⟩

/-- A field of the time is moved on by so many of its units, and back to the start of the one that this leads to. -/
theorem Zone.moveOn?_hour_eq_some_iff {z : Zone} {t u : Int} {d : Nat} : z.moveOn? t .hour d = some u ↔
    t + 3600 * d ≤ Clock.lastInstant ∧ z.hourStart (t + 3600 * d) = u :=
  Clock.map_within?_eq_some_iff

theorem Zone.moveOn?_minute_eq_some_iff {z : Zone} {t u : Int} {d : Nat} : z.moveOn? t .minute d = some u ↔
    t + 60 * d ≤ Clock.lastInstant ∧ z.minuteStart (t + 60 * d) = u :=
  Clock.map_within?_eq_some_iff

theorem Zone.moveOn?_second_eq_some_iff {z : Zone} {t u : Int} {d : Nat} : z.moveOn? t .second d = some u ↔
    t + d ≤ Clock.lastInstant ∧ t + d = u :=
  Clock.within?_eq_some_iff

/-! ## The first field that does not pass -/

theorem Field.find?_all_eq_some_iff {p : Field → Bool} {f : Field} :
    Field.all.find? p = some f ↔ p f = true ∧ ∀ g, g.index < f.index → p g = false := by
  constructor
  · intro h
    simp only [all, List.find?_cons, List.find?_nil] at h
    repeat' split at h
    all_goals cases h
    all_goals
      refine ⟨‹_›, fun g hg => ?_⟩
      cases g <;> first | assumption | exact absurd hg (by decide)
  · rintro ⟨hp, hlt⟩
    cases f <;> simp_all [all, index]

namespace Timestamp

/-- The second begins strictly after the reference, compared to the nanosecond. -/
def Precedes (r : Timestamp) (t : Int) : Prop := r.second * 1000000000 + (r.nanos : Nat) < t * 1000000000

/-- The fraction of a second never decides. -/
theorem precedes_iff {r : Timestamp} {t : Int} : r.Precedes t ↔ r.second < t := by
  have := r.nanos.isLt
  unfold Precedes
  omega

end Timestamp

namespace Schedule

variable {s : Schedule} {t u : Int} {f : Field} {d : Nat}

/-- The value that the clocks of the schedule's zone show in the field passes. -/
def PassesAt (s : Schedule) (f : Field) (t : Int) : Prop :=
  s.passes f (f.ofLocal (s.zone.toLocal t)) = true

instance : Decidable (s.PassesAt f t) := inferInstanceAs (Decidable (_ = true))

/-- All seven fields pass. -/
def Occurs (s : Schedule) (t : Int) : Prop := ∀ f, s.PassesAt f t

instance : Decidable (s.Occurs t) :=
  decidable_of_iff (∀ f ∈ Field.all, s.PassesAt f t) ⟨fun h f => h f f.mem_all, fun h f _ => h f⟩

/-- The field does not pass, and all more significant fields do. -/
structure FirstFailing (s : Schedule) (t : Int) (f : Field) : Prop where
  coarser : ∀ g, g.index < f.index → s.PassesAt g t
  fails : ¬ s.PassesAt f t

/-- One refinement: the first field that does not pass is moved on by its shortest distance. -/
structure Refines (s : Schedule) (t : Int) (f : Field) (d : Nat) (u : Int) : Prop
    extends s.FirstFailing t f where
  distance : s.distance? t f = some d
  moved : s.zone.moveOn? t f d = some u

theorem occurs_of_mismatch? (h : s.mismatch? (s.zone.toLocal t) = none) : s.Occurs t := by
  intro f
  have := List.find?_eq_none.1 h f f.mem_all
  simpa [PassesAt] using this

theorem firstFailing_of_mismatch? (h : s.mismatch? (s.zone.toLocal t) = some f) : s.FirstFailing t f := by
  obtain ⟨hf, hg⟩ := Field.find?_all_eq_some_iff.1 h
  exact ⟨fun g hlt => by simpa [PassesAt] using hg g hlt, by simpa [PassesAt] using hf⟩

theorem FirstFailing.mismatch?_eq (h : s.FirstFailing t f) : s.mismatch? (s.zone.toLocal t) = some f :=
  Field.find?_all_eq_some_iff.2 ⟨by simpa [PassesAt] using h.fails,
    fun g hlt => by simpa [PassesAt] using h.coarser g hlt⟩

/-- Of the fields that do not pass, one is the most significant. -/
theorem exists_firstFailing (h : ¬ s.Occurs t) : ∃ f, s.FirstFailing t f := by
  cases hm : s.mismatch? (s.zone.toLocal t) with
  | none => exact absurd (occurs_of_mismatch? hm) h
  | some f => exact ⟨f, firstFailing_of_mismatch? hm⟩

theorem verdict_of_occurs (h : s.Occurs t) : s.verdict t = .occurrence := by
  have hm : s.mismatch? (s.zone.toLocal t) = none :=
    List.find?_eq_none.2 fun f _ => by simpa [PassesAt] using h f
  simp [verdict, hm]

theorem FirstFailing.verdict_eq_impossible (h : s.FirstFailing t f) (hd : s.distance? t f = none) :
    s.verdict t = .impossible f := by
  simp [verdict, h.mismatch?_eq, hd]

theorem FirstFailing.verdict_eq_refine (h : s.FirstFailing t f) (hd : s.distance? t f = some d) :
    s.verdict t = .refine f d := by
  simp [verdict, h.mismatch?_eq, hd]

/-! ## Results of a pass -/

/-- A result comes from the candidate itself, from a field that has no later value, or from the
candidate after a refinement. -/
theorem searchFrom_succ {limit left : Nat} {o : Option Int} (h : s.searchFrom limit (left + 1) t = .ok o) :
    (o = some t ∧ s.Occurs t) ∨ (o = none ∧ ∃ f, s.FirstFailing t f ∧ s.distance? t f = none) ∨
      ∃ f d u, s.Refines t f d u ∧ s.searchFrom limit left u = .ok o := by
  by_cases ho : s.Occurs t
  · simp only [searchFrom, verdict_of_occurs ho, Except.ok.injEq] at h
    exact .inl ⟨h.symm, ho⟩
  obtain ⟨f, hf⟩ := exists_firstFailing ho
  cases hd : s.distance? t f with
  | none =>
    simp only [searchFrom, hf.verdict_eq_impossible hd, Except.ok.injEq] at h
    exact .inr (.inl ⟨h.symm, f, hf, hd⟩)
  | some d =>
    simp only [searchFrom, hf.verdict_eq_refine hd] at h
    cases hu : s.zone.moveOn? t f d with
    | none => simp [moveOn, hu, bind, Except.bind] at h
    | some u =>
      simp only [moveOn, hu, bind, Except.bind] at h
      exact .inr (.inr ⟨f, d, u, ⟨hf, hd, hu⟩, h⟩)

/-- What every refinement keeps holds of the occurrence that is found, and of the candidate that is
left when there is none. -/
theorem searchFrom_ok {P : Int → Prop} (hstep : ∀ t f d u, P t → s.Refines t f d u → P u)
    {limit left : Nat} {o : Option Int} (h : s.searchFrom limit left t = .ok o) (ht : P t) :
    (∃ m, o = some m ∧ P m ∧ s.Occurs m) ∨
      (o = none ∧ ∃ u f, P u ∧ s.FirstFailing u f ∧ s.distance? u f = none) := by
  induction left generalizing t with
  | zero => cases h
  | succ left ih =>
    rcases searchFrom_succ h with ⟨rfl, ho⟩ | ⟨rfl, f, hf, hd⟩ | ⟨f, d, u, hr, h'⟩
    · exact .inl ⟨t, rfl, ht, ho⟩
    · exact .inr ⟨rfl, t, f, ht, hf, hd⟩
    · exact ih h' (hstep t f d u ht hr)

/-- Where every candidate that does not occur has a distance, and moving on lowers a measure, a pass ends
with an occurrence or with a candidate that cannot be moved on. -/
theorem searchFrom_of_measure {P : Int → Prop} {measure : Int → Nat}
    (hstep : ∀ t, P t → ¬ s.Occurs t → ∃ f d, s.FirstFailing t f ∧ s.distance? t f = some d ∧
      ∀ u, s.zone.moveOn? t f d = some u → P u ∧ measure u < measure t)
    {limit left : Nat} (ht : P t) (hleft : measure t < left) :
    (∃ m, s.searchFrom limit left t = .ok (some m) ∧ P m ∧ s.Occurs m) ∨
      ∃ u f d, s.searchFrom limit left t = .error (.noMoreTime ⟨s.zone, u⟩ d f) ∧ P u ∧
        s.FirstFailing u f ∧ s.distance? u f = some d ∧ s.zone.moveOn? u f d = none := by
  induction left generalizing t with
  | zero => omega
  | succ left ih =>
    by_cases ho : s.Occurs t
    · exact .inl ⟨t, by simp only [searchFrom, verdict_of_occurs ho], ht, ho⟩
    · obtain ⟨f, d, hf, hd, hnext⟩ := hstep t ht ho
      cases hu : s.zone.moveOn? t f d with
      | none =>
        refine .inr ⟨t, f, d, ?_, ht, hf, hd, hu⟩
        simp only [searchFrom, hf.verdict_eq_refine hd, moveOn, hu, bind, Except.bind]
      | some u =>
        obtain ⟨hPu, hlt⟩ := hnext u hu
        simp only [searchFrom, hf.verdict_eq_refine hd, moveOn, hu, bind, Except.bind]
        exact ih hPu (by omega)

theorem FirstFailing.unique {g : Field} (h : s.FirstFailing t f) (h' : s.FirstFailing t g) : f = g :=
  Option.some.inj (h.mismatch?_eq.symm.trans h'.mismatch?_eq)

/-- A pass ends with an occurrence when every other candidate has a refinement and each lowers a
measure. -/
theorem searchFrom_settles {P : Int → Prop} {measure : Int → Nat}
    (hstep : ∀ t, P t → ¬ s.Occurs t → ∃ f d u, s.Refines t f d u ∧ P u ∧ measure u < measure t)
    {limit left : Nat} (ht : P t) (hleft : measure t < left) :
    ∃ m, s.searchFrom limit left t = .ok (some m) ∧ P m ∧ s.Occurs m := by
  rcases searchFrom_of_measure (fun t ht ho => by
    obtain ⟨f, d, u, hr, hu⟩ := hstep t ht ho
    refine ⟨f, d, hr.toFirstFailing, hr.distance, fun u' hu' => ?_⟩
    rw [hr.moved] at hu'
    cases hu'
    exact hu) ht hleft with hm | ⟨u, f, d, -, hPu, hf, hd, hnone⟩
  · exact hm
  · obtain ⟨f', d', u', hr, -⟩ := hstep u hPu fun ho => hf.fails (ho f)
    obtain rfl := hf.unique hr.toFirstFailing
    obtain rfl : d = d' := Option.some.inj (hd.symm.trans hr.distance)
    rw [hr.moved] at hnone
    cases hnone

/-! ## After a reference -/

theorem candidateAfter_eq_ok_iff {r : Timestamp} {c : Int} :
    s.candidateAfter r = .ok c ↔ c = r.second + 1 ∧ c ≤ Clock.lastInstant := by
  unfold candidateAfter
  cases h : Clock.within? (r.second + 1) with
  | none =>
    have hlate : ¬ r.second + 1 ≤ Clock.lastInstant := fun hle => by
      rw [Clock.within?_eq_some_iff.2 ⟨hle, rfl⟩] at h
      cases h
    simp only [reduceCtorEq, false_iff]
    omega
  | some t =>
    have := Clock.within?_eq_some_iff.1 h
    rw [Except.ok.injEq]
    omega

/-- The first occurrence after a reference is the result of one pass. -/
theorem search_of_next? {r : Timestamp} {o : Option Int} (h : s.next? r = .ok o) :
    ∃ c, s.candidateAfter r = .ok c ∧ s.search passLimit c = .ok o := by
  unfold next? next at h
  cases hc : s.candidateAfter r with
  | error e => simp [hc, bind, Except.bind] at h
  | ok c =>
    refine ⟨c, rfl, ?_⟩
    simp only [hc, collect, bind, Except.bind] at h
    cases ho : s.search passLimit c with
    | error e => simp [ho] at h
    | ok found =>
      cases found with
      | none => simpa [ho, pure, Except.pure] using h
      | some m =>
        cases hm : s.candidateAfter (.ofSecond m) with
        | error e => simp [ho, hm] at h
        | ok c' => simpa [ho, hm, pure, Except.pure] using h

/-! ## The shortest distance -/

/-- The moment that a candidate is looked at in. -/
abbrev context (s : Schedule) (t : Int) : Option Moment := some ⟨s.zone, t⟩

/-- The value of a field at a candidate stands at a position among the values of the calendar. -/
abbrev Stands (s : Schedule) (t : Int) (f : Field) (here : Nat) : Prop :=
  f.StandsAt (s.context t) (f.ofLocal (s.zone.toLocal t)) here

/-- Where a condition leads from a candidate. -/
abbrev landing (s : Schedule) (t : Int) (c : Condition f) : Nat :=
  c.landing (s.context t) (f.ofLocal (s.zone.toLocal t))

theorem passes_iff {v : Nat} : s.passes f v = true ↔ ∃ c ∈ s.conditions f, c.passes v = true :=
  List.any_eq_true

theorem passesAt_of_wildcard (h : .wildcard ∈ s.conditions f) : s.PassesAt f t :=
  passes_iff.2 ⟨.wildcard, h, rfl⟩

theorem passes_eq_false_iff {v : Nat} :
    s.passes f v = false ↔ ∀ c ∈ s.conditions f, c.passes v = false := by
  rw [Bool.eq_false_iff, ne_eq, passes_iff]
  simp

theorem condition_fails (h : ¬ s.PassesAt f t) {c : Condition f} (hc : c ∈ s.conditions f) :
    c.passes (f.ofLocal (s.zone.toLocal t)) = false :=
  passes_eq_false_iff.1 (by simpa [PassesAt] using h) c hc

theorem distance?_pos (h : s.distance? t f = some d) : 0 < d := by
  obtain ⟨c, -, hc⟩ := List.mem_filterMap.1 (List.min?_eq_some_iff.1 h).1
  exact Condition.distance?_pos hc

/-- Distances are measured from values of the field only. -/
theorem admits_of_distance? (h : s.distance? t f = some d) : f.Admits (f.ofLocal (s.zone.toLocal t)) := by
  obtain ⟨c, -, hc⟩ := List.mem_filterMap.1 (List.min?_eq_some_iff.1 h).1
  exact Condition.admits_of_distance? hc

variable {here : Nat}

/-- The shortest distance does not lead past any condition, and leads to where one of them leads. -/
theorem distance?_eq_some_iff (h : s.Stands t f here) (hfail : ¬ s.PassesAt f t) :
    s.distance? t f = some d ↔
      (∃ c ∈ s.conditions f, here + d = s.landing t c) ∧ ∀ c ∈ s.conditions f, here + d ≤ s.landing t c := by
  have hdist (c : Condition f) (hc : c ∈ s.conditions f) :
      c.distance? (f.ofLocal (s.zone.toLocal t)) (s.context t) = some (s.landing t c - here) :=
    Condition.distance?_eq h (condition_fails hfail hc)
  have hmem (x : Nat) : x ∈ (s.conditions f).filterMap (fun c =>
      c.distance? (f.ofLocal (s.zone.toLocal t)) (some ⟨s.zone, t⟩)) ↔
        ∃ c ∈ s.conditions f, s.landing t c - here = x := by
    rw [List.mem_filterMap]
    exact ⟨fun ⟨c, hc, hx⟩ => ⟨c, hc, Option.some.inj ((hdist c hc).symm.trans hx)⟩,
      fun ⟨c, hc, hx⟩ => ⟨c, hc, (hdist c hc).trans (by rw [hx])⟩⟩
  have hlt (c : Condition f) : here < s.landing t c := Condition.here_lt_landing h
  rw [distance?, List.min?_eq_some_iff]
  constructor
  · rintro ⟨hd, hleast⟩
    obtain ⟨c, hc, hcd⟩ := (hmem d).1 hd
    refine ⟨⟨c, hc, by have := hlt c; omega⟩, fun c' hc' => ?_⟩
    have := hleast _ ((hmem _).2 ⟨c', hc', rfl⟩)
    have := hlt c'
    omega
  · rintro ⟨⟨c, hc, hcd⟩, hleast⟩
    refine ⟨(hmem d).2 ⟨c, hc, by omega⟩, fun b hb => ?_⟩
    obtain ⟨c', hc', rfl⟩ := (hmem b).1 hb
    have := hleast c' hc'
    omega

theorem exists_distance? (h : s.Stands t f here) (hfail : ¬ s.PassesAt f t) :
    ∃ d, s.distance? t f = some d := by
  obtain ⟨c, hc⟩ := List.exists_mem_of_ne_nil _ (s.alternatives f).ne_nil
  rw [← Option.isSome_iff_exists, distance?, List.isSome_min?_iff]
  refine List.ne_nil_of_mem (List.mem_filterMap.2 ⟨c, hc, Condition.distance?_eq h ?_⟩)
  exact condition_fails hfail hc

theorem distance?_le_length (h : s.Stands t f here) (hfail : ¬ s.PassesAt f t)
    (hd : s.distance? t f = some d) : here + d ≤ (f.values (s.context t)).length := by
  obtain ⟨⟨c, -, hc⟩, -⟩ := (distance?_eq_some_iff h hfail).1 hd
  exact hc ▸ c.landing_le_length _ _

/-- The value at the end of the distance is the next one of some condition. -/
theorem exists_nextPassing?_of_landing (h : s.Stands t f here) (hfail : ¬ s.PassesAt f t)
    (hd : s.distance? t f = some d) {v : Nat} (hv : (f.values (s.context t))[here + d]? = some v) :
    ∃ c ∈ s.conditions f, c.nextPassing? (f.ofLocal (s.zone.toLocal t)) = some v := by
  obtain ⟨⟨c, hc, he⟩, -⟩ := (distance?_eq_some_iff h hfail).1 hd
  rw [he] at hv
  obtain ⟨w, hw, hvw, -⟩ := Condition.passes_landing (List.getElem?_eq_some_iff.1 hv).1
  rw [hv] at hvw
  exact ⟨c, hc, Option.some.inj hvw ▸ hw⟩

/-- So it passes. -/
theorem passes_at_landing (h : s.Stands t f here) (hfail : ¬ s.PassesAt f t)
    (hd : s.distance? t f = some d) {v : Nat} (hv : (f.values (s.context t))[here + d]? = some v) :
    s.passes f v = true := by
  obtain ⟨c, hc, hnext⟩ := exists_nextPassing?_of_landing h hfail hd hv
  exact passes_iff.2 ⟨c, hc, (Condition.nextPassing?_eq_some_iff.1 hnext).2.2.1⟩

/-- The distance does not lead past a value that a condition lets pass, if the calendar has the next
value of that condition. -/
theorem distance?_le_of_passes (h : s.Stands t f here) (hfail : ¬ s.PassesAt f t)
    (hd : s.distance? t f = some d) {j v : Nat} (hj : (f.values (s.context t))[j]? = some v)
    (hlt : f.ofLocal (s.zone.toLocal t) < v) {c : Condition f} (hc : c ∈ s.conditions f)
    (hp : c.passes v = true)
    (hhas : ∀ w, c.nextPassing? (f.ofLocal (s.zone.toLocal t)) = some w → w ≤ v →
      w ∈ f.values (s.context t)) : here + d ≤ j :=
  Nat.le_trans (((distance?_eq_some_iff h hfail).1 hd).2 c hc) (Condition.landing_le h hj hlt hp hhas)

/-- Between a candidate and the end of its distance no value passes, if the calendar leaves no value
out in between. -/
theorem fails_before_landing (h : s.Stands t f here) (hfail : ¬ s.PassesAt f t)
    (hd : s.distance? t f = some d) {j v : Nat} (hj : (f.values (s.context t))[j]? = some v)
    (hhj : here ≤ j) (hjd : j < here + d)
    (hall : ∀ w, f.ofLocal (s.zone.toLocal t) < w → w ≤ v → w ∈ f.values (s.context t)) :
    s.passes f v = false := by
  rw [Bool.eq_false_iff]
  intro hp
  obtain ⟨c, hc, hcp⟩ := passes_iff.1 hp
  have hle := Sorted.le_of_sorted h.sorted h.value hj hhj
  have hne : f.ofLocal (s.zone.toLocal t) ≠ v := fun he =>
    hfail (by rw [PassesAt, he]; exact hp)
  have := distance?_le_of_passes h hfail hd hj (by omega) hc hcp
    fun w hw hwv => hall w (Condition.nextPassing?_eq_some_iff.1 hw).1 hwv
  omega

end Schedule
end Almanac
