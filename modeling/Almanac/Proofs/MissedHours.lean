import Mathlib.Logic.Relation
import Almanac.Proofs.HourSteps
import Almanac.Proofs.KnownZones
import Almanac.Proofs.PassesInTime
import Almanac.Schedule.Samples
/-!
# Searches that end early

A distance is measured from a value that the calendar has. The calendar finds hours by samples that are an hour
apart, and minutes by a walk from the start of the minute, so a change may leave out the very hour or minute that
the clocks show. From there no distance is measured, and a pass ends as if nothing came later.

- `Zone.HourMissed`, `Zone.Misses`: what is left out.
- `Zone.toLocal_sample_of_lt`, `Zone.toLocal_sample_of_le`: the samples on either side of a change.
- `Zone.ofLocal_mem_values_iff`: the value that the clocks show is one of the calendar's, or missed.
- `Schedule.search_eq_none`: a pass that finds nothing has come to a year that does not pass, or to such a value.
- `Schedule.exists_distanceChecked?_iff_of_mem_known`: all of it for the zones that have a name, within time.
-/
namespace Almanac

/-! ## Values that the calendar has -/

namespace Field

variable {f : Field} {context : Option Moment} {v : Nat}

theorem position?_eq_none_iff : f.position? context v = none ↔ v ∉ f.values context := by
  unfold position? lastPosition?
  split
  · rw [Option.map_eq_none_iff, List.idxOf?_eq_none_iff, List.mem_reverse]
  · exact List.idxOf?_eq_none_iff

end Field

/-- There is a distance from every value that the calendar has, and for the wildcard from any other too. -/
theorem Condition.exists_distance?_iff {f : Field} {c : Condition f} {current : Nat} {context : Option Moment}
    (hadm : f.Admits current) : (∃ d, c.distance? current context = some d ∧ 1 ≤ d) ↔
      c = .wildcard ∨ current ∈ f.values context := by
  constructor
  · rintro ⟨d, hd, -⟩
    by_contra hno
    rw [not_or] at hno
    rw [distance?_of_notMem hno.1 hno.2] at hd
    cases hd
  · intro h
    suffices hsome : ∃ d, c.distance? current context = some d by
      obtain ⟨d, hd⟩ := hsome
      exact ⟨d, hd, distance?_pos hd⟩
    cases c with
    | wildcard => exact ⟨1, if_pos hadm⟩
    | constrained base step hw hk =>
      have hmem := h.resolve_left (by simp)
      cases hpos : f.position? context current with
      | none => exact absurd hmem (Field.position?_eq_none_iff.1 hpos)
      | some here => exact ⟨_, by simp only [distance?, if_pos hadm, hpos, Option.map_some]; rfl⟩

namespace Zone

variable {z : Zone} {t T D : Int} {f : Field}

/-- The first sample of the date from `T` on. -/
def sampleFrom (z : Zone) (day T : Int) : Nat := ((T - z.startOfDay day + 3599) / 3600).toNat

/-- The samples before the change at `T` end before the hour of `t`, and from the change on the date is over or only
later hours are sampled. -/
structure HourMissed (z : Zone) (t T : Int) : Prop where
  seen : z.changesOnDay t = true
  change : z.ChangesAt T
  after : z.startOfDay (z.dayAt t) < T
  before : T ≤ t
  ended : z.sampleFrom (z.dayAt t) T ≤ Clock.hour (z.toLocal t)
  later : ¬ (z.dayAt (z.startOfDay (z.dayAt t) + 3600 * z.sampleFrom (z.dayAt t) T) = z.dayAt t ∧
    z.hourAt (z.dayAt t) (z.sampleFrom (z.dayAt t) T) ≤ Clock.hour (z.toLocal t))

/-- The calendar does not have the value that the clocks show in the field: the hour is passed over by the samples,
or the offset has changed since the minute began. -/
def Misses (z : Zone) (f : Field) (t : Int) : Prop :=
  match f with
  | .hour => ∃ T, z.HourMissed t T
  | .minute => z.changesOnDay t = true ∧ z.shift (z.minuteStart t) ≠ z.shift t
  | _ => False

theorem Misses.seen (h : z.Misses f t) : z.changesOnDay t = true := by
  cases f with
  | hour =>
    obtain ⟨T, hT⟩ := h
    exact hT.seen
  | minute => exact h.1
  | _ => exact h.elim

/-! ## Hours -/

theorem mem_hoursOfDay_iff {v : Nat} : v ∈ z.hoursOfDay D ↔
    ∃ k : Nat, k < 73 ∧ (∀ l : Nat, l ≤ k → z.dayAt (z.startOfDay D + 3600 * l) = D) ∧ z.hourAt D k = v := by
  rw [List.mem_iff_getElem?]
  simp only [getElem?_hoursOfDay_iff]

/-- Samples without a change since the start of the date run over every hour from its first one on. -/
theorem hour_mem_of_unchanged (hz : z.SpacedBy 259200) (hc : z.changesOnDay t = true)
    (hno : ∀ T, z.ChangesAt T → z.startOfDay (z.dayAt t) < T → ¬ T ≤ t) :
    Clock.hour (z.toLocal t) ∈ z.hoursOfDay (z.dayAt t) := by
  have hz' := hz.mono (show (172800 : Int) ≤ 259200 by decide)
  have hst := startOfDay_le_of_changesOnDay hz' hc rfl
  have hrun := toLocal_of_unchanged (z := z) hst fun v h1 h2 hv => hno v hv h1 h2
  have hday := dayAt_eq_iff_toLocal.1 (rfl : z.dayAt t = _)
  have hlow : 86400 * z.dayAt t ≤ z.toLocal (z.startOfDay (z.dayAt t)) := by
    have := le_toLocal_toInstant hz' (Clock.midnight (z.dayAt t))
    rw [← startOfDay, Clock.midnight] at this
    omega
  obtain ⟨k, hk⟩ : ∃ k : Nat, z.toLocal t / 3600 = z.toLocal (z.startOfDay (z.dayAt t)) / 3600 + k :=
    ⟨(z.toLocal t / 3600 - z.toLocal (z.startOfDay (z.dayAt t)) / 3600).toNat, by omega⟩
  have hsample (l : Nat) (hl : l ≤ k) : z.toLocal (z.startOfDay (z.dayAt t) + 3600 * l) =
      z.toLocal (z.startOfDay (z.dayAt t)) + 3600 * l := by
    have := toLocal_of_unchanged (z := z) (t := z.startOfDay (z.dayAt t))
      (u := z.startOfDay (z.dayAt t) + 3600 * l) (by omega) fun v h1 h2 hv => by
        rcases startOfDay_cases_of_changesOnDay hz' hc with hs | ⟨hs, hs'⟩
        · rw [Clock.midnight] at hs
          exact hno v hv h1 (by omega)
        · have := hz _ v (changesAt_of_toLocal (by omega)) hv h1
          omega
    omega
  refine mem_hoursOfDay_iff.2 ⟨k, by omega, fun l hl => ?_, ?_⟩
  · rw [dayAt, Clock.dayNumber, hsample l hl]
    omega
  · rw [hourAt, hsample k (Nat.le_refl k), Clock.hour_eq, Clock.hour_eq]
    omega

theorem sampleFrom_bounds (h : z.startOfDay D < T) : T ≤ z.startOfDay D + 3600 * z.sampleFrom D T ∧
    z.startOfDay D + 3600 * z.sampleFrom D T < T + 3600 := by
  rw [sampleFrom]
  omega

/-- A sample is on the date and shows the hour. -/
theorem hourAt_iff {k h : Nat} (hh : h ≤ 23) : z.dayAt (z.startOfDay D + 3600 * k) = D ∧ z.hourAt D k = h ↔
    z.toLocal (z.startOfDay D + 3600 * k) / 3600 = 24 * D + h := dayAt_and_hour_iff hh

theorem toLocal_sample_div {k : Nat} (h : z.dayAt (z.startOfDay D + 3600 * k) = D) :
    z.toLocal (z.startOfDay D + 3600 * k) / 3600 = 24 * D + z.hourAt D k :=
  (hourAt_iff (Clock.hour_le _)).1 ⟨h, rfl⟩

section Change

variable (hz : z.SpacedBy 259200) (hc : z.changesOnDay t = true) (hT : z.ChangesAt T)
  (hsT : z.startOfDay (z.dayAt t) < T) (hTt : T ≤ t)

include hz hc hT hsT hTt

/-- A date that does not begin with its change begins at midnight. -/
theorem toLocal_startOfDay : z.toLocal (z.startOfDay (z.dayAt t)) = 86400 * z.dayAt t := by
  rcases startOfDay_cases_of_changesOnDay (hz.mono (by decide)) hc with hs | ⟨hs, hs'⟩
  · rw [hs, Clock.midnight, Int.mul_comm]
  · have := hz _ T (changesAt_of_toLocal (T := z.startOfDay (z.dayAt t)) (by omega)) hT hsT
    have hday := dayAt_eq_iff_toLocal.1 (rfl : z.dayAt t = _)
    have hbt := z.toLocal_bounds t
    have hbs := z.toLocal_bounds (z.startOfDay (z.dayAt t))
    rw [Clock.midnight] at hs'
    omega

/-- Samples before the change count from midnight on. -/
theorem toLocal_sample_of_lt {k : Nat} (hk : k < z.sampleFrom (z.dayAt t) T) :
    z.toLocal (z.startOfDay (z.dayAt t) + 3600 * k) = 86400 * z.dayAt t + 3600 * k := by
  have hstart := toLocal_startOfDay hz hc hT hsT hTt
  have hday := dayAt_eq_iff_toLocal.1 (rfl : z.dayAt t = _)
  have hbt := z.toLocal_bounds t
  have hbs := z.toLocal_bounds (z.startOfDay (z.dayAt t))
  have hn := sampleFrom_bounds hsT
  have := toLocal_of_unchanged (z := z) (t := z.startOfDay (z.dayAt t))
    (u := z.startOfDay (z.dayAt t) + 3600 * k) (by omega) fun v h1 h2 hv => by
      have := hz v T hv hT (by omega)
      omega
  omega

omit hc hTt in
/-- Samples from the change on count from the first of them. -/
theorem toLocal_sample_of_le {k : Nat} (hk : z.sampleFrom (z.dayAt t) T ≤ k) (hk73 : k < 73) :
    z.toLocal (z.startOfDay (z.dayAt t) + 3600 * k) =
      z.toLocal (z.startOfDay (z.dayAt t) + 3600 * z.sampleFrom (z.dayAt t) T) +
        3600 * (k - z.sampleFrom (z.dayAt t) T) := by
  have hn := sampleFrom_bounds hsT
  have := toLocal_of_unchanged (z := z) (t := z.startOfDay (z.dayAt t) + 3600 * z.sampleFrom (z.dayAt t) T)
    (u := z.startOfDay (z.dayAt t) + 3600 * k) (by omega) fun v h1 h2 hv => by
      have := hz T v hT hv (by omega)
      omega
  omega

/-- An hour that ends before the change is sampled before it. -/
theorem hour_mem_of_lt_sampleFrom (h : Clock.hour (z.toLocal t) < z.sampleFrom (z.dayAt t) T) :
    Clock.hour (z.toLocal t) ∈ z.hoursOfDay (z.dayAt t) := by
  have hh := Clock.hour_le (z.toLocal t)
  have hon {k : Nat} (hk : k ≤ Clock.hour (z.toLocal t)) :
      z.dayAt (z.startOfDay (z.dayAt t) + 3600 * k) = z.dayAt t ∧ z.hourAt (z.dayAt t) k = k := by
    have := toLocal_sample_of_lt hz hc hT hsT hTt (k := k) (by omega)
    exact (hourAt_iff (by omega)).2 (by omega)
  exact mem_hoursOfDay_iff.2 ⟨Clock.hour (z.toLocal t), by omega, fun l hl => (hon hl).1, (hon (Nat.le_refl _)).2⟩

/-- An hour that is not over when the samples go on after the change is among those. -/
theorem hour_mem_of_sampleFrom_le
    (hday : z.dayAt (z.startOfDay (z.dayAt t) + 3600 * z.sampleFrom (z.dayAt t) T) = z.dayAt t)
    (hle : z.hourAt (z.dayAt t) (z.sampleFrom (z.dayAt t) T) ≤ Clock.hour (z.toLocal t))
    (h : z.sampleFrom (z.dayAt t) T ≤ Clock.hour (z.toLocal t)) :
    Clock.hour (z.toLocal t) ∈ z.hoursOfDay (z.dayAt t) := by
  have hh := Clock.hour_le (z.toLocal t)
  have hfirst := toLocal_sample_div hday
  have hbefore {k : Nat} (hk : k < z.sampleFrom (z.dayAt t) T) :
      z.dayAt (z.startOfDay (z.dayAt t) + 3600 * k) = z.dayAt t := by
    have := toLocal_sample_of_lt hz hc hT hsT hTt hk
    exact ((hourAt_iff (h := k) (by omega)).2 (by omega)).1
  have hafter {d : Nat} (hd : z.hourAt (z.dayAt t) (z.sampleFrom (z.dayAt t) T) + d ≤ Clock.hour (z.toLocal t)) :
      z.dayAt (z.startOfDay (z.dayAt t) + 3600 * (z.sampleFrom (z.dayAt t) T + d : Nat)) = z.dayAt t ∧
        z.hourAt (z.dayAt t) (z.sampleFrom (z.dayAt t) T + d) =
          z.hourAt (z.dayAt t) (z.sampleFrom (z.dayAt t) T) + d := by
    have := toLocal_sample_of_le hz hT hsT (k := z.sampleFrom (z.dayAt t) T + d) (by omega) (by omega)
    exact (hourAt_iff (by omega)).2 (by omega)
  obtain ⟨d, hd⟩ := Nat.exists_eq_add_of_le hle
  refine mem_hoursOfDay_iff.2 ⟨z.sampleFrom (z.dayAt t) T + d, by omega, fun l hl => ?_,
    (hafter (Nat.le_of_eq hd.symm)).2.trans hd.symm⟩
  rcases Nat.lt_or_ge l (z.sampleFrom (z.dayAt t) T) with hlt | hge
  · exact hbefore hlt
  · obtain ⟨e, rfl⟩ := Nat.exists_eq_add_of_le hge
    exact (hafter (by omega)).1

/-- With a change since the start of the date the hour is sampled before it or after it, unless it is missed. -/
theorem hour_mem_iff_of_changesAt : Clock.hour (z.toLocal t) ∈ z.hoursOfDay (z.dayAt t) ↔ ¬ z.HourMissed t T := by
  have hunit := (dayAt_and_hour_iff (z := z) (w := t) (Clock.hour_le _)).1 ⟨rfl, rfl⟩
  by_cases hsoon : Clock.hour (z.toLocal t) < z.sampleFrom (z.dayAt t) T
  · refine iff_of_true (hour_mem_of_lt_sampleFrom hz hc hT hsT hTt hsoon) fun hm => ?_
    have := hm.ended
    omega
  by_cases hlate : z.dayAt (z.startOfDay (z.dayAt t) + 3600 * z.sampleFrom (z.dayAt t) T) = z.dayAt t ∧
      z.hourAt (z.dayAt t) (z.sampleFrom (z.dayAt t) T) ≤ Clock.hour (z.toLocal t)
  · exact iff_of_true (hour_mem_of_sampleFrom_le hz hc hT hsT hTt hlate.1 hlate.2 (Nat.not_lt.1 hsoon))
      fun hm => hm.later hlate
  · refine iff_of_false (fun hmem => ?_) fun hno => hno ⟨hc, hT, hsT, hTt, Nat.not_lt.1 hsoon, hlate⟩
    obtain ⟨k, hk73, hon, hk⟩ := mem_hoursOfDay_iff.1 hmem
    have hsample := toLocal_sample_div (hon k (Nat.le_refl k))
    rcases Nat.lt_or_ge k (z.sampleFrom (z.dayAt t) T) with hlt | hge
    · have := toLocal_sample_of_lt hz hc hT hsT hTt hlt
      omega
    · have := toLocal_sample_of_le hz hT hsT hge hk73
      have hfirst := toLocal_sample_div (hon _ hge)
      exact hlate ⟨hon _ hge, by omega⟩

end Change

theorem hour_mem_values_iff (hz : z.SpacedBy 259200) :
    Clock.hour (z.toLocal t) ∈ Field.hour.values (some ⟨z, t⟩) ↔ ¬ ∃ T, z.HourMissed t T := by
  cases hc : z.changesOnDay t with
  | false =>
    rw [Field.values_of_unchanged hc]
    refine iff_of_true (Field.mem_interval.2 (Field.ofLocal_bounds (f := .hour) (by decide) _)) ?_
    rintro ⟨T, hT⟩
    rw [hT.seen] at hc
    cases hc
  | true =>
    rw [Field.values_hour_of_seen hc]
    by_cases hch : ∃ T, z.ChangesAt T ∧ z.startOfDay (z.dayAt t) < T ∧ T ≤ t
    · obtain ⟨T, hT, hsT, hTt⟩ := hch
      rw [hour_mem_iff_of_changesAt hz hc hT hsT hTt]
      refine not_congr ⟨fun hm => ⟨T, hm⟩, ?_⟩
      rintro ⟨T', hm⟩
      -- the date is too short for two changes
      have hb := z.toLocal_bounds t
      have hs := z.toInstant_bounds (Clock.midnight (z.dayAt t))
      have hday := dayAt_eq_iff_toLocal.1 (rfl : z.dayAt t = _)
      rw [← startOfDay, Clock.midnight] at hs
      have h1 := hm.after
      have h2 := hm.before
      obtain rfl := hz.eq_of_near hT hm.change (by omega) (by omega)
      exact hm
    · refine iff_of_true (hour_mem_of_unchanged hz hc fun T hT h1 h2 => hch ⟨T, hT, h1, h2⟩) ?_
      rintro ⟨T, hm⟩
      exact hch ⟨T, hm.change, hm.after, hm.before⟩

/-! ## Minutes -/

/-- The walk back passes minutes of the hour only, so it comes by the minute that it has begun in. -/
theorem minute_mem_of_shift_eq (h : z.shift (z.minuteStart t) = z.shift t) :
    Clock.minute (z.toLocal t) ∈ z.minutesOfHour t := by
  obtain ⟨k, hk, hk60, hsame⟩ := exists_firstMinute h
  have hm := z.minuteStart_eq_sub t
  have hget := getElem?_takeWhile_map_range (g := fun i : Nat => z.firstMinute t + 60 * i) hk60 hsame
  refine List.mem_map.2 ⟨_, List.mem_of_getElem? hget, ?_⟩
  rw [show z.firstMinute t + 60 * (k : Int) = z.minuteStart t by omega, Clock.minute_eq, Clock.minute_eq]
  simp only [toLocal, h] at *
  omega

/-- Where the offset has changed since the minute began, no minute is found. -/
theorem minutesOfHour_eq_nil (hz : z.SpacedBy 172800) (h : z.shift (z.minuteStart t) ≠ z.shift t) :
    z.minutesOfHour t = [] := by
  have hm := z.minuteStart_bounds t
  obtain ⟨T, hlo, hhi, hch⟩ := exists_changesAt hm.2 h
  have hstart := toLocal_before hz hch (t := z.minuteStart t) (by omega) hlo
  have hback := toLocal_before hz hch (t := z.minuteStart t - 60) (by omega) (by omega)
  have hfirst : z.firstMinute t = z.minuteStart t := by
    rw [firstMinute, backWithinHour, if_neg]
    intro hsame
    have := (sameHour_iff.1 hsame).2
    simp only [toLocal] at hstart hback
    omega
  have hother : z.sameHour t (z.minuteStart t + 60 * ((0 : Nat) : Int)) = false := by
    rw [Bool.eq_false_iff]
    intro hsame
    exact h (by simpa using (sameHour_iff.1 hsame).2)
  rw [minutesOfHour, hfirst,
    takeWhile_map_range (n := 0) (by decide) (fun i hi => absurd hi (Nat.not_lt_zero i)) fun _ => hother]
  rfl

theorem minute_mem_values_iff (hz : z.SpacedBy 172800) :
    Clock.minute (z.toLocal t) ∈ Field.minute.values (some ⟨z, t⟩) ↔
      ¬ (z.changesOnDay t = true ∧ z.shift (z.minuteStart t) ≠ z.shift t) := by
  cases hc : z.changesOnDay t with
  | false =>
    rw [Field.values_of_unchanged hc]
    exact iff_of_true (Field.mem_interval.2 (Field.ofLocal_bounds (f := .minute) (by decide) _))
      fun hm => Bool.false_ne_true hm.1
  | true =>
    rw [Field.values_minute_of_seen hc]
    by_cases hs : z.shift (z.minuteStart t) = z.shift t
    · exact iff_of_true (minute_mem_of_shift_eq hs) fun hm => hm.2 hs
    · rw [minutesOfHour_eq_nil hz hs]
      exact iff_of_false List.not_mem_nil fun hno => hno ⟨rfl, hs⟩

/-- The value that the clocks show is one that the calendar has, or it is missed. -/
theorem ofLocal_mem_values_iff (hz : z.SpacedBy 259200) (hf : f ≠ .year) :
    f.ofLocal (z.toLocal t) ∈ f.values (some ⟨z, t⟩) ↔ ¬ z.Misses f t := by
  have hbounds := Field.ofLocal_bounds hf (z.toLocal t)
  cases f with
  | year => exact absurd rfl hf
  | hour => exact hour_mem_values_iff hz
  | minute => exact minute_mem_values_iff (hz.mono (by decide))
  | _ => exact iff_of_true (Field.mem_interval.2 hbounds) id

end Zone

/-- Where the clocks are left alone near the ends of time: there is a distance from the value that they show unless it
is missed, or the calendar cannot be looked at. -/
theorem Condition.exists_distanceChecked?_iff_misses {f : Field} {c : Condition f} {z : Zone} {t : Int}
    (hz : z.SpacedBy 259200) (hcalm : z.CalmAtEnds) (hf : f ≠ .year) (ht : Clock.InTime t) :
    (∃ d, c.distanceChecked? (f.ofLocal (z.toLocal t)) (some ⟨z, t⟩) = .ok (some d) ∧ 1 ≤ d) ↔
      c = .wildcard ∨ ¬ z.Misses f t ∧ (f = .hour ∨ f = .minute → z.OnCalendar t) := by
  have hadm := Field.admits_ofLocal hf (z.toLocal t)
  by_cases hon : f = .hour ∨ f = .minute → z.OnCalendar t
  · rw [and_iff_left hon, ← Zone.ofLocal_mem_values_iff hz hf, ← exists_distance?_iff hadm]
    simp only [distanceChecked?_eq hcalm ht hon, Except.ok.injEq]
  · constructor
    · rintro ⟨d, hd, -⟩
      obtain ⟨hclock, hoff⟩ := Classical.not_imp.1 hon
      rcases (exists_distanceChecked?_iff_onCalendar (by simpa using ht) (by simpa using hcalm)).1 ⟨_, hd⟩ with
        hwild | hno | ⟨hhour, hminute⟩ | hcal
      · exact .inl hwild
      · exact absurd hadm hno
      · exact absurd hclock (not_or.2 ⟨hhour, hminute⟩)
      · exact absurd (hcal _ rfl) hoff
    · rintro (rfl | ⟨-, hcal⟩)
      · exact ⟨1, if_pos hadm, Nat.le_refl 1⟩
      · exact absurd hcal hon

/-! ## Passes -/

namespace Schedule

variable {s : Schedule} {t : Int} {f : Field} {limit : Nat}

/-- Refinements lead from one candidate to the other. -/
def Leads (s : Schedule) : Int → Int → Prop := Relation.ReflTransGen fun t u => ∃ f d, s.Refines t f d u

/-- The first field that does not pass has no distance exactly if the calendar misses its value. -/
theorem FirstFailing.distance?_eq_none_iff (hz : s.zone.SpacedBy 259200) (hf : s.FirstFailing t f)
    (hyear : f ≠ .year) : s.distance? t f = none ↔ s.zone.Misses f t := by
  have hadm : f.Admits (f.ofLocal (s.zone.toLocal t)) := Field.admits_ofLocal hyear _
  have hmem := Zone.ofLocal_mem_values_iff (t := t) hz hyear
  have hiff (c : Condition f) (hc : c ∈ s.conditions f) :
      c.distance? (f.ofLocal (s.zone.toLocal t)) (some ⟨s.zone, t⟩) = none ↔ s.zone.Misses f t := by
    have hwild : c ≠ .wildcard := fun hw => hf.fails (passesAt_of_wildcard (hw ▸ hc))
    have hdist : (∃ d, c.distance? _ (some ⟨s.zone, t⟩) = some d ∧ 1 ≤ d) ↔ _ := Condition.exists_distance?_iff hadm
    rw [hmem, or_iff_right hwild] at hdist
    cases hd : c.distance? (f.ofLocal (s.zone.toLocal t)) (some ⟨s.zone, t⟩) with
    | none =>
      refine iff_of_true rfl (Classical.not_not.1 fun hno => ?_)
      obtain ⟨d, hd', -⟩ := hdist.2 hno
      rw [hd] at hd'
      cases hd'
    | some d => exact iff_of_false (by simp) (hdist.1 ⟨d, hd, Condition.distance?_pos hd⟩)
  rw [distance?, List.min?_eq_none_iff, List.filterMap_eq_nil_iff]
  obtain ⟨c, hc⟩ := List.exists_mem_of_ne_nil _ (s.alternatives f).ne_nil
  exact ⟨fun h => (hiff c hc).1 (h c hc), fun h c hc => (hiff c hc).2 h⟩

/-- A pass that finds nothing has come to a candidate whose year does not pass, or whose hour or minute the calendar
misses. -/
theorem search_eq_none (hz : s.zone.SpacedBy 259200) (h : s.search limit t = .ok none) :
    ∃ u f, s.Leads t u ∧ s.FirstFailing u f ∧ (f = .year ∨ s.zone.Misses f u) := by
  rcases searchFrom_ok (P := s.Leads t) (fun u f d v hu hr => hu.tail ⟨f, d, hr⟩) h .refl with
    ⟨m, hm, -⟩ | ⟨-, u, f, hu, hf, hd⟩
  · cases hm
  · by_cases hyear : f = .year
    · exact ⟨u, f, hu, hf, .inl hyear⟩
    · exact ⟨u, f, hu, hf, .inr ((hf.distance?_eq_none_iff hz hyear).1 hd)⟩

/-- Changes are seen far from the ends of time only, so a pass that begins at such an hour or minute comes to its end,
and finds nothing. -/
theorem searchChecked_of_misses (hz : s.zone.SpacedBy 259200) (hcalm : s.zone.CalmAtEnds) (ht : Clock.InTime t)
    (hf : s.FirstFailing t f) (hm : s.zone.Misses f t) : s.searchChecked (limit + 1) t = .ok (.ok none) := by
  have hyear : f ≠ .year := by
    rintro rfl
    exact hm
  obtain ⟨hlo, hhi⟩ := hcalm.not_near_of_changesOnDay hm.seen
  have hon : s.zone.OnCalendar t := Zone.onCalendar_of_date (by omega) (by omega)
  simp only [searchChecked, searchCheckedFrom, hf.mismatch?_eq, distanceChecked?_eq hcalm ht hon, bind_ok,
    (hf.distance?_eq_none_iff hz hyear).2 hm]
  rfl

/-- In a zone with a name: every condition of a field but the year has a distance of one or more from the value that
the clocks show, except where the calendar misses this value or, for the hour and the minute, cannot be looked at, and
the condition is no wildcard. A pass ends without an occurrence only at a year that does not pass or at a value that is
missed, and at such a value it does. -/
theorem exists_distanceChecked?_iff_of_mem_known {z : Zone} (hz : z ∈ Zone.known) :
    (∀ (f : Field) (c : Condition f) (t : Int), f ≠ .year → Clock.InTime t →
      ((∃ d, c.distanceChecked? (f.ofLocal (z.toLocal t)) (some ⟨z, t⟩) = .ok (some d) ∧ 1 ≤ d) ↔
        c = .wildcard ∨ ¬ z.Misses f t ∧ (f = .hour ∨ f = .minute → z.OnCalendar t))) ∧
    ∀ (s : Schedule) (t : Int), s.zone = z → Clock.InTime t →
      (∀ limit, s.searchChecked limit t = .ok (.ok none) →
        ∃ u f, s.Leads t u ∧ s.FirstFailing u f ∧ (f = .year ∨ z.Misses f u)) ∧
      ∀ f limit, s.FirstFailing t f → z.Misses f t → s.searchChecked (limit + 1) t = .ok (.ok none) := by
  have hspaced := Zone.spacedBy_of_mem_known hz
  have hcalm := Zone.calmAtEnds_of_mem_known hz
  refine ⟨fun f c t hf ht => Condition.exists_distanceChecked?_iff_misses hspaced hcalm hf ht, ?_⟩
  rintro s t rfl ht
  exact ⟨fun limit h => search_eq_none hspaced (search_of_checked ht h).1,
    fun f limit hf hm => searchChecked_of_misses hspaced hcalm ht hf hm⟩

/-- At half past three on the date that left out 00:01 to 01:01 the hour is found, and every condition has a distance
from it. -/
theorem exists_distanceChecked?_iff_of_mem_known_stJohns :
    Zone.stJohns ∈ Zone.known ∧ Field.hour ≠ .year ∧ Clock.InTime 607500000 ∧ Zone.stJohns.OnCalendar 607500000 ∧
      ¬ Zone.stJohns.Misses .hour 607500000 ∧
      ∀ c : Condition .hour, ∃ d, c.distanceChecked? 3 (some ⟨.stJohns, 607500000⟩) = .ok (some d) ∧ 1 ≤ d := by
  have hz : Zone.stJohns ∈ Zone.known := by simp [Zone.known, Zone.americaZones]
  obtain ⟨hvalue, hfive, ht, hlo, hhi⟩ : Field.hour.ofLocal (Zone.stJohns.toLocal 607500000) = 3 ∧
      (Condition.constrained (.value 5) none (by decide) Field.hour.admitsStep_none).distanceChecked? 3
        (some ⟨.stJohns, 607500000⟩) = .ok (some 2) ∧ Clock.InTime 607500000 ∧
      Clock.firstDay < Zone.stJohns.dayAt 607500000 ∧ Zone.stJohns.dayAt 607500000 ≤ Clock.lastDay := by
    decide +kernel
  have hon := Zone.onCalendar_of_date hlo hhi
  have h (c : Condition .hour) :=
    (exists_distanceChecked?_iff_of_mem_known hz).1 .hour c 607500000 (by decide) ht
  rw [hvalue] at h
  obtain ⟨hfound, -⟩ := ((h _).1 ⟨2, hfive, by decide⟩).resolve_left (by simp)
  exact ⟨hz, by decide, ht, hon, hfound, fun c => (h c).2 (.inr ⟨hfound, fun _ => hon⟩)⟩

/-- Earlier on this date the samples go from midnight to two o'clock. At half past one no hour is found, and the pass
that looks for five o'clock ends without it, though the year passes and five o'clock is to come. -/
theorem not_exists_distanceChecked?_stJohns :
    Zone.stJohns ∈ Zone.known ∧
      (∀ c ∈ (daily .stJohns 5 0).conditions .hour,
        c.distanceChecked? (Field.hour.ofLocal (Zone.stJohns.toLocal 607492800))
          (some ⟨.stJohns, 607492800⟩) = .ok none) ∧
      (daily .stJohns 5 0).PassesAt .year 607492800 ∧
      (daily .stJohns 5 0).searchChecked passLimit 607492800 = .ok (.ok none) ∧
      607492800 ≤ 607505400 ∧ (daily .stJohns 5 0).Occurs 607505400 := by
  refine ⟨by simp [Zone.known, Zone.americaZones], ?_⟩
  decide +kernel

end Schedule
end Almanac
