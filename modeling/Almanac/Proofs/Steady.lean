import Mathlib.Order.Bounds.Basic
import Almanac.Proofs.Changes
import Almanac.Proofs.Unchanged
import Almanac.Schedule.Samples
/-!
# Zones whose clocks are never changed

Where the offset never changes a refinement goes to the start of the unit that it aims at, and leaves
no occurrence behind.

- `Zone.Steady.toLocal_moveOn`: where a refinement goes.
- `Schedule.not_occurs_before_refinement`: no occurrence lies before it.
- `Schedule.next?_of_steady`: what is found is the first occurrence, and nothing is found only when
  there is none.
-/
namespace Almanac

/-! ## Moving on -/

namespace Zone.Steady

variable {z : Zone} {f : Field} {t u l : Int} {d : Nat}

theorem toLocal_eq (hz : z.Steady) (t u : Int) : z.toLocal u = z.toLocal t + (u - t) := by
  simp only [toLocal, hz u t]
  omega

theorem toLocal_mono (hz : z.Steady) (h : t ≤ u) : z.toLocal t ≤ z.toLocal u := by
  have := hz.toLocal_eq t u
  omega

theorem unit_mono (hz : z.Steady) (f : Field) (h : t ≤ u) : f.unit (z.toLocal t) ≤ f.unit (z.toLocal u) :=
  f.unit_mono (hz.toLocal_mono h)

theorem toLocal_toInstant (hz : z.Steady) (l : Int) : z.toLocal (z.toInstant l) = l := by
  refine (toInstant_of_shown (t := l - z.shift 0) ?_).1
  rw [toLocal, hz (l - z.shift 0) 0]
  omega

theorem changesOnDay_eq_false (hz : z.Steady) (t : Int) : z.changesOnDay t = false := by
  simp only [changesOnDay, hz _ 0]
  split <;> simp

theorem toLocal_minuteStart (hz : z.Steady) (t : Int) : z.toLocal (z.minuteStart t) = 60 * (z.toLocal t / 60) := by
  rw [hz.toLocal_eq t, minuteStart_eq_sub]
  omega

theorem toLocal_hourStart (hz : z.Steady) (t : Int) : z.toLocal (z.hourStart t) = 3600 * (z.toLocal t / 3600) := by
  rw [hz.toLocal_eq t, hourStart_of_unchanged (hz _ _)]
  omega

/-- A candidate that is moved on shows the start of a later unit. -/
theorem toLocal_moveOn (hz : z.Steady) (h : z.moveOn? t f d = some u) :
    z.toLocal u = f.unitStart (f.unit (z.toLocal t) + d) := by
  cases f with
  | hour =>
    obtain ⟨-, rfl⟩ := moveOn?_hour_eq_some_iff.1 h
    rw [hz.toLocal_hourStart, hz.toLocal_eq t, Field.unitStart, Field.unit]
    omega
  | minute =>
    obtain ⟨-, rfl⟩ := moveOn?_minute_eq_some_iff.1 h
    rw [hz.toLocal_minuteStart, hz.toLocal_eq t, Field.unitStart, Field.unit]
    omega
  | second =>
    obtain ⟨-, rfl⟩ := moveOn?_second_eq_some_iff.1 h
    rw [hz.toLocal_eq t, Field.unitStart, Field.unit]
    omega
  | _ =>
    obtain ⟨day, rfl, hday⟩ := moveOn?_date (by decide) h
    rw [← hday]
    exact hz.toLocal_toInstant _

end Zone.Steady

/-! ## No occurrence is left behind -/

namespace Schedule

variable {s : Schedule} {f : Field} {t u v : Int} {d : Nat}

/-- A distance ends with a later value or where the values begin again. -/
theorem ofLocal_add_distance?_le (hz : s.zone.Steady) (hfail : ¬ s.PassesAt f t) (hd : s.distance? t f = some d) :
    f.ofLocal (s.zone.toLocal t) + d ≤ f.lastValue (s.zone.toLocal t) + 1 := by
  have hadm := admits_of_distance? hd
  have hstands : s.Stands t f _ := Field.standsAt_of_unchanged (hz.changesOnDay_eq_false t) hadm
  have hlen := distance?_le_length hstands hfail hd
  rw [Field.values_of_unchanged (hz.changesOnDay_eq_false t), Field.length_interval] at hlen
  have := hadm.1
  have := distance?_pos hd
  omega

/-- Where the first field that does not pass does pass later, the unit that its distance leads to has
begun. -/
theorem unitStart_le_of_passesAt (hz : s.zone.Steady) (hfail : ¬ s.PassesAt f t)
    (hd : s.distance? t f = some d) (htv : t ≤ v) (hp : s.PassesAt f v) :
    f.unitStart (f.unit (s.zone.toLocal t) + d) ≤ s.zone.toLocal v := by
  have hadm := admits_of_distance? hd
  have hstands : s.Stands t f _ := Field.standsAt_of_unchanged (hz.changesOnDay_eq_false t) hadm
  have hvalues := Field.values_of_unchanged (f := f) (hz.changesOnDay_eq_false t)
  have hlen := ofLocal_add_distance?_le hz hfail hd
  have hpos := distance?_pos hd
  refine Int.le_of_not_gt fun hvu => ?_
  have hlo := hz.unit_mono f htv
  have hhi : ¬ f.unitStart (f.unit (s.zone.toLocal t) + d) ≤ s.zone.toLocal v := by omega
  rw [Field.unitStart_le_iff] at hhi
  obtain ⟨k, hk⟩ := Int.le.dest hlo
  have hlow := hadm.1
  have hvalue : f.ofLocal (s.zone.toLocal v) = f.ofLocal (s.zone.toLocal t) + k :=
    Field.ofLocal_of_unit hadm hk.symm (by omega)
  have hfails := fails_before_landing hstands hfail hd
    (j := f.ofLocal (s.zone.toLocal t) - f.lowest + k) (v := f.ofLocal (s.zone.toLocal t) + k)
    (by rw [hvalues, Field.getElem?_interval]; omega) (by omega) (by omega)
    (fun w hw hwv => by rw [hvalues, Field.mem_interval]; omega)
  rw [PassesAt, hvalue, hfails] at hp
  cases hp

/-- A refinement goes forward, and the field that did not pass does not pass anywhere before it. -/
theorem fails_before_refinement (hz : s.zone.Steady) (h : s.Refines t f d u) :
    t < u ∧ ∀ v, t ≤ v → v < u → ¬ s.PassesAt f v := by
  have hpos := distance?_pos h.distance
  have hu := hz.toLocal_moveOn h.moved
  have htu := hz.toLocal_eq t u
  constructor
  · have : ¬ f.unitStart (f.unit (s.zone.toLocal t) + d) ≤ s.zone.toLocal t := by
      rw [Field.unitStart_le_iff]
      omega
    omega
  · intro v htv hvu hp
    have := unitStart_le_of_passesAt hz h.fails h.distance htv hp
    have := hz.toLocal_eq t v
    omega

/-- A pass never leaves an occurrence behind. -/
theorem not_occurs_before_refinement (hz : s.zone.Steady) {c : Int}
    (hc : c ≤ t ∧ ∀ v, c ≤ v → v < t → ¬ s.Occurs v) (h : s.Refines t f d u) :
    c ≤ u ∧ ∀ v, c ≤ v → v < u → ¬ s.Occurs v := by
  obtain ⟨hct, hbefore⟩ := hc
  obtain ⟨htu, hfails⟩ := fails_before_refinement hz h
  refine ⟨by omega, fun v hcv hvu ho => ?_⟩
  by_cases hvt : v < t
  · exact hbefore v hcv hvt ho
  · exact hfails v (by omega) hvu (ho f)

/-- There is a distance from every value of the field. -/
theorem exists_distance?_of_admits (hz : s.zone.Steady) (hadm : f.Admits (f.ofLocal (s.zone.toLocal t)))
    (hfail : ¬ s.PassesAt f t) : ∃ d, s.distance? t f = some d :=
  exists_distance? (Field.standsAt_of_unchanged (hz.changesOnDay_eq_false t) hadm : s.Stands t f _) hfail

/-- Only a year that the field does not take has no distance to a later value. -/
theorem year_of_distance?_eq_none (hz : s.zone.Steady) (hf : s.FirstFailing t f)
    (hd : s.distance? t f = none) : f = .year ∧ ¬ f.Admits (f.ofLocal (s.zone.toLocal t)) := by
  have hadm : ¬ f.Admits (f.ofLocal (s.zone.toLocal t)) := fun hadm => by
    obtain ⟨d, hd'⟩ := exists_distance?_of_admits hz hadm hf.fails
    rw [hd] at hd'
    cases hd'
  exact ⟨Decidable.byContradiction fun hne => hadm (Field.admits_ofLocal hne _), hadm⟩

/-- It lies past the last one, when years before the first one are left out. -/
theorem not_occurs_of_distance?_eq_none (hz : s.zone.Steady) (hf : s.FirstFailing t f)
    (hd : s.distance? t f = none) (hyear : 1970 ≤ (Clock.date (s.zone.toLocal t)).year) (htv : t ≤ v) :
    ¬ s.Occurs v := by
  obtain ⟨rfl, hadm⟩ := year_of_distance?_eq_none hz hf hd
  intro ho
  obtain ⟨c, hc, hp⟩ := passes_iff.1 (ho .year)
  -- a wildcard would let the year of the candidate pass
  cases c with
  | wildcard => cases condition_fails hf.fails hc
  | constrained base step hw hk =>
    have hv := Condition.admits_of_passes hp
    have hvy := Field.ofLocal_year_of_admits hv
    have hmono : (Clock.date (s.zone.toLocal t)).year ≤ (Clock.date (s.zone.toLocal v)).year :=
      hz.unit_mono .year htv
    simp only [Field.Admits, Field.lowest, Field.highest] at hv hadm
    refine hadm ?_
    rw [Field.ofLocal_year (y := (Clock.date (s.zone.toLocal t)).year.toNat) (by omega)
      (by simp only [Field.largest]; omega)]
    omega

/-! ## The result of a search -/

/-- What a pass finds is the first occurrence from its candidate on; it finds none only when there
is none, unless it begins before the years that have values. -/
theorem search_of_steady (hz : s.zone.Steady) {limit : Nat} {c : Int} {o : Option Int}
    (h : s.search limit c = .ok o) :
    (∀ m, o = some m → IsLeast {u | c ≤ u ∧ s.Occurs u} m) ∧
      (o = none → 1970 ≤ (Clock.date (s.zone.toLocal c)).year → ∀ u, c ≤ u → ¬ s.Occurs u) := by
  rcases searchFrom_ok (P := fun t => c ≤ t ∧ ∀ v, c ≤ v → v < t → ¬ s.Occurs v)
    (fun t f d u ht hr => not_occurs_before_refinement hz ht hr) h
    ⟨Int.le_refl c, fun v hcv hvc => absurd hcv (by omega)⟩ with
    ⟨m, rfl, ⟨hcm, hbefore⟩, ho⟩ | ⟨rfl, t, f, ⟨hct, hbefore⟩, hf, hd⟩
  · refine ⟨fun m' hm' => ?_, by simp⟩
    cases hm'
    refine ⟨⟨hcm, ho⟩, fun v ⟨hcv, hv⟩ => Int.le_of_not_gt fun hvm => hbefore v hcv hvm hv⟩
  · refine ⟨by simp, fun _ hyear u hcu ho => ?_⟩
    by_cases hut : u < t
    · exact hbefore u hcu hut ho
    · have hmono : (Clock.date (s.zone.toLocal c)).year ≤ (Clock.date (s.zone.toLocal t)).year :=
        hz.unit_mono .year hct
      exact not_occurs_of_distance?_eq_none hz hf hd (by omega) (by omega) ho

/-- The first occurrence after a reference is the first one, and when none is found after a reference
from 1970 on, there is none. -/
theorem next?_of_steady (hz : s.zone.Steady) (r : Timestamp) :
    (∀ t, s.next? r = .ok (some t) → IsLeast {u | r.Precedes u ∧ s.Occurs u} t) ∧
      (s.next? r = .ok none → ∃ c, s.candidateAfter r = .ok c ∧
        (1970 ≤ (Clock.date (s.zone.toLocal c)).year → ∀ u, r.Precedes u → ¬ s.Occurs u)) := by
  have hprecedes {c : Int} (hc : s.candidateAfter r = .ok c) (u : Int) : r.Precedes u ↔ c ≤ u := by
    rw [Timestamp.precedes_iff, (candidateAfter_eq_ok_iff.1 hc).1]
    omega
  constructor
  · intro t h
    obtain ⟨c, hc, hs⟩ := search_of_next? h
    simp only [hprecedes hc]
    exact (search_of_steady hz hs).1 t rfl
  · intro h
    obtain ⟨c, hc, hs⟩ := search_of_next? h
    refine ⟨c, hc, fun hyear u hu => ?_⟩
    exact (search_of_steady hz hs).2 rfl hyear u ((hprecedes hc u).1 hu)

/-- The first one of 2024, and none after 2200. -/
theorem next?_fridayThe13th :
    fridayThe13th.zone.Steady ∧
      IsLeast {u | (⟨1704067200, 5⟩ : Timestamp).Precedes u ∧ fridayThe13th.Occurs u} 1726185600 ∧
      ∀ u, (⟨7289222400, 5⟩ : Timestamp).Precedes u → ¬ fridayThe13th.Occurs u := by
  have hz : fridayThe13th.zone.Steady := fun _ _ => rfl
  refine ⟨hz, (next?_of_steady hz _).1 _ (by decide +kernel), ?_⟩
  obtain ⟨c, hc, h⟩ := (next?_of_steady hz ⟨7289222400, 5⟩).2 (by decide +kernel)
  obtain ⟨rfl, -⟩ := candidateAfter_eq_ok_iff.1 hc
  exact h (by decide +kernel)

end Schedule
end Almanac
