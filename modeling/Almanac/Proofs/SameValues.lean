import Almanac.Proofs.Steady
import Almanac.Refinement
/-!
# Conditions that let the same values pass

The conditions on a field can be written in many ways: in another order, more than once, as a list of
values, a range or a step. Where the clocks are never changed, a search depends only on the values that
they let pass together.

- `Schedule.SameValues`: two schedules that let the same values pass on the same clocks.
- `Schedule.SameValues.distance?_eq`: the shortest distance is the same, by whichever shapes it is measured.
- `Schedule.SameValues.nextLogged_eq`: so searches make the same refinements and come to the same result.
-/
namespace Almanac

theorem Field.ofLocal_le_largest (f : Field) (l : Int) : f.ofLocal l ≤ largest := by
  by_cases hf : f = .year
  · subst hf
    simp only [ofLocal]
    split <;> omega
  · have := (admits_ofLocal hf l).2
    have hhighest : f.highest ≤ largest := by cases f <;> decide
    omega

namespace Schedule

/-- The schedules have the same clocks, and in every field they let the same values pass. -/
structure SameValues (s s' : Schedule) : Prop where
  zone : s'.zone = s.zone
  passes : ∀ f v, v ≤ Field.largest → s'.passes f v = s.passes f v

namespace SameValues

variable {s s' : Schedule} {t : Int} {f : Field} {d d' : Nat}

theorem symm (h : s.SameValues s') : s'.SameValues s := ⟨h.zone.symm, fun f v hv => (h.passes f v hv).symm⟩

theorem mismatch?_eq (h : s.SameValues s') (l : Int) : s'.mismatch? l = s.mismatch? l := by
  simp only [mismatch?, h.passes _ _ (Field.ofLocal_le_largest _ _)]

/-! ## Distances -/

/-- A value at the end of the shorter distance would pass in the one schedule and not in the other. -/
theorem distance?_le (h : s.SameValues s') (hz : s.zone.Steady) (hfail : ¬ s.PassesAt f t)
    (hfail' : ¬ s'.PassesAt f t) (hd : s.distance? t f = some d) (hd' : s'.distance? t f = some d') :
    d ≤ d' := by
  obtain ⟨as', z⟩ := s'
  obtain rfl : z = s.zone := h.zone
  have hadm := admits_of_distance? hd
  have hstands : s.Stands t f _ := Field.standsAt_of_unchanged (hz.changesOnDay_eq_false t) hadm
  have hstands' : (⟨as', s.zone⟩ : Schedule).Stands t f _ := hstands
  have hvalues := Field.values_of_unchanged (f := f) (hz.changesOnDay_eq_false t)
  have hlen := distance?_le_length hstands hfail hd
  refine Nat.le_of_not_lt fun hlt => ?_
  obtain ⟨v, hv⟩ : ∃ v, (f.values (s.context t))[f.ofLocal (s.zone.toLocal t) - f.lowest + d']? = some v :=
    ⟨_, List.getElem?_eq_getElem (by omega)⟩
  have hvle := Nat.le_trans (hstands.within v (List.mem_of_getElem? hv)) (show f.highest ≤ Field.largest by
    cases f <;> decide)
  have hpass : (⟨as', s.zone⟩ : Schedule).passes f v = true := passes_at_landing hstands' hfail' hd' hv
  have hno : s.passes f v = false :=
    fails_before_landing hstands hfail hd hv (by omega) (by omega) fun w hw hwv => by
      rw [hvalues, Field.getElem?_interval] at hv
      rw [hvalues, Field.mem_interval]
      have := hadm.1
      omega
  rw [h.passes f v hvle, hno] at hpass
  cases hpass

theorem exists_distance? (h : s.SameValues s') (hz : s.zone.Steady) (hfail' : ¬ s'.PassesAt f t)
    (hd : s.distance? t f = some d) : ∃ d', s'.distance? t f = some d' := by
  have hadm := admits_of_distance? hd
  rw [← h.zone] at hadm hz
  exact exists_distance?_of_admits hz hadm hfail'

theorem distance?_eq (h : s.SameValues s') (hz : s.zone.Steady) (hfail : ¬ s.PassesAt f t)
    (hfail' : ¬ s'.PassesAt f t) : s'.distance? t f = s.distance? t f := by
  have hz' : s'.zone.Steady := h.zone ▸ hz
  cases hd : s.distance? t f with
  | some d =>
    obtain ⟨d', hd'⟩ := h.exists_distance? hz hfail' hd
    have hle := h.distance?_le hz hfail hfail' hd hd'
    have hge := h.symm.distance?_le hz' hfail' hfail hd' hd
    rw [hd', Nat.le_antisymm hge hle]
  | none =>
    cases hd' : s'.distance? t f with
    | none => rfl
    | some d' =>
      obtain ⟨d, hd''⟩ := h.symm.exists_distance? hz' hfail hd'
      rw [hd] at hd''
      cases hd''

/-! ## Searches -/

theorem verdict_eq (h : s.SameValues s') (hz : s.zone.Steady) (t : Int) : s'.verdict t = s.verdict t := by
  have hm := h.mismatch?_eq (s.zone.toLocal t)
  unfold verdict
  rw [h.zone, hm]
  cases hf : s.mismatch? (s.zone.toLocal t) with
  | none => rfl
  | some f =>
    have hfail := (firstFailing_of_mismatch? hf).fails
    have hfail' : ¬ s'.PassesAt f t := (firstFailing_of_mismatch? (by rw [h.zone, hm, hf])).fails
    simp only [h.distance?_eq hz hfail hfail']

theorem moveOn_eq (h : s.SameValues s') (t : Int) (f : Field) (d : Nat) :
    s'.moveOn t f d = s.moveOn t f d := by
  unfold moveOn
  rw [h.zone]

theorem candidateAfter_eq (h : s.SameValues s') (r : Timestamp) :
    s'.candidateAfter r = s.candidateAfter r := by
  unfold candidateAfter
  rw [h.zone]

theorem searchLoggedFrom_eq (h : s.SameValues s') (hz : s.zone.Steady) (limit left iteration : Nat)
    (t : Int) : s'.searchLoggedFrom limit left iteration t = s.searchLoggedFrom limit left iteration t := by
  induction left generalizing iteration t with
  | zero => rfl
  | succ left ih => simp only [searchLoggedFrom, h.verdict_eq hz, h.moveOn_eq, h.zone, ih]

theorem collectLogged_eq (h : s.SameValues s') (hz : s.zone.Steady) (count : Nat) (t : Int) :
    s'.collectLogged count t = s.collectLogged count t := by
  induction count generalizing t with
  | zero => rfl
  | succ count ih => simp only [collectLogged, h.searchLoggedFrom_eq hz, h.candidateAfter_eq, ih]

/-- Schedules that let the same values pass find the same occurrences by the same refinements, or fail with
the same error. -/
theorem nextLogged_eq (h : s.SameValues s') (hz : s.zone.Steady) (count : Nat) (r : Timestamp) :
    s'.nextLogged count r = s.nextLogged count r := by
  simp only [nextLogged, h.candidateAfter_eq, h.collectLogged_eq hz]

/-- From midnight on, six o'clock and noon are found in three steps each, also where they are the end of the one range
and the beginning of the other. -/
theorem nextLogged_eq_everySixthHour :
    (atHours sixthHours).SameValues (atHours sixthHoursListed) ∧ (atHours sixthHours).zone.Steady ∧
      (atHours sixthHoursListed).nextLogged 2 ⟨1704067200, 5⟩ = .ok ([1704088800, 1704110400],
        [⟨1, ⟨.utc, 1704067260⟩, .second, some 59⟩, ⟨2, ⟨.utc, 1704070800⟩, .minute, some 59⟩,
          ⟨3, ⟨.utc, 1704088800⟩, .hour, some 5⟩, ⟨1, ⟨.utc, 1704088860⟩, .second, some 59⟩,
          ⟨2, ⟨.utc, 1704092400⟩, .minute, some 59⟩, ⟨3, ⟨.utc, 1704110400⟩, .hour, some 5⟩]) := by
  have hhours (v : Nat) : sixthHoursListed.passes v = sixthHours.passes v := by
    rw [Bool.eq_iff_iff]
    simp [sixthHoursListed, sixthHours, Alternatives.passes, Condition.passes, Base.progression, Progression.contains,
      Progression.values, Progression.length, Field.highest, List.range']
    omega
  have h : (atHours sixthHours).SameValues (atHours sixthHoursListed) := ⟨rfl, fun f v _ => by
    cases f with
    | hour => exact hhours v
    | _ => rfl⟩
  have hz : (atHours sixthHours).zone.Steady := fun _ _ => rfl
  refine ⟨h, hz, (h.nextLogged_eq hz 2 _).trans ?_⟩
  decide +kernel

end SameValues
end Schedule
end Almanac
