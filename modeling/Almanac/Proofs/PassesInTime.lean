import Almanac.Proofs.Ends
/-!
# Passes within time

A candidate is moved on to a later date, or by an hour, a minute or a second at least, so that all it takes is the
date that it starts from. A pass whose candidates stay on the calendar therefore comes to its end, with the answer
of the plain one.

- `Zone.moveOnChecked?_eq`: moving on.
- `Schedule.distanceChecked?_eq`: the shortest distance of a field.
- `Schedule.searchCheckedFrom_eq`: a pass.
-/
namespace Almanac

open Clock (InTime)

/-! ## Moving on -/

namespace Zone

variable {z : Zone} {t day : Int} {f : Field} {d : Nat}

theorem startOfDayChecked?_eq (hlo : Clock.firstDay < day) :
    z.startOfDayChecked? day = .ok (z.startOfDay? day) := by
  unfold startOfDayChecked? startOfDay?
  by_cases hhi : day ≤ Clock.lastDay
  · rw [if_pos hhi, if_pos hhi, startOfDayChecked_eq hlo hhi, bind_ok]
    rfl
  · rw [if_neg hhi, if_neg hhi]

/-- The full hour is shown where the walk back would come to the beginning of time. -/
theorem hourStartChecked_eq (hz : z.CalmAtEnds) (hlo : Clock.firstInstant + 3600 ≤ t) (hhi : t ≤ Clock.lastInstant) :
    z.hourStartChecked t = .ok (z.hourStart t) := by
  have hm := z.minuteStart_bounds t
  have hfirst := z.firstMinute_bounds t
  have hfull : z.minuteStart t - 60 * Clock.minute (z.toLocal t) = t - z.toLocal t % 3600 := by
    rw [minuteStart_eq_sub, Clock.minute_eq]
    omega
  rw [hourStartChecked, minuteStartChecked, Clock.checked_of_inTime ⟨by omega, by omega⟩, bind_ok, hfull,
    Clock.checked_of_inTime ⟨by omega, by omega⟩, bind_ok, hourStart_eq_ite]
  by_cases hs : z.ShowsFullHour t
  · rw [if_pos hs]
    exact if_pos hs
  · rw [if_neg hs]
    refine (if_neg hs).trans (backWithinHourChecked_eq (Int.le_of_not_gt fun hnear => hs ?_) (by omega))
    rw [← firstMinute] at hnear
    exact showsFullHour_of_unchanged (hz.shift_of_early (by omega) (by omega))

/-- For a field of the date the candidate is moved on to a later date. -/
theorem moveOnChecked?_date (hf : f.index < Field.hour.index) (hin : InTime (z.toLocal t)) :
    ∃ day, z.moveOnChecked? t f d = z.startOfDayChecked? day ∧
      Clock.midnight day = f.unitStart (f.unit (z.toLocal t) + d) := by
  have hv : (Clock.date (z.toLocal t)).Valid := Date.valid_ofDayNumber _
  rw [moveOnChecked?, Clock.checked_of_inTime hin, bind_ok]
  cases f with
  | year => exact ⟨_, rfl, by rw [Date.dayNumber_yearsLater]; rfl⟩
  | month => exact ⟨_, rfl, by rw [Date.dayNumber_monthsLater hv]; rfl⟩
  | dayOfMonth | dayOfWeek => exact ⟨_, rfl, rfl⟩
  | _ => simp [Field.index] at hf

theorem exists_moveOnChecked? (hz : z.CalmAtEnds) (ht : InTime t) (hin : InTime (z.toLocal t)) (hd : 0 < d) :
    ∃ o, z.moveOnChecked? t f d = .ok o := by
  by_cases hf : f.index < Field.hour.index
  · obtain ⟨day, he, hday⟩ := z.moveOnChecked?_date (d := d) hf hin
    have hfirst := (Clock.inTime_iff_dayNumber.1 hin).1
    have hlater : Clock.dayNumber (z.toLocal t) < day := Int.lt_of_not_ge fun hle => by
      have hstart := Field.midnight_le_iff.2 hle
      rw [hday, Field.unitStart_le_iff] at hstart
      omega
    exact ⟨_, he.trans (startOfDayChecked?_eq (by omega))⟩
  · obtain ⟨hlo, hhi⟩ := ht
    rw [moveOnChecked?, Clock.checked_of_inTime hin, bind_ok]
    cases f with
    | hour =>
      cases hv : Clock.within? (t + 3600 * d) with
      | none => exact ⟨_, rfl⟩
      | some v =>
        obtain ⟨hle, rfl⟩ := Clock.within?_eq_some_iff.1 hv
        exact ⟨some _, by simp only [Option.mapM_some, hourStartChecked_eq hz (by omega) hle]; rfl⟩
    | minute =>
      cases hv : Clock.within? (t + 60 * d) with
      | none => exact ⟨_, rfl⟩
      | some v =>
        obtain ⟨hle, rfl⟩ := Clock.within?_eq_some_iff.1 hv
        have hm := z.minuteStart_bounds (t + 60 * d)
        have hstart : z.minuteStartChecked (t + 60 * d) = .ok (z.minuteStart (t + 60 * d)) :=
          Clock.checked_of_inTime ⟨by omega, by omega⟩
        exact ⟨some _, by simp only [Option.mapM_some, hstart]; rfl⟩
    | second => exact ⟨_, rfl⟩
    | _ => exact absurd (by decide) hf

theorem moveOnChecked?_eq (hz : z.CalmAtEnds) (ht : InTime t) (hin : InTime (z.toLocal t)) (hd : 0 < d) :
    z.moveOnChecked? t f d = .ok (z.moveOn? t f d) := by
  obtain ⟨o, ho⟩ := exists_moveOnChecked? (f := f) hz ht hin hd
  rw [ho, (moveOn?_of_checked ht ho).1]

end Zone

/-! ## Passes -/

namespace Schedule

variable {s : Schedule} {t : Int} {f : Field} {limit left : Nat}

theorem distanceChecked?_eq (hz : s.zone.CalmAtEnds) (ht : InTime t) (h : s.zone.OnCalendar t) :
    s.distanceChecked? t f = .ok (s.distance? t f) := by
  have hall : ∃ r, s.distanceChecked? t f = .ok r := by
    simp only [distanceChecked?, Condition.distanceChecked?_eq hz ht fun _ => h]
    exact ⟨_, congrArg (· >>= _) List.mapM_pure⟩
  obtain ⟨r, hr⟩ := hall
  rw [hr, distance?_of_checked ht.2 hr]

/-- A pass whose candidates stay on the calendar comes to its end. -/
theorem searchCheckedFrom_eq {P : Int → Prop} (hz : s.zone.CalmAtEnds)
    (hP : ∀ t, P t → InTime t ∧ s.zone.OnCalendar t) (hstep : ∀ t f d u, P t → s.Refines t f d u → P u) (ht : P t) :
    s.searchCheckedFrom limit left t = .ok (s.searchFrom limit left t) := by
  induction left generalizing t with
  | zero => rfl
  | succ left ih =>
    obtain ⟨hin, hon⟩ := hP t ht
    unfold searchCheckedFrom searchFrom verdict
    cases hm : s.mismatch? (s.zone.toLocal t) with
    | none => rfl
    | some f =>
      simp only [distanceChecked?_eq hz hin hon, bind_ok]
      cases hd : s.distance? t f with
      | none => rfl
      | some d =>
        simp only [Zone.moveOnChecked?_eq hz hin hon.1 (distance?_pos hd), bind_ok, moveOn]
        cases hu : s.zone.moveOn? t f d with
        | none => rfl
        | some u => exact ih (hstep t f d u ht ⟨firstFailing_of_mismatch? hm, hd, hu⟩)

end Schedule
end Almanac
