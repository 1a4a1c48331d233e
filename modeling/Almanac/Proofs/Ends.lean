import Almanac.Proofs.Checked
import Almanac.Proofs.DistanceLaw
/-!
# Near the ends of time

How far the checked functions go. Looking at the calendar around an instant means looking at the
second before its date and at the start of the next one, so it takes a date that is neither the
first one nor past the last one. Offsets are less than a day, and everything else that is looked at
is nearer.

- `Zone.changesOnDayChecked_eq`: on such dates a change is seen as it is without ends of time.
- `Zone.OnCalendar`, `Zone.exists_changesOnDayChecked_iff`: where clocks are left alone near the ends, the instants
  around which the calendar can be looked at.
- `Field.exists_valuesChecked`, `Condition.distanceChecked?_eq`: there values are found, and the distance is the
  plain one.
- `Condition.distanceChecked?_spec`: the law of the distance, and where the program ends instead.
-/
namespace Almanac

open Clock (InTime)

namespace Zone

variable {z : Zone} {t u v l day : Int} {n : Nat}

/-! ## Local times -/

theorem toInstantChecked_eq (hlo : Clock.firstInstant + 86400 ≤ l) (hhi : l + 86400 ≤ Clock.lastInstant + 1) :
    z.toInstantChecked l = .ok (z.toInstant l) := by
  have hb := z.toInstant_bounds l
  have hin : InTime (z.toInstant l) := ⟨by omega, by omega⟩
  cases hu : z.toInstant? l with
  | some u =>
    have hto : z.toInstant l = u := by rw [toInstant, hu, Option.getD_some]
    rw [hto] at hin ⊢
    exact toInstantChecked_of_shown hu hin
  | none => exact (toInstantChecked_eq_ok_iff_of_gap hu).2 ⟨⟨by omega, by omega⟩, hin, rfl⟩

theorem startOfDayChecked_eq (hlo : Clock.firstDay < day) (hhi : day ≤ Clock.lastDay) :
    z.startOfDayChecked day = .ok (z.startOfDay day) := by
  refine toInstantChecked_eq ?_ ?_
  all_goals
    simp only [Clock.firstInstant, Clock.lastInstant, Clock.midnight]
    omega

/-- A repeat is told from the instant that shows its local time first. -/
theorem exists_isRepeatChecked_iff (ht : InTime t) :
    (∃ b, z.isRepeatChecked t = .ok b) ↔ InTime (z.toLocal t) ∧ InTime (z.toInstant (z.toLocal t)) := by
  constructor
  · rintro ⟨b, h⟩
    obtain ⟨l, hl, h⟩ := ok_of_bind h
    obtain ⟨hin, rfl⟩ := Clock.checked_eq_ok_iff.1 hl
    obtain ⟨first, hfirst, -⟩ := ok_of_bind h
    obtain ⟨hin', rfl⟩ := toInstant_of_checked (fun u hu =>
      Int.le_trans ((toInstant?_eq_some_iff.1 hu).2 t rfl) ht.2) hfirst
    exact ⟨hin, hin'⟩
  · rintro ⟨hin, hin'⟩
    have hfirst : z.toInstant? (z.toLocal t) = some (z.toInstant (z.toLocal t)) :=
      toInstant?_eq_some_iff.2 (toInstant_of_shown rfl)
    rw [isRepeatChecked, Clock.checked_of_inTime hin, bind_ok, toInstantChecked_of_shown hfirst hin', bind_ok]
    exact ⟨_, rfl⟩

theorem exists_isRepeatChecked (ht : InTime t) (hlo : Clock.firstDay < z.dayAt t) (hhi : z.dayAt t ≤ Clock.lastDay) :
    ∃ b, z.isRepeatChecked t = .ok b := by
  have hb := z.toInstant_bounds (z.toLocal t)
  have hle := (toInstant_of_shown (z := z) (t := t) rfl).2 t rfl
  have hlast := ht.2
  refine (exists_isRepeatChecked_iff ht).2 ⟨Clock.inTime_iff_dayNumber.2 ⟨Int.le_of_lt hlo, hhi⟩, ?_, by omega⟩
  simp only [Clock.firstInstant, Clock.midnight, dayAt, Clock.dayNumber] at *
  omega

/-! ## Days with a change -/

theorem changesOnDayChecked_eq (hlo : Clock.firstDay < z.dayAt t) (hhi : z.dayAt t ≤ Clock.lastDay) :
    z.changesOnDayChecked t = .ok (z.changesOnDay t) := by
  have hday : z.dayAtChecked t = .ok (z.dayAt t) :=
    dayAtChecked_eq_ok_iff.2 ⟨Clock.inTime_iff_dayNumber.2 ⟨Int.le_of_lt hlo, hhi⟩, rfl⟩
  rw [changesOnDayChecked, hday, bind_ok, changesOnDay]
  by_cases hlast : z.dayAt t < Clock.lastDay
  · have hs := z.toInstant_bounds (Clock.midnight (z.dayAt t))
    have hs' := z.toInstant_bounds (Clock.midnight (z.dayAt t + 1))
    rw [← startOfDay] at hs hs'
    have hbefore : InTime (z.startOfDay (z.dayAt t) - 1) ∧ InTime (z.startOfDay (z.dayAt t + 1) - 1) := by
      simp only [InTime, Clock.firstInstant, Clock.lastInstant, Clock.midnight] at *
      omega
    rw [if_pos hlast, if_pos hlast, startOfDayChecked_eq hlo hhi, bind_ok,
      startOfDayChecked_eq (by omega) (by omega), bind_ok, Clock.checked_of_inTime hbefore.2, bind_ok,
      Clock.checked_of_inTime hbefore.1, bind_ok]
    rfl
  · rw [if_neg hlast, if_neg hlast]
    rfl

/-- Looks that can be made, as long as the test holds, come to an end. -/
theorem exists_valuesWhile {step : Int} {look : Int → Except Clock.OutOfTime (Option Nat)} {p : Int → Bool}
    (hlook : ∀ u o, look u = .ok o → o ≠ none → p u = true)
    (h : ∀ i : Nat, i < n → (∀ j : Nat, j < i → p (t + step * j) = true) →
      (∃ o, look (t + step * i) = .ok o) ∧ (p (t + step * i) = true → InTime (t + step * i + step))) :
    ∃ vs, valuesWhile step look n t = .ok vs := by
  induction n generalizing t with
  | zero => exact ⟨[], rfl⟩
  | succ n ih =>
    obtain ⟨⟨o, ho⟩, hnext⟩ := h 0 (Nat.succ_pos n) fun j hj => absurd hj (Nat.not_lt_zero j)
    simp only [Nat.cast_zero, Int.mul_zero, Int.add_zero] at ho hnext
    cases o with
    | none => exact ⟨[], by rw [valuesWhile, ho]; rfl⟩
    | some v =>
      have hp := hlook t _ ho (by simp)
      have hshift (i : Nat) : t + step + step * i = t + step * ((i + 1 : Nat) : Int) := by
        rw [Nat.cast_succ, Int.mul_add, Int.mul_one]
        omega
      obtain ⟨rest, hrest⟩ := ih (t := t + step) fun i hi hbefore => by
        rw [hshift]
        refine h (i + 1) (by omega) fun j hj => ?_
        cases j with
        | zero => simpa using hp
        | succ j => exact hshift j ▸ hbefore j (by omega)
      refine ⟨v :: rest, ?_⟩
      rw [valuesWhile, ho, bind_ok]
      simp only [Clock.checked_of_inTime (hnext hp), bind_ok, hrest]
      rfl

/-- The hours of a date are found if all samples of it, and the first one after it, can be looked at. -/
theorem exists_hoursOfDayChecked (hlo : Clock.firstDay < day) (hhi : day ≤ Clock.lastDay)
    (h : ∀ i : Nat, i < 73 → (∀ j : Nat, j < i → z.dayAt (z.startOfDay day + 3600 * j) = day) →
      InTime (z.toLocal (z.startOfDay day + 3600 * i)) ∧
        (z.dayAt (z.startOfDay day + 3600 * i) = day → InTime (z.startOfDay day + 3600 * i + 3600))) :
    ∃ vs, z.hoursOfDayChecked day = .ok vs := by
  rw [hoursOfDayChecked, startOfDayChecked_eq hlo hhi, bind_ok]
  refine exists_valuesWhile (p := fun u => z.dayAt u == day) (fun u o ho hne => ?_) fun i hi hbefore => ?_
  · rw [hourOnDay_of_checked ho] at hne
    by_contra hp
    exact hne (if_neg hp)
  · obtain ⟨hlocal, hnext⟩ := h i hi fun j hj => by simpa using hbefore j hj
    refine ⟨?_, fun hp => hnext (by simpa using hp)⟩
    rw [hourOnDayChecked, dayAtChecked_eq_ok_iff.2 ⟨hlocal, rfl⟩, bind_ok]
    exact ⟨_, rfl⟩

/-! ## Hours with a change -/

theorem backWithinHour_le (z : Zone) (t : Int) (n : Nat) (u : Int) : z.backWithinHour t n u ≤ u := by
  obtain ⟨k, -, hk, -⟩ := z.exists_backWithinHour_eq t n u
  omega

/-- Besides the minutes that it passes, a walk back looks at the one before. -/
theorem backWithinHourChecked_eq (hlo : Clock.firstInstant + 60 ≤ z.backWithinHour t n u)
    (hu : u ≤ Clock.lastInstant) : z.backWithinHourChecked t n u = .ok (z.backWithinHour t n u) := by
  induction n generalizing u with
  | zero => rfl
  | succ n ih =>
    have hle := z.backWithinHour_le t (n + 1) u
    rw [backWithinHourChecked, Clock.checked_of_inTime ⟨by omega, by omega⟩, bind_ok]
    unfold backWithinHour at hlo ⊢
    by_cases hs : z.sameHour t (u - 60) = true
    · rw [if_pos hs] at hlo ⊢
      rw [if_pos hs]
      exact ih hlo (by omega)
    · rw [if_neg hs, if_neg hs]
      rfl

theorem exists_minutesOfHourChecked (ht : t ≤ Clock.lastInstant) (hlo : Clock.firstInstant + 60 ≤ z.firstMinute t)
    (h : ∀ i : Nat, i < 60 → (∀ j : Nat, j ≤ i → z.sameHour t (z.firstMinute t + 60 * j) = true) →
      InTime (z.firstMinute t + 60 * i + 60)) : ∃ vs, z.minutesOfHourChecked t = .ok vs := by
  have hm := z.minuteStart_bounds t
  have hle := z.backWithinHour_le t 60 (z.minuteStart t)
  rw [← firstMinute] at hle
  have hfirst : z.firstMinuteChecked t = .ok (z.firstMinute t) := by
    rw [firstMinuteChecked, minuteStartChecked, Clock.checked_of_inTime ⟨by omega, by omega⟩, bind_ok]
    exact backWithinHourChecked_eq hlo (by omega)
  rw [minutesOfHourChecked, hfirst, bind_ok]
  refine exists_valuesWhile (p := z.sameHour t) (fun u o ho hne => ?_) fun i hi hbefore =>
    ⟨⟨_, rfl⟩, fun hp => h i hi fun j hj => ?_⟩
  · obtain rfl := Except.ok.inj ho
    by_contra hp
    exact hne (if_neg hp)
  · rcases Nat.lt_or_eq_of_le hj with hlt | rfl
    · exact hbefore j hlt
    · exact hp

/-! ## Zones that are calm at the ends -/

namespace CalmAtEnds

theorem shift_of_early (hz : z.CalmAtEnds) (hu : u ≤ Clock.firstInstant + 1209600)
    (hv : v ≤ Clock.firstInstant + 1209600) : z.shift u = z.shift v := by
  rcases Int.le_total u v with hle | hle
  · exact (shift_eq_of_unchanged hle fun w _ hw hch => by have := (hz w hch).1; omega).symm
  · exact shift_eq_of_unchanged hle fun w _ hw hch => by have := (hz w hch).1; omega

theorem shift_of_late (hz : z.CalmAtEnds) (hu : Clock.lastInstant - 1209600 ≤ u)
    (hv : Clock.lastInstant - 1209600 ≤ v) : z.shift u = z.shift v := by
  rcases Int.le_total u v with hle | hle
  · exact (shift_eq_of_unchanged hle fun w hw _ hch => by have := (hz w hch).2; omega).symm
  · exact shift_eq_of_unchanged hle fun w hw _ hch => by have := (hz w hch).2; omega

/-- So no change is seen on a date within a week of them. -/
theorem not_near_of_changesOnDay (hz : z.CalmAtEnds) (hc : z.changesOnDay t = true) :
    Clock.firstDay + 7 < z.dayAt t ∧ z.dayAt t < Clock.lastDay - 7 := by
  have hs := z.toInstant_bounds (Clock.midnight (z.dayAt t))
  have hs' := z.toInstant_bounds (Clock.midnight (z.dayAt t + 1))
  rw [← startOfDay] at hs hs'
  obtain ⟨hlast, hne⟩ := changesOnDay_iff.1 hc
  have hsame (h : ∀ u v, Clock.midnight (z.dayAt t) - 86402 < u → u < Clock.midnight (z.dayAt t) + 172801 →
      Clock.midnight (z.dayAt t) - 86402 < v → v < Clock.midnight (z.dayAt t) + 172801 → z.shift u = z.shift v) :
      False := by
    simp only [Clock.midnight] at *
    rcases hne with hne | hne
    · exact hne (h _ _ (by omega) (by omega) (by omega) (by omega))
    · exact hne (h _ _ (by omega) (by omega) (by omega) (by omega))
  have hfirst : Clock.firstInstant = 86400 * Clock.firstDay := Int.mul_comm _ _
  have hend : Clock.lastInstant = 86400 * Clock.lastDay + 86399 := by
    simp only [Clock.lastInstant, Clock.midnight]
    omega
  simp only [Clock.midnight] at hsame
  refine ⟨Int.lt_of_not_ge fun hle => hsame fun u v _ hu _ hv => ?_,
    Int.lt_of_not_ge fun hle => hsame fun u v hu _ hv _ => ?_⟩
  · exact hz.shift_of_early (by omega) (by omega)
  · exact hz.shift_of_late (by omega) (by omega)

/-- And near the beginning every local time is shown, once. -/
theorem toInstant?_of_early (hz : z.CalmAtEnds) (ht : t ≤ Clock.firstInstant + 864000)
    (hl : l ≤ Clock.firstInstant + 864000) : z.toInstant? l = some (l - z.shift t) := by
  have hb := z.shift_bounds t
  have hs : z.shift (l - z.shift t) = z.shift t := hz.shift_of_early (by omega) (by omega)
  refine toInstant?_eq_some_iff.2 ⟨by rw [toLocal, hs]; omega, fun u hu => ?_⟩
  have hbu := z.toLocal_bounds u
  have := hz.shift_of_early (u := u) (v := t) (by omega) (by omega)
  simp only [toLocal] at hu
  omega

end CalmAtEnds

/-! ## Instants around which the calendar can be looked at -/

/-- The local date is one that there is, and if it is the first one it begins after time does. -/
def OnCalendar (z : Zone) (t : Int) : Prop :=
  InTime (z.toLocal t) ∧ (z.dayAt t = Clock.firstDay → z.shift t < 0)

theorem onCalendar_of_date (hlo : Clock.firstDay < z.dayAt t) (hhi : z.dayAt t ≤ Clock.lastDay) : z.OnCalendar t :=
  ⟨Clock.inTime_iff_dayNumber.2 ⟨Int.le_of_lt hlo, hhi⟩, fun he => absurd he (Int.ne_of_gt hlo)⟩

/-- The midnight of the first date is shown with the offset of the date. -/
theorem CalmAtEnds.toInstant?_firstDay (hz : z.CalmAtEnds) (hday : z.dayAt t = Clock.firstDay) :
    z.toInstant? (Clock.midnight Clock.firstDay) = some (Clock.firstInstant - z.shift t) := by
  have hb := z.toLocal_bounds t
  refine hz.toInstant?_of_early ?_ ?_
  all_goals
    simp only [dayAt, Clock.dayNumber, Clock.firstInstant, Clock.midnight] at *
    omega

/-- The second before the first date has to be one within time. -/
theorem CalmAtEnds.shift_neg_of_checked (hz : z.CalmAtEnds) (hday : z.dayAt t = Clock.firstDay) {b : Bool}
    (h : z.changesOnDayChecked t = .ok b) : z.shift t < 0 := by
  obtain ⟨d, hd, h⟩ := ok_of_bind h
  obtain ⟨-, rfl⟩ := dayAtChecked_eq_ok_iff.1 hd
  rw [hday, if_pos (by decide)] at h
  obtain ⟨first, hfirst, h⟩ := ok_of_bind h
  obtain ⟨next, -, h⟩ := ok_of_bind h
  obtain ⟨last, -, h⟩ := ok_of_bind h
  obtain ⟨before, hbefore, -⟩ := ok_of_bind h
  obtain ⟨⟨hle, -⟩, -⟩ := Clock.checked_eq_ok_iff.1 hbefore
  obtain ⟨-, rfl⟩ := startOfDay_of_checked (by decide) hfirst
  rw [startOfDay, toInstant, hz.toInstant?_firstDay hday, Option.getD_some] at hle
  omega

theorem CalmAtEnds.exists_changesOnDayChecked (hz : z.CalmAtEnds) (hin : InTime (z.toLocal t))
    (hday : z.dayAt t = Clock.firstDay) (hbehind : z.shift t < 0) : ∃ b, z.changesOnDayChecked t = .ok b := by
  have hb := z.shift_bounds t
  have hs := z.toInstant_bounds (Clock.midnight (Clock.firstDay + 1))
  rw [← startOfDay] at hs
  have hends : Clock.firstDay + 3 < Clock.lastDay := by decide
  obtain ⟨hfirst, hbefore, hlast⟩ : InTime (Clock.firstInstant - z.shift t) ∧
      InTime (Clock.firstInstant - z.shift t - 1) ∧ InTime (z.startOfDay (Clock.firstDay + 1) - 1) := by
    simp only [InTime, Clock.firstInstant, Clock.lastInstant, Clock.midnight] at *
    omega
  have hstart : z.startOfDayChecked Clock.firstDay = .ok (Clock.firstInstant - z.shift t) :=
    toInstantChecked_of_shown (hz.toInstant?_firstDay hday) hfirst
  rw [changesOnDayChecked, dayAtChecked_eq_ok_iff.2 ⟨hin, rfl⟩, bind_ok, hday, if_pos (by decide), hstart, bind_ok,
    startOfDayChecked_eq (by omega) (by omega), bind_ok, Clock.checked_of_inTime hlast, bind_ok,
    Clock.checked_of_inTime hbefore, bind_ok]
  exact ⟨_, rfl⟩

theorem exists_changesOnDayChecked_iff (hz : z.CalmAtEnds) :
    (∃ b, z.changesOnDayChecked t = .ok b) ↔ z.OnCalendar t := by
  constructor
  · rintro ⟨b, h⟩
    exact ⟨(changesOnDay_of_checked h).1, fun hday => hz.shift_neg_of_checked hday h⟩
  · rintro ⟨hin, hfirst⟩
    obtain ⟨hlo, hhi⟩ := Clock.inTime_iff_dayNumber.1 hin
    rcases Int.lt_or_eq_of_le hlo with hlt | heq
    · exact ⟨_, changesOnDayChecked_eq hlt hhi⟩
    · exact hz.exists_changesOnDayChecked hin heq.symm (hfirst heq.symm)

theorem OnCalendar.exists_isRepeatChecked (hz : z.CalmAtEnds) (ht : InTime t) (h : z.OnCalendar t) :
    ∃ b, z.isRepeatChecked t = .ok b := by
  obtain ⟨hlo, hhi⟩ := Clock.inTime_iff_dayNumber.1 h.1
  rcases Int.lt_or_eq_of_le hlo with hlt | heq
  · exact Zone.exists_isRepeatChecked ht hlt hhi
  · have hb := z.toLocal_bounds t
    have honce : z.toInstant? (z.toLocal t) = some (z.toLocal t - z.shift t) := by
      refine hz.toInstant?_of_early ?_ ?_
      all_goals
        simp only [Clock.dayNumber, Clock.firstInstant, Clock.midnight] at *
        omega
    refine (exists_isRepeatChecked_iff ht).2 ⟨h.1, ?_⟩
    rw [toInstant, honce, Option.getD_some, show z.toLocal t - z.shift t = t by rw [toLocal]; omega]
    exact ht

end Zone

/-! ## Values and distances -/

section Distances

variable {f : Field} {z : Zone} {t : Int} {context : Option Moment} {current : Nat}

/-- Far from the ends of time the walks through a date and through an hour meet none. -/
theorem Field.exists_valuesChecked (hz : z.CalmAtEnds) (h : z.OnCalendar t) :
    ∃ vs, f.valuesChecked (some ⟨z, t⟩) = .ok vs := by
  obtain ⟨b, hb⟩ := (Zone.exists_changesOnDayChecked_iff hz).2 h
  obtain ⟨-, rfl⟩ := Zone.changesOnDay_of_checked hb
  have hday := Zone.dayAt_eq_iff_toLocal.1 (rfl : z.dayAt t = _)
  have hbt := z.toLocal_bounds t
  have hnear := hz.not_near_of_changesOnDay (t := t)
  cases f with
  | hour =>
    simp only [valuesChecked, hb, bind_ok]
    cases hc : z.changesOnDay t with
    | false => exact ⟨_, rfl⟩
    | true =>
      have hs := z.toInstant_bounds (Clock.midnight (z.dayAt t))
      rw [← Zone.startOfDay, Clock.midnight] at hs
      obtain ⟨hlo, hhi⟩ := hnear hc
      refine Zone.exists_hoursOfDayChecked (by omega) (by omega) fun i hi _ => ?_
      have hbi := z.toLocal_bounds (z.startOfDay (z.dayAt t) + 3600 * i)
      simp only [InTime, Clock.firstInstant, Clock.lastInstant, Clock.midnight]
      omega
  | minute =>
    simp only [valuesChecked, hb, bind_ok]
    cases hc : z.changesOnDay t with
    | false => exact ⟨_, rfl⟩
    | true =>
      have hfirst := z.firstMinute_bounds t
      obtain ⟨hlo, hhi⟩ := hnear hc
      refine Zone.exists_minutesOfHourChecked ?_ ?_ fun i hi _ => ?_
      all_goals
        simp only [InTime, Clock.firstInstant, Clock.lastInstant, Clock.midnight]
        omega
  | _ => exact ⟨_, rfl⟩

namespace Condition

/-- A distance that a condition has to look at the calendar for. -/
theorem exists_distanceChecked?_iff {c : Condition f} : (∃ r, c.distanceChecked? current context = .ok r) ↔
    c = .wildcard ∨ ¬ f.Admits current ∨
      (∃ vs, f.valuesChecked context = .ok vs) ∧ ∃ b, f.looksUpLast context = .ok b := by
  unfold distanceChecked?
  by_cases hadm : f.Admits current
  · rw [if_pos hadm]
    cases c with
    | wildcard => simp
    | constrained base step hw hk =>
      simp only [reduceCtorEq, false_or, not_true, hadm]
      constructor
      · rintro ⟨r, h⟩
        obtain ⟨vs, hvs, h⟩ := ok_of_bind h
        obtain ⟨b, hb, -⟩ := ok_of_bind h
        exact ⟨⟨vs, hvs⟩, b, hb⟩
      · rintro ⟨⟨vs, hvs⟩, b, hb⟩
        rw [hvs, bind_ok, hb, bind_ok]
        exact ⟨_, rfl⟩
  · rw [if_neg hadm]
    exact iff_of_true ⟨_, rfl⟩ (.inr (.inl hadm))

/-- Around an instant within time it can, for every field but the hour and the minute; for these two exactly on the
dates that there are, of which the first one has to begin after time does. -/
theorem exists_distanceChecked?_iff_onCalendar {c : Condition f} (hin : ∀ m ∈ context, InTime m.instant)
    (hz : ∀ m ∈ context, m.zone.CalmAtEnds) : (∃ r, c.distanceChecked? current context = .ok r) ↔
      c = .wildcard ∨ ¬ f.Admits current ∨ (f ≠ .hour ∧ f ≠ .minute) ∨
        ∀ m ∈ context, m.zone.OnCalendar m.instant := by
  rw [exists_distanceChecked?_iff]
  refine or_congr Iff.rfl (or_congr Iff.rfl ?_)
  cases context with
  | none =>
    refine iff_of_true ⟨?_, ?_⟩ (.inr fun m hm => by cases hm)
    · cases f <;> exact ⟨_, rfl⟩
    · cases f <;> exact ⟨_, rfl⟩
  | some m =>
    have hcalm := hz m rfl
    simp only [Option.mem_some_iff, forall_eq']
    constructor
    · rintro ⟨⟨vs, hvs⟩, -⟩
      cases f with
      | hour | minute =>
        obtain ⟨b, hb, -⟩ := ok_of_bind hvs
        exact .inr ((Zone.exists_changesOnDayChecked_iff hcalm).1 ⟨b, hb⟩)
      | _ => exact .inl (by decide)
    · rintro (⟨hhour, hminute⟩ | hon)
      · cases f with
        | hour => exact absurd rfl hhour
        | minute => exact absurd rfl hminute
        | _ => exact ⟨⟨_, rfl⟩, _, rfl⟩
      · refine ⟨Field.exists_valuesChecked hcalm hon, ?_⟩
        cases f with
        | hour => exact hon.exists_isRepeatChecked hcalm (hin m rfl)
        | _ => exact ⟨_, rfl⟩

theorem distanceChecked?_eq {c : Condition f} (hz : z.CalmAtEnds) (ht : InTime t)
    (h : f = .hour ∨ f = .minute → z.OnCalendar t) :
    c.distanceChecked? current (some ⟨z, t⟩) = .ok (c.distance? current (some ⟨z, t⟩)) := by
  have hok : ∃ r, c.distanceChecked? current (some ⟨z, t⟩) = .ok r := by
    refine (exists_distanceChecked?_iff_onCalendar (by simpa using ht) (by simpa using hz)).2 (.inr (.inr ?_))
    by_cases hclock : f = .hour ∨ f = .minute
    · exact .inr (by simpa using h hclock)
    · exact .inl (not_or.1 hclock)
  obtain ⟨r, hr⟩ := hok
  rw [hr, distance?_of_checked (by simpa using ht.2) hr]

/-- On a date with one offset, whatever distance is given leads to the next value that passes, or to the end of the
values, and from a value that the calendar does not have a constrained condition gives none. Only the conditions on
hours and minutes look at the calendar, and the program ends with them exactly where it cannot be looked at: beyond
the dates that there are, and on the first of them if it does not begin after time. -/
theorem distanceChecked?_spec (c : Condition f) (current : Nat) (context : Option Moment)
    (hin : ∀ m ∈ context, InTime m.instant) (h : ∀ m ∈ context, m.KeepsOffset) :
    (∀ r, c.distanceChecked? current context = .ok r →
      (∀ i, (f.values context)[i]? = some current →
        ∃ d, r = some d ∧ 1 ≤ d ∧ d ≤ (f.values context).length - i ∧
          (∀ j v, i < j → j < i + d → (f.values context)[j]? = some v → c.passes v = false) ∧
          ∀ v, (f.values context)[i + d]? = some v → c.passes v = true) ∧
      (c ≠ .wildcard → current ∉ f.values context → r = none)) ∧
    ((∀ m ∈ context, m.zone.CalmAtEnds) →
      (c.distanceChecked? current context = .error .stop ↔ c ≠ .wildcard ∧ f.Admits current ∧
        (f = .hour ∨ f = .minute) ∧ ∃ m ∈ context, ¬ m.zone.OnCalendar m.instant)) := by
  constructor
  · intro r hr
    rw [← distance?_of_checked (fun m hm => (hin m hm).2) hr]
    exact distance?_spec c current context h
  · intro hz
    have hiff : (∃ r, c.distanceChecked? current context = .ok r) ↔ _ := exists_distanceChecked?_iff_onCalendar hin hz
    have hstop : c.distanceChecked? current context = .error .stop ↔
        ¬ ∃ r, c.distanceChecked? current context = .ok r := by
      cases hr : c.distanceChecked? current context with
      | error e => exact iff_of_true rfl (by simp)
      | ok r => exact iff_of_false (by simp) fun hno => hno ⟨r, rfl⟩
    rw [hstop, hiff]
    simp only [not_or, not_and_or, not_not, not_forall, exists_prop, ne_eq]

/-- A day that February does not have leads from its 10th day to the end of the month. -/
theorem distanceChecked?_spec_thirtyFirst :
    (constrained (.value 31) none (by decide) (by decide) : Condition .dayOfMonth).distanceChecked? 10
      (some ⟨.utc, 1676000000⟩) = .ok (some 19) := by
  have hvalues : Field.dayOfMonth.values (some ⟨.utc, 1676000000⟩) = Field.interval 1 28 := by decide
  have hsteady : Zone.utc.Steady := fun _ _ => rfl
  obtain ⟨hlaw, hstop⟩ := distanceChecked?_spec
    (constrained (.value 31) none (by decide) (by decide) : Condition .dayOfMonth) 10 (some ⟨.utc, 1676000000⟩)
    (by rintro _ ⟨⟩; decide) (by rintro _ ⟨⟩; exact .inr fun _ _ => rfl)
  cases hr : (constrained (.value 31) none (by decide) (by decide) : Condition .dayOfMonth).distanceChecked? 10
      (some ⟨.utc, 1676000000⟩) with
  | error e =>
    obtain ⟨-, -, hfield, -⟩ := (hstop (by rintro _ ⟨⟩; exact hsteady.calmAtEnds)).1 hr
    simp at hfield
  | ok r =>
    obtain ⟨d, rfl, hpos, hle, -, hend⟩ := (hlaw r hr).1 9 (by rw [hvalues]; decide)
    rw [hvalues, Field.length_interval] at hle
    rcases Nat.lt_or_eq_of_le hle with hlt | rfl
    · have hpass := hend (10 + d) (by rw [hvalues, Field.getElem?_interval]; omega)
      have hday : 31 = 10 + d := beq_iff_eq.1 hpass
      omega
    · rfl

/-- In universal time the first date begins with time. Its clocks are not changed and hour 0 is its first value, but
there is no distance from it to hour 5. -/
theorem not_distanceChecked?_utc :
    InTime Clock.firstInstant ∧ (⟨.utc, Clock.firstInstant⟩ : Moment).KeepsOffset ∧
      (Field.hour.values (some ⟨.utc, Clock.firstInstant⟩))[0]? = some 0 ∧
      (constrained (.value 5) none (by decide) (by decide) : Condition .hour).distanceChecked? 0
        (some ⟨.utc, Clock.firstInstant⟩) = .error .stop := by
  refine ⟨by decide, .inr fun _ _ => rfl, by decide +kernel, by decide +kernel⟩

end Condition
end Distances
end Almanac
