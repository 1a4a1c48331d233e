import Almanac.Proofs.Changes
/-!
# A day around a change of one hour

The offset is a number of whole hours, changes by one hour at a full hour, and does not change again
for three days either way. Then every hour and every minute around the change is complete, and a
date is a stretch of hours.

- `Zone.SingleChange.toInstant_eq`: what a local time stands for.
- `Zone.SingleChange.le_dayAt_iff`: a date has begun at exactly the instants from its start on.
- `Zone.SingleChange.hourStart_eq`, `Zone.SingleChange.firstMinute_eq`: an hour begins at a full hour.
- `Zone.ChangeDay.dayAt_eq_iff`, `Zone.ChangeDay.span`: a date is a stretch of 23 to 25 hours.
-/
namespace Almanac.Zone

/-- Samples taken while a test holds are the samples before the first one that fails it. -/
theorem takeWhile_map_range {α : Type} {p : α → Bool} {f : Nat → α} {n N : Nat} (hn : n ≤ N)
    (hlt : ∀ i, i < n → p (f i) = true) (hend : n < N → p (f n) = false) :
    ((List.range N).map f).takeWhile p = (List.range n).map f := by
  obtain ⟨k, rfl⟩ := Nat.exists_eq_add_of_le hn
  rw [List.range_add, List.map_append, List.takeWhile_append_of_pos]
  · cases k with
    | zero => simp
    | succ k =>
      have := hend (by omega)
      simp [List.range_succ_eq_map, this]
  · intro x hx
    obtain ⟨i, hi, rfl⟩ := List.mem_map.1 hx
    exact hlt i (List.mem_range.1 hi)

/-- At `T` the offset of so many hours `before` becomes one of so many hours `after`, one more or one
less, and for 72 hours either way nothing else changes. -/
structure SingleChange (z : Zone) (T before after : Int) : Prop where
  fullHour : T % 3600 = 0
  shift_before : z.shift (T - 1) = 3600 * before
  shift_after : z.shift T = 3600 * after
  hourly : after = before + 1 ∨ before = after + 1
  alone : ∀ t, z.ChangesAt t → T - 259200 < t → t < T + 259200 → t = T

/-- A date that begins and ends, on the clocks, within 47 hours of the change. -/
structure ChangeDay (z : Zone) (T before after D : Int) : Prop extends SingleChange z T before after where
  begins : T - 169200 ≤ 86400 * D
  ends : 86400 * (D + 1) ≤ T + 169200

variable {z : Zone} {T before after D day t u l : Int}

/-! ## Offsets -/

namespace SingleChange

theorem changesAt (h : z.SingleChange T before after) : z.ChangesAt T := fun he => by
  have h1 := h.shift_before
  have h2 := h.shift_after
  have hourly := h.hourly
  omega

theorem shift_of_lt (h : z.SingleChange T before after) (hlo : T - 259200 ≤ t) (ht : t < T) :
    z.shift t = 3600 * before := by
  rw [← h.shift_before]
  refine (shift_eq_of_unchanged (by omega) fun v hv hvT hch => ?_).symm
  have := h.alone v hch (by omega) (by omega)
  omega

theorem shift_of_le (h : z.SingleChange T before after) (ht : T ≤ t) (hhi : t < T + 259200) :
    z.shift t = 3600 * after := by
  rw [← h.shift_after]
  refine shift_eq_of_unchanged ht fun v hv hvt hch => ?_
  have := h.alone v hch (by omega) (by omega)
  omega

theorem shift_cases (h : z.SingleChange T before after) (hlo : T - 259200 ≤ t) (hhi : t < T + 259200) :
    (t < T ∧ z.shift t = 3600 * before) ∨ (T ≤ t ∧ z.shift t = 3600 * after) := by
  by_cases ht : t < T
  · exact .inl ⟨ht, h.shift_of_lt hlo ht⟩
  · exact .inr ⟨by omega, h.shift_of_le (by omega) hhi⟩

theorem before_bounds (h : z.SingleChange T before after) : -24 < before ∧ before < 24 := by
  have := z.shift_bounds (T - 1)
  have := h.shift_before
  omega

theorem after_bounds (h : z.SingleChange T before after) : -24 < after ∧ after < 24 := by
  have := z.shift_bounds T
  have := h.shift_after
  omega

/-- No transition near the change is needed but the one at the change. -/
theorem of_transitions (hfull : T % 3600 = 0) (hbefore : z.shift (T - 1) = 3600 * before)
    (hafter : z.shift T = 3600 * after) (hourly : after = before + 1 ∨ before = after + 1)
    (h : ∀ c ∈ z.transitions, T - 259200 < c.instant → c.instant < T + 259200 → c.instant = T) :
    z.SingleChange T before after := by
  refine ⟨hfull, hbefore, hafter, hourly, fun t ht hlo hhi => ?_⟩
  obtain ⟨c, hc, rfl⟩ := exists_transition_of_changesAt ht
  exact h c hc hlo hhi

/-! ## What a local time stands for -/

/-- Around the change a local time stands for its instant before the change, unless the change comes
before it however the clocks are read. -/
theorem toInstant_eq (h : z.SingleChange T before after) (hlo : T - 172800 ≤ l) (hhi : l ≤ T + 172800) :
    z.toInstant l = if T + 3600 * max before after ≤ l then l - 3600 * after else l - 3600 * before := by
  have hb := h.before_bounds
  have ha := h.after_bounds
  have hourly := h.hourly
  by_cases hl : ∃ t, z.toLocal t = l
  · obtain ⟨t, ht⟩ := hl
    obtain ⟨hx, hleast⟩ := toInstant_of_shown ht
    have hbound := z.shift_bounds (z.toInstant l)
    rw [toLocal] at hx
    rcases h.shift_cases (t := z.toInstant l) (by omega) (by omega) with ⟨hxT, hs⟩ | ⟨hxT, hs⟩
    · rw [if_neg (by omega)]
      omega
    · by_cases hmax : T + 3600 * max before after ≤ l
      · rw [if_pos hmax]
        omega
      -- the time is shown twice, and the earlier instant is the one before the change
      · have := hleast (l - 3600 * before) (by rw [toLocal, h.shift_of_lt (by omega) (by omega)]; omega)
        omega
  · have hno (t : Int) : z.toLocal t ≠ l := fun ht => hl ⟨t, ht⟩
    have hlT : T ≤ l - 3600 * before := Int.not_lt.1 fun hlt =>
      hno (l - 3600 * before) (by rw [toLocal, h.shift_of_lt (by omega) hlt]; omega)
    have hTl : l - 3600 * after < T := Int.not_le.1 fun hle =>
      hno (l - 3600 * after) (by rw [toLocal, h.shift_of_le hle (by omega)]; omega)
    rw [toInstant, toInstant?_eq_none_iff.2 hno, Option.getD_none, h.shift_of_lt (by omega) (by omega),
      if_neg (by omega)]

theorem startOfDay_cases (h : z.SingleChange T before after) (day : Int) (hlo : T - 172800 ≤ 86400 * day)
    (hhi : 86400 * day ≤ T + 172800) :
    (T + 3600 * max before after ≤ 86400 * day ∧ z.startOfDay day = 86400 * day - 3600 * after) ∨
      (86400 * day < T + 3600 * max before after ∧ z.startOfDay day = 86400 * day - 3600 * before) := by
  rw [startOfDay, Clock.midnight, Int.mul_comm day, h.toInstant_eq hlo hhi]
  by_cases hmax : T + 3600 * max before after ≤ 86400 * day
  · rw [if_pos hmax]
    exact .inl ⟨hmax, rfl⟩
  · rw [if_neg hmax]
    exact .inr ⟨by omega, rfl⟩

/-- The dates around the change ascend, and each begins with its start. -/
theorem le_dayAt_iff (h : z.SingleChange T before after) (day : Int) (hlo : T - 172800 ≤ 86400 * day)
    (hhi : 86400 * day ≤ T + 172800) : day ≤ z.dayAt t ↔ z.startOfDay day ≤ t := by
  have hb := h.before_bounds
  have ha := h.after_bounds
  have hfull := h.fullHour
  have hourly := h.hourly
  have hstart := h.startOfDay_cases day hlo hhi
  have hbound := z.shift_bounds t
  rw [dayAt, ← Field.midnight_le_iff, Clock.midnight, toLocal]
  by_cases hfar : T - 259200 ≤ t ∧ t < T + 259200
  · have := h.shift_cases hfar.1 hfar.2
    omega
  · omega

/-! ## Hours and minutes -/

theorem toLocal_mod (h : z.SingleChange T before after) (hlo : T - 259200 ≤ t) (hhi : t < T + 259200) :
    z.toLocal t % 3600 = t % 3600 := by
  rw [toLocal]
  rcases h.shift_cases hlo hhi with ⟨-, hs⟩ | ⟨-, hs⟩ <;> omega

/-- The change does not fall into an hour. -/
theorem shift_of_hour (h : z.SingleChange T before after) (hlo : T - 259200 ≤ t) (hhi : t < T + 259200)
    (hu : u / 3600 = t / 3600) : z.shift u = z.shift t := by
  have hfull := h.fullHour
  rcases h.shift_cases (t := t) hlo hhi with ⟨htT, hs⟩ | ⟨htT, hs⟩
  · rw [hs, h.shift_of_lt (by omega) (by omega)]
  · rw [hs, h.shift_of_le (by omega) (by omega)]

theorem minuteStart_eq (h : z.SingleChange T before after) (hlo : T - 259200 ≤ t) (hhi : t < T + 259200) :
    z.minuteStart t = 60 * (t / 60) := by
  have := h.toLocal_mod hlo hhi
  rw [minuteStart_eq_sub]
  omega

theorem hourStart_eq (h : z.SingleChange T before after) (hlo : T - 259200 ≤ t) (hhi : t < T + 259200) :
    z.hourStart t = 3600 * (t / 3600) := by
  have hmod := h.toLocal_mod hlo hhi
  rw [hourStart_of_unchanged (h.shift_of_hour hlo hhi (by omega))]
  omega

theorem firstMinute_eq (h : z.SingleChange T before after) (hlo : T - 259200 ≤ t) (hhi : t < T + 259200) :
    z.firstMinute t = 3600 * (t / 3600) := by
  have hmod := h.toLocal_mod hlo hhi
  rw [firstMinute_of_unchanged fun v hv hvt => h.shift_of_hour hlo hhi (by omega)]
  omega

theorem minutesOfHour_eq (h : z.SingleChange T before after) (hlo : T - 259200 ≤ t) (hhi : t < T + 259200) :
    z.minutesOfHour t = Field.interval 0 59 := by
  have hmod := h.toLocal_mod hlo hhi
  have hlocal (i : Nat) (hi : i < 60) : z.shift (3600 * (t / 3600) + 60 * i) = z.shift t ∧
      z.toLocal (3600 * (t / 3600) + 60 * i) = 3600 * (z.toLocal t / 3600) + 60 * i := by
    have hs := h.shift_of_hour (u := 3600 * (t / 3600) + 60 * i) hlo hhi (by omega)
    rw [toLocal] at hmod
    rw [toLocal, hs, toLocal]
    exact ⟨rfl, by omega⟩
  rw [minutesOfHour, h.firstMinute_eq hlo hhi]
  rw [takeWhile_map_range (n := 60) (Nat.le_refl _) (fun i hi => ?_) (fun hlt => absurd hlt (by decide)),
    Field.interval, List.map_map, ← List.range_eq_range']
  · refine (List.map_congr_left fun i hi => ?_).trans (List.map_id _)
    rw [Function.comp_apply, (hlocal i (List.mem_range.1 hi)).2, Clock.minute_eq, id]
    have := List.mem_range.1 hi
    omega
  · obtain ⟨hs, hl⟩ := hlocal i hi
    refine sameHour_iff.2 ⟨?_, hs⟩
    rw [hl, Clock.hour_eq, Clock.hour_eq]
    omega

/-! ## The day -/

/-- The date that the change leads to and the date that it leads from. -/
theorem changeDay (h : z.SingleChange T before after) (hD : D = z.dayAt T ∨ D = z.dayAt (T - 1)) :
    z.ChangeDay T before after D := by
  have hb := h.before_bounds
  have ha := h.after_bounds
  have hs := h.shift_before
  have hs' := h.shift_after
  refine ⟨h, ?_, ?_⟩
  all_goals
    simp only [dayAt, Clock.dayNumber, toLocal, hs, hs'] at hD
    omega

end SingleChange

namespace ChangeDay

/-- A day is a stretch of 23 to 25 whole hours. -/
theorem span (h : z.ChangeDay T before after D) :
    z.startOfDay D % 3600 = 0 ∧ z.startOfDay (D + 1) % 3600 = 0 ∧
      z.startOfDay D + 82800 ≤ z.startOfDay (D + 1) ∧ z.startOfDay (D + 1) ≤ z.startOfDay D + 90000 ∧
      T - 252000 ≤ z.startOfDay D ∧ z.startOfDay (D + 1) ≤ T + 252000 := by
  have hb := h.before_bounds
  have ha := h.after_bounds
  have hfull := h.fullHour
  have hourly := h.hourly
  have hlo := h.begins
  have hhi := h.ends
  have h1 := h.startOfDay_cases D (by omega) (by omega)
  have h2 := h.startOfDay_cases (D + 1) (by omega) (by omega)
  omega

/-- The instants of a date are those from its start on and before the start of the next. -/
theorem dayAt_eq_iff (h : z.ChangeDay T before after D) :
    z.dayAt t = D ↔ z.startOfDay D ≤ t ∧ t < z.startOfDay (D + 1) := by
  have hlo := h.begins
  have hhi := h.ends
  have h1 := h.le_dayAt_iff (t := t) D (by omega) (by omega)
  have h2 := h.le_dayAt_iff (t := t) (D + 1) (by omega) (by omega)
  omega

theorem near (h : z.ChangeDay T before after D) (ht : z.dayAt t = D) : T - 252000 ≤ t ∧ t < T + 252000 := by
  have := h.span
  have := h.dayAt_eq_iff.1 ht
  omega

/-- Instants of one hour lie on one date. -/
theorem dayAt_of_hour (h : z.ChangeDay T before after D) (ht : z.dayAt t = D) (hu : u / 3600 = t / 3600) :
    z.dayAt u = D := by
  have := h.span
  have := h.dayAt_eq_iff.1 ht
  rw [h.dayAt_eq_iff]
  omega

/-- The start of a later day comes after the date, however far off that day is. -/
theorem lt_startOfDay (h : z.ChangeDay T before after D) (ht : z.dayAt t = D) (hday : D < day) :
    t < z.startOfDay day := by
  have hourly := h.hourly
  have hlo := h.begins
  have hhi := h.ends
  have hfinish := (h.dayAt_eq_iff.1 ht).2
  by_cases hl : ∃ u, z.toLocal u = Clock.midnight day
  · obtain ⟨u, hu⟩ := hl
    have hshown : z.toLocal (z.startOfDay day) = Clock.midnight day := (toInstant_of_shown hu).1
    have hlater : D + 1 ≤ z.dayAt (z.startOfDay day) := by
      rw [dayAt, hshown, ← Field.midnight_le_iff]
      simp only [Clock.midnight]
      omega
    rw [h.le_dayAt_iff (D + 1) (by omega) (by omega)] at hlater
    omega
  · have hno : z.toInstant? (Clock.midnight day) = none := toInstant?_eq_none_iff.2 fun u hu => hl ⟨u, hu⟩
    have hstart : z.startOfDay day = Clock.midnight day - z.shift (Clock.midnight day - 86400) := by
      rw [startOfDay, toInstant, hno, Option.getD_none]
    have hnext := h.startOfDay_cases (D + 1) (by omega) (by omega)
    have hb := h.before_bounds
    have ha := h.after_bounds
    rw [Clock.midnight] at hstart
    -- the gap of the next day, of the day after it, or of a day that is far off
    rcases (show day = D + 1 ∨ day = D + 2 ∨ D + 3 ≤ day by omega) with rfl | rfl | hfar
    · exact hfinish
    · have := h.shift_cases (t := (D + 2) * 86400 - 86400) (by omega) (by omega)
      omega
    · have := z.shift_bounds (day * 86400 - 86400)
      omega

end ChangeDay
end Almanac.Zone
