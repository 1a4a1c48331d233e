import Almanac.Proofs.DateStart
import Almanac.Proofs.Ends
import Almanac.Proofs.KnownZones
/-!
# The hours of a date

Around a date whose offsets are whole hours, with one change by one hour at most, the date is a stretch of 23 to
25 hours, each of which shows one hour on the clocks. The calendar lists these hours, one entry for each, and
looks an instant up at the entry of its own, provided that it sees the change. It does not see a change that
comes with the end of the date, which is a gap from 23:00 to midnight if it concerns the date at all. Between the
first date and the last one everything that is looked at lies within time.

- `Zone.HourlyAround`: what is asked of the time around the date.
- `Zone.OfHours`: a date as a stretch of hours, and `Zone.ListsHours`: the calendar's list is that of a stretch.
- `Zone.ChangeDay.listsHours_iff`, `Zone.HourlyAround.listsHours_of_alone`: dates with a change and without one.
- `Zone.HourlyAround.valuesChecked_hour_eq`: the list can be made on every date after the first one.
- `Zone.HourlyAround.exists_ofHours`: how many hours a date has, and when the calendar lists them.
-/
namespace Almanac.Zone

variable {z : Zone} {T before after D start s t u w l : Int} {i : Nat}

/-- Within 72 hours of the date. -/
def Near (z : Zone) (D u : Int) : Prop := ∃ v, z.dayAt v = D ∧ v - 259200 ≤ u ∧ u ≤ v + 259200

/-- Within 72 hours of the date offsets are whole hours, and at most one change happens, by one hour at a full
hour. -/
structure HourlyAround (z : Zone) (D : Int) : Prop where
  offset : ∀ u, z.Near D u → z.shift u % 3600 = 0
  change : ∀ T, z.ChangesAt T → z.Near D T →
    T % 3600 = 0 ∧ (z.shift T = z.shift (T - 1) + 3600 ∨ z.shift (T - 1) = z.shift T + 3600)
  one : ∀ T T', z.ChangesAt T → z.ChangesAt T' → z.Near D T → z.Near D T' → T = T'

/-- The date is the `n` hours from `start` on, and each of them shows one hour. -/
structure OfHours (z : Zone) (D start : Int) (n : Nat) : Prop where
  dayAt_iff : ∀ u, z.dayAt u = D ↔ start ≤ u ∧ u < start + 3600 * n
  hour_eq : ∀ u, z.dayAt u = D →
    Clock.hour (z.toLocal u) = Clock.hour (z.toLocal (start + 3600 * ((u - start) / 3600)))

/-- At every instant of the date the calendar lists the hours of the stretch, one after the other, and looks the
instant up at the hour that it is in. -/
def ListsHours (z : Zone) (D start : Int) (n : Nat) : Prop :=
  ∀ u, z.dayAt u = D →
    Field.hour.values (some ⟨z, u⟩) = (List.range n).map (fun i : Nat => Clock.hour (z.toLocal (start + 3600 * i))) ∧
      Field.hour.position? (some ⟨z, u⟩) (Clock.hour (z.toLocal u)) = some ((u - start) / 3600).toNat

/-- An hour of the date is left out by a change that puts the clocks forward. -/
def HourSkipped (z : Zone) (D : Int) : Prop :=
  ∃ T, z.ChangesAt T ∧ z.shift (T - 1) < z.shift T ∧ Clock.dayNumber (T + z.shift (T - 1)) = D

/-- An hour of the date is shown again after a change that puts the clocks back. -/
def HourRepeated (z : Zone) (D : Int) : Prop :=
  ∃ T, z.ChangesAt T ∧ z.shift T < z.shift (T - 1) ∧ Clock.dayNumber (T + z.shift T) = D

theorem changesOnDay_congr (h : z.dayAt u = z.dayAt t) : z.changesOnDay u = z.changesOnDay t := by
  simp only [changesOnDay, h]

/-- Where no change is seen and the hours count from 0 to 23, the calendar lists them. -/
theorem OfHours.listsHours_of_unchanged (h : z.OfHours D start 24)
    (hcount : ∀ i : Nat, i < 24 → Clock.hour (z.toLocal (start + 3600 * i)) = i)
    (hc : ∀ u, z.dayAt u = D → z.changesOnDay u = false) : z.ListsHours D start 24 := by
  intro u hu
  obtain ⟨hlo, hhi⟩ := (h.dayAt_iff u).1 hu
  constructor
  · rw [Field.values_of_unchanged (hc u hu)]
    refine Eq.trans ?_ (List.map_congr_left fun i hi => (hcount i (List.mem_range.1 hi)).symm)
    rfl
  · have hstands := Field.standsAt_of_unchanged (f := .hour) (hc u hu) (Field.admits_ofLocal (by decide) _)
    refine hstands.position.trans (congrArg some ?_)
    have hi := hcount ((u - start) / 3600).toNat (by omega)
    rw [Int.toNat_of_nonneg (by omega), ← h.hour_eq u hu] at hi
    exact hi

/-! ## Dates with a change -/

namespace ChangeDay

theorem ofHours (h : z.ChangeDay T before after D) : z.OfHours D (z.startOfDay D) (z.hourCount D) where
  dayAt_iff u := by
    have := h.span
    rw [h.dayAt_eq_iff, hourCount]
    omega
  hour_eq u hu := by
    have hspan := h.span
    have hfull := h.fullHour
    have hin := h.dayAt_eq_iff.1 hu
    have hu' : z.dayAt (z.startOfDay D + 3600 * ((u - z.startOfDay D) / 3600)) = D := h.dayAt_of_hour hu (by omega)
    have h1 := h.hour_cases hu
    have h2 := h.hour_cases hu'
    omega

/-- The change lies on the date, or right at its end. -/
theorem change_bounds (h : z.ChangeDay T before after D) (hT : D = z.dayAt T ∨ D = z.dayAt (T - 1)) :
    z.startOfDay D ≤ T ∧ T ≤ z.startOfDay (D + 1) := by
  rcases hT with hT | hT
  · have := h.dayAt_eq_iff.1 hT.symm
    omega
  · have := h.dayAt_eq_iff.1 hT.symm
    have := h.span
    have := h.fullHour
    omega

theorem hourCount_iff (h : z.ChangeDay T before after D) :
    23 ≤ z.hourCount D ∧ z.hourCount D ≤ 25 ∧
      (z.hourCount D = 23 ↔ after = before + 1 ∧ Clock.dayNumber (T + 3600 * before) = D) ∧
      (z.hourCount D = 25 ↔ before = after + 1 ∧ Clock.dayNumber (T + 3600 * after) = D) := by
  have hfull := h.fullHour
  have hourly := h.hourly
  have hlo := h.begins
  have hhi := h.ends
  have h1 := h.startOfDay_cases D (by omega) (by omega)
  have h2 := h.startOfDay_cases (D + 1) (by omega) (by omega)
  simp only [hourCount, Clock.dayNumber]
  omega

/-- Hours are counted from 0 where the date has 24 of them. -/
theorem hourAt_eq (h : z.ChangeDay T before after D) (hT : D = z.dayAt T ∨ D = z.dayAt (T - 1))
    (hcount : z.hourCount D = 24) (hi : i < 24) : Clock.hour (z.toLocal (z.startOfDay D + 3600 * i)) = i := by
  have hfull := h.fullHour
  have hourly := h.hourly
  have hlo := h.begins
  have hhi := h.ends
  have hspan := h.span
  have hbounds := h.change_bounds hT
  have h1 := h.startOfDay_cases D (by omega) (by omega)
  have h2 := h.startOfDay_cases (D + 1) (by omega) (by omega)
  have h3 := h.hour_cases (h.dayAt_hour_iff.2 (hcount ▸ hi))
  rw [hourCount] at hcount
  omega

/-- A change that is seen is not one that comes with the end of the date: the offset would be the same from before the
date to its last second. -/
theorem not_changesAt_end_of_seen (h : z.ChangeDay T before after D)
    (hT : z.startOfDay D ≤ T ∧ T ≤ z.startOfDay (D + 1)) (ht : z.dayAt t = D) (hc : z.changesOnDay t = true) :
    ¬ z.ChangesAt (z.startOfDay (D + 1)) := fun hch => by
  have hspan := h.span
  obtain ⟨-, hne⟩ := changesOnDay_iff.1 hc
  rw [ht] at hne
  have hT' := h.alone _ hch (by omega) (by omega)
  have h1 := h.shift_of_lt (t := z.startOfDay D - 1) (by omega) (by omega)
  have h2 := h.shift_of_lt (t := z.startOfDay D) (by omega) (by omega)
  have h3 := h.shift_of_lt (t := z.startOfDay (D + 1) - 1) (by omega) (by omega)
  rw [h1, h2, h3] at hne
  simp at hne

theorem listsHours_of_seen (h : z.ChangeDay T before after D) (ht : z.dayAt t = D) (hc : z.changesOnDay t = true) :
    z.ListsHours D (z.startOfDay D) (z.hourCount D) := fun u hu => by
  have hcu : z.changesOnDay u = true := (changesOnDay_congr (hu.trans ht.symm)).trans hc
  refine ⟨h.values_hour hu hcu, (h.position?_hour hu hcu).trans ?_⟩
  rw [hourIndex, hu]

/-- The calendar lists the hours unless the change comes with the end of the date, or the date is the last one, and
the date does not have 24 hours. -/
theorem listsHours_iff (h : z.ChangeDay T before after D) (hT : D = z.dayAt T ∨ D = z.dayAt (T - 1))
    (ht : z.dayAt t = D) : z.ListsHours D (z.startOfDay D) (z.hourCount D) ↔
      ¬ (z.hourCount D ≠ 24 ∧ (z.ChangesAt (z.startOfDay D + 3600 * z.hourCount D) ∨ Clock.lastDay ≤ D)) := by
  have hspan := h.span
  have hend : z.startOfDay D + 3600 * z.hourCount D = z.startOfDay (D + 1) := by
    rw [hourCount]
    omega
  have hbounds := h.change_bounds hT
  rw [hend]
  cases hc : z.changesOnDay t with
  | true =>
    have hday := (changesOnDay_iff.1 hc).1
    refine iff_of_true (h.listsHours_of_seen ht hc) ?_
    rintro ⟨-, hch | hlast⟩
    · exact h.not_changesAt_end_of_seen hbounds ht hc hch
    · omega
  | false =>
    have hcu (u : Int) (hu : z.dayAt u = D) : z.changesOnDay u = false :=
      (changesOnDay_congr (hu.trans ht.symm)).trans hc
    by_cases hcount : z.hourCount D = 24
    · refine iff_of_true ?_ fun hbad => hbad.1 hcount
      have hof := h.ofHours
      rw [hcount] at hof ⊢
      exact hof.listsHours_of_unchanged (fun i hi => h.hourAt_eq hT hcount hi) hcu
    · refine iff_of_false (fun hlists => ?_) fun hno => hno ⟨hcount, ?_⟩
      · have hlen := congrArg List.length (hlists t ht).1
        rw [Field.values_of_unchanged hc, Field.length_interval, List.length_map, List.length_range] at hlen
        exact hcount hlen.symm
      · rcases h.unchanged_cases ht hc with hlast | hbefore | hafter
        · exact .inr hlast
        · omega
        · obtain rfl : T = z.startOfDay (D + 1) := by omega
          exact .inl h.changesAt

/-- The next date begins at its midnight, or as the change skips it, no later than at one o'clock. -/
theorem toLocal_startOfDay_bounds (h : z.ChangeDay T before after D) :
    86400 * (D + 1) ≤ z.toLocal (z.startOfDay (D + 1)) ∧
      z.toLocal (z.startOfDay (D + 1)) ≤ 86400 * (D + 1) + 3600 := by
  have hfull := h.fullHour
  have hourly := h.hourly
  have hlo := h.begins
  have hhi := h.ends
  have hspan := h.span
  have hstart := h.startOfDay_cases (D + 1) (by omega) (by omega)
  have hs := h.shift_cases (t := z.startOfDay (D + 1)) (by omega) (by omega)
  simp only [toLocal]
  omega

/-- All samples lie within time, the one that ends the list with them. -/
theorem exists_hoursOfDayChecked (h : z.ChangeDay T before after D) (hlo : Clock.firstDay < D)
    (hhi : D < Clock.lastDay) : ∃ vs, z.hoursOfDayChecked D = .ok vs := by
  have hspan := h.span
  have hb := h.before_bounds
  have ha := h.after_bounds
  have hfinish := h.startOfDay_cases (D + 1) (by have := h.begins; omega) (by have := h.ends; omega)
  have hend := h.toLocal_startOfDay_bounds
  have hstart := z.toInstant_bounds (Clock.midnight D)
  rw [← startOfDay, Clock.midnight] at hstart
  have hcount : z.startOfDay D + 3600 * z.hourCount D = z.startOfDay (D + 1) := by
    rw [hourCount]
    omega
  refine Zone.exists_hoursOfDayChecked hlo (Int.le_of_lt hhi) fun i _ hbefore => ?_
  have hi : i ≤ z.hourCount D := Nat.le_of_not_lt fun hlt =>
    absurd (h.dayAt_hour_iff.1 (hbefore _ hlt)) (Nat.lt_irrefl _)
  rcases Nat.lt_or_eq_of_le hi with hlt | rfl
  · have hday := dayAt_eq_iff_toLocal.1 (h.dayAt_hour_iff.2 hlt)
    simp only [Clock.InTime, Clock.firstInstant, Clock.lastInstant, Clock.midnight]
    omega
  · rw [hcount]
    refine ⟨?_, fun hday => absurd hday ?_⟩
    · simp only [Clock.InTime, Clock.firstInstant, Clock.lastInstant, Clock.midnight]
      omega
    · rw [h.dayAt_eq_iff]
      omega

end ChangeDay

/-! ## Dates without one -/

/-- A change lies on the date or right at its end, or none does. -/
theorem exists_changesAt_or_alone (z : Zone) (D : Int) :
    (∃ T, z.ChangesAt T ∧ (D = z.dayAt T ∨ D = z.dayAt (T - 1))) ∨
      ∀ T, z.ChangesAt T → z.dayAt T ≠ D ∧ z.dayAt (T - 1) ≠ D := by
  refine or_iff_not_imp_left.2 fun hno T hT => ⟨fun he => ?_, fun he => ?_⟩
  · exact hno ⟨T, hT, .inl he.symm⟩
  · exact hno ⟨T, hT, .inr he.symm⟩

namespace HourlyAround

theorem singleChange (h : z.HourlyAround D) (hT : z.ChangesAt T) (hD : D = z.dayAt T ∨ D = z.dayAt (T - 1)) :
    z.SingleChange T (z.shift (T - 1) / 3600) (z.shift T / 3600) := by
  have hnear {t : Int} (hlo : T - 259200 < t) (hhi : t < T + 259200) : z.Near D t := by
    rcases hD with hD | hD
    · exact ⟨T, hD.symm, by omega, by omega⟩
    · exact ⟨T - 1, hD.symm, by omega, by omega⟩
  obtain ⟨hfull, hone⟩ := h.change T hT (hnear (by omega) (by omega))
  have hoff := h.offset T (hnear (by omega) (by omega))
  exact {
    fullHour := hfull
    shift_before := by omega
    shift_after := by omega
    hourly := by omega
    alone := fun t ht hlo hhi => h.one t T ht hT (hnear hlo hhi) (hnear (by omega) (by omega)) }

/-- The clocks go back by one hour at a time only. -/
theorem exists_setBack (h : z.HourlyAround D) (ht : z.dayAt t = D) (hlo : t - 259200 ≤ u) (huw : u ≤ w)
    (hhi : w ≤ t + 259200) (hl : l ≤ z.toLocal u) (hw : z.toLocal w < l) :
    ∃ v, z.ChangesAt v ∧ l ≤ z.toLocal (v - 1) ∧ z.toLocal (v - 1) < l + 3600 ∧
      l - 3600 ≤ z.toLocal v ∧ z.toLocal v < l := by
  obtain ⟨v, huv, hvw, hv, hv'⟩ := exists_crossing (p := fun v => l ≤ z.toLocal v) huw hl (by omega)
  have hch : z.ChangesAt v := changesAt_of_toLocal (by omega)
  have hone := (h.change v hch ⟨t, ht, by omega, by omega⟩).2
  refine ⟨v, hch, hv, ?_, ?_, by omega⟩ <;> simp only [toLocal] at * <;> omega

section Alone

variable (h : z.HourlyAround D) (hno : ∀ T, z.ChangesAt T → z.dayAt T ≠ D ∧ z.dayAt (T - 1) ≠ D)
  (ht : z.dayAt t = D) (hs : s = t - z.toLocal t % 86400)

include hno ht hs in
/-- A full day around the instant runs with its offset. -/
theorem toLocal_of_alone (hlo : s ≤ u) (hhi : u ≤ s + 86400) :
    z.toLocal u = 86400 * D + (u - s) := by
  have ht' := dayAt_eq_iff_toLocal.1 ht
  have hday {v : Int} (hv : z.shift v = z.shift t) (hlo : s ≤ v) (hhi : v < s + 86400) : z.dayAt v = D := by
    rw [dayAt_eq_iff_toLocal]
    simp only [toLocal, hv] at *
    omega
  have hshift : z.shift u = z.shift t := by
    by_contra hne
    rcases Int.le_total u t with hle | hle
    · obtain ⟨v, huv, hvt, hv, hv'⟩ := exists_crossing (p := fun v => z.shift v ≠ z.shift t) hle hne (fun hc => hc rfl)
      have heq : z.shift v = z.shift t := Decidable.not_not.1 hv'
      exact (hno v fun he => hv (he.trans heq)).1 (hday heq (by omega) (by omega))
    · obtain ⟨v, htv, hvu, hv, hv'⟩ := exists_crossing (p := fun v => z.shift v = z.shift t) hle rfl hne
      exact (hno v fun he => hv' (he ▸ hv)).2 (hday hv (by omega) (by omega))
  simp only [toLocal, hshift] at *
  omega

include hno ht hs in
theorem toLocal_before_alone :
    z.toLocal (s - 1) = 86400 * D - 1 := by
  have hstart := toLocal_of_alone hno ht hs (u := s) (by omega) (by omega)
  have hday : z.dayAt s = D := dayAt_eq_iff_toLocal.2 (by omega)
  have hshift : z.shift (s - 1) = z.shift s := Decidable.not_not.1 fun hne => (hno _ hne).1 hday
  simp only [toLocal] at hstart ⊢
  omega

include h hno ht hs in
theorem dayAt_iff_of_alone : z.dayAt u = D ↔
    s ≤ u ∧ u < s + 86400 := by
  constructor
  · intro hu
    have hbt := z.toLocal_bounds t
    have hbu := z.toLocal_bounds u
    have hstart := toLocal_before_alone hno ht hs
    have hend := toLocal_of_alone hno ht hs (u := s + 86400) (by omega) (by omega)
    have hut := dayAt_eq_iff_toLocal.1 ht
    have huu := dayAt_eq_iff_toLocal.1 hu
    constructor <;> refine Int.le_of_not_gt fun hlt => ?_
    · obtain ⟨v, hv, h1, h2, -, -⟩ := h.exists_setBack ht (u := u) (w := s - 1)
        (l := 86400 * D) (by omega) (by omega) (by omega) (by omega) (by omega)
      exact (hno v hv).2 (dayAt_eq_iff_toLocal.2 (by omega))
    · obtain ⟨v, hv, -, -, h1, h2⟩ := h.exists_setBack ht (u := s + 86400) (w := u)
        (l := 86400 * D + 86400) (by omega) (by omega) (by omega) (by omega) (by omega)
      exact (hno v hv).1 (dayAt_eq_iff_toLocal.2 (by omega))
  · rintro ⟨hlo, hhi⟩
    have := toLocal_of_alone hno ht hs hlo (Int.le_of_lt hhi)
    exact dayAt_eq_iff_toLocal.2 (by omega)

include h hno ht hs in
theorem ofHours_of_alone : z.OfHours D s 24 where
  dayAt_iff u := by
    rw [dayAt_iff_of_alone h hno ht hs]
    omega
  hour_eq u hu := by
    have hin := (dayAt_iff_of_alone h hno ht hs).1 hu
    have h1 := toLocal_of_alone hno ht hs (u := u) (by omega) (by omega)
    have h2 := toLocal_of_alone hno ht hs (u := s + 3600 * ((u - s) / 3600))
      (by omega) (by omega)
    rw [Clock.hour_eq, Clock.hour_eq]
    omega

include h hno ht hs in
theorem startOfDay_of_alone : z.startOfDay D = s ∧
    z.startOfDay (D + 1) = s + 86400 := by
  have hstart := toLocal_of_alone hno ht hs (u := s) (by omega) (by omega)
  have hend := toLocal_of_alone hno ht hs (u := s + 86400) (by omega) (by omega)
  obtain ⟨hl, hleast⟩ := toInstant_of_shown (z := z) (t := s) (l := Clock.midnight D)
    (by simp only [Clock.midnight]; omega)
  obtain ⟨hl', hleast'⟩ := toInstant_of_shown (z := z) (t := s + 86400)
    (l := Clock.midnight (D + 1)) (by simp only [Clock.midnight]; omega)
  have h1 := hleast _ (show z.toLocal s = _ by simp only [Clock.midnight]; omega)
  have h2 := hleast' _ (show z.toLocal (s + 86400) = _ by simp only [Clock.midnight]; omega)
  rw [← startOfDay] at hl hl' h1 h2
  rw [Clock.midnight] at hl hl'
  have hday : z.dayAt (z.startOfDay D) = D := dayAt_eq_iff_toLocal.2 (by omega)
  have hday' : z.dayAt (z.startOfDay (D + 1)) = D + 1 := dayAt_eq_iff_toLocal.2 (by omega)
  have hin := (dayAt_iff_of_alone h hno ht hs).1 hday
  refine ⟨by omega, Int.le_antisymm h2 (Int.not_lt.1 fun hlt => ?_)⟩
  have hout := mt (dayAt_iff_of_alone h hno ht hs).2 (show z.dayAt (z.startOfDay (D + 1)) ≠ D by omega)
  -- the next midnight would have been shown before the date, and the clocks set back on it
  have hbt := z.toLocal_bounds t
  have hbu := z.toLocal_bounds (z.startOfDay (D + 1))
  have htday := dayAt_eq_iff_toLocal.1 ht
  obtain ⟨v, hv, -, -, h3, h4⟩ := h.exists_setBack ht (u := z.startOfDay (D + 1)) (w := s)
    (l := 86400 * D + 86400) (by omega) (by omega) (by omega) (by omega) (by omega)
  exact (hno v hv).1 (dayAt_eq_iff_toLocal.2 (by omega))

include h hno ht hs in
theorem changesOnDay_of_alone (hu : z.dayAt u = D) : z.changesOnDay u = false := by
  rw [Bool.eq_false_iff]
  intro hc
  obtain ⟨-, hne⟩ := changesOnDay_iff.1 hc
  obtain ⟨hs', he⟩ := startOfDay_of_alone h hno ht hs
  have h1 := toLocal_before_alone hno ht hs
  have h2 := toLocal_of_alone hno ht hs (u := s) (by omega) (by omega)
  have h3 := toLocal_of_alone hno ht hs (u := s + 86400 - 1) (by omega) (by omega)
  rw [hu, hs', he] at hne
  simp only [toLocal] at *
  omega

include h hno ht hs in
/-- The date has 24 hours, and the calendar lists them. -/
theorem listsHours_of_alone : z.ListsHours D s 24 := by
  refine (ofHours_of_alone h hno ht hs).listsHours_of_unchanged (fun i hi => ?_)
    fun u hu => changesOnDay_of_alone h hno ht hs hu
  have := toLocal_of_alone hno ht hs (u := s + 3600 * i) (by omega) (by omega)
  rw [Clock.hour_eq]
  omega

include h hno ht in
theorem not_hourSkipped_of_alone : ¬ z.HourSkipped D ∧ ¬ z.HourRepeated D := by
  have hbt := z.toLocal_bounds t
  have htday := dayAt_eq_iff_toLocal.1 ht
  constructor
  · rintro ⟨T, hT, hlt, hday⟩
    have hb := z.shift_bounds (T - 1)
    simp only [Clock.dayNumber] at hday
    have hone := (h.change T hT ⟨t, ht, by omega, by omega⟩).2
    by_cases hm : T + z.shift (T - 1) = 86400 * D
    · exact (hno T hT).1 (dayAt_eq_iff_toLocal.2 (by simp only [toLocal]; omega))
    · exact (hno T hT).2 (dayAt_eq_iff_toLocal.2 (by simp only [toLocal]; omega))
  · rintro ⟨T, hT, hlt, hday⟩
    exact (hno T hT).1 hday

end Alone

/-! ## Every date -/

/-- The change that counts is the one on the date. -/
theorem hourCount_iff (h : z.HourlyAround D) (hT : z.ChangesAt T) (hD : D = z.dayAt T ∨ D = z.dayAt (T - 1)) :
    (z.hourCount D = 23 ↔ z.HourSkipped D) ∧ (z.hourCount D = 25 ↔ z.HourRepeated D) := by
  have hs := h.singleChange hT hD
  have hday := hs.changeDay hD
  obtain ⟨-, -, h23, h25⟩ := hday.hourCount_iff
  have hbefore := hs.shift_before
  have hafter := hs.shift_after
  rw [← hbefore] at h23
  rw [← hafter] at h25
  -- any other change is too far off for its hour to belong to the date
  have hnear {v : Int} (hv : z.ChangesAt v) (hlo : 86400 * D - 86400 < v) (hhi : v < 86400 * D + 172800) : v = T := by
    have hb := z.toLocal_bounds T
    have hb' := z.toLocal_bounds (T - 1)
    rcases hD with hD | hD
    all_goals
      have hin := dayAt_eq_iff_toLocal.1 hD.symm
      exact hs.alone v hv (by omega) (by omega)
  constructor
  · rw [h23]
    constructor
    · rintro ⟨hone, hd⟩
      exact ⟨T, hT, by omega, hd⟩
    · rintro ⟨v, hv, hlt, hd⟩
      have hb := z.shift_bounds (v - 1)
      obtain rfl := hnear hv (by simp only [Clock.dayNumber] at hd; omega) (by simp only [Clock.dayNumber] at hd; omega)
      have := hs.hourly
      exact ⟨by omega, hd⟩
  · rw [h25]
    constructor
    · rintro ⟨hone, hd⟩
      exact ⟨T, hT, by omega, hd⟩
    · rintro ⟨v, hv, hlt, hd⟩
      have hb := z.shift_bounds v
      obtain rfl := hnear hv (by simp only [Clock.dayNumber] at hd; omega) (by simp only [Clock.dayNumber] at hd; omega)
      have := hs.hourly
      exact ⟨by omega, hd⟩

/-- After the first date and up to the last one the program comes to its end with the hours of a date, and with the
question which copy of an hour it is. -/
theorem valuesChecked_hour_eq (h : z.HourlyAround D) (hlo : Clock.firstDay < D) (hhi : D ≤ Clock.lastDay)
    (hu : z.dayAt u = D) (hin : Clock.InTime u) :
    Field.hour.valuesChecked (some ⟨z, u⟩) = .ok (Field.hour.values (some ⟨z, u⟩)) ∧
      z.isRepeatChecked u = .ok (z.isRepeat u) := by
  constructor
  · refine Field.valuesChecked_eq ?_
    simp only [Field.valuesChecked, changesOnDayChecked_eq (hu ▸ hlo) (hu ▸ hhi), bind_ok]
    cases hc : z.changesOnDay u with
    | false => exact ⟨_, rfl⟩
    | true =>
      -- a change is seen, so there is one on the date or at its end
      have hlast := (changesOnDay_iff.1 hc).1
      rw [hu] at hlast ⊢
      rcases z.exists_changesAt_or_alone D with ⟨T, hT, hD⟩ | hno
      · exact ((h.singleChange hT hD).changeDay hD).exists_hoursOfDayChecked hlo hlast
      · rw [changesOnDay_of_alone h hno hu rfl hu] at hc
        cases hc
  · obtain ⟨b, hb⟩ := exists_isRepeatChecked hin (hu ▸ hlo) (hu ▸ hhi)
    rw [hb, isRepeat_of_checked hin.2 hb]

/-- A date around which offsets are whole hours and at most one change happens, by one hour at a full hour, is a
stretch of hours: 23 of them if one is skipped, 25 if one is repeated, and otherwise 24. The calendar lists these
hours, and looks every instant up at its own, unless there are not 24 and nothing on the date tells so. This is what
the program comes to, for all dates after the first one. -/
theorem exists_ofHours (h : z.HourlyAround D) (hlo : Clock.firstDay < D) (hhi : D ≤ Clock.lastDay)
    (ht : z.dayAt t = D) :
    (∃ (start : Int) (n : Nat), z.OfHours D start n ∧
      23 ≤ n ∧ n ≤ 25 ∧ (n = 23 ↔ z.HourSkipped D) ∧ (n = 25 ↔ z.HourRepeated D) ∧
      (z.ListsHours D start n ↔ ¬ (n ≠ 24 ∧ (z.ChangesAt (start + 3600 * n) ∨ Clock.lastDay ≤ D)))) ∧
    ∀ u, z.dayAt u = D → Clock.InTime u →
      Field.hour.valuesChecked (some ⟨z, u⟩) = .ok (Field.hour.values (some ⟨z, u⟩)) ∧
        z.isRepeatChecked u = .ok (z.isRepeat u) := by
  refine ⟨?_, fun u hu hin => h.valuesChecked_hour_eq hlo hhi hu hin⟩
  rcases z.exists_changesAt_or_alone D with ⟨T, hT, hD⟩ | hno
  · have hday := (h.singleChange hT hD).changeDay hD
    obtain ⟨h23, h25⟩ := h.hourCount_iff hT hD
    exact ⟨_, _, hday.ofHours, hday.hourCount_iff.1, hday.hourCount_iff.2.1, h23, h25, hday.listsHours_iff hD ht⟩
  · obtain ⟨hskip, hrepeat⟩ := not_hourSkipped_of_alone h hno ht
    exact ⟨_, 24, ofHours_of_alone h hno ht rfl, by decide, by decide, iff_of_false (by decide) hskip,
      iff_of_false (by decide) hrepeat, iff_of_true (listsHours_of_alone h hno ht rfl) fun hbad => hbad.1 rfl⟩

end HourlyAround

/-! ## Scoresbysund, two hours behind universal time, or one -/

/-- It is enough to look at the transitions from four days before the date to five days after it. -/
theorem hourlyAround_of_transitions (hfull : T % 3600 = 0) (hbefore : z.shift (T - 1) % 3600 = 0)
    (hone : z.shift T = z.shift (T - 1) + 3600 ∨ z.shift (T - 1) = z.shift T + 3600)
    (hlo : 86400 * D - 345600 < T) (hhi : T < 86400 * D + 432000)
    (h : ∀ c ∈ z.transitions, 86400 * D - 345600 < c.instant → c.instant < 86400 * D + 432000 → c.instant = T) :
    z.HourlyAround D := by
  have hnear {u : Int} (hu : z.Near D u) : 86400 * D - 345600 < u ∧ u < 86400 * D + 432000 := by
    obtain ⟨v, hv, h1, h2⟩ := hu
    have hb := z.toLocal_bounds v
    have hin := dayAt_eq_iff_toLocal.1 hv
    omega
  have hchange {v : Int} (hv : z.ChangesAt v) (h1 : 86400 * D - 345600 < v) (h2 : v < 86400 * D + 432000) : v = T := by
    obtain ⟨c, hc, rfl⟩ := exists_transition_of_changesAt hv
    exact h c hc h1 h2
  refine ⟨fun u hu => ?_, fun v hv hn => ?_, fun v w hv hw hnv hnw => ?_⟩
  · obtain ⟨h1, h2⟩ := hnear hu
    rcases Int.lt_or_le u T with hlt | hle
    · have := shift_eq_of_unchanged (z := z) (t := u) (u := T - 1) (by omega) fun v h3 h4 hv => by
        have := hchange hv (by omega) (by omega)
        omega
      omega
    · have := shift_eq_of_unchanged (z := z) hle fun v h3 h4 hv => by
        have := hchange hv (by omega) (by omega)
        omega
      omega
  · obtain ⟨h1, h2⟩ := hnear hn
    obtain rfl := hchange hv h1 h2
    exact ⟨hfull, hone⟩
  · rw [hchange hv (hnear hnv).1 (hnear hnv).2, hchange hw (hnear hnw).1 (hnear hnw).2]

/-- On 26 October 2025 the clocks were set back from midnight to 23:00. The date before has 25 hours, and the calendar
lists them. -/
theorem exists_ofHours_scoresbysund :
    scoresbysund.HourlyAround 20386 ∧ Clock.firstDay < 20386 ∧ 20386 ≤ Clock.lastDay ∧
      scoresbysund.dayAt 1761400800 = 20386 ∧
      (∃ start, scoresbysund.OfHours 20386 start 25 ∧ scoresbysund.ListsHours 20386 start 25) ∧
      Field.hour.valuesChecked (some ⟨scoresbysund, 1761400800⟩) =
        .ok (Field.hour.values (some ⟨scoresbysund, 1761400800⟩)) := by
  obtain ⟨halone, hT, hT', hend, hend', hstart, hbefore, ht⟩ :
      (∀ c ∈ scoresbysund.transitions, 86400 * 20386 - 345600 < c.instant → c.instant < 86400 * 20386 + 432000 →
          c.instant = 1761440400) ∧
        scoresbysund.shift (1761440400 - 1) = -3600 ∧ scoresbysund.shift 1761440400 = -7200 ∧
        scoresbysund.shift (1761444000 - 1) = -7200 ∧ scoresbysund.shift 1761444000 = -7200 ∧
        scoresbysund.dayAt 1761354000 = 20386 ∧ scoresbysund.dayAt 1761353999 ≠ 20386 ∧
        scoresbysund.dayAt 1761400800 = 20386 := by decide +kernel
  obtain ⟨hlo, hhi, hin⟩ : Clock.firstDay < 20386 ∧ 20386 ≤ Clock.lastDay ∧ Clock.InTime 1761400800 := by decide
  have h : scoresbysund.HourlyAround 20386 :=
    hourlyAround_of_transitions (by decide) (by rw [hT]; decide) (.inr (by rw [hT, hT']; decide)) (by decide)
      (by decide) halone
  have hrepeat : scoresbysund.HourRepeated 20386 :=
    ⟨1761440400, by rw [ChangesAt, hT, hT']; decide, by rw [hT, hT']; decide, by rw [hT']; decide⟩
  obtain ⟨⟨start, n, hof, -, -, -, h25, hlists⟩, hchecked⟩ := h.exists_ofHours hlo hhi ht
  obtain rfl : n = 25 := h25.2 hrepeat
  have hfirst := (hof.dayAt_iff 1761354000).1 hstart
  have hprevious := mt (hof.dayAt_iff 1761353999).2 hbefore
  obtain rfl : start = 1761354000 := by omega
  refine ⟨h, hlo, hhi, ht, ⟨_, hof, hlists.2 fun ⟨_, hbad⟩ => ?_⟩, (hchecked _ ht hin).1⟩
  rcases hbad with hch | hlast
  · exact hch (hend.trans hend'.symm)
  · exact absurd hlast (by decide)

/-- On 29 March 2025 the clocks were put forward from 23:00 to midnight. The calendar has hour 23 on a date that never
shows it. -/
theorem not_ofHours_scoresbysund :
    scoresbysund.HourlyAround 20176 ∧ scoresbysund.dayAt 1743287400 = 20176 ∧
      Field.hour.values (some ⟨scoresbysund, 1743287400⟩) = Field.interval 0 23 ∧
      ∀ u, scoresbysund.dayAt u = 20176 → Clock.hour (scoresbysund.toLocal u) ≠ 23 := by
  obtain ⟨halone, hT, hT', ht, hvalues⟩ :
      (∀ c ∈ scoresbysund.transitions, 86400 * 20176 - 345600 < c.instant → c.instant < 86400 * 20176 + 432000 →
          c.instant = 1743296400) ∧
        scoresbysund.shift (1743296400 - 1) = -7200 ∧ scoresbysund.shift 1743296400 = -3600 ∧
        scoresbysund.dayAt 1743287400 = 20176 ∧
        Field.hour.values (some ⟨scoresbysund, 1743287400⟩) = Field.interval 0 23 := by decide +kernel
  refine ⟨hourlyAround_of_transitions (by decide) (by rw [hT]; decide) (.inl (by rw [hT, hT']; decide)) (by decide)
    (by decide) halone, ht, hvalues, fun u hu hhour => ?_⟩
  have hz : scoresbysund.SpacedBy 172800 := (spacedBy_of_mem_known (by simp [known, americaZones])).mono (by decide)
  have hgap := toInstant_eq_of_gap hz (T := 1743296400) (l := scoresbysund.toLocal u)
  rw [hT, hT'] at hgap
  rw [dayAt_eq_iff_toLocal] at hu
  rw [Clock.hour_eq] at hhour
  exact (hgap (by omega) (by omega)).1 u rfl

end Almanac.Zone
