import Almanac.Proofs.ChangeDay
import Almanac.Proofs.Unchanged
/-!
# The hours of a day around a change of one hour

The calendar has the hours of such a day as they are shown, one for each 3600 seconds, so the
position of an hour among them counts the hours since the start of the day. A repeated hour stands at
the later of its two positions, and that is the one it is looked up at.

- `Zone.ChangeDay.values_hour`, `Zone.ChangeDay.values_minute`: the values of the fields.
- `Zone.ChangeDay.standsAt_hour`: where an instant stands among the hours.
- `Zone.ChangeDay.mem_values_hour`: every hour that is shown is among them.
-/
namespace Almanac.Zone

/-- How many hours a day has. -/
def hourCount (z : Zone) (day : Int) : Nat := ((z.startOfDay (day + 1) - z.startOfDay day) / 3600).toNat

/-- The hour that is shown so many hours after the start of a day. -/
def hourAt (z : Zone) (day : Int) (i : Nat) : Nat := Clock.hour (z.toLocal (z.startOfDay day + 3600 * i))

/-- How many hours after the start of its day an instant lies. -/
def hourIndex (z : Zone) (t : Int) : Nat := ((t - z.startOfDay (z.dayAt t)) / 3600).toNat

namespace ChangeDay

variable {z : Zone} {T before after D t u : Int} {i j v : Nat}

theorem hourIndex_spec (h : z.ChangeDay T before after D) (ht : z.dayAt t = D) :
    z.startOfDay D + 3600 * z.hourIndex t = 3600 * (t / 3600) ∧ z.hourIndex t < z.hourCount D := by
  have := h.span
  have := h.dayAt_eq_iff.1 ht
  rw [hourIndex, hourCount, ht]
  omega

theorem dayAt_hour_iff (h : z.ChangeDay T before after D) :
    z.dayAt (z.startOfDay D + 3600 * i) = D ↔ i < z.hourCount D := by
  have := h.span
  rw [h.dayAt_eq_iff, hourCount]
  omega

theorem hourAt_hourIndex (h : z.ChangeDay T before after D) (ht : z.dayAt t = D) :
    z.hourAt D (z.hourIndex t) = Clock.hour (z.toLocal t) := by
  obtain ⟨hlo, hhi⟩ := h.near ht
  have hlo' : T - 259200 ≤ t := by omega
  have hhi' : t < T + 259200 := by omega
  have hmod := h.toLocal_mod hlo' hhi'
  rw [hourAt, (h.hourIndex_spec ht).1, toLocal, h.shift_of_hour hlo' hhi' (by omega), Clock.hour_eq,
    Clock.hour_eq]
  rw [toLocal] at hmod ⊢
  omega

/-- On a date the hour tells the time up to the minutes and seconds. -/
theorem toLocal_of_hour (h : z.ChangeDay T before after D) (ht : z.dayAt t = D) (hu : z.dayAt u = D)
    (hhour : Clock.hour (z.toLocal u) = Clock.hour (z.toLocal t)) (hmod : u % 3600 = t % 3600) :
    z.toLocal u = z.toLocal t := by
  obtain ⟨hlo, hhi⟩ := h.near ht
  obtain ⟨hlo', hhi'⟩ := h.near hu
  have h1 := h.toLocal_mod (t := t) (by omega) (by omega)
  have h2 := h.toLocal_mod (t := u) (by omega) (by omega)
  simp only [dayAt, Clock.dayNumber, Clock.hour_eq] at *
  omega

/-- The hour that is shown, counted on from the full hours of UTC. -/
theorem hour_cases (h : z.ChangeDay T before after D) (ht : z.dayAt t = D) :
    (t < T ∧ (Clock.hour (z.toLocal t) : Int) = t / 3600 + before - 24 * D) ∨
      (T ≤ t ∧ (Clock.hour (z.toLocal t) : Int) = t / 3600 + after - 24 * D) := by
  obtain ⟨hlo, hhi⟩ := h.near ht
  have hs := h.shift_cases (t := t) (by omega) (by omega)
  simp only [dayAt, Clock.dayNumber, Clock.hour_eq, toLocal] at ht ⊢
  omega

/-- The hours of a date go up, or stay at the change. -/
theorem hour_mono (h : z.ChangeDay T before after D) (ht : z.dayAt t = D) (hu : z.dayAt u = D)
    (htu : t ≤ u) : Clock.hour (z.toLocal t) ≤ Clock.hour (z.toLocal u) := by
  have hfull := h.fullHour
  have hourly := h.hourly
  have h1 := h.hour_cases ht
  have h2 := h.hour_cases hu
  omega

theorem hourAt_mono (h : z.ChangeDay T before after D) (hij : i ≤ j) (hj : j < z.hourCount D) :
    z.hourAt D i ≤ z.hourAt D j :=
  h.hour_mono (h.dayAt_hour_iff.2 (by omega)) (h.dayAt_hour_iff.2 hj) (by omega)

/-! ## Values -/

theorem hoursOfDay_eq (h : z.ChangeDay T before after D) :
    z.hoursOfDay D = (List.range (z.hourCount D)).map (z.hourAt D) := by
  have hcount : z.hourCount D ≤ 25 := by
    have := h.span
    rw [hourCount]
    omega
  rw [hoursOfDay, takeWhile_map_range (n := z.hourCount D) (by omega) (fun i hi => ?_) (fun _ => ?_), List.map_map]
  · rfl
  · exact beq_iff_eq.2 (h.dayAt_hour_iff.2 hi)
  · exact beq_eq_false_iff_ne.2 fun he => absurd (h.dayAt_hour_iff.1 he) (Nat.lt_irrefl _)

theorem values_hour (h : z.ChangeDay T before after D) (ht : z.dayAt t = D) (hc : z.changesOnDay t = true) :
    Field.hour.values (some ⟨z, t⟩) = (List.range (z.hourCount D)).map (z.hourAt D) := by
  rw [Field.values_hour_of_seen hc, ht, h.hoursOfDay_eq]

theorem getElem?_values_hour (h : z.ChangeDay T before after D) (ht : z.dayAt t = D)
    (hc : z.changesOnDay t = true) :
    (Field.hour.values (some ⟨z, t⟩))[i]? = some v ↔ i < z.hourCount D ∧ z.hourAt D i = v := by
  rw [h.values_hour ht hc, List.getElem?_map, Option.map_eq_some_iff]
  constructor
  · rintro ⟨k, hk, hv⟩
    obtain ⟨hlt, rfl⟩ := List.getElem?_eq_some_iff.1 hk
    simpa using And.intro hlt hv
  · rintro ⟨hi, hv⟩
    exact ⟨i, List.getElem?_range hi, hv⟩

theorem mem_values_hour (h : z.ChangeDay T before after D) (ht : z.dayAt t = D)
    (hc : z.changesOnDay t = true) (hu : z.dayAt u = D) :
    Clock.hour (z.toLocal u) ∈ Field.hour.values (some ⟨z, t⟩) := by
  rw [h.values_hour ht hc, ← h.hourAt_hourIndex hu]
  exact List.mem_map_of_mem (List.mem_range.2 (h.hourIndex_spec hu).2)

/-- A day counts as unchanged when the change does not fall into it, but the last day always does. -/
theorem unchanged_cases (h : z.ChangeDay T before after D) (ht : z.dayAt t = D)
    (hc : z.changesOnDay t = false) :
    Clock.lastDay ≤ D ∨ T < z.startOfDay D ∨ z.startOfDay (D + 1) ≤ T := by
  by_cases hlast : D < Clock.lastDay
  · have hspan := h.span
    have hourly := h.hourly
    simp only [changesOnDay, ht, if_pos hlast, Bool.or_eq_false_iff, bne_eq_false_iff_eq] at hc
    have h1 := h.shift_cases (t := z.startOfDay D - 1) (by omega) (by omega)
    have h2 := h.shift_cases (t := z.startOfDay D) (by omega) (by omega)
    have h3 := h.shift_cases (t := z.startOfDay (D + 1) - 1) (by omega) (by omega)
    omega
  · exact .inl (by omega)

theorem values_minute (h : z.ChangeDay T before after D) (ht : z.dayAt t = D) :
    Field.minute.values (some ⟨z, t⟩) = Field.interval 0 59 := by
  obtain ⟨hlo, hhi⟩ := h.near ht
  cases hc : z.changesOnDay t with
  | true =>
    rw [Field.values_minute_of_seen hc, h.minutesOfHour_eq (by omega) (by omega)]
  | false => exact Field.values_of_unchanged hc

/-! ## Positions -/

/-- Of two instants that show one local time the later is a repeat, and there is no third. -/
theorem isRepeat_of_toLocal (h : z.ChangeDay T before after D) (ht : z.dayAt t = D) (hu : z.dayAt u = D)
    (htu : t < u) (hl : z.toLocal u = z.toLocal t) : z.isRepeat u = true ∧ z.isRepeat t = false := by
  refine ⟨isRepeat_iff.2 ⟨t, htu, hl.symm⟩, Bool.eq_false_iff.2 fun hr => ?_⟩
  obtain ⟨w, hwt, hw⟩ := isRepeat_iff.1 hr
  obtain ⟨hlo, hhi⟩ := h.near ht
  obtain ⟨hlo', hhi'⟩ := h.near hu
  have hd : z.dayAt w = D := by rw [dayAt, hw, ← dayAt, ht]
  obtain ⟨hlo'', hhi''⟩ := h.near hd
  have h1 := h.shift_cases (t := t) (by omega) (by omega)
  have h2 := h.shift_cases (t := u) (by omega) (by omega)
  have h3 := h.shift_cases (t := w) (by omega) (by omega)
  simp only [toLocal] at hl hw
  omega

theorem position?_hour (h : z.ChangeDay T before after D) (ht : z.dayAt t = D)
    (hc : z.changesOnDay t = true) :
    Field.hour.position? (some ⟨z, t⟩) (Clock.hour (z.toLocal t)) = some (z.hourIndex t) := by
  obtain ⟨hstart, hcount⟩ := h.hourIndex_spec ht
  have hhere := (h.getElem?_values_hour ht hc).2 ⟨hcount, h.hourAt_hourIndex ht⟩
  -- another position of the hour belongs to an instant that shows the same local time
  have hother (j : Nat) (hj : (Field.hour.values (some ⟨z, t⟩))[j]? = some (Clock.hour (z.toLocal t))) :
      ∃ u, z.dayAt u = D ∧ z.toLocal u = z.toLocal t ∧ u - t = 3600 * (j - z.hourIndex t) := by
    obtain ⟨hjc, hjv⟩ := (h.getElem?_values_hour ht hc).1 hj
    have hspan := h.span
    have hblock := h.dayAt_hour_iff.2 hjc
    have hu : z.dayAt (z.startOfDay D + 3600 * j + t % 3600) = D := h.dayAt_of_hour hblock (by omega)
    refine ⟨_, hu, h.toLocal_of_hour ht hu ?_ (by omega), by omega⟩
    rw [← h.hourAt_hourIndex hu, ← hjv]
    congr 1
    have := (h.hourIndex_spec hu).1
    omega
  unfold Field.position?
  by_cases hr : z.isRepeat t = true
  · rw [if_pos ⟨rfl, hr⟩]
    refine Sorted.lastPosition?_eq_some hhere fun j hlt hj => ?_
    obtain ⟨u, hu, hl, he⟩ := hother j hj
    have := (h.isRepeat_of_toLocal ht hu (by omega) hl).2
    rw [hr] at this
    cases this
  · rw [if_neg (by simpa using hr)]
    refine Sorted.idxOf?_eq_some_iff_getElem?.2 ⟨hhere, fun j hlt hj => ?_⟩
    obtain ⟨u, hu, hl, he⟩ := hother j hj
    exact hr (h.isRepeat_of_toLocal hu ht (by omega) hl.symm).1

theorem standsAt_hour (h : z.ChangeDay T before after D) (ht : z.dayAt t = D)
    (hc : z.changesOnDay t = true) :
    Field.hour.StandsAt (some ⟨z, t⟩) (Clock.hour (z.toLocal t)) (z.hourIndex t) where
  admits := Field.admits_ofLocal (by decide) _
  position := h.position?_hour ht hc
  value := (h.getElem?_values_hour ht hc).2 ⟨(h.hourIndex_spec ht).2, h.hourAt_hourIndex ht⟩
  sorted := by
    rw [h.values_hour ht hc, List.pairwise_map, List.pairwise_iff_getElem]
    intro i j hi hj hij
    simp only [List.length_range] at hj
    simpa using h.hourAt_mono (Nat.le_of_lt hij) hj
  within v hv := (Field.admits_of_mem_values hv).2

end ChangeDay
end Almanac.Zone
