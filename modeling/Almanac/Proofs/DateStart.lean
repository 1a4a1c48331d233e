import Almanac.Proofs.BrokenSearch
import Almanac.Proofs.DayHours
import Almanac.Proofs.DistanceLaw
/-!
# Before and after a change, and the start of a date

Where changes are two days apart, a change divides time: whatever is shown before it is shown no later
than the last second before it, and whatever is shown from it on no earlier than its first second. So a
time that is shown at all has an earliest instant before which the clocks only show earlier times, and a
date that the calendar sees a change on begins with its start.

- `Zone.toLocal_le_before`, `Zone.toLocal_le_after`: the two sides of a change.
- `Zone.toLocal_lt_of_lt_toInstant`: what is shown before the earliest instant of a local time.
- `Zone.not_changesAt_of_startOfDay`: one date has room for one change only.
- `Zone.startOfDay_cases_of_changesOnDay`: how a date begins on which a change is seen.
-/
namespace Almanac.Zone

variable {z : Zone} {t T x y l day : Int}

/-! ## The two sides of a change -/

theorem SpacedBy.eq_of_near {gap : Int} (hz : z.SpacedBy gap) (hx : z.ChangesAt x) (hy : z.ChangesAt y)
    (hxy : x < y + gap) (hyx : y < x + gap) : x = y := by
  rcases Int.lt_trichotomy x y with hlt | heq | hlt
  · have := hz x y hx hy hlt
    omega
  · exact heq
  · have := hz y x hy hx hlt
    omega

theorem toLocal_before (hz : z.SpacedBy 172800) (hT : z.ChangesAt T) (hlo : T - 172800 ≤ t) (ht : t < T) :
    z.toLocal (T - 1) = z.toLocal t + (T - 1 - t) :=
  toLocal_of_unchanged (by omega) fun v hv hvT hch => by
    have := hz v T hch hT (by omega)
    omega

theorem toLocal_after (hz : z.SpacedBy 172800) (hT : z.ChangesAt T) (ht : T ≤ t) (hhi : t < T + 172800) :
    z.toLocal t = z.toLocal T + (t - T) :=
  toLocal_of_unchanged ht fun v hv hvt hch => by
    have := hz T v hT hch hv
    omega

theorem toLocal_le_before (hz : z.SpacedBy 172800) (hT : z.ChangesAt T) (ht : t < T) :
    z.toLocal t ≤ z.toLocal (T - 1) := by
  by_cases hlo : T - 172800 ≤ t
  · have := toLocal_before hz hT hlo ht
    omega
  · have := z.toLocal_bounds t
    have := z.toLocal_bounds (T - 1)
    omega

theorem toLocal_le_after (hz : z.SpacedBy 172800) (hT : z.ChangesAt T) (ht : T ≤ t) :
    z.toLocal T ≤ z.toLocal t := by
  by_cases hhi : t < T + 172800
  · have := toLocal_after hz hT ht hhi
    omega
  · have := z.toLocal_bounds t
    have := z.toLocal_bounds T
    omega

/-- Two days after a change the clocks have gone on, however far they were set back since. -/
theorem toLocal_add_le (hz : z.SpacedBy 172800) {most : Int} (hb : z.SetBackAtMost most) (hmost : 0 ≤ most)
    (hT : z.ChangesAt T) (ht : T + 172800 ≤ t) : z.toLocal T + 172800 - most ≤ z.toLocal t := by
  have hlast := toLocal_after hz hT (t := T + 172799) (by omega) (by omega)
  by_cases hch : ∃ v, T + 172799 < v ∧ v ≤ t ∧ z.ChangesAt v
  · obtain ⟨v, hv, hvt, hch⟩ := hch
    have hle := toLocal_le_after hz hch hvt
    have hbefore := toLocal_le_before hz hch hv
    have hback := hb v
    simp only [toLocal] at *
    omega
  · have := toLocal_of_unchanged (z := z) (t := T + 172799) (u := t) (by omega)
      fun v hv hvt hv' => hch ⟨v, hv, hvt, hv'⟩
    omega

/-! ## The earliest instant of a local time -/

theorem toLocal_lt_of_lt_toInstant (hz : z.SpacedBy 172800) (hl : ∃ u, z.toLocal u = l)
    (ht : t < z.toInstant l) : z.toLocal t < l := by
  obtain ⟨u, hu⟩ := hl
  obtain ⟨hx, hleast⟩ := toInstant_of_shown hu
  have hne (v : Int) (hv : v ≤ t) : z.toLocal v ≠ l := fun he => by
    have := hleast v he
    omega
  refine Int.lt_of_not_ge fun hge => ?_
  -- the clocks run over `l` without showing it, and never come back to it
  have hnear := z.toLocal_bounds t
  have hfar := z.toLocal_bounds (l - 86400)
  have := hne t (by omega)
  obtain ⟨T, h1, h2, h3, h4⟩ := exists_crossing (p := fun v => z.toLocal v < l) (a := l - 86400) (b := t)
    (by omega) (by omega) (by omega)
  have := hne T h2
  have := toLocal_le_after hz (changesAt_of_toLocal (T := T) (by omega)) (t := z.toInstant l) (by omega)
  omega

/-- A local time in the gap of a change is never shown, and stands for a time from the change on. -/
theorem toInstant_eq_of_gap (hz : z.SpacedBy 172800) (hle : T + z.shift (T - 1) ≤ l) (hlt : l < T + z.shift T) :
    (∀ t, z.toLocal t ≠ l) ∧ z.toInstant l = l - z.shift (T - 1) := by
  have hT : z.ChangesAt T := fun he => by omega
  have hb := z.shift_bounds T
  have hb' := z.shift_bounds (T - 1)
  have hno (t : Int) : z.toLocal t ≠ l := fun he => by
    by_cases ht : t < T
    · have := toLocal_le_before hz hT ht
      simp only [toLocal] at *
      omega
    · have := toLocal_le_after hz hT (t := t) (by omega)
      simp only [toLocal] at *
      omega
  have hbefore := toLocal_before hz hT (t := l - 86400) (by omega) (by omega)
  refine ⟨hno, ?_⟩
  rw [toInstant, toInstant?_eq_none_iff.2 hno, Option.getD_none]
  simp only [toLocal] at hbefore
  omega

/-- Before a change that comes earlier than a local time only earlier times are shown. -/
theorem toLocal_sub_one_lt (hz : z.SpacedBy 172800) (hy : z.ChangesAt y) (hyl : y < z.toInstant l) :
    z.toLocal (y - 1) < l := by
  by_cases hl : ∃ u, z.toLocal u = l
  · exact toLocal_lt_of_lt_toInstant hz hl (by omega)
  · obtain ⟨T, -, -, hT, hle, hlt⟩ := exists_gap fun u hu => hl ⟨u, hu⟩
    have hstart := (toInstant_eq_of_gap hz hle hlt).2
    have hb := z.shift_bounds T
    have hb' := z.shift_bounds (T - 1)
    have hyT : y ≤ T := Int.le_of_not_gt fun hTy => by
      have := hz T y hT hy hTy
      omega
    have hbefore := toLocal_le_before hz hT (t := y - 1) (by omega)
    simp only [toLocal] at *
    omega

/-- Between two changes lies more than the rest of a date. -/
theorem not_changesAt_of_toLocal_lt (hz : z.SpacedBy 172800) (hx : z.ChangesAt x)
    (hlow : Clock.midnight day - 86400 < z.toLocal x) (hxy : x < y)
    (hlt : z.toLocal (y - 1) < Clock.midnight (day + 1)) : ¬ z.ChangesAt y := fun hy => by
  have hb := z.toLocal_bounds x
  have hb' := z.toLocal_bounds (y - 1)
  have hsp := hz x y hx hy hxy
  simp only [Clock.midnight] at *
  have hrun : z.toLocal (y - 1) = z.toLocal x + (y - 1 - x) :=
    toLocal_of_unchanged (by omega) fun v hv hvy hv' => by
      have := hz x v hx hv' hv
      have := hz v y hv' hy (by omega)
      omega
  omega

theorem not_changesAt_of_startOfDay (hz : z.SpacedBy 172800) (hx : z.ChangesAt x)
    (hlow : Clock.midnight day - 86400 < z.toLocal x) (hxy : x < y) (hy : y < z.startOfDay (day + 1)) :
    ¬ z.ChangesAt y := fun hch =>
  not_changesAt_of_toLocal_lt hz hx hlow hxy (toLocal_sub_one_lt hz hch hy) hch

/-! ## Dates that the calendar sees a change on -/

/-- A gap that has begun by the midnight of a date is over before the next date starts. -/
theorem lt_startOfDay_of_gap (hz : z.SpacedBy 172800) (hT : z.ChangesAt T)
    (hle : T + z.shift (T - 1) ≤ Clock.midnight (z.dayAt t)) : T < z.startOfDay (z.dayAt t + 1) := by
  have hday := dayAt_eq_iff_toLocal.1 (rfl : z.dayAt t = _)
  have hnext := le_toLocal_toInstant hz (Clock.midnight (z.dayAt t + 1))
  rw [← startOfDay] at hnext
  have hTt : T ≤ t := Int.le_of_not_gt fun htT => by
    have := toLocal_le_before hz hT htT
    simp only [Clock.midnight, toLocal] at *
    omega
  have := toLocal_le_after hz hT hTt
  refine Int.lt_of_not_ge fun hge => ?_
  rcases Int.lt_or_eq_of_le hge with hlt | heq
  · have := toLocal_le_before hz hT hlt
    simp only [Clock.midnight, toLocal] at *
    omega
  · rw [heq, Clock.midnight] at hnext
    omega

/-- Such a date begins at midnight, or with a gap that begins at midnight. A gap that begins before midnight is
taken for a part of the date before. -/
theorem startOfDay_cases_of_changesOnDay (hz : z.SpacedBy 172800) (hc : z.changesOnDay t = true) :
    z.toLocal (z.startOfDay (z.dayAt t)) = Clock.midnight (z.dayAt t) ∨
      z.toLocal (z.startOfDay (z.dayAt t) - 1) + 1 = Clock.midnight (z.dayAt t) ∧
        Clock.midnight (z.dayAt t) < z.toLocal (z.startOfDay (z.dayAt t)) := by
  by_cases hl : ∃ u, z.toLocal u = Clock.midnight (z.dayAt t)
  · obtain ⟨u, hu⟩ := hl
    exact .inl (toInstant_of_shown hu).1
  refine .inr ?_
  obtain ⟨T, -, -, hT, hle, hlt⟩ := exists_gap fun u hu => hl ⟨u, hu⟩
  have hstart : z.startOfDay (z.dayAt t) = _ := (toInstant_eq_of_gap hz hle hlt).2
  have hb := z.shift_bounds T
  have hb' := z.shift_bounds (T - 1)
  rcases (show z.startOfDay (z.dayAt t) = T ∨ T < z.startOfDay (z.dayAt t) by omega) with hTs | hTs
  · rw [hTs] at hstart ⊢
    simp only [toLocal]
    omega
  exfalso
  -- the offset after the gap is in force before the start already, and then that of the last second differs
  have hafter (v : Int) (hv : T ≤ v) (hv' : v < T + 172800) : z.shift v = z.shift T := by
    have := toLocal_after hz hT hv hv'
    simp only [toLocal] at this
    omega
  have hsT := hafter (z.startOfDay (z.dayAt t)) (by omega) (by omega)
  obtain ⟨-, hne | hne⟩ := changesOnDay_iff.1 hc
  · exact hne ((hafter (z.startOfDay (z.dayAt t) - 1) (by omega) (by omega)).trans hsT.symm)
  have hlast := lt_startOfDay_of_gap hz hT hle
  obtain ⟨y, hTy, hyl, hy⟩ := z.exists_changesAt (t := T) (u := z.startOfDay (z.dayAt t + 1) - 1) (by omega) (hsT ▸ hne)
  have hlow : Clock.midnight (z.dayAt t) - 86400 < z.toLocal T := by
    simp only [toLocal]
    omega
  exact not_changesAt_of_startOfDay hz hT hlow hTy (by omega) hy

/-- And it is not shown before its start. -/
theorem startOfDay_le_of_changesOnDay (hz : z.SpacedBy 172800) (hc : z.changesOnDay t = true) {u : Int}
    (hu : z.dayAt u = z.dayAt t) : z.startOfDay (z.dayAt t) ≤ u := by
  have hday : Clock.midnight (z.dayAt t) ≤ z.toLocal u := Field.midnight_le_iff.2 (Int.le_of_eq hu.symm)
  refine Int.le_of_not_gt fun hlt => ?_
  rcases startOfDay_cases_of_changesOnDay hz hc with hs | ⟨hs, hs'⟩
  · have := toLocal_lt_of_lt_toInstant hz ⟨_, hs⟩ hlt
    omega
  · have := toLocal_le_before hz (changesAt_of_toLocal (by omega)) hlt
    omega

/-! ## The samples of a date -/

/-- The samples that are taken while a test holds, by their positions. -/
theorem getElem?_takeWhile_map_range_iff {α : Type} {p : α → Bool} {g : Nat → α} {N i : Nat} {x : α} :
    (((List.range N).map g).takeWhile p)[i]? = some x ↔ i < N ∧ (∀ k ≤ i, p (g k) = true) ∧ g i = x := by
  constructor
  · intro h
    obtain ⟨n, hn, heq, hp⟩ := exists_takeWhile_map_range p g N
    rw [heq, List.getElem?_map, Option.map_eq_some_iff] at h
    obtain ⟨k, hk, hx⟩ := h
    obtain ⟨hlt, rfl⟩ := List.getElem?_eq_some_iff.1 hk
    rw [List.length_range] at hlt
    rw [List.getElem_range] at hx
    exact ⟨by omega, fun k hk => hp k (by omega), hx⟩
  · rintro ⟨hi, hp, rfl⟩
    exact getElem?_takeWhile_map_range hi hp

theorem getElem?_hoursOfDay_iff {i v : Nat} : (z.hoursOfDay day)[i]? = some v ↔
    i < 73 ∧ (∀ k ≤ i, z.dayAt (z.startOfDay day + 3600 * k) = day) ∧ z.hourAt day i = v := by
  rw [hoursOfDay, List.getElem?_map, Option.map_eq_some_iff]
  simp only [getElem?_takeWhile_map_range_iff, beq_iff_eq]
  constructor
  · rintro ⟨l, ⟨hi, hday, rfl⟩, hv⟩
    exact ⟨hi, hday, hv⟩
  · rintro ⟨hi, hday, hv⟩
    exact ⟨_, ⟨hi, hday, rfl⟩, hv⟩

end Almanac.Zone
