import Almanac.Zone.Day
/-!
# Days with a change, and the walk back within an hour

- `Zone.dayAt_eq_iff_toLocal`: the local times of a date.
- `Zone.changesOnDay_iff`: what is compared to see a change on a day.
- `Zone.sameHour_firstMinute_sub`: the minute before the first one of an hour belongs to another hour
  or has another offset. One hour with one offset has 60 minutes, so the bound of the walk never
  cuts it short.
-/
namespace Almanac.Zone

variable {z : Zone} {t u day : Int}

/-- The local times of a date. -/
theorem dayAt_eq_iff_toLocal : z.dayAt t = day ↔ 86400 * day ≤ z.toLocal t ∧ z.toLocal t < 86400 * day + 86400 := by
  simp only [dayAt, Clock.dayNumber]
  omega

theorem changesOnDay_iff : z.changesOnDay t = true ↔ z.dayAt t < Clock.lastDay ∧
    (z.shift (z.startOfDay (z.dayAt t) - 1) ≠ z.shift (z.startOfDay (z.dayAt t)) ∨
      z.shift (z.startOfDay (z.dayAt t)) ≠ z.shift (z.startOfDay (z.dayAt t + 1) - 1)) := by
  by_cases hday : z.dayAt t < Clock.lastDay <;> simp [changesOnDay, hday]

theorem sameHour_iff :
    z.sameHour t u = true ↔
      Clock.hour (z.toLocal u) = Clock.hour (z.toLocal t) ∧ z.shift u = z.shift t := by
  simp [sameHour]

/-- An hour earlier with the same offset is another hour. -/
theorem sameHour_sub_hour (h : z.sameHour t u = true) : z.sameHour t (u - 3600) = false := by
  rw [Bool.eq_false_iff]
  intro h'
  obtain ⟨hh, hs⟩ := sameHour_iff.1 h
  obtain ⟨hh', hs'⟩ := sameHour_iff.1 h'
  rw [← hh', toLocal, toLocal, hs, hs'] at hh
  simp only [Clock.hour, Clock.secondOfDay] at hh
  omega

theorem backWithinHour_spec (n : Nat) :
    z.sameHour t (z.backWithinHour t n u - 60) = false ∨
      (z.backWithinHour t n u = u - 60 * n ∧
        ∀ k : Nat, k < n → z.sameHour t (u - 60 * (k + 1)) = true) := by
  induction n generalizing u with
  | zero => exact .inr ⟨by simp [backWithinHour], fun _ h => by cases h⟩
  | succ n ih =>
    unfold backWithinHour
    by_cases h : z.sameHour t (u - 60) = true
    · rw [if_pos h]
      rcases ih (u := u - 60) with hl | ⟨he, hk⟩
      · exact .inl hl
      · refine .inr ⟨by rw [he]; push_cast; omega, fun k hkn => ?_⟩
        cases k with
        | zero => simpa using h
        | succ k =>
          rw [show u - 60 * ((k + 1 : Nat) + 1 : Int) = u - 60 - 60 * (k + 1) by push_cast; omega]
          exact hk k (by omega)
    · rw [if_neg h]
      exact .inl (by simpa using h)

theorem sameHour_firstMinute_sub : z.sameHour t (z.firstMinute t - 60) = false := by
  rcases backWithinHour_spec (z := z) (t := t) (u := z.minuteStart t) 60 with h | ⟨he, hk⟩
  · exact h
  · rw [firstMinute, he,
      show z.minuteStart t - 60 * (60 : Nat) - 60 = z.minuteStart t - 60 - 3600 by
        push_cast; omega]
    exact sameHour_sub_hour (by simpa using hk 0 (by decide))

end Almanac.Zone
