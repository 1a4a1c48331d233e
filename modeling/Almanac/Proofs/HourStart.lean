import Almanac.Proofs.HourSteps
/-!
# The start of an hour

The start of an hour is found in two ways. Where the clocks seem to have shown the full hour, as long ago as
they show past it, this is taken without a look at the offset. Otherwise the hour has begun at a change, and a
walk back by whole minutes looks for it. As long as no change comes near half a day, both end at one instant,
the first of those since which the clocks have shown this hour with this offset.

- `Zone.HourSince`: what makes an instant belong to the hour without a break.
- `Zone.WalksBack`: the walk back, step by step, and `Zone.WalksBack.backWithinHour_eq`: a bound on its steps
  that is not too small is of no account.
- `Zone.firstMinute_of_showsFullHour`: where the full hour is taken, the walk would have ended there as well.
- `Zone.hourStart_spec`: the start of an hour is the first instant of its stretch.
-/
namespace Almanac.Zone

variable {z : Zone} {t u v a b : Int} {m n k : Nat}

/-- From `r` to `t` the clocks have shown the hour of `t`, with the offset of `t`. -/
def HourSince (z : Zone) (t r : Int) : Prop :=
  r ≤ t ∧ ∀ u, r ≤ u → u ≤ t → Clock.hour (z.toLocal u) = Clock.hour (z.toLocal t) ∧ z.shift u = z.shift t

/-- A stretch begins with the first instant since which they have. -/
theorem Stretch.isLeast (h : z.Stretch t a b) : IsLeast {r | z.HourSince t r} a := by
  refine ⟨⟨h.le, fun u hau hut => sameHour_iff.1 (h.same u hau (Int.lt_of_le_of_lt hut h.lt))⟩, ?_⟩
  rintro r ⟨-, hr⟩
  refine Int.le_of_not_gt fun hlt => ?_
  have hle := h.le
  have hbefore := sameHour_iff.2 (hr (a - 1) (by omega) (by omega))
  rw [h.before] at hbefore
  cases hbefore

/-! ## The walk back -/

/-- Begun at `u`, the walk back through the hour of `t` ends at `v` in its step number `n`. -/
inductive WalksBack (z : Zone) (t : Int) : Int → Nat → Int → Prop
  | stop {u : Int} (h : z.sameHour t (u - 60) = false) : WalksBack z t u 1 u
  | back {u v : Int} {n : Nat} (h : z.sameHour t (u - 60) = true) (hwalk : WalksBack z t (u - 60) n v) :
      WalksBack z t u (n + 1) v

namespace WalksBack

theorem pos (h : z.WalksBack t u n v) : 0 < n := by cases h <;> omega

/-- The last step leaves the walk where it is, so this many moves are one less. -/
theorem backWithinHour_eq (h : z.WalksBack t u n v) (hn : n ≤ m + 1) : z.backWithinHour t m u = v := by
  induction h generalizing m with
  | stop hstop => cases m <;> simp [backWithinHour, hstop]
  | back hback hwalk ih =>
    have := hwalk.pos
    obtain ⟨m, rfl⟩ : ∃ m', m = m' + 1 := ⟨m - 1, by omega⟩
    rw [backWithinHour, if_pos hback]
    exact ih (by omega)

theorem of_sameHour (h : ∀ i < k, z.sameHour t (v + 60 * i) = true) (hstop : z.sameHour t (v - 60) = false) :
    z.WalksBack t (v + 60 * k) (k + 1) v := by
  induction k with
  | zero => simpa using WalksBack.stop hstop
  | succ k ih =>
    have hprev : v + 60 * ((k + 1 : Nat) : Int) - 60 = v + 60 * k := by omega
    refine .back ?_ ?_ <;> rw [hprev]
    · exact h k (Nat.lt_succ_self k)
    · exact ih fun i hi => h i (by omega)

end WalksBack

/-- Where the full hour has not been shown, the walk ends a minute short of it at the latest. -/
theorem exists_walksBack (hm : z.WholeMinutes) (h : ¬ z.ShowsFullHour t) :
    ∃ n ≤ 59, z.WalksBack t (z.minuteStart t) n (z.firstMinute t) := by
  obtain ⟨k, hk, -, hsame⟩ := exists_firstMinute (hm.shift_minuteStart t)
  refine ⟨k + 1, ?_, hk ▸ .of_sameHour (fun i hi => hsame i (by omega)) sameHour_firstMinute_sub⟩
  obtain ⟨hh, hs⟩ := sameHour_iff.1 (hsame 0 (Nat.zero_le _))
  have hbounds := z.firstMinute_bounds t
  by_contra hlong
  -- sixty minutes of one hour begin at the full hour
  rw [minuteStart_eq_sub] at hk
  have hfull : z.firstMinute t = t - z.toLocal t % 3600 := by
    simp only [Int.natCast_zero, Int.mul_zero, Int.add_zero, Clock.hour_eq, toLocal] at *
    omega
  rw [Int.natCast_zero, Int.mul_zero, Int.add_zero, hfull] at hh hs
  refine h ⟨hh, ?_⟩
  rw [Clock.minute_eq, toLocal, hs]
  simp only [toLocal]
  omega

/-! ## The full hour -/

/-- At a change the clocks are put forward or back by less than this. -/
def ChangesByLess (z : Zone) (bound : Int) : Prop := ∀ T, z.ChangesAt T → -bound < z.jump T ∧ z.jump T < bound

/-- They are where all offsets lie in an interval shorter than that. -/
theorem changesByLess_of_offsets {bound : Int} (hab : b - a < bound)
    (hinitial : a ≤ z.initial.seconds ∧ z.initial.seconds ≤ b)
    (h : ∀ c ∈ z.transitions, a ≤ c.offset.seconds ∧ c.offset.seconds ≤ b) : z.ChangesByLess bound := fun T _ => by
  have hrange := shift_of_offsets (p := fun s => a ≤ s ∧ s ≤ b) hinitial h
  have h1 := hrange T
  have h2 := hrange (T - 1)
  simp only [jump]
  omega

theorem ChangesByLess.setBackAtMost (h : z.ChangesByLess 43200) : z.SetBackAtMost 82800 := fun t => by
  by_cases hch : z.ChangesAt t
  · have := h t hch
    simp only [jump] at this
    omega
  · have : z.shift (t - 1) = z.shift t := Decidable.not_not.1 hch
    omega

theorem ChangesByLess.not_dayAfterFullHour (h : z.ChangesByLess 43200) : ¬ z.DayAfterFullHour t :=
  fun ⟨T, hT, _, _, hjump⟩ => by
    have := h T hT
    omega

variable (hm : z.WholeMinutes) (hz : z.SpacedBy 172800) (hj : z.ChangesByLess 43200)
include hm hz hj

/-- The offset at the full hour is the one of the instant, and an hour is too short for a change there and back. -/
theorem firstMinute_of_showsFullHour (hfull : z.ShowsFullHour t) : z.firstMinute t = t - z.toLocal t % 3600 := by
  have hs := shift_of_showsFullHour hm hz hj.setBackAtMost hj.not_dayAfterFullHour hfull
  refine firstMinute_of_unchanged fun v hlo hvt => ?_
  by_contra hne
  obtain ⟨T, hT1, hT2, hT⟩ := exists_changesAt hlo fun he => hne (he.symm.trans hs)
  obtain ⟨U, hU1, hU2, hU⟩ := exists_changesAt hvt hne
  have := hz T U hT hU (by omega)
  omega

theorem hourStart_eq_firstMinute : z.hourStart t = z.firstMinute t := by
  rw [hourStart_eq_ite]
  split
  case isTrue hfull => exact (firstMinute_of_showsFullHour hm hz hj hfull).symm
  case isFalse => rfl

/-- Where offsets and the instants of changes are whole minutes, changes are two days apart and none comes to half a
day: the start of an hour is the first instant since which the clocks have shown this hour with this offset. It is
less than an hour back, and the walk that looks for it, where the full hour has not been shown, takes 59 steps at
most. -/
theorem hourStart_spec (t : Int) :
    IsLeast {r | z.HourSince t r} (z.hourStart t) ∧ t - z.hourStart t < 3600 ∧
      (¬ z.ShowsFullHour t → ∃ n ≤ 59, z.WalksBack t (z.minuteStart t) n (z.hourStart t)) := by
  obtain ⟨n, -, hstretch, -⟩ := z.exists_stretch hm t
  have hbounds := z.hourStart_bounds t
  refine ⟨?_, by omega, fun hfull => ?_⟩
  · rw [hourStart_eq_firstMinute hm hz hj]
    exact hstretch.isLeast
  · rw [hourStart_eq_firstMinute hm hz hj]
    exact exists_walksBack hm hfull

omit hm hz hj

/-- On 14 August 2015 the clocks of Pyongyang were set back from midnight to 23:30. At 23:40 after that the full hour
lies before the change, and the walk ends at half past. -/
theorem hourStart_spec_pyongyang :
    pyongyang.WholeMinutes ∧ pyongyang.SpacedBy 172800 ∧ pyongyang.ChangesByLess 43200 ∧
      ¬ pyongyang.ShowsFullHour 1439565000 ∧ IsLeast {r | pyongyang.HourSince 1439565000 r} 1439564400 ∧
      ∃ n ≤ 59, pyongyang.WalksBack 1439565000 1439565000 n 1439564400 := by
  have hj : pyongyang.ChangesByLess 43200 :=
    changesByLess_of_offsets (a := 30180) (b := 32400) (by decide) (by decide +kernel) (by decide +kernel)
  have hfull : ¬ pyongyang.ShowsFullHour 1439565000 := by decide +kernel
  have hstart : pyongyang.hourStart 1439565000 = 1439564400 := by decide +kernel
  obtain ⟨hleast, -, hloop⟩ := hourStart_spec wholeMinutes_pyongyang spacedBy_pyongyang hj 1439565000
  rw [hstart] at hleast hloop
  rw [show pyongyang.minuteStart 1439565000 = 1439565000 by decide +kernel] at hloop
  exact ⟨wholeMinutes_pyongyang, spacedBy_pyongyang, hj, hfull, hleast, hloop hfull⟩

end Almanac.Zone
