import Mathlib.Data.Int.LeastGreatest
import Mathlib.Order.Bounds.Basic
import Almanac.Proofs.Units
import Almanac.Zone.Day.Lemmas
import Almanac.Zone.Lemmas
/-!
# Changes of the offset

What a zone's clocks show is settled by the instants at which its offset changes. A transition that
keeps the offset is none of them.

- `Zone.shift_eq_of_unchanged`: between two changes the offset is one and the same.
- `Zone.toInstant_of_gap`: where changes are two days apart, a local time that is never shown lies in
  the gap of one change, and stands for the time past it.
- `Zone.le_dayAt_startOfDay`: so the start of a day never falls on an earlier date.
- `Zone.hourStart_bounds`: the start of an hour is less than an hour back, whatever the changes are.
-/
namespace Almanac

theorem exists_crossing {p : Int → Prop} {a b : Int} (hab : a ≤ b) (ha : p a) (hb : ¬ p b) :
    ∃ t, a < t ∧ t ≤ b ∧ p (t - 1) ∧ ¬ p t := by
  obtain ⟨n, rfl⟩ := Int.le.dest hab
  induction n with
  | zero => exact absurd ha (by simpa using hb)
  | succ n ih =>
    by_cases h : p (a + n)
    · exact ⟨a + (n + 1 : Nat), by omega, by omega,
        by rwa [show a + ((n + 1 : Nat) : Int) - 1 = a + n by omega], hb⟩
    · obtain ⟨t, h1, h2, h3⟩ := ih (by omega) h
      exact ⟨t, h1, by omega, h3⟩

/-- Of the times from `c` on at which something is so, one is the first. -/
theorem exists_isLeast_from {p : Int → Prop} {c u : Int} (hcu : c ≤ u) (hu : p u) :
    ∃ m, IsLeast {v | c ≤ v ∧ p v} m := by
  obtain ⟨m, hm, hleast⟩ := Int.exists_least_of_bdd (P := fun v => c ≤ v ∧ p v)
    ⟨c, fun v hv => hv.1⟩ ⟨u, hcu, hu⟩
  exact ⟨m, hm, fun v hv => hleast v hv⟩

namespace Zone

variable {z : Zone} {t u l : Int}

/-- The offset is another one than a second before. -/
def ChangesAt (z : Zone) (t : Int) : Prop := z.shift (t - 1) ≠ z.shift t

/-- From one change of the offset to the next it takes at least so many seconds. -/
def SpacedBy (z : Zone) (gap : Int) : Prop :=
  ∀ t u, z.ChangesAt t → z.ChangesAt u → t < u → t + gap ≤ u

/-- The local date never goes back. -/
def DatesAscend (z : Zone) : Prop := ∀ t u, t ≤ u → z.dayAt t ≤ z.dayAt u

/-- The offset never changes. -/
def Steady (z : Zone) : Prop := ∀ t u, z.shift t = z.shift u

/-- The offset does not change within two weeks of the ends of time. -/
def CalmAtEnds (z : Zone) : Prop :=
  ∀ T, z.ChangesAt T → Clock.firstInstant + 1209600 < T ∧ T ≤ Clock.lastInstant - 1209600

theorem shift_bounds (z : Zone) (t : Int) : -86400 < z.shift t ∧ z.shift t < 86400 :=
  (z.offsetAt t).bounded

/-- Between two instants with different offsets there is a change. -/
theorem exists_changesAt (htu : t ≤ u) (h : z.shift t ≠ z.shift u) : ∃ v, t < v ∧ v ≤ u ∧ z.ChangesAt v := by
  obtain ⟨v, htv, hvu, hv, hv'⟩ := exists_crossing (p := fun v => z.shift v = z.shift t) htu rfl h.symm
  exact ⟨v, htv, hvu, fun he => hv' (he ▸ hv)⟩

theorem shift_eq_of_unchanged (htu : t ≤ u) (h : ∀ v, t < v → v ≤ u → ¬ z.ChangesAt v) :
    z.shift u = z.shift t := by
  refine Decidable.byContradiction fun hne => ?_
  obtain ⟨v, htv, hvu, hv⟩ := exists_changesAt htu (Ne.symm hne)
  exact h v htv hvu hv

/-- The offset changes only at a transition. -/
theorem exists_transition_of_changesAt (h : z.ChangesAt t) : ∃ c ∈ z.transitions, c.instant = t := by
  have key (start : Offset) (ts : List Transition) (hts : ∀ c ∈ ts, c.instant ≠ t) :
      offsetAfter start ts (t - 1) = offsetAfter start ts t := by
    induction ts generalizing start with
    | nil => rfl
    | cons c cs ih =>
      have hc := hts c List.mem_cons_self
      have ih' := ih c.offset fun d hd => hts d (List.mem_cons_of_mem _ hd)
      by_cases hct : c.instant ≤ t
      · simp only [offsetAfter, hct, show c.instant ≤ t - 1 by omega, if_true, ih']
      · simp only [offsetAfter, hct, show ¬ c.instant ≤ t - 1 by omega, if_false]
  by_contra hno
  refine h ?_
  rw [shift, shift, offsetAt, offsetAt, key z.initial z.transitions fun c hc he => hno ⟨c, hc, he⟩]

/-- Changes are as far apart as the transitions are. -/
theorem spacedBy_of_transitions {gap : Int}
    (h : ∀ c ∈ z.transitions, ∀ c' ∈ z.transitions, c.instant < c'.instant → c.instant + gap ≤ c'.instant) :
    z.SpacedBy gap := by
  intro t u ht hu htu
  obtain ⟨c, hc, rfl⟩ := exists_transition_of_changesAt ht
  obtain ⟨c', hc', rfl⟩ := exists_transition_of_changesAt hu
  exact h c hc c' hc' htu

theorem calmAtEnds_of_transitions (h : ∀ c ∈ z.transitions,
    Clock.firstInstant + 1209600 < c.instant ∧ c.instant ≤ Clock.lastInstant - 1209600) : z.CalmAtEnds := by
  intro T hT
  obtain ⟨c, hc, rfl⟩ := exists_transition_of_changesAt hT
  exact h c hc

theorem Steady.calmAtEnds (hz : z.Steady) : z.CalmAtEnds := fun T hT => absurd (hz (T - 1) T) hT

/-- The local date can go back at a transition only. -/
theorem datesAscend_of_transitions (h : ∀ c ∈ z.transitions, z.dayAt (c.instant - 1) ≤ z.dayAt c.instant) :
    z.DatesAscend := by
  intro t u htu
  refine Int.le_of_not_gt fun hlt => ?_
  obtain ⟨v, -, -, hle, hnot⟩ := exists_crossing (p := fun v => z.dayAt t ≤ z.dayAt v) htu
    (Int.le_refl _) (by omega)
  by_cases hv : z.ChangesAt v
  · obtain ⟨c, hc, rfl⟩ := exists_transition_of_changesAt hv
    exact hnot (Int.le_trans hle (h c hc))
  · have hshift : z.shift (v - 1) = z.shift v := Decidable.not_not.1 hv
    simp only [dayAt, Clock.dayNumber, toLocal, hshift] at hle hnot
    omega

/-! ## What a local time in a gap stands for -/

/-- A local time that is never shown lies in the gap of a change. -/
theorem exists_gap (hl : ∀ t, z.toLocal t ≠ l) :
    ∃ T, l - 86400 < T ∧ T ≤ l + 86400 ∧ z.ChangesAt T ∧ T + z.shift (T - 1) ≤ l ∧ l < T + z.shift T := by
  have ha := z.shift_bounds (l - 86400)
  have hb := z.shift_bounds (l + 86400)
  obtain ⟨T, h1, h2, hlt, hge⟩ := exists_crossing (p := fun t => z.toLocal t < l)
    (show l - 86400 ≤ l + 86400 by omega) (by simp only [toLocal]; omega) (by simp only [toLocal]; omega)
  have hne := hl T
  simp only [toLocal] at hlt hge hne
  exact ⟨T, h1, h2, fun he => by omega, by omega, by omega⟩

/-- The offset of the day before the gap is the one that runs into it. -/
theorem toInstant_of_gap (hz : z.SpacedBy 172800) (hl : ∀ t, z.toLocal t ≠ l) :
    ∃ T, z.ChangesAt T ∧ T + z.shift (T - 1) ≤ l ∧ l < T + z.shift T ∧ T ≤ z.toInstant l ∧
      z.toLocal (z.toInstant l) = l + (z.shift T - z.shift (T - 1)) := by
  obtain ⟨T, h1, h2, hT, hle, hlt⟩ := exists_gap hl
  have hbefore : z.shift (T - 1) = z.shift (l - 86400) :=
    shift_eq_of_unchanged (by omega) fun v hv hvT hch => by
      have := hz v T hch hT (by omega)
      omega
  have hto : z.toInstant l = l - z.shift (T - 1) := by
    rw [toInstant, toInstant?_eq_none_iff.2 hl, Option.getD_none, hbefore]
  have hb := z.shift_bounds T
  have hb' := z.shift_bounds (T - 1)
  have hafter : z.shift (l - z.shift (T - 1)) = z.shift T :=
    shift_eq_of_unchanged (by omega) fun v hv hvu hch => by
      have := hz T v hT hch hv
      omega
  refine ⟨T, hT, hle, hlt, by omega, ?_⟩
  rw [hto, toLocal, hafter]
  omega

/-- A local time stands for an instant that shows it or a later one. -/
theorem le_toLocal_toInstant (hz : z.SpacedBy 172800) (l : Int) : l ≤ z.toLocal (z.toInstant l) := by
  by_cases hl : ∃ t, z.toLocal t = l
  · obtain ⟨t, ht⟩ := hl
    exact Int.le_of_eq (toInstant_of_shown ht).1.symm
  · obtain ⟨T, -, h1, h2, -, he⟩ := toInstant_of_gap hz fun t ht => hl ⟨t, ht⟩
    omega

theorem le_dayAt_startOfDay (hz : z.SpacedBy 172800) (day : Int) : day ≤ z.dayAt (z.startOfDay day) :=
  Field.midnight_le_iff.1 (le_toLocal_toInstant hz _)

/-! ## Starts of minutes and hours -/

theorem minuteStart_eq_sub (z : Zone) (t : Int) : z.minuteStart t = t - z.toLocal t % 60 := by
  rw [minuteStart, Clock.second_eq]
  omega

theorem minuteStart_bounds (z : Zone) (t : Int) : t - 60 < z.minuteStart t ∧ z.minuteStart t ≤ t := by
  simp only [minuteStart, Clock.second_eq]
  omega

/-- The walk back passes minutes of the hour only. -/
theorem exists_backWithinHour_eq (z : Zone) (t : Int) (n : Nat) (u : Int) :
    ∃ k : Nat, k ≤ n ∧ z.backWithinHour t n u = u - 60 * k ∧ ∀ i < k, z.sameHour t (u - 60 * (i + 1)) = true := by
  induction n generalizing u with
  | zero => exact ⟨0, Nat.le_refl _, by simp [backWithinHour], fun i hi => absurd hi (Nat.not_lt_zero i)⟩
  | succ n ih =>
    unfold backWithinHour
    by_cases h : z.sameHour t (u - 60) = true
    · obtain ⟨k, hkn, hk, hsame⟩ := ih (u - 60)
      rw [if_pos h]
      refine ⟨k + 1, by omega, by rw [hk]; push_cast; omega, fun i hi => ?_⟩
      cases i with
      | zero => simpa using h
      | succ i =>
        rw [show u - 60 * (((i + 1 : Nat) : Int) + 1) = u - 60 - 60 * (i + 1) by push_cast; omega]
        exact hsame i (by omega)
    · rw [if_neg h]
      exact ⟨0, Nat.zero_le _, by simp, fun i hi => absurd hi (Nat.not_lt_zero i)⟩

/-- So it ends where it began or at another minute of the hour. -/
theorem firstMinute_cases (z : Zone) (t : Int) :
    z.firstMinute t = z.minuteStart t ∨ z.sameHour t (z.firstMinute t) = true := by
  obtain ⟨k, -, hk, hsame⟩ := z.exists_backWithinHour_eq t 60 (z.minuteStart t)
  rw [← firstMinute] at hk
  cases k with
  | zero => exact .inl (by simpa using hk)
  | succ k =>
    refine .inr ?_
    rw [hk]
    simpa using hsame k (Nat.lt_succ_self k)

/-- The walk back stays within the hour, of which it cannot leave more behind than there is. -/
theorem firstMinute_bounds (z : Zone) (t : Int) : t - 3600 < z.firstMinute t ∧ z.firstMinute t ≤ t := by
  have hm := z.minuteStart_bounds t
  obtain ⟨k, hk60, hk, -⟩ := z.exists_backWithinHour_eq t 60 (z.minuteStart t)
  rw [← firstMinute] at hk
  rcases z.firstMinute_cases t with he | hsame
  · omega
  · obtain ⟨hh, hs⟩ := sameHour_iff.1 hsame
    simp only [Clock.hour_eq, toLocal, hs] at hh
    omega

/-- Where the offset is the same since the full hour, the walk back ends there. -/
theorem firstMinute_of_unchanged
    (h : ∀ v, t - z.toLocal t % 3600 ≤ v → v ≤ t → z.shift v = z.shift t) :
    z.firstMinute t = t - z.toLocal t % 3600 := by
  have hbounds := z.firstMinute_bounds t
  have hbefore := sameHour_firstMinute_sub (z := z) (t := t)
  obtain ⟨k, hk60, hk, -⟩ := z.exists_backWithinHour_eq t 60 (z.minuteStart t)
  rw [← firstMinute] at hk
  rw [minuteStart_eq_sub] at hk
  rcases Int.lt_trichotomy (z.firstMinute t) (t - z.toLocal t % 3600) with hlt | heq | hgt
  -- the hour before is another one
  · rcases z.firstMinute_cases t with he | hsame
    · rw [minuteStart_eq_sub] at he
      omega
    · obtain ⟨hh, hs⟩ := sameHour_iff.1 hsame
      simp only [Clock.hour_eq, toLocal, hs] at hh hlt
      omega
  · exact heq
  · have hs := h (z.firstMinute t - 60) (by omega) (by omega)
    have hh : Clock.hour (z.toLocal (z.firstMinute t - 60)) = Clock.hour (z.toLocal t) := by
      simp only [Clock.hour_eq, toLocal, hs] at *
      omega
    rw [sameHour_iff.2 ⟨hh, hs⟩] at hbefore
    cases hbefore

/-- As many minutes and seconds before `t` as its clocks show past the full hour, they showed the full hour. -/
def ShowsFullHour (z : Zone) (t : Int) : Prop :=
  Clock.hour (z.toLocal (t - z.toLocal t % 3600)) = Clock.hour (z.toLocal t) ∧
    Clock.minute (z.toLocal (t - z.toLocal t % 3600)) = 0

instance (z : Zone) (t : Int) : Decidable (z.ShowsFullHour t) := by unfold ShowsFullHour; infer_instance

theorem hourStart_eq_ite (z : Zone) (t : Int) :
    z.hourStart t = if z.ShowsFullHour t then t - z.toLocal t % 3600 else z.firstMinute t := by
  have hfull : z.minuteStart t - 60 * Clock.minute (z.toLocal t) = t - z.toLocal t % 3600 := by
    rw [minuteStart_eq_sub, Clock.minute_eq]
    omega
  unfold hourStart
  simp only [hfull]
  rfl

theorem showsFullHour_of_unchanged (h : z.shift (t - z.toLocal t % 3600) = z.shift t) : z.ShowsFullHour t := by
  rw [ShowsFullHour, toLocal, h, Clock.hour_eq, Clock.hour_eq, Clock.minute_eq]
  rw [toLocal]
  omega

/-- Where the offset is the same at the full hour, the hour begins there. -/
theorem hourStart_of_unchanged (h : z.shift (t - z.toLocal t % 3600) = z.shift t) :
    z.hourStart t = t - z.toLocal t % 3600 := by
  rw [hourStart_eq_ite, if_pos (showsFullHour_of_unchanged h)]

theorem hourStart_bounds (z : Zone) (t : Int) : t - 3600 < z.hourStart t ∧ z.hourStart t ≤ t := by
  rw [hourStart_eq_ite]
  split
  · omega
  · exact z.firstMinute_bounds t

end Zone
end Almanac
