import Almanac.Proofs.HourStretch
/-!
# Steps by hours against positions of hours

A distance counts the entries of the calendar's list of hours, which are sampled every 3600 seconds from the
start of the date. A refinement goes on from the candidate by that many real hours, and back to the start of
the hour that it has come to. The two agree as long as the change on the date keeps them in step.

- `Zone.hourStart_div`: the start of an hour lies in it, but for a change by a whole day.
- `Zone.hourStart_div_iff`: when a number of real hours is so many hours on the clocks.
- `Zone.Sampled.eq_of_changesAt`: the samples of a date run over one change, and
  `Zone.Sampled.toLocal_of_lt`, `Zone.Sampled.toLocal_of_le`: how the date counts on either side of it.
- `Zone.Slips`: the changes that put the two out of step, and `Zone.moveOn?_hour_iff`: there are no others.
-/
namespace Almanac

/-- What stands at the position of the current value. -/
theorem Field.getElem?_of_position? {f : Field} {context : Option Moment} {current here : Nat}
    (h : f.position? context current = some here) : (f.values context)[here]? = some current := by
  unfold position? lastPosition? at h
  split at h
  · obtain ⟨i, hi, rfl⟩ := Option.map_eq_some_iff.1 h
    have hget := (Sorted.idxOf?_eq_some_iff_getElem?.1 hi).1
    have hlt := (List.getElem?_eq_some_iff.1 hget).1
    rw [List.length_reverse] at hlt
    rw [List.getElem?_reverse hlt] at hget
    exact hget
  · exact (Sorted.idxOf?_eq_some_iff_getElem?.1 h).1

namespace Zone

variable {z : Zone} {t T u v w D : Int} {i j k n : Nat}

/-- How far the clocks are put forward at an instant. -/
def jump (z : Zone) (t : Int) : Int := z.shift t - z.shift (t - 1)

theorem jump_eq (z : Zone) (t : Int) : z.jump t = z.toLocal t - z.toLocal (t - 1) - 1 := by
  simp only [jump, toLocal]
  omega

theorem jump_ne_zero (h : z.ChangesAt t) : z.jump t ≠ 0 := fun he => h (by simp only [jump] at he; omega)

theorem WholeMinutes.jump (h : z.WholeMinutes) (t : Int) : z.jump t % 60 = 0 := by
  have h1 := h.offset t
  have h2 := h.offset (t - 1)
  simp only [Zone.jump]
  omega

theorem jump_bounds (z : Zone) (t : Int) : -172800 < z.jump t ∧ z.jump t < 172800 := by
  have h1 := z.shift_bounds t
  have h2 := z.shift_bounds (t - 1)
  simp only [jump]
  omega

theorem SetBackAtMost.le_jump {most : Int} (h : z.SetBackAtMost most) (t : Int) : -most ≤ z.jump t := by
  have := h t
  simp only [jump]
  omega

/-- Around a change the clocks run as they do, but for the jump. -/
theorem toLocal_across (hz : z.SpacedBy 172800) (hT : z.ChangesAt T) (hlo : T - 172800 ≤ u) (hu : u < T)
    (hv : T ≤ v) (hhi : v < T + 172800) : z.toLocal v = z.toLocal u + (v - u) + z.jump T := by
  have h1 := toLocal_before hz hT hlo hu
  have h2 := toLocal_after hz hT hv hhi
  have h3 := z.jump_eq T
  omega

/-! ## The start of an hour -/

/-- A change by a whole day after the full hour: the full hour was shown on the date before. -/
def DayAfterFullHour (z : Zone) (v : Int) : Prop :=
  ∃ T, z.ChangesAt T ∧ v - z.toLocal v % 3600 < T ∧ T ≤ v ∧ z.jump T = 86400

theorem hourStart_of_dayAfterFullHour (hz : z.SpacedBy 172800) (h : z.DayAfterFullHour v) :
    z.toLocal (z.hourStart v) = z.toLocal v - z.toLocal v % 3600 - 86400 := by
  obtain ⟨T, hT, hfull, hTv, hjump⟩ := h
  have hrun := toLocal_across hz hT (u := v - z.toLocal v % 3600) (v := v) (by omega) hfull hTv (by omega)
  have hfull : z.ShowsFullHour v := by
    rw [ShowsFullHour, Clock.hour_eq, Clock.hour_eq, Clock.minute_eq]
    omega
  rw [hourStart_eq_ite, if_pos hfull]
  omega

/-- Otherwise a full hour that the clocks seem to have shown was shown with the same offset: changes by whole days
apart, two offsets show different minutes. -/
theorem shift_of_showsFullHour (hm : z.WholeMinutes) (hz : z.SpacedBy 172800) (hb : z.SetBackAtMost 82800)
    (h : ¬ z.DayAfterFullHour v) (hfull : z.ShowsFullHour v) : z.shift (v - z.toLocal v % 3600) = z.shift v := by
  by_contra hs
  obtain ⟨T, hlo, hTv, hch⟩ := exists_changesAt (by omega) hs
  have hrun := toLocal_across hz hch (v := v) (by omega) hlo hTv (by omega)
  have hwhole := hm.jump T
  have hjb := z.jump_bounds T
  have hne := jump_ne_zero hch
  have hback := hb T
  refine h ⟨T, hch, hlo, hTv, ?_⟩
  rw [ShowsFullHour, Clock.hour_eq, Clock.hour_eq, Clock.minute_eq] at hfull
  simp only [jump] at *
  omega

/-- So the start of an hour lies in the hour, wherever it is found. -/
theorem hourStart_div (hm : z.WholeMinutes) (hz : z.SpacedBy 172800) (hb : z.SetBackAtMost 82800)
    (h : ¬ z.DayAfterFullHour v) : z.toLocal (z.hourStart v) / 3600 = z.toLocal v / 3600 := by
  rw [hourStart_eq_ite]
  split
  case isTrue hfull =>
    have hs := shift_of_showsFullHour hm hz hb h hfull
    simp only [toLocal] at hs ⊢
    omega
  case isFalse =>
    obtain ⟨k, -, -, hsame⟩ := exists_firstMinute (hm.shift_minuteStart v)
    obtain ⟨hh, hs⟩ := sameHour_iff.1 (hsame 0 (Nat.zero_le _))
    have hbounds := z.firstMinute_bounds v
    simp only [Int.natCast_zero, Int.mul_zero, Int.add_zero, Clock.hour_eq, toLocal] at hh hs ⊢
    omega

/-- The change keeps a candidate in step that is so many real hours before it: it does not lead out of the hour,
or the date that it leaves out is taken back with the start of the hour. -/
def KeepsStep (z : Zone) (t v T : Int) : Prop :=
  0 ≤ z.toLocal t % 3600 + z.jump T ∧ z.toLocal t % 3600 + z.jump T < 3600 ∨
    z.jump T = 86400 ∧ v - z.toLocal t % 3600 < T

/-- So many real hours are so many hours on the clocks exactly if the change that they run over keeps step. -/
theorem hourStart_div_iff (hm : z.WholeMinutes) (hz : z.SpacedBy 172800) (hb : z.SetBackAtMost 82800)
    (hn : 0 < n) (hn47 : n ≤ 47) : z.toLocal (z.hourStart (t + 3600 * n)) / 3600 = z.toLocal t / 3600 + n ↔
      ∀ T, z.ChangesAt T → t < T → T ≤ t + 3600 * n → z.KeepsStep t (t + 3600 * n) T := by
  by_cases hch : ∃ T, z.ChangesAt T ∧ t < T ∧ T ≤ t + 3600 * n
  · obtain ⟨T, hT, htT, hTv⟩ := hch
    have hrun := toLocal_across hz hT (u := t) (v := t + 3600 * n) (by omega) htT hTv (by omega)
    have hone (T' : Int) (hT' : z.ChangesAt T') (h1 : t < T') (h2 : T' ≤ t + 3600 * n) : T' = T :=
      hz.eq_of_near hT' hT (by omega) (by omega)
    have hiff : (∀ T, z.ChangesAt T → t < T → T ≤ t + 3600 * n → z.KeepsStep t (t + 3600 * n) T) ↔
        z.KeepsStep t (t + 3600 * n) T :=
      ⟨fun h => h T hT htT hTv, fun h T' hT' h1 h2 => hone T' hT' h1 h2 ▸ h⟩
    rw [hiff, KeepsStep]
    by_cases hday : z.DayAfterFullHour (t + 3600 * n)
    · have hl := hourStart_of_dayAfterFullHour hz hday
      obtain ⟨T', hT', hfull, hTv', hjump⟩ := hday
      obtain rfl := hone T' hT' (by omega) hTv'
      omega
    · rw [hourStart_div hm hz hb hday]
      have hfull : ¬ (z.jump T = 86400 ∧ t + 3600 * n - z.toLocal t % 3600 < T) := fun ⟨hjump, hlt⟩ =>
        hday ⟨T, hT, by omega, hTv, hjump⟩
      omega
  · have hrun := toLocal_of_unchanged (z := z) (t := t) (u := t + 3600 * n) (by omega)
      fun v h1 h2 hv => hch ⟨v, hv, h1, h2⟩
    rw [hourStart_div hm hz hb fun ⟨T, hT, h1, h2, _⟩ => hch ⟨T, hT, by omega, h2⟩]
    exact iff_of_true (by omega) fun T hT h1 h2 => absurd ⟨T, hT, h1, h2⟩ hch

/-! ## The samples of a date -/

/-- The calendar sees a change on the date of `t`, and its samples of the hours go on up to number `j`. -/
structure Sampled (z : Zone) (t : Int) (j : Nat) : Prop where
  seen : z.changesOnDay t = true
  onDate : ∀ k ≤ j, z.dayAt (z.startOfDay (z.dayAt t) + 3600 * k) = z.dayAt t

namespace Sampled

theorem toLocal_bounds (h : z.Sampled t j) (hk : k ≤ j) :
    86400 * z.dayAt t ≤ z.toLocal (z.startOfDay (z.dayAt t) + 3600 * k) ∧
      z.toLocal (z.startOfDay (z.dayAt t) + 3600 * k) < 86400 * z.dayAt t + 86400 :=
  dayAt_eq_iff_toLocal.1 (h.onDate k hk)

section Change

variable (h : z.Sampled t j) (hz : z.SpacedBy 172800) (hT : z.ChangesAt T) (hsT : z.startOfDay (z.dayAt t) < T)
  (hTj : T ≤ z.startOfDay (z.dayAt t) + 3600 * j)

include h hz hT hsT hTj

/-- The first sample after a change is less than an hour after it. -/
theorem lt_toLocal : 86400 * z.dayAt t - 3600 < z.toLocal T := by
  obtain ⟨k, hk⟩ : ∃ k : Nat, T ≤ z.startOfDay (z.dayAt t) + 3600 * k ∧
      z.startOfDay (z.dayAt t) + 3600 * k < T + 3600 :=
    ⟨((T - z.startOfDay (z.dayAt t) + 3599) / 3600).toNat, by omega⟩
  have hb := h.toLocal_bounds (k := k) (by omega)
  have := toLocal_after hz hT hk.1 (by omega)
  omega

/-- After a change the date is over within 25 hours. -/
theorem lt_of_changesAt : z.startOfDay (z.dayAt t) + 3600 * j < T + 90000 := by
  have hlow := h.lt_toLocal hz hT hsT hTj
  refine Int.lt_of_not_ge fun hge => ?_
  obtain ⟨k, hk⟩ : ∃ k : Nat, T + 90000 ≤ z.startOfDay (z.dayAt t) + 3600 * k ∧
      z.startOfDay (z.dayAt t) + 3600 * k < T + 93600 :=
    ⟨((T + 90000 - z.startOfDay (z.dayAt t) + 3599) / 3600).toNat, by omega⟩
  have hb := h.toLocal_bounds (k := k) (by omega)
  have := toLocal_after hz hT (t := z.startOfDay (z.dayAt t) + 3600 * k) (by omega) (by omega)
  omega

/-- So the samples run over one change. -/
theorem eq_of_changesAt (hv : z.ChangesAt v) (hsv : z.startOfDay (z.dayAt t) < v)
    (hvj : v ≤ z.startOfDay (z.dayAt t) + 3600 * j) : v = T := by
  have h1 := h.lt_of_changesAt hz hT hsT hTj
  have h2 := h.lt_of_changesAt hz hv hsv hvj
  exact hz.eq_of_near hv hT (by omega) (by omega)

/-- Up to it the date counts from midnight on. -/
theorem toLocal_of_lt (hsu : z.startOfDay (z.dayAt t) ≤ u) (hu : u < T) :
    z.toLocal u = 86400 * z.dayAt t + (u - z.startOfDay (z.dayAt t)) := by
  have hstart : z.toLocal (z.startOfDay (z.dayAt t)) = 86400 * z.dayAt t := by
    rcases startOfDay_cases_of_changesOnDay hz h.seen with hs | ⟨hs, hs'⟩
    · rw [hs, Clock.midnight, Int.mul_comm]
    · -- a date that begins with a change has ended when the next one comes
      have hch := changesAt_of_toLocal (z := z) (T := z.startOfDay (z.dayAt t)) (by omega)
      have := hz _ T hch hT hsT
      have hb := h.toLocal_bounds (k := 24) (by omega)
      have := toLocal_after hz hch (t := z.startOfDay (z.dayAt t) + 3600 * ((24 : Nat) : Int)) (by omega) (by omega)
      simp only [Clock.midnight] at hs'
      omega
  have := toLocal_of_unchanged (z := z) hsu fun v hv hvu hch => by
    have := h.eq_of_changesAt hz hT hsT hTj hch hv (by omega)
    omega
  omega

/-- From it on the date counts on with the jump. -/
theorem toLocal_of_le (hu : T ≤ u) (hhi : u < T + 172800) :
    z.toLocal u = 86400 * z.dayAt t + (u - z.startOfDay (z.dayAt t)) + z.jump T := by
  have hbefore := h.toLocal_of_lt hz hT hsT hTj (u := T - 1) (by omega) (by omega)
  have := toLocal_across hz hT (u := T - 1) (by omega) (by omega) hu hhi
  omega

/-- Two days after it the date is over. -/
theorem le_toLocal_of_late (hb : z.SetBackAtMost 82800) (hu : T + 169200 ≤ u) :
    86400 * z.dayAt t + 86400 ≤ z.toLocal u := by
  have hlow := h.lt_toLocal hz hT hsT hTj
  by_cases hfar : u < T + 172800
  · have := toLocal_after hz hT (t := u) (by omega) hfar
    omega
  · have := toLocal_add_le hz hb (by decide) hT (t := u) (by omega)
    have hbefore := h.toLocal_of_lt hz hT hsT hTj (u := T - 1) (by omega) (by omega)
    omega

theorem lt_of_date (hb : z.SetBackAtMost 82800) : t < T + 169200 := Int.lt_of_not_ge fun hge => by
  have := h.le_toLocal_of_late hz hT hsT hTj hb hge
  have := dayAt_eq_iff_toLocal.1 (rfl : z.dayAt t = _)
  omega

end Change

end Sampled

/-- A date and an hour of it are one hour of the local time. -/
theorem dayAt_and_hour_iff {h : Nat} (hh : h ≤ 23) :
    z.dayAt w = D ∧ Clock.hour (z.toLocal w) = h ↔ z.toLocal w / 3600 = 24 * D + h := by
  simp only [dayAt, Clock.dayNumber, Clock.hour_eq]
  omega

/-! ## Positions -/

/-- A sample at the position of the hour of `t` lies in this hour. -/
theorem Sampled.toLocal_div_here (h : z.Sampled t j) (hij : i ≤ j)
    (hi : Field.hour.position? (some ⟨z, t⟩) (Clock.hour (z.toLocal t)) = some i) :
    z.toLocal (z.startOfDay (z.dayAt t) + 3600 * i) / 3600 = z.toLocal t / 3600 := by
  have hget := Field.getElem?_of_position? hi
  rw [Field.values_hour_of_seen h.seen, getElem?_hoursOfDay_iff] at hget
  have h1 := (dayAt_and_hour_iff (Clock.hour_le _)).1 ⟨h.onDate i hij, hget.2.2⟩
  have h2 := (dayAt_and_hour_iff (z := z) (w := t) (Clock.hour_le _)).1 ⟨rfl, rfl⟩
  omega

/-- No change lies between an instant and the sample that its hour is looked up at: before a change the hour is
looked up at the sample that is in it. -/
theorem Sampled.not_changesAt_of_lt (h : z.Sampled t j) (hz : z.SpacedBy 172800) (hij : i ≤ j)
    (hi : Field.hour.position? (some ⟨z, t⟩) (Clock.hour (z.toLocal t)) = some i) (htT : t < T)
    (hTi : T ≤ z.startOfDay (z.dayAt t) + 3600 * i) : ¬ z.ChangesAt T := fun hT => by
  have hst := startOfDay_le_of_changesOnDay hz h.seen rfl
  have hcount {u : Int} := h.toLocal_of_lt hz hT (by omega) (by omega) (u := u)
  have hlt := hcount hst htT
  have hrep : ¬ z.isRepeat t = true := fun hr => by
    obtain ⟨u, hut, hu⟩ := isRepeat_iff.1 hr
    have hsu := startOfDay_le_of_changesOnDay hz h.seen (u := u) (by rw [dayAt, hu, ← dayAt])
    have := hcount hsu (by omega)
    omega
  obtain ⟨k, hk⟩ : ∃ k : Nat, z.startOfDay (z.dayAt t) + 3600 * k ≤ t ∧
      t < z.startOfDay (z.dayAt t) + 3600 * k + 3600 :=
    ⟨((t - z.startOfDay (z.dayAt t)) / 3600).toNat, by omega⟩
  have hkl := hcount (u := z.startOfDay (z.dayAt t) + 3600 * k) (by omega) (by omega)
  have hb := h.toLocal_bounds (k := k) (by omega)
  have hfirst : (z.hoursOfDay (z.dayAt t))[k]? = some (Clock.hour (z.toLocal t)) := by
    have hpos := getElem?_hoursOfDay_iff.1 (Field.values_hour_of_seen h.seen ▸ Field.getElem?_of_position? hi)
    refine getElem?_hoursOfDay_iff.2 ⟨by omega, fun l hl => h.onDate l (by omega), ?_⟩
    rw [hourAt, hkl, hlt, Clock.hour_eq, Clock.hour_eq]
    omega
  rw [Field.position?, if_neg (by simpa using hrep), Field.values_hour_of_seen h.seen,
    Sorted.idxOf?_eq_some_iff_getElem?] at hi
  exact hi.2 k (by omega) hfirst

/-! ## Steps -/

/-- A change at `T` because of which a step from `t`, at position `i` of the calendar's hours, does not lead to the
hour at position `j`. -/
inductive Slips (z : Zone) (t : Int) (i j : Nat) (T : Int) : Prop
  /-- The real hours run over a change that does not lie among the listed hours before the target. -/
  | unlisted (change : z.ChangesAt T) (after : t < T) (upTo : T ≤ t + 3600 * (j - i))
      (unlisted : z.changesOnDay t = true → z.startOfDay (z.dayAt t) + 3600 * j < T)
      (leaves : ¬ z.KeepsStep t (t + 3600 * (j - i)) T)
  /-- A change that is listed moves the samples within the hour, and the candidate is too late in its hour. -/
  | late (seen : z.changesOnDay t = true) (change : z.ChangesAt T) (after : t < T)
      (upTo : T ≤ z.startOfDay (z.dayAt t) + 3600 * j) (late : 3600 ≤ z.toLocal t % 3600 + z.jump T % 3600)
  /-- The clocks were set back within the hour of the candidate, which is counted from before that. -/
  | recounted (seen : z.changesOnDay t = true) (change : z.ChangesAt T)
      (after : z.startOfDay (z.dayAt t) + 3600 * i < T) (before : T ≤ t)
      (upTo : T ≤ z.startOfDay (z.dayAt t) + 3600 * j) (back : z.jump T < 0)

section Steps

variable (hm : z.WholeMinutes) (hz : z.SpacedBy 172800) (hb : z.SetBackAtMost 82800) (hij : i < j)
  (hi : Field.hour.position? (some ⟨z, t⟩) (Clock.hour (z.toLocal t)) = some i)

include hm hz hb hij hi

/-- On a date without a listed change. -/
theorem step_iff_of_unseen (hc : z.changesOnDay t = false) {h : Nat}
    (hj : (Field.hour.values (some ⟨z, t⟩))[j]? = some h) :
    z.toLocal (z.hourStart (t + 3600 * (j - i : Nat))) / 3600 = 24 * z.dayAt t + h ↔ ∀ T, ¬ z.Slips t i j T := by
  have hhere := Field.getElem?_of_position? hi
  rw [Field.values_of_unchanged hc, Field.getElem?_interval] at hhere hj
  simp only [Field.lowest, Field.lastValue, Field.highest] at hhere hj
  have hunit := (dayAt_and_hour_iff (z := z) (w := t) (Clock.hour_le _)).1 ⟨rfl, rfl⟩
  have hn : ((j - i : Nat) : Int) = j - i := by omega
  have key := hourStart_div_iff (t := t) hm hz hb (n := j - i) (by omega) (by omega)
  rw [show 24 * z.dayAt t + (h : Int) = z.toLocal t / 3600 + (j - i : Nat) by omega, key, hn]
  constructor
  · rintro hall T (⟨hT, htT, hTv, -, hout⟩ | ⟨hseen, -⟩ | ⟨hseen, -⟩)
    · exact hout (hall T hT htT hTv)
    all_goals
      rw [hc] at hseen
      cases hseen
  · intro hno T hT htT hTv
    by_contra hout
    exact hno T (.unlisted hT htT hTv (fun hseen => by rw [hc] at hseen; cases hseen) hout)

/-- Where the listed hours up to the target run over no change. -/
theorem step_iff_of_even (h : z.Sampled t j)
    (hno : ∀ T, z.ChangesAt T → z.startOfDay (z.dayAt t) + 3600 * i < T → ¬ T ≤ z.startOfDay (z.dayAt t) + 3600 * j) :
    z.toLocal (z.hourStart (t + 3600 * (j - i : Nat))) / 3600 =
      z.toLocal (z.startOfDay (z.dayAt t) + 3600 * j) / 3600 ↔ ∀ T, ¬ z.Slips t i j T := by
  have hunit := h.toLocal_div_here (Nat.le_of_lt hij) hi
  have hrun := toLocal_of_unchanged (z := z) (t := z.startOfDay (z.dayAt t) + 3600 * i)
    (u := z.startOfDay (z.dayAt t) + 3600 * j) (by omega) fun v h1 h2 hv => hno v hv h1 h2
  have hbi := h.toLocal_bounds (Nat.le_of_lt hij)
  have hbj := h.toLocal_bounds (Nat.le_refl j)
  have hn : ((j - i : Nat) : Int) = j - i := by omega
  have key := hourStart_div_iff (t := t) hm hz hb (n := j - i) (by omega) (by omega)
  rw [show z.toLocal (z.startOfDay (z.dayAt t) + 3600 * j) / 3600 = z.toLocal t / 3600 + (j - i : Nat) by omega,
    key, hn]
  -- a change that comes after `t` comes after the target
  have hlate {T : Int} (hT : z.ChangesAt T) (htT : t < T) : z.startOfDay (z.dayAt t) + 3600 * j < T := by
    refine Int.lt_of_not_ge fun hle => ?_
    by_cases hTi : T ≤ z.startOfDay (z.dayAt t) + 3600 * i
    · exact h.not_changesAt_of_lt hz (Nat.le_of_lt hij) hi htT hTi hT
    · exact hno T hT (by omega) hle
  constructor
  · rintro hall T (⟨hT, htT, hTv, -, hout⟩ | ⟨-, hT, htT, hTj, -⟩ | ⟨-, hT, hiT, -, hTj, -⟩)
    · exact hout (hall T hT htT hTv)
    · have := hlate hT htT
      omega
    · exact hno T hT hiT hTj
  · intro hslip T hT htT hTv
    by_contra hout
    exact hslip T (.unlisted hT htT hTv (fun _ => hlate hT htT) hout)

/-- Where the change comes between the candidate and the target. -/
theorem step_iff_of_ahead (h : z.Sampled t j) (hT : z.ChangesAt T) (htT : t < T)
    (hiT : z.startOfDay (z.dayAt t) + 3600 * i < T) (hTj : T ≤ z.startOfDay (z.dayAt t) + 3600 * j) :
    z.toLocal (z.hourStart (t + 3600 * (j - i : Nat))) / 3600 =
      z.toLocal (z.startOfDay (z.dayAt t) + 3600 * j) / 3600 ↔ ∀ T, ¬ z.Slips t i j T := by
  have hst := startOfDay_le_of_changesOnDay hz h.seen rfl
  have hsT : z.startOfDay (z.dayAt t) < T := by omega
  have hunit := h.toLocal_div_here (Nat.le_of_lt hij) hi
  have hlt := h.toLocal_of_lt hz hT hsT hTj hst htT
  have hli := h.toLocal_of_lt hz hT hsT hTj (u := z.startOfDay (z.dayAt t) + 3600 * i) (by omega) hiT
  have hend := h.lt_of_changesAt hz hT hsT hTj
  have hn : ((j - i : Nat) : Int) = j - i := by omega
  -- `t` is as late in its hour as the candidate that is moved on is after the sample
  have hv : t + 3600 * ((j - i : Nat) : Int) = z.startOfDay (z.dayAt t) + 3600 * j + z.toLocal t % 3600 := by omega
  have htarget := h.toLocal_of_le hz hT hsT hTj hTj (by omega)
  have hmoved := h.toLocal_of_le hz hT hsT hTj (u := t + 3600 * ((j - i : Nat) : Int)) (by omega) (by omega)
  have hday : ¬ z.DayAfterFullHour (t + 3600 * ((j - i : Nat) : Int)) := by
    rintro ⟨T', hT', hfull, hTv, hday⟩
    obtain rfl := hz.eq_of_near hT' hT (by omega) (by omega)
    omega
  rw [hourStart_div hm hz hb hday]
  have hiff : z.toLocal (t + 3600 * ((j - i : Nat) : Int)) / 3600 =
      z.toLocal (z.startOfDay (z.dayAt t) + 3600 * j) / 3600 ↔
        z.toLocal t % 3600 + z.jump T % 3600 < 3600 := by omega
  rw [hiff]
  constructor
  · rintro hkeep T' (⟨hT', htT', hTv, hun, -⟩ | ⟨-, hT', htT', hTj', hlate⟩ | ⟨-, hT', hiT', hTt, hTj', -⟩)
    · have := hun h.seen
      have := hz T T' hT hT' (by omega)
      omega
    · obtain rfl := h.eq_of_changesAt hz hT hsT hTj hT' (by omega) hTj'
      omega
    · obtain rfl := h.eq_of_changesAt hz hT hsT hTj hT' (by omega) hTj'
      omega
  · intro hslip
    refine Int.lt_of_not_ge fun hlate => ?_
    exact hslip T (.late h.seen hT htT hTj hlate)

/-- Where the clocks were set back within the hour of the candidate, the samples have fallen behind. -/
theorem step_ne_of_setBack (h : z.Sampled t j) (hT : z.ChangesAt T) (hTt : T ≤ t)
    (hiT : z.startOfDay (z.dayAt t) + 3600 * i < T) (hTj : T ≤ z.startOfDay (z.dayAt t) + 3600 * j)
    (hback : z.jump T < 0) : z.toLocal (z.hourStart (t + 3600 * (j - i : Nat))) / 3600 ≠
      z.toLocal (z.startOfDay (z.dayAt t) + 3600 * j) / 3600 := by
  have hsT : z.startOfDay (z.dayAt t) < T := by omega
  have hunit := h.toLocal_div_here (Nat.le_of_lt hij) hi
  have hli := h.toLocal_of_lt hz hT hsT hTj (u := z.startOfDay (z.dayAt t) + 3600 * i) (by omega) hiT
  have hend := h.lt_of_changesAt hz hT hsT hTj
  have htarget := h.toLocal_of_le hz hT hsT hTj hTj (by omega)
  have hmost := hb.le_jump T
  have hbj := h.toLocal_bounds (Nat.le_refl j)
  have htnear := h.lt_of_date hz hT hsT hTj hb
  have hn : ((j - i : Nat) : Int) = j - i := by omega
  intro hland
  by_cases hall : ∃ T', z.ChangesAt T' ∧ t < T' ∧ T' ≤ t + 3600 * ((j - i : Nat) : Int)
  · -- a second change, for which the step would have to lead past the date
    obtain ⟨T', hT', htT', hTv'⟩ := hall
    have := hz T T' hT hT' (by omega)
    have hstart := z.hourStart_bounds (t + 3600 * ((j - i : Nat) : Int))
    have := h.le_toLocal_of_late hz hT hsT hTj hb (u := z.hourStart (t + 3600 * ((j - i : Nat) : Int))) (by omega)
    omega
  · have := (hourStart_div_iff (t := t) hm hz hb (n := j - i) (by omega) (by omega)).2
      fun T' hT' h1 h2 => absurd ⟨T', hT', h1, h2⟩ hall
    omega

/-- Where the change has come within the hour of the candidate. -/
theorem step_iff_of_behind (h : z.Sampled t j) (hT : z.ChangesAt T) (hTt : T ≤ t)
    (hiT : z.startOfDay (z.dayAt t) + 3600 * i < T) (hTj : T ≤ z.startOfDay (z.dayAt t) + 3600 * j) :
    z.toLocal (z.hourStart (t + 3600 * (j - i : Nat))) / 3600 =
      z.toLocal (z.startOfDay (z.dayAt t) + 3600 * j) / 3600 ↔ ∀ T, ¬ z.Slips t i j T := by
  rcases Int.lt_or_lt_of_ne (jump_ne_zero hT) with hneg | hpos
  · exact iff_of_false (step_ne_of_setBack hm hz hb hij hi h hT hTt hiT hTj hneg) fun hslip =>
      hslip T (.recounted h.seen hT hiT hTt hTj hneg)
  · have hsT : z.startOfDay (z.dayAt t) < T := by omega
    have hunit := h.toLocal_div_here (Nat.le_of_lt hij) hi
    have hli := h.toLocal_of_lt hz hT hsT hTj (u := z.startOfDay (z.dayAt t) + 3600 * i) (by omega) hiT
    have hend := h.lt_of_changesAt hz hT hsT hTj
    have htarget := h.toLocal_of_le hz hT hsT hTj hTj (by omega)
    have htnear := h.lt_of_date hz hT hsT hTj hb
    have hlt := h.toLocal_of_le hz hT hsT hTj hTt (by omega)
    -- the change lies within the hour, so the next one comes after the step
    have hno {T' : Int} (hT' : z.ChangesAt T') (htT' : t < T') : ¬ T' ≤ t + 3600 * ((j - i : Nat) : Int) := by
      have := hz T T' hT hT' (by omega)
      omega
    have := (hourStart_div_iff (t := t) hm hz hb (n := j - i) (by omega) (by omega)).2
      fun T' hT' h1 h2 => absurd h2 (hno hT' h1)
    refine iff_of_true (by omega) ?_
    rintro T' (⟨hT', htT', hTv, -⟩ | ⟨-, hT', htT', hTj', -⟩ | ⟨-, hT', hiT', -, hTj', hneg⟩)
    · exact hno hT' htT' (by omega)
    · have := hz T T' hT hT' (by omega)
      omega
    · obtain rfl := h.eq_of_changesAt hz hT hsT hTj hT' (by omega) hTj'
      omega

/-- So on a date with a listed change. -/
theorem step_iff_of_sampled (h : z.Sampled t j) : z.toLocal (z.hourStart (t + 3600 * (j - i : Nat))) / 3600 =
    z.toLocal (z.startOfDay (z.dayAt t) + 3600 * j) / 3600 ↔ ∀ T, ¬ z.Slips t i j T := by
  by_cases hch : ∃ T, z.ChangesAt T ∧ z.startOfDay (z.dayAt t) + 3600 * i < T ∧
      T ≤ z.startOfDay (z.dayAt t) + 3600 * j
  · obtain ⟨T, hT, hiT, hTj⟩ := hch
    by_cases htT : t < T
    · exact step_iff_of_ahead hm hz hb hij hi h hT htT hiT hTj
    · exact step_iff_of_behind hm hz hb hij hi h hT (Int.not_lt.1 htT) hiT hTj
  · exact step_iff_of_even hm hz hb hij hi h fun T hT hiT hTj => hch ⟨T, hT, hiT, hTj⟩

end Steps

/-- Where offsets and changes are whole minutes, changes are two days apart and none sets the clocks back by more
than 23 hours: a step from the position of a candidate's hour to a later position leads to the hour there, on the
same date, exactly if it stays within time and no change slips between the two. -/
theorem moveOn?_hour_iff (hm : z.WholeMinutes) (hz : z.SpacedBy 172800) (hb : z.SetBackAtMost 82800)
    (hi : Field.hour.position? (some ⟨z, t⟩) (Clock.hour (z.toLocal t)) = some i) (hij : i < j)
    (hj : j < (Field.hour.values (some ⟨z, t⟩)).length) :
    (∃ u, z.moveOn? t .hour (j - i) = some u ∧ z.dayAt u = z.dayAt t ∧
        (Field.hour.values (some ⟨z, t⟩))[j]? = some (Clock.hour (z.toLocal u))) ↔
      t + 3600 * (j - i) ≤ Clock.lastInstant ∧ ∀ T, ¬ z.Slips t i j T := by
  obtain ⟨h, hh⟩ : ∃ h, (Field.hour.values (some ⟨z, t⟩))[j]? = some h := ⟨_, List.getElem?_eq_getElem hj⟩
  have hn : ((j - i : Nat) : Int) = j - i := by omega
  -- a step leads to the start of an hour, so it is right if that lies in the hour at the target
  have hright : (∃ u, z.moveOn? t .hour (j - i) = some u ∧ z.dayAt u = z.dayAt t ∧
      (Field.hour.values (some ⟨z, t⟩))[j]? = some (Clock.hour (z.toLocal u))) ↔
      t + 3600 * (j - i) ≤ Clock.lastInstant ∧
        z.dayAt (z.hourStart (t + 3600 * (j - i : Nat))) = z.dayAt t ∧
        Clock.hour (z.toLocal (z.hourStart (t + 3600 * (j - i : Nat)))) = h := by
    simp only [moveOn?_hour_eq_some_iff, hn, hh, Option.some.injEq]
    constructor
    · rintro ⟨u, ⟨hle, rfl⟩, hday, hhour⟩
      exact ⟨hle, hday, hhour.symm⟩
    · rintro ⟨hle, hday, hhour⟩
      exact ⟨_, ⟨hle, rfl⟩, hday, hhour.symm⟩
  rw [hright]
  refine and_congr_right fun _ => ?_
  cases hc : z.changesOnDay t with
  | false =>
    have hle : h ≤ 23 := by
      rw [Field.values_of_unchanged hc, Field.getElem?_interval] at hh
      exact hh.2
    rw [dayAt_and_hour_iff hle]
    exact step_iff_of_unseen hm hz hb hij hi hc hh
  | true =>
    rw [Field.values_hour_of_seen hc, getElem?_hoursOfDay_iff] at hh
    obtain ⟨-, hday, rfl⟩ := hh
    have hs : z.Sampled t j := ⟨hc, hday⟩
    have htarget := (dayAt_and_hour_iff (Clock.hour_le _)).1 ⟨hday j (Nat.le_refl j), rfl⟩
    rw [hourAt, dayAt_and_hour_iff (Clock.hour_le _), ← htarget]
    exact step_iff_of_sampled hm hz hb hij hi hs

/-! ## Steps in Pyongyang -/

theorem setBackAtMost_pyongyang : pyongyang.SetBackAtMost 82800 :=
  setBackAtMost_of_offsets (a := 30180) (b := 32400) (by decide) (by decide +kernel) (by decide +kernel)

/-- On the date that ended with half an hour twice, the step from ten past ten in the evening to the second copy of
the last hour. -/
theorem moveOn?_hour_iff_pyongyang :
    pyongyang.WholeMinutes ∧ pyongyang.SpacedBy 172800 ∧ pyongyang.SetBackAtMost 82800 ∧
      Field.hour.position? (some ⟨pyongyang, 1439557800⟩) (Clock.hour (pyongyang.toLocal 1439557800)) = some 22 ∧
      22 < 24 ∧ 24 < (Field.hour.values (some ⟨pyongyang, 1439557800⟩)).length ∧
      pyongyang.moveOn? 1439557800 .hour (24 - 22) = some 1439564400 ∧
      ∀ T, ¬ pyongyang.Slips 1439557800 22 24 T := by
  have hi : Field.hour.position? (some ⟨pyongyang, 1439557800⟩) (Clock.hour (pyongyang.toLocal 1439557800)) =
      some 22 := by decide +kernel
  have hj : 24 < (Field.hour.values (some ⟨pyongyang, 1439557800⟩)).length := by decide +kernel
  have hmove : pyongyang.moveOn? 1439557800 .hour (24 - 22) = some 1439564400 := by decide +kernel
  have h := moveOn?_hour_iff wholeMinutes_pyongyang spacedBy_pyongyang setBackAtMost_pyongyang hi (by decide) hj
  exact ⟨wholeMinutes_pyongyang, spacedBy_pyongyang, setBackAtMost_pyongyang, hi, by decide, hj, hmove,
    (h.1 ⟨_, hmove, by decide +kernel, by decide +kernel⟩).2⟩

/-- On the date that ended half an hour early, the step from a quarter to eleven to the last hour leads past it. -/
theorem not_moveOn?_hour_pyongyang :
    pyongyang.WholeMinutes ∧ pyongyang.SpacedBy 172800 ∧ pyongyang.SetBackAtMost 82800 ∧
      Field.hour.position? (some ⟨pyongyang, 1525443300⟩) (Clock.hour (pyongyang.toLocal 1525443300)) = some 22 ∧
      (Field.hour.values (some ⟨pyongyang, 1525443300⟩))[23]? = some 23 ∧
      pyongyang.dayAt 1525444200 = pyongyang.dayAt 1525443300 ∧ Clock.hour (pyongyang.toLocal 1525444200) = 23 ∧
      pyongyang.moveOn? 1525443300 .hour (23 - 22) = some 1525446000 ∧
      pyongyang.dayAt 1525446000 ≠ pyongyang.dayAt 1525443300 ∧
      (Schedule.daily pyongyang 23 10).search Schedule.passLimit 1525443300 = .ok (some 1525529400) ∧
      (Schedule.daily pyongyang 23 10).Occurs 1525444800 :=
  ⟨wholeMinutes_pyongyang, spacedBy_pyongyang, setBackAtMost_pyongyang, by decide +kernel, by decide +kernel,
    by decide +kernel, by decide +kernel, by decide +kernel, by decide +kernel, by decide +kernel, by decide +kernel⟩

end Zone
end Almanac
