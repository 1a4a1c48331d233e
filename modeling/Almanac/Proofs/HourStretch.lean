import Almanac.Proofs.DateStart
import Almanac.Proofs.Ends
import Almanac.Proofs.Progress
/-!
# The minutes of an hour

A change of the offset may cut an hour short, and may show an hour a second time. What belongs to the hour
of an instant is the stretch of time around it that shows this hour with one offset. The walks back and on
by whole minutes find just this stretch, and the calendar lists its minutes, provided that it sees a change
on the date at all. It does not see one that comes exactly with the start of the next date.

- `Zone.Stretch`: the stretch around an instant, and `Zone.Stretch.unique`: there is one only.
- `Zone.exists_stretch`: the walks end at its ends, and the minutes on the way are its minutes.
- `Zone.Stretch.cutUnseen`: an hour that the calendar takes for complete is complete, or cut off by a change
  that comes with the next date.
- `Zone.WholeMinutes.valuesChecked_minute_eq`: the walks stay within time on every date after the first one.
- `Zone.values_minute_iff`: so the calendar's minutes are those of the stretch except there.
-/
namespace Almanac.Zone

variable {z : Zone} {t u v a b : Int}

/-- Offsets are whole minutes, and so are the instants at which they change. -/
structure WholeMinutes (z : Zone) : Prop where
  offset : ∀ t, z.shift t % 60 = 0
  change : ∀ t, z.ChangesAt t → t % 60 = 0

theorem wholeMinutes_of_transitions (hinitial : z.initial.seconds % 60 = 0)
    (h : ∀ c ∈ z.transitions, c.instant % 60 = 0 ∧ c.offset.seconds % 60 = 0) : z.WholeMinutes where
  offset := shift_of_offsets (p := fun s => s % 60 = 0) hinitial fun c hc => (h c hc).2
  change t ht := by
    obtain ⟨c, hc, rfl⟩ := exists_transition_of_changesAt ht
    exact (h c hc).1

/-- From `a` on and before `b` the clocks show the hour of `t` with the offset of `t`, and neither right before `a`
nor at `b`. -/
structure Stretch (z : Zone) (t a b : Int) : Prop where
  le : a ≤ t
  lt : t < b
  same : ∀ u, a ≤ u → u < b → z.sameHour t u = true
  before : z.sameHour t (a - 1) = false
  after : z.sameHour t b = false

/-- Nothing on the date tells the calendar that the hour of `t` is cut off at `b`: the change comes with the start
of the next date, or there is no next date. -/
def CutUnseen (z : Zone) (t b : Int) : Prop :=
  Clock.lastDay ≤ z.dayAt t ∨ z.ChangesAt b ∧ z.startOfDay (z.dayAt t + 1) = b

/-! ## The stretch around an instant -/

theorem hour_ne_of_sameHour (h : z.sameHour t u = false) (hs : z.shift u = z.shift t) :
    Clock.hour (z.toLocal u) ≠ Clock.hour (z.toLocal t) := fun hh =>
  Bool.false_ne_true (h.symm.trans (sameHour_iff.2 ⟨hh, hs⟩))

namespace Stretch

theorem unique {a' b' : Int} (h : z.Stretch t a b) (h' : z.Stretch t a' b') : a = a' ∧ b = b' := by
  have hle {a b a' b' : Int} (h : z.Stretch t a b) (h' : z.Stretch t a' b') : a ≤ a' ∧ b' ≤ b := by
    have := h.le
    have := h.lt
    have := h'.le
    have := h'.lt
    constructor <;> refine Int.le_of_not_gt fun hlt => ?_
    · have hs := h'.same (a - 1) (by omega) (by omega)
      rw [h.before] at hs
      cases hs
    · have hs := h'.same b (by omega) hlt
      rw [h.after] at hs
      cases hs
  have h1 := hle h h'
  have h2 := hle h' h
  omega

/-- An hour with one offset has 3600 seconds. -/
theorem length_le (h : z.Stretch t a b) : b ≤ a + 3600 := by
  have := h.le
  have := h.lt
  refine Int.le_of_not_gt fun hlt => ?_
  have hlate := sameHour_sub_hour (h.same (a + 3600) (by omega) hlt)
  rw [Int.add_sub_cancel, h.same a (Int.le_refl _) (by omega)] at hlate
  cases hlate

/-- All of it shows one hour of one date. -/
theorem toLocal_div (h : z.Stretch t a b) (hau : a ≤ u) (hub : u < b) :
    z.shift u = z.shift t ∧ z.toLocal u / 3600 = z.toLocal t / 3600 := by
  obtain ⟨hh, hs⟩ := sameHour_iff.1 (h.same u hau hub)
  have := h.length_le
  have := h.le
  have := h.lt
  simp only [Clock.hour_eq, toLocal, hs] at hh ⊢
  exact ⟨trivial, by omega⟩

theorem dayAt_eq (h : z.Stretch t a b) (hau : a ≤ u) (hub : u < b) : z.dayAt u = z.dayAt t := by
  have := (h.toLocal_div hau hub).2
  simp only [dayAt, Clock.dayNumber]
  omega

/-- Without a change at its start it begins at a full hour. -/
theorem toLocal_start (h : z.Stretch t a b) (ha : ¬ z.ChangesAt a) : z.toLocal a % 3600 = 0 := by
  have hshift : z.shift (a - 1) = z.shift a := Decidable.not_not.1 ha
  have hlt := Int.lt_of_le_of_lt h.le h.lt
  obtain ⟨hs, hu⟩ := h.toLocal_div (Int.le_refl a) hlt
  have hbefore := hour_ne_of_sameHour h.before (hshift.trans hs)
  simp only [Clock.hour_eq, toLocal, hshift] at *
  omega

/-- And without a change at its end it ends at one. -/
theorem toLocal_end (h : z.Stretch t a b) (hb : ¬ z.ChangesAt b) : z.toLocal b % 3600 = 0 := by
  have hshift : z.shift (b - 1) = z.shift b := Decidable.not_not.1 hb
  have hlt := Int.lt_of_le_of_lt h.le h.lt
  obtain ⟨hs, hu⟩ := h.toLocal_div (u := b - 1) (by omega) (by omega)
  have hafter := hour_ne_of_sameHour h.after (hshift.symm.trans hs)
  simp only [Clock.hour_eq, toLocal, hshift] at *
  omega

/-- So an hour is complete if no change cuts it. -/
theorem length_eq (h : z.Stretch t a b) (ha : ¬ z.ChangesAt a) (hb : ¬ z.ChangesAt b) : b = a + 3600 := by
  have hshift : z.shift (b - 1) = z.shift b := Decidable.not_not.1 hb
  have hlt := Int.lt_of_le_of_lt h.le h.lt
  have hstart := h.toLocal_start ha
  have hend := h.toLocal_end hb
  have h1 := h.toLocal_div (Int.le_refl a) hlt
  have h2 := h.toLocal_div (u := b - 1) (by omega) (by omega)
  simp only [toLocal] at *
  omega

/-- And a complete one begins at a full hour. -/
theorem toLocal_start_of_length (h : z.Stretch t a (a + 3600)) : z.toLocal a % 3600 = 0 := by
  have h1 := h.toLocal_div (Int.le_refl a) (by omega)
  have h2 := h.toLocal_div (u := a + 3599) (by omega) (by omega)
  simp only [toLocal] at *
  omega

end Stretch

/-! ## The walks -/

theorem WholeMinutes.sameHour_eq (h : z.WholeMinutes) (huv : u / 60 = v / 60) : z.sameHour t u = z.sameHour t v := by
  have hshift {u v : Int} (hle : u ≤ v) (huv : u / 60 = v / 60) : z.shift v = z.shift u :=
    shift_eq_of_unchanged hle fun w hw hwv hch => by
      have := h.change w hch
      omega
  have hs : z.shift u = z.shift v := by
    rcases Int.le_total u v with hle | hle
    · exact (hshift hle huv).symm
    · exact hshift hle huv.symm
  have hoff := h.offset v
  have hh : Clock.hour (z.toLocal u) = Clock.hour (z.toLocal v) := by
    simp only [Clock.hour_eq, toLocal, hs]
    omega
  simp only [sameHour, hh, hs]

theorem WholeMinutes.shift_minuteStart (h : z.WholeMinutes) (t : Int) : z.shift (z.minuteStart t) = z.shift t := by
  have hm := z.minuteStart_eq_sub t
  have hoff := h.offset t
  refine (sameHour_iff.1 ?_).2
  rw [h.sameHour_eq (v := t) (by simp only [toLocal] at hm; omega)]
  exact sameHour_iff.2 ⟨rfl, rfl⟩

/-- Where the offset has not changed since the minute began, the minutes on the way back belong to the hour. -/
theorem exists_firstMinute (h : z.shift (z.minuteStart t) = z.shift t) :
    ∃ k : Nat, z.minuteStart t = z.firstMinute t + 60 * k ∧ k < 60 ∧
      ∀ i ≤ k, z.sameHour t (z.firstMinute t + 60 * i) = true := by
  obtain ⟨k, -, hk, hsame⟩ := z.exists_backWithinHour_eq t 60 (z.minuteStart t)
  rw [← firstMinute] at hk
  have hlow := z.firstMinute_bounds t
  have hm := z.minuteStart_eq_sub t
  have hself : z.sameHour t (z.minuteStart t) = true := by
    refine sameHour_iff.2 ⟨?_, h⟩
    rw [Clock.hour_eq, Clock.hour_eq]
    simp only [toLocal, h] at *
    omega
  refine ⟨k, by omega, by omega, fun i hi => ?_⟩
  rcases Nat.lt_or_eq_of_le hi with hlt | rfl
  · rw [show z.firstMinute t + 60 * (i : Int) = z.minuteStart t - 60 * ((k - 1 - i : Nat) + 1) by omega]
    exact hsame _ (by omega)
  · rwa [show z.firstMinute t + 60 * (i : Int) = z.minuteStart t by omega]

/-- The walks back and on end at the ends of the stretch, after fewer steps than an hour has minutes, and the
minutes that they find are those of the stretch. -/
theorem exists_stretch (h : z.WholeMinutes) (t : Int) :
    ∃ n k : Nat, z.Stretch t (z.firstMinute t) (z.firstMinute t + 60 * n) ∧
      z.minuteStart t = z.firstMinute t + 60 * k ∧ k < n ∧ n ≤ 60 ∧
      z.minutesOfHour t = List.range' (Clock.minute (z.toLocal (z.firstMinute t))) n := by
  obtain ⟨k, hk, hk60, hback⟩ := exists_firstMinute (h.shift_minuteStart t)
  obtain ⟨n, hn, heq, hon⟩ :=
    exists_takeWhile_map_range (z.sameHour t) (fun i : Nat => z.firstMinute t + 60 * i) 60
  have hend : z.sameHour t (z.firstMinute t + 60 * n) = false := by
    rw [Bool.eq_false_iff]
    intro hs
    by_cases hlt : n < 60
    · -- the walk on would not have ended
      have hnth := getElem?_takeWhile_map_range (p := z.sameHour t)
        (g := fun i : Nat => z.firstMinute t + 60 * i) hlt fun j hj => by
          rcases Nat.lt_or_eq_of_le hj with hjn | rfl
          · exact hon j hjn
          · exact hs
      rw [heq, List.getElem?_eq_none (by simp)] at hnth
      cases hnth
    · obtain rfl : n = 60 := by omega
      have hfirst := sameHour_sub_hour hs
      rw [show z.firstMinute t + 60 * ((60 : Nat) : Int) - 3600 = z.firstMinute t + 60 * ((0 : Nat) : Int) by omega,
        hback 0 (Nat.zero_le _)] at hfirst
      cases hfirst
  have hkn : k < n := Nat.lt_of_not_le fun hle => by
    rw [hback n hle] at hend
    cases hend
  have hm := z.minuteStart_eq_sub t
  have hoff := h.offset t
  have hfirst : z.firstMinute t % 60 = 0 := by
    simp only [toLocal] at hm
    omega
  refine ⟨n, k, ⟨(z.firstMinute_bounds t).2, by omega, fun u hau hub => ?_, ?_, hend⟩, hk, hkn, hn, ?_⟩
  · rw [h.sameHour_eq (v := z.firstMinute t + 60 * (((u - z.firstMinute t) / 60).toNat : Int)) (by omega)]
    exact hon _ (by omega)
  · rw [h.sameHour_eq (v := z.firstMinute t - 60) (by omega)]
    exact sameHour_firstMinute_sub
  · rw [minutesOfHour, heq, List.map_map]
    exact map_minute_eq_range' hn hon

theorem stretch_minutesOfHour (h : z.WholeMinutes) (t : Int) :
    z.Stretch t (z.firstMinute t) (z.firstMinute t + 60 * (z.minutesOfHour t).length) := by
  obtain ⟨n, -, hn, -, -, -, heq⟩ := z.exists_stretch h t
  rw [heq, List.length_range']
  exact hn

/-! ## What the calendar does not see -/

theorem midnight_le_toLocal (hz : z.SpacedBy 172800) (hd : z.DatesAscend) {day : Int} (h : z.startOfDay day ≤ u) :
    Clock.midnight day ≤ z.toLocal u :=
  Field.midnight_le_iff.2 (Int.le_trans (le_dayAt_startOfDay hz day) (hd _ _ h))

/-- On a date on which no change is seen there is none from its start to its last second. -/
theorem not_changesAt_of_unchanged (hz : z.SpacedBy 172800) (hd : z.DatesAscend) (hc : z.changesOnDay t = false)
    (hday : z.dayAt t < Clock.lastDay) (hlo : z.startOfDay (z.dayAt t) ≤ v)
    (hhi : v < z.startOfDay (z.dayAt t + 1)) : ¬ z.ChangesAt v := fun hv => by
  have hno : ¬ _ := fun h => Bool.false_ne_true (hc.symm.trans (changesOnDay_iff.2 h))
  simp only [hday, true_and, not_or, Decidable.not_not] at hno
  obtain ⟨hfirst, hlast⟩ := hno
  have hlt : z.startOfDay (z.dayAt t) < v := Int.lt_iff_le_and_ne.2 ⟨hlo, fun he => hv (he ▸ hfirst)⟩
  -- a second change would have to bring the offset back
  have htwo {x y : Int} (hlo : z.startOfDay (z.dayAt t) < x) (hx : z.ChangesAt x) (hxy : x < y)
      (hhi : y < z.startOfDay (z.dayAt t + 1)) : ¬ z.ChangesAt y := by
    have := midnight_le_toLocal hz hd (Int.le_of_lt hlo)
    exact not_changesAt_of_startOfDay hz hx (by omega) hxy hhi
  by_cases hs : z.shift (v - 1) = z.shift (z.startOfDay (z.dayAt t))
  · obtain ⟨w, hvw, hwl, hw⟩ := z.exists_changesAt (t := v) (u := z.startOfDay (z.dayAt t + 1) - 1) (by omega)
      fun he => hv (hs.trans (hlast.trans he.symm))
    exact htwo hlt hv hvw (by omega) hw
  · obtain ⟨w, hsw, hwv, hw⟩ := z.exists_changesAt (u := v - 1) (by omega) (Ne.symm hs)
    exact htwo hsw hw (by omega) hhi hv

/-- Midnight of the date is shown, or it is the first second of a gap. -/
def StartsWithMidnight (z : Zone) (day : Int) : Prop :=
  (∃ u, z.toLocal u = Clock.midnight day) ∨
    ∃ T, z.ChangesAt T ∧ T + z.shift (T - 1) = Clock.midnight day ∧ Clock.midnight day < z.toLocal T

/-- An hour on a date on which no change is seen is complete, or cut off by a change that comes with the start of
the next date. -/
theorem Stretch.cutUnseen (h : z.Stretch t a b) (hz : z.SpacedBy 172800) (hd : z.DatesAscend)
    (hstart : z.StartsWithMidnight (z.dayAt t)) (hc : z.changesOnDay t = false) (hb : b ≠ a + 3600) :
    z.CutUnseen t b := by
  by_cases hday : z.dayAt t < Clock.lastDay
  case neg => exact .inl (Int.not_lt.1 hday)
  have hno {v : Int} (hlo : z.startOfDay (z.dayAt t) ≤ v) (hhi : v < z.startOfDay (z.dayAt t + 1)) :=
    not_changesAt_of_unchanged hz hd hc hday hlo hhi
  have hle := h.le
  have hlt := h.lt
  have htnext := lt_startOfDay hz hd (show z.dayAt t < z.dayAt t + 1 by omega)
  -- the date begins no later than the stretch
  have hbegun : z.startOfDay (z.dayAt t) ≤ a := by
    have ha : Clock.midnight (z.dayAt t) ≤ z.toLocal a :=
      Field.midnight_le_iff.2 (Int.le_of_eq (h.dayAt_eq (Int.le_refl a) (by omega)).symm)
    refine Int.le_of_not_gt fun has => ?_
    rcases hstart with hl | ⟨T, hT, hgap, hlT⟩
    · have := toLocal_lt_of_lt_toInstant hz hl has
      omega
    · have hs : z.startOfDay (z.dayAt t) = _ :=
        (toInstant_eq_of_gap hz (Int.le_of_eq hgap) (by simpa only [toLocal] using hlT)).2
      have := toLocal_le_before hz hT (t := a) (by omega)
      simp only [toLocal] at this ha
      omega
  have ha : ¬ z.ChangesAt a := hno hbegun (by omega)
  have hch : z.ChangesAt b := by
    by_contra hch
    exact hb (h.length_eq ha hch)
  refine .inr ⟨hch, ?_⟩
  have hblast : b ≤ z.startOfDay (z.dayAt t + 1) := by
    have hday : z.dayAt (b - 1) < z.dayAt t + 1 := by
      rw [h.dayAt_eq (by omega) (by omega)]
      omega
    have := lt_startOfDay hz hd hday
    omega
  exact Decidable.byContradiction fun hne => hno (by omega) (by omega) hch

/-- Where a change is seen on the date, none comes with the start of the next one. -/
theorem Stretch.not_cutUnseen (h : z.Stretch t a b) (hz : z.SpacedBy 172800) (hd : z.DatesAscend)
    (hc : z.changesOnDay t = true) : ¬ z.CutUnseen t b := by
  obtain ⟨hday, hne⟩ := changesOnDay_iff.1 hc
  rintro (hlast | ⟨hch, hb⟩)
  · omega
  have hlt := Int.lt_of_le_of_lt h.le h.lt
  have htb := startOfDay_le_of_changesOnDay hz hc (h.dayAt_eq (u := b - 1) (by omega) (by omega))
  obtain ⟨x, hsx, hxb, hx⟩ : ∃ x, z.startOfDay (z.dayAt t) ≤ x ∧ x < b ∧ z.ChangesAt x := by
    rcases hne with hne | hne
    · exact ⟨_, Int.le_refl _, by omega, hne⟩
    · obtain ⟨x, hsx, hxb, hx⟩ := exists_changesAt htb (hb ▸ hne)
      exact ⟨x, by omega, by omega, hx⟩
  have hlow := midnight_le_toLocal hz hd hsx
  have hend : z.toLocal (b - 1) < Clock.midnight (z.dayAt t + 1) := by
    have := dayAt_eq_iff_toLocal.1 (h.dayAt_eq (u := b - 1) (by omega) (by omega))
    rw [Clock.midnight]
    omega
  exact not_changesAt_of_toLocal_lt hz hx (by omega) hxb hend hch

/-! ## The minutes of the calendar -/

/-- An hour lies on one date, so after the first date and up to the last one the walks through it stay within time. -/
theorem WholeMinutes.valuesChecked_minute_eq (hm : z.WholeMinutes) (hlo : Clock.firstDay < z.dayAt t)
    (hhi : z.dayAt t ≤ Clock.lastDay) :
    Field.minute.valuesChecked (some ⟨z, t⟩) = .ok (Field.minute.values (some ⟨z, t⟩)) := by
  refine Field.valuesChecked_eq ?_
  simp only [Field.valuesChecked, changesOnDayChecked_eq hlo hhi, bind_ok]
  cases hc : z.changesOnDay t with
  | false => exact ⟨_, rfl⟩
  | true =>
    have hlast := (changesOnDay_iff.1 hc).1
    obtain ⟨n, k, h, -, hkn, -, -⟩ := z.exists_stretch hm t
    have hwithin {u : Int} (hau : z.firstMinute t ≤ u) (hub : u < z.firstMinute t + 60 * n) :
        Clock.firstInstant + 60 ≤ u ∧ u + 60 ≤ Clock.lastInstant := by
      have hday := dayAt_eq_iff_toLocal.1 (h.dayAt_eq hau hub)
      have hb := z.shift_bounds u
      have hoff := hm.offset u
      simp only [toLocal] at hday
      simp only [Clock.firstInstant, Clock.lastInstant, Clock.midnight]
      omega
    have ht := hwithin h.le h.lt
    refine exists_minutesOfHourChecked (by omega) (hwithin (Int.le_refl _) (by omega)).1 fun i _ hsame => ?_
    have hin : i < n := Nat.lt_of_not_le fun hle => by
      have hs := hsame n hle
      rw [h.after] at hs
      cases hs
    have := hwithin (u := z.firstMinute t + 60 * i) (by omega) (by omega)
    exact ⟨by omega, by omega⟩

/-- Where offsets and changes are whole minutes, changes are two days apart and dates ascend, and on a date whose
midnight is shown or is the first second of a gap: the walks that look for the minutes of an hour end within sixty
steps, at the ends of the stretch around the instant. The calendar has the minute of the instant, and its minutes
are those of the stretch unless this is shorter than an hour and nothing on the date tells so. This is what the
program comes to, for all dates after the first one. -/
theorem values_minute_iff (hm : z.WholeMinutes) (hz : z.SpacedBy 172800) (hd : z.DatesAscend)
    (hstart : z.StartsWithMidnight (z.dayAt t)) (hlo : Clock.firstDay < z.dayAt t) (hhi : z.dayAt t ≤ Clock.lastDay) :
    (∃ n k : Nat, z.Stretch t (z.firstMinute t) (z.firstMinute t + 60 * n) ∧
      z.minuteStart t = z.firstMinute t + 60 * k ∧ k < n ∧ n ≤ 60 ∧
      Clock.minute (z.toLocal t) ∈ Field.minute.values (some ⟨z, t⟩) ∧
      (Field.minute.values (some ⟨z, t⟩) = List.range' (Clock.minute (z.toLocal (z.firstMinute t))) n ↔
        ¬ (n < 60 ∧ z.CutUnseen t (z.firstMinute t + 60 * n)))) ∧
    Field.minute.valuesChecked (some ⟨z, t⟩) = .ok (Field.minute.values (some ⟨z, t⟩)) := by
  refine ⟨?_, hm.valuesChecked_minute_eq hlo hhi⟩
  obtain ⟨n, k, h, hk, hkn, hn, hminutes⟩ := z.exists_stretch hm t
  refine ⟨n, k, h, hk, hkn, hn, ?_⟩
  cases hc : z.changesOnDay t with
  | true =>
    rw [Field.values_minute_of_seen hc, hminutes]
    refine ⟨?_, iff_of_true rfl fun hcut => h.not_cutUnseen hz hd hc hcut.2⟩
    obtain ⟨hh, hs⟩ := sameHour_iff.1 (h.same _ (Int.le_refl _) (by omega))
    have hm := z.minuteStart_eq_sub t
    rw [List.mem_range'_1, Clock.minute_eq, Clock.minute_eq]
    simp only [Clock.hour_eq, toLocal, hs] at *
    omega
  | false =>
    rw [Field.values_of_unchanged hc]
    refine ⟨Field.mem_interval.2 (Field.ofLocal_bounds (f := .minute) (by decide) _), ?_⟩
    by_cases h60 : n = 60
    · subst h60
      have hfull := h.toLocal_start_of_length
      refine iff_of_true ?_ fun hcut => absurd hcut.1 (by decide)
      rw [show Clock.minute (z.toLocal (z.firstMinute t)) = 0 by rw [Clock.minute_eq]; omega]
      rfl
    · have hcut := h.cutUnseen hz hd hstart hc (by omega)
      refine iff_of_false (fun he => ?_) fun hno => hno ⟨by omega, hcut⟩
      have := congrArg List.length he
      rw [Field.length_interval, List.length_range'] at this
      simp only [Field.lowest, Field.lastValue, Field.highest] at this
      omega

/-! ## Pyongyang, half an hour away from its neighbours from 2015 to 2018 -/

theorem wholeMinutes_pyongyang : pyongyang.WholeMinutes :=
  wholeMinutes_of_transitions (by decide +kernel) (by decide +kernel)

theorem spacedBy_pyongyang : pyongyang.SpacedBy 172800 := spacedBy_of_isChain (by decide) (by decide +kernel)

theorem datesAscend_pyongyang : pyongyang.DatesAscend := datesAscend_of_transitions (by decide +kernel)

/-- On 14 August 2015 the clocks were set back from midnight to 23:30. At 23:40 after that the calendar has the
minutes of the second half hour. -/
theorem values_minute_iff_pyongyang :
    pyongyang.WholeMinutes ∧ pyongyang.SpacedBy 172800 ∧ pyongyang.DatesAscend ∧
      pyongyang.StartsWithMidnight (pyongyang.dayAt 1439565000) ∧
      Clock.firstDay < pyongyang.dayAt 1439565000 ∧ pyongyang.dayAt 1439565000 ≤ Clock.lastDay ∧
      pyongyang.Stretch 1439565000 1439564400 1439566200 ∧
      Field.minute.valuesChecked (some ⟨pyongyang, 1439565000⟩) = .ok (List.range' 30 30) := by
  have hstart : pyongyang.StartsWithMidnight (pyongyang.dayAt 1439565000) := .inl ⟨1439478000, by decide +kernel⟩
  obtain ⟨hlo, hhi⟩ : Clock.firstDay < pyongyang.dayAt 1439565000 ∧ pyongyang.dayAt 1439565000 ≤ Clock.lastDay := by
    decide +kernel
  obtain ⟨⟨n, k, h, -, -, -, -, hiff⟩, hchecked⟩ :=
    values_minute_iff wholeMinutes_pyongyang spacedBy_pyongyang datesAscend_pyongyang hstart hlo hhi
  have hstretch : pyongyang.Stretch 1439565000 1439564400 1439566200 := by
    have := stretch_minutesOfHour wholeMinutes_pyongyang 1439565000
    rwa [show pyongyang.firstMinute 1439565000 = 1439564400 by decide +kernel,
      show (pyongyang.minutesOfHour 1439565000).length = 30 by decide +kernel] at this
  obtain ⟨hfirst, hend⟩ := h.unique hstretch
  obtain rfl : n = 30 := by omega
  refine ⟨wholeMinutes_pyongyang, spacedBy_pyongyang, datesAscend_pyongyang, hstart, hlo, hhi, hstretch, ?_⟩
  rw [hchecked, hiff.2 fun ⟨_, hcut⟩ => ?_, hfirst]
  · decide +kernel
  · rw [hend] at hcut
    revert hcut
    unfold CutUnseen ChangesAt
    decide +kernel

/-- On 4 May 2018 the clocks were put forward from 23:30 to midnight. At 23:20 the hour is cut off after thirty minutes,
and the calendar has sixty. -/
theorem not_values_minute_pyongyang :
    pyongyang.WholeMinutes ∧ pyongyang.SpacedBy 172800 ∧ pyongyang.DatesAscend ∧
      pyongyang.StartsWithMidnight (pyongyang.dayAt 1525445400) ∧
      pyongyang.Stretch 1525445400 1525444200 1525446000 ∧
      Clock.minute (pyongyang.toLocal 1525444200) = 0 ∧ pyongyang.dayAt 1525446000 = pyongyang.dayAt 1525445400 + 1 ∧
      Field.minute.values (some ⟨pyongyang, 1525445400⟩) ≠ List.range' 0 30 := by
  refine ⟨wholeMinutes_pyongyang, spacedBy_pyongyang, datesAscend_pyongyang, .inl ⟨1525361400, by decide +kernel⟩, ?_,
    by decide +kernel, by decide +kernel, by decide +kernel⟩
  have := stretch_minutesOfHour wholeMinutes_pyongyang 1525445400
  rwa [show pyongyang.firstMinute 1525445400 = 1525444200 by decide +kernel,
    show (pyongyang.minutesOfHour 1525445400).length = 30 by decide +kernel] at this

end Almanac.Zone
