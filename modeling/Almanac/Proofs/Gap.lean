import Almanac.Proofs.DaySearch
import Almanac.Proofs.Progress
import Almanac.Zone.Known
/-!
# Searches on the day of a gap

Where the clocks go forward by one hour, the calendar leaves that hour out. A condition whose next
value is the hour left out goes to the end of the day instead, past the hours after it that it lets
pass as well. `Schedule.LosesInGap` says when that happens to the first occurrence.

- `Schedule.hour_le_in_gap`: otherwise a refinement of the hour does not pass the first occurrence.
- `Schedule.passes_by_of_losesInGap`: then every candidate before the gap passes it by.
- `Schedule.search_in_gap`: so this is exactly when a pass does not end with the first occurrence.
-/
namespace Almanac

/-! ## The hours -/

namespace Zone.ChangeDay

variable {z : Zone} {T before D t m u : Int} {v : Nat}

/-- Between two hours that are shown only the one that the change skips is not. -/
theorem hour_shown (h : z.ChangeDay T before (before + 1) D) (ht : z.dayAt t = D) (hm : z.dayAt m = D)
    (hlo : Clock.hour (z.toLocal t) ≤ v) (hhi : v ≤ Clock.hour (z.toLocal m))
    (hne : t < T → T ≤ m → v ≠ Clock.hour (z.toLocal (T - 1)) + 1) :
    ∃ u, z.dayAt u = D ∧ Clock.hour (z.toLocal u) = v := by
  have hfull := h.fullHour
  have hspan := h.span
  have ht' := h.dayAt_eq_iff.1 ht
  have hm' := h.dayAt_eq_iff.1 hm
  have h1 := h.hour_cases ht
  have h2 := h.hour_cases hm
  have hshow {u : Int} (hu : z.dayAt u = D)
      (hv : (u < T ∧ (v : Int) = u / 3600 + before - 24 * D) ∨
        (T ≤ u ∧ (v : Int) = u / 3600 + (before + 1) - 24 * D)) :
      ∃ u, z.dayAt u = D ∧ Clock.hour (z.toLocal u) = v := by
    have := h.hour_cases hu
    exact ⟨u, hu, by omega⟩
  by_cases hcross : t < T ∧ T ≤ m
  · have hlast := h.hour_cases (t := T - 1) (h.dayAt_eq_iff.2 (by omega))
    have hne := hne hcross.1 hcross.2
    by_cases hbefore : v < Clock.hour (z.toLocal (T - 1)) + 1
    · exact hshow (u := 3600 * (v - before + 24 * D)) (h.dayAt_eq_iff.2 (by omega)) (by omega)
    · exact hshow (u := 3600 * (v - (before + 1) + 24 * D)) (h.dayAt_eq_iff.2 (by omega)) (by omega)
  · by_cases hmT : m < T
    · exact hshow (u := 3600 * (v - before + 24 * D)) (h.dayAt_eq_iff.2 (by omega)) (by omega)
    · exact hshow (u := 3600 * (v - (before + 1) + 24 * D)) (h.dayAt_eq_iff.2 (by omega)) (by omega)

end Zone.ChangeDay

namespace Schedule

open Almanac.Field (Sixtieth)

variable {s : Schedule} {f : Field} {T before D c t u m w : Int} {d : Nat}

/-- A pass from `c` goes by the first occurrence `m` behind the gap at `T`: the hour before the gap does
not pass, and every condition that lets the hour of `m` pass would let the skipped hour pass too. On
the last day of all, where the calendar has the skipped hour, the next hour that passes is gone by when
the skipped hour does not pass. -/
def LosesInGap (s : Schedule) (T c m : Int) : Prop :=
  let skipped := Clock.hour (s.zone.toLocal (T - 1)) + 1
  c < T ∧ T ≤ m ∧ ¬ s.PassesAt .hour (T - 1) ∧
    if s.zone.dayAt c < Clock.lastDay then
      ∀ C ∈ s.conditions .hour, C.passes (Clock.hour (s.zone.toLocal m)) = true → C.passes skipped = true
    else s.passes .hour skipped = false

instance : Decidable (s.LosesInGap T c m) := by unfold LosesInGap; infer_instance

/-! ## A refinement that does not go by -/

/-- Where no gap lies in between, a refinement of the hour does not pass an hour that passes. -/
theorem hour_le_beside_gap (h : s.zone.ChangeDay T before (before + 1) D) (ht : s.zone.dayAt t = D)
    (hm : s.zone.dayAt m = D) (htm : t ≤ m) (hside : T ≤ t ∨ m < T) (hfail : ¬ s.PassesAt .hour t)
    (hpass : s.PassesAt .hour m) (hd : s.distance? t .hour = some d) : t / 3600 + d ≤ m / 3600 := by
  have hlt := hour_lt_of_passes h ht hm htm hfail hpass
  cases hc : s.zone.changesOnDay t with
  | true =>
    obtain ⟨C, hC, hCm⟩ := passes_iff.1 hpass
    exact hour_le_of_shown h ht hm hc hfail hd hlt hC hCm fun w hw hwm =>
      h.hour_shown ht hm (Nat.le_of_lt (Condition.nextPassing?_eq_some_iff.1 hw).1) hwm (by omega)
  | false =>
    have hm23 := Clock.hour_le (s.zone.toLocal m)
    have hle := hour_le_of_unchanged hc hfail hd hlt hm23 hpass
    have h1 := h.hour_cases ht
    have h2 := h.hour_cases hm
    omega

theorem changesOnDay_of_crossing (h : s.zone.ChangeDay T before (before + 1) D) (ht : s.zone.dayAt t = D)
    (hm : s.zone.dayAt m = D) (htT : t < T) (hTm : T ≤ m) :
    s.zone.changesOnDay t = true ↔ D < Clock.lastDay := by
  have ht' := h.dayAt_eq_iff.1 ht
  have hm' := h.dayAt_eq_iff.1 hm
  constructor
  · intro hc
    refine Int.lt_of_not_ge fun hlast => ?_
    rw [Zone.changesOnDay] at hc
    simp only [ht, if_neg (show ¬ D < Clock.lastDay by omega), Bool.false_eq_true] at hc
  · intro hlast
    cases hc : s.zone.changesOnDay t with
    | true => rfl
    | false =>
      have := h.unchanged_cases ht hc
      omega

theorem hour_le_in_gap (h : s.zone.ChangeDay T before (before + 1) D) (hc : s.zone.dayAt c = D)
    (hm : s.zone.dayAt m = D) (hct : c ≤ t) (htm : t ≤ m) (hfail : ¬ s.PassesAt .hour t)
    (hpass : s.PassesAt .hour m) (hd : s.distance? t .hour = some d) (hkeeps : ¬ s.LosesInGap T c m) :
    t / 3600 + d ≤ m / 3600 := by
  have ht := dayAt_of_between h hc hm hct htm
  by_cases hcross : t < T ∧ T ≤ m
  case neg => exact hour_le_beside_gap h ht hm htm (by omega) hfail hpass hd
  obtain ⟨htT, hTm⟩ := hcross
  have hT : s.zone.dayAt (T - 1) = D := dayAt_of_between h ht hm (by omega) (by omega)
  have hfull := h.fullHour
  by_cases hbefore : s.PassesAt .hour (T - 1)
  -- the hour before the gap is on the way
  · have := hour_le_beside_gap h ht hT (by omega) (.inr (by omega)) hfail hbefore hd
    omega
  have h1 := h.hour_cases ht
  have h2 := h.hour_cases hm
  have h3 := h.hour_cases hT
  have hm23 := Clock.hour_le (s.zone.toLocal m)
  simp only [LosesInGap, hc, show c < T by omega, hTm, hbefore, not_false_eq_true, true_and] at hkeeps
  by_cases hlast : D < Clock.lastDay
  · simp only [if_pos hlast, not_forall] at hkeeps
    obtain ⟨C, hC, hCm, hCskipped⟩ := hkeeps
    refine hour_le_of_shown h ht hm ((changesOnDay_of_crossing h ht hm htT hTm).2 hlast) hfail hd
      (hour_lt_of_passes h ht hm htm hfail hpass) hC hCm fun w hw hwm => ?_
    obtain ⟨htw, -, hCw, -⟩ := Condition.nextPassing?_eq_some_iff.1 hw
    exact h.hour_shown ht hm (Nat.le_of_lt htw) hwm fun _ _ he => hCskipped (he ▸ hCw)
  · have hchange : s.zone.changesOnDay t = false := by
      rw [Bool.eq_false_iff, ne_eq, changesOnDay_of_crossing h ht hm htT hTm]
      exact hlast
    rw [if_neg hlast, Bool.not_eq_false] at hkeeps
    have := hour_le_of_unchanged hchange hfail hd (by omega) (by omega) hkeeps
    omega

/-! ## A refinement that goes by -/

/-- Behind the gap the hour of the first occurrence is the first that passes. -/
theorem eq_hour_of_passes (h : s.zone.ChangeDay T before (before + 1) D) (hm : s.FirstOn D c m)
    (hc : s.zone.dayAt c = D) (hcT : c < T) (hTm : T ≤ m) {v : Nat}
    (hv : Clock.hour (s.zone.toLocal (T - 1)) + 1 < v) (hvm : v ≤ Clock.hour (s.zone.toLocal m))
    (hpass : s.passes .hour v = true) : v = Clock.hour (s.zone.toLocal m) := by
  obtain ⟨⟨hcm, hmD, hom⟩, hleast⟩ := hm
  have hfull := h.fullHour
  have hT : s.zone.dayAt (T - 1) = D := dayAt_of_between h hc hmD (by omega) (by omega)
  have h1 := h.hour_cases hT
  have h2 := h.hour_cases hmD
  -- the same minute and second in the hour that passes
  obtain ⟨u, hu⟩ : ∃ u, u = m - 3600 * (Clock.hour (s.zone.toLocal m) - v) := ⟨_, rfl⟩
  have huD : s.zone.dayAt u = D := dayAt_of_between h hT hmD (by omega) (by omega)
  have h3 := h.hour_cases huD
  have hou : s.Occurs u := by
    intro f
    have hsixtieth {w : Int} (hf : Sixtieth f w) : s.PassesAt f u := by
      have := hom f
      rw [PassesAt, h.ofLocal_sixtieth hf hmD] at this
      rw [PassesAt, h.ofLocal_sixtieth hf huD]
      rcases hf with ⟨-, rfl⟩ | ⟨-, rfl⟩
      · rwa [show u / 60 % 60 = m / 60 % 60 by omega]
      · rwa [show u / 1 % 60 = m / 1 % 60 by omega]
    cases f with
    | hour =>
      rw [PassesAt, Field.ofLocal, show Clock.hour (s.zone.toLocal u) = v by omega]
      exact hpass
    | minute => exact hsixtieth (.inl ⟨rfl, rfl⟩)
    | second => exact hsixtieth (.inr ⟨rfl, rfl⟩)
    | _ =>
      rw [PassesAt, Field.ofLocal_of_dayNumber (l := s.zone.toLocal m) (by decide) (huD.trans hmD.symm)]
      exact hom _
  have := hleast ⟨by omega, huD, hou⟩
  omega

/-- Where the calendar leaves the skipped hour out, a condition that has its next value behind the gap
does not let the skipped hour pass. -/
theorem hour_passes_by_shown (h : s.zone.ChangeDay T before (before + 1) D) (hm : s.FirstOn D c m)
    (hc : s.zone.dayAt c = D) (hct : c ≤ t) (htT : t < T) (hTm : T ≤ m)
    (hchange : s.zone.changesOnDay t = true) (hfail : ¬ s.PassesAt .hour t)
    (hd : s.distance? t .hour = some d)
    (hloses : ∀ C ∈ s.conditions .hour, C.passes (Clock.hour (s.zone.toLocal m)) = true →
      C.passes (Clock.hour (s.zone.toLocal (T - 1)) + 1) = true) :
    3600 * (t / 3600 + d) ≤ s.zone.startOfDay (D + 1) ∧
      (3600 * (t / 3600 + d) < T ∨ m < 3600 * (t / 3600 + d)) := by
  have hmD := hm.1.2.1
  have ht := dayAt_of_between h hc hmD hct (by omega)
  have hT : s.zone.dayAt (T - 1) = D := dayAt_of_between h ht hmD (by omega) (by omega)
  have hfull := h.fullHour
  have hspan := h.span
  have hmin := h.dayAt_eq_iff.1 hmD
  have h1 := h.hour_cases ht
  have h2 := h.hour_cases hmD
  have h3 := h.hour_cases hT
  have hstands : s.Stands t .hour _ := h.standsAt_hour ht hchange
  obtain ⟨hstart, -⟩ := h.hourIndex_spec ht
  have hlen := distance?_le_length hstands hfail hd
  rw [h.values_hour ht hchange, List.length_map, List.length_range] at hlen
  have hcount : s.zone.hourCount D = (s.zone.startOfDay (D + 1) - s.zone.startOfDay D) / 3600 := by
    rw [Zone.hourCount]
    omega
  refine ⟨by omega, ?_⟩
  by_cases hend : s.zone.hourIndex t + d < s.zone.hourCount D
  case neg => exact .inr (by omega)
  have h4 := h.hour_cases (h.dayAt_hour_iff.2 hend)
  rw [← Zone.hourAt] at h4
  by_cases huT : s.zone.startOfDay D + 3600 * (s.zone.hourIndex t + d : Nat) < T
  · exact .inl (by omega)
  by_cases hmu : m < s.zone.startOfDay D + 3600 * (s.zone.hourIndex t + d : Nat)
  · exact .inr (by omega)
  -- what is landed on would be the hour of the first occurrence
  obtain ⟨C, hC, hnext⟩ : ∃ C ∈ s.conditions .hour, C.nextPassing? (Clock.hour (s.zone.toLocal t)) =
      some (s.zone.hourAt D (s.zone.hourIndex t + d)) :=
    exists_nextPassing?_of_landing hstands hfail hd ((h.getElem?_values_hour ht hchange).2 ⟨hend, rfl⟩)
  obtain ⟨-, -, hCv, hnone⟩ := Condition.nextPassing?_eq_some_iff.1 hnext
  have heq := eq_hour_of_passes h hm hc (by omega) hTm (by omega) (by omega) (passes_iff.2 ⟨C, hC, hCv⟩)
  have hskipped := hloses C hC (heq ▸ hCv)
  rw [hnone (Clock.hour (s.zone.toLocal (T - 1)) + 1) (by omega) (by omega)] at hskipped
  cases hskipped

/-- Where the calendar has the skipped hour, the hours behind the gap are an hour less far off than
their distance. -/
theorem hour_passes_by_unchanged (h : s.zone.ChangeDay T before (before + 1) D) (hm : s.FirstOn D c m)
    (hc : s.zone.dayAt c = D) (hct : c ≤ t) (htT : t < T) (hTm : T ≤ m)
    (hchange : s.zone.changesOnDay t = false) (hfail : ¬ s.PassesAt .hour t)
    (hd : s.distance? t .hour = some d)
    (hloses : s.passes .hour (Clock.hour (s.zone.toLocal (T - 1)) + 1) = false) :
    3600 * (t / 3600 + d) ≤ s.zone.startOfDay (D + 1) + 3600 ∧
      (3600 * (t / 3600 + d) < T ∨ m < 3600 * (t / 3600 + d)) := by
  have hmD := hm.1.2.1
  have ht := dayAt_of_between h hc hmD hct (by omega)
  have hT : s.zone.dayAt (T - 1) = D := dayAt_of_between h ht hmD (by omega) (by omega)
  have hfull := h.fullHour
  have hspan := h.span
  have hlo := h.begins
  have hhi := h.ends
  have hmin := h.dayAt_eq_iff.1 hmD
  have h1 := h.hour_cases ht
  have h2 := h.hour_cases hmD
  have h3 := h.hour_cases hT
  have hvalues : Field.hour.values (s.context t) = Field.interval 0 23 := Field.values_of_unchanged hchange
  have hstands : s.Stands t .hour (Clock.hour (s.zone.toLocal t)) :=
    Field.standsAt_of_unchanged hchange (Field.admits_ofLocal (by decide) _)
  have hlen := distance?_le_length hstands hfail hd
  rw [hvalues, Field.length_interval] at hlen
  have hm23 := Clock.hour_le (s.zone.toLocal m)
  have hfinish := h.startOfDay_cases (D + 1) (by omega) (by omega)
  refine ⟨by omega, ?_⟩
  by_cases hend : Clock.hour (s.zone.toLocal t) + d = 24
  · exact .inr (by omega)
  have hpass := passes_at_landing hstands hfail hd (v := Clock.hour (s.zone.toLocal t) + d)
    (by rw [hvalues, Field.getElem?_interval]; omega)
  rcases Nat.lt_trichotomy (Clock.hour (s.zone.toLocal t) + d) (Clock.hour (s.zone.toLocal (T - 1)) + 1) with
    hlt | heq | hgt
  · exact .inl (by omega)
  · rw [heq, hloses] at hpass
    cases hpass
  · by_cases hle : Clock.hour (s.zone.toLocal t) + d ≤ Clock.hour (s.zone.toLocal m)
    · have := eq_hour_of_passes h hm hc (by omega) hTm hgt hle hpass
      exact .inr (by omega)
    · exact .inr (by omega)

/-- A refinement of the hour from before the gap stays before it or leaves the first occurrence behind. -/
theorem hour_passes_by (h : s.zone.ChangeDay T before (before + 1) D) (hm : s.FirstOn D c m)
    (hc : s.zone.dayAt c = D) (hct : c ≤ t) (htT : t < T) (hfail : ¬ s.PassesAt .hour t)
    (hd : s.distance? t .hour = some d) (hloses : s.LosesInGap T c m) :
    3600 * (t / 3600 + d) ≤ s.zone.startOfDay (D + 1) + 3600 ∧
      (3600 * (t / 3600 + d) < T ∨ m < 3600 * (t / 3600 + d)) := by
  obtain ⟨-, hTm, -, hloses⟩ := hloses
  have hmD := hm.1.2.1
  have ht := dayAt_of_between h hc hmD hct (by omega)
  have hcross := changesOnDay_of_crossing h ht hmD htT hTm
  rw [hc] at hloses
  cases hchange : s.zone.changesOnDay t with
  | true =>
    rw [if_pos (hcross.1 hchange)] at hloses
    obtain ⟨hle, hby⟩ := hour_passes_by_shown h hm hc hct htT hTm hchange hfail hd hloses
    exact ⟨by omega, hby⟩
  | false =>
    rw [if_neg fun hlast => by rw [hcross.2 hlast] at hchange; cases hchange] at hloses
    exact hour_passes_by_unchanged h hm hc hct htT hTm hchange hfail hd hloses

/-! ## Past the first occurrence -/

/-- A candidate past an instant of the date stays past it. -/
theorem lt_of_refines_past (h : s.zone.ChangeDay T before (before + 1) D) (hm : s.zone.dayAt m = D)
    (hmt : m < t) (hr : s.Refines t f d u) : m < u := by
  by_cases hf : f.index < Field.hour.index
  · obtain ⟨day, rfl, hday⟩ := startOfDay_of_refines_date hr hf
    refine h.lt_startOfDay hm ?_
    have hlo := h.begins
    have hhi := h.ends
    have hm' := h.dayAt_eq_iff.1 hm
    have := (h.le_dayAt_iff (t := t) D (by omega) (by omega)).2 (by omega)
    omega
  · have := lt_of_refines_time hr (by omega)
    omega

/-- Where the first occurrence is lost, candidates stay before the gap or get past it. -/
theorem passes_by_of_losesInGap (h : s.zone.ChangeDay T before (before + 1) D) (hm : s.FirstOn D c m)
    (hc : s.zone.dayAt c = D) (hloses : s.LosesInGap T c m) (ht : (c ≤ t ∧ t < T) ∨ m < t)
    (hr : s.Refines t f d u) : (c ≤ u ∧ u < T) ∨ m < u := by
  obtain ⟨⟨hcm, hmD, hom⟩, -⟩ := id hm
  rcases ht with ⟨hct, htT⟩ | hmt
  case inr => exact .inr (lt_of_refines_past h hmD hmt hr)
  have hTm := hloses.2.1
  have hbefore := hloses.2.2.1
  have hfull := h.fullHour
  have ht := dayAt_of_between h hc hmD hct (by omega)
  have hT : s.zone.dayAt (T - 1) = D := dayAt_of_between h ht hmD (by omega) (by omega)
  have hindex := hr.hour_le_index ht hmD hom
  have htu := lt_of_refines_time hr hindex
  -- the hour before the gap does not pass, so a candidate in an hour that passes is further off
  have hsixtieth {w : Int} (hf : Sixtieth f w) : u < T := by
    have hlen := sixtieth_le_end h hf ht hr.fails hr.distance
    obtain ⟨-, hu⟩ := (moveOn?_sixtieth_of_changeDay h hf ht (by omega)).1 hr.moved
    have hhour : s.PassesAt .hour t := hr.coarser .hour (by rcases hf with ⟨rfl, -⟩ | ⟨rfl, -⟩ <;> decide)
    have hne : Clock.hour (s.zone.toLocal t) ≠ Clock.hour (s.zone.toLocal (T - 1)) := fun he =>
      hbefore (by rw [PassesAt, Field.ofLocal, ← he]; exact hhour)
    have h1 := h.hour_cases ht
    have h2 := h.hour_cases hT
    rcases hf with ⟨-, rfl⟩ | ⟨-, rfl⟩ <;> omega
  cases f with
  | hour =>
    obtain ⟨hle, hby⟩ := hour_passes_by h hm hc hct htT hr.fails hr.distance hloses
    obtain ⟨-, hu⟩ := (moveOn?_hour_of_changeDay h ht hle).1 hr.moved
    rcases hby with hlt | hlt
    · exact .inl ⟨by omega, by omega⟩
    · exact .inr (by omega)
  | minute => exact .inl ⟨by omega, hsixtieth (.inl ⟨rfl, rfl⟩)⟩
  | second => exact .inl ⟨by omega, hsixtieth (.inr ⟨rfl, rfl⟩)⟩
  | _ => exact absurd hindex (by decide)

/-! ## The result of a pass -/

/-- On either date of the change, a pass ends with the first occurrence from its candidate on exactly
when that is not lost in the gap. -/
theorem search_in_gap (h : s.zone.SingleChange T before (before + 1))
    (hD : D = s.zone.dayAt T ∨ D = s.zone.dayAt (T - 1)) (hc : s.zone.dayAt c = D) (hcu : c ≤ u)
    (hu : s.zone.dayAt u = D) (ho : s.Occurs u) (hend : u ≤ Clock.lastInstant) :
    ∃ m, IsLeast {v | c ≤ v ∧ s.zone.dayAt v = D ∧ s.Occurs v} m ∧
      (s.search passLimit c = .ok (some m) ↔ ¬ s.LosesInGap T c m) := by
  have hday := h.changeDay hD
  obtain ⟨m, hm⟩ := exists_firstOn hcu hu ho
  obtain ⟨⟨hcm, hmD, hom⟩, hleast⟩ := id hm
  have hmu : m ≤ u := hleast ⟨hcu, hu, ho⟩
  refine ⟨m, hm, fun hs hloses => ?_, fun hkeeps => ?_⟩
  · rcases searchFrom_ok (P := fun t => (c ≤ t ∧ t < T) ∨ m < t)
      (fun t f d u ht hr => passes_by_of_losesInGap hday hm hc hloses ht hr) hs
      (.inl ⟨Int.le_refl c, hloses.1⟩) with ⟨m', hm', hP, -⟩ | ⟨hm', -⟩
    · cases hm'
      have := hloses.2.1
      omega
    · cases hm'
  · refine search_eq_firstOn hday hc hm (by omega) fun t d hct htm hfail hd => ?_
    exact hour_le_in_gap hday hc hmD hct (Int.le_of_lt htm) hfail (hom .hour) hd hkeeps

theorem search_in_gap_twoAndThree :
    Zone.brisbane.SingleChange 625593600 10 (10 + 1) ∧
      ¬ (onTheHour twoAndThree).LosesInGap 625593600 625590001 625593600 ∧
      ∃ m, IsLeast {v | 625590001 ≤ v ∧ Zone.brisbane.dayAt v = Zone.brisbane.dayAt 625593600 ∧
          (onTheHour twoAndThree).Occurs v} m ∧
        ((onTheHour twoAndThree).search passLimit 625590001 = .ok (some m) ↔
          ¬ (onTheHour twoAndThree).LosesInGap 625593600 625590001 m) := by
  have h : Zone.brisbane.SingleChange 625593600 10 (10 + 1) :=
    .of_transitions (by decide) (by decide +kernel) (by decide +kernel) (.inl rfl) (by decide +kernel)
  refine ⟨h, by decide +kernel, ?_⟩
  exact search_in_gap (s := onTheHour twoAndThree) (u := 625593600) h (.inl rfl) (by decide +kernel) (by decide)
    rfl (by decide +kernel) (by decide +kernel)

/-- After the gap 3 o'clock passes, and the search ends with 2 o'clock on the next day. -/
theorem not_search_in_gap_twoToFive :
    Zone.brisbane.SingleChange 625593600 10 (10 + 1) ∧
      Zone.brisbane.dayAt 625590001 = Zone.brisbane.dayAt 625593600 ∧
      (onTheHour twoToFive).Occurs 625593600 ∧
      (onTheHour twoToFive).search passLimit 625590001 = .ok (some 625676400) ∧
      ¬ ∃ m, (onTheHour twoToFive).search passLimit 625590001 = .ok (some m) ∧
        IsLeast {v | 625590001 ≤ v ∧ Zone.brisbane.dayAt v = Zone.brisbane.dayAt 625593600 ∧
          (onTheHour twoToFive).Occurs v} m := by
  have hday : Zone.brisbane.dayAt 625590001 = Zone.brisbane.dayAt 625593600 := by decide +kernel
  have hocc : (onTheHour twoToFive).Occurs 625593600 := by decide +kernel
  have hs : (onTheHour twoToFive).search passLimit 625590001 = .ok (some 625676400) := by decide +kernel
  refine ⟨.of_transitions (by decide) (by decide +kernel) (by decide +kernel) (.inl rfl) (by decide +kernel),
    hday, hocc, hs, ?_⟩
  rintro ⟨m, hm, -, hleast⟩
  rw [hs] at hm
  cases hm
  have := hleast (show 625593600 ∈ _ from ⟨by decide, rfl, hocc⟩)
  omega

end Schedule
end Almanac
