import Almanac.Proofs.DaySearch
import Almanac.Proofs.Progress
/-!
# Searches on the day of a fold

Where the clocks go back by one hour, every hour of the day is shown and one of them twice. The hours
of the calendar have no gap, so no refinement passes an occurrence, and both copies of a repeated time
are found.

- `Schedule.hour_le_in_fold`: a refinement of the hour does not pass an hour that passes.
- `Schedule.delivered_in_fold`: pulls deliver every occurrence on the date, in order.
- `Schedule.search_in_fold`: both, on the date that the clocks go back to.
-/
namespace Almanac

/-! ## The hours -/

namespace Zone

variable {z : Zone} {T after : Int}

/-- Every hour is shown on the date that the clocks go back to. -/
theorem SingleChange.hour_shown (h : z.SingleChange T (after + 1) after) {v : Nat} (hv : v < 24) :
    ∃ u, z.dayAt u = z.dayAt T ∧ Clock.hour (z.toLocal u) = v := by
  have hday := h.changeDay (.inl rfl)
  have hlo := hday.begins
  have hhi := hday.ends
  have ha := h.after_bounds
  obtain ⟨u, hu⟩ : ∃ u, z.toLocal u = 86400 * z.dayAt T + 3600 * v := by
    by_cases hlt : 86400 * z.dayAt T + 3600 * v - 3600 * (after + 1) < T
    · exact ⟨_, by rw [toLocal, h.shift_of_lt (by omega) hlt]; omega⟩
    · exact ⟨86400 * z.dayAt T + 3600 * v - 3600 * after,
        by rw [toLocal, h.shift_of_le (by omega) (by omega)]; omega⟩
  refine ⟨u, ?_, ?_⟩
  · rw [dayAt, hu, Clock.dayNumber]
    omega
  · rw [hu, Clock.hour_eq]
    omega

/-- The hour before the change is shown again after it. -/
theorem SingleChange.toLocal_repeat (h : z.SingleChange T (after + 1) after) {v : Int}
    (hlo : T - 3600 ≤ v) (hv : v < T) : z.toLocal (v + 3600) = z.toLocal v := by
  rw [toLocal, toLocal, h.shift_of_lt (by omega) hv, h.shift_of_le (by omega) (by omega)]
  omega

end Zone

namespace Schedule

variable {s : Schedule} {T after c t u v m : Int} {d : Nat}

theorem hour_le_in_fold (h : s.zone.SingleChange T (after + 1) after) (ht : s.zone.dayAt t = s.zone.dayAt T)
    (hm : s.zone.dayAt m = s.zone.dayAt T) (htm : t ≤ m) (hfail : ¬ s.PassesAt .hour t)
    (hpass : s.PassesAt .hour m) (hd : s.distance? t .hour = some d) : t / 3600 + d ≤ m / 3600 := by
  have hday := h.changeDay (.inl rfl)
  have hlt := hour_lt_of_passes hday ht hm htm hfail hpass
  have hm23 := Clock.hour_le (s.zone.toLocal m)
  cases hc : s.zone.changesOnDay t with
  | true =>
    obtain ⟨C, hC, hCm⟩ := passes_iff.1 hpass
    exact hour_le_of_shown hday ht hm hc hfail hd hlt hC hCm fun w _ hw => h.hour_shown (by omega)
  | false =>
    have hle := hour_le_of_unchanged hc hfail hd hlt hm23 hpass
    have hfull := h.fullHour
    have h1 := hday.hour_cases ht
    have h2 := hday.hour_cases hm
    omega

/-- The first occurrence on the date is found from everywhere before it on the date. -/
theorem search_eq_firstOn_in_fold (h : s.zone.SingleChange T (after + 1) after)
    (hc : s.zone.dayAt c = s.zone.dayAt T) (hm : s.FirstOn (s.zone.dayAt T) c m) (hend : m ≤ Clock.lastInstant) :
    s.search passLimit c = .ok (some m) := by
  have hday := h.changeDay (.inl rfl)
  have hmD := hm.1.2.1
  refine search_eq_firstOn hday hc hm hend fun t d hct htm hfail hd => ?_
  have ht := dayAt_of_between hday hc hmD hct (Int.le_of_lt htm)
  exact hour_le_in_fold h ht hmD (Int.le_of_lt htm) hfail (hm.1.2.2 .hour) hd

/-- So many pulls deliver all occurrences from the candidate to any other on the date. -/
theorem delivered_in_fold (h : s.zone.SingleChange T (after + 1) after)
    (hc : s.zone.dayAt c = s.zone.dayAt T) (hcu : c ≤ u) (hu : s.zone.dayAt u = s.zone.dayAt T)
    (ho : s.Occurs u) (hend : u ≤ Clock.lastInstant) :
    ∃ n, (Occurrences.delivered n ⟨s, some (.ok c)⟩).Pairwise (· < ·) ∧
      ∀ x, x ∈ Occurrences.delivered n ⟨s, some (.ok c)⟩ ↔ c ≤ x ∧ x ≤ u ∧ s.Occurs x := by
  have hday := h.changeDay (.inl rfl)
  -- by induction on the seconds that are left
  obtain ⟨k, hk⟩ := Int.le.dest hcu
  induction k using Nat.strong_induction_on generalizing c with
  | _ k ih =>
    obtain ⟨m, hm⟩ := exists_firstOn hcu hu ho
    obtain ⟨⟨hcm, hmD, hom⟩, hleast⟩ := id hm
    have hmu : m ≤ u := hleast ⟨hcu, hu, ho⟩
    have hs := search_eq_firstOn_in_fold h hc hm (by omega)
    have hfirst (x : Int) (hcx : c ≤ x) (hxu : x ≤ u) (hox : s.Occurs x) : m ≤ x :=
      hleast ⟨hcx, dayAt_of_between hday hc hu hcx hxu, hox⟩
    by_cases hlast : m = u
    · subst hlast
      refine ⟨1, ?_⟩
      rw [Occurrences.delivered_of_search hs]
      refine ⟨List.pairwise_singleton _ _, fun x => ⟨fun hx => ?_, fun ⟨hcx, hxm, hox⟩ => ?_⟩⟩
      · obtain rfl := List.mem_singleton.1 hx
        exact ⟨hcm, Int.le_refl _, hom⟩
      · exact List.mem_singleton.2 (Int.le_antisymm hxm (hfirst x hcx hxm hox))
    · have hnext : s.candidateAfter (.ofSecond m) = .ok (m + 1) :=
        candidateAfter_eq_ok_iff.2 ⟨rfl, by omega⟩
      obtain ⟨n, hasc, hmem⟩ := ih (u - (m + 1)).toNat (by omega) (c := m + 1)
        (dayAt_of_between hday hmD hu (by omega) (by omega)) (by omega) (by omega)
      refine ⟨n + 1, ?_⟩
      rw [Occurrences.delivered_of_search hs, hnext]
      refine ⟨List.pairwise_cons.2 ⟨fun x hx => ?_, hasc⟩, fun x => ?_⟩
      · have := ((hmem x).1 hx).1
        omega
      · rw [List.mem_cons, hmem x]
        constructor
        · rintro (rfl | ⟨hmx, hxu, hox⟩)
          · exact ⟨hcm, hmu, hom⟩
          · exact ⟨by omega, hxu, hox⟩
        · rintro ⟨hcx, hxu, hox⟩
          have := hfirst x hcx hxu hox
          by_cases hxm : x = m
          · exact .inl hxm
          · exact .inr ⟨by omega, hxu, hox⟩

/-- On the date that the clocks go back to by one hour, a pass from any candidate ends with the first
occurrence from there on, and pulls deliver all of them in order. In the hour that is shown twice these
are the occurrences of both copies. -/
theorem search_in_fold (h : s.zone.SingleChange T (after + 1) after)
    (hc : s.zone.dayAt c = s.zone.dayAt T) (hcu : c ≤ u) (hu : s.zone.dayAt u = s.zone.dayAt T)
    (ho : s.Occurs u) (hend : u ≤ Clock.lastInstant) :
    (∃ m, s.search passLimit c = .ok (some m) ∧
      IsLeast {v | c ≤ v ∧ s.zone.dayAt v = s.zone.dayAt T ∧ s.Occurs v} m) ∧
    (∃ n, (Occurrences.delivered n ⟨s, some (.ok c)⟩).Pairwise (· < ·) ∧
      ∀ x, x ∈ Occurrences.delivered n ⟨s, some (.ok c)⟩ ↔ c ≤ x ∧ x ≤ u ∧ s.Occurs x) ∧
    ∀ v, T - 3600 ≤ v → v < T → s.zone.dayAt v = s.zone.dayAt T ∧ (s.Occurs v ↔ s.Occurs (v + 3600)) := by
  have hday := h.changeDay (.inl rfl)
  refine ⟨?_, delivered_in_fold h hc hcu hu ho hend, fun v hlo hv => ?_⟩
  · obtain ⟨m, hm⟩ := exists_firstOn hcu hu ho
    have hmu : m ≤ u := hm.2 ⟨hcu, hu, ho⟩
    exact ⟨m, search_eq_firstOn_in_fold h hc hm (by omega), hm⟩
  · have hrepeat := h.toLocal_repeat hlo hv
    have hfull := h.fullHour
    constructor
    · rw [Zone.dayAt, ← hrepeat]
      exact hday.dayAt_of_hour rfl (by omega)
    · simp only [Occurs, PassesAt, hrepeat]

/-- Half past two on the day of `halfPastTwo` that has it twice, from one o'clock to the second of them. -/
theorem search_in_fold_halfPastTwo :
    halfPastTwo.zone.SingleChange 636480000 (10 + 1) 10 ∧
      halfPastTwo.search passLimit 636472800 = .ok (some 636478200) ∧
      (∃ m, halfPastTwo.search passLimit 636472800 = .ok (some m) ∧ IsLeast {v | 636472800 ≤ v ∧
        halfPastTwo.zone.dayAt v = halfPastTwo.zone.dayAt 636480000 ∧ halfPastTwo.Occurs v} m) ∧
      ∃ n, (Occurrences.delivered n ⟨halfPastTwo, some (.ok 636472800)⟩).Pairwise (· < ·) ∧
        ∀ x, x ∈ Occurrences.delivered n ⟨halfPastTwo, some (.ok 636472800)⟩ ↔
          636472800 ≤ x ∧ x ≤ 636481800 ∧ halfPastTwo.Occurs x := by
  have h : halfPastTwo.zone.SingleChange 636480000 (10 + 1) 10 :=
    .of_transitions (by decide) (by decide +kernel) (by decide +kernel) (.inr rfl) (by decide +kernel)
  obtain ⟨hleast, hdelivered, -⟩ := search_in_fold (s := halfPastTwo) (c := 636472800) (u := 636481800) h
    (by decide +kernel) (by decide) (by decide +kernel) (by decide +kernel) (by decide +kernel)
  exact ⟨h, by decide +kernel, hleast, hdelivered⟩

end Schedule
end Almanac
