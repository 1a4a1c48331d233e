import Almanac.Proofs.Progress
import Almanac.Proofs.Steady
/-!
# Searches that begin before the first year

A field measures no distance from a year before 1970, so a pass that begins there ends at once unless
the year is not restricted, whatever occurs from 1970 on.

- `Schedule.search_of_early`: where the year is restricted, a pass that begins early finds nothing.
- `Schedule.search_ne_none`: where it is not, no pass ends for want of a later value.
- `Schedule.next_eq_nil_of_early`: so nothing is found exactly where the year is restricted.
-/
namespace Almanac.Schedule

variable {s : Schedule} {t c : Int} {n : Nat}

/-- Before 1970 a restricted year neither passes nor is a value of the field. -/
theorem firstFailing_of_early (h : .wildcard ∉ s.conditions .year)
    (hyear : (Clock.date (s.zone.toLocal t)).year < 1970) :
    s.FirstFailing t .year ∧ s.distance? t .year = none := by
  have hadm : ¬ Field.year.Admits (Field.year.ofLocal (s.zone.toLocal t)) := fun hadm => by
    have := Field.ofLocal_year_of_admits hadm
    have := hadm.1
    simp only [Field.lowest] at this
    omega
  refine ⟨⟨fun g hg => absurd hg (Nat.not_lt_zero _), fun hp => ?_⟩, ?_⟩
  · obtain ⟨C, hC, hCp⟩ := passes_iff.1 hp
    cases C with
    | wildcard => exact h hC
    | constrained base step hw hk => exact hadm (Condition.admits_of_passes hCp)
  · cases hd : s.distance? t .year with
    | none => rfl
    | some d => exact absurd (admits_of_distance? hd) hadm

theorem search_of_early (h : .wildcard ∉ s.conditions .year)
    (hyear : (Clock.date (s.zone.toLocal c)).year < 1970) : s.search passLimit c = .ok none := by
  obtain ⟨hf, hd⟩ := firstFailing_of_early h hyear
  simp only [search, passLimit, searchFrom, hf.verdict_eq_impossible hd]

theorem search_ne_none (hz : s.zone.Steady) (h : .wildcard ∈ s.conditions .year) {limit : Nat} :
    s.search limit c ≠ .ok none := by
  intro hs
  rcases searchFrom_ok (P := fun _ => True) (fun _ _ _ _ _ _ => trivial) hs trivial with
    ⟨m, hm, -⟩ | ⟨-, u, f, -, hf, hd⟩
  · cases hm
  · obtain ⟨rfl, -⟩ := year_of_distance?_eq_none hz hf hd
    exact hf.fails (passesAt_of_wildcard h)

/-- Nothing is collected when the first pass finds nothing. -/
theorem collect_succ_eq_nil_iff : s.collect (n + 1) c = .ok [] ↔ s.search passLimit c = .ok none := by
  constructor
  · intro h
    rcases collect_succ h with ⟨-, hs⟩ | ⟨m, ys, -, -, -, hxs⟩
    · exact hs
    · cases hxs
  · intro h
    simp only [collect, h, bind, Except.bind, pure, Except.pure]

/-- Where the first candidate lies before 1970, a search finds nothing exactly when the year is
restricted, and then it finds nothing even if something occurs later. -/
theorem next_eq_nil_of_early (hz : s.zone.Steady) {r : Timestamp} (hc : s.candidateAfter r = .ok c)
    (hyear : (Clock.date (s.zone.toLocal c)).year < 1970) (hn : 1 ≤ n) :
    s.next n r = .ok [] ↔ .wildcard ∉ s.conditions .year := by
  obtain ⟨k, rfl⟩ := Nat.exists_eq_add_of_le' hn
  simp only [next, hc, bind, Except.bind, collect_succ_eq_nil_iff]
  exact ⟨fun h hw => search_ne_none hz hw h, fun h => search_of_early h hyear⟩

/-- The year is restricted to 2024, so a search from 1969 finds nothing. -/
theorem next_eq_nil_of_early_newYear2024 :
    newYear2024.zone.Steady ∧ newYear2024.candidateAfter ⟨-31536000, 5⟩ = .ok (-31535999) ∧
      (Clock.date (newYear2024.zone.toLocal (-31535999))).year < 1970 ∧ 1 ≤ 3 ∧
      .wildcard ∉ newYear2024.conditions .year ∧ newYear2024.next 3 ⟨-31536000, 5⟩ = .ok [] := by
  have hz : newYear2024.zone.Steady := fun _ _ => rfl
  have hc : newYear2024.candidateAfter ⟨-31536000, 5⟩ = .ok (-31535999) := by decide +kernel
  have hyear : (Clock.date (newYear2024.zone.toLocal (-31535999))).year < 1970 := by decide +kernel
  have hrestricted : .wildcard ∉ newYear2024.conditions .year := by decide +kernel
  exact ⟨hz, hc, hyear, by decide, hrestricted, (next_eq_nil_of_early hz hc hyear (by decide)).2 hrestricted⟩

/-- And yet 2024 begins after the reference. -/
theorem not_next_ne_nil_newYear2024 :
    newYear2024.zone.Steady ∧ newYear2024.candidateAfter ⟨-31536000, 5⟩ = .ok (-31535999) ∧
      (Clock.date (newYear2024.zone.toLocal (-31535999))).year < 1970 ∧
      ((⟨-31536000, 5⟩ : Timestamp).Precedes 1704067200 ∧ 1704067200 ≤ Clock.lastInstant ∧
        newYear2024.Occurs 1704067200) ∧
      newYear2024.next 1 ⟨-31536000, 5⟩ = .ok [] :=
  ⟨fun _ _ => rfl, by decide +kernel, by decide +kernel,
    ⟨Timestamp.precedes_iff.2 (by decide), by decide +kernel, by decide +kernel⟩, by decide +kernel⟩

end Almanac.Schedule
