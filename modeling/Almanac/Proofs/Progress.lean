import Almanac.Proofs.Changes
import Almanac.Proofs.Search
import Almanac.Schedule.Samples
/-!
# Searches go forward

Where the local date never goes back and changes of the offset are two days apart, every refinement
leads to a later instant, whether the time that it aims at is shown once, twice or never. So
occurrences come in order, however many are asked for and however they are asked for.

- `Schedule.lt_of_refines`: a refinement goes forward.
- `Occurrences.pull_cases`: what one pull gives out and leaves.
- `Schedule.occurrences_ascend`: all that is found occurs, after the reference and in order.
-/
namespace Almanac

/-! ## One refinement -/

namespace Zone

variable {z : Zone} {t : Int}

theorem lt_startOfDay (hs : z.SpacedBy 172800) (hd : z.DatesAscend) {day : Int} (h : z.dayAt t < day) :
    t < z.startOfDay day := by
  refine Int.lt_of_not_ge fun hle => ?_
  have := hd _ _ hle
  have := le_dayAt_startOfDay hs day
  omega

end Zone

namespace Schedule

variable {s : Schedule} {f : Field} {t u c m : Int} {d : Nat}

/-- The fields of the time aim at a time that is further off than the way back to the start of its
hour or minute. -/
theorem lt_of_refines_time (h : s.Refines t f d u) (hf : Field.hour.index ≤ f.index) : t < u := by
  have hpos := distance?_pos h.distance
  have hmoved := h.moved
  cases f with
  | hour =>
    obtain ⟨-, rfl⟩ := Zone.moveOn?_hour_eq_some_iff.1 hmoved
    have := (s.zone.hourStart_bounds (t + 3600 * d)).1
    omega
  | minute =>
    obtain ⟨-, rfl⟩ := Zone.moveOn?_minute_eq_some_iff.1 hmoved
    have := (s.zone.minuteStart_bounds (t + 60 * d)).1
    omega
  | second =>
    obtain ⟨-, rfl⟩ := Zone.moveOn?_second_eq_some_iff.1 hmoved
    omega
  | _ => exact absurd hf (by decide)

/-- The fields of the date aim at the start of a later day. -/
theorem startOfDay_of_refines_date (h : s.Refines t f d u) (hf : f.index < Field.hour.index) :
    ∃ day, s.zone.startOfDay day = u ∧ s.zone.dayAt t < day := by
  have hpos := distance?_pos h.distance
  obtain ⟨day, hu, hday⟩ := Zone.moveOn?_date hf h.moved
  refine ⟨day, hu, Int.lt_of_not_ge fun hle => ?_⟩
  rw [Zone.dayAt, ← Field.midnight_le_iff, hday, Field.unitStart_le_iff] at hle
  omega

theorem lt_of_refines (hs : s.zone.SpacedBy 172800) (hd : s.zone.DatesAscend) (h : s.Refines t f d u) :
    t < u := by
  by_cases hf : f.index < Field.hour.index
  · obtain ⟨day, rfl, hday⟩ := startOfDay_of_refines_date h hf
    exact Zone.lt_startOfDay hs hd hday
  · exact lt_of_refines_time h (by omega)

/-! ## Many passes -/

/-- What a pass finds occurs. -/
theorem occurs_of_search {limit : Nat} (h : s.search limit c = .ok (some m)) : s.Occurs m := by
  rcases searchFrom_ok (P := fun _ => True) (fun _ _ _ _ _ _ => trivial) h trivial with
    ⟨m', hm', -, ho⟩ | ⟨hm', -⟩
  · cases hm'
    exact ho
  · cases hm'

/-- Where dates ascend it does not lie before the candidate. -/
theorem le_and_occurs_of_search (hs : s.zone.SpacedBy 172800) (hd : s.zone.DatesAscend) {limit : Nat}
    (h : s.search limit c = .ok (some m)) : c ≤ m ∧ s.Occurs m := by
  rcases searchFrom_ok (P := fun t => c ≤ t)
    (fun t f d u hct hr => by have := lt_of_refines hs hd hr; omega) h (Int.le_refl c) with
    ⟨m', hm', hc, ho⟩ | ⟨hm', -⟩
  · cases hm'
    exact ⟨hc, ho⟩
  · cases hm'

/-- Collecting ends with a pass that finds nothing, or goes on after what the pass finds. -/
theorem collect_succ {n : Nat} {xs : List Int} (h : s.collect (n + 1) c = .ok xs) :
    (xs = [] ∧ s.search passLimit c = .ok none) ∨ ∃ m ys, s.search passLimit c = .ok (some m) ∧
      m + 1 ≤ Clock.lastInstant ∧ s.collect n (m + 1) = .ok ys ∧ xs = m :: ys := by
  simp only [collect, bind, Except.bind] at h
  cases ho : s.search passLimit c with
  | error e => simp [ho] at h
  | ok found =>
    cases found with
    | none => simp_all [pure, Except.pure]
    | some m =>
      right
      cases hm : s.candidateAfter (.ofSecond m) with
      | error e => simp [ho, hm] at h
      | ok c' =>
        obtain ⟨rfl, hend⟩ : c' = m + 1 ∧ c' ≤ Clock.lastInstant := candidateAfter_eq_ok_iff.1 hm
        cases hy : s.collect n (m + 1) with
        | error e => simp [ho, hm, hy] at h
        | ok ys =>
          refine ⟨m, ys, rfl, hend, hy, ?_⟩
          simpa [ho, hm, hy, pure, Except.pure, eq_comm] using h

/-- When every pass from a candidate goes forward, occurrences are collected in order. Of the candidates
a property may be known that those after an occurrence have. -/
theorem collect_ascends_of {P : Int → Prop}
    (hpass : ∀ c m, P c → s.search passLimit c = .ok (some m) → c ≤ m)
    (hnext : ∀ m, m + 1 ≤ Clock.lastInstant → P (m + 1)) {n : Nat} {xs : List Int} (hc : P c)
    (h : s.collect n c = .ok xs) : xs.Pairwise (· < ·) ∧ ∀ x ∈ xs, c ≤ x ∧ s.Occurs x := by
  induction n generalizing c xs with
  | zero =>
    cases h
    simp
  | succ n ih =>
    rcases collect_succ h with ⟨rfl, -⟩ | ⟨m, ys, hm, hend, hy, rfl⟩
    · simp
    · have hcm := hpass c m hc hm
      obtain ⟨hasc, hys⟩ := ih (hnext m hend) hy
      constructor
      · refine List.pairwise_cons.2 ⟨fun x hx => ?_, hasc⟩
        have := (hys x hx).1
        omega
      · intro x hx
        rcases List.mem_cons.1 hx with rfl | hx
        · exact ⟨hcm, occurs_of_search hm⟩
        · obtain ⟨hmx, hox⟩ := hys x hx
          exact ⟨by omega, hox⟩

theorem collect_ascends (hs : s.zone.SpacedBy 172800) (hd : s.zone.DatesAscend) {n : Nat} {xs : List Int}
    (h : s.collect n c = .ok xs) : xs.Pairwise (· < ·) ∧ ∀ x ∈ xs, c ≤ x ∧ s.Occurs x :=
  collect_ascends_of (P := fun _ => True) (fun _ _ _ hm => (le_and_occurs_of_search hs hd hm).1)
    (fun _ _ => trivial) trivial h

end Schedule

/-! ## Many pulls -/

namespace Occurrences

variable {o : Occurrences} {n : Nat}

/-- The occurrence that a pull gave out, if it gave out one. -/
def delivery? : Option (Except ScheduleError Int) → Option Int
  | some (.ok t) => some t
  | _ => none

/-- The occurrences among the results of `n` pulls. -/
def delivered (n : Nat) (o : Occurrences) : List Int := (take n o).1.filterMap delivery?

/-- A pull makes a pass from its candidate and goes on after what that finds, or it gives out no
occurrence and neither does any pull after it. -/
theorem pull_cases (o : Occurrences) :
    (∃ c m, o.pending = some (.ok c) ∧ o.schedule.search Schedule.passLimit c = .ok (some m) ∧
      o.pull = (some (.ok m), { o with pending := some (o.schedule.candidateAfter (.ofSecond m)) })) ∨
    (delivery? o.pull.1 = none ∧ o.pull.2.schedule = o.schedule ∧ o.pull.2.pending = none) := by
  obtain ⟨s, pending⟩ := o
  match pending with
  | none => exact .inr ⟨rfl, rfl, rfl⟩
  | some (.error e) => exact .inr ⟨rfl, rfl, rfl⟩
  | some (.ok c) =>
    simp only [pull]
    cases hc : s.search Schedule.passLimit c with
    | error e => exact .inr ⟨rfl, rfl, rfl⟩
    | ok found =>
      cases found with
      | none => exact .inr ⟨rfl, rfl, rfl⟩
      | some m => exact .inl ⟨c, m, rfl, hc, rfl⟩

theorem delivered_succ (n : Nat) (o : Occurrences) :
    delivered (n + 1) o = (delivery? o.pull.1).toList ++ delivered n o.pull.2 := by
  simp only [delivered, take, List.filterMap_cons]
  cases delivery? o.pull.1 <;> rfl

theorem delivered_of_search {s : Schedule} {c m : Int} (h : s.search Schedule.passLimit c = .ok (some m))
    (n : Nat) : delivered (n + 1) ⟨s, some (.ok c)⟩ =
      m :: delivered n ⟨s, some (s.candidateAfter (.ofSecond m))⟩ := by
  rw [delivered_succ, pull]
  simp only [h]
  rfl

/-- Pulls keep the schedule. When every pass from a candidate goes forward, they deliver in order and
from the candidate on. -/
theorem delivered_ascends_of {P : Int → Prop}
    (hpass : ∀ c m, P c → o.schedule.search Schedule.passLimit c = .ok (some m) → c ≤ m)
    (hnext : ∀ m, m + 1 ≤ Clock.lastInstant → P (m + 1)) {b : Int}
    (hb : ∀ c, o.pending = some (.ok c) → P c ∧ b ≤ c) :
    (delivered n o).Pairwise (· < ·) ∧ ∀ x ∈ delivered n o, b ≤ x ∧ o.schedule.Occurs x := by
  induction n generalizing o b with
  | zero => simp [delivered, take]
  | succ n ih =>
    rw [delivered_succ]
    rcases pull_cases o with ⟨c, m, hp, hm, ho⟩ | ⟨hnone, hsched, hend⟩
    · obtain ⟨hPc, hbc⟩ := hb c hp
      have hcm := hpass c m hPc hm
      rw [ho]
      obtain ⟨hasc, hrest⟩ := ih (o := { o with pending := some (o.schedule.candidateAfter (.ofSecond m)) })
        (b := m + 1) hpass fun c' hc' => by
          obtain ⟨rfl, hend⟩ := Schedule.candidateAfter_eq_ok_iff.1 (Option.some.inj hc')
          exact ⟨hnext m hend, Int.le_refl _⟩
      simp only [delivery?, Option.toList_some, List.singleton_append]
      constructor
      · refine List.pairwise_cons.2 ⟨fun x hx => ?_, hasc⟩
        have := (hrest x hx).1
        omega
      · intro x hx
        rcases List.mem_cons.1 hx with rfl | hx
        · exact ⟨by omega, Schedule.occurs_of_search hm⟩
        · obtain ⟨hmx, hox⟩ := hrest x hx
          exact ⟨by omega, hox⟩
    · have := ih (o := o.pull.2) (b := b) (hsched ▸ hpass) fun c hc => by
        rw [hend] at hc
        cases hc
      rw [hsched] at this
      simpa only [hnone, Option.toList_none, List.nil_append] using this

theorem delivered_ascends (hs : o.schedule.zone.SpacedBy 172800) (hd : o.schedule.zone.DatesAscend)
    {b : Int} (hb : ∀ c, o.pending = some (.ok c) → b ≤ c) :
    (delivered n o).Pairwise (· < ·) ∧ ∀ x ∈ delivered n o, b ≤ x ∧ o.schedule.Occurs x :=
  delivered_ascends_of (P := fun _ => True) (fun _ _ _ hm => (Schedule.le_and_occurs_of_search hs hd hm).1)
    (fun _ _ => trivial) fun c hc => ⟨trivial, hb c hc⟩

end Occurrences

/-! ## All that is found -/

namespace Schedule

/-- However many occurrences are asked for after a reference, and however often the next one is pulled,
what comes out occurs, lies after the reference and comes in order. -/
theorem occurrences_ascend {s : Schedule} (hs : s.zone.SpacedBy 172800) (hd : s.zone.DatesAscend)
    (r : Timestamp) (n : Nat) :
    (∀ xs, s.next n r = .ok xs → xs.Pairwise (· < ·) ∧ ∀ x ∈ xs, r.Precedes x ∧ s.Occurs x) ∧
      ((Occurrences.after s r).delivered n).Pairwise (· < ·) ∧
      ∀ x ∈ (Occurrences.after s r).delivered n, r.Precedes x ∧ s.Occurs x := by
  have hafter {c x : Int} (hc : s.candidateAfter r = .ok c) (hcx : c ≤ x) : r.Precedes x := by
    have := (candidateAfter_eq_ok_iff.1 hc).1
    rw [Timestamp.precedes_iff]
    omega
  constructor
  · intro xs h
    simp only [next, bind, Except.bind] at h
    cases hc : s.candidateAfter r with
    | error e => simp [hc] at h
    | ok c =>
      rw [hc] at h
      obtain ⟨hasc, hxs⟩ := collect_ascends hs hd h
      exact ⟨hasc, fun x hx => ⟨hafter hc (hxs x hx).1, (hxs x hx).2⟩⟩
  · obtain ⟨hasc, hxs⟩ := Occurrences.delivered_ascends (o := Occurrences.after s r) (n := n)
      (b := r.second + 1) hs hd fun c hc => by
        have := (candidateAfter_eq_ok_iff.1 (Option.some.inj hc)).1
        omega
    refine ⟨hasc, fun x hx => ?_⟩
    obtain ⟨hle, ho⟩ := hxs x hx
    exact ⟨Timestamp.precedes_iff.2 (by omega), ho⟩

/-- On the date on which half past two is shown twice both are found, by one search and by three pulls. -/
theorem occurrences_ascend_halfPastTwo :
    halfPastTwo.zone.SpacedBy 172800 ∧ halfPastTwo.zone.DatesAscend ∧
      halfPastTwo.next 3 ⟨636391800, 7⟩ = .ok [636478200, 636481800, 636568200] ∧
      (Occurrences.after halfPastTwo ⟨636391800, 7⟩).delivered 3 = [636478200, 636481800, 636568200] ∧
      ([636478200, 636481800, 636568200] : List Int).Pairwise (· < ·) ∧
      ∀ x ∈ (Occurrences.after halfPastTwo ⟨636391800, 7⟩).delivered 3,
        (⟨636391800, 7⟩ : Timestamp).Precedes x ∧ halfPastTwo.Occurs x := by
  have hs : halfPastTwo.zone.SpacedBy 172800 := Zone.spacedBy_of_transitions (by decide +kernel)
  have hd : halfPastTwo.zone.DatesAscend := Zone.datesAscend_of_transitions (by decide +kernel)
  obtain ⟨hnext, hpulls⟩ : halfPastTwo.next 3 ⟨636391800, 7⟩ = .ok [636478200, 636481800, 636568200] ∧
      (Occurrences.after halfPastTwo ⟨636391800, 7⟩).delivered 3 = [636478200, 636481800, 636568200] := by
    decide +kernel
  obtain ⟨hbatch, -, hdelivered⟩ := occurrences_ascend hs hd ⟨636391800, 7⟩ 3
  exact ⟨hs, hd, hnext, hpulls, (hbatch _ hnext).1, hdelivered⟩

end Schedule
end Almanac
