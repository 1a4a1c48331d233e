import Almanac.Proofs.BrokenSearch
import Almanac.Proofs.Progress
/-!
# Searches that go back

Where the clocks are set back across midnight, a field of the date may not pass on the date that they are
set back to. The search goes on to the start of the next date then, which has begun before, and finds what
occurs in the part of it that was broken off.

- `Schedule.RewindsAt`: the search goes back to an occurrence before such a change.
- `Schedule.le_of_search`: unless it does, no pass ends before its candidate.
- `Schedule.search_of_rewindsAt`: where it does, the pass that begins at the change ends before it.
- `Schedule.goesForward_iff`: so all that is found comes in order and after its reference exactly if the
  search goes back nowhere.
-/
namespace Almanac

/-- A candidate is not moved on past the end of time. -/
theorem Zone.moveOn?_le_lastInstant {z : Zone} {t u : Int} {f : Field} {d : Nat}
    (h : z.moveOn? t f d = some u) : u ≤ Clock.lastInstant := by
  have hday (day : Int) (hu : z.startOfDay? day = some u) : u ≤ Clock.lastInstant := by
    obtain ⟨hle, rfl⟩ := Zone.startOfDay?_eq_some_iff.1 hu
    have := z.toInstant_bounds (Clock.midnight day)
    simp only [Zone.startOfDay, Clock.midnight, Clock.lastInstant] at *
    omega
  cases f with
  | hour =>
    obtain ⟨hle, rfl⟩ := Zone.moveOn?_hour_eq_some_iff.1 h
    have := (z.hourStart_bounds (t + 3600 * d)).2
    omega
  | minute =>
    obtain ⟨hle, rfl⟩ := Zone.moveOn?_minute_eq_some_iff.1 h
    have := (z.minuteStart_bounds (t + 60 * d)).2
    omega
  | second =>
    obtain ⟨hle, rfl⟩ := Zone.moveOn?_second_eq_some_iff.1 h
    omega
  | _ => exact hday _ h

namespace Schedule

variable {s : Schedule} {f : Field} {T t t' u c m : Int} {d : Nat}

/-- At `T` the clocks are set back to an earlier date, and the search goes on from there to a date that
has begun before `T`, and has an occurrence before `T`. -/
structure RewindsAt (s : Schedule) (T : Int) : Prop where
  back : s.zone.dayAt T < s.zone.dayAt (T - 1)
  inTime : T ≤ Clock.lastInstant
  occurrence : ∃ f d u, s.Refines T f d u ∧ ∃ m, u ≤ m ∧ m < T ∧ s.Occurs m

/-- However many occurrences are asked for after a reference, and however often the next one is pulled,
what comes out lies after the reference and comes in order. -/
def GoesForward (s : Schedule) : Prop := ∀ r n,
  (∀ xs, s.next n r = .ok xs → xs.Pairwise (· < ·) ∧ ∀ x ∈ xs, r.Precedes x) ∧
    ((Occurrences.after s r).delivered n).Pairwise (· < ·) ∧
    ∀ x ∈ (Occurrences.after s r).delivered n, r.Precedes x

/-! ## Fields of the date -/

theorem date_of_day (hday : s.zone.dayAt t' = s.zone.dayAt t) :
    Clock.date (s.zone.toLocal t') = Clock.date (s.zone.toLocal t) :=
  congrArg Date.ofDayNumber hday

theorem passesAt_of_day (hf : f.index < Field.hour.index) (hday : s.zone.dayAt t' = s.zone.dayAt t)
    (h : s.PassesAt f t) : s.PassesAt f t' := by
  rw [PassesAt, Field.ofLocal_of_dayNumber hf hday]
  exact h

theorem distance?_of_day (hf : f.index < Field.hour.index) (hday : s.zone.dayAt t' = s.zone.dayAt t) :
    s.distance? t' f = s.distance? t f := by
  have hvalues : f.values (s.context t') = f.values (s.context t) := by
    cases f with
    | dayOfMonth =>
      simp only [Field.values, Field.calendarValues, Option.bind_some, Moment.localTime, date_of_day hday]
    | hour => exact absurd hf (by decide)
    | minute => exact absurd hf (by decide)
    | _ => rfl
  have hhour : f ≠ .hour := by
    rintro rfl
    exact Nat.lt_irrefl _ hf
  simp only [distance?, Condition.distance?, Field.position?, hhour, false_and, if_false, hvalues,
    Field.ofLocal_of_dayNumber hf hday]

/-- A refinement of a field of the date is the same from every instant of the date. -/
theorem Refines.of_day (h : s.Refines t f d u) (hf : f.index < Field.hour.index)
    (hday : s.zone.dayAt t' = s.zone.dayAt t) : s.Refines t' f d u := by
  refine ⟨⟨fun g hg => passesAt_of_day (by omega) hday (h.coarser g hg), fun hp => h.fails ?_⟩, ?_, ?_⟩
  · exact passesAt_of_day hf hday.symm hp
  · rw [distance?_of_day hf hday, h.distance]
  · rw [← h.moved]
    cases f <;> first | exact absurd hf (by decide) | simp only [Zone.moveOn?, date_of_day hday, hday]

/-! ## Searches go back at such changes only -/

/-- A refinement goes back past an occurrence only at a change that the search goes back at. -/
theorem exists_rewindsAt (hs : s.zone.SpacedBy 172800) (hb : s.zone.SetBackAtMost 86400)
    (hr : s.Refines t f d u) (hend : t ≤ Clock.lastInstant) (hum : u ≤ m) (hmt : m < t) (ho : s.Occurs m) :
    ∃ T, s.RewindsAt T := by
  have hf : f.index < Field.hour.index := Nat.lt_of_not_le fun hle => by
    have := lt_of_refines_time hr hle
    omega
  obtain ⟨day, rfl, hday⟩ := startOfDay_of_refines_date hr hf
  obtain ⟨T, huT, hTt, hbefore, hafter⟩ := exists_crossing (p := fun v => day ≤ s.zone.dayAt v)
    (show s.zone.startOfDay day ≤ t by omega) (Zone.le_dayAt_startOfDay hs day) (by omega)
  have hback : s.zone.BackFrom T day := ⟨hs, hb, hbefore, by omega⟩
  -- from the change on to the candidate the clocks show one date
  have hdate (v : Int) (hTv : T ≤ v) (hvt : v ≤ t) : s.zone.dayAt v = day - 1 :=
    hback.dayAt_eq huT hday hTv hvt
  have hmT : m < T := Int.not_le.1 fun hTm => hr.fails <|
    passesAt_of_day hf ((hdate t hTt (Int.le_refl t)).trans (hdate m hTm (by omega)).symm) (ho f)
  refine ⟨T, by omega, by omega, f, d, _, hr.of_day hf ?_, m, hum, hmT, ho⟩
  rw [hdate T (Int.le_refl T) hTt, hdate t hTt (Int.le_refl t)]

/-- Where the search goes back nowhere, a pass does not end before its candidate. -/
theorem le_of_search (hs : s.zone.SpacedBy 172800) (hb : s.zone.SetBackAtMost 86400)
    (hno : ∀ T, ¬ s.RewindsAt T) (hend : c ≤ Clock.lastInstant) {limit : Nat}
    (h : s.search limit c = .ok (some m)) : c ≤ m := by
  have ho := occurs_of_search h
  refine Int.not_lt.1 fun hmc => ?_
  have hstep (t : Int) (f : Field) (d : Nat) (u : Int) (ht : m < t ∧ t ≤ Clock.lastInstant)
      (hr : s.Refines t f d u) : m < u ∧ u ≤ Clock.lastInstant := by
    refine ⟨Int.not_le.1 fun hum => ?_, Zone.moveOn?_le_lastInstant hr.moved⟩
    obtain ⟨T, hT⟩ := exists_rewindsAt hs hb hr ht.2 hum ht.1 ho
    exact hno T hT
  rcases searchFrom_ok hstep h ⟨hmc, hend⟩ with ⟨m', hm', ⟨hlt, -⟩, -⟩ | ⟨hm', -⟩
  · cases hm'
    exact Int.lt_irrefl _ hlt
  · cases hm'

theorem goesForward_of_le (h : ∀ c m, c ≤ Clock.lastInstant → s.search passLimit c = .ok (some m) → c ≤ m) :
    s.GoesForward := by
  intro r n
  constructor
  · intro xs hxs
    simp only [next, bind, Except.bind] at hxs
    cases hc : s.candidateAfter r with
    | error e => simp [hc] at hxs
    | ok c =>
      rw [hc] at hxs
      obtain ⟨hrc, hend⟩ := candidateAfter_eq_ok_iff.1 hc
      obtain ⟨hasc, hle⟩ := collect_ascends_of h (fun _ hm => hm) hend hxs
      refine ⟨hasc, fun x hx => Timestamp.precedes_iff.2 ?_⟩
      have := (hle x hx).1
      omega
  · obtain ⟨hasc, hle⟩ := Occurrences.delivered_ascends_of (o := Occurrences.after s r) (n := n)
      (b := r.second + 1) h (fun _ hm => hm) fun c hc => by
        have := candidateAfter_eq_ok_iff.1 (Option.some.inj hc)
        omega
    refine ⟨hasc, fun x hx => Timestamp.precedes_iff.2 ?_⟩
    have := (hle x hx).1
    omega

/-! ## They do go back there -/

/-- The pass that begins at such a change ends before it. -/
theorem search_of_rewindsAt (hs : s.zone.SpacedBy 172800) (hb : s.zone.SetBackAtMost 86400)
    (h : s.RewindsAt T) : ∃ m, s.search passLimit T = .ok (some m) ∧ m < T := by
  obtain ⟨hT, hend, f, d, u, hr, m, hum, hmT, ho⟩ := h
  have hf : f.index < Field.hour.index := Nat.lt_of_not_le fun hle => by
    have := lt_of_refines_time hr hle
    omega
  obtain ⟨day, rfl, hday⟩ := startOfDay_of_refines_date hr hf
  have hback := Zone.backFrom_of_startOfDay hs hb hT hday (show s.zone.startOfDay day < T by omega)
  obtain ⟨m', hm', hle⟩ : ∃ m', s.searchFrom passLimit (passLimit - 1) (s.zone.startOfDay day) = .ok (some m') ∧
      m' ≤ m := search_of_brokenOff (hback.brokenOff (by omega)) hend hum hmT ho (by decide)
  refine ⟨m', ?_, by omega⟩
  have hlooks : passLimit = passLimit - 1 + 1 := rfl
  rw [search, hlooks]
  simp only [searchFrom, hr.verdict_eq_refine hr.distance, moveOn, hr.moved, bind, Except.bind]
  exact hm'

/-- Where changes are two days apart and set the clocks back by a day at most, all that is found comes in
order and after its reference exactly if the search goes back nowhere. -/
theorem goesForward_iff (hs : s.zone.SpacedBy 172800) (hb : s.zone.SetBackAtMost 86400) :
    s.GoesForward ↔ ∀ T, ¬ s.RewindsAt T := by
  constructor
  · intro h T hT
    obtain ⟨m, hm, hmT⟩ := search_of_rewindsAt hs hb hT
    have hnext : s.next 1 ⟨T - 1, 0⟩ = .ok [m] := by
      have hc : s.candidateAfter ⟨T - 1, 0⟩ = .ok T := candidateAfter_eq_ok_iff.2 ⟨by simp, hT.inTime⟩
      have hc' : s.candidateAfter (.ofSecond m) = .ok (m + 1) :=
        candidateAfter_eq_ok_iff.2 ⟨rfl, by have := hT.inTime; omega⟩
      simp only [next, collect, hc, hm, hc', bind, Except.bind, pure, Except.pure]
    have := Timestamp.precedes_iff.1 (((h ⟨T - 1, 0⟩ 1).1 _ hnext).2 m List.mem_cons_self)
    simp only at this
    omega
  · exact fun hno => goesForward_of_le fun c m hend hm => le_of_search hs hb hno hend hm

/-! ## St. John's, where the clocks were set back from 00:01 to 23:01 of the date before -/

theorem spacedBy_stJohns : Zone.stJohns.SpacedBy 172800 :=
  Zone.spacedBy_of_isChain (by decide) (by decide +kernel)

theorem setBackAtMost_stJohns : Zone.stJohns.SetBackAtMost 86400 :=
  Zone.setBackAtMost_of_offsets (a := -12652) (b := -5400) (by decide) (by decide +kernel) (by decide +kernel)

/-- Every date passes, so the search goes back nowhere, though the clocks are set back across midnight. -/
theorem goesForward_iff_midnightAtStJohns :
    midnightAtStJohns.zone.SpacedBy 172800 ∧ midnightAtStJohns.zone.SetBackAtMost 86400 ∧
      midnightAtStJohns.zone.dayAt 625631460 < midnightAtStJohns.zone.dayAt (625631460 - 1) ∧
      midnightAtStJohns.GoesForward := by
  have hs : midnightAtStJohns.zone.SpacedBy 172800 := spacedBy_stJohns
  have hb : midnightAtStJohns.zone.SetBackAtMost 86400 := setBackAtMost_stJohns
  refine ⟨hs, hb, by decide +kernel, (goesForward_iff hs hb).2 fun T hT => ?_⟩
  obtain ⟨-, -, f, d, u, hr, m, hum, hmT, -⟩ := hT
  by_cases hf : f.index < Field.hour.index
  · have hany : midnightAtStJohns.alternatives f = .any f := by
      cases f <;> first | rfl | exact absurd hf (by decide)
    exact hr.fails (passes_iff.2 ⟨.wildcard, by rw [conditions, hany]; exact List.mem_cons_self, rfl⟩)
  · have := lt_of_refines_time hr (Nat.le_of_not_lt hf)
    omega

/-- Forty seconds after the clocks were set back the midnight of 29 October that has passed is found, and
pulls from the second before it give it out over and over. -/
theorem not_goesForward_october29AtStJohns :
    october29AtStJohns.zone.SpacedBy 172800 ∧ october29AtStJohns.zone.SetBackAtMost 86400 ∧
      october29AtStJohns.next 1 ⟨625631500, 0⟩ = .ok [625631400] ∧
      (Occurrences.after october29AtStJohns ⟨625631399, 0⟩).delivered 3 = [625631400, 625631400, 625631400] ∧
      ¬ october29AtStJohns.GoesForward := by
  have hnext : october29AtStJohns.next 1 ⟨625631500, 0⟩ = .ok [625631400] := by decide +kernel
  refine ⟨spacedBy_stJohns, setBackAtMost_stJohns, hnext, by decide +kernel, fun h => ?_⟩
  have := ((h ⟨625631500, 0⟩ 1).1 _ hnext).2 _ List.mem_cons_self
  exact absurd (Timestamp.precedes_iff.1 this) (by decide)

end Schedule
end Almanac
