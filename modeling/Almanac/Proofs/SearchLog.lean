import Almanac.Proofs.ConditionText
import Almanac.Proofs.Progress
import Almanac.Refinement
import Almanac.Schedule.Samples
/-!
# What the log of a search tells

A search that keeps a log makes the passes of one that keeps none. The log of a pass tells its candidates one after
the other, each with the field that failed at the candidate before it; the logs of all passes stand one after the
other in the log of the search. A pass whose first candidate occurs leaves no trace in it, but the occurrences tell
where the next one began.

- `Schedule.map_fst_nextLogged`: without its log it is the same search.
- `Schedule.StepFrom`, `Schedule.PassLog`, `Schedule.RunLog`: what a step, a pass and a whole search tell.
- `Schedule.passLog_of_searchLoggedFrom`, `Schedule.exists_runLog`: what they tell is what was done.
- `Schedule.nextLogged_spec`: both together, for a search after a reference.
-/
namespace Almanac.Schedule

variable {s : Schedule} {t u m before : Int} {f : Field} {d n first count : Nat} {result : Option Int}
  {found : List Int} {step : Refinement} {steps : List Refinement}

/-! ## The same search -/

theorem map_fst_searchLoggedFrom (s : Schedule) (limit left first : Nat) (t : Int) :
    (s.searchLoggedFrom limit left first t).map Prod.fst = s.searchFrom limit left t := by
  induction left generalizing first t with
  | zero => rfl
  | succ left ih =>
    unfold searchLoggedFrom searchFrom
    cases s.verdict t with
    | occurrence => rfl
    | impossible f => rfl
    | refine f d =>
      simp only [bind, Except.bind]
      cases s.moveOn t f d with
      | error e => rfl
      | ok u =>
        simp only [← ih (first + 1) u]
        cases s.searchLoggedFrom limit left (first + 1) u <;> rfl

theorem map_fst_collectLogged (s : Schedule) (n : Nat) (t : Int) :
    (s.collectLogged n t).map Prod.fst = s.collect n t := by
  induction n generalizing t with
  | zero => rfl
  | succ n ih =>
    unfold collectLogged collect search
    simp only [bind, Except.bind, ← map_fst_searchLoggedFrom s passLimit passLimit 1 t]
    match s.searchLoggedFrom passLimit passLimit 1 t with
    | .error e => rfl
    | .ok (none, steps) => rfl
    | .ok (some m, steps) =>
      simp only [Except.map]
      cases s.candidateAfter (.ofSecond m) with
      | error e => rfl
      | ok u =>
        simp only [← ih u]
        cases s.collectLogged n u <;> rfl

theorem map_fst_nextLogged (s : Schedule) (count : Nat) (r : Timestamp) :
    (s.nextLogged count r).map Prod.fst = s.next count r := by
  unfold nextLogged next
  cases s.candidateAfter r with
  | error e => rfl
  | ok t => exact map_fst_collectLogged s count t

/-! ## What a log tells -/

/-- The step tells how a pass went on from the candidate `t`. -/
structure StepFrom (s : Schedule) (t : Int) (step : Refinement) : Prop where
  zone : step.candidate.zone = s.zone
  field : s.FirstFailing t step.field
  distance : step.distance = s.distance? t step.field
  moved : ∀ d, step.distance = some d → s.zone.moveOn? t step.field d = some step.candidate.instant
  stayed : step.distance = none → step.candidate.instant = t

/-- The candidates of a pass; no step led to the first of them. -/
def candidates (start : Int) (steps : List Refinement) : List Int := start :: steps.map (·.candidate.instant)

/-- The steps, which count from `first`, tell how a pass from `start` came to its result. -/
structure PassLog (s : Schedule) (first : Nat) (start : Int) (steps : List Refinement) (result : Option Int) :
    Prop where
  numbered : steps.map (·.iteration) = List.range' first steps.length
  stepFrom : ∀ (i : Nat) step, steps[i]? = some step → ∃ t, (candidates start steps)[i]? = some t ∧ s.StepFrom t step
  /-- An occurrence is the last candidate. -/
  found : ∀ m, result = some m → (candidates start steps).getLast? = some m ∧ s.Occurs m
  /-- If nothing is found, the last step tells so. -/
  ended : result = none → steps ≠ []
  distance_eq_none_iff : ∀ (i : Nat) step, steps[i]? = some step →
    (step.distance = none ↔ result = none ∧ i + 1 = steps.length)

/-- Each of the passes tells how the search went on after `before`, or after the occurrence that the pass before it
found. -/
structure RunLog (s : Schedule) (count : Nat) (before : Int) (found : List Int) (passes : List (List Refinement)) :
    Prop where
  length_eq : passes.length = if found.length < count then found.length + 1 else found.length
  passLog : ∀ (i : Nat) pass, passes[i]? = some pass →
    ∃ after, (before :: found)[i]? = some after ∧ s.PassLog 1 (after + 1) pass found[i]?
  /-- Only the last step of all can be without a distance. -/
  distance_ne_none : ∀ step ∈ passes.flatten.dropLast, step.distance ≠ none
  exists_distance_eq_none_iff : (∃ step ∈ passes.flatten, step.distance = none) ↔ found.length < count

/-! ## One pass -/

namespace PassLog

theorem occurrence (h : s.Occurs t) : s.PassLog first t [] (some t) where
  numbered := rfl
  stepFrom i step hi := by cases hi
  found m hm := by
    cases hm
    exact ⟨rfl, h⟩
  ended h := by cases h
  distance_eq_none_iff i step hi := by cases hi

theorem impossible (h : s.FirstFailing t f) (hd : s.distance? t f = none) :
    s.PassLog first t [⟨first, ⟨s.zone, t⟩, f, none⟩] none where
  numbered := rfl
  stepFrom i step hi := by
    cases i with
    | zero =>
      cases hi
      exact ⟨t, rfl, rfl, h, hd.symm, fun d hd => (by cases hd), fun _ => rfl⟩
    | succ i => simp at hi
  found m hm := by cases hm
  ended _ := List.cons_ne_nil _ _
  distance_eq_none_iff i step hi := by
    cases i with
    | zero =>
      cases hi
      exact iff_of_true rfl ⟨rfl, rfl⟩
    | succ i => simp at hi

/-- A refinement comes before the steps of the pass from where it leads. -/
theorem refine (h : s.Refines t f d u) (hrest : s.PassLog (first + 1) u steps result) :
    s.PassLog first t (⟨first, ⟨s.zone, u⟩, f, some d⟩ :: steps) result where
  numbered := by rw [List.map_cons, hrest.numbered]; rfl
  stepFrom i step hi := by
    cases i with
    | zero =>
      cases hi
      refine ⟨t, rfl, rfl, h.toFirstFailing, h.distance.symm, fun d' hd' => ?_, fun hd' => by cases hd'⟩
      cases hd'
      exact h.moved
    | succ i => exact hrest.stepFrom i step hi
  found m hm := by
    obtain ⟨hlast, ho⟩ := hrest.found m hm
    exact ⟨hlast, ho⟩
  ended _ := List.cons_ne_nil _ _
  distance_eq_none_iff i step hi := by
    cases i with
    | zero =>
      cases hi
      refine ⟨fun hd => (by cases hd), fun ⟨hnone, hlen⟩ => ?_⟩
      exact absurd (List.length_eq_zero_iff.1 (by simpa using hlen.symm)) (hrest.ended hnone)
    | succ i =>
      rw [hrest.distance_eq_none_iff i step hi, List.length_cons, Nat.add_right_cancel_iff]

theorem distance_ne_none (h : s.PassLog first t steps (some m)) (hstep : step ∈ steps) : step.distance ≠ none :=
  fun hd => by
    obtain ⟨i, hi⟩ := List.mem_iff_getElem?.1 hstep
    have := ((h.distance_eq_none_iff i step hi).1 hd).1
    cases this

theorem distance_ne_none_of_mem_dropLast (h : s.PassLog first t steps result) (hstep : step ∈ steps.dropLast) :
    step.distance ≠ none := fun hd => by
  obtain ⟨i, hi⟩ := List.mem_iff_getElem?.1 hstep
  obtain ⟨hlt, -⟩ := List.getElem?_eq_some_iff.1 hi
  rw [List.length_dropLast] at hlt
  rw [List.getElem?_dropLast, if_pos hlt] at hi
  have := ((h.distance_eq_none_iff i step hi).1 hd).2
  omega

theorem exists_distance_eq_none (h : s.PassLog first t steps none) : ∃ step ∈ steps, step.distance = none := by
  have hne := h.ended rfl
  have hpos := List.length_pos_iff.2 hne
  have hlast := List.getLast?_eq_some_getLast hne
  rw [List.getLast?_eq_getElem?] at hlast
  exact ⟨_, List.getLast_mem hne, (h.distance_eq_none_iff _ _ hlast).2 ⟨rfl, by omega⟩⟩

end PassLog

/-- A pass with its log comes from the candidate itself, from a field that has no later value, or from the
candidate after a refinement. -/
theorem searchLoggedFrom_succ {limit left : Nat}
    (h : s.searchLoggedFrom limit (left + 1) first t = .ok (result, steps)) :
    (result = some t ∧ steps = [] ∧ s.Occurs t) ∨
      (∃ f, result = none ∧ steps = [⟨first, ⟨s.zone, t⟩, f, none⟩] ∧ s.FirstFailing t f ∧ s.distance? t f = none) ∨
      ∃ f d u rest, s.Refines t f d u ∧ s.searchLoggedFrom limit left (first + 1) u = .ok (result, rest) ∧
        steps = ⟨first, ⟨s.zone, u⟩, f, some d⟩ :: rest := by
  by_cases ho : s.Occurs t
  · simp only [searchLoggedFrom, verdict_of_occurs ho, Except.ok.injEq, Prod.mk.injEq] at h
    exact .inl ⟨h.1.symm, h.2.symm, ho⟩
  obtain ⟨f, hf⟩ := exists_firstFailing ho
  cases hd : s.distance? t f with
  | none =>
    simp only [searchLoggedFrom, hf.verdict_eq_impossible hd, Except.ok.injEq, Prod.mk.injEq] at h
    exact .inr (.inl ⟨f, h.1.symm, h.2.symm, hf, hd⟩)
  | some d =>
    simp only [searchLoggedFrom, hf.verdict_eq_refine hd, moveOn] at h
    cases hu : s.zone.moveOn? t f d with
    | none => simp [hu, bind, Except.bind] at h
    | some u =>
      simp only [hu, bind, Except.bind] at h
      cases hr : s.searchLoggedFrom limit left (first + 1) u with
      | error e => simp [hr] at h
      | ok pair =>
        obtain ⟨result', rest⟩ := pair
        simp only [hr, pure, Except.pure, Except.ok.injEq, Prod.mk.injEq] at h
        obtain ⟨rfl, rfl⟩ := h
        exact .inr (.inr ⟨f, d, u, rest, ⟨hf, hd, hu⟩, hr, rfl⟩)

theorem passLog_of_searchLoggedFrom {limit left : Nat}
    (h : s.searchLoggedFrom limit left first t = .ok (result, steps)) : s.PassLog first t steps result := by
  induction left generalizing first t steps with
  | zero => cases h
  | succ left ih =>
    rcases searchLoggedFrom_succ h with ⟨rfl, rfl, ho⟩ | ⟨f, rfl, rfl, hf, hd⟩ | ⟨f, d, u, rest, hr, h', rfl⟩
    · exact .occurrence ho
    · exact .impossible hf hd
    · exact .refine hr (ih h')

/-! ## Many passes -/

namespace RunLog

variable {pass : List Refinement} {passes : List (List Refinement)}

theorem nil (s : Schedule) (before : Int) : s.RunLog 0 before [] [] where
  length_eq := rfl
  passLog i pass hi := by cases hi
  distance_ne_none step hstep := by cases hstep
  exists_distance_eq_none_iff := by simp

/-- A search ends with a pass that finds nothing. -/
theorem single (h : s.PassLog 1 (before + 1) pass none) (count : Nat) : s.RunLog (count + 1) before [] [pass] where
  length_eq := by simp
  passLog i pass' hi := by
    cases i with
    | zero =>
      cases hi
      exact ⟨before, rfl, h⟩
    | succ i => simp at hi
  distance_ne_none step hstep := by
    rw [List.flatten_singleton] at hstep
    exact h.distance_ne_none_of_mem_dropLast hstep
  exists_distance_eq_none_iff := by
    rw [List.flatten_singleton]
    exact iff_of_true h.exists_distance_eq_none (Nat.succ_pos count)

/-- A pass that finds an occurrence comes before those of the search after it. -/
theorem cons (h : s.PassLog 1 (before + 1) pass (some m)) (hrest : s.RunLog count m found passes) :
    s.RunLog (count + 1) before (m :: found) (pass :: passes) where
  length_eq := by
    simp only [List.length_cons, hrest.length_eq, Nat.add_lt_add_iff_right]
    split <;> rfl
  passLog i pass' hi := by
    cases i with
    | zero =>
      cases hi
      exact ⟨before, rfl, h⟩
    | succ i => exact hrest.passLog i pass' hi
  distance_ne_none step hstep := by
    rw [List.flatten_cons, List.dropLast_append] at hstep
    split at hstep
    · exact h.distance_ne_none (List.dropLast_subset _ hstep)
    · rcases List.mem_append.1 hstep with hstep | hstep
      · exact h.distance_ne_none hstep
      · exact hrest.distance_ne_none step hstep
  exists_distance_eq_none_iff := by
    rw [List.length_cons, Nat.add_lt_add_iff_right, ← hrest.exists_distance_eq_none_iff, List.flatten_cons]
    constructor
    · rintro ⟨step, hstep, hd⟩
      rcases List.mem_append.1 hstep with hstep | hstep
      · exact absurd hd (h.distance_ne_none hstep)
      · exact ⟨step, hstep, hd⟩
    · rintro ⟨step, hstep, hd⟩
      exact ⟨step, List.mem_append_right _ hstep, hd⟩

end RunLog

/-- Collecting with a log ends with a pass that finds nothing, or goes on after what the pass finds. -/
theorem collectLogged_succ (h : s.collectLogged (n + 1) t = .ok (found, steps)) :
    (found = [] ∧ s.searchLoggedFrom passLimit passLimit 1 t = .ok (none, steps)) ∨
      ∃ m pass found' rest, s.searchLoggedFrom passLimit passLimit 1 t = .ok (some m, pass) ∧
        s.collectLogged n (m + 1) = .ok (found', rest) ∧ found = m :: found' ∧ steps = pass ++ rest := by
  obtain ⟨⟨result, pass⟩, hpass, h⟩ := ok_of_bind h
  cases result with
  | none =>
    cases h
    exact .inl ⟨rfl, hpass⟩
  | some m =>
    obtain ⟨t', ht', h⟩ := ok_of_bind h
    obtain ⟨rfl, -⟩ : t' = m + 1 ∧ _ := candidateAfter_eq_ok_iff.1 ht'
    obtain ⟨⟨found', rest⟩, hrest, h⟩ := ok_of_bind h
    cases h
    exact .inr ⟨m, pass, found', rest, hpass, hrest, rfl, rfl⟩

theorem exists_runLog (h : s.collectLogged count (before + 1) = .ok (found, steps)) :
    ∃ passes, passes.flatten = steps ∧ s.RunLog count before found passes := by
  induction count generalizing before found steps with
  | zero =>
    cases h
    exact ⟨[], rfl, .nil s before⟩
  | succ count ih =>
    rcases collectLogged_succ h with ⟨rfl, hpass⟩ | ⟨m, pass, found', rest, hpass, hrest, rfl, rfl⟩
    · exact ⟨[steps], List.flatten_singleton, .single (passLog_of_searchLoggedFrom hpass) count⟩
    · obtain ⟨passes, rfl, hrun⟩ := ih hrest
      exact ⟨pass :: passes, List.flatten_cons, .cons (passLog_of_searchLoggedFrom hpass) hrun⟩

/-- A search that keeps a log finds what the search without it finds, or fails as it does. The log falls into one
block of steps for each pass, that is for each occurrence, and one more if fewer were found than asked for. Each
block tells its pass from the second after the reference, or after the occurrence before, to its result. Only the
last step of the log can be without a distance, and it is exactly if fewer occurrences were found than asked for. -/
theorem nextLogged_spec (s : Schedule) (count : Nat) (r : Timestamp) :
    s.next count r = (s.nextLogged count r).map Prod.fst ∧
      ∀ found steps, s.nextLogged count r = .ok (found, steps) →
        ∃ passes, passes.flatten = steps ∧ s.RunLog count r.second found passes := by
  refine ⟨(map_fst_nextLogged s count r).symm, fun found steps h => ?_⟩
  obtain ⟨t, ht, h⟩ := ok_of_bind h
  obtain ⟨rfl, -⟩ : t = r.second + 1 ∧ _ := candidateAfter_eq_ok_iff.1 ht
  exact exists_runLog h

/-- Midnight of New Year 2024 is the first candidate after the second before it, so no step leads to it. The steps of
the log belong to the pass that looks for a later one and ends in the last year that can be asked for. -/
theorem nextLogged_spec_newYear2024 :
    ∃ steps, newYear2024.nextLogged 2 ⟨1704067199, 5⟩ = .ok ([1704067200], steps) ∧
      steps.map (fun step => (step.iteration, step.distance)) =
        [(1, some 59), (2, some 59), (3, some 23), (4, some 30), (5, some 11), (6, some 176), (7, none)] ∧
      ∃ passes, passes.flatten = steps ∧ newYear2024.RunLog 2 1704067199 [1704067200] passes := by
  have hlog : (newYear2024.nextLogged 2 ⟨1704067199, 5⟩).toOption.map
      (fun p => (p.1, p.2.map fun step => (step.iteration, step.distance))) = some ([1704067200],
        [(1, some 59), (2, some 59), (3, some 23), (4, some 30), (5, some 11), (6, some 176), (7, none)]) := by
    decide +kernel
  obtain ⟨⟨found, steps⟩, h, hlog⟩ := exists_ok_of_map hlog
  obtain ⟨rfl, hsteps⟩ := Prod.mk.inj hlog
  exact ⟨steps, h, hsteps, (nextLogged_spec newYear2024 2 _).2 _ _ h⟩

end Almanac.Schedule
