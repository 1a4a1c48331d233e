import Almanac.Proofs.Batches
import Almanac.Proofs.EarlyYears
/-!
# Pulls and batches

Occurrences that are pulled one by one come from the same passes as a batch. The two differ only in when
they look for the candidate after an occurrence: a pull leaves that to the pull after it, a batch does it
at once, even after the last occurrence that it is asked for.

- `Occurrences.take_of_collect`, `Occurrences.take_of_collect_unsettled`: what pulls give out where a
  batch is found, and where a pass of it is not settled.
- `Occurrences.collect_of_take`: what the batch comes to where every pull gives out an occurrence.
- `Occurrences.take_after`: pulls after a reference agree with batches.
- `Occurrences.next_of_take`: a batch of what pulls give out fails where time ends with its last second.
-/
namespace Almanac

namespace Schedule

variable {s : Schedule} {r : Timestamp} {c m : Int} {n : Nat} {e : ScheduleError}

theorem candidateAfter_eq_ite (s : Schedule) (r : Timestamp) : s.candidateAfter r =
    if r.second < Clock.lastInstant then .ok (r.second + 1) else .error (.noSecondAfter s.zone r) := by
  simp only [candidateAfter, Clock.within?, Int.add_one_le_iff]
  split <;> rename_i h <;> split at h <;> simp_all

/-- A batch is the occurrence of its first pass and the batch from there. -/
theorem collect_succ_of_search (h : s.search passLimit c = .ok (some m)) (n : Nat) :
    s.collect (n + 1) c = do return m :: (← s.collect n (← s.candidateAfter (.ofSecond m))) := by
  simp only [collect, h, bind, Except.bind]

/-- Collecting fails with its first pass, after what that finds, or from there on. -/
theorem collect_succ_eq_error (h : s.collect (n + 1) c = .error e) :
    s.search passLimit c = .error e ∨ ∃ m, s.search passLimit c = .ok (some m) ∧
      (s.candidateAfter (.ofSecond m) = .error e ∨
        ∃ c', s.candidateAfter (.ofSecond m) = .ok c' ∧ s.collect n c' = .error e) := by
  cases ho : s.search passLimit c with
  | error e' =>
    simp only [collect, ho, bind, Except.bind, Except.error.injEq] at h
    exact .inl (by rw [h])
  | ok found =>
    cases found with
    | none => simp [collect, ho, bind, Except.bind, pure, Except.pure] at h
    | some m =>
      refine .inr ⟨m, rfl, ?_⟩
      rw [collect_succ_of_search ho] at h
      cases hm : s.candidateAfter (.ofSecond m) with
      | error e' => simpa [hm, bind, Except.bind] using h
      | ok c' =>
        refine .inr ⟨c', rfl, ?_⟩
        cases hy : s.collect n c' with
        | error e' => simpa [hm, hy, bind, Except.bind] using h
        | ok ys => simp [hm, hy, bind, Except.bind, pure, Except.pure] at h

end Schedule

namespace Occurrences

variable {s : Schedule} {o : Occurrences} {r : Timestamp} {c m : Int} {n : Nat} {xs : List Int}

/-! ## Single pulls -/

/-- Occurrences as pulls give them out. -/
def items (xs : List Int) : List (Option (Except ScheduleError Int)) := xs.map fun t => some (.ok t)

theorem take_succ (n : Nat) (o : Occurrences) : (take (n + 1) o).1 = o.pull.1 :: (take n o.pull.2).1 := rfl

/-- At the end of the sequence every pull gives nothing. -/
theorem take_of_ended (h : o.pending = none) (n : Nat) : (take n o).1 = List.replicate n none := by
  induction n with
  | zero => rfl
  | succ n ih =>
    have hpull : o.pull = (none, o) := by simp only [pull, h]
    rw [take_succ, hpull, ih, List.replicate_succ]

theorem pull_of_search (h : s.search Schedule.passLimit c = .ok (some m)) :
    pull ⟨s, some (.ok c)⟩ = (some (.ok m), ⟨s, some (s.candidateAfter (.ofSecond m))⟩) := by
  simp only [pull, h]

/-- A pull gives out an occurrence only from a pass that finds it. -/
theorem search_of_pull {t : Int} (h : (pull ⟨s, some (.ok c)⟩).1 = some (.ok t)) :
    s.search Schedule.passLimit c = .ok (some t) := by
  rcases pull_cases ⟨s, some (.ok c)⟩ with ⟨c', m, hp, hm, ho⟩ | ⟨hnone, -⟩
  · cases hp
    rw [ho] at h
    cases h
    exact hm
  · rw [h] at hnone
    cases hnone

/-! ## From batches to pulls -/

theorem take_of_collect (h : s.collect n c = .ok xs) :
    (take n ⟨s, some (.ok c)⟩).1 = items xs ++ List.replicate (n - xs.length) none := by
  induction n generalizing c xs with
  | zero =>
    cases h
    rfl
  | succ n ih =>
    rcases Schedule.collect_succ h with ⟨rfl, hnone⟩ | ⟨m, ys, hm, hend, hy, rfl⟩
    · have hpull : pull ⟨s, some (.ok c)⟩ = (none, ⟨s, none⟩) := by simp only [pull, hnone]
      rw [take_succ, hpull, take_of_ended rfl]
      rfl
    · have hnext : s.candidateAfter (.ofSecond m) = .ok (m + 1) :=
        Schedule.candidateAfter_eq_ok_iff.2 ⟨rfl, hend⟩
      rw [take_succ, pull_of_search hm, hnext, ih hy, List.length_cons, Nat.add_sub_add_right]
      rfl

/-- Where a pass of a batch is not settled, pulls give out what the passes before it found, and the error
at its place. -/
theorem take_of_collect_unsettled {limit : Nat} (h : s.collect n c = .error (.unsettled limit)) :
    ∃ k xs, k < n ∧ s.collect k c = .ok xs ∧ xs.length = k ∧ (take n ⟨s, some (.ok c)⟩).1 =
      items xs ++ some (.error (.unsettled limit)) :: List.replicate (n - k - 1) none := by
  induction n generalizing c with
  | zero => cases h
  | succ n ih =>
    rcases Schedule.collect_succ_eq_error h with he | ⟨m, hm, he | ⟨c', hc', he⟩⟩
    · have hpull : pull ⟨s, some (.ok c)⟩ = (some (.error (.unsettled limit)), ⟨s, none⟩) := by
        simp only [pull, he]
      refine ⟨0, [], Nat.succ_pos n, rfl, rfl, ?_⟩
      rw [take_succ, hpull, take_of_ended rfl]
      rfl
    -- the candidate after an occurrence fails with an error of its own
    · rw [Schedule.candidateAfter_eq_ite] at he
      split at he <;> cases he
    · obtain ⟨k, ys, hkn, hy, hlen, htake⟩ := ih he
      refine ⟨k + 1, m :: ys, Nat.succ_lt_succ hkn, ?_, congrArg (· + 1) hlen, ?_⟩
      · simp only [Schedule.collect_succ_of_search hm, hc', hy, bind, Except.bind, pure, Except.pure]
      · rw [take_succ, pull_of_search hm, hc', htake, Nat.add_sub_add_right]
        rfl

/-- Pulls after a reference give out the occurrences of the batch and nothing after them. Where the batch
has a pass that is not settled, they give out the occurrences of a smaller batch, then the error, and
nothing after it. Once a pull gives out no occurrence, no later pull gives anything. -/
theorem take_after (s : Schedule) (r : Timestamp) (n : Nat) :
    (∀ xs, s.next n r = .ok xs →
        ((after s r).take n).1 = items xs ++ List.replicate (n - xs.length) none) ∧
      (∀ limit, s.next n r = .error (.unsettled limit) →
        ∃ k xs, k < n ∧ s.next k r = .ok xs ∧ xs.length = k ∧ ((after s r).take n).1 =
          items xs ++ some (.error (.unsettled limit)) :: List.replicate (n - k - 1) none) ∧
      ((∀ t, ((after s r).take n).2.pull.1 ≠ some (.ok t)) →
        ∀ m, (((after s r).take n).2.pull.2.take m).1 = List.replicate m none) := by
  refine ⟨fun xs h => ?_, fun limit h => ?_, fun h m => ?_⟩
  · cases hc : s.candidateAfter r with
    | error e => simp [Schedule.next, hc, bind, Except.bind] at h
    | ok c =>
      simp only [Schedule.next, hc, bind, Except.bind] at h
      rw [after, hc]
      exact take_of_collect h
  · cases hc : s.candidateAfter r with
    | error e =>
      simp only [Schedule.next, hc, bind, Except.bind, Except.error.injEq] at h
      rw [Schedule.candidateAfter_eq_ite] at hc
      split at hc <;> cases hc
      cases h
    | ok c =>
      simp only [Schedule.next, hc, bind, Except.bind] at h ⊢
      rw [after, hc]
      exact take_of_collect_unsettled h
  · rcases pull_cases ((after s r).take n).2 with ⟨-, t, -, -, ho⟩ | ⟨-, -, hend⟩
    · exact absurd (by rw [ho]) (h t)
    · exact take_of_ended hend m

/-- Midnight of New Year 2024 is given out once. -/
theorem take_after_newYear2024 :
    Schedule.newYear2024.next 3 ⟨1672531200, 5⟩ = .ok [1704067200] ∧
      ((after Schedule.newYear2024 ⟨1672531200, 5⟩).take 3).1 = [some (.ok 1704067200), none, none] := by
  have hnext : Schedule.newYear2024.next 3 ⟨1672531200, 5⟩ = .ok [1704067200] := by decide +kernel
  exact ⟨hnext, (take_after Schedule.newYear2024 _ 3).1 _ hnext⟩

/-! ## From pulls to batches -/

/-- A batch of occurrences that pulls give out is these occurrences, if there is a candidate to go on
from after the last. -/
theorem collect_of_take (h : (take n ⟨s, some (.ok c)⟩).1 = items xs) :
    s.collect n c = do let _ ← s.resume c xs; return xs := by
  induction n generalizing c xs with
  | zero =>
    cases xs with
    | nil => rfl
    | cons t ts => cases h
  | succ n ih =>
    cases xs with
    | nil => cases h
    | cons t ts =>
      rw [take_succ] at h
      obtain ⟨hpull, hrest⟩ := List.cons.inj h
      have ht := search_of_pull hpull
      rw [pull_of_search ht] at hrest
      rw [Schedule.collect_succ_of_search ht]
      cases hc : s.candidateAfter (.ofSecond t) with
      | ok c' =>
        rw [hc] at hrest
        rw [Schedule.resume_cons hc]
        simp only [ih hrest, bind, Except.bind, pure, Except.pure]
        cases s.resume c' ts <;> rfl
      | error e =>
        -- the next pull would give out the error
        rw [hc] at hrest
        have hts : ts = [] := by
          cases n with
          | zero => exact (List.map_eq_nil_iff.1 hrest.symm)
          | succ n => cases ts <;> cases hrest
        subst hts
        simp only [Schedule.resume, List.getLast?_singleton, hc, bind, Except.bind]

/-- What a batch goes on after: its last occurrence, or the reference if it has none. -/
def lastOf (r : Timestamp) (xs : List Int) : Timestamp := xs.getLast?.elim r .ofSecond

/-- A batch after a reference needs the candidate after its last occurrence as well. -/
theorem next_eq_of_take (h : ((after s r).take n).1 = items xs) :
    s.next n r = do let _ ← s.candidateAfter (lastOf r xs); return xs := by
  cases hc : s.candidateAfter r with
  | ok c =>
    rw [after, hc] at h
    have hresume : s.resume c xs = s.candidateAfter (lastOf r xs) := by
      unfold Schedule.resume lastOf
      cases xs.getLast? with
      | none => exact hc.symm
      | some last => rfl
    simp only [Schedule.next, hc, bind, Except.bind, collect_of_take h, hresume]
  | error e =>
    -- the first pull would give out the error
    have hxs : xs = [] := by
      rw [after, hc] at h
      cases n with
      | zero => exact List.map_eq_nil_iff.1 h.symm
      | succ n => cases xs <;> cases h
    subst hxs
    simp only [Schedule.next, hc, bind, Except.bind, lastOf, List.getLast?_nil, Option.elim_none]

/-- Where every pull gives out an occurrence, the batch is these occurrences unless time ends with the
second of the last of them. -/
theorem next_of_take (s : Schedule) (r : Timestamp) :
    (∀ n xs, ((after s r).take n).1 = items xs → s.next n r =
        if (lastOf r xs).second < Clock.lastInstant then .ok xs
        else .error (.noSecondAfter s.zone (lastOf r xs))) ∧
      ∀ t, (after s r).pull.1 = some (.ok t) → s.next? r =
        if t < Clock.lastInstant then .ok (some t) else .error (.noSecondAfter s.zone (.ofSecond t)) := by
  refine ⟨fun n xs h => ?_, fun t h => ?_⟩
  · rw [next_eq_of_take h, Schedule.candidateAfter_eq_ite]
    split <;> rfl
  · have htake : ((after s r).take 1).1 = items [t] := by
      rw [take_succ, h]
      rfl
    rw [Schedule.next?, next_eq_of_take htake, Schedule.candidateAfter_eq_ite]
    by_cases ht : t < Clock.lastInstant
    · rw [if_pos ht, if_pos (by exact ht)]
      rfl
    · rw [if_neg ht, if_neg (by exact ht)]
      rfl

/-- The second before the last one is found. -/
theorem next_of_take_everySecond :
    ((after Schedule.everySecond ⟨8210266876797, 0⟩).take 1).1 = items [8210266876798] ∧
      Schedule.everySecond.next 1 ⟨8210266876797, 0⟩ = .ok [8210266876798] ∧
      Schedule.everySecond.next? ⟨8210266876797, 0⟩ = .ok (some 8210266876798) := by
  have htake : ((after Schedule.everySecond ⟨8210266876797, 0⟩).take 1).1 = items [8210266876798] := by decide +kernel
  refine ⟨htake, ?_, ?_⟩
  · exact (next_of_take Schedule.everySecond _).1 _ _ htake
  · exact (next_of_take Schedule.everySecond ⟨8210266876797, 0⟩).2 8210266876798 (List.cons.inj htake).1

/-- A pull gives out the last second; a batch of one occurrence fails for want of a second after it. -/
theorem not_next_of_take_everySecond :
    ((after Schedule.everySecond ⟨8210266876798, 0⟩).take 1).1 = items [8210266876799] ∧
      Schedule.everySecond.next 1 ⟨8210266876798, 0⟩ =
        .error (.noSecondAfter .utc (.ofSecond 8210266876799)) ∧
      Schedule.everySecond.next? ⟨8210266876798, 0⟩ =
        .error (.noSecondAfter .utc (.ofSecond 8210266876799)) := by
  decide +kernel

end Occurrences
end Almanac
