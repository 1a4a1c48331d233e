import Almanac.Proofs.Progress
/-!
# Searching in batches

A search for many occurrences may be cut anywhere: what comes after the cut is what a search after
the last occurrence before it gives. A batch that comes out short, or fails, is the whole answer.

- `Schedule.collect_add`: a batch is cut in two.
- `Schedule.next_add`: so is a search after a reference, whatever its first part comes to.
-/
namespace Almanac.Schedule

variable {s : Schedule} {c : Int} {n : Nat} {xs : List Int}

/-- The candidate from which to go on after occurrences that were found from `c` on. -/
def resume (s : Schedule) (c : Int) (xs : List Int) : Except ScheduleError Int :=
  match xs.getLast? with
  | none => .ok c
  | some last => s.candidateAfter (.ofSecond last)

/-- After the occurrence `m` it makes no difference whether `m` belongs to the batch. -/
theorem resume_cons {m c' : Int} (h : s.candidateAfter (.ofSecond m) = .ok c') :
    s.resume c (m :: xs) = s.resume c' xs := by
  cases xs with
  | nil => exact h
  | cons x xs => rfl

theorem collect_add (s : Schedule) (n m : Nat) (c : Int) : s.collect (n + m) c = do
    let xs ← s.collect n c
    if xs.length < n then return xs
    return xs ++ (← s.collect m (← s.resume c xs)) := by
  induction n generalizing c with
  | zero =>
    simp only [Nat.zero_add, collect, resume, bind, Except.bind, pure, Except.pure, List.getLast?_nil]
    cases s.collect m c <;> rfl
  | succ n ih =>
    rw [Nat.add_right_comm]
    simp only [collect, bind, Except.bind, pure, Except.pure] at ih ⊢
    cases s.search passLimit c with
    | error e => rfl
    | ok found =>
      cases found with
      | none => rfl
      | some x =>
        cases hx : s.candidateAfter (.ofSecond x) with
        | error e => simp only [hx]
        | ok c' =>
          simp only [hx, ih c']
          cases s.collect n c' with
          | error e => rfl
          | ok ys =>
            simp only [resume_cons hx, List.length_cons, Nat.add_lt_add_iff_right]
            by_cases hy : ys.length < n
            · simp only [if_pos hy]
            · simp only [if_neg hy]
              cases s.resume c' ys with
              | error e => rfl
              | ok c'' => cases hm : s.collect m c'' <;> simp [hm]

theorem length_collect_le (h : s.collect n c = .ok xs) : xs.length ≤ n := by
  induction n generalizing c xs with
  | zero =>
    cases h
    exact Nat.le_refl _
  | succ n ih =>
    rcases collect_succ h with ⟨rfl, -⟩ | ⟨m, ys, -, -, hy, rfl⟩
    · exact Nat.zero_le _
    · exact Nat.succ_le_succ (ih hy)

/-- A search for `n` occurrences and `m` more is the search for `n` when that fails or comes out short,
and else its occurrences followed by the search for `m` after the last of them. -/
theorem next_add (s : Schedule) (r : Timestamp) {n : Nat} (hn : 1 ≤ n) (m : Nat) :
    (∀ e, s.next n r = .error e → s.next (n + m) r = .error e) ∧
      (∀ xs, s.next n r = .ok xs → xs.length < n → s.next (n + m) r = .ok xs) ∧
      ∀ xs, s.next n r = .ok xs → n ≤ xs.length → xs.length = n ∧ ∃ last, xs.getLast? = some last ∧
        s.next (n + m) r = (s.next m (.ofSecond last)).map (xs ++ ·) := by
  simp only [next, bind, Except.bind]
  cases hc : s.candidateAfter r with
  | error e => simp
  | ok c =>
    simp only [collect_add, bind, Except.bind]
    refine ⟨fun e he => by simp only [he], fun xs hxs hlt => ?_, fun xs hxs hle => ?_⟩
    · simp only [hxs, if_pos hlt, pure, Except.pure]
    · have hlen := Nat.le_antisymm (length_collect_le hxs) hle
      obtain ⟨last, hlast⟩ : ∃ last, xs.getLast? = some last := by
        exact ⟨_, List.getLast?_eq_some_getLast (List.ne_nil_of_length_pos (by omega))⟩
      refine ⟨hlen, last, hlast, ?_⟩
      simp only [hxs, if_neg (Nat.not_lt.2 hle), resume, hlast, pure, Except.pure]
      cases s.candidateAfter (.ofSecond last) with
      | error e => rfl
      | ok c' => cases hm : s.collect m c' <;> simp [hm, Except.map]

/-- Two of the three times half past two of 3 to 5 March 1990, and the third. -/
theorem next_add_halfPastTwo :
    1 ≤ 2 ∧ halfPastTwo.next 2 ⟨636391800, 7⟩ = .ok [636478200, 636481800] ∧
      ([636478200, 636481800] : List Int).length = 2 ∧ ∃ last : Int,
        [636478200, 636481800].getLast? = some last ∧ halfPastTwo.next (2 + 1) ⟨636391800, 7⟩ =
          (halfPastTwo.next 1 (.ofSecond last)).map ([636478200, 636481800] ++ ·) := by
  have hnext : halfPastTwo.next 2 ⟨636391800, 7⟩ = .ok [636478200, 636481800] := by decide +kernel
  exact ⟨by decide, hnext, (next_add halfPastTwo _ (by decide) 1).2.2 _ hnext (by decide)⟩

end Almanac.Schedule
