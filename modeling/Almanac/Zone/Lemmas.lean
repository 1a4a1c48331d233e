import Almanac.Zone
/-!
# What a local time stands for

- `Zone.toInstant?_eq_some_iff`: the instant found is the earliest that shows the local time.
- `Zone.toInstant?_eq_none_iff`: none is found exactly in a gap.
- `Zone.isRepeat_iff`: an instant is a repeat when an earlier one shows the same local time.
-/
namespace Almanac.Zone

/-- `t` does not lie before the bound, if there is one. -/
def NotBefore (bound : Option Int) (t : Int) : Prop := ∀ b, bound = some b → b ≤ t

/-- The walk over the stretches that begin at `bound` finds the earliest instant of them that shows
`l`. -/
theorem earliestShowing_spec (start : Offset) (begun : Bool) {ts : List Transition} (l : Int)
    (bound : Option Int) (hts : Chronological ts) (hbound : ∀ c ∈ ts, NotBefore bound c.instant)
    (hbegun : begun = true ↔ NotBefore bound (l - start.seconds)) :
    match earliestShowing start begun ts l with
    | some t => NotBefore bound t ∧ t + (offsetAfter start ts t).seconds = l ∧
        ∀ u, NotBefore bound u → u + (offsetAfter start ts u).seconds = l → t ≤ u
    | none => ∀ u, NotBefore bound u → u + (offsetAfter start ts u).seconds ≠ l := by
  induction ts generalizing start begun bound with
  | nil =>
    simp only [earliestShowing, offsetAfter]
    by_cases hb : begun = true
    · rw [if_pos hb]
      exact ⟨hbegun.1 hb, by omega, fun u _ h => by omega⟩
    · rw [if_neg hb]
      intro u hu h
      exact hb (hbegun.2 (show u = l - start.seconds by omega ▸ hu))
  | cons c cs ih =>
    obtain ⟨hc, hcs⟩ := List.pairwise_cons.1 hts
    unfold earliestShowing
    by_cases hb : begun = true ∧ l - start.seconds < c.instant
    · rw [if_pos hb]
      refine ⟨hbegun.1 hb.1, ?_, fun u _ h => ?_⟩
      · rw [offsetAfter, if_neg (by omega)]; omega
      · rw [offsetAfter] at h
        split at h <;> omega
    · rw [if_neg hb]
      have key := ih c.offset (decide (c.instant ≤ l - c.offset.seconds)) (some c.instant) hcs
        (fun d hd b h => by cases h; exact hc d hd) (by simp [NotBefore])
      have hfrom (u : Int) (h : c.instant ≤ u) :
          offsetAfter start (c :: cs) u = offsetAfter c.offset cs u := by rw [offsetAfter, if_pos h]
      have hlate (u : Int) (hu : NotBefore bound u)
          (h : u + (offsetAfter start (c :: cs) u).seconds = l) : c.instant ≤ u := by
        by_cases hcu : c.instant ≤ u
        · exact hcu
        · rw [offsetAfter, if_neg hcu] at h
          have hul : u = l - start.seconds := by omega
          exact absurd ⟨hbegun.2 (hul ▸ hu), by omega⟩ hb
      have hsome (u : Int) : NotBefore (some c.instant) u ↔ c.instant ≤ u := by simp [NotBefore]
      cases hres : earliestShowing c.offset (decide (c.instant ≤ l - c.offset.seconds)) cs l with
      | none =>
        rw [hres] at key
        intro u hu h
        have hcu := hlate u hu h
        exact key u ((hsome u).2 hcu) (hfrom u hcu ▸ h)
      | some t =>
        rw [hres] at key
        obtain ⟨ht, hlt, hleast⟩ := key
        have hct := (hsome t).1 ht
        refine ⟨fun b h => Int.le_trans (hbound c List.mem_cons_self b h) hct,
          (hfrom t hct).symm ▸ hlt, fun u hu h => ?_⟩
        have hcu := hlate u hu h
        exact hleast u ((hsome u).2 hcu) (hfrom u hcu ▸ h)

variable {z : Zone} {l t : Int}

theorem toInstant?_eq_some_iff :
    z.toInstant? l = some t ↔ z.toLocal t = l ∧ ∀ u, z.toLocal u = l → t ≤ u := by
  have key := earliestShowing_spec z.initial true l none z.chronological
    (fun _ _ _ h => by cases h) (by simp [NotBefore])
  have hany (u : Int) : NotBefore none u := fun _ h => by cases h
  rw [toInstant?]
  cases h : earliestShowing z.initial true z.transitions l with
  | none =>
    rw [h] at key
    exact ⟨fun h => (by cases h), fun ⟨hl, _⟩ => absurd hl (key t (hany t))⟩
  | some t' =>
    rw [h] at key
    obtain ⟨-, hl, hleast⟩ := key
    refine ⟨fun h => ?_, fun ⟨hlt, hle⟩ => ?_⟩
    · cases h
      exact ⟨hl, fun u hu => hleast u (hany u) hu⟩
    · rw [Int.le_antisymm (hleast t (hany t) hlt) (hle t' hl)]

theorem toInstant?_eq_none_iff : z.toInstant? l = none ↔ ∀ t, z.toLocal t ≠ l := by
  have key := earliestShowing_spec z.initial true l none z.chronological
    (fun _ _ _ h => by cases h) (by simp [NotBefore])
  rw [toInstant?]
  cases h : earliestShowing z.initial true z.transitions l with
  | none =>
    rw [h] at key
    exact ⟨fun _ t => key t fun _ h => (by cases h), fun _ => rfl⟩
  | some t =>
    rw [h] at key
    exact ⟨fun h => (by cases h), fun h => absurd key.2.1 (h t)⟩

theorem toInstant_of_shown (h : z.toLocal t = l) :
    z.toLocal (z.toInstant l) = l ∧ ∀ u, z.toLocal u = l → z.toInstant l ≤ u := by
  cases hr : z.toInstant? l with
  | none => exact absurd h (toInstant?_eq_none_iff.1 hr t)
  | some u => rw [toInstant, hr]; exact toInstant?_eq_some_iff.1 hr

theorem isRepeat_iff : z.isRepeat t = true ↔ ∃ u, u < t ∧ z.toLocal u = z.toLocal t := by
  obtain ⟨hl, hleast⟩ := toInstant_of_shown (z := z) (t := t) rfl
  rw [isRepeat, bne_iff_ne]
  constructor
  · intro hne
    have := hleast t rfl
    exact ⟨_, by omega, hl⟩
  · rintro ⟨u, hu, hlu⟩ he
    have := hleast u hlu
    omega

end Almanac.Zone
