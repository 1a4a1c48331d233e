import Almanac.Proofs.Search
/-!
# Values that count up

The calendar may have values of a field that are not in order, as a date that begins twice has its first
hours twice. From a value that does not pass, a condition still goes to the next value that it lets pass,
if the calendar has it anywhere; and as far as the values count up from 0, it passes none.

- `Base.target?_of_next`: each shape looks for the next value that passes.
- `Condition.distance?_le_of_counts`: a condition does not lead past a value that it lets pass.
- `Schedule.exists_distance?_of_position`: the shortest distance is no longer than any.
-/
namespace Almanac

/-! ## Values that count up -/

namespace Field

variable {f : Field} {context : Option Moment} {i k : Nat}

/-- The first `k` values that the calendar has are `0`, `1` and so on. -/
structure CountsTo (f : Field) (context : Option Moment) (k : Nat) : Prop where
  value : ∀ i, i < k → (f.values context)[i]? = some i
  within : ∀ v ∈ f.values context, v ≤ f.highest

theorem CountsTo.idxOf? (h : f.CountsTo context k) (hi : i < k) :
    (f.values context).idxOf? i = some i := by
  refine Sorted.idxOf?_eq_some_iff_getElem?.2 ⟨h.value i hi, fun j hj he => ?_⟩
  rw [h.value j (by omega)] at he
  cases he
  omega

end Field

/-- From a value that does not pass, every shape looks for the next value that does, if the calendar has
it anywhere. -/
theorem Base.target?_of_next {f : Field} {base : Base} {step : Option Nat} {h : base.Within f}
    {hk : f.AdmitsStep step} {values : List Nat} {current w : Nat} (here : Nat)
    (hle : ∀ x ∈ values, x ≤ f.highest)
    (hfail : (Condition.constrained base step h hk).passes current = false)
    (hnext : (Condition.constrained base step h hk).nextPassing? current = some w) (hw : w ∈ values) :
    base.target? step values current here = values.idxOf? w := by
  obtain ⟨hcw, -, hp, hleast⟩ := Condition.nextPassing?_eq_some_iff.1 hnext
  match base, step with
  | .value v, none =>
    have hvw : v = w := by simpa [Condition.passes] using hp
    rw [target?, hvw]
  | .range a b, none =>
    have hout : between a b current = false := hfail
    have hab : a ≤ w ∧ w ≤ b := by simpa [Condition.passes, between] using hp
    have haw : a = w := by
      refine Nat.le_antisymm hab.1 (Nat.le_of_not_lt fun hlt => ?_)
      simp only [between, Bool.and_eq_false_iff, decide_eq_false_iff_not] at hout
      have := hleast a (by omega) hlt
      simp only [Condition.passes, between, Bool.and_eq_false_iff, decide_eq_false_iff_not] at this
      omega
    simp only [target?, hout, Bool.false_and, Bool.false_eq_true, if_false]
    rw [haw]
  | .value v, some k =>
    obtain ⟨last, hlast⟩ : ∃ m, values.max? = some m :=
      Option.isSome_iff_exists.1 (List.isSome_max?_of_mem hw)
    obtain ⟨hmem, hmax⟩ := List.max?_eq_some_iff.1 hlast
    have hval {x : Nat} : x ∈ ((Base.value v).progression last k).values ↔ _ :=
      mem_progression_iff_passes h hk (hle last hmem)
    have hafter : ((Base.value v).progression last k).after? current = some w :=
      Condition.after?_of_nextPassing? (hk k rfl).1 hnext (hval.2 ⟨hp, hmax w hw⟩) fun x hx => (hval.1 hx).1
    simp only [target?, hlast, Option.getD_some, hafter, Option.bind_some]
  | .range a b, some k =>
    have hafter : ((Base.range a b).progression b k).after? current = some w :=
      Condition.after?_of_nextPassing? (hk k rfl).1 hnext ((Condition.passes_iff_mem h hk).1 hp)
        fun x hx => (Condition.passes_iff_mem h hk).2 hx
    simp only [target?, hafter, Option.getD_some]

theorem Base.target?_lt_length {base : Base} {step : Option Nat} {values : List Nat}
    {current here there : Nat} (h : base.target? step values current here = some there) :
    there < values.length := by
  have hidx {w i : Nat} (hi : values.idxOf? w = some i) : i < values.length :=
    (List.idxOf?_eq_some_iff.1 hi).1
  match base, step with
  | .value v, none => exact hidx h
  | .range a b, none =>
    simp only [target?] at h
    split at h
    case isTrue hin =>
      cases h
      by_contra hlen
      rw [List.getElem?_eq_none (by omega)] at hin
      simp at hin
    case isFalse => exact hidx h
  | .value v, some k =>
    obtain ⟨w, -, hw⟩ := Option.bind_eq_some_iff.1 h
    exact hidx hw
  | .range a b, some k => exact hidx h

namespace Condition

variable {f : Field} {c : Condition f} {context : Option Moment} {current here i j k d : Nat}

theorem exists_distance? (hadm : f.Admits current) (hpos : f.position? context current = some here)
    (hfail : c.passes current = false) :
    ∃ d, c.distance? current context = some d ∧ here + d ≤ (f.values context).length := by
  have hlen := Field.position?_lt_length hpos
  cases c with
  | wildcard => cases hfail
  | constrained base step h hk =>
    simp only [distance?, if_pos hadm, hpos, Option.map_some]
    refine ⟨_, rfl, ?_⟩
    split
    · have := Base.target?_lt_length ‹_›
      split <;> omega
    · omega

/-- A condition does not lead past a value that it lets pass, as far as the values count up. -/
theorem distance?_le_of_counts (h : f.CountsTo context k) (hadm : f.Admits i)
    (hpos : f.position? context i = some i) (hfail : c.passes i = false) (hij : i < j) (hjk : j < k)
    (hp : c.passes j = true) : ∃ d, c.distance? i context = some d ∧ i + d ≤ j := by
  have hj := h.within j (List.mem_of_getElem? (h.value j hjk))
  obtain ⟨w, hw, hwj⟩ := exists_nextPassing? hij hj hp
  have hiw := (nextPassing?_eq_some_iff.1 hw).1
  have hmem := List.mem_of_getElem? (h.value w (by omega))
  cases c with
  | wildcard => cases hfail
  | constrained base step hb hk =>
    have htarget := Base.target?_of_next i h.within hfail hw hmem
    rw [h.idxOf? (by omega)] at htarget
    simp only [distance?, if_pos hadm, hpos, Option.map_some, htarget, if_pos hiw]
    exact ⟨_, rfl, by omega⟩

end Condition

namespace Schedule

variable {s : Schedule} {f : Field} {t : Int} {here i j k d : Nat}

/-- The shortest distance is one of those of the conditions, none of which passes the end of the values. -/
theorem exists_distance?_of_position (hadm : f.Admits (f.ofLocal (s.zone.toLocal t)))
    (hpos : f.position? (s.context t) (f.ofLocal (s.zone.toLocal t)) = some here)
    (hfail : ¬ s.PassesAt f t) :
    ∃ d, s.distance? t f = some d ∧ here + d ≤ (f.values (s.context t)).length ∧
      ∀ c ∈ s.conditions f, ∀ d',
        c.distance? (f.ofLocal (s.zone.toLocal t)) (s.context t) = some d' → d ≤ d' := by
  obtain ⟨c, hc⟩ := List.exists_mem_of_ne_nil _ (s.alternatives f).ne_nil
  obtain ⟨e, he, -⟩ := Condition.exists_distance? hadm hpos (condition_fails hfail hc)
  obtain ⟨d, hd⟩ : ∃ d, s.distance? t f = some d := by
    rw [← Option.isSome_iff_exists, distance?, List.isSome_min?_iff]
    exact List.ne_nil_of_mem (List.mem_filterMap.2 ⟨c, hc, he⟩)
  obtain ⟨hmem, hleast⟩ := List.min?_eq_some_iff.1 hd
  refine ⟨d, hd, ?_, fun c' hc' d' hd' => hleast d' (List.mem_filterMap.2 ⟨c', hc', hd'⟩)⟩
  obtain ⟨c', hc', hcd⟩ := List.mem_filterMap.1 hmem
  obtain ⟨e', he', hle⟩ := Condition.exists_distance? hadm hpos (condition_fails hfail hc')
  rw [hcd] at he'
  cases he'
  exact hle

end Schedule
end Almanac
