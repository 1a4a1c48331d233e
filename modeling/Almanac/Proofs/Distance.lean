import Almanac.Condition.Distance
import Almanac.Proofs.Units
/-!
# The distance leads to the next value that passes

The four shapes of a condition find the value to go to in four ways. From a value that does not pass
they agree: it is the least later value that passes, if the calendar has it, and the end of the
calendar's values otherwise.

- `Base.target?_ahead`: the position that a shape goes to, when it lies ahead.
- `Condition.distance?_eq`: the distance of a condition leads to its landing.
- `Condition.landing_le`, `Condition.passes_landing`: the landing is not past a value that passes,
  and passes itself.
-/
namespace Almanac

/-! ## Positions in a sorted list -/

namespace Sorted

theorem idxOf?_eq_some_iff_getElem? {l : List Nat} {a i : Nat} :
    l.idxOf? a = some i ↔ l[i]? = some a ∧ ∀ j, j < i → l[j]? ≠ some a := by
  rw [List.idxOf?_eq_some_iff]
  constructor
  · rintro ⟨hi, ha, hj⟩
    refine ⟨by rw [List.getElem?_eq_getElem hi, ha], fun j hji he => ?_⟩
    rw [List.getElem?_eq_getElem (by omega)] at he
    exact hj j hji (Option.some.inj he)
  · rintro ⟨ha, hj⟩
    obtain ⟨hi, ha⟩ := List.getElem?_eq_some_iff.1 ha
    refine ⟨hi, ha, fun j hji he => hj j hji ?_⟩
    rw [List.getElem?_eq_getElem (by omega), he]

theorem le_of_sorted {l : List Nat} (hs : l.Pairwise (· ≤ ·)) {i j a b : Nat} (hi : l[i]? = some a)
    (hj : l[j]? = some b) (hij : i ≤ j) : a ≤ b := by
  obtain ⟨hil, rfl⟩ := List.getElem?_eq_some_iff.1 hi
  obtain ⟨hjl, rfl⟩ := List.getElem?_eq_some_iff.1 hj
  rcases Nat.eq_or_lt_of_le hij with rfl | hlt
  · exact Nat.le_refl _
  · exact List.pairwise_iff_getElem.1 hs i j hil hjl hlt

/-- In a sorted list the values ahead of `here` are the larger ones. -/
theorem filter_idxOf? {l : List Nat} (hs : l.Pairwise (· ≤ ·)) {here current : Nat}
    (hhere : l[here]? = some current) (w : Nat) :
    (l.idxOf? w).filter (here < ·) = if current < w then l.idxOf? w else none := by
  cases hw : l.idxOf? w with
  | none => simp
  | some i =>
    obtain ⟨hi, hfirst⟩ := idxOf?_eq_some_iff_getElem?.1 hw
    by_cases hlt : here < i
    · have hle := le_of_sorted hs hhere hi (by omega)
      have hne : current ≠ w := fun he => hfirst here hlt (he ▸ hhere)
      simp [Option.filter, hlt, show current < w by omega]
    · have hle := le_of_sorted hs hi hhere (by omega)
      simp [Option.filter, hlt, show ¬ current < w by omega]

theorem idxOf?_le {l : List Nat} {j w : Nat} (hj : l[j]? = some w) : ∃ i, l.idxOf? w = some i ∧ i ≤ j := by
  cases hw : l.idxOf? w with
  | none => exact absurd (List.mem_of_getElem? hj) (List.idxOf?_eq_none_iff.1 hw)
  | some i =>
    refine ⟨i, rfl, Nat.le_of_not_lt fun hlt => ?_⟩
    exact (idxOf?_eq_some_iff_getElem?.1 hw).2 j hlt hj

theorem lastPosition?_eq_some {l : List Nat} {a i : Nat} (hi : l[i]? = some a)
    (hlast : ∀ j, i < j → l[j]? ≠ some a) : Field.lastPosition? l a = some i := by
  have hil := (List.getElem?_eq_some_iff.1 hi).1
  have hrev : l.reverse.idxOf? a = some (l.length - 1 - i) := by
    refine idxOf?_eq_some_iff_getElem?.2 ⟨?_, fun j hj => ?_⟩
    · rw [List.getElem?_reverse (by omega), show l.length - 1 - (l.length - 1 - i) = i by omega, hi]
    · rw [List.getElem?_reverse (by omega)]
      exact hlast _ (by omega)
  rw [Field.lastPosition?, hrev, Option.map_some, show l.length - 1 - (l.length - 1 - i) = i by omega]

/-- In a list without repetitions a value has one position, from whichever end it is looked for. -/
theorem position?_eq_some {f : Field} {context : Option Moment} {v i : Nat}
    (hs : (f.values context).Pairwise (· < ·)) (hi : (f.values context)[i]? = some v) :
    f.position? context v = some i := by
  have hne (j : Nat) (hij : j ≠ i) : (f.values context)[j]? ≠ some v := by
    intro hj
    obtain ⟨hil, hiv⟩ := List.getElem?_eq_some_iff.1 hi
    obtain ⟨hjl, hjv⟩ := List.getElem?_eq_some_iff.1 hj
    rcases Nat.lt_or_gt_of_ne hij with hlt | hlt
    · have := List.pairwise_iff_getElem.1 hs j i hjl hil hlt; omega
    · have := List.pairwise_iff_getElem.1 hs i j hil hjl hlt; omega
  unfold Field.position?
  split
  · exact lastPosition?_eq_some hi fun j hj => hne j (by omega)
  · exact idxOf?_eq_some_iff_getElem?.2 ⟨hi, fun j hj => hne j (by omega)⟩

end Sorted

/-! ## Progressions -/

namespace Progression

variable {p : Progression} {v w : Nat}

theorem after?_eq_some_iff (h : 0 < p.step) :
    p.after? v = some w ↔ w ∈ p.values ∧ v < w ∧ ∀ x ∈ p.values, v < x → w ≤ x := by
  have hs := pairwise_values h
  rw [after?, List.find?_eq_some_iff_append]
  constructor
  · rintro ⟨hw, as, bs, he, has⟩
    rw [he] at hs ⊢
    refine ⟨by simp, by simpa using hw, fun x hx hvx => ?_⟩
    rcases List.mem_append.1 hx with hx | hx
    · exact absurd hvx (by simpa using has x hx)
    · rcases List.mem_cons.1 hx with rfl | hx
      · exact Nat.le_refl _
      · exact Nat.le_of_lt ((List.pairwise_cons.1 (List.pairwise_append.1 hs).2.1).1 x hx)
  · rintro ⟨hw, hvw, hleast⟩
    obtain ⟨as, bs, he⟩ := List.append_of_mem hw
    refine ⟨by simpa using hvw, as, bs, he, fun x hx => ?_⟩
    rw [he] at hs hleast
    have hxw := (List.pairwise_append.1 hs).2.2 x hx w (by simp)
    have := hleast x (by simp [hx])
    simp only [Bool.not_eq_eq_eq_not, Bool.not_true, decide_eq_false_iff_not]
    omega

theorem after?_eq_none_iff : p.after? v = none ↔ ∀ x ∈ p.values, x ≤ v := by
  simp [after?, List.find?_eq_none]

end Progression

/-! ## The next value that passes -/

namespace Condition

variable {f : Field} {c : Condition f} {v w : Nat}

/-- The least value past `v` that passes. -/
def nextPassing? (c : Condition f) (v : Nat) : Option Nat :=
  (Field.interval (v + 1) f.highest).find? c.passes

theorem nextPassing?_eq_some_iff :
    c.nextPassing? v = some w ↔
      v < w ∧ w ≤ f.highest ∧ c.passes w = true ∧ ∀ x, v < x → x < w → c.passes x = false := by
  rw [nextPassing?, Field.interval, List.find?_range'_eq_some, List.mem_range'_1]
  simp only [Bool.not_eq_eq_eq_not, Bool.not_true]
  constructor
  · rintro ⟨hw, ⟨h1, h2⟩, hx⟩
    exact ⟨by omega, by omega, hw, fun x h => hx x (by omega)⟩
  · rintro ⟨h1, h2, hw, hx⟩
    exact ⟨hw, ⟨by omega, by omega⟩, fun x h => hx x (by omega)⟩

theorem nextPassing?_eq_none_iff :
    c.nextPassing? v = none ↔ ∀ x, v < x → x ≤ f.highest → c.passes x = false := by
  rw [nextPassing?, Field.interval, List.find?_range'_eq_none]
  simp only [Bool.not_eq_eq_eq_not, Bool.not_true]
  exact ⟨fun h x h1 h2 => h x (by omega) (by omega), fun h x h1 h2 => h x (by omega) (by omega)⟩

/-- A value that passes is at or past the next one. -/
theorem exists_nextPassing? {x : Nat} (hvx : v < x) (hx : x ≤ f.highest) (hp : c.passes x = true) :
    ∃ w, c.nextPassing? v = some w ∧ w ≤ x := by
  cases hn : c.nextPassing? v with
  | none => rw [nextPassing?_eq_none_iff.1 hn x hvx hx] at hp; cases hp
  | some w =>
    refine ⟨w, rfl, Nat.le_of_not_lt fun hlt => ?_⟩
    rw [(nextPassing?_eq_some_iff.1 hn).2.2.2 x hvx hlt] at hp
    cases hp

/-- A progression of values that pass goes on to the next one, if that is one of its values. -/
theorem after?_of_nextPassing? {p : Progression} (hp : 0 < p.step) (hnext : c.nextPassing? v = some w)
    (hw : w ∈ p.values) (hpass : ∀ x ∈ p.values, c.passes x = true) : p.after? v = some w := by
  obtain ⟨hvw, -, -, hleast⟩ := nextPassing?_eq_some_iff.1 hnext
  refine (Progression.after?_eq_some_iff hp).2 ⟨hw, hvw, fun x hx hvx => Nat.le_of_not_lt fun hlt => ?_⟩
  have := hpass x hx
  rw [hleast x hvx hlt] at this
  cases this

/-- It has no later value, if no value that passes is one of its later values. -/
theorem after?_eq_none_of_passes {p : Progression} (hpass : ∀ x ∈ p.values, c.passes x = true)
    (hno : ∀ x ∈ p.values, v < x → c.passes x = false) : p.after? v = none := by
  refine Progression.after?_eq_none_iff.2 fun x hx => Nat.le_of_not_lt fun hlt => ?_
  have := hno x hx hlt
  rw [hpass x hx] at this
  cases this

theorem passes_iff_mem {base : Base} {k : Nat} (h : base.Within f) (hk : f.AdmitsStep (some k)) :
    (constrained base (some k) h hk).passes v = true ↔ v ∈ (base.progression f.highest k).values := by
  cases base <;> simp [passes, Progression.contains]

theorem mem_progression_of_passes {base : Base} {k : Nat} {h : base.Within f} {hk : f.AdmitsStep (some k)}
    (hp : (constrained base (some k) h hk).passes v = true) :
    v ≤ (base.progression f.highest k).last ∧ ∃ i, v = (base.progression f.highest k).first + k * i := by
  have hmem := (passes_iff_mem h hk).1 hp
  have hk0 := (hk k rfl).1
  cases base <;> exact (Progression.mem_values hk0).1 hmem

/-- Only the wildcard lets a value pass that is outside the interval of the field. -/
theorem admits_of_passes {base : Base} {step : Option Nat} {h : base.Within f} {hk : f.AdmitsStep step}
    (hp : (constrained base step h hk).passes v = true) : f.Admits v := by
  cases base with
  | value a =>
    have ha : f.Admits a := h
    cases step with
    | none =>
      have hav : a = v := by simpa [passes] using hp
      exact hav ▸ ha
    | some k =>
      obtain ⟨hle, i, hv⟩ := mem_progression_of_passes hp
      exact ⟨Nat.le_trans ha.1 (hv ▸ Nat.le_add_right _ _), hle⟩
  | range a b =>
    have ha : f.Admits a := h.2.1
    have hb : f.Admits b := h.2.2
    cases step with
    | none =>
      have hab : a ≤ v ∧ v ≤ b := by simpa [passes, Base.between] using hp
      exact ⟨Nat.le_trans ha.1 hab.1, Nat.le_trans hab.2 hb.2⟩
    | some k =>
      obtain ⟨hle, i, hv⟩ := mem_progression_of_passes hp
      exact ⟨Nat.le_trans ha.1 (hv ▸ Nat.le_add_right _ _), Nat.le_trans hle hb.2⟩

end Condition

/-! ## The position to go to -/

namespace Base

variable {f : Field} {values : List Nat} {current here k : Nat}

/-- A shape that looks for one value finds what the next value that passes would give, when that
value is the next one or lies behind. -/
theorem filter_idxOf?_eq_of_next (hs : values.Pairwise (· ≤ ·)) (hhere : values[here]? = some current)
    {next : Option Nat} {w : Nat} (hnext : next = if current < w then some w else none) :
    (values.idxOf? w).filter (here < ·) = next.bind values.idxOf? := by
  rw [Sorted.filter_idxOf? hs hhere, hnext]
  split <;> rfl

theorem target?_value {v : Nat} (h : (Base.value v).Within f) (hk : f.AdmitsStep none)
    (hs : values.Pairwise (· ≤ ·)) (hhere : values[here]? = some current) :
    (target? (.value v) none values current here).filter (here < ·) =
      ((Condition.constrained (.value v) none h hk).nextPassing? current).bind values.idxOf? := by
  refine filter_idxOf?_eq_of_next hs hhere ?_
  split <;> rename_i hc
  · rw [Condition.nextPassing?_eq_some_iff]
    refine ⟨hc, h.2, by simp [Condition.passes], fun x _ hx => ?_⟩
    simp only [Condition.passes, beq_eq_false_iff_ne]
    omega
  · rw [Condition.nextPassing?_eq_none_iff]
    intro x hx _
    simp only [Condition.passes, beq_eq_false_iff_ne]
    omega

theorem target?_range {a b : Nat} (h : (Base.range a b).Within f) (hk : f.AdmitsStep none)
    (hs : values.Pairwise (· ≤ ·)) (hhere : values[here]? = some current)
    (hfail : (Condition.constrained (.range a b) none h hk).passes current = false) :
    (target? (.range a b) none values current here).filter (here < ·) =
      ((Condition.constrained (.range a b) none h hk).nextPassing? current).bind values.idxOf? := by
  have hout : between a b current = false := hfail
  simp only [target?, hout, Bool.false_and, Bool.false_eq_true, if_false]
  refine filter_idxOf?_eq_of_next hs hhere ?_
  simp only [between, Bool.and_eq_false_iff, decide_eq_false_iff_not] at hout
  split <;> rename_i hc
  · rw [Condition.nextPassing?_eq_some_iff]
    refine ⟨hc, Nat.le_trans h.1 h.2.2.2, by simpa [Condition.passes, between] using h.1, fun x _ hx => ?_⟩
    simp [Condition.passes, between]
    omega
  · rw [Condition.nextPassing?_eq_none_iff]
    intro x hx _
    simp [Condition.passes, between]
    omega

/-- The values of a progression that is cut off earlier are the same up to there. -/
theorem mem_progression_value {v k last last' x : Nat} (hk : 0 < k) (hl : last ≤ last') :
    x ∈ ((Base.value v).progression last k).values ↔
      x ∈ ((Base.value v).progression last' k).values ∧ x ≤ last := by
  rw [Progression.mem_values hk, Progression.mem_values hk]
  simp only [progression]
  constructor
  · rintro ⟨h, hx⟩
    exact ⟨⟨Nat.le_trans h hl, hx⟩, h⟩
  · rintro ⟨⟨-, hx⟩, h⟩
    exact ⟨h, hx⟩

/-- Up to the last value of the calendar the values of the progression are those that pass. -/
theorem mem_progression_iff_passes {v k last : Nat} (h : (Base.value v).Within f) (hk : f.AdmitsStep (some k))
    (hl : last ≤ f.highest) {x : Nat} : x ∈ ((Base.value v).progression last k).values ↔
      (Condition.constrained (.value v) (some k) h hk).passes x = true ∧ x ≤ last := by
  rw [Condition.passes_iff_mem, mem_progression_value (hk k rfl).1 hl]

theorem target?_value_step {v : Nat} (h : (Base.value v).Within f) (hk : f.AdmitsStep (some k))
    (hs : values.Pairwise (· ≤ ·)) (hhere : values[here]? = some current)
    (hle : ∀ x ∈ values, x ≤ f.highest) :
    (target? (.value v) (some k) values current here).filter (here < ·) =
      ((Condition.constrained (.value v) (some k) h hk).nextPassing? current).bind values.idxOf? := by
  obtain ⟨last, hlast⟩ : ∃ m, values.max? = some m :=
    Option.isSome_iff_exists.1 (List.isSome_max?_of_mem (List.mem_of_getElem? hhere))
  obtain ⟨hmem, hmax⟩ := List.max?_eq_some_iff.1 hlast
  have hval {x : Nat} : x ∈ ((Base.value v).progression last k).values ↔ _ :=
    mem_progression_iff_passes h hk (hle last hmem)
  have hpass (x : Nat) (hx : x ∈ ((Base.value v).progression last k).values) := (hval.1 hx).1
  simp only [target?, hlast, Option.getD_some]
  cases hn : (Condition.constrained (.value v) (some k) h hk).nextPassing? current with
  | none =>
    rw [Condition.nextPassing?_eq_none_iff] at hn
    have hafter : ((Base.value v).progression last k).after? current = none :=
      Condition.after?_eq_none_of_passes hpass fun x hx hcx =>
        hn x hcx (Nat.le_trans (hval.1 hx).2 (hle last hmem))
    rw [hafter]
    rfl
  | some w =>
    obtain ⟨hcw, -, hp, hleast⟩ := Condition.nextPassing?_eq_some_iff.1 hn
    by_cases hwl : w ≤ last
    · rw [Condition.after?_of_nextPassing? (hk k rfl).1 hn (hval.2 ⟨hp, hwl⟩) hpass]
      simp only [Option.bind_some, Sorted.filter_idxOf? hs hhere, if_pos hcw]
    · -- past the largest value of the calendar, where the progression is cut off
      have hno : values.idxOf? w = none :=
        List.idxOf?_eq_none_iff.2 fun hw => hwl (hmax w hw)
      rw [Condition.after?_eq_none_of_passes hpass fun x hx hcx => hleast x hcx ?_, Option.bind_some, hno]
      · rfl
      · have := (hval.1 hx).2
        omega

theorem target?_range_step {a b : Nat} (h : (Base.range a b).Within f) (hk : f.AdmitsStep (some k))
    (hs : values.Pairwise (· ≤ ·)) (hhere : values[here]? = some current) :
    (target? (.range a b) (some k) values current here).filter (here < ·) =
      ((Condition.constrained (.range a b) (some k) h hk).nextPassing? current).bind values.idxOf? := by
  have hk0 : 0 < k := (hk k rfl).1
  have hpass (x : Nat) (hx : x ∈ ((Base.range a b).progression b k).values) :=
    (Condition.passes_iff_mem h hk).2 hx
  simp only [target?]
  cases hn : (Condition.constrained (.range a b) (some k) h hk).nextPassing? current with
  | none =>
    rw [Condition.nextPassing?_eq_none_iff] at hn
    have hafter : ((Base.range a b).progression b k).after? current = none :=
      Condition.after?_eq_none_of_passes hpass fun x hx hcx => hn x hcx <|
        Nat.le_trans ((Progression.mem_values hk0).1 hx).1 h.2.2.2
    -- back to the start of the range, which lies behind
    have hac := Progression.after?_eq_none_iff.1 hafter a ((Progression.mem_values hk0).2 ⟨h.1, 0, rfl⟩)
    rw [hafter, Option.getD_none, Sorted.filter_idxOf? hs hhere, if_neg (by omega)]
    rfl
  | some w =>
    obtain ⟨hcw, -, hp, -⟩ := Condition.nextPassing?_eq_some_iff.1 hn
    have hafter : ((Base.range a b).progression b k).after? current = some w :=
      Condition.after?_of_nextPassing? hk0 hn ((Condition.passes_iff_mem h hk).1 hp) hpass
    simp only [hafter, Option.getD_some, Option.bind_some, Sorted.filter_idxOf? hs hhere, if_pos hcw]

/-- From a value that does not pass, every shape goes to the next value that does, if the calendar
has it. -/
theorem target?_ahead {base : Base} {step : Option Nat} {h : base.Within f} {hk : f.AdmitsStep step}
    (hs : values.Pairwise (· ≤ ·)) (hhere : values[here]? = some current)
    (hle : ∀ x ∈ values, x ≤ f.highest)
    (hfail : (Condition.constrained base step h hk).passes current = false) :
    (target? base step values current here).filter (here < ·) =
      ((Condition.constrained base step h hk).nextPassing? current).bind values.idxOf? := by
  match base, step with
  | .value _, none => exact target?_value h hk hs hhere
  | .range _ _, none => exact target?_range h hk hs hhere hfail
  | .value _, some _ => exact target?_value_step h hk hs hhere hle
  | .range _ _, some _ => exact target?_range_step h hk hs hhere

end Base

/-! ## The distance -/

namespace Field

variable {f : Field} {context : Option Moment} {current here : Nat}

/-- The current value is one of the calendar's values, which are in order, and is found at `here`. -/
structure StandsAt (f : Field) (context : Option Moment) (current here : Nat) : Prop where
  admits : f.Admits current
  position : f.position? context current = some here
  value : (f.values context)[here]? = some current
  sorted : (f.values context).Pairwise (· ≤ ·)
  within : ∀ v ∈ f.values context, v ≤ f.highest

theorem StandsAt.here_lt (h : f.StandsAt context current here) : here < (f.values context).length :=
  (List.getElem?_eq_some_iff.1 h.value).1

theorem position?_lt_length (h : f.position? context current = some here) :
    here < (f.values context).length := by
  unfold position? lastPosition? at h
  split at h
  · obtain ⟨i, hi, rfl⟩ := Option.map_eq_some_iff.1 h
    obtain ⟨hil, -⟩ := List.idxOf?_eq_some_iff.1 hi
    rw [List.length_reverse] at hil
    omega
  · exact (List.idxOf?_eq_some_iff.1 h).1

end Field

namespace Condition

variable {f : Field} {c : Condition f} {context : Option Moment} {current here : Nat}

/-- The position of the next value that passes, and the end of the values when there is none. -/
def landing (c : Condition f) (context : Option Moment) (current : Nat) : Nat :=
  ((c.nextPassing? current).bind (f.values context).idxOf?).getD (f.values context).length

theorem distance?_of_target? {base : Base} {step : Option Nat} {hw : base.Within f} {hk : f.AdmitsStep step}
    (h : f.StandsAt context current here)
    (ht : (base.target? step (f.values context) current here).filter (here < ·) =
      ((constrained base step hw hk).nextPassing? current).bind (f.values context).idxOf?) :
    (constrained base step hw hk).distance? current context =
      some ((constrained base step hw hk).landing context current - here) := by
  simp only [distance?, if_pos h.admits, h.position, Option.map_some, landing, ← ht]
  cases base.target? step (f.values context) current here with
  | none => rfl
  | some there => by_cases hlt : here < there <;> simp [Option.filter, hlt]

theorem distance?_eq (h : f.StandsAt context current here) (hfail : c.passes current = false) :
    c.distance? current context = some (c.landing context current - here) := by
  cases c with
  | wildcard => cases hfail
  | constrained base step hw hk =>
    exact distance?_of_target? h (Base.target?_ahead h.sorted h.value h.within hfail)

/-- Where a condition goes when the calendar has its next value: there. -/
theorem landing_eq {w i : Nat} (hw : c.nextPassing? current = some w)
    (hi : (f.values context).idxOf? w = some i) : c.landing context current = i := by
  simp [landing, hw, hi]

theorem landing_le_length (c : Condition f) (context : Option Moment) (current : Nat) :
    c.landing context current ≤ (f.values context).length := by
  unfold landing
  cases h : (c.nextPassing? current).bind (f.values context).idxOf? with
  | none => exact Nat.le_refl _
  | some i =>
    obtain ⟨w, -, hi⟩ := Option.bind_eq_some_iff.1 h
    obtain ⟨hlt, -⟩ := List.getElem?_eq_some_iff.1 (Sorted.idxOf?_eq_some_iff_getElem?.1 hi).1
    exact Nat.le_of_lt hlt

/-- What is landed on passes, unless it is the end of the values. -/
theorem passes_landing (h : c.landing context current < (f.values context).length) :
    ∃ w, c.nextPassing? current = some w ∧
      (f.values context)[c.landing context current]? = some w ∧ c.passes w = true := by
  unfold landing at h ⊢
  cases hn : (c.nextPassing? current).bind (f.values context).idxOf? with
  | none => simp [hn] at h
  | some i =>
    obtain ⟨w, hw, hi⟩ := Option.bind_eq_some_iff.1 hn
    exact ⟨w, hw, (Sorted.idxOf?_eq_some_iff_getElem?.1 hi).1, (nextPassing?_eq_some_iff.1 hw).2.2.1⟩

theorem here_lt_landing (h : f.StandsAt context current here) : here < c.landing context current := by
  rcases Nat.lt_or_eq_of_le (c.landing_le_length context current) with
    hlt | heq
  · obtain ⟨w, hw, hv, -⟩ := passes_landing hlt
    have hcw := (nextPassing?_eq_some_iff.1 hw).1
    refine Nat.lt_of_not_le fun hle => ?_
    have := Sorted.le_of_sorted h.sorted hv h.value hle
    omega
  · rw [heq]; exact h.here_lt

/-- A condition does not go past a value that it lets pass, if the calendar has the next value that
it lets pass. -/
theorem landing_le (h : f.StandsAt context current here) {j v : Nat}
    (hj : (f.values context)[j]? = some v) (hcv : current < v) (hp : c.passes v = true)
    (hhas : ∀ w, c.nextPassing? current = some w → w ≤ v → w ∈ f.values context) :
    c.landing context current ≤ j := by
  obtain ⟨w, hw, hwv⟩ := exists_nextPassing? hcv (h.within v (List.mem_of_getElem? hj)) hp
  obtain ⟨i, hi⟩ := List.getElem?_of_mem (hhas w hw hwv)
  obtain ⟨i', hi', -⟩ := Sorted.idxOf?_le hi
  rw [landing_eq hw hi']
  obtain ⟨hval, hfirst⟩ := Sorted.idxOf?_eq_some_iff_getElem?.1 hi'
  refine Nat.le_of_not_lt fun hlt => ?_
  have hvw := Sorted.le_of_sorted h.sorted hj hval (Nat.le_of_lt hlt)
  exact hfirst j hlt (by rw [hj, Nat.le_antisymm hvw hwv])

theorem admits_of_distance? {d : Nat} (h : c.distance? current context = some d) : f.Admits current := by
  unfold distance? at h
  split at h
  case isTrue hadm => exact hadm
  case isFalse => cases h

/-- A distance is never zero, wherever it is measured. -/
theorem distance?_pos {d : Nat} (h : c.distance? current context = some d) : 0 < d := by
  unfold distance? at h
  split at h
  case isFalse => cases h
  cases c with
  | wildcard => cases h; exact Nat.one_pos
  | constrained base step hw hk =>
    obtain ⟨here, hpos, rfl⟩ := Option.map_eq_some_iff.1 h
    have hlt := Field.position?_lt_length hpos
    split
    · split <;> omega
    · omega

end Condition
end Almanac
