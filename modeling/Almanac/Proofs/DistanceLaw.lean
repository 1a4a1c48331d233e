import Almanac.Proofs.Unchanged
import Almanac.Zone.Day.Lemmas
import Mathlib.Data.List.TakeWhile
/-!
# The distance from any value

On a date with one offset the values that the calendar has are consecutive. Among consecutive values the distance
leads to the next value that passes, or to their end, also from a value that passes itself: there a range looks
one value ahead, and the next value is the value after the current one.

- `Field.Consecutive`, `Field.exists_consecutive`: the values of a field on such a date.
- `Base.target?_ahead_of_consecutive`: the position that a shape goes to, when it lies ahead.
- `Condition.distance?_eq_of_consecutive`: the distance leads to the landing.
- `Condition.distance?_spec`: what is passed over and what is reached.
-/
namespace Almanac

/-! ## Consecutive values -/

namespace Field

variable {f : Field} {context : Option Moment} {first i v : Nat}

/-- The values that the calendar has are so many values of the field in a row. -/
structure Consecutive (f : Field) (context : Option Moment) (first : Nat) : Prop where
  values : f.values context = List.range' first (f.values context).length
  admits : ∀ v ∈ f.values context, f.Admits v

namespace Consecutive

theorem getElem?_iff (h : f.Consecutive context first) :
    (f.values context)[i]? = some v ↔ v = first + i ∧ i < (f.values context).length := by
  rw [h.values, List.length_range', List.getElem?_eq_some_iff]
  simp only [List.length_range', List.getElem_range', Nat.one_mul]
  constructor
  · rintro ⟨hi, rfl⟩
    exact ⟨rfl, hi⟩
  · rintro ⟨rfl, hi⟩
    exact ⟨hi, rfl⟩

theorem pairwise (h : f.Consecutive context first) : (f.values context).Pairwise (· < ·) := by
  rw [h.values]
  exact List.pairwise_lt_range'

theorem standsAt (h : f.Consecutive context first) (hi : (f.values context)[i]? = some v) :
    f.StandsAt context v i where
  admits := h.admits v (List.mem_of_getElem? hi)
  position := Sorted.position?_eq_some h.pairwise hi
  value := hi
  sorted := h.pairwise.imp Nat.le_of_lt
  within w hw := (h.admits w hw).2

theorem mem_of_le (h : f.Consecutive context first) {w : Nat} (hi : (f.values context)[i]? = some v)
    (hw : w ∈ f.values context) {x : Nat} (hvx : v ≤ x) (hxw : x ≤ w) : x ∈ f.values context := by
  obtain ⟨j, hj⟩ := List.getElem?_of_mem hw
  obtain ⟨rfl, -⟩ := h.getElem?_iff.1 hi
  obtain ⟨rfl, hjl⟩ := h.getElem?_iff.1 hj
  have hx : (f.values context)[x - first]? = some x := h.getElem?_iff.2 ⟨by omega, by omega⟩
  exact List.mem_of_getElem? hx

/-- The value after the current one is at the next position, if the values go on. -/
theorem idxOf?_succ (h : f.Consecutive context first) (hi : (f.values context)[i]? = some v) :
    (f.values context).idxOf? (v + 1) = if i + 1 < (f.values context).length then some (i + 1) else none := by
  obtain ⟨rfl, -⟩ := h.getElem?_iff.1 hi
  split
  case isTrue hlt =>
    refine Sorted.idxOf?_eq_some_iff_getElem?.2 ⟨h.getElem?_iff.2 ⟨rfl, hlt⟩, fun j hj he => ?_⟩
    obtain ⟨hv, -⟩ := h.getElem?_iff.1 he
    omega
  case isFalse hge =>
    refine List.idxOf?_eq_none_iff.2 fun hmem => ?_
    obtain ⟨j, hj⟩ := List.getElem?_of_mem hmem
    obtain ⟨hv, hjl⟩ := h.getElem?_iff.1 hj
    omega

end Consecutive

theorem consecutive_of_range' {n : Nat} (h : f.values context = List.range' first n) :
    f.Consecutive context first where
  values := by rw [h, List.length_range']
  admits _ := admits_of_mem_values

theorem consecutive_of_interval {a b : Nat} (h : f.values context = interval a b) : f.Consecutive context a :=
  consecutive_of_range' h

end Field

/-! ## Dates with one offset -/

/-- The clocks are not changed on the local date: the calendar sees no change at its ends, or the offset is the
same at every time of it. -/
def Moment.KeepsOffset (m : Moment) : Prop :=
  m.zone.changesOnDay m.instant = false ∨
    ∀ u, m.zone.dayAt u = m.zone.dayAt m.instant → m.zone.shift u = m.zone.shift m.instant

namespace Zone

variable {z : Zone} {t : Int}

/-- Samples taken while a test holds are the samples before some number, and the test holds of them. -/
theorem exists_takeWhile_map_range {α : Type} (p : α → Bool) (g : Nat → α) (N : Nat) :
    ∃ n ≤ N, ((List.range N).map g).takeWhile p = (List.range n).map g ∧ ∀ i < n, p (g i) = true := by
  have hle : (((List.range N).map g).takeWhile p).length ≤ N := by
    simpa using (List.takeWhile_prefix p (l := (List.range N).map g)).length_le
  have heq : ((List.range N).map g).takeWhile p =
      (List.range (((List.range N).map g).takeWhile p).length).map g := by
    refine (List.prefix_iff_eq_take.1 (List.takeWhile_prefix p)).trans ?_
    rw [← List.map_take, List.take_range, Nat.min_eq_left hle]
  refine ⟨_, hle, heq, fun i hi => ?_⟩
  apply List.mem_takeWhile_imp (l := (List.range N).map g)
  rw [heq]
  exact List.mem_map_of_mem (List.mem_range.2 hi)

theorem map_range_eq_range' {g : Nat → Nat} {n : Nat} (h : ∀ i < n, g i = g 0 + i) :
    (List.range n).map g = List.range' (g 0) n := by
  rw [List.range'_eq_map_range]
  exact List.map_congr_left fun i hi => h i (List.mem_range.1 hi)

/-- The hours of a date with one offset. -/
theorem exists_hoursOfDay_eq {day s : Int} (h : ∀ u, z.dayAt u = day → z.shift u = s) :
    ∃ first n, z.hoursOfDay day = List.range' first n := by
  obtain ⟨n, -, heq, hday⟩ := exists_takeWhile_map_range (fun l => Clock.dayNumber l == day)
    (fun i : Nat => z.toLocal (z.startOfDay day + 3600 * i)) 73
  have hlocal (i : Nat) (hi : i < n) : z.toLocal (z.startOfDay day + 3600 * i) = z.startOfDay day + 3600 * i + s ∧
      Clock.dayNumber (z.startOfDay day + 3600 * i + s) = day := by
    have hd := beq_iff_eq.1 (hday i hi)
    have hl : z.toLocal (z.startOfDay day + 3600 * i) = z.startOfDay day + 3600 * i + s := by
      rw [toLocal, h _ hd]
    exact ⟨hl, hl ▸ hd⟩
  rw [hoursOfDay, heq, List.map_map]
  refine ⟨_, n, map_range_eq_range' fun i hi => ?_⟩
  obtain ⟨hl, hd⟩ := hlocal i hi
  obtain ⟨hl0, hd0⟩ := hlocal 0 (Nat.zero_lt_of_lt hi)
  simp only [Function.comp_apply, hl, hl0, Clock.hour_eq]
  simp only [Clock.dayNumber] at hd hd0
  omega

/-- Minutes of one hour with one offset count up. -/
theorem map_minute_eq_range' {a : Int} {n : Nat} (hn : n ≤ 60)
    (h : ∀ i < n, z.sameHour t (a + 60 * i) = true) :
    (List.range n).map (fun i : Nat => Clock.minute (z.toLocal (a + 60 * i))) =
      List.range' (Clock.minute (z.toLocal a)) n := by
  refine (map_range_eq_range' fun i hi => ?_).trans (by simp)
  obtain ⟨hh, hs⟩ := sameHour_iff.1 (h i hi)
  obtain ⟨hh0, hs0⟩ := sameHour_iff.1 (h 0 (Nat.zero_lt_of_lt hi))
  rw [← hh0] at hh
  simp only [Clock.hour_eq, Clock.minute_eq, toLocal, hs, hs0] at hh ⊢
  omega

theorem exists_minutesOfHour_eq (z : Zone) (t : Int) : ∃ first n, z.minutesOfHour t = List.range' first n := by
  obtain ⟨n, hn, heq, hsame⟩ :=
    exists_takeWhile_map_range (z.sameHour t) (fun i : Nat => z.firstMinute t + 60 * i) 60
  rw [minutesOfHour, heq, List.map_map]
  exact ⟨_, n, map_minute_eq_range' hn hsame⟩

end Zone

theorem Field.exists_consecutive {f : Field} {context : Option Moment} (h : ∀ m ∈ context, m.KeepsOffset) :
    ∃ first, f.Consecutive context first := by
  cases context with
  | none => exact ⟨f.lowest, consecutive_of_interval rfl⟩
  | some m =>
    obtain ⟨z, t⟩ := m
    cases hc : z.changesOnDay t with
    | false => exact ⟨f.lowest, consecutive_of_interval (values_of_unchanged hc)⟩
    | true =>
      have hone : ∀ u, z.dayAt u = z.dayAt t → z.shift u = z.shift t :=
        (h ⟨z, t⟩ rfl).resolve_left (by simp [hc])
      cases f with
      | dayOfMonth => exact ⟨1, consecutive_of_interval rfl⟩
      | hour =>
        obtain ⟨first, n, hrange⟩ := Zone.exists_hoursOfDay_eq hone
        exact ⟨first, consecutive_of_range' ((values_hour_of_seen hc).trans hrange)⟩
      | minute =>
        obtain ⟨first, n, hrange⟩ := z.exists_minutesOfHour_eq t
        exact ⟨first, consecutive_of_range' ((values_minute_of_seen hc).trans hrange)⟩
      | year | month | dayOfWeek | second => exact ⟨_, consecutive_of_interval rfl⟩

/-! ## Distances -/

namespace Base

variable {f : Field} {context : Option Moment} {first current here : Nat}

/-- From a value of a range the next value is one further, as long as the range and the calendar go on. -/
theorem target?_range_of_passes {a b : Nat} (h : (Base.range a b).Within f) (hk : f.AdmitsStep none)
    (hc : f.Consecutive context first) (hhere : (f.values context)[here]? = some current)
    (hpass : (Condition.constrained (.range a b) none h hk).passes current = true) :
    (target? (.range a b) none (f.values context) current here).filter (here < ·) =
      ((Condition.constrained (.range a b) none h hk).nextPassing? current).bind (f.values context).idxOf? := by
  have hin : between a b current = true := hpass
  obtain ⟨hac, hcb⟩ : a ≤ current ∧ current ≤ b := by simpa [between] using hin
  have hback : ((f.values context).idxOf? a).filter (here < ·) = none := by
    rw [Sorted.filter_idxOf? (hc.pairwise.imp Nat.le_of_lt) hhere, if_neg (Nat.not_lt.2 hac)]
  by_cases hnext : current + 1 ≤ b
  · have hn : (Condition.constrained (.range a b) none h hk).nextPassing? current = some (current + 1) := by
      refine Condition.nextPassing?_eq_some_iff.2 ⟨by omega, Nat.le_trans hnext h.2.2.2, ?_, by omega⟩
      simp [Condition.passes, between, hnext]
      omega
    rw [hn, Option.bind_some, hc.idxOf?_succ hhere]
    split
    case isTrue hlt =>
      have hsucc : (f.values context)[here + 1]? = some (current + 1) := by
        rw [hc.getElem?_iff] at hhere ⊢
        omega
      have hin' : between a b (current + 1) = true := by simp [between, hnext]; omega
      simp [target?, hin, hsucc, hin', Option.filter]
    case isFalse hge =>
      have hsucc : (f.values context)[here + 1]? = none := List.getElem?_eq_none (Nat.not_lt.1 hge)
      simp [target?, hsucc, hback]
  · have hn : (Condition.constrained (.range a b) none h hk).nextPassing? current = none := by
      refine Condition.nextPassing?_eq_none_iff.2 fun x hx _ => ?_
      simp [Condition.passes, between]
      omega
    have hout : (f.values context)[here + 1]?.any (between a b) = false := by
      cases hsucc : (f.values context)[here + 1]? with
      | none => rfl
      | some w =>
        rw [hc.getElem?_iff] at hhere hsucc
        simp [between]
        omega
    rw [hn, Option.bind_none, target?, hout, Bool.and_false, if_neg (by decide), hback]

/-- Among consecutive values every shape goes to the next value that passes, if the calendar has it. -/
theorem target?_ahead_of_consecutive {base : Base} {step : Option Nat} {h : base.Within f} {hk : f.AdmitsStep step}
    (hc : f.Consecutive context first) (hhere : (f.values context)[here]? = some current) :
    (target? base step (f.values context) current here).filter (here < ·) =
      ((Condition.constrained base step h hk).nextPassing? current).bind (f.values context).idxOf? := by
  have hs := hc.standsAt hhere
  match base, step with
  | .value _, none => exact target?_value h hk hs.sorted hhere
  | .value _, some _ => exact target?_value_step h hk hs.sorted hhere hs.within
  | .range _ _, some _ => exact target?_range_step h hk hs.sorted hhere
  | .range a b, none =>
    cases hpass : (Condition.constrained (.range a b) none h hk).passes current with
    | false => exact target?_range h hk hs.sorted hhere hpass
    | true => exact target?_range_of_passes h hk hc hhere hpass

end Base

namespace Condition

variable {f : Field} {c : Condition f} {context : Option Moment} {first current here : Nat}

theorem distance?_eq_of_consecutive (hc : f.Consecutive context first)
    (hhere : (f.values context)[here]? = some current) :
    c.distance? current context = some (c.landing context current - here) := by
  have hs := hc.standsAt hhere
  cases c with
  | constrained base step hw hk => exact distance?_of_target? hs (Base.target?_ahead_of_consecutive hc hhere)
  | wildcard =>
    have hlanding : (wildcard : Condition f).landing context current = here + 1 := by
      have hlt := hs.here_lt
      unfold landing
      by_cases hmore : here + 1 < (f.values context).length
      · have hsucc : (f.values context)[here + 1]? = some (current + 1) := by
          rw [hc.getElem?_iff] at hhere ⊢
          omega
        have hn : (wildcard : Condition f).nextPassing? current = some (current + 1) := by
          refine nextPassing?_eq_some_iff.2 ⟨by omega, ?_, rfl, by omega⟩
          exact hs.within _ (List.mem_of_getElem? hsucc)
        rw [hn, Option.bind_some, hc.idxOf?_succ hhere, if_pos hmore, Option.getD_some]
      · have hn : ((wildcard : Condition f).nextPassing? current).bind (f.values context).idxOf? = none := by
          refine Option.bind_eq_none_iff.2 fun w hw => List.idxOf?_eq_none_iff.2 fun hmem => ?_
          obtain ⟨j, hj⟩ := List.getElem?_of_mem hmem
          have hcw := (nextPassing?_eq_some_iff.1 hw).1
          rw [hc.getElem?_iff] at hhere hj
          omega
        rw [hn, Option.getD_none]
        omega
    rw [hlanding, Nat.add_sub_cancel_left]
    exact if_pos hs.admits

theorem passes_eq_false_of_lt_landing (hc : f.Consecutive context first)
    (hhere : (f.values context)[here]? = some current) {j v : Nat} (hj : here < j)
    (hjl : j < c.landing context current) (hv : (f.values context)[j]? = some v) : c.passes v = false := by
  rw [Bool.eq_false_iff]
  intro hpass
  have hcv : current < v := by
    rw [hc.getElem?_iff] at hhere hv
    omega
  refine Nat.not_le.2 hjl (landing_le (hc.standsAt hhere) hv hcv hpass fun w hw hwv => ?_)
  exact hc.mem_of_le hhere (List.mem_of_getElem? hv) (Nat.le_of_lt (nextPassing?_eq_some_iff.1 hw).1) hwv

theorem distance?_of_notMem (hwild : c ≠ .wildcard) (hmem : current ∉ f.values context) :
    c.distance? current context = none := by
  have hpos : f.position? context current = none := by
    unfold Field.position? Field.lastPosition?
    split
    · rw [List.idxOf?_eq_none_iff.2 (by simpa using hmem), Option.map_none]
    · exact List.idxOf?_eq_none_iff.2 hmem
  cases c with
  | wildcard => exact absurd rfl hwild
  | constrained base step hw hk =>
    simp only [distance?, hpos, Option.map_none, ite_self]

/-- On a date with one offset the distance from a value of the calendar leads to the next value that passes, or to
the end of the values. From any other value a constrained condition has no distance. -/
theorem distance?_spec (c : Condition f) (current : Nat) (context : Option Moment)
    (h : ∀ m ∈ context, m.KeepsOffset) :
    (∀ i, (f.values context)[i]? = some current →
      ∃ d, c.distance? current context = some d ∧ 1 ≤ d ∧ d ≤ (f.values context).length - i ∧
        (∀ j v, i < j → j < i + d → (f.values context)[j]? = some v → c.passes v = false) ∧
        ∀ v, (f.values context)[i + d]? = some v → c.passes v = true) ∧
    (c ≠ .wildcard → current ∉ f.values context → c.distance? current context = none) := by
  obtain ⟨first, hc⟩ := f.exists_consecutive h
  refine ⟨fun i hi => ?_, distance?_of_notMem⟩
  have hlt := here_lt_landing (c := c) (hc.standsAt hi)
  have hle := c.landing_le_length context current
  have hland : i + (c.landing context current - i) = c.landing context current := by omega
  refine ⟨_, distance?_eq_of_consecutive hc hi, by omega, by omega, ?_, ?_⟩
  · rw [hland]
    exact fun j v hij hj hv => passes_eq_false_of_lt_landing hc hi hij hj hv
  · rw [hland]
    intro v hv
    obtain ⟨hlen, -⟩ := List.getElem?_eq_some_iff.1 hv
    obtain ⟨w, -, hw, hpass⟩ := passes_landing hlen
    rw [hv] at hw
    cases hw
    exact hpass

end Condition
end Almanac
