import Mathlib.Data.List.Chain
import Almanac.Proofs.Changes
/-!
# Dates that are broken off

The clocks may be set back across midnight, to a date that has ended. The date that they are set back
from is broken off then, and begins a second time later. Where changes are two days apart, the part of
it that is shown before is one stretch with one offset, which begins at midnight.

- `Zone.BrokenOff`: the shape of such a date.
- `Zone.BackFrom.brokenOff`: every date that the clocks are set back from has this shape.
- `Zone.BackFrom.dayAt_eq`: what they show afterwards, until the date begins again.
-/
namespace Almanac.Zone

variable {z : Zone} {T B t u v l : Int}

/-- No change sets the clocks back by more than so many seconds. -/
def SetBackAtMost (z : Zone) (most : Int) : Prop := ∀ t, z.shift (t - 1) ≤ z.shift t + most

/-- The date begins at `u` with its first midnight, and from there on the clocks run up to `T` without a
change of the offset. -/
structure BrokenOff (z : Zone) (T B u : Int) : Prop where
  start : z.startOfDay B = u
  begins : u < T
  short : T ≤ u + 86400
  toLocal_eq : ∀ t, u ≤ t → t < T → z.toLocal t = 86400 * B + (t - u)
  first : ∀ t, t < u → z.toLocal t < 86400 * B

/-! ## Bounds -/

theorem toLocal_bounds (z : Zone) (t : Int) : t - 86400 < z.toLocal t ∧ z.toLocal t < t + 86400 := by
  have := z.shift_bounds t
  rw [toLocal]
  omega

theorem toInstant_bounds (z : Zone) (l : Int) : l - 86400 < z.toInstant l ∧ z.toInstant l < l + 86400 := by
  by_cases hl : ∃ t, z.toLocal t = l
  · obtain ⟨t, ht⟩ := hl
    have hx := (toInstant_of_shown ht).1
    have := z.toLocal_bounds (z.toInstant l)
    omega
  · rw [toInstant, toInstant?_eq_none_iff.2 fun t ht => hl ⟨t, ht⟩, Option.getD_none]
    have := z.shift_bounds (l - 86400)
    omega

/-- Without a change in between, the local time runs with the instant. -/
theorem toLocal_of_unchanged (htu : t ≤ u) (h : ∀ v, t < v → v ≤ u → ¬ z.ChangesAt v) :
    z.toLocal u = z.toLocal t + (u - t) := by
  have := shift_eq_of_unchanged htu h
  simp only [toLocal]
  omega

/-- The local time goes back, or runs ahead, at a change only. -/
theorem changesAt_of_toLocal (h : z.toLocal T ≠ z.toLocal (T - 1) + 1) : z.ChangesAt T := fun he => by
  simp only [toLocal, he] at h
  omega

theorem changesAt_of_dayAt (h : z.dayAt T < z.dayAt (T - 1)) : z.ChangesAt T := by
  refine changesAt_of_toLocal fun he => ?_
  simp only [dayAt, Clock.dayNumber] at h
  omega

theorem SpacedBy.mono {gap gap' : Int} (h : z.SpacedBy gap) (hle : gap' ≤ gap) : z.SpacedBy gap' :=
  fun t u ht hu htu => by
    have := h t u ht hu htu
    omega

/-- In a list without two transitions at once it is enough that neighbours are far apart. -/
theorem spacedBy_of_isChain_of_mem {gap : Int} (hgap : 0 ≤ gap) {ts : List Transition}
    (h : ts.IsChain fun c c' => c.instant + gap ≤ c'.instant) (hmem : ∀ c ∈ z.transitions, c ∈ ts) :
    z.SpacedBy gap := by
  have htrans : IsTrans Transition fun c c' => c.instant + gap ≤ c'.instant := ⟨fun _ _ _ h h' => by omega⟩
  have hpair := List.isChain_iff_pairwise.1 h
  refine spacedBy_of_transitions fun c hc c' hc' hlt => ?_
  obtain ⟨i, hi, rfl⟩ := List.getElem_of_mem (hmem c hc)
  obtain ⟨j, hj, rfl⟩ := List.getElem_of_mem (hmem c' hc')
  rcases Nat.lt_trichotomy i j with hij | rfl | hij
  · exact List.pairwise_iff_getElem.1 hpair i j hi hj hij
  · omega
  · have := List.pairwise_iff_getElem.1 hpair j i hj hi hij
    omega

theorem spacedBy_of_isChain {gap : Int} (hgap : 0 ≤ gap)
    (h : z.transitions.IsChain fun c c' => c.instant + gap ≤ c'.instant) : z.SpacedBy gap :=
  spacedBy_of_isChain_of_mem hgap h fun _ hc => hc

/-- The offset in force is that of the beginning or of a transition. -/
theorem offsetAt_cases (z : Zone) (t : Int) :
    z.offsetAt t = z.initial ∨ ∃ c ∈ z.transitions, z.offsetAt t = c.offset := by
  have key (start : Offset) (ts : List Transition) :
      offsetAfter start ts t = start ∨ ∃ c ∈ ts, offsetAfter start ts t = c.offset := by
    induction ts generalizing start with
    | nil => exact .inl rfl
    | cons c cs ih =>
      rw [offsetAfter]
      split
      · rcases ih c.offset with he | ⟨d, hd, he⟩
        · exact .inr ⟨c, List.mem_cons_self, he⟩
        · exact .inr ⟨d, List.mem_cons_of_mem _ hd, he⟩
      · exact .inl rfl
  exact key z.initial z.transitions

/-- What holds of all offsets of a zone holds at every instant. -/
theorem shift_of_offsets {p : Int → Prop} (hinitial : p z.initial.seconds)
    (h : ∀ c ∈ z.transitions, p c.offset.seconds) (t : Int) : p (z.shift t) := by
  rw [shift]
  rcases z.offsetAt_cases t with he | ⟨c, hc, he⟩
  · rw [he]
    exact hinitial
  · rw [he]
    exact h c hc

/-- No change is larger than the range of the offsets. -/
theorem setBackAtMost_of_offsets {a b most : Int} (hmost : b - a ≤ most)
    (hinitial : a ≤ z.initial.seconds ∧ z.initial.seconds ≤ b)
    (h : ∀ c ∈ z.transitions, a ≤ c.offset.seconds ∧ c.offset.seconds ≤ b) : z.SetBackAtMost most := by
  have hrange := shift_of_offsets (p := fun s => a ≤ s ∧ s ≤ b) hinitial h
  intro t
  have h1 := hrange (t - 1)
  have h2 := hrange t
  omega

/-! ## The date that the clocks are set back from -/

/-- At `T` the clocks are set back from the date `B`, by a day at most, and two days lie between changes. -/
structure BackFrom (z : Zone) (T B : Int) : Prop where
  spaced : z.SpacedBy 172800
  most : z.SetBackAtMost 86400
  before : B ≤ z.dayAt (T - 1)
  after : z.dayAt T < B

namespace BackFrom

theorem toLocal_bounds (h : z.BackFrom T B) : 86400 * B - 86400 ≤ z.toLocal T ∧ z.toLocal T < 86400 * B ∧
    86400 * B ≤ z.toLocal (T - 1) ∧ z.toLocal (T - 1) < 86400 * B + 86400 := by
  have hmost := h.most T
  have hbefore := h.before
  have hafter := h.after
  simp only [dayAt, Clock.dayNumber, toLocal] at hbefore hafter ⊢
  omega

theorem changesAt (h : z.BackFrom T B) : z.ChangesAt T :=
  changesAt_of_dayAt (Int.lt_of_lt_of_le h.after h.before)

/-- Since the start of the date nothing has changed. -/
theorem unchanged (h : z.BackFrom T B) (hv : z.startOfDay B < v) (hvT : v < T) : ¬ z.ChangesAt v := fun hch => by
  obtain ⟨-, -, -, hlate⟩ := h.toLocal_bounds
  have hTv := h.spaced v T hch h.changesAt hvT
  have hstart := z.toInstant_bounds (Clock.midnight B)
  have hmidnight := le_toLocal_toInstant h.spaced (Clock.midnight B)
  have hfar := z.toLocal_bounds (T - 1)
  simp only [startOfDay, Clock.midnight] at hv hstart hmidnight
  -- a third change would be too far off
  have hafter : z.toLocal (T - 1) = z.toLocal v + (T - 1 - v) :=
    toLocal_of_unchanged (by omega) fun w hw hwT hch' => by
      have := h.spaced w T hch' h.changesAt (by omega)
      have := h.spaced v w hch hch' hw
      omega
  have hbefore : z.toLocal (v - 1) = z.toLocal (z.toInstant (B * 86400)) + (v - 1 - z.toInstant (B * 86400)) :=
    toLocal_of_unchanged (by omega) fun w hw hwv hch' => by
      have := h.spaced w v hch' hch (by omega)
      omega
  have hmost := h.most v
  simp only [toLocal] at *
  omega

/-- The date begins at a midnight that is shown, as a gap over it would be too close to `T`. -/
theorem toLocal_startOfDay (h : z.BackFrom T B) (hu : z.startOfDay B < T) :
    z.toLocal (z.startOfDay B) = 86400 * B := by
  obtain ⟨-, -, -, hlate⟩ := h.toLocal_bounds
  by_cases hl : ∃ t, z.toLocal t = Clock.midnight B
  · obtain ⟨t, ht⟩ := hl
    rw [startOfDay, (toInstant_of_shown ht).1, Clock.midnight, Int.mul_comm]
  · obtain ⟨T', hT', -, hgap, hle, -⟩ := toInstant_of_gap h.spaced fun t ht => hl ⟨t, ht⟩
    rw [← startOfDay] at hle
    have hstart := z.toInstant_bounds (Clock.midnight B)
    rw [← startOfDay] at hstart
    have hlin : z.toLocal (T - 1) = z.toLocal T' + (T - 1 - T') :=
      toLocal_of_unchanged (by omega) fun w hw hwT hch => by
        by_cases hwu : z.startOfDay B < w
        · exact h.unchanged hwu (by omega) hch
        · have := h.spaced T' w hT' hch hw
          have := z.shift_bounds T'
          omega
    have := h.spaced T' T hT' h.changesAt (by omega)
    simp only [toLocal, Clock.midnight] at *
    omega

theorem brokenOff (h : z.BackFrom T B) (hu : z.startOfDay B < T) : z.BrokenOff T B (z.startOfDay B) := by
  obtain ⟨-, -, -, hlate⟩ := h.toLocal_bounds
  have hmidnight := h.toLocal_startOfDay hu
  have hlin (t : Int) (ht : z.startOfDay B ≤ t) (htT : t < T) :
      z.toLocal t = 86400 * B + (t - z.startOfDay B) := by
    rw [← hmidnight]
    exact toLocal_of_unchanged ht fun v hv hvt => h.unchanged hv (by omega)
  refine ⟨rfl, hu, ?_, hlin, fun t ht => Int.not_le.1 fun hle => ?_⟩
  · have := hlin (T - 1) (by omega) (by omega)
    omega
  -- midnight would have been jumped over, two changes before `T`
  · have ht' := z.toLocal_bounds t
    obtain ⟨T', hlo, hT't, hbefore, hafter⟩ := exists_crossing (p := fun v => z.toLocal v < 86400 * B)
      (show 86400 * B - 172800 ≤ t by omega)
      (by have := z.toLocal_bounds (86400 * B - 172800); omega) (by omega)
    have hshown : z.toLocal T' ≠ 86400 * B := fun he => by
      have hm : z.toLocal T' = Clock.midnight B := by rw [he, Clock.midnight, Int.mul_comm]
      have := (toInstant_of_shown hm).2 T' hm
      rw [← startOfDay] at this
      omega
    have hch : z.ChangesAt T' := changesAt_of_toLocal (by omega)
    obtain ⟨v, hv, hvu, hch'⟩ : ∃ v, T' < v ∧ v ≤ z.startOfDay B ∧ z.ChangesAt v := by
      by_contra hno
      have := toLocal_of_unchanged (t := T') (u := z.startOfDay B) (by omega)
        fun v hv hvu hch' => hno ⟨v, hv, hvu, hch'⟩
      omega
    have := h.spaced T' v hch hch' hv
    have := h.spaced v T hch' h.changesAt (by omega)
    have := z.toLocal_bounds T'
    have := z.toLocal_bounds (T - 1)
    omega

/-- From then on the clocks show the date before `B`, until `B` begins again. -/
theorem dayAt_eq (h : z.BackFrom T B) (hu : z.startOfDay B < T) (ht : z.dayAt t < B) (hTv : T ≤ v)
    (hvt : v ≤ t) : z.dayAt v = B - 1 := by
  have hstart := z.toInstant_bounds (Clock.midnight B)
  rw [← startOfDay] at hstart
  have hbounds := h.toLocal_bounds
  have hend := z.toLocal_bounds t
  simp only [dayAt, Clock.dayNumber, Clock.midnight] at ht hstart ⊢
  have hlin (v : Int) (hTv : T ≤ v) (hvt : v ≤ t) : z.toLocal v = z.toLocal T + (v - T) :=
    toLocal_of_unchanged hTv fun w hw hwv hch => by
      have := h.spaced T w h.changesAt hch hw
      omega
  have := hlin v hTv hvt
  have := hlin t (by omega) (Int.le_refl t)
  omega

end BackFrom

/-- A date that begins before the clocks are set back to an earlier one is the one they are set back from. -/
theorem backFrom_of_startOfDay (hs : z.SpacedBy 172800) (hb : z.SetBackAtMost 86400)
    (hT : z.dayAt T < z.dayAt (T - 1)) (hB : z.dayAt T < B) (hu : z.startOfDay B < T) : z.BackFrom T B := by
  refine ⟨hs, hb, Int.not_lt.1 fun hlt => ?_, hB⟩
  obtain ⟨v, huv, hvT, hbefore, hafter⟩ := exists_crossing (p := fun v => B ≤ z.dayAt v)
    (show z.startOfDay B ≤ T - 1 by omega) (le_dayAt_startOfDay hs B) (by omega)
  -- two days after an earlier change the clocks are past midnight of `B`
  have := hs v T (changesAt_of_dayAt (by omega)) (changesAt_of_dayAt hT) (by omega)
  have hstart := z.toInstant_bounds (Clock.midnight B)
  have hlate := z.toLocal_bounds (T - 1)
  simp only [startOfDay, Clock.midnight, dayAt, Clock.dayNumber] at *
  omega

end Almanac.Zone
