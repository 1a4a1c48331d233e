import Almanac.Proofs.BrokenDates
import Almanac.Proofs.Counting
import Almanac.Proofs.DaySearch
/-!
# A pass in a date that is broken off

In the part of a date before the clocks are set back, the values of the fields of the time count up from
0, and a candidate that begins at midnight stays at the start of a unit of the field that is moved on. So
no refinement passes an occurrence.

- `Field.Lasts`: how long a value of a field of the time lasts.
- `Zone.BrokenOff.countsTo`: the values count up.
- `Schedule.search_of_brokenOff`: a pass from midnight ends with an occurrence in this part, if it has one.
-/
namespace Almanac

/-! ## Fields of the time -/

/-- A value of the field lasts `w` seconds, and the values begin again every `W` seconds. -/
def Field.Lasts (f : Field) (w W : Int) : Prop :=
  (f = .hour ∧ w = 3600 ∧ W = 86400) ∨ (f = .minute ∧ w = 60 ∧ W = 3600) ∨ (f = .second ∧ w = 1 ∧ W = 60)

theorem Field.exists_lasts {f : Field} (h : Field.hour.index ≤ f.index) : ∃ w W, f.Lasts w W := by
  cases f with
  | hour => exact ⟨_, _, .inl ⟨rfl, rfl, rfl⟩⟩
  | minute => exact ⟨_, _, .inr (.inl ⟨rfl, rfl, rfl⟩)⟩
  | second => exact ⟨_, _, .inr (.inr ⟨rfl, rfl, rfl⟩)⟩
  | _ => exact absurd h (by decide)

theorem Field.countsTo_of_interval {f : Field} {context : Option Moment} {b k : Nat}
    (h : f.values context = interval 0 b) (hk : k ≤ b + 1) : f.CountsTo context k where
  value i hi := by
    rw [h, getElem?_interval]
    omega
  within v hv := (admits_of_mem_values hv).2

/-- Samples taken while a test holds begin with those up to one before which it always holds. -/
theorem getElem?_takeWhile_map_range {α : Type} {p : α → Bool} {g : Nat → α} {i N : Nat} (hi : i < N)
    (hp : ∀ j, j ≤ i → p (g j) = true) : (((List.range N).map g).takeWhile p)[i]? = some (g i) := by
  obtain ⟨k, rfl⟩ := Nat.exists_eq_add_of_le (Nat.succ_le_of_lt hi)
  rw [List.range_add, List.map_append, List.takeWhile_append_of_pos, List.getElem?_append_left]
  · simp
  · simp
  · intro x hx
    obtain ⟨j, hj, rfl⟩ := List.mem_map.1 hx
    exact hp j (Nat.lt_succ_iff.1 (List.mem_range.1 hj))

namespace Zone.BrokenOff

variable {z : Zone} {f : Field} {T B u t v w W : Int} {i j d : Nat}

theorem dayAt_eq (h : z.BrokenOff T B u) (hut : u ≤ t) (htT : t < T) : z.dayAt t = B := by
  have := h.toLocal_eq t hut htT
  have := h.short
  simp only [dayAt, Clock.dayNumber]
  omega

theorem shift_eq (h : z.BrokenOff T B u) (hut : u ≤ t) (htT : t < T) : z.shift t = 86400 * B - u := by
  have := h.toLocal_eq t hut htT
  rw [toLocal] at this
  omega

/-- No time of the date has been shown before. -/
theorem isRepeat_eq_false (h : z.BrokenOff T B u) (hut : u ≤ t) (htT : t < T) : z.isRepeat t = false := by
  rw [Bool.eq_false_iff]
  intro hr
  obtain ⟨v, hv, hl⟩ := isRepeat_iff.1 hr
  have ht := h.toLocal_eq t hut htT
  by_cases huv : u ≤ v
  · have := h.toLocal_eq v huv (by omega)
    omega
  · have := h.first v (by omega)
    omega

theorem ofLocal_eq (h : z.BrokenOff T B u) (hf : f.Lasts w W) (hut : u ≤ t) (htT : t < T) :
    (f.ofLocal (z.toLocal t) : Int) = (t - u) % W / w := by
  have hl := h.toLocal_eq t hut htT
  rcases hf with ⟨rfl, rfl, rfl⟩ | ⟨rfl, rfl, rfl⟩ | ⟨rfl, rfl, rfl⟩
  · rw [Field.ofLocal, Clock.hour_eq]
    omega
  · rw [Field.ofLocal, Clock.minute_eq]
    omega
  · rw [Field.ofLocal, Clock.second_eq]
    omega

/-- From the start of a unit a field is moved on by whole units. -/
theorem moveOn?_eq (h : z.BrokenOff T B u) (hf : f.Lasts w W) (hut : u ≤ t) (hstart : (t - u) % w = 0)
    (hT : t + w * d < T) (hend : T ≤ Clock.lastInstant) : z.moveOn? t f d = some (t + w * d) := by
  have hw : 0 ≤ w * d := by rcases hf with ⟨-, rfl, -⟩ | ⟨-, rfl, -⟩ | ⟨-, rfl, -⟩ <;> omega
  have hl := h.toLocal_eq (t + w * d) (by omega) hT
  have hin : Clock.within? (t + w * d) = some (t + w * d) :=
    Clock.within?_eq_some_iff.2 ⟨by omega, rfl⟩
  rcases hf with ⟨rfl, rfl, rfl⟩ | ⟨rfl, rfl, rfl⟩ | ⟨rfl, rfl, rfl⟩
  · have hfull : t + 3600 * d - z.toLocal (t + 3600 * d) % 3600 = t + 3600 * d := by omega
    rw [moveOn?, hin, Option.map_some, hourStart_of_unchanged (by rw [hfull]), hfull]
  · rw [moveOn?, hin, Option.map_some, minuteStart_eq_sub]
    congr 1
    omega
  · rw [moveOn?, ← hin, Int.one_mul]

/-- The walk back within an hour ends at the full hour. -/
theorem firstMinute_eq (h : z.BrokenOff T B u) (hut : u ≤ t) (htT : t < T) :
    z.firstMinute t = t - (t - u) % 3600 := by
  have hl := h.toLocal_eq t hut htT
  rw [firstMinute_of_unchanged fun v hv hvt => ?_]
  · omega
  · rw [h.shift_eq (by omega) (by omega), h.shift_eq hut htT]

theorem getElem?_hoursOfDay (h : z.BrokenOff T B u) (hi : i < 24) (hT : u + 3600 * i < T) :
    (z.hoursOfDay B)[i]? = some i := by
  have hshort := h.short
  rw [hoursOfDay, List.getElem?_map, h.start,
    getElem?_takeWhile_map_range (show i < 73 by omega) fun j hj => ?_, Option.map_some]
  · rw [h.toLocal_eq _ (by omega) hT, Clock.hour_eq]
    congr 1
    omega
  · rw [beq_iff_eq, h.toLocal_eq _ (by omega) (by omega), Clock.dayNumber]
    omega

theorem getElem?_minutesOfHour (h : z.BrokenOff T B u) (hut : u ≤ t) (htT : t < T) (hi : i < 60)
    (hT : t - (t - u) % 3600 + 60 * i < T) : (z.minutesOfHour t)[i]? = some i := by
  have hl := h.toLocal_eq t hut htT
  rw [minutesOfHour, List.getElem?_map, h.firstMinute_eq hut htT,
    getElem?_takeWhile_map_range hi fun j hj => ?_, Option.map_some]
  · rw [h.toLocal_eq _ (by omega) hT, Clock.minute_eq]
    congr 1
    omega
  · refine sameHour_iff.2 ⟨?_, ?_⟩
    · rw [h.toLocal_eq _ (by omega) (by omega), hl, Clock.hour_eq, Clock.hour_eq]
      omega
    · rw [h.shift_eq (by omega) (by omega), h.shift_eq hut htT]

/-- The values of a field count up as far as they are shown before `T`. -/
theorem countsTo (h : z.BrokenOff T B u) (hf : f.Lasts w W) (hut : u ≤ t) (htT : t < T)
    (hj : w * j < W) (hT : t - (t - u) % W + w * j < T) : f.CountsTo (some ⟨z, t⟩) (j + 1) := by
  have hshort := h.short
  cases hc : z.changesOnDay t with
  | false =>
    have hvalues := Field.values_of_unchanged (f := f) hc
    rcases hf with ⟨rfl, rfl, rfl⟩ | ⟨rfl, rfl, rfl⟩ | ⟨rfl, rfl, rfl⟩
    all_goals
      exact Field.countsTo_of_interval hvalues (by simp only [Field.lastValue, Field.highest]; omega)
  | true =>
    rcases hf with ⟨rfl, rfl, rfl⟩ | ⟨rfl, rfl, rfl⟩ | ⟨rfl, rfl, rfl⟩
    · have hvalues : Field.hour.values (some ⟨z, t⟩) = z.hoursOfDay B := by
        rw [Field.values_hour_of_seen hc, h.dayAt_eq hut htT]
      refine ⟨fun i hi => ?_, fun v hv => (Field.admits_of_mem_values hv).2⟩
      rw [hvalues]
      exact h.getElem?_hoursOfDay (by omega) (by omega)
    · have hvalues := Field.values_minute_of_seen hc
      refine ⟨fun i hi => ?_, fun v hv => (Field.admits_of_mem_values hv).2⟩
      rw [hvalues]
      exact h.getElem?_minutesOfHour hut htT (by omega) (by omega)
    · exact Field.countsTo_of_interval (b := 59) rfl (by omega)

/-- A value is found where it counts. -/
theorem position?_eq (h : z.BrokenOff T B u) (hf : f.Lasts w W) (hut : u ≤ t) (htT : t < T) :
    f.position? (some ⟨z, t⟩) (f.ofLocal (z.toLocal t)) = some (f.ofLocal (z.toLocal t)) := by
  have hv := h.ofLocal_eq hf hut htT
  have hcounts : f.CountsTo (some ⟨z, t⟩) (f.ofLocal (z.toLocal t) + 1) := by
    rcases id hf with ⟨-, rfl, rfl⟩ | ⟨-, rfl, rfl⟩ | ⟨-, rfl, rfl⟩
    all_goals exact h.countsTo hf hut htT (by omega) (by omega)
  rw [Field.position?, if_neg (by simp [h.isRepeat_eq_false hut htT])]
  exact hcounts.idxOf? (Nat.lt_succ_self _)

/-- No hour has more than sixty minutes, and no minute more than sixty seconds. -/
theorem length_values_le (hf : f.Lasts w W) (hne : f ≠ .hour) :
    w * (f.values (some ⟨z, t⟩)).length ≤ W := by
  rcases hf with ⟨rfl, -, -⟩ | ⟨rfl, rfl, rfl⟩ | ⟨rfl, rfl, rfl⟩
  · exact absurd rfl hne
  · cases hc : z.changesOnDay t with
    | false =>
      have hvalues : Field.minute.values (some ⟨z, t⟩) = Field.interval 0 59 := Field.values_of_unchanged hc
      rw [hvalues, Field.length_interval]
      omega
    | true =>
      have hlen : (z.minutesOfHour t).length ≤ 60 := by
        rw [minutesOfHour, List.length_map]
        exact Nat.le_trans (List.takeWhile_sublist _).length_le (by simp)
      rw [Field.values_minute_of_seen hc]
      omega
  · have hvalues : Field.second.values (some ⟨z, t⟩) = Field.interval 0 59 := rfl
    rw [hvalues, Field.length_interval]
    omega

end Zone.BrokenOff

/-! ## The pass -/

namespace Schedule

variable {s : Schedule} {f g : Field} {T B u t v m w W : Int} {d : Nat}

theorem passesAt_of_unit (h : s.zone.BrokenOff T B u) (hf : f.Lasts w W) (hut : u ≤ t) (htT : t < T)
    (huv : u ≤ v) (hvT : v < T) (hunit : (v - u) / w = (t - u) / w) (hp : s.PassesAt f t) : s.PassesAt f v := by
  have ht := h.ofLocal_eq hf hut htT
  have hv := h.ofLocal_eq hf huv hvT
  have heq : f.ofLocal (s.zone.toLocal v) = f.ofLocal (s.zone.toLocal t) := by
    rcases hf with ⟨-, rfl, rfl⟩ | ⟨-, rfl, rfl⟩ | ⟨-, rfl, rfl⟩ <;> omega
  rw [PassesAt, heq]
  exact hp

/-- From the start of a unit the shortest distance does not pass an instant at which the field passes, nor
the instant at which its values begin again. -/
theorem exists_distance?_le (h : s.zone.BrokenOff T B u) (hf : f.Lasts w W) (hut : u ≤ t) (htm : t ≤ m)
    (hmT : m < T) (hstart : (t - u) % w = 0) (hfail : ¬ s.PassesAt f t) (hm : s.PassesAt f m) :
    ∃ d, s.distance? t f = some d ∧ t + w * d ≤ m ∧ t + w * d - u ≤ W * ((t - u) / W + 1) := by
  have hshort := h.short
  have hne : f ≠ .year := by rcases hf with ⟨rfl, -⟩ | ⟨rfl, -⟩ | ⟨rfl, -⟩ <;> decide
  have hadm := Field.admits_ofLocal hne (s.zone.toLocal t)
  have hpos := h.position?_eq hf hut (show t < T by omega)
  have ht := h.ofLocal_eq hf hut (show t < T by omega)
  have hv := h.ofLocal_eq hf (show u ≤ m by omega) hmT
  obtain ⟨d, hd, hlen, hleast⟩ := exists_distance?_of_position hadm hpos hfail
  refine ⟨d, hd, ?_⟩
  by_cases hsame : (m - u) / W = (t - u) / W
  · have hlt : f.ofLocal (s.zone.toLocal t) < f.ofLocal (s.zone.toLocal m) := by
      have hdiff : f.ofLocal (s.zone.toLocal t) ≠ f.ofLocal (s.zone.toLocal m) := fun he =>
        hfail (by rw [PassesAt, he]; exact hm)
      rcases hf with ⟨-, rfl, rfl⟩ | ⟨-, rfl, rfl⟩ | ⟨-, rfl, rfl⟩ <;> omega
    have hcounts : f.CountsTo (s.context t) (f.ofLocal (s.zone.toLocal m) + 1) := by
      rcases id hf with ⟨-, rfl, rfl⟩ | ⟨-, rfl, rfl⟩ | ⟨-, rfl, rfl⟩
      all_goals exact h.countsTo hf hut (by omega) (by omega) (by omega)
    obtain ⟨C, hC, hCm⟩ := passes_iff.1 hm
    obtain ⟨d', hd', hle⟩ := Condition.distance?_le_of_counts hcounts hadm hpos (condition_fails hfail hC) hlt
      (Nat.lt_succ_self _) hCm
    have := hleast C hC d' hd'
    rcases hf with ⟨-, rfl, rfl⟩ | ⟨-, rfl, rfl⟩ | ⟨-, rfl, rfl⟩ <;> omega
  · have hhour : f ≠ .hour := by
      rintro rfl
      rcases hf with ⟨-, rfl, rfl⟩ | ⟨hc, -⟩ | ⟨hc, -⟩
      · omega
      · cases hc
      · cases hc
    have hle : w * (f.values (s.context t)).length ≤ W := Zone.BrokenOff.length_values_le hf hhour
    rcases hf with ⟨-, rfl, rfl⟩ | ⟨-, rfl, rfl⟩ | ⟨-, rfl, rfl⟩ <;> omega

/-- The candidate stands at the start of a unit of the field that is to be moved on. -/
def AtUnitStart (s : Schedule) (u t : Int) : Prop :=
  ∀ f w W, f.Lasts w W → s.FirstFailing t f → (t - u) % w = 0

/-- Minutes to go to `m`, and one look more unless the candidate occurs. -/
def looksLeft (s : Schedule) (u m t : Int) : Nat :=
  ((m - u) / 60 - (t - u) / 60).toNat + if s.Occurs t then 0 else 1

/-- After a refinement a field that is coarser and passed passes still, or the candidate stands at the
start of one of its units. -/
theorem atUnitStart_of_refinement (h : s.zone.BrokenOff T B u) (hf : f.Lasts w W) (hut : u ≤ t)
    (hvT : t + w * d < T) (hfirst : s.FirstFailing t f) (hstart : (t - u) % w = 0)
    (hW : t + w * d - u ≤ W * ((t - u) / W + 1)) : s.AtUnitStart u (t + w * d) := by
  intro g w' W' hg hfirst'
  have hwd : 0 ≤ w * d := by rcases hf with ⟨-, rfl, -⟩ | ⟨-, rfl, -⟩ | ⟨-, rfl, -⟩ <;> omega
  by_cases hcoarse : g.index < f.index
  · have hpass := hfirst.coarser g hcoarse
    have hunit : (t + w * d - u) / w' ≠ (t - u) / w' := fun he =>
      hfirst'.fails (passesAt_of_unit h hg hut (by omega) (by omega) hvT he hpass)
    rcases hf with ⟨rfl, rfl, rfl⟩ | ⟨rfl, rfl, rfl⟩ | ⟨rfl, rfl, rfl⟩ <;>
      rcases hg with ⟨rfl, rfl, rfl⟩ | ⟨rfl, rfl, rfl⟩ | ⟨rfl, rfl, rfl⟩ <;>
        first | exact absurd hcoarse (by decide) | omega
  · rcases hf with ⟨rfl, rfl, rfl⟩ | ⟨rfl, rfl, rfl⟩ | ⟨rfl, rfl, rfl⟩ <;>
      rcases hg with ⟨rfl, rfl, rfl⟩ | ⟨rfl, rfl, rfl⟩ | ⟨rfl, rfl, rfl⟩ <;>
        first | exact absurd (by decide) hcoarse | omega

/-- Where something occurs before `T`, a candidate before it has a refinement that does not pass it. -/
theorem exists_refinement_of_brokenOff (h : s.zone.BrokenOff T B u) (hend : T ≤ Clock.lastInstant)
    (hmT : m < T) (hom : s.Occurs m) (ht : u ≤ t ∧ t ≤ m ∧ s.AtUnitStart u t) (ho : ¬ s.Occurs t) :
    ∃ f d v, s.Refines t f d v ∧ (u ≤ v ∧ v ≤ m ∧ s.AtUnitStart u v) ∧
      s.looksLeft u m v < s.looksLeft u m t := by
  obtain ⟨hut, htm, hstart⟩ := ht
  obtain ⟨f, hfirst⟩ := exists_firstFailing ho
  have hindex := hfirst.hour_le_index (h.dayAt_eq hut (by omega)) (h.dayAt_eq (by omega) hmT) hom
  obtain ⟨w, W, hf⟩ := Field.exists_lasts hindex
  obtain ⟨d, hd, hle, hW⟩ := exists_distance?_le h hf hut htm hmT (hstart f w W hf hfirst) hfirst.fails (hom f)
  have hpos := distance?_pos hd
  have hvT : t + w * d < T := by omega
  have hv : u ≤ t + w * d := by rcases hf with ⟨-, rfl, -⟩ | ⟨-, rfl, -⟩ | ⟨-, rfl, -⟩ <;> omega
  refine ⟨f, d, t + w * d, ⟨hfirst, hd, h.moveOn?_eq hf hut (hstart f w W hf hfirst) hvT hend⟩,
    ⟨hv, hle, atUnitStart_of_refinement h hf hut hvT hfirst (hstart f w W hf hfirst) hW⟩, ?_⟩
  rw [looksLeft, looksLeft, if_neg ho]
  by_cases hsame : (t + w * d - u) / 60 = (t - u) / 60
  -- within a minute the second is moved on to one that passes
  · rcases hf with ⟨-, rfl, -⟩ | ⟨-, rfl, -⟩ | ⟨rfl, rfl, -⟩
    · omega
    · omega
    · have hl := h.toLocal_eq t hut (by omega)
      have hl' := h.toLocal_eq (t + d) (by omega) (by omega)
      rw [Int.one_mul] at hsame ⊢
      rw [if_pos (occurs_of_second_in_minute hfirst hd (by omega) (by omega))]
      omega
  · have : (t - u) / 60 < (t + w * d - u) / 60 := by
      rcases hf with ⟨-, rfl, -⟩ | ⟨-, rfl, -⟩ | ⟨-, rfl, -⟩ <;> omega
    split <;> omega

/-- A pass from the start of the date ends with an occurrence no later than any before `T`. A date has 1440
minutes, so so many looks and two more are enough. -/
theorem search_of_brokenOff (h : s.zone.BrokenOff T B u) (hend : T ≤ Clock.lastInstant) (hum : u ≤ m)
    (hmT : m < T) (hom : s.Occurs m) {limit left : Nat} (hleft : 1441 < left) :
    ∃ m', s.searchFrom limit left u = .ok (some m') ∧ m' ≤ m := by
  have hshort := h.short
  have hstart : s.AtUnitStart u u := fun _ _ _ _ _ => by simp
  have hlooks : s.looksLeft u m u < left := by
    rw [looksLeft]
    split <;> omega
  obtain ⟨m', hm', ⟨-, hle, -⟩, -⟩ : ∃ m', s.searchFrom limit left u = .ok (some m') ∧
      (u ≤ m' ∧ m' ≤ m ∧ s.AtUnitStart u m') ∧ s.Occurs m' :=
    searchFrom_settles (P := fun t => u ≤ t ∧ t ≤ m ∧ s.AtUnitStart u t)
      (fun t ht ho => exists_refinement_of_brokenOff h hend hmT hom ht ho) ⟨Int.le_refl u, hum, hstart⟩ hlooks
  exact ⟨m', hm', hle⟩

end Schedule
end Almanac
