import Almanac.Proofs.DayHours
/-!
# A pass on a day around a change of one hour

On such a day the minutes of an hour and the seconds of a minute are complete, so refinements of
these fields do not pass the first occurrence. When those of the hour do not pass it either, the
pass ends with it.

- `Schedule.FirstOn`: the first occurrence on a date from a candidate on.
- `Schedule.sixtieth_le`: a refinement of the minutes or the seconds does not pass an occurrence.
- `Schedule.hour_le_of_shown`, `Schedule.hour_le_of_unchanged`: how far a refinement of the hour goes.
- `Schedule.search_eq_firstOn`: the pass ends with the first occurrence.
-/
namespace Almanac

/-! ## Minutes and seconds -/

/-- Sixty values of the field make up one of the next coarser field, and each lasts `w` seconds. -/
def Field.Sixtieth (f : Field) (w : Int) : Prop := (f = .minute ∧ w = 60) ∨ (f = .second ∧ w = 1)

open Almanac.Field (Sixtieth)

namespace Zone.ChangeDay

variable {z : Zone} {f : Field} {T before after D t u w : Int}

theorem ofLocal_sixtieth (h : z.ChangeDay T before after D) (hf : Sixtieth f w) (ht : z.dayAt t = D) :
    f.ofLocal (z.toLocal t) = (t / w % 60).toNat := by
  obtain ⟨hlo, hhi⟩ := h.near ht
  have hmod := h.toLocal_mod (t := t) (by omega) (by omega)
  rcases hf with ⟨rfl, rfl⟩ | ⟨rfl, rfl⟩
  · rw [Field.ofLocal, Clock.minute_eq]
    omega
  · rw [Field.ofLocal, Clock.second_eq]
    omega

theorem values_sixtieth (h : z.ChangeDay T before after D) (hf : Sixtieth f w) (ht : z.dayAt t = D) :
    f.values (some ⟨z, t⟩) = Field.interval 0 59 := by
  rcases hf with ⟨rfl, -⟩ | ⟨rfl, -⟩
  · exact h.values_minute ht
  · rfl

theorem standsAt_sixtieth (h : z.ChangeDay T before after D) (hf : Sixtieth f w) (ht : z.dayAt t = D) :
    f.StandsAt (some ⟨z, t⟩) (f.ofLocal (z.toLocal t)) (f.ofLocal (z.toLocal t)) := by
  have hv := h.values_sixtieth hf ht
  have hne : f ≠ .year := by rcases hf with ⟨rfl, -⟩ | ⟨rfl, -⟩ <;> decide
  have hhigh : f.highest = 59 := by rcases hf with ⟨rfl, -⟩ | ⟨rfl, -⟩ <;> rfl
  have hadm := Field.admits_ofLocal hne (z.toLocal t)
  exact Field.standsAt_of_interval hv hadm (Nat.zero_le _) (hhigh ▸ hadm.2)

end Zone.ChangeDay

namespace Schedule

variable {s : Schedule} {f : Field} {T before after D c t u m w : Int} {d : Nat}

/-- A refinement of the minutes or the seconds does not pass the end of the hour or the minute. -/
theorem sixtieth_le_end (h : s.zone.ChangeDay T before after D) (hf : Sixtieth f w)
    (ht : s.zone.dayAt t = D) (hfail : ¬ s.PassesAt f t) (hd : s.distance? t f = some d) :
    t / w % 60 + d ≤ 60 := by
  have hlen := distance?_le_length (h.standsAt_sixtieth hf ht : s.Stands t f _) hfail hd
  rw [h.values_sixtieth hf ht, Field.length_interval, h.ofLocal_sixtieth hf ht] at hlen
  rcases hf with ⟨-, rfl⟩ | ⟨-, rfl⟩ <;> omega

/-- Nor does it pass a value that passes. -/
theorem sixtieth_le (h : s.zone.ChangeDay T before after D) (hf : Sixtieth f w)
    (ht : s.zone.dayAt t = D) (hm : s.zone.dayAt m = D) (htm : t ≤ m) (hfail : ¬ s.PassesAt f t)
    (hpass : s.PassesAt f m) (hd : s.distance? t f = some d) : w * (t / w + d) ≤ m := by
  have hstands : s.Stands t f _ := h.standsAt_sixtieth hf ht
  have hvalues := h.values_sixtieth hf ht
  have hlen := sixtieth_le_end h hf ht hfail hd
  have ht' := h.ofLocal_sixtieth hf ht
  have hm' := h.ofLocal_sixtieth hf hm
  by_cases hsame : m / w / 60 = t / w / 60
  · have hne : f.ofLocal (s.zone.toLocal m) ≠ f.ofLocal (s.zone.toLocal t) := fun he =>
      hfail (by rw [PassesAt, ← he]; exact hpass)
    have hlt : f.ofLocal (s.zone.toLocal t) < f.ofLocal (s.zone.toLocal m) := by
      rcases hf with ⟨rfl, rfl⟩ | ⟨rfl, rfl⟩ <;> omega
    obtain ⟨C, hC, hCm⟩ := passes_iff.1 hpass
    have hle := distance?_le_of_passes hstands hfail hd (j := f.ofLocal (s.zone.toLocal m))
      (by rw [hvalues, Field.getElem?_interval]; omega) hlt hC hCm
      fun w hw hwm => by rw [hvalues, Field.mem_interval]; omega
    rcases hf with ⟨rfl, rfl⟩ | ⟨rfl, rfl⟩ <;> omega
  · rcases hf with ⟨rfl, rfl⟩ | ⟨rfl, rfl⟩ <;> omega

/-- A refinement of the seconds within a minute leads to an occurrence. -/
theorem occurs_of_second_in_minute (hf : s.FirstFailing t .second) (hd : s.distance? t .second = some d)
    (hlocal : s.zone.toLocal (t + d) = s.zone.toLocal t + d)
    (hsame : s.zone.toLocal (t + d) / 60 = s.zone.toLocal t / 60) : s.Occurs (t + d) := by
  have hadm (l : Int) : Field.second.Admits (Field.second.ofLocal l) := Field.admits_ofLocal (by decide) l
  have hstands : s.Stands t .second _ :=
    Field.standsAt_of_interval rfl (hadm _) (hadm _).1 (hadm _).2
  have hpass : s.PassesAt .second (t + d) := by
    refine passes_at_landing hstands hf.fails hd (Field.getElem?_interval.2 ⟨?_, (hadm _).2⟩)
    simp only [Field.ofLocal, Clock.second_eq, Field.lowest]
    omega
  intro g
  by_cases hg : g.index < Field.second.index
  · rw [PassesAt, Field.ofLocal_of_minute hg hsame]
    exact hf.coarser g hg
  · cases g with
    | second => exact hpass
    | _ => exact absurd (by decide) hg

theorem occurs_of_second (h : s.zone.ChangeDay T before after D) (ht : s.zone.dayAt t = D)
    (hf : s.FirstFailing t .second) (hd : s.distance? t .second = some d) (hsame : (t + d) / 60 = t / 60) :
    s.Occurs (t + d) := by
  obtain ⟨hlo, hhi⟩ := h.near ht
  have hmod := h.toLocal_mod (t := t) (by omega) (by omega)
  have hlocal : s.zone.toLocal (t + d) = s.zone.toLocal t + d := by
    rw [Zone.toLocal, h.shift_of_hour (t := t) (by omega) (by omega) (by omega), Zone.toLocal]
    omega
  exact occurs_of_second_in_minute hf hd hlocal (by omega)

/-! ## Refinements before the first occurrence -/

/-- The first occurrence on a date from a candidate on. -/
def FirstOn (s : Schedule) (D c m : Int) : Prop := IsLeast {v | c ≤ v ∧ s.zone.dayAt v = D ∧ s.Occurs v} m

/-- Where something occurs, something occurs first. -/
theorem exists_firstOn (hcu : c ≤ u) (hu : s.zone.dayAt u = D) (ho : s.Occurs u) : ∃ m, s.FirstOn D c m :=
  exists_isLeast_from hcu ⟨hu, ho⟩

theorem dayAt_of_between (h : s.zone.ChangeDay T before after D) (hc : s.zone.dayAt c = D)
    (hm : s.zone.dayAt m = D) (hct : c ≤ t) (htm : t ≤ m) : s.zone.dayAt t = D := by
  have := h.dayAt_eq_iff.1 hc
  have := h.dayAt_eq_iff.1 hm
  rw [h.dayAt_eq_iff]
  omega

/-- On the date of an occurrence all fields of the date pass. -/
theorem FirstFailing.hour_le_index (hf : s.FirstFailing t f) (ht : s.zone.dayAt t = D)
    (hm : s.zone.dayAt m = D) (ho : s.Occurs m) : Field.hour.index ≤ f.index := by
  refine Nat.le_of_not_lt fun hlt => hf.fails ?_
  rw [PassesAt, Field.ofLocal_of_dayNumber hlt (show Clock.dayNumber _ = Clock.dayNumber (s.zone.toLocal m) from
    ht.trans hm.symm)]
  exact ho f

theorem exists_stands_hour (h : s.zone.ChangeDay T before after D) (ht : s.zone.dayAt t = D) :
    ∃ here, s.Stands t .hour here := by
  cases hc : s.zone.changesOnDay t with
  | true => exact ⟨_, h.standsAt_hour ht hc⟩
  | false => exact ⟨_, Field.standsAt_of_unchanged hc (Field.admits_ofLocal (by decide) _)⟩

theorem moveOn?_hour_of_changeDay (h : s.zone.ChangeDay T before after D) (ht : s.zone.dayAt t = D)
    (hd : 3600 * (t / 3600 + d) ≤ s.zone.startOfDay (D + 1) + 3600) :
    s.zone.moveOn? t .hour d = some u ↔
      t + 3600 * d ≤ Clock.lastInstant ∧ u = 3600 * (t / 3600 + d) := by
  obtain ⟨hlo, hhi⟩ := h.near ht
  have hspan := h.span
  have hstart : s.zone.hourStart (t + 3600 * d) = 3600 * (t / 3600 + d) := by
    rw [h.hourStart_eq (by omega) (by omega)]
    omega
  rw [Zone.moveOn?_hour_eq_some_iff, hstart]
  exact and_congr_right fun _ => eq_comm

theorem moveOn?_sixtieth_of_changeDay (h : s.zone.ChangeDay T before after D) (hf : Sixtieth f w)
    (ht : s.zone.dayAt t = D) (hd : d ≤ 60) : s.zone.moveOn? t f d = some u ↔
      t + w * d ≤ Clock.lastInstant ∧ u = w * (t / w + d) := by
  obtain ⟨hlo, hhi⟩ := h.near ht
  rcases hf with ⟨rfl, rfl⟩ | ⟨rfl, rfl⟩
  · have hstart : s.zone.minuteStart (t + 60 * d) = 60 * (t / 60 + d) := by
      rw [h.minuteStart_eq (by omega) (by omega)]
      omega
    rw [Zone.moveOn?_minute_eq_some_iff, hstart]
    exact and_congr_right fun _ => eq_comm
  · rw [Zone.moveOn?_second_eq_some_iff]
    omega

/-- Time ends with a full hour. -/
theorem lastInstant_mod : Clock.lastInstant % 3600 = 3599 := by
  simp only [Clock.lastInstant, Clock.midnight]
  omega

theorem refines_hour (h : s.zone.ChangeDay T before after D) (ht : s.zone.dayAt t = D)
    (hm : s.zone.dayAt m = D) (hend : m ≤ Clock.lastInstant) (hf : s.FirstFailing t .hour)
    (hd : s.distance? t .hour = some d) (hle : t / 3600 + d ≤ m / 3600) :
    s.Refines t .hour d (3600 * (t / 3600 + d)) := by
  have hspan := h.span
  have hin := h.dayAt_eq_iff.1 hm
  have hmod := lastInstant_mod
  exact ⟨hf, hd, (moveOn?_hour_of_changeDay h ht (by omega)).2 ⟨by omega, rfl⟩⟩

theorem refines_sixtieth (h : s.zone.ChangeDay T before after D) (hw : Sixtieth f w)
    (ht : s.zone.dayAt t = D) (hend : m ≤ Clock.lastInstant) (hf : s.FirstFailing t f)
    (hd : s.distance? t f = some d) (hle : w * (t / w + d) ≤ m) : s.Refines t f d (w * (t / w + d)) := by
  have hlen := sixtieth_le_end h hw ht hf.fails hd
  have hmod := lastInstant_mod
  refine ⟨hf, hd, (moveOn?_sixtieth_of_changeDay h hw ht ?_).2 ⟨?_, rfl⟩⟩
  all_goals rcases hw with ⟨-, rfl⟩ | ⟨-, rfl⟩ <;> omega

/-- Minutes to go until the first occurrence, and one look more unless it is reached. -/
def toGo (m t : Int) : Nat := (m / 60 - t / 60).toNat + if t < m then 1 else 0

theorem toGo_lt (htm : t < m) (hum : u ≤ m) (hu : t / 60 < u / 60 ∨ u = m) : toGo m u < toGo m t := by
  simp only [toGo, if_pos htm]
  split <;> omega

/-- When no refinement of the hour passes the first occurrence, no refinement does. -/
theorem exists_refinement (h : s.zone.ChangeDay T before after D) (hc : s.zone.dayAt c = D)
    (hm : s.FirstOn D c m) (hend : m ≤ Clock.lastInstant)
    (hhour : ∀ t d, c ≤ t → t < m → ¬ s.PassesAt .hour t → s.distance? t .hour = some d →
      t / 3600 + d ≤ m / 3600)
    (ht : c ≤ t ∧ t ≤ m) (ho : ¬ s.Occurs t) :
    ∃ f d u, s.Refines t f d u ∧ (c ≤ u ∧ u ≤ m) ∧ toGo m u < toGo m t := by
  obtain ⟨hct, htm⟩ := ht
  obtain ⟨⟨hcm, hmD, hom⟩, hleast⟩ := hm
  have htD := dayAt_of_between h hc hmD hct htm
  have hlt : t < m := lt_of_le_of_ne htm fun he => ho (he ▸ hom)
  obtain ⟨f, hf⟩ := exists_firstFailing ho
  have hindex := hf.hour_le_index htD hmD hom
  cases f with
  | hour =>
    obtain ⟨here, hstands⟩ := exists_stands_hour h htD
    obtain ⟨d, hd⟩ := exists_distance? hstands hf.fails
    have hpos := distance?_pos hd
    have hle := hhour t d hct hlt hf.fails hd
    exact ⟨.hour, d, _, refines_hour h htD hmD hend hf hd hle, ⟨by omega, by omega⟩,
      toGo_lt hlt (by omega) (.inl (by omega))⟩
  | minute =>
    have hw : Sixtieth .minute 60 := .inl ⟨rfl, rfl⟩
    obtain ⟨d, hd⟩ := exists_distance? (h.standsAt_sixtieth hw htD : s.Stands t .minute _) hf.fails
    have hpos := distance?_pos hd
    have hle := sixtieth_le h hw htD hmD htm hf.fails (hom .minute) hd
    exact ⟨.minute, d, _, refines_sixtieth h hw htD hend hf hd hle, ⟨by omega, hle⟩,
      toGo_lt hlt hle (.inl (by omega))⟩
  | second =>
    have hw : Sixtieth .second 1 := .inr ⟨rfl, rfl⟩
    obtain ⟨d, hd⟩ := exists_distance? (h.standsAt_sixtieth hw htD : s.Stands t .second _) hf.fails
    have hpos := distance?_pos hd
    have hle := sixtieth_le h hw htD hmD htm hf.fails (hom .second) hd
    refine ⟨.second, d, _, refines_sixtieth h hw htD hend hf hd hle, ⟨by omega, hle⟩, toGo_lt hlt hle ?_⟩
    simp only [Int.ediv_one, Int.one_mul] at hle ⊢
    by_cases hsame : (t + d) / 60 = t / 60
    -- within the minute the refinement is the occurrence
    · have hou := occurs_of_second h htD hf hd hsame
      have := hleast ⟨by omega, dayAt_of_between h hc hmD (by omega) hle, hou⟩
      exact .inr (by omega)
    · exact .inl (by omega)
  | _ => exact absurd hindex (by decide)

/-- Then the pass ends with the first occurrence. A day has at most 1500 minutes. -/
theorem search_eq_firstOn (h : s.zone.ChangeDay T before after D) (hc : s.zone.dayAt c = D)
    (hm : s.FirstOn D c m) (hend : m ≤ Clock.lastInstant)
    (hhour : ∀ t d, c ≤ t → t < m → ¬ s.PassesAt .hour t → s.distance? t .hour = some d →
      t / 3600 + d ≤ m / 3600) :
    s.search passLimit c = .ok (some m) := by
  obtain ⟨⟨hcm, hmD, hom⟩, hleast⟩ := hm
  have hlooks : toGo m c < passLimit := by
    have := h.span
    have := h.dayAt_eq_iff.1 hc
    have := h.dayAt_eq_iff.1 hmD
    simp only [toGo, passLimit]
    split <;> omega
  obtain ⟨m', hs, ⟨hcm', hmm'⟩, ho'⟩ :
      ∃ m', s.searchFrom passLimit passLimit c = .ok (some m') ∧ (c ≤ m' ∧ m' ≤ m) ∧ s.Occurs m' :=
    searchFrom_settles (P := fun t => c ≤ t ∧ t ≤ m)
      (fun t ht ho => exists_refinement h hc ⟨⟨hcm, hmD, hom⟩, hleast⟩ hend hhour ht ho)
      ⟨Int.le_refl c, hcm⟩ hlooks
  have := hleast ⟨hcm', dayAt_of_between h hc hmD hcm' hmm', ho'⟩
  rw [search, hs, Int.le_antisymm hmm' this]

/-! ## Refinements of the hour -/

theorem hour_lt_of_passes (h : s.zone.ChangeDay T before after D) (ht : s.zone.dayAt t = D)
    (hm : s.zone.dayAt m = D) (htm : t ≤ m) (hfail : ¬ s.PassesAt .hour t) (hpass : s.PassesAt .hour m) :
    Clock.hour (s.zone.toLocal t) < Clock.hour (s.zone.toLocal m) := by
  refine lt_of_le_of_ne (h.hour_mono ht hm htm) fun he => hfail ?_
  rw [PassesAt, Field.ofLocal, he]
  exact hpass

/-- Where the calendar has the hours as they are shown, a refinement does not pass an hour that a
condition lets pass, if the next hour that this condition lets pass is shown on the day. -/
theorem hour_le_of_shown (h : s.zone.ChangeDay T before after D) (ht : s.zone.dayAt t = D)
    (hm : s.zone.dayAt m = D) (hc : s.zone.changesOnDay t = true) (hfail : ¬ s.PassesAt .hour t)
    (hd : s.distance? t .hour = some d)
    (hlt : Clock.hour (s.zone.toLocal t) < Clock.hour (s.zone.toLocal m))
    {C : Condition .hour} (hC : C ∈ s.conditions .hour) (hCm : C.passes (Clock.hour (s.zone.toLocal m)) = true)
    (hshown : ∀ w, C.nextPassing? (Clock.hour (s.zone.toLocal t)) = some w →
      w ≤ Clock.hour (s.zone.toLocal m) → ∃ u, s.zone.dayAt u = D ∧ Clock.hour (s.zone.toLocal u) = w) :
    t / 3600 + d ≤ m / 3600 := by
  have hindex := h.hourIndex_spec hm
  have hle : s.zone.hourIndex t + d ≤ s.zone.hourIndex m := by
    refine distance?_le_of_passes (h.standsAt_hour ht hc) hfail hd
      ((h.getElem?_values_hour ht hc).2 ⟨hindex.2, h.hourAt_hourIndex hm⟩) hlt hC hCm fun w hw hwm => ?_
    obtain ⟨u, hu, rfl⟩ := hshown w hw hwm
    exact h.mem_values_hour ht hc hu
  have := (h.hourIndex_spec ht).1
  omega

/-- Where the calendar has the usual hours, a refinement does not pass an hour that passes. -/
theorem hour_le_of_unchanged (hc : s.zone.changesOnDay t = false) (hfail : ¬ s.PassesAt .hour t)
    (hd : s.distance? t .hour = some d) {v : Nat} (hlt : Clock.hour (s.zone.toLocal t) < v) (hv : v ≤ 23)
    (hpass : s.passes .hour v = true) : Clock.hour (s.zone.toLocal t) + d ≤ v := by
  have hvalues : Field.hour.values (s.context t) = Field.interval 0 23 := Field.values_of_unchanged hc
  have hstands : s.Stands t .hour (Clock.hour (s.zone.toLocal t)) :=
    Field.standsAt_of_unchanged hc (Field.admits_ofLocal (by decide) _)
  obtain ⟨C, hC, hCv⟩ := passes_iff.1 hpass
  refine distance?_le_of_passes hstands hfail hd ?_ hlt hC hCv fun w _ hwv => ?_
  · rw [hvalues, Field.getElem?_interval]
    omega
  · rw [hvalues, Field.mem_interval]
    omega

end Schedule
end Almanac
