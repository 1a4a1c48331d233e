import Almanac.Proofs.BrokenDates
import Almanac.Proofs.Unchanged
import Almanac.Search.Checked
/-!
# What is found within time

The checked functions carry the plain ones out as far as instants and dates go. Whatever they come
to is what the plain ones come to, so that everything known of these holds of every answer that is
given. One lemma for each function, from a local time up to many passes.

- `Zone.toInstant_of_checked`: the instant that a local time stands for.
- `Field.values_of_checked`, `Condition.distance?_of_checked`: the values around a candidate, and a distance.
- `Zone.moveOn?_of_checked`: a candidate that is moved on, which stays within time.
- `Schedule.search_of_checked`, `Schedule.next_of_checked`: one pass, and many.
-/
namespace Almanac

namespace Clock

variable {t u : Int}

theorem checked_eq_ok_iff : checked t = .ok u ↔ InTime t ∧ t = u := by
  unfold checked
  split <;> simp_all

theorem checked_of_inTime (h : InTime t) : checked t = .ok t := if_pos h

/-- A local time is within time if its date is. -/
theorem inTime_iff_dayNumber : InTime t ↔ firstDay ≤ dayNumber t ∧ dayNumber t ≤ lastDay := by
  simp only [InTime, firstInstant, lastInstant, midnight, dayNumber]
  omega

end Clock

namespace Zone

open Clock (InTime)

variable {z : Zone} {t u v l day : Int} {n : Nat} {b : Bool} {vs : List Nat}

/-! ## Local times -/

theorem toInstantChecked_of_shown (h : z.toInstant? l = some t) (ht : InTime t) :
    z.toInstantChecked l = .ok t := by
  simp [toInstantChecked, h, Option.filter, ht]

/-- In a gap, or where only instants beyond the ends of time show it. -/
theorem toInstantChecked_of_not_shown (h : ∀ u, z.toInstant? l = some u → ¬ InTime u) :
    z.toInstantChecked l =
      (do Clock.checked (l - z.shift (← Clock.checked (l - 86400))) : Except Clock.OutOfTime Int) := by
  have hnone : ((z.toInstant? l).filter fun t => decide (InTime t)) = none :=
    Option.filter_eq_none_iff.2 fun u hu => by simpa using h u hu
  rw [toInstantChecked, hnone]

theorem toInstantChecked_eq_ok_iff_of_gap (h : z.toInstant? l = none) :
    z.toInstantChecked l = .ok t ↔ InTime (l - 86400) ∧ InTime t ∧ z.toInstant l = t := by
  have hto : z.toInstant l = l - z.shift (l - 86400) := by rw [toInstant, h, Option.getD_none]
  have hnot : ∀ u, z.toInstant? l = some u → ¬ InTime u := by simp [h]
  rw [toInstantChecked_of_not_shown hnot, hto]
  constructor
  · intro hok
    obtain ⟨w, hw, hok⟩ := ok_of_bind hok
    obtain ⟨hbefore, rfl⟩ := Clock.checked_eq_ok_iff.1 hw
    obtain ⟨hin, rfl⟩ := Clock.checked_eq_ok_iff.1 hok
    exact ⟨hbefore, hin, rfl⟩
  · rintro ⟨hbefore, hin, rfl⟩
    rw [Clock.checked_of_inTime hbefore, bind_ok, Clock.checked_of_inTime hin]

theorem inTime_of_toInstantChecked (h : z.toInstantChecked l = .ok t) : InTime t := by
  by_cases hshown : ∃ u, z.toInstant? l = some u ∧ InTime u
  · obtain ⟨u, hu, hin⟩ := hshown
    rw [toInstantChecked_of_shown hu hin, Except.ok.injEq] at h
    exact h ▸ hin
  · rw [toInstantChecked_of_not_shown fun u hu hin => hshown ⟨u, hu, hin⟩] at h
    obtain ⟨w, -, h⟩ := ok_of_bind h
    obtain ⟨hin, rfl⟩ := Clock.checked_eq_ok_iff.1 h
    exact hin

/-- No instant past the end of time shows the midnight of a date, nor what an instant within time has
shown before. -/
theorem toInstant_of_checked (hlate : ∀ u, z.toInstant? l = some u → u ≤ Clock.lastInstant)
    (h : z.toInstantChecked l = .ok t) : InTime t ∧ z.toInstant l = t := by
  refine ⟨inTime_of_toInstantChecked h, ?_⟩
  cases hu : z.toInstant? l with
  | some u =>
    rw [toInstant, hu, Option.getD_some]
    by_cases hin : InTime u
    · rw [toInstantChecked_of_shown hu hin] at h
      exact Except.ok.inj h
    · -- it would lie before the beginning of time, and so would the day before
      rw [toInstantChecked_of_not_shown fun v hv => Option.some.inj (hu.symm.trans hv) ▸ hin] at h
      obtain ⟨w, hw, -⟩ := ok_of_bind h
      obtain ⟨⟨hfirst, -⟩, -⟩ := Clock.checked_eq_ok_iff.1 hw
      have hle := hlate u hu
      have hb := z.toInstant_bounds l
      rw [toInstant, hu, Option.getD_some] at hb
      exact absurd ⟨by omega, hle⟩ hin
  | none => exact ((toInstantChecked_eq_ok_iff_of_gap hu).1 h).2.2

theorem startOfDay_of_checked (hday : day ≤ Clock.lastDay) (h : z.startOfDayChecked day = .ok t) :
    InTime t ∧ z.startOfDay day = t := by
  refine toInstant_of_checked (fun u hu => ?_) h
  have hb := z.toInstant_bounds (Clock.midnight day)
  rw [toInstant, hu, Option.getD_some] at hb
  simp only [Clock.lastInstant, Clock.midnight] at *
  omega

theorem dayAtChecked_eq_ok_iff {d : Int} :
    z.dayAtChecked t = .ok d ↔ InTime (z.toLocal t) ∧ z.dayAt t = d := by
  unfold dayAtChecked Clock.checked dayAt
  split <;> simp_all [bind, Except.bind, pure, Except.pure]

theorem isRepeat_of_checked (ht : t ≤ Clock.lastInstant) (h : z.isRepeatChecked t = .ok b) :
    z.isRepeat t = b := by
  obtain ⟨l, hl, h⟩ := ok_of_bind h
  obtain ⟨first, hfirst, h⟩ := ok_of_bind h
  obtain ⟨-, rfl⟩ := Clock.checked_eq_ok_iff.1 hl
  obtain ⟨-, rfl⟩ := toInstant_of_checked (fun u hu =>
    Int.le_trans ((toInstant?_eq_some_iff.1 hu).2 t rfl) ht) hfirst
  exact Except.ok.inj h

/-! ## Days with a change -/

theorem changesOnDay_of_checked (h : z.changesOnDayChecked t = .ok b) :
    InTime (z.toLocal t) ∧ z.changesOnDay t = b := by
  obtain ⟨d, hd, h⟩ := ok_of_bind h
  obtain ⟨hin, rfl⟩ := dayAtChecked_eq_ok_iff.1 hd
  refine ⟨hin, ?_⟩
  unfold changesOnDay
  by_cases hday : z.dayAt t < Clock.lastDay
  · rw [if_pos hday] at h ⊢
    obtain ⟨first, hfirst, h⟩ := ok_of_bind h
    obtain ⟨next, hnext, h⟩ := ok_of_bind h
    obtain ⟨last, hlast, h⟩ := ok_of_bind h
    obtain ⟨before, hbefore, h⟩ := ok_of_bind h
    obtain ⟨-, rfl⟩ := startOfDay_of_checked (by omega) hfirst
    obtain ⟨-, rfl⟩ := startOfDay_of_checked (by omega) hnext
    obtain ⟨-, rfl⟩ := Clock.checked_eq_ok_iff.1 hlast
    obtain ⟨-, rfl⟩ := Clock.checked_eq_ok_iff.1 hbefore
    exact Except.ok.inj h
  · rw [if_neg hday] at h ⊢
    exact Except.ok.inj h

/-- Looks that give out the value as long as a test holds collect the values of the samples up to the
first one for which it does not. -/
theorem values_of_valuesWhile {step : Int} {look : Int → Except Clock.OutOfTime (Option Nat)}
    {p : Int → Bool} {g : Int → Nat}
    (hlook : ∀ u o, look u = .ok o → o = if p u then some (g u) else none)
    (h : valuesWhile step look n t = .ok vs) :
    vs = (((List.range n).map fun i : Nat => t + step * i).takeWhile p).map g := by
  induction n generalizing t vs with
  | zero => exact (Except.ok.inj h).symm
  | succ n ih =>
    obtain ⟨o, ho, h⟩ := ok_of_bind h
    have hsamples : (List.range (n + 1)).map (fun i : Nat => t + step * i) =
        t :: (List.range n).map fun i : Nat => t + step + step * i := by
      rw [List.range_succ_eq_map, List.map_cons, List.map_map]
      refine List.cons_eq_cons.2 ⟨by simp, List.map_congr_left fun i _ => ?_⟩
      simp only [Function.comp_apply, Nat.cast_succ, Int.mul_add, Int.mul_one]
      omega
    rw [hsamples, List.takeWhile_cons]
    cases hp : p t with
    | false =>
      obtain rfl : o = none := by simpa [hp] using hlook t o ho
      exact (Except.ok.inj h).symm
    | true =>
      obtain rfl : o = some (g t) := by simpa [hp] using hlook t o ho
      obtain ⟨next, hnext, h⟩ := ok_of_bind h
      obtain ⟨-, rfl⟩ := Clock.checked_eq_ok_iff.1 hnext
      obtain ⟨rest, hrest, h⟩ := ok_of_bind h
      rw [if_pos rfl, List.map_cons, ← ih hrest]
      exact (Except.ok.inj h).symm

theorem hourOnDay_of_checked {o : Option Nat} (h : z.hourOnDayChecked day t = .ok o) :
    o = if z.dayAt t == day then some (Clock.hour (z.toLocal t)) else none := by
  obtain ⟨d, hd, h⟩ := ok_of_bind h
  obtain ⟨-, rfl⟩ := dayAtChecked_eq_ok_iff.1 hd
  simpa using (Except.ok.inj h).symm

theorem hoursOfDay_of_checked (hday : day ≤ Clock.lastDay) (h : z.hoursOfDayChecked day = .ok vs) :
    z.hoursOfDay day = vs := by
  obtain ⟨start, hstart, h⟩ := ok_of_bind h
  obtain ⟨-, rfl⟩ := startOfDay_of_checked hday hstart
  rw [values_of_valuesWhile (p := fun u => z.dayAt u == day) (g := fun u => Clock.hour (z.toLocal u))
    (fun u o => hourOnDay_of_checked) h]
  simp only [hoursOfDay, List.takeWhile_map, List.map_map]
  rfl

/-! ## Hours with a change -/

theorem minuteStart_of_checked (h : z.minuteStartChecked t = .ok u) : InTime u ∧ z.minuteStart t = u := by
  obtain ⟨hin, rfl⟩ := Clock.checked_eq_ok_iff.1 h
  exact ⟨hin, rfl⟩

theorem backWithinHour_of_checked (h : z.backWithinHourChecked t n u = .ok v) (hu : InTime u) :
    InTime v ∧ z.backWithinHour t n u = v := by
  induction n generalizing u with
  | zero =>
    obtain rfl := Except.ok.inj h
    exact ⟨hu, rfl⟩
  | succ n ih =>
    obtain ⟨before, hbefore, h⟩ := ok_of_bind h
    obtain ⟨hin, rfl⟩ := Clock.checked_eq_ok_iff.1 hbefore
    unfold backWithinHour
    by_cases hs : z.sameHour t (u - 60) = true
    · rw [if_pos hs] at h ⊢
      exact ih h hin
    · rw [if_neg hs] at h ⊢
      obtain rfl := Except.ok.inj h
      exact ⟨hu, rfl⟩

theorem minutesOfHour_of_checked (h : z.minutesOfHourChecked t = .ok vs) : z.minutesOfHour t = vs := by
  obtain ⟨first, hfirst, h⟩ := ok_of_bind h
  obtain ⟨start, hstart, hfirst⟩ := ok_of_bind hfirst
  obtain ⟨hin, rfl⟩ := minuteStart_of_checked hstart
  obtain ⟨-, rfl⟩ := backWithinHour_of_checked hfirst hin
  exact (values_of_valuesWhile (p := z.sameHour t) (g := fun u => Clock.minute (z.toLocal u))
    (fun u o ho => (Except.ok.inj ho).symm) h).symm

theorem hourStart_of_checked (h : z.hourStartChecked t = .ok u) : InTime u ∧ z.hourStart t = u := by
  obtain ⟨start, hstart, h⟩ := ok_of_bind h
  obtain ⟨full, hfull, h⟩ := ok_of_bind h
  obtain ⟨hin, rfl⟩ := minuteStart_of_checked hstart
  obtain ⟨hin', rfl⟩ := Clock.checked_eq_ok_iff.1 hfull
  simp only at h
  unfold hourStart
  split at h
  case isTrue hs =>
    obtain rfl := Except.ok.inj h
    exact ⟨hin', if_pos hs⟩
  case isFalse hs =>
    obtain ⟨hin'', rfl⟩ := backWithinHour_of_checked h hin
    exact ⟨hin'', if_neg hs⟩

end Zone

/-! ## Distances -/

section Distances

variable {f : Field} {context : Option Moment} {vs : List Nat} {b : Bool} {current : Nat} {o : Option Nat}

theorem Field.values_of_checked (h : f.valuesChecked context = .ok vs) : f.values context = vs := by
  match f, context with
  | .hour, some m =>
    obtain ⟨b, hb, h⟩ := ok_of_bind h
    obtain ⟨hin, rfl⟩ := Zone.changesOnDay_of_checked hb
    have hday := (Clock.inTime_iff_dayNumber.1 hin).2
    cases hc : m.zone.changesOnDay m.instant with
    | true =>
      rw [hc, if_pos rfl] at h
      exact (values_hour_of_seen hc).trans (Zone.hoursOfDay_of_checked hday h)
    | false =>
      rw [hc, if_neg (by decide)] at h
      rw [values_of_unchanged hc]
      exact Except.ok.inj h
  | .minute, some m =>
    obtain ⟨b, hb, h⟩ := ok_of_bind h
    obtain ⟨-, rfl⟩ := Zone.changesOnDay_of_checked hb
    cases hc : m.zone.changesOnDay m.instant with
    | true =>
      rw [hc, if_pos rfl] at h
      exact (values_minute_of_seen hc).trans (Zone.minutesOfHour_of_checked h)
    | false =>
      rw [hc, if_neg (by decide)] at h
      rw [values_of_unchanged hc]
      exact Except.ok.inj h
  | .hour, none | .minute, none | .year, _ | .month, _ | .dayOfMonth, _ | .dayOfWeek, _ | .second, _ =>
    exact Except.ok.inj h

theorem Field.valuesChecked_eq (h : ∃ vs, f.valuesChecked context = .ok vs) :
    f.valuesChecked context = .ok (f.values context) := by
  obtain ⟨vs, hvs⟩ := h
  rw [hvs, values_of_checked hvs]

theorem Field.position?_of_checked (hin : ∀ m ∈ context, m.instant ≤ Clock.lastInstant)
    (h : f.looksUpLast context = .ok b) : f.position? context current =
      if b then lastPosition? (f.values context) current else (f.values context).idxOf? current := by
  match f, context with
  | .hour, some m =>
    have := Zone.isRepeat_of_checked (hin m rfl) h
    simp [position?, this]
  | .hour, none | .minute, _ | .year, _ | .month, _ | .dayOfMonth, _ | .dayOfWeek, _ | .second, _ =>
    obtain rfl := Except.ok.inj h
    simp [position?]

theorem Condition.distance?_of_checked {c : Condition f} (hin : ∀ m ∈ context, m.instant ≤ Clock.lastInstant)
    (h : c.distanceChecked? current context = .ok o) : c.distance? current context = o := by
  unfold distanceChecked? at h
  unfold distance?
  by_cases hadm : f.Admits current
  · rw [if_pos hadm] at h ⊢
    cases c with
    | wildcard => exact Except.ok.inj h
    | constrained base step hw hk =>
      obtain ⟨values, hvalues, h⟩ := ok_of_bind h
      obtain ⟨last, hlast, h⟩ := ok_of_bind h
      obtain rfl := Field.values_of_checked hvalues
      simp only [Field.position?_of_checked hin hlast]
      exact Except.ok.inj h
  · rw [if_neg hadm] at h ⊢
    exact Except.ok.inj h

end Distances

/-! ## Moving on -/

namespace Zone

open Clock (InTime)

variable {z : Zone} {t day : Int} {f : Field} {d : Nat} {o : Option Int}

theorem startOfDay?_of_checked (h : z.startOfDayChecked? day = .ok o) :
    z.startOfDay? day = o ∧ ∀ u, o = some u → InTime u := by
  unfold startOfDayChecked? at h
  unfold startOfDay?
  by_cases hday : day ≤ Clock.lastDay
  · rw [if_pos hday] at h ⊢
    obtain ⟨u, hu, h⟩ := ok_of_bind h
    obtain ⟨hin, rfl⟩ := startOfDay_of_checked hday hu
    obtain rfl := Except.ok.inj h
    exact ⟨rfl, fun v hv => Option.some.inj hv ▸ hin⟩
  · rw [if_neg hday] at h ⊢
    obtain rfl := Except.ok.inj h
    exact ⟨rfl, fun v hv => by cases hv⟩

theorem map_of_mapM {x : Option Int} {start : Int → Int} {startChecked : Int → Except Clock.OutOfTime Int}
    (hstart : ∀ v u, startChecked v = .ok u → InTime u ∧ start v = u) (h : x.mapM startChecked = .ok o) :
    x.map start = o ∧ ∀ u, o = some u → InTime u := by
  cases x with
  | none =>
    obtain rfl := Except.ok.inj h
    exact ⟨rfl, fun v hv => by cases hv⟩
  | some v =>
    obtain ⟨u, hu, h⟩ := ok_of_bind (x := startChecked v) h
    obtain ⟨hin, rfl⟩ := hstart v u hu
    obtain rfl := Except.ok.inj h
    exact ⟨rfl, fun v hv => Option.some.inj hv ▸ hin⟩

/-- A candidate that is moved on stays within time. -/
theorem moveOn?_of_checked (ht : InTime t) (h : z.moveOnChecked? t f d = .ok o) :
    z.moveOn? t f d = o ∧ ∀ u, o = some u → InTime u := by
  obtain ⟨l, hl, h⟩ := ok_of_bind h
  obtain ⟨-, rfl⟩ := Clock.checked_eq_ok_iff.1 hl
  cases f with
  | year | month | dayOfMonth | dayOfWeek => exact startOfDay?_of_checked h
  | hour => exact map_of_mapM (fun v u => hourStart_of_checked) h
  | minute => exact map_of_mapM (fun v u => minuteStart_of_checked) h
  | second =>
    obtain rfl := Except.ok.inj h
    refine ⟨rfl, fun u hu => ?_⟩
    obtain ⟨hle, rfl⟩ := Clock.within?_eq_some_iff.1 hu
    exact ⟨Int.le_trans ht.1 (by omega), hle⟩

end Zone

/-! ## Passes -/

namespace Schedule

open Clock (InTime)

variable {s : Schedule} {t : Int} {f : Field} {limit left count : Nat}

theorem distance?_of_checked {o : Option Nat} (ht : t ≤ Clock.lastInstant)
    (h : s.distanceChecked? t f = .ok o) : s.distance? t f = o := by
  obtain ⟨distances, hdist, h⟩ := ok_of_bind h
  obtain rfl := Except.ok.inj h
  have hmap : ∀ (cs : List (Condition f)) (ds : List (Option Nat)),
      cs.mapM (fun c => c.distanceChecked? (f.ofLocal (s.zone.toLocal t)) (some ⟨s.zone, t⟩)) = .ok ds →
        cs.map (fun c => c.distance? (f.ofLocal (s.zone.toLocal t)) (some ⟨s.zone, t⟩)) = ds := by
    intro cs
    induction cs with
    | nil => exact fun ds h => Except.ok.inj h
    | cons c cs ih =>
      intro ds h
      rw [List.mapM_cons] at h
      obtain ⟨d, hd, h⟩ := ok_of_bind h
      obtain ⟨rest, hrest, h⟩ := ok_of_bind h
      obtain rfl := Except.ok.inj h
      rw [List.map_cons, Condition.distance?_of_checked (by simpa using ht) hd, ih rest hrest]
  rw [← hmap _ _ hdist, List.filterMap_map]
  rfl

theorem searchFrom_of_checked {r : Except ScheduleError (Option Int)} (ht : InTime t)
    (h : s.searchCheckedFrom limit left t = .ok r) :
    s.searchFrom limit left t = r ∧ ∀ m, r = .ok (some m) → InTime m := by
  induction left generalizing t with
  | zero =>
    obtain rfl := Except.ok.inj h
    exact ⟨rfl, fun m hm => by cases hm⟩
  | succ left ih =>
    unfold searchCheckedFrom at h
    unfold searchFrom verdict
    cases hm : s.mismatch? (s.zone.toLocal t) with
    | none =>
      simp only [hm] at h
      obtain rfl := Except.ok.inj h
      exact ⟨rfl, fun m hm => by cases hm; exact ht⟩
    | some f =>
      simp only [hm] at h
      obtain ⟨o, ho, h⟩ := ok_of_bind h
      obtain rfl := distance?_of_checked ht.2 ho
      cases hd : s.distance? t f with
      | none =>
        simp only [hd] at h
        obtain rfl := Except.ok.inj h
        exact ⟨by simp only [hd], fun m hm => by cases hm⟩
      | some d =>
        simp only [hd] at h
        obtain ⟨moved, hmoved, h⟩ := ok_of_bind h
        obtain ⟨rfl, hin⟩ := Zone.moveOn?_of_checked ht hmoved
        simp only [hd, moveOn]
        cases hu : s.zone.moveOn? t f d with
        | none =>
          simp only [hu] at h
          obtain rfl := Except.ok.inj h
          exact ⟨rfl, fun m hm => by cases hm⟩
        | some u =>
          simp only [hu] at h
          exact ih (hin u hu) h

/-- What a pass answers is the answer of the plain pass, and it is found within time. -/
theorem search_of_checked {r : Except ScheduleError (Option Int)} (ht : InTime t)
    (h : s.searchChecked limit t = .ok r) : s.search limit t = r ∧ ∀ m, r = .ok (some m) → InTime m :=
  searchFrom_of_checked ht h

theorem collect_of_checked {r : Except ScheduleError (List Int)} (ht : InTime t)
    (h : s.collectChecked count t = .ok r) : s.collect count t = r := by
  induction count generalizing t r with
  | zero => exact Except.ok.inj h
  | succ count ih =>
    obtain ⟨pass, hpass, h⟩ := ok_of_bind h
    obtain ⟨hs, hin⟩ := search_of_checked ht hpass
    rw [collect, hs]
    rcases pass with e | found?
    · exact Except.ok.inj h
    cases found? with
    | none => exact Except.ok.inj h
    | some found =>
      simp only [bind_ok] at h ⊢
      cases hc : s.candidateAfter (.ofSecond found) with
      | error e =>
        simp only [hc] at h
        exact Except.ok.inj h
      | ok u =>
        simp only [hc] at h
        obtain ⟨rfl, hlast⟩ := candidateAfter_eq_ok_iff.1 hc
        obtain ⟨more, hmore, h⟩ := ok_of_bind h
        have hu : InTime ((Timestamp.ofSecond found).second + 1) :=
          ⟨Int.le_trans (hin found rfl).1 (Int.le_add_one (Int.le_refl _)), hlast⟩
        rw [bind_ok, ih hu hmore]
        obtain rfl := Except.ok.inj h
        cases more <;> rfl

/-- Whatever many passes after a reference within time answer is the answer of the plain ones. -/
theorem next_of_checked {r : Timestamp} {answer : Except ScheduleError (List Int)}
    (hr : Clock.firstInstant ≤ r.second) (h : s.nextChecked count r = .ok answer) : s.next count r = answer := by
  unfold nextChecked at h
  unfold next
  cases hc : s.candidateAfter r with
  | error e =>
    simp only [hc] at h
    exact Except.ok.inj h
  | ok c =>
    simp only [hc] at h
    obtain ⟨rfl, hlast⟩ := candidateAfter_eq_ok_iff.1 hc
    exact collect_of_checked ⟨by omega, hlast⟩ h

end Schedule
end Almanac
