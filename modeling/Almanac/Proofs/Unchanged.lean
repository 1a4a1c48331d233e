import Almanac.Proofs.Search
/-!
# Days on which the clocks are not changed

On a day without a change of the offset the calendar has every value of a field, from the lowest to
the last, and the position of a value is its distance from the lowest.

- `Field.values_of_unchanged`: the values, and `Field.values_hour_of_seen`, `Field.values_minute_of_seen`: those of
  other days.
- `Field.admits_of_mem_values`: in any case they are values of the field.
- `Field.standsAt_of_unchanged`: the value at an instant of such a day is one of them.
-/
namespace Almanac.Field

variable {f : Field} {z : Zone} {t : Int}

theorem getElem?_interval {a b i v : Nat} : (interval a b)[i]? = some v ↔ v = a + i ∧ v ≤ b := by
  simp only [List.getElem?_eq_some_iff, interval, List.getElem_range', List.length_range']
  constructor
  · rintro ⟨hi, rfl⟩
    omega
  · rintro ⟨rfl, hv⟩
    exact ⟨by omega, by omega⟩

theorem length_interval (a b : Nat) : (interval a b).length = b + 1 - a := List.length_range'

theorem mem_interval {a b v : Nat} : v ∈ interval a b ↔ a ≤ v ∧ v ≤ b := by
  rw [interval, List.mem_range'_1]
  omega

theorem pairwise_interval (a b : Nat) : (interval a b).Pairwise (· < ·) := List.pairwise_lt_range'

theorem values_of_unchanged (h : z.changesOnDay t = false) :
    f.values (some ⟨z, t⟩) = interval f.lowest (f.lastValue (z.toLocal t)) := by
  cases f <;>
    simp [values, calendarValues, Zone.shownHours?, Zone.shownMinutes?, h, lastValue, highest, lowest,
      Moment.localTime]

/-- On any other day it has the hours and minutes that are shown. -/
theorem values_hour_of_seen (h : z.changesOnDay t = true) :
    hour.values (some ⟨z, t⟩) = z.hoursOfDay (z.dayAt t) := by
  simp [values, calendarValues, Zone.shownHours?, h]

theorem values_minute_of_seen (h : z.changesOnDay t = true) :
    minute.values (some ⟨z, t⟩) = z.minutesOfHour t := by
  simp [values, calendarValues, Zone.shownMinutes?, h]

/-- Whatever the calendar leaves out or repeats, it has no other values than the field. -/
theorem admits_of_mem_values {context : Option Moment} {v : Nat} (h : v ∈ f.values context) : f.Admits v := by
  cases hc : context.bind f.calendarValues with
  | none =>
    rw [values, hc] at h
    exact mem_interval.1 h
  | some vs =>
    rw [values, hc, Option.getD_some] at h
    obtain ⟨⟨z, t⟩, -, hvs⟩ := Option.bind_eq_some_iff.1 hc
    cases f with
    | dayOfMonth =>
      cases hvs
      obtain ⟨h1, hlast⟩ := mem_interval.1 h
      exact ⟨h1, Nat.le_trans hlast (Date.daysInMonth_le _ _)⟩
    | hour =>
      obtain ⟨-, rfl⟩ : z.changesOnDay t = true ∧ z.hoursOfDay (z.dayAt t) = vs := by
        simpa [calendarValues, Zone.shownHours?] using hvs
      obtain ⟨l, -, rfl⟩ := List.mem_map.1 h
      exact admits_ofLocal (f := .hour) (by decide) l
    | minute =>
      obtain ⟨-, rfl⟩ : z.changesOnDay t = true ∧ z.minutesOfHour t = vs := by
        simpa [calendarValues, Zone.shownMinutes?] using hvs
      obtain ⟨u, -, rfl⟩ := List.mem_map.1 h
      exact admits_ofLocal (f := .minute) (by decide) (z.toLocal u)
    | _ => cases hvs

/-- Among the values of an interval a value stands as far up as it is above the first. -/
theorem standsAt_of_interval {context : Option Moment} {a b v : Nat} (hv : f.values context = interval a b)
    (hadm : f.Admits v) (hav : a ≤ v) (hvb : v ≤ b) : f.StandsAt context v (v - a) := by
  have hhere : (f.values context)[v - a]? = some v := by
    rw [hv, getElem?_interval]
    omega
  have hlt : (f.values context).Pairwise (· < ·) := hv ▸ pairwise_interval _ _
  exact {
    admits := hadm
    position := Sorted.position?_eq_some hlt hhere
    value := hhere
    sorted := hlt.imp Nat.le_of_lt
    within := fun w hw => (admits_of_mem_values hw).2 }

theorem standsAt_of_unchanged (h : z.changesOnDay t = false) (hadm : f.Admits (f.ofLocal (z.toLocal t))) :
    f.StandsAt (some ⟨z, t⟩) (f.ofLocal (z.toLocal t)) (f.ofLocal (z.toLocal t) - f.lowest) := by
  have hlast : f.ofLocal (z.toLocal t) ≤ f.lastValue (z.toLocal t) := by
    by_cases hf : f = .year
    · subst hf; exact hadm.2
    · exact (ofLocal_bounds hf _).2
  exact standsAt_of_interval (values_of_unchanged h) hadm hadm.1 hlast

end Almanac.Field
