import Almanac.Proofs.DateStart
import Almanac.Proofs.Ends
import Almanac.Proofs.KnownZones
/-!
# Local times that are shown, and those that are skipped

Where the clocks are put forward, the local times from the one due at the change up to the one shown instead are
never shown. Changes that are two days apart cannot skip the same time twice, so a time that is not shown says
which change skipped it, and by how much it has to be moved on.

- `Zone.Skips`: the local times that a change skips.
- `Zone.not_shown_iff`: these are the ones that are never shown.
- `Zone.Skips.unique`: each is skipped by one change only.
- `Zone.toInstant_spec`: what every local time stands for, and which instants are repeats.
- `Zone.toInstantChecked_spec`: which of it can be said within time.
-/
namespace Almanac.Zone

open Clock (InTime)

variable {z : Zone} {T T' l : Int}

/-- At `T` the clocks are put forward over the local time. -/
def Skips (z : Zone) (T l : Int) : Prop := T + z.shift (T - 1) ≤ l ∧ l < T + z.shift T

instance (z : Zone) (T l : Int) : Decidable (z.Skips T l) := by unfold Skips; infer_instance

theorem Skips.changesAt (h : z.Skips T l) : z.ChangesAt T := fun he => by
  obtain ⟨hle, hlt⟩ := h
  omega

/-- A time that two changes skip lies within a day of both. -/
theorem Skips.unique (hz : z.SpacedBy 172800) (h : z.Skips T l) (h' : z.Skips T' l) : T' = T := by
  obtain ⟨hle, hlt⟩ := id h
  obtain ⟨hle', hlt'⟩ := id h'
  have hb := z.shift_bounds T
  have hb' := z.shift_bounds (T' - 1)
  have hc := z.shift_bounds T'
  have hc' := z.shift_bounds (T - 1)
  exact hz.eq_of_near h'.changesAt h.changesAt (by omega) (by omega)

theorem not_shown_iff (hz : z.SpacedBy 172800) : (∀ t, z.toLocal t ≠ l) ↔ ∃ T, z.Skips T l := by
  constructor
  · intro hl
    obtain ⟨T, -, -, -, hle, hlt⟩ := exists_gap hl
    exact ⟨T, hle, hlt⟩
  · rintro ⟨T, hle, hlt⟩
    exact (toInstant_eq_of_gap hz hle hlt).1

/-- Where changes are two days apart, a local time that is shown stands for the earliest instant that shows it. One
that is not shown is skipped by exactly one change, and stands for an instant from the change on that shows the
time later by what the clocks were put forward. So an instant is a repeat if its local time was shown before. -/
theorem toInstant_spec (hz : z.SpacedBy 172800) (l : Int) :
    ((∃ t, z.toLocal t = l) → IsLeast {t | z.toLocal t = l} (z.toInstant l)) ∧
      ((∀ t, z.toLocal t ≠ l) → ∃ T, z.ChangesAt T ∧ z.Skips T l ∧ (∀ T', z.Skips T' l → T' = T) ∧
        T ≤ z.toInstant l ∧ z.toLocal (z.toInstant l) = l + (z.shift T - z.shift (T - 1))) ∧
      ∀ t, z.isRepeat t = true ↔ ∃ u, u < t ∧ z.toLocal u = z.toLocal t := by
  refine ⟨fun ⟨t, ht⟩ => ?_, fun hl => ?_, fun t => isRepeat_iff⟩
  · obtain ⟨hshown, hleast⟩ := toInstant_of_shown ht
    exact ⟨hshown, fun u hu => hleast u hu⟩
  · obtain ⟨T, hT, hle, hlt, hafter, hlocal⟩ := toInstant_of_gap hz hl
    exact ⟨T, hT, ⟨hle, hlt⟩, fun T' h' => Skips.unique hz ⟨hle, hlt⟩ h', hafter, hlocal⟩

theorem toInstantChecked_eq_ok_iff_of_shown (h : ∃ t, z.toLocal t = l) :
    z.toInstantChecked l = .ok (z.toInstant l) ↔ InTime (z.toInstant l) := by
  obtain ⟨t, ht⟩ := h
  exact ⟨inTime_of_toInstantChecked,
    toInstantChecked_of_shown (toInstant?_eq_some_iff.2 (toInstant_of_shown ht))⟩

/-- A local time that is shown stands for the earliest instant that shows it, exactly if that one is within time. One
that is not shown is skipped by exactly one change, and stands for an instant from the change on that shows the time
later by what the clocks were put forward, exactly if that instant and the local time a day before are within time.
Whether an instant is a repeat can be told exactly if its local time and the instant that shows it first are within
time, and then it is one if its local time was shown before. -/
theorem toInstantChecked_spec (hz : z.SpacedBy 172800) (l : Int) :
    ((∃ t, z.toLocal t = l) → ∃ t, IsLeast {u | z.toLocal u = l} t ∧ (z.toInstantChecked l = .ok t ↔ InTime t)) ∧
      ((∀ t, z.toLocal t ≠ l) → ∃ T u, z.ChangesAt T ∧ z.Skips T l ∧ (∀ T', z.Skips T' l → T' = T) ∧
        T ≤ u ∧ z.toLocal u = l + (z.shift T - z.shift (T - 1)) ∧
        (z.toInstantChecked l = .ok u ↔ InTime (l - 86400) ∧ InTime u)) ∧
      ∀ t, InTime t →
        ((∃ b, z.isRepeatChecked t = .ok b) ↔
          InTime (z.toLocal t) ∧ ∀ u, IsLeast {v | z.toLocal v = z.toLocal t} u → InTime u) ∧
        ∀ b, z.isRepeatChecked t = .ok b → (b = true ↔ ∃ u, u < t ∧ z.toLocal u = z.toLocal t) := by
  obtain ⟨hshown, hskipped, hrepeat⟩ := toInstant_spec hz l
  refine ⟨fun hl => ⟨_, hshown hl, toInstantChecked_eq_ok_iff_of_shown hl⟩, fun hl => ?_,
    fun t ht => ⟨?_, fun b hb => ?_⟩⟩
  · obtain ⟨T, hT, hskip, honly, hafter, hlocal⟩ := hskipped hl
    exact ⟨T, _, hT, hskip, honly, hafter, hlocal, by
      simpa using toInstantChecked_eq_ok_iff_of_gap (t := z.toInstant l) (toInstant?_eq_none_iff.2 hl)⟩
  · have hfirst := toInstant_of_shown (z := z) (t := t) rfl
    have hleast : IsLeast {v | z.toLocal v = z.toLocal t} (z.toInstant (z.toLocal t)) := hfirst
    rw [exists_isRepeatChecked_iff ht]
    refine and_congr_right fun _ => ⟨fun hin u hu => ?_, fun hall => hall _ hleast⟩
    rwa [hu.unique hleast]
  · rw [← isRepeat_of_checked ht.2 hb]
    exact hrepeat t

/-- Samoa had no 30 December 2011. Noon of that date stands for noon of the next, and the last second of the 29th for
the second before the change, which is no repeat. -/
theorem toInstantChecked_spec_apia :
    apia.SpacedBy 172800 ∧ (∀ t, apia.toLocal t ≠ 1325246400) ∧ apia.Skips 1325239200 1325246400 ∧
      (∃ u, apia.toInstantChecked 1325246400 = .ok u ∧ apia.toLocal u = 1325246400 + 86400) ∧
      IsLeast {t | apia.toLocal t = 1325203199} 1325239199 ∧ apia.toInstantChecked 1325203199 = .ok 1325239199 ∧
      InTime 1325239199 ∧ ¬ ∃ u, u < 1325239199 ∧ apia.toLocal u = apia.toLocal 1325239199 := by
  have hz : apia.SpacedBy 172800 := (spacedBy_of_mem_known (by decide +kernel)).mono (by decide)
  have hskips : apia.Skips 1325239200 1325246400 := by decide +kernel
  have hnot := (not_shown_iff hz).2 ⟨_, hskips⟩
  have hends : Clock.firstInstant = -8334601228800 ∧ Clock.lastInstant = 8210266876799 := by decide
  refine ⟨hz, hnot, hskips, ?_, ?_⟩
  · obtain ⟨T, u, -, -, honly, -, hlocal, hiff⟩ := (toInstantChecked_spec hz 1325246400).2.1 hnot
    rw [← honly _ hskips] at hlocal
    have hjump : apia.shift 1325239200 - apia.shift (1325239200 - 1) = 86400 := by decide +kernel
    have hb := apia.toLocal_bounds u
    rw [hjump] at hlocal
    exact ⟨u, hiff.2 ⟨⟨by omega, by omega⟩, by omega, by omega⟩, hlocal⟩
  · obtain ⟨hlast, hrepeat⟩ : apia.toInstantChecked 1325203199 = .ok 1325239199 ∧
        apia.isRepeatChecked 1325239199 = .ok false := by decide +kernel
    obtain ⟨t, hleast, hiff⟩ := (toInstantChecked_spec hz 1325203199).1 ⟨1325239199, by decide +kernel⟩
    have hb := apia.toLocal_bounds t
    have ht := hiff.2 (by rw [hleast.1] at hb; exact ⟨by omega, by omega⟩)
    rw [hlast, Except.ok.injEq] at ht
    subst ht
    have hin : InTime 1325239199 := ⟨by omega, by omega⟩
    exact ⟨hleast, hlast, hin, fun hu => Bool.false_ne_true
      ((((toInstantChecked_spec hz 0).2.2 _ hin).2 _ hrepeat).2 hu)⟩

/-- Fourteen hours ahead, midnight of the first date has passed when time begins. No change skips it, but nothing can
be said of it; nor of the last instant, which shows a date that there is not. -/
theorem not_toInstantChecked_spec_gmtPlus14 :
    gmtPlus14.SpacedBy 172800 ∧ InTime Clock.firstInstant ∧ (∀ T, ¬ gmtPlus14.Skips T Clock.firstInstant) ∧
      (∀ u, InTime u → gmtPlus14.toLocal u ≠ Clock.firstInstant) ∧
      gmtPlus14.toInstantChecked Clock.firstInstant = .error .stop ∧
      InTime Clock.lastInstant ∧ gmtPlus14.isRepeatChecked Clock.lastInstant = .error .stop := by
  have hz : gmtPlus14.Steady := fun _ _ => rfl
  refine ⟨fun t _ ht => absurd (hz _ _) ht, by decide, fun T hT => hT.changesAt (hz _ _), fun u hu => ?_,
    by decide +kernel, by decide, by decide +kernel⟩
  have hshift : gmtPlus14.shift u = 50400 := rfl
  have := hu.1
  rw [toLocal, hshift]
  omega

end Almanac.Zone
