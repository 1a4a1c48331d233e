import Almanac.Date
/-!
# Day numbers and dates are inverse to each other

- `dayNumber_ofDayNumber`, `ofDayNumber_dayNumber`: reading a day number and counting the days are
  inverse on the dates that exist.
- `valid_ofDayNumber`: every day number belongs to a date that exists.
-/
namespace Almanac.Date

theorem marchYear_spec (n : Int) :
    daysToMarch (marchYear n) ≤ n ∧ n < daysToMarch (marchYear n + 1) := by
  simp only [marchYear]
  generalize hg : 400 * n / 146097 = g
  split <;> rename_i h <;> simp only [daysToMarch] at h ⊢ <;> omega

/-- A year from March to March is long when it ends in a leap February. -/
theorem daysToMarch_succ (y : Int) :
    daysToMarch (y + 1) = daysToMarch y + if isLeap (y + 1) then 366 else 365 := by
  unfold daysToMarch
  by_cases h : isLeap (y + 1) = true <;> simp only [h, if_true, if_false, Bool.false_eq_true] <;>
    simp only [isLeap, Bool.and_eq_true, beq_iff_eq, Bool.or_eq_true, bne_iff_ne] at h <;> omega

theorem daysToMarch_succ_le (y : Int) :
    daysToMarch y + 365 ≤ daysToMarch (y + 1) ∧ daysToMarch (y + 1) ≤ daysToMarch y + 366 := by
  rw [daysToMarch_succ]; split <;> omega

theorem daysToMarch_mono {x y : Int} (h : x ≤ y) : daysToMarch x ≤ daysToMarch y := by
  simp only [daysToMarch]; omega

/-- The year that contains a day is the only one that does. -/
theorem marchYear_eq {y n : Int} (h : daysToMarch y ≤ n) (h' : n < daysToMarch (y + 1)) :
    marchYear n = y := by
  obtain ⟨hl, hr⟩ := marchYear_spec n
  rcases Int.lt_trichotomy (marchYear n) y with hlt | heq | hgt
  · have := daysToMarch_mono (show marchYear n + 1 ≤ y by omega); omega
  · exact heq
  · have := daysToMarch_mono (show y + 1 ≤ marchYear n by omega); omega

theorem dayNumber_ofDayNumber (n : Int) : (ofDayNumber n).dayNumber = n := by
  have h := marchYear_spec (n + marchEpoch)
  have hl := daysToMarch_succ_le (marchYear (n + marchEpoch))
  simp only [ofDayNumber]
  generalize marchYear (n + marchEpoch) = y at h hl ⊢
  generalize hr : n + marchEpoch - daysToMarch y = r
  have hr0 : 0 ≤ r := by omega
  have hr1 : r < 366 := by omega
  generalize hm : (5 * r + 2) / 153 = m
  split <;> rename_i hc
  · have hs : ¬ (m + 3).toNat ≤ 2 := by omega
    simp only [dayNumber, hs, if_false, daysToMonth]
    omega
  · have hs : (m - 9).toNat ≤ 2 := by omega
    simp only [dayNumber, hs, if_true, daysToMonth, Int.add_sub_cancel]
    omega

theorem valid_ofDayNumber (n : Int) : (ofDayNumber n).Valid := by
  have h := marchYear_spec (n + marchEpoch)
  have hl := daysToMarch_succ (marchYear (n + marchEpoch))
  simp only [ofDayNumber]
  generalize marchYear (n + marchEpoch) = y at h hl ⊢
  generalize hr : n + marchEpoch - daysToMarch y = r
  have hr0 : 0 ≤ r := by omega
  have hr1 : r < if isLeap (y + 1) = true then 366 else 365 := by omega
  have hr2 : r < 366 := by split at hr1 <;> omega
  clear hl h hr
  generalize hm : (5 * r + 2) / 153 = m
  have hcases : m = 0 ∨ m = 1 ∨ m = 2 ∨ m = 3 ∨ m = 4 ∨ m = 5 ∨ m = 6 ∨ m = 7 ∨ m = 8 ∨ m = 9 ∨
      m = 10 ∨ m = 11 := by omega
  rcases hcases with rfl | rfl | rfl | rfl | rfl | rfl | rfl | rfl | rfl | rfl | rfl | rfl <;>
    simp [Valid, daysInMonth, daysToMonth] <;> try omega
  split at hr1 <;> simp_all <;> omega

theorem daysInMonth_le (y : Int) (m : Nat) : daysInMonth y m ≤ 31 := by
  unfold daysInMonth; repeat' split
  all_goals omega

theorem daysInMonth_february (y : Int) : daysInMonth y 2 = if isLeap y then 29 else 28 := rfl

theorem daysInMonth_short {m : Nat} (h : m = 4 ∨ m = 6 ∨ m = 9 ∨ m = 11) (y : Int) :
    daysInMonth y m = 30 := by
  rcases h with rfl | rfl | rfl | rfl <;> rfl

/-- Within the days of the `m`-th month after March the month is read back as `m`. -/
theorem month_of_daysToMonth {m k : Int} (h1 : 1 ≤ k)
    (h : daysToMonth m + k - 1 < daysToMonth (m + 1)) : (5 * (daysToMonth m + k - 1) + 2) / 153 = m := by
  simp only [daysToMonth] at *; omega

/-- The date on day `r` of the year that begins in March of `y`, when that day comes before the
next January. -/
theorem ofDayNumber_before_january {y r : Int} (h0 : 0 ≤ r) (h1 : r < 306) :
    ofDayNumber (daysToMarch y + r - marchEpoch) =
      ⟨y, ((5 * r + 2) / 153 + 3).toNat, (r - daysToMonth ((5 * r + 2) / 153) + 1).toNat⟩ := by
  have hl := daysToMarch_succ_le y
  have hy : marchYear (daysToMarch y + r) = y := marchYear_eq (by omega) (by omega)
  have hr : daysToMarch y + r - daysToMarch y = r := by omega
  simp only [ofDayNumber, Int.sub_add_cancel, hy, hr]
  rw [if_pos (by omega)]

/-- The same for a day in January or February, the end of the year that begins in March. -/
theorem ofDayNumber_from_january {y r : Int} (h0 : 306 ≤ r)
    (h1 : r < daysToMarch (y + 1) - daysToMarch y) :
    ofDayNumber (daysToMarch y + r - marchEpoch) =
      ⟨y + 1, ((5 * r + 2) / 153 - 9).toNat, (r - daysToMonth ((5 * r + 2) / 153) + 1).toNat⟩ := by
  have hy : marchYear (daysToMarch y + r) = y := marchYear_eq (by omega) (by omega)
  have hr : daysToMarch y + r - daysToMarch y = r := by omega
  simp only [ofDayNumber, Int.sub_add_cancel, hy, hr]
  rw [if_neg (by omega)]

theorem ofDayNumber_dayNumber {d : Date} (hd : d.Valid) : ofDayNumber d.dayNumber = d := by
  obtain ⟨y, m, k⟩ := d
  obtain ⟨hm1, hm12, hk1, hk⟩ := hd
  simp only at hm1 hm12 hk1 hk
  have hk31 := Nat.le_trans hk (daysInMonth_le y m)
  have hk30 : (m = 4 ∨ m = 6 ∨ m = 9 ∨ m = 11) → k ≤ 30 := fun h => daysInMonth_short h y ▸ hk
  have hk2 : m = 2 → k ≤ if isLeap y then 29 else 28 := fun h => daysInMonth_february y ▸ h ▸ hk
  have hk29 : m = 2 → k ≤ 29 := fun h => by have := hk2 h; split at this <;> omega
  by_cases hm : m ≤ 2
  · have hl := daysToMarch_succ (y - 1)
    rw [Int.sub_add_cancel] at hl
    have hr : daysToMonth (m + 9) + k - 1 < daysToMarch (y - 1 + 1) - daysToMarch (y - 1) := by
      rw [Int.sub_add_cancel, hl]
      by_cases hy : isLeap y = true <;>
        simp only [hy, if_true, if_false, daysToMonth, Bool.false_eq_true] at hk2 ⊢ <;> omega
    have he : (⟨y, m, k⟩ : Date).dayNumber =
        daysToMarch (y - 1) + (daysToMonth (m + 9) + k - 1) - marchEpoch := by
      simp only [dayNumber, hm, if_true]; omega
    rw [he, ofDayNumber_from_january (by simp only [daysToMonth]; omega) hr,
      month_of_daysToMonth (by omega) (by simp only [daysToMonth]; omega), Date.mk.injEq]
    omega
  · have he : (⟨y, m, k⟩ : Date).dayNumber =
        daysToMarch y + (daysToMonth (m - 3) + k - 1) - marchEpoch := by
      simp only [dayNumber, hm, if_false]; omega
    have hlen : daysToMonth (m - 3) + k - 1 < daysToMonth (m - 3 + 1) := by
      simp only [daysToMonth]
      rcases (show m = 3 ∨ m = 4 ∨ m = 5 ∨ m = 6 ∨ m = 7 ∨ m = 8 ∨ m = 9 ∨ m = 10 ∨ m = 11 ∨
        m = 12 by omega) with rfl | rfl | rfl | rfl | rfl | rfl | rfl | rfl | rfl | rfl <;> omega
    rw [he, ofDayNumber_before_january (by simp only [daysToMonth]; omega)
        (by simp only [daysToMonth] at hlen ⊢; omega),
      month_of_daysToMonth (by omega) hlen, Date.mk.injEq]
    omega

end Almanac.Date
