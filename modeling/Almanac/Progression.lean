/-!
# Arithmetic progressions

`first`, `first + step`, `first + 2 * step` and so on, up to `last` and including it.

- `Progression.mem_values`: the values are exactly these.
- `Progression.pairwise_values`: they come in increasing order.
-/
namespace Almanac

structure Progression where
  first : Nat
  last : Nat
  step : Nat
deriving DecidableEq

namespace Progression

/-- How many values there are, when the step is positive. -/
def length (p : Progression) : Nat := (p.last + p.step - p.first) / p.step

def values (p : Progression) : List Nat := List.range' p.first p.length p.step

def contains (p : Progression) (v : Nat) : Bool := p.values.contains v

/-- The first value past `v`. -/
def after? (p : Progression) (v : Nat) : Option Nat := p.values.find? (v < ·)

theorem lt_length_iff {p : Progression} (h : 0 < p.step) {k : Nat} :
    k < p.length ↔ p.first + p.step * k ≤ p.last := by
  rw [length, ← Nat.succ_le_iff, Nat.le_div_iff_mul_le h, Nat.succ_mul, Nat.mul_comm k]
  omega

theorem mem_values {p : Progression} (h : 0 < p.step) {v : Nat} :
    v ∈ p.values ↔ v ≤ p.last ∧ ∃ k, v = p.first + p.step * k := by
  simp only [values, List.mem_range', lt_length_iff h]
  constructor
  · rintro ⟨k, hv, rfl⟩
    exact ⟨hv, k, rfl⟩
  · rintro ⟨hv, k, rfl⟩
    exact ⟨k, hv, rfl⟩

theorem pairwise_values {p : Progression} (h : 0 < p.step) : p.values.Pairwise (· < ·) :=
  List.pairwise_lt_range' _ h

end Progression
end Almanac
