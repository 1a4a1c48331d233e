/-!
# Decimal numerals

- `Numeral.read?`: a text of ASCII digits that is not empty, as a number.
- `Numeral.padded`: a number with zeros in front up to a width.
- `Numeral.read?_padded`: what is written with zeros in front reads back.
-/
namespace Almanac.Numeral

/-- The number that the digits write. -/
def value (digits : List Char) : Nat := Nat.ofDigitChars 10 digits 0

/-- The number, if the text is one or more ASCII digits and writes no more than `most`. -/
def read? (most : Nat) (text : List Char) : Option Nat :=
  if text ≠ [] ∧ text.all Char.isDigit ∧ value text ≤ most then some (value text) else none

def digits (n : Nat) : String := String.ofList (Nat.toDigits 10 n)

/-- At least `width` characters, with `fill` in front of the digits. -/
def aligned (fill : Char) (width n : Nat) : String :=
  String.ofList ((Nat.toDigits 10 n).leftpad width fill)

/-- At least `width` digits, with zeros in front. -/
def padded (width n : Nat) : String := aligned '0' width n

theorem toList_digits (n : Nat) : (digits n).toList = Nat.toDigits 10 n := by simp [digits]

theorem toList_padded (width n : Nat) :
    (padded width n).toList =
      List.replicate (width - (Nat.toDigits 10 n).length) '0' ++ Nat.toDigits 10 n := by
  simp [padded, aligned, List.leftpad]

theorem padded_ne_nil (width n : Nat) : (padded width n).toList ≠ [] := by
  rw [toList_padded]; simp [Nat.toDigits_ne_nil]

theorem isDigit_of_mem_padded {width n : Nat} {c : Char} (h : c ∈ (padded width n).toList) :
    c.isDigit := by
  rw [toList_padded] at h
  rcases List.mem_append.1 h with h | h
  · rw [List.eq_of_mem_replicate h]; decide
  · exact Nat.isDigit_of_mem_toDigits (b := 10) (by decide) (by decide) h

theorem isDigit_of_mem_digits {n : Nat} {c : Char} (h : c ∈ (digits n).toList) : c.isDigit := by
  rw [toList_digits] at h
  exact Nat.isDigit_of_mem_toDigits (b := 10) (by decide) (by decide) h

theorem read?_padded {most n : Nat} (h : n ≤ most) (width : Nat) :
    read? most (padded width n).toList = some n := by
  have hv : value (padded width n).toList = n := by
    rw [toList_padded, value, Nat.ofDigitChars_append, Nat.ofDigitChars_replicate_zero]
    simp
  have hd : (padded width n).toList.all Char.isDigit = true :=
    List.all_eq_true.2 fun _ => isDigit_of_mem_padded
  rw [read?, if_pos ⟨padded_ne_nil width n, hd, by rwa [hv]⟩, hv]

theorem read?_digits {most n : Nat} (h : n ≤ most) : read? most (digits n).toList = some n := by
  have := read?_padded h 0
  rwa [toList_padded, Nat.zero_sub, List.replicate_zero, List.nil_append, ← toList_digits] at this

end Almanac.Numeral
