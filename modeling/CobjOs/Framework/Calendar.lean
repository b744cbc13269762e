import CobjOs.Framework.Segments
import Mathlib.Tactic.IntervalCases

/-!
# The Gregorian calendar

Which years have a leap day, and how long the months are.  A year is its twelve months, and
`yearLength_eq` counts their days.
-/

namespace CobjOs

namespace Calendar

open Segments

/-- Every fourth year, but of the full centuries only every fourth. -/
def LeapYear (y : ℕ) : Prop := 4 ∣ y ∧ (100 ∣ y → 400 ∣ y)

instance (y : ℕ) : Decidable (LeapYear y) := inferInstanceAs (Decidable (_ ∧ _))

/-- The days of month `m`, counted from 1, of year `y`. -/
def monthLength (y m : ℕ) : ℕ :=
  if m = 2 then (if LeapYear y then 29 else 28)
  else if m = 4 ∨ m = 6 ∨ m = 9 ∨ m = 11 then 30
  else 31

/-- The days of a year. -/
def yearLength (y : ℕ) : ℕ := span (monthLength y) 1 12

lemma yearLength_eq (y : ℕ) : yearLength y = if LeapYear y then 366 else 365 := by
  by_cases hy : LeapYear y <;> simp [yearLength, span, List.range', monthLength, hy]

lemma le_yearLength (y : ℕ) : 365 ≤ yearLength y := by
  rw [yearLength_eq]
  split_ifs <;> omega

lemma yearLength_le (y : ℕ) : yearLength y ≤ 366 := by
  rw [yearLength_eq]
  split_ifs <;> omega

lemma monthLength_le (y m : ℕ) : monthLength y m ≤ 31 := by
  rw [monthLength]
  split_ifs <;> omega

end Calendar

end CobjOs
