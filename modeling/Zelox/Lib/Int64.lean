import Mathlib.Order.Basic
import Mathlib.Tactic.Common

/-!
# Fixed-width time arithmetic

`saturatingAdd`, `saturatingSub` and `saturatingMul` clamp the exact result to
the 64-bit range, as Rust's methods of the same names do; `checkedSub` fails outside it.
Plain sums and differences wrap; `toInt_add_le` and `toInt_sub_le` bound them from above.
-/

namespace Int64

/-- `x` clamped into the 64-bit range. -/
def clamp (x : Int) : Int64 :=
  if x < minValue.toInt then minValue
  else if maxValue.toInt < x then maxValue
  else ofInt x

def saturatingAdd (a b : Int64) : Int64 := clamp (a.toInt + b.toInt)

def saturatingSub (a b : Int64) : Int64 := clamp (a.toInt - b.toInt)

def saturatingMul (a b : Int64) : Int64 := clamp (a.toInt * b.toInt)

/-- `x` if it fits into 64 bits. -/
def checked (x : Int) : Option Int64 :=
  if minValue.toInt ≤ x ∧ x ≤ maxValue.toInt then some (ofInt x) else none

def checkedSub (a b : Int64) : Option Int64 := checked (a.toInt - b.toInt)

theorem toInt_minValue_eq : minValue.toInt = -9223372036854775808 := by decide

theorem toInt_maxValue_eq : maxValue.toInt = 9223372036854775807 := by decide

theorem toInt_bounds (a : Int64) :
    -9223372036854775808 ≤ a.toInt ∧ a.toInt ≤ 9223372036854775807 := by
  have h1 := minValue_le_toInt a
  have h2 := toInt_le a
  exact ⟨h1, h2⟩

theorem toInt_clamp (x : Int) :
    (clamp x).toInt = max (-9223372036854775808) (min x 9223372036854775807) := by
  unfold clamp
  rw [toInt_minValue_eq, toInt_maxValue_eq]
  split
  · rw [toInt_minValue_eq]; omega
  · split
    · rw [toInt_maxValue_eq]; omega
    · rw [toInt_ofInt_of_le (by omega) (by omega)]; omega

theorem saturatingSub_mono (a b l : Int64) (h : a ≤ b) : saturatingSub a l ≤ saturatingSub b l := by
  rw [le_iff_toInt_le] at *
  unfold saturatingSub
  rw [toInt_clamp, toInt_clamp]
  omega

theorem saturatingAdd_zero (a : Int64) : saturatingAdd a 0 = a := by
  have := toInt_bounds a
  rw [← toInt_inj, saturatingAdd, toInt_clamp, toInt_zero]
  omega

theorem saturatingSub_zero (a : Int64) : saturatingSub a 0 = a := by
  have := toInt_bounds a
  rw [← toInt_inj, saturatingSub, toInt_clamp, toInt_zero]
  omega

section

variable (a b : Int64)

/-- A sum that does not fall below the range is at most the exact one. -/
theorem toInt_add_le (h : minValue.toInt ≤ a.toInt + b.toInt) :
    (a + b).toInt ≤ a.toInt + b.toInt := by
  rw [toInt_minValue_eq] at h
  rw [toInt_add, Int.bmod_def]
  split <;> omega

theorem toInt_sub_le (h : minValue.toInt ≤ a.toInt - b.toInt) :
    (a - b).toInt ≤ a.toInt - b.toInt := by
  rw [toInt_minValue_eq] at h
  rw [toInt_sub, Int.bmod_def]
  split <;> omega

theorem max_eq_ite : max a b = if a ≤ b then b else a := rfl

theorem min_eq_ite : min a b = if a ≤ b then a else b := rfl

theorem toInt_max : (max a b).toInt = max a.toInt b.toInt := by
  rw [max_eq_ite]
  split
  · next h => rw [le_iff_toInt_le] at h; omega
  · next h => rw [le_iff_toInt_le] at h; omega

theorem toInt_min : (min a b).toInt = min a.toInt b.toInt := by
  rw [min_eq_ite]
  split
  · next h => rw [le_iff_toInt_le] at h; omega
  · next h => rw [le_iff_toInt_le] at h; omega

theorem le_max_left : a ≤ max a b := by
  rw [le_iff_toInt_le, toInt_max]
  omega

theorem le_max_right : b ≤ max a b := by
  rw [le_iff_toInt_le, toInt_max]
  omega

theorem min_le_left : min a b ≤ a := by
  rw [le_iff_toInt_le, toInt_min]
  omega

theorem min_le_right : min a b ≤ b := by
  rw [le_iff_toInt_le, toInt_min]
  omega

end

end Int64
