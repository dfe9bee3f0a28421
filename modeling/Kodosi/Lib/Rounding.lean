import Mathlib

/-! Rounding up to multiples of a unit. -/

namespace Kodosi.Lib

/-- The least multiple of the unit that is not below the number. -/
def roundUp (unit n : Nat) : Nat := (n + (unit - 1)) / unit * unit

variable {unit n m : Nat}

theorem dvd_roundUp : unit ∣ roundUp unit n := Dvd.intro_left _ rfl

theorem le_roundUp (h : 0 < unit) : n ≤ roundUp unit n := by
  have hdiv := Nat.div_add_mod (n + (unit - 1)) unit
  have hmod := Nat.mod_lt (n + (unit - 1)) h
  rw [roundUp, Nat.mul_comm]
  omega

theorem roundUp_lt (h : 0 < unit) : roundUp unit n < n + unit := by
  have hle := Nat.div_mul_le_self (n + (unit - 1)) unit
  rw [roundUp]
  omega

theorem roundUp_mono (h : n ≤ m) : roundUp unit n ≤ roundUp unit m :=
  Nat.mul_le_mul_right unit (Nat.div_le_div_right (Nat.add_le_add_right h _))

theorem roundUp_of_dvd (h : unit ∣ n) : roundUp unit n = n := by
  obtain ⟨k, rfl⟩ := h
  rcases Nat.eq_zero_or_pos unit with rfl | hpos
  · simp [roundUp]
  · rw [roundUp, Nat.mul_add_div hpos, Nat.div_eq_of_lt (by omega), Nat.add_zero, Nat.mul_comm]

/-- No multiple lies between a number and the multiple that it is rounded to. -/
theorem roundUp_le (h : n ≤ m) (hm : unit ∣ m) : roundUp unit n ≤ m :=
  (roundUp_mono h).trans_eq (roundUp_of_dvd hm)

end Kodosi.Lib
