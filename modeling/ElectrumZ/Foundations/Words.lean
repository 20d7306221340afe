import Mathlib.Data.Int.ModEq
import Mathlib.Tactic.Positivity

/-!
# Integers of fixed width

What an integer becomes when it is converted to a type of `w` bits.

* `toUnsigned w` keeps it modulo `2 ^ w`, `toSigned w` its balanced residue.
* `toUnsigned_of_lt`, `toSigned_of_bounds`: what fits is kept.
* `toSigned_modEq`, `toUnsigned_of_modEq`: a chain of conversions and additions is followed modulo
  `2 ^ w`, and read off at its end.
-/

namespace Foundations

/-- The conversion to an unsigned type of `w` bits. -/
def toUnsigned (w : ℕ) (n : ℤ) : ℕ := (n % 2 ^ w).toNat

/-- The conversion to a signed type of `w` bits. -/
def toSigned (w : ℕ) (n : ℤ) : ℤ := n.bmod (2 ^ w)

variable {w m : ℕ} {n : ℤ}

/-- What a number is modulo `2 ^ w` decides what it is converted to. -/
theorem toUnsigned_of_modEq (hm : m < 2 ^ w) (h : n ≡ m [ZMOD 2 ^ w]) : toUnsigned w n = m := by
  have hlt : (m : ℤ) < 2 ^ w := by exact_mod_cast hm
  rw [toUnsigned, h, Int.emod_eq_of_lt (Int.natCast_nonneg m) hlt, Int.toNat_natCast]

theorem toUnsigned_of_lt (hm : m < 2 ^ w) : toUnsigned w m = m := toUnsigned_of_modEq hm rfl

theorem toSigned_modEq (w : ℕ) (n : ℤ) : toSigned w n ≡ n [ZMOD 2 ^ w] := by
  have h := @Int.bmod_emod n (2 ^ w)
  push_cast at h
  exact h

theorem toSigned_of_bounds (h₁ : -2 ^ w ≤ 2 * n) (h₂ : 2 * n < 2 ^ w) : toSigned w n = n := by
  refine Int.bmod_eq_of_le_mul_two ?_ ?_
  · push_cast
    omega
  · push_cast
    omega

theorem toSigned_of_lt (hm : 2 * m < 2 ^ w) : toSigned w m = m := by
  have hlt : 2 * (m : ℤ) < 2 ^ w := by exact_mod_cast hm
  exact toSigned_of_bounds (by omega) hlt

end Foundations
