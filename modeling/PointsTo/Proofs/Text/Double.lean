import Mathlib.Data.Nat.Digits.Defs
import PointsTo.Text.Double

/-! Integers of 64 bits are far from rounding to infinity. -/
namespace PointsTo

variable {n : Nat}

theorem roundToDouble_le (n : Nat) : roundToDouble n ≤ 2 * n := by
  by_cases hzero : n = 0
  · subst hzero
    decide
  · have hunit : capacity (n.log2 - 52) ≤ n :=
      le_trans (Nat.pow_le_pow_right (by omega) (by omega)) (Nat.log2_self_le hzero)
    have hwhole : n / capacity (n.log2 - 52) * capacity (n.log2 - 52) ≤ n := Nat.div_mul_le_self ..
    simp only [roundToDouble, Nat.add_mul]
    split <;> omega

theorem leadingDigits_of_lt (h : n < capacity 64) : leadingDigits n = (n, 0) := by
  have hten : capacity 64 ≤ 10 ^ 20 := by decide +kernel
  have hlength := Nat.toDigits_length 10 n 20 (by omega) (lt_of_lt_of_le h hten)
  have hsurplus : (Nat.toDigits 10 n).length - 20 = 0 := by omega
  have hhead : n / Nat.pow 10 0 = n := Nat.div_one n
  simp only [leadingDigits, hsurplus, hhead, if_pos h]

theorem productFitsDouble_of_lt (h : n < capacity 64) : productFitsDouble n 0 = true := by
  have hpow : Nat.pow 10 ((0 : Int) + ((0 : Nat) : Int)).toNat = 1 := rfl
  have hone : roundToDouble 1 = 1 := by decide
  have hdouble : 2 * n < 2 * capacity 64 := by omega
  have hlimit : 2 * capacity 64 < doubleLimit := by decide +kernel
  have hround := lt_trans (lt_of_le_of_lt (roundToDouble_le n) hdouble) hlimit
  unfold productFitsDouble
  rw [leadingDigits_of_lt h]
  dsimp only
  by_cases hzero : n = 0
  · rw [if_pos (.inl hzero)]
  · rw [if_neg (not_or.2 ⟨hzero, by decide⟩), if_neg (by decide), hpow, hone, Nat.mul_one]
    exact decide_eq_true hround

end PointsTo
