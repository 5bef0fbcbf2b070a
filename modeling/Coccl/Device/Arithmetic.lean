import Coccl.Basic

/-!
# Integers on the device

Kernels count in `int` and `unsigned int` what their callers give as `size_t`. A signed product or
sum is taken to wrap.
-/

namespace Coccl

/-- `(int)`. -/
def toInt (n : ℕ) : ℤ := Int.bmod n (2 ^ 32)

/-- `(unsigned int)`. -/
def toUnsigned (n : ℤ) : ℕ := (n % 2 ^ 32).toNat

/-- `DIVUP` on `size_t`. -/
def divUp (x y : ℕ) : ℕ := sizeAdd x (y - 1) / y

theorem bmod_of_lt {n : ℤ} (hnonneg : 0 ≤ n) (h : n < 2 ^ 31) : Int.bmod n (2 ^ 32) = n :=
  Int.bmod_eq_of_le (by norm_num; omega) (by norm_num; omega)

theorem toInt_of_lt {n : ℕ} (h : n < 2 ^ 31) : toInt n = n :=
  bmod_of_lt (by omega) (by exact_mod_cast h)

theorem toInt_nonpos {n : ℕ} (h : 2 ^ 31 ≤ n) (h' : n ≤ 2 ^ 32) : toInt n ≤ 0 := by
  unfold toInt
  rw [Int.bmod_def]
  split_ifs <;> omega

theorem toUnsigned_toInt_mul (n : ℕ) (i : ℤ) (m : ℕ) :
    toUnsigned (toInt n * i + m) = toUnsigned (n * i + m) := by
  have hmod : (toInt n * i + m) % ((2 ^ 32 : ℕ) : ℤ) = (n * i + m) % ((2 ^ 32 : ℕ) : ℤ) := by
    have hn : Int.ModEq ((2 ^ 32 : ℕ) : ℤ) (toInt n) n := Int.bmod_emod
    exact (hn.mul_right i).add_right m
  exact congrArg Int.toNat hmod

theorem toUnsigned_natCast (n : ℕ) : toUnsigned n = n % 2 ^ 32 := by
  have hmod : (n : ℤ) % 2 ^ 32 = (n % 2 ^ 32 : ℕ) := by
    push_cast
    rfl
  rw [toUnsigned, hmod, Int.toNat_natCast]

theorem toUnsigned_toInt (n : ℕ) : toUnsigned (toInt n) = n % 2 ^ 32 := by
  have h := toUnsigned_toInt_mul n 1 0
  simp only [mul_one, Nat.cast_zero, add_zero] at h
  rw [h, toUnsigned_natCast]

theorem toUnsigned_lt (n : ℤ) : toUnsigned n < 2 ^ 32 := by
  have hnonneg := Int.emod_nonneg n (show (2 ^ 32 : ℤ) ≠ 0 by norm_num)
  have hlt := Int.emod_lt_of_pos n (show (0 : ℤ) < 2 ^ 32 by norm_num)
  unfold toUnsigned
  omega

end Coccl
