/-
# Machine integers

The 64-bit `int`, `int64` and `uint64` of Go on a 64-bit platform, as residues
read back into `ℤ` and `ℕ`.  Signed arithmetic wraps around: the machine value
of an expression is the balanced residue `Int.bmod _ (2 ^ 64)` of its exact
value, so the places where a source expression can leave the range of its type
are the places where `wrapInt` stands in a model.  The conversions between the
two 64-bit types keep the bit pattern.
-/

import Mathlib.Algebra.Order.Ring.Int
import Mathlib.Tactic.NormNum
import Mathlib.Tactic.Linarith

namespace GoInt

/-- The largest `int64`, `math.MaxInt64`. -/
def maxInt : ℤ := 2 ^ 63 - 1

/-- The smallest `int64`, `math.MinInt64`. -/
def minInt : ℤ := -2 ^ 63

/-- `x` is the value of some `int`. -/
def IsInt (x : ℤ) : Prop := minInt ≤ x ∧ x ≤ maxInt

instance (x : ℤ) : Decidable (IsInt x) := inferInstanceAs (Decidable (_ ∧ _))

/-- The `int` that an exact result wraps around to. -/
def wrapInt (x : ℤ) : ℤ := Int.bmod x (2 ^ 64)

/-- `uint64(x)` for an `int` `x`. -/
def toUint64 (x : ℤ) : ℕ := (x % 2 ^ 64).toNat

/-- `int(n)` for a `uint64` `n`. -/
def ofUint64 (n : ℕ) : ℤ := Int.bmod n (2 ^ 64)

theorem isInt_iff {x : ℤ} : IsInt x ↔ -9223372036854775808 ≤ x ∧ x ≤ 9223372036854775807 := by
  norm_num [IsInt, minInt, maxInt]

/-- Every wrapped value is an `int`. -/
theorem isInt_wrapInt (x : ℤ) : IsInt (wrapInt x) := by
  rw [isInt_iff]
  have hlo := Int.le_bmod (x := x) (m := 2 ^ 64) (by norm_num)
  have hhi := Int.bmod_lt (x := x) (m := 2 ^ 64) (by norm_num)
  unfold wrapInt
  norm_num at hlo hhi ⊢
  omega

theorem wrapInt_of_isInt {x : ℤ} (h : IsInt x) : wrapInt x = x := by
  rw [isInt_iff] at h
  exact Int.bmod_eq_of_le (by norm_num; omega) (by norm_num; omega)

/-- An exact result above the range, and below twice the range, comes out `2 ^ 64` lower. -/
theorem wrapInt_of_overflow {x : ℤ} (hlo : maxInt < x) (hhi : x ≤ maxInt + 2 ^ 64) :
    wrapInt x = x - 2 ^ 64 := by
  have h : IsInt (x - 2 ^ 64) := by
    unfold maxInt at hlo hhi
    rw [isInt_iff]
    constructor <;> linarith
  have hw := wrapInt_of_isInt h
  rw [← hw]
  exact Int.bmod_eq_bmod_iff_bmod_sub_eq_zero.2 (by rw [sub_sub_cancel]; decide)

/-- `x + 1` is never `x`, wrapped or not. -/
theorem wrapInt_succ_ne (x : ℤ) : wrapInt (x + 1) ≠ x := by
  intro h
  have hmod : wrapInt (x + 1) % 2 ^ 64 = (x + 1) % 2 ^ 64 := by
    exact_mod_cast Int.bmod_emod (x := x + 1) (m := 2 ^ 64)
  rw [h] at hmod
  omega

/-- Reading a non-negative `int` as a `uint64` keeps its value. -/
theorem toUint64_of_nonneg {x : ℤ} (h0 : 0 ≤ x) (h : IsInt x) : (toUint64 x : ℤ) = x := by
  rw [isInt_iff] at h
  unfold toUint64
  rw [Int.toNat_of_nonneg (Int.emod_nonneg _ (by norm_num))]
  exact Int.emod_eq_of_lt h0 (by norm_num; omega)

/-- A `uint64` in the range of `int` is read as the same number. -/
theorem ofUint64_of_le {n : ℕ} (h : (n : ℤ) ≤ maxInt) : ofUint64 n = n :=
  wrapInt_of_isInt ⟨by unfold minInt; omega, h⟩

/-- A `uint64` above the range of `int` is read as a negative number. -/
theorem ofUint64_of_lt {n : ℕ} (h : maxInt < (n : ℤ)) (hn : n < 2 ^ 64) : ofUint64 n < 0 := by
  have hn' : (n : ℤ) < 2 ^ 64 := by exact_mod_cast hn
  have heq : ofUint64 n = (n : ℤ) - 2 ^ 64 :=
    wrapInt_of_overflow h (by unfold maxInt; omega)
  omega

end GoInt
