import Mathlib.Data.Rat.Floor
import Mathlib.Tactic.Positivity

/-!
# Machine integers and integers

How the conversions and quotients of C's `int`, `long` and `unsigned long` read as integers, and
the ceiling of a quotient as its integer division.
-/

namespace Hipert

/-- The conversion of a non-negative `long` to `unsigned long`. -/
theorem toNat_toUInt64 {a : Int64} (nonneg : 0 ≤ a.toInt) : (a.toUInt64.toNat : ℤ) = a.toInt := by
  have zero_le : 0 ≤ a := by
    rw [Int64.le_iff_toInt_le]
    simpa using nonneg
  rw [Int64.toNat_toUInt64_of_le zero_le]
  exact Int64.cast_toNatClampNeg _ zero_le

/-- The conversion of a non-negative `int` to `unsigned long`. -/
theorem toNat_toInt64_toUInt64 {a : Int32} (nonneg : 0 ≤ a.toInt) :
    (a.toInt64.toUInt64.toNat : ℤ) = a.toInt := by
  rw [toNat_toUInt64 (by rwa [Int32.toInt_toInt64]), Int32.toInt_toInt64]

/-- The conversion of an `unsigned long` to `long` where it fits. -/
theorem toInt_toInt64 {a : UInt64} (fits : a.toNat < 2 ^ 63) : a.toInt64.toInt = a.toNat := by
  have reads : a.toBitVec.toInt = a.toBitVec.toNat := by
    apply BitVec.toInt_eq_toNat_of_lt
    rw [UInt64.toNat_toBitVec]
    omega
  exact reads

/-- A 32-bit reading is the number itself where it is in the range of an `int`. -/
theorem bmod32_eq_self {x : ℤ} (low : -2 ^ 31 ≤ x) (high : x < 2 ^ 31) : x.bmod (2 ^ 32) = x := by
  rw [Int.bmod_def]
  split <;> omega

theorem bmod32_add_one (x : ℤ) : (x.bmod (2 ^ 32) + 1).bmod (2 ^ 32) = (x + 1).bmod (2 ^ 32) := by
  simp

/-- The additions of `int`s form a group. -/
instance addCommGroupInt32 : AddCommGroup Int32 where
  add_assoc := Int32.add_assoc
  zero_add := Int32.zero_add
  add_zero := Int32.add_zero
  add_comm := Int32.add_comm
  neg_add_cancel := Int32.add_left_neg
  sub_eq_add_neg := Int32.sub_eq_add_neg
  nsmul := nsmulRec
  zsmul := zsmulRec

/-- Sums of `int`s are read as one sum of integers. -/
theorem add_ofInt_add_ofInt (x : Int32) (a b : ℤ) :
    x + Int32.ofInt a + Int32.ofInt b = x + Int32.ofInt (a + b) := by
  rw [Int32.ofInt_add, Int32.add_assoc]

/-- What an `int` shows of a number is the number where it is in the range of an `int`. -/
theorem toInt_ofInt_eq_iff {a : ℤ} : (Int32.ofInt a).toInt = a ↔ -2 ^ 31 ≤ a ∧ a < 2 ^ 31 := by
  refine ⟨?_, ?_⟩
  · intro same
    have low := (Int32.ofInt a).le_toInt
    have high := (Int32.ofInt a).toInt_lt
    omega
  · intro given
    rcases given with ⟨low, high⟩
    exact Int32.toInt_ofInt_of_le low high

/-- A 64-bit reading is the number itself where it is in the range of a `long`. -/
theorem bmod64_eq_self {x : ℤ} (low : -2 ^ 63 ≤ x) (high : x < 2 ^ 63) : x.bmod (2 ^ 64) = x := by
  rw [Int.bmod_def]
  split <;> omega

/-- The quotient of `long` integers, where none is negative. -/
theorem toInt_div {a b : Int64} (nonneg : 0 ≤ a.toInt) (positive : 0 < b.toInt) :
    (a / b).toInt = a.toInt / b.toInt := by
  have low := Int.ediv_nonneg nonneg positive.le
  have high := Int.ediv_le_self b.toInt nonneg
  have bound := a.toInt_lt
  rw [Int64.toInt_div, Int.tdiv_eq_ediv_of_nonneg nonneg, bmod64_eq_self (by omega) (by omega)]

theorem toNat_ediv {a b : ℤ} (a_nonneg : 0 ≤ a) (b_nonneg : 0 ≤ b) :
    (a / b).toNat = a.toNat / b.toNat := by
  apply Int.natCast_inj.mp
  rw [Int.toNat_of_nonneg (Int.ediv_nonneg a_nonneg b_nonneg), Int.natCast_div,
    Int.toNat_of_nonneg a_nonneg, Int.toNat_of_nonneg b_nonneg]

/-- A 32-bit reading is positive where the remainder is below the sign bit and not zero. -/
theorem bmod32_pos_iff {x : ℤ} :
    0 < x.bmod (2 ^ 32) ↔ 0 < x % 2 ^ 32 ∧ x % 2 ^ 32 < 2 ^ 31 := by
  rw [Int.bmod_def]
  split <;> omega

theorem bmod32_of_pos {x : ℤ} (pos : 0 < x.bmod (2 ^ 32)) : x.bmod (2 ^ 32) = x % 2 ^ 32 := by
  have range := bmod32_pos_iff.mp pos
  rw [Int.bmod_def]
  split <;> omega

/-- The ceiling of a quotient. -/
theorem ceil_div_eq {a b : ℤ} (pos : 0 < b) :
    ⌈(a : ℚ) / b⌉ = a / b + if a % b = 0 then 0 else 1 := by
  have split : (a : ℚ) = b * (a / b : ℤ) + (a % b : ℤ) := by
    exact_mod_cast (Int.mul_ediv_add_emod a b).symm
  have b_pos : (0 : ℚ) < b := by exact_mod_cast pos
  rw [split, add_div, mul_div_cancel_left₀ _ b_pos.ne', Int.ceil_intCast_add]
  congr 1
  split
  next none => simp [none]
  next some =>
    have nonneg := Int.emod_nonneg a pos.ne'
    have one : (1 : ℚ) ≤ (a % b : ℤ) := by exact_mod_cast (by omega : (1 : ℤ) ≤ a % b)
    have less : ((a % b : ℤ) : ℚ) < b := by exact_mod_cast Int.emod_lt_of_pos a pos
    apply Int.ceil_eq_iff.mpr
    refine ⟨?_, ?_⟩
    · rw [Int.cast_one, sub_self]
      positivity
    · rw [div_le_iff₀ b_pos, Int.cast_one, one_mul]
      exact less.le

end Hipert
