import Mathlib.Data.BitVec
import Mathlib.Data.Set.Lattice
import Mathlib.Order.CompletePartialOrder
import Mathlib.Order.Interval.Set.Basic

/-!
# Regions of memory

A region is a number of bytes from an address on. Regions one after the other do not meet, nor do
two of a sequence of regions of equal size. Clearing the low bits of an address rounds it down.
-/

namespace QuantumFlow

def region (start len : ℕ) : Set ℕ := Set.Ico start (start + len)

theorem region_subset {start len start' len' : ℕ} (hstart : start' ≤ start)
    (hend : start + len ≤ start' + len') : region start len ⊆ region start' len' :=
  Set.Ico_subset_Ico hstart hend

theorem region_disjoint {start len start' len' : ℕ} (h : start + len ≤ start') :
    Disjoint (region start len) (region start' len') := by
  refine Set.disjoint_left.mpr fun x hx hx' => ?_
  have hlt := hx.2
  have hle := hx'.1
  omega

theorem region_disjoint_of_index_lt (base len : ℕ) {i j : ℕ} (h : i < j) :
    Disjoint (region (base + i * len) len) (region (base + j * len) len) := by
  have hle := Nat.mul_le_mul_right len h
  rw [Nat.succ_mul] at hle
  exact region_disjoint (by omega)

/-- Regions of one size at multiples of it do not meet. -/
theorem region_disjoint_of_index_ne (base len : ℕ) {i j : ℕ} (h : i ≠ j) :
    Disjoint (region (base + i * len) len) (region (base + j * len) len) := by
  rcases Nat.lt_or_gt_of_ne h with hlt | hgt
  · exact region_disjoint_of_index_lt base len hlt
  · exact (region_disjoint_of_index_lt base len hgt).symm

/-- One of `n` regions of one size lies in all of them together. -/
theorem region_index_subset (base len : ℕ) {i n : ℕ} (h : i < n) :
    region (base + i * len) len ⊆ region base (n * len) := by
  have hle := Nat.mul_le_mul_right len h
  rw [Nat.succ_mul] at hle
  exact region_subset (by omega) (by omega)

/-! ## Rounding down to 64 bytes -/

theorem toBitVec_and_not_63 (x : UInt64) : (x &&& ~~~63).toBitVec = (x.toBitVec >>> 6) <<< 6 := by
  apply BitVec.eq_of_getLsbD_eq
  intro i hi
  have h63 : (63#64).getLsbD i = decide (i < 6) := by
    rw [BitVec.getLsbD_ofNat]
    simp [hi, Nat.testBit_two_pow_sub_one 6 i]
  have hnot : (~~~(63 : UInt64)).toBitVec = ~~~(63#64) := rfl
  rw [UInt64.toBitVec_and, hnot, BitVec.getLsbD_and, BitVec.getLsbD_not, h63,
    BitVec.getLsbD_shiftLeft, BitVec.getLsbD_ushiftRight]
  by_cases hlow : i < 6
  · simp [hlow]
  · have hback : 6 + (i - 6) = i := by omega
    simp [hlow, hi, hback]

theorem toNat_and_not_63 (x : UInt64) : (x &&& ~~~63).toNat = x.toNat / 64 * 64 := by
  have hlt := x.toNat_lt
  rw [← UInt64.toNat_toBitVec, toBitVec_and_not_63, BitVec.toNat_shiftLeft,
    BitVec.toNat_ushiftRight, Nat.shiftRight_eq_div_pow, Nat.shiftLeft_eq, UInt64.toNat_toBitVec]
  omega

end QuantumFlow
