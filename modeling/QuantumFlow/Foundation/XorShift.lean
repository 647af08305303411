import Mathlib.Data.FinEnum
import Mathlib.Data.Fintype.EquivFin
import Mathlib.Logic.Function.Iterate

/-!
# Xor-shifts are bijections

Adding to a word the image of an additive map loses nothing when the map is nilpotent: two words
with one sum differ by a fixed point of the map, and zero is the only one. A shift by at least one
place is such a map.
-/

namespace QuantumFlow

variable {w : ℕ}

/-- A fixed point of a map survives its powers, one of which is zero. -/
theorem xor_injective_of_nilpotent {f : BitVec w → BitVec w}
    (hadd : ∀ x y, f (x ^^^ y) = f x ^^^ f y) {n : ℕ} (hnil : ∀ x, f^[n] x = 0#w) :
    Function.Injective fun x => x ^^^ f x := by
  intro x y h
  have hfixed : f (x ^^^ y) = x ^^^ y := by
    rw [hadd]
    calc f x ^^^ f y = x ^^^ (x ^^^ f x) ^^^ f y := by rw [← BitVec.xor_assoc, BitVec.xor_self,
          BitVec.zero_xor]
      _ = x ^^^ (y ^^^ f y) ^^^ f y := by rw [show x ^^^ f x = y ^^^ f y from h]
      _ = x ^^^ y := by rw [BitVec.xor_assoc, BitVec.xor_assoc, BitVec.xor_self, BitVec.xor_zero]
  have hzero : x ^^^ y = 0#w := by rw [← Function.iterate_fixed hfixed n, hnil]
  exact BitVec.xor_eq_zero_iff.mp hzero

theorem iterate_shiftLeft (k n : ℕ) (x : BitVec w) :
    (fun y : BitVec w => y <<< k)^[n] x = x <<< (k * n) := by
  induction n with
  | zero => simp
  | succ n ih => rw [Function.iterate_succ_apply', ih, Nat.mul_succ, BitVec.shiftLeft_add]

theorem iterate_shiftRight (k n : ℕ) (x : BitVec w) :
    (fun y : BitVec w => y >>> k)^[n] x = x >>> (k * n) := by
  induction n with
  | zero => simp
  | succ n ih => rw [Function.iterate_succ_apply', ih, Nat.mul_succ, BitVec.shiftRight_add]

def xorShiftLeft (k : ℕ) (x : BitVec w) : BitVec w := x ^^^ (x <<< k)

def xorShiftRight (k : ℕ) (x : BitVec w) : BitVec w := x ^^^ (x >>> k)

theorem xorShiftLeft_bijective {k : ℕ} (hk : 0 < k) :
    Function.Bijective (xorShiftLeft (w := w) k) := by
  refine Finite.injective_iff_bijective.mp (xor_injective_of_nilpotent (n := w)
    (fun x y => BitVec.shiftLeft_xor_distrib x y k) fun x => ?_)
  rw [iterate_shiftLeft]
  exact BitVec.shiftLeft_eq_zero (Nat.le_mul_of_pos_left w hk)

theorem xorShiftRight_bijective {k : ℕ} (hk : 0 < k) :
    Function.Bijective (xorShiftRight (w := w) k) := by
  refine Finite.injective_iff_bijective.mp (xor_injective_of_nilpotent (n := w)
    (fun x y => BitVec.ushiftRight_xor_distrib x y k) fun x => ?_)
  rw [iterate_shiftRight]
  exact BitVec.ushiftRight_eq_zero (Nat.le_mul_of_pos_left w hk)

end QuantumFlow
