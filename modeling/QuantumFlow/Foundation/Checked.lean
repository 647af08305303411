import Mathlib.Algebra.Order.Ring.Int
import Mathlib.Data.Int.Notation

/-!
# Arithmetic that is defined

A result of a signed or unsigned 64-bit operation, when it is in the range of its type, and a
quotient, when the divisor is not zero. Casting a signed number to an unsigned one wraps.
-/

namespace QuantumFlow

def i64 (n : ℤ) : Option ℤ := if -2 ^ 63 ≤ n ∧ n < 2 ^ 63 then some n else none

def usize (n : ℕ) : Option ℕ := if n < 2 ^ 64 then some n else none

def i64Div (a b : ℤ) : Option ℤ := if b = 0 then none else i64 (a.tdiv b)

def asUsize (n : ℤ) : ℕ := (n % 2 ^ 64).toNat

theorem usize_eq_some_iff {n r : ℕ} : usize n = some r ↔ n < 2 ^ 64 ∧ n = r := by
  unfold usize
  split <;> simp_all

theorem i64_natCast_eq_some_iff {n : ℕ} {r : ℤ} : i64 n = some r ↔ n < 2 ^ 63 ∧ (n : ℤ) = r := by
  by_cases h : n < 2 ^ 63
  · have hrange : -2 ^ 63 ≤ (n : ℤ) ∧ (n : ℤ) < 2 ^ 63 := by omega
    rw [i64, if_pos hrange, Option.some.injEq, and_iff_right h]
  · have hrange : ¬ (-2 ^ 63 ≤ (n : ℤ) ∧ (n : ℤ) < 2 ^ 63) := by omega
    rw [i64, if_neg hrange, eq_comm, iff_false_left (Option.some_ne_none r)]
    exact fun hlt => h hlt.1

/-! ## Sequences of checked operations -/

theorem i64_bind_eq_some_iff {α : Type} {n : ℕ} {f : ℤ → Option α} {a : α} :
    (i64 n).bind f = some a ↔ n < 2 ^ 63 ∧ f n = some a := by
  simp [Option.bind_eq_some_iff, i64_natCast_eq_some_iff, and_assoc]

theorem usize_bind_eq_some_iff {α : Type} {n : ℕ} {f : ℕ → Option α} {a : α} :
    (usize n).bind f = some a ↔ n < 2 ^ 64 ∧ f n = some a := by
  simp [Option.bind_eq_some_iff, usize_eq_some_iff, and_assoc]

/-! ## Quotients and casts -/

theorem i64Div_natCast {a b : ℕ} (ha : a < 2 ^ 63) :
    i64Div a b = if b = 0 then none else some ((a / b : ℕ) : ℤ) := by
  unfold i64Div
  by_cases hb : b = 0
  · simp [hb]
  · have hquot : a / b < 2 ^ 63 := (Nat.div_le_self a b).trans_lt ha
    rw [if_neg (by exact_mod_cast hb), if_neg hb, Int.tdiv_eq_ediv_of_nonneg (Int.natCast_nonneg a)]
    exact i64_natCast_eq_some_iff.mpr ⟨hquot, rfl⟩

theorem asUsize_natCast {n : ℕ} (h : n < 2 ^ 64) : asUsize n = n := by
  unfold asUsize
  omega

end QuantumFlow
