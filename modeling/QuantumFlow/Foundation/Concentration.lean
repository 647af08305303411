import Mathlib.Algebra.BigOperators.Ring.List
import Mathlib.Algebra.Order.BigOperators.Group.List
import Mathlib.Algebra.Order.Ring.Defs

/-!
# Weights that concentrate

Two ways to weigh the entries of one list. The steeper weights fall off faster from each entry to
each later one. Then every prefix has at least the share of the weight that it had, so that a
share is reached at the latest where it was.
-/

namespace QuantumFlow

variable {α K : Type}

/-- The weight of the first `n` entries. -/
def prefixWeight [Add K] [Zero K] (w : α → K) (xs : List α) (n : ℕ) : K := ((xs.take n).map w).sum

/-- `w'` falls off at least as fast as `w` along the list. -/
def Steeper [Mul K] [LE K] (w' w : α → K) (xs : List α) : Prop :=
  xs.Pairwise fun a b => w a * w' b ≤ w' a * w b

/-- `n` is the least number of leading entries, at least one, that have the share `t` of the
weight of the first `total` ones. -/
structure ShareReached [Add K] [Zero K] [Mul K] [LE K] [LT K] (w : α → K) (xs : List α)
    (total : ℕ) (t : K) (n : ℕ) : Prop where
  pos : 0 < n
  le : n ≤ total
  reaches : t * prefixWeight w xs total ≤ prefixWeight w xs n
  before : ∀ m, 0 < m → m < n → prefixWeight w xs m < t * prefixWeight w xs total

section Ordered

variable [CommRing K] [LinearOrder K] [IsStrictOrderedRing K] {w w' : α → K} {xs : List α}

/-- A product of sums is at most another if its terms are. -/
theorem sum_mul_sum_le {ys : List α} (h : ∀ a ∈ xs, ∀ b ∈ ys, w a * w' b ≤ w' a * w b) :
    (xs.map w).sum * (ys.map w').sum ≤ (xs.map w').sum * (ys.map w).sum := by
  rw [← List.sum_map_mul_right, ← List.sum_map_mul_right]
  refine List.sum_le_sum fun a ha => ?_
  rw [← List.sum_map_mul_left, ← List.sum_map_mul_left]
  exact List.sum_le_sum fun b hb => h a ha b hb

theorem prefixWeight_mono (hw : ∀ a, 0 < w a) {m n : ℕ} (hmn : m ≤ n) :
    prefixWeight w xs m ≤ prefixWeight w xs n := by
  have hsub : List.Sublist ((xs.take m).map w) ((xs.take n).map w) :=
    (List.take_sublist_take_left hmn).map w
  refine hsub.sum_le_sum fun k hk => ?_
  obtain ⟨a, -, rfl⟩ := List.mem_map.mp hk
  exact (hw a).le

theorem prefixWeight_pos (hw : ∀ a, 0 < w a) (hne : xs ≠ []) {n : ℕ} (hn : 0 < n) :
    0 < prefixWeight w xs n := by
  apply List.sum_pos
  · intro k hk
    obtain ⟨a, -, rfl⟩ := List.mem_map.mp hk
    exact hw a
  · simp [hne, hn.ne']

/-- A prefix has the larger share of the steeper weights. -/
theorem Steeper.share_le (h : Steeper w' w xs) {m n : ℕ} (hmn : m ≤ n) :
    prefixWeight w xs m * prefixWeight w' xs n ≤ prefixWeight w' xs m * prefixWeight w xs n := by
  have hsplit : xs.take n = xs.take m ++ (xs.take n).drop m := by
    conv_lhs => rw [← List.take_append_drop m (xs.take n), List.take_take, Nat.min_eq_left hmn]
  have hpair : (xs.take m ++ (xs.take n).drop m).Pairwise fun a b => w a * w' b ≤ w' a * w b :=
    hsplit ▸ List.Pairwise.sublist (List.take_sublist n xs) h
  have hterms := (List.pairwise_append.mp hpair).2.2
  have hrest := sum_mul_sum_le hterms
  rw [prefixWeight, prefixWeight, prefixWeight, prefixWeight, hsplit, List.map_append,
    List.map_append, List.sum_append, List.sum_append, mul_add, mul_add,
    mul_comm ((xs.take m).map w).sum ((xs.take m).map w').sum]
  exact add_le_add le_rfl hrest

/-- Steeper weights of fewer entries reach a smaller share no later. -/
theorem Steeper.reached_le (h : Steeper w' w xs) (hw : ∀ a, 0 < w a) (hw' : ∀ a, 0 < w' a)
    (hne : xs ≠ []) {total total' : ℕ} (htotal : total' ≤ total) {t t' : K} (ht : 0 ≤ t)
    (hle : t' ≤ t) {n n' : ℕ} (hn : ShareReached w xs total t n)
    (hn' : ShareReached w' xs total' t' n') : n' ≤ n := by
  by_contra hlt
  have hlt := Nat.not_le.mp hlt
  have hbefore := hn'.before n hn.pos hlt
  have hfew : n ≤ total' := hlt.le.trans hn'.le
  have hpos : 0 < prefixWeight w xs total' := prefixWeight_pos hw hne (hn.pos.trans_le hfew)
  have hpos' : 0 < prefixWeight w' xs total' := prefixWeight_pos hw' hne (hn.pos.trans_le hfew)
  -- the share that `w` has reached with `n` entries, of which `w'` has more
  have hreach : t' * prefixWeight w xs total' ≤ prefixWeight w xs n :=
    calc t' * prefixWeight w xs total'
        ≤ t * prefixWeight w xs total' := mul_le_mul_of_nonneg_right hle hpos.le
      _ ≤ t * prefixWeight w xs total :=
          mul_le_mul_of_nonneg_left (prefixWeight_mono hw htotal) ht
      _ ≤ prefixWeight w xs n := hn.reaches
  have hcross : t' * prefixWeight w' xs total' * prefixWeight w xs total' ≤
      prefixWeight w' xs n * prefixWeight w xs total' :=
    calc t' * prefixWeight w' xs total' * prefixWeight w xs total'
        = t' * prefixWeight w xs total' * prefixWeight w' xs total' := mul_right_comm _ _ _
      _ ≤ prefixWeight w xs n * prefixWeight w' xs total' :=
          mul_le_mul_of_nonneg_right hreach hpos'.le
      _ ≤ prefixWeight w' xs n * prefixWeight w xs total' := h.share_le hfew
  exact absurd (le_of_mul_le_mul_right hcross hpos) hbefore.not_ge

end Ordered

end QuantumFlow
