import Mathlib.Algebra.BigOperators.Intervals

/-!
# Row-major matrices and flat lists

A matrix is stored as the concatenation of its rows. Cutting the list into chunks of the width
gives back the rows, and the product with a vector is a dot product for each. Writing the products
over a buffer stops at the shorter of the two.
-/

namespace QuantumFlow

variable {α R : Type}

/-! ## Chunks -/

def chunk (n : ℕ) (xs : List α) (i : ℕ) : List α := (xs.drop (i * n)).take n

/-- The whole chunks of `n` elements; `none` for `n = 0`. -/
def chunksExact (n : ℕ) (xs : List α) : Option (List (List α)) :=
  if n = 0 then none else some ((List.range (xs.length / n)).map (chunk n xs))

theorem getD_chunk [Zero α] {n : ℕ} (xs : List α) (i : ℕ) {j : ℕ} (hj : j < n) :
    (chunk n xs i).getD j 0 = xs.getD (i * n + j) 0 := by
  rw [chunk, List.getD_eq_getElem?_getD, List.getElem?_take_of_lt hj, List.getElem?_drop,
    List.getD_eq_getElem?_getD]

/-- A list of `m` rows is cut into these rows. -/
theorem chunksExact_of_length {n m : ℕ} (hn : n ≠ 0) {xs : List α} (hxs : xs.length = m * n) :
    chunksExact n xs = some ((List.range m).map (chunk n xs)) := by
  rw [chunksExact, if_neg hn, hxs, Nat.mul_div_cancel _ (Nat.pos_of_ne_zero hn)]

/-! ## Products -/

section Product

variable [NonUnitalNonAssocSemiring R]

def dot (row ys : List R) : R := (List.zipWith (· * ·) row ys).sum

theorem dot_eq_sum (row ys : List R) :
    dot row ys = ∑ i ∈ Finset.range ys.length, row.getD i 0 * ys.getD i 0 := by
  induction ys generalizing row with
  | nil => simp [dot]
  | cons y ys ih =>
    cases row with
    | nil => simp [dot]
    | cons r row =>
      rw [List.length_cons, Finset.sum_range_succ', add_comm]
      exact congrArg (r * y + ·) (ih row)

/-- An entry of the product of the matrix `xs`, with rows as long as `ys`, and the vector `ys`. -/
def mulVecAt (xs ys : List R) (v : ℕ) : R :=
  ∑ i ∈ Finset.range ys.length, xs.getD (v * ys.length + i) 0 * ys.getD i 0

theorem dot_chunk (xs ys : List R) (v : ℕ) :
    dot (chunk ys.length xs v) ys = mulVecAt xs ys v := by
  rw [dot_eq_sum]
  refine Finset.sum_congr rfl fun i hi => ?_
  rw [getD_chunk xs v (Finset.mem_range.mp hi)]

end Product

/-! ## Writing over a buffer -/

/-- The values, written over the front of a buffer. -/
def writeOver : List α → List α → List α
  | v :: vs, _ :: out => v :: writeOver vs out
  | _, out => out

theorem writeOver_of_length {vs out : List α} (h : vs.length = out.length) :
    writeOver vs out = vs := by
  induction vs generalizing out with
  | nil =>
    obtain rfl : out = [] := List.length_eq_zero_iff.mp h.symm
    rfl
  | cons v vs ih =>
    cases out with
    | nil => cases h
    | cons o out => rw [writeOver, ih (Nat.succ.inj h)]

end QuantumFlow
