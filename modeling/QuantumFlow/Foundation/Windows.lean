import Mathlib.Data.Set.Lattice
import Mathlib.Order.CompletePartialOrder
import Mathlib.Order.Interval.Set.Basic
import Mathlib.Order.Lattice.Nat

/-!
# Windows of a fixed size

The positions below a bound fall into windows of a fixed size, the last of which may be shorter. A
position lies in the window of its quotient by the size, so the windows are the fibres of a map:
disjoint, and together everything.
-/

namespace QuantumFlow

variable {size total i x : ℕ}

def window (size total i : ℕ) : Set ℕ := Set.Ico (i * size) (min ((i + 1) * size) total)

/-- How many windows it takes. -/
def windowCount (size total : ℕ) : ℕ := (total + size - 1) / size

theorem mem_window_iff (hsize : 0 < size) : x ∈ window size total i ↔ x / size = i ∧ x < total := by
  rw [window, Set.mem_Ico, lt_min_iff, Nat.div_eq_iff hsize, Nat.add_mul, Nat.one_mul,
    Nat.mul_comm i size]
  constructor <;> intro h <;> omega

theorem lt_windowCount_iff (hsize : 0 < size) : i < windowCount size total ↔ i * size < total := by
  rw [windowCount, Nat.lt_iff_add_one_le, Nat.le_div_iff_mul_le hsize, Nat.add_mul]
  omega

theorem window_nonempty (hsize : 0 < size) (hi : i < windowCount size total) :
    (window size total i).Nonempty := by
  have hlt := (lt_windowCount_iff hsize).mp hi
  refine ⟨i * size, (mem_window_iff hsize).mpr ⟨?_, hlt⟩⟩
  exact Nat.mul_div_cancel i hsize

theorem window_disjoint (hsize : 0 < size) {i j : ℕ} (hij : i ≠ j) :
    Disjoint (window size total i) (window size total j) := by
  refine Set.disjoint_left.mpr fun x hi hj => hij ?_
  exact ((mem_window_iff hsize).mp hi).1.symm.trans ((mem_window_iff hsize).mp hj).1

/-- A position below the bound lies in one of the windows that are counted. -/
theorem iUnion_window (hsize : 0 < size) :
    ⋃ i < windowCount size total, window size total i = Set.Ico 0 total := by
  ext x
  simp only [Set.mem_iUnion, mem_window_iff hsize, Set.mem_Ico, Nat.zero_le, true_and, exists_prop]
  constructor
  · rintro ⟨i, -, -, hx⟩
    exact hx
  · intro hx
    refine ⟨x / size, (lt_windowCount_iff hsize).mpr ?_, rfl, hx⟩
    exact (Nat.div_mul_le_self x size).trans_lt hx

end QuantumFlow
