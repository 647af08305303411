import Mathlib.Algebra.Order.Ring.Nat
import Mathlib.Data.List.TakeDrop
import Mathlib.Order.Monotone.Basic

/-!
# Aligned sections

Sections of bytes that are written one behind the other, each filled up to a multiple of an
alignment. Every section is found again at the sum of what is before it, and the sections do not
overlap.
-/

namespace QuantumFlow

/-- The least multiple of `align` from `n` on. -/
def roundUp (align n : ℕ) : ℕ := (n + align - 1) / align * align

theorem dvd_roundUp (align n : ℕ) : align ∣ roundUp align n := Dvd.intro_left _ rfl

theorem le_roundUp {align : ℕ} (h : 0 < align) (n : ℕ) : n ≤ roundUp align n := by
  have hlt : n + align - 1 < roundUp align n + align := Nat.lt_div_mul_add h
  omega

variable {α : Type} {align : ℕ} {sections : List (List α)}

/-- A section and what it is filled up with. -/
def padded (fill : α) (align : ℕ) (bs : List α) : List α :=
  bs ++ List.replicate (roundUp align bs.length - bs.length) fill

/-- The sections as they are written. -/
def packed (fill : α) (align : ℕ) (sections : List (List α)) : List α :=
  sections.flatMap (padded fill align)

/-- Where the `i`-th section begins. -/
def sectionOffset (align : ℕ) : List (List α) → ℕ → ℕ
  | _, 0 => 0
  | [], _ + 1 => 0
  | bs :: sections, i + 1 => roundUp align bs.length + sectionOffset align sections i

theorem length_padded (h : 0 < align) (fill : α) (bs : List α) :
    (padded fill align bs).length = roundUp align bs.length := by
  have hle := le_roundUp h bs.length
  rw [padded, List.length_append, List.length_replicate]
  omega

@[simp] theorem sectionOffset_zero (sections : List (List α)) :
    sectionOffset align sections 0 = 0 := by
  cases sections <;> rfl

theorem sectionOffset_cons_succ (bs : List α) (i : ℕ) :
    sectionOffset align (bs :: sections) (i + 1) =
      roundUp align bs.length + sectionOffset align sections i := rfl

/-- A section begins at a multiple of the alignment. -/
theorem dvd_sectionOffset (align : ℕ) (sections : List (List α)) (i : ℕ) :
    align ∣ sectionOffset align sections i := by
  induction sections generalizing i with
  | nil => cases i <;> exact Nat.dvd_zero _
  | cons bs sections ih =>
    cases i with
    | zero => exact Nat.dvd_zero _
    | succ i => exact Nat.dvd_add (dvd_roundUp align _) (ih i)

/-- What is written from the `i`-th section on. -/
theorem drop_sectionOffset (h : 0 < align) (fill : α) (sections : List (List α)) (i : ℕ) :
    (packed fill align sections).drop (sectionOffset align sections i) =
      packed fill align (sections.drop i) := by
  induction sections generalizing i with
  | nil => simp [packed]
  | cons bs sections ih =>
    cases i with
    | zero => rfl
    | succ i =>
      rw [sectionOffset_cons_succ, ← length_padded h fill bs, packed, List.flatMap_cons,
        ← List.drop_drop, List.drop_left, List.drop_succ_cons]
      exact ih i

/-- A section is read back where it begins, by its length. -/
theorem read_section (h : 0 < align) (fill : α) {i : ℕ} {bs : List α}
    (hi : sections[i]? = some bs) :
    ((packed fill align sections).drop (sectionOffset align sections i)).take bs.length = bs := by
  obtain ⟨hlt, rfl⟩ := List.getElem?_eq_some_iff.mp hi
  rw [drop_sectionOffset h, List.drop_eq_getElem_cons hlt, packed, List.flatMap_cons, padded,
    List.append_assoc, List.take_left]

/-- The `i`-th section ends before the next one begins. -/
theorem sectionOffset_add_le (h : 0 < align) {i : ℕ} {bs : List α} (hi : sections[i]? = some bs) :
    sectionOffset align sections i + bs.length ≤ sectionOffset align sections (i + 1) := by
  induction sections generalizing i with
  | nil => cases hi
  | cons bs' sections ih =>
    cases i with
    | zero =>
      cases hi
      rw [sectionOffset_zero, sectionOffset_cons_succ, sectionOffset_zero, Nat.zero_add]
      exact le_roundUp h _
    | succ i =>
      rw [sectionOffset_cons_succ, sectionOffset_cons_succ, Nat.add_assoc]
      exact Nat.add_le_add_left (ih hi) _

theorem sectionOffset_mono (align : ℕ) (sections : List (List α)) :
    Monotone (sectionOffset align sections) := by
  refine monotone_nat_of_le_succ fun i => ?_
  induction sections generalizing i with
  | nil => cases i <;> exact Nat.le_refl _
  | cons bs sections ih =>
    cases i with
    | zero => exact Nat.zero_le _
    | succ i => exact Nat.add_le_add_left (ih i) _

/-- Every section begins, and the last one ends, within what is written. -/
theorem sectionOffset_le (h : 0 < align) (fill : α) (sections : List (List α)) (i : ℕ) :
    sectionOffset align sections i ≤ (packed fill align sections).length := by
  induction sections generalizing i with
  | nil => cases i <;> exact Nat.zero_le _
  | cons bs sections ih =>
    cases i with
    | zero => exact Nat.zero_le _
    | succ i =>
      rw [packed, List.flatMap_cons, List.length_append, length_padded h]
      exact Nat.add_le_add_left (ih i) _

end QuantumFlow
