import Mathlib.Data.List.Basic
import Mathlib.Data.List.Perm.Basic

/-!
# Selecting and sorting in place

Selection of the `n`-th element and unstable sorting, by a comparison that need not be
consistent. Only what is documented of them is used: they permute the slice, they put it in
order if the comparison is a total preorder on its elements, and they may panic if it is not.
Elements that compare equal end up in any order.
-/

namespace QuantumFlow

variable {α : Type}

/-- The comparison is a total preorder on the elements. -/
structure Consistent (cmp : α → α → Ordering) (xs : List α) : Prop where
  swap : ∀ a ∈ xs, ∀ b ∈ xs, cmp b a = (cmp a b).swap
  trans : ∀ a ∈ xs, ∀ b ∈ xs, ∀ c ∈ xs, cmp a b ≠ .gt → cmp b c ≠ .gt → cmp a c ≠ .gt

instance [DecidableEq α] (cmp : α → α → Ordering) (xs : List α) : Decidable (Consistent cmp xs) :=
  decidable_of_iff
    ((∀ a ∈ xs, ∀ b ∈ xs, cmp b a = (cmp a b).swap) ∧
      ∀ a ∈ xs, ∀ b ∈ xs, ∀ c ∈ xs, cmp a b ≠ .gt → cmp b c ≠ .gt → cmp a c ≠ .gt)
    ⟨fun h => ⟨h.1, h.2⟩, fun h => ⟨h.swap, h.trans⟩⟩

theorem Consistent.mono {cmp : α → α → Ordering} {xs ys : List α} (h : Consistent cmp xs)
    (hsub : ys ⊆ xs) : Consistent cmp ys where
  swap a ha b hb := h.swap a (hsub ha) b (hsub hb)
  trans a ha b hb c hc := h.trans a (hsub ha) b (hsub hb) c (hsub hc)

theorem Consistent.refl {cmp : α → α → Ordering} {xs : List α} (h : Consistent cmp xs) {a : α}
    (ha : a ∈ xs) : cmp a a ≠ .gt := by
  intro hgt
  have hswap := h.swap a ha a ha
  rw [hgt] at hswap
  cases hswap

/-! ## Slices -/

/-- How a slice is selected from and sorted; `none` is a panic. -/
structure SliceOps (α : Type) where
  selectNth : (α → α → Ordering) → ℕ → List α → Option (List α)
  sortUnstable : (α → α → Ordering) → List α → Option (List α)

/-- What is documented. -/
structure SliceOps.Lawful (S : SliceOps α) : Prop where
  selectNth_perm : ∀ {cmp n xs ys}, S.selectNth cmp n xs = some ys → ys.Perm xs
  selectNth_outside : ∀ {cmp n xs}, xs.length ≤ n → S.selectNth cmp n xs = none
  selectNth_ordered : ∀ {cmp n xs}, Consistent cmp xs → n < xs.length →
    ∃ l x r, S.selectNth cmp n xs = some (l ++ x :: r) ∧ l.length = n ∧
      (∀ a ∈ l, cmp a x ≠ .gt) ∧ ∀ b ∈ r, cmp x b ≠ .gt
  sortUnstable_perm : ∀ {cmp xs ys}, S.sortUnstable cmp xs = some ys → ys.Perm xs
  sortUnstable_ordered : ∀ {cmp xs}, Consistent cmp xs →
    ∃ ys, S.sortUnstable cmp xs = some ys ∧ ys.Pairwise (cmp · · ≠ .gt)

/-- `ys` are `k` elements of `xs` in order, with none of the others before them. -/
structure FirstInOrder (cmp : α → α → Ordering) (k : ℕ) (xs ys : List α) : Prop where
  length : ys.length = k
  ordered : ys.Pairwise (cmp · · ≠ .gt)
  others : ∃ zs, (ys ++ zs).Perm xs ∧ ∀ a ∈ ys, ∀ b ∈ zs, cmp a b ≠ .gt

theorem FirstInOrder.subset {cmp : α → α → Ordering} {k : ℕ} {xs ys : List α}
    (h : FirstInOrder cmp k xs ys) : ys ⊆ xs := by
  obtain ⟨zs, hperm, -⟩ := h.others
  exact fun a ha => hperm.subset (List.mem_append_left zs ha)

/-- Selecting the last of the first `k`, cutting behind it and sorting gives the first `k`. -/
theorem SliceOps.Lawful.exists_firstInOrder {S : SliceOps α} (hS : S.Lawful)
    {cmp : α → α → Ordering} {xs : List α} (hcmp : Consistent cmp xs) {k : ℕ} (hpos : 0 < k)
    (hk : k ≤ xs.length) :
    ∃ zs ys, S.selectNth cmp (k - 1) xs = some zs ∧ S.sortUnstable cmp (zs.take k) = some ys ∧
      FirstInOrder cmp k xs ys := by
  obtain ⟨l, x, r, hselect, hlen, hbefore, hbehind⟩ :=
    hS.selectNth_ordered hcmp (by omega : k - 1 < xs.length)
  have hperm := hS.selectNth_perm hselect
  have htake : (l ++ x :: r).take k = l ++ [x] := by
    have hlen' : (l ++ [x]).length = k := by
      rw [List.length_append, List.length_singleton]
      omega
    rw [List.append_cons, List.take_left' hlen']
  have hsub : l ++ [x] ⊆ xs := by
    intro a ha
    exact hperm.subset (by rw [List.append_cons]; exact List.mem_append_left r ha)
  obtain ⟨ys, hsort, hordered⟩ := hS.sortUnstable_ordered (hcmp.mono hsub)
  have hys := hS.sortUnstable_perm hsort
  refine ⟨_, ys, hselect, by rw [htake, hsort], ?_, hordered, r, ?_, ?_⟩
  · rw [hys.length_eq, List.length_append, List.length_singleton]
    omega
  · refine (hys.append_right r).trans ?_
    rwa [← List.append_cons]
  · intro a ha b hb
    have hmem : ∀ c ∈ l ++ x :: r, c ∈ xs := fun c hc => hperm.subset hc
    have hax : cmp a x ≠ .gt := by
      rcases List.mem_append.mp (hys.subset ha) with ha | ha
      · exact hbefore a ha
      · rw [List.mem_singleton.mp ha]
        exact hcmp.refl (hmem x (by simp))
    exact hcmp.trans a (hsub (hys.subset ha)) x (hmem x (by simp)) b (hmem b (by simp [hb])) hax
      (hbehind b hb)

/-! ## Operations that panic whenever they may -/

/-- Elements of `xs` by the comparison, everything else before them. -/
def before [DecidableEq α] (cmp : α → α → Ordering) (xs : List α) (a b : α) : Bool :=
  decide (a ∉ xs) || (decide (b ∈ xs) && cmp a b != .gt)

def strictOps [DecidableEq α] : SliceOps α where
  selectNth cmp n xs :=
    if n < xs.length ∧ Consistent cmp xs then some (xs.mergeSort (before cmp xs)) else none
  sortUnstable cmp xs :=
    if Consistent cmp xs then some (xs.mergeSort (before cmp xs)) else none

theorem pairwise_mergeSort_before [DecidableEq α] {cmp : α → α → Ordering} {xs : List α}
    (h : Consistent cmp xs) : (xs.mergeSort (before cmp xs)).Pairwise (cmp · · ≠ .gt) := by
  have hsorted : (xs.mergeSort (before cmp xs)).Pairwise (before cmp xs · ·) := by
    apply List.pairwise_mergeSort
    · intro a b c hab hbc
      simp only [before, Bool.or_eq_true, decide_eq_true_eq, Bool.and_eq_true, bne_iff_ne] at *
      by_cases ha : a ∈ xs
      · have hb := (hab.resolve_left (not_not_intro ha))
        have hc := (hbc.resolve_left (not_not_intro hb.1))
        exact Or.inr ⟨hc.1, h.trans a ha b hb.1 c hc.1 hb.2 hc.2⟩
      · exact Or.inl ha
    · intro a b
      simp only [before, Bool.or_eq_true, decide_eq_true_eq, Bool.and_eq_true, bne_iff_ne]
      by_cases ha : a ∈ xs <;> by_cases hb : b ∈ xs <;> simp only [ha, hb, not_true, not_false_iff,
        true_or, or_true, false_or, true_and, false_and]
      rw [h.swap a ha b hb]
      cases cmp a b <;> simp
  refine hsorted.imp_of_mem fun {a b} ha _ hab => ?_
  have ha' := List.mem_mergeSort.mp ha
  simp only [before, Bool.or_eq_true, decide_eq_true_eq, Bool.and_eq_true, bne_iff_ne] at hab
  exact (hab.resolve_left (not_not_intro ha')).2

theorem lawful_strictOps [DecidableEq α] : (strictOps : SliceOps α).Lawful where
  selectNth_perm h := by
    simp only [strictOps] at h
    split at h
    · cases h
      exact List.mergeSort_perm _ _
    · cases h
  selectNth_outside h := if_neg fun hlt => absurd hlt.1 (Nat.not_lt.mpr h)
  selectNth_ordered {cmp n xs} hcmp hn := by
    have hlen : n < (xs.mergeSort (before cmp xs)).length := by rwa [List.length_mergeSort]
    have hsplit : xs.mergeSort (before cmp xs) = (xs.mergeSort (before cmp xs)).take n ++
        (xs.mergeSort (before cmp xs))[n] :: (xs.mergeSort (before cmp xs)).drop (n + 1) := by
      rw [← List.drop_eq_getElem_cons hlen, List.take_append_drop]
    have hsorted := pairwise_mergeSort_before hcmp
    rw [hsplit, List.pairwise_append, List.pairwise_cons] at hsorted
    refine ⟨_, _, _, (if_pos ⟨hn, hcmp⟩).trans (congrArg some hsplit), ?_, ?_, hsorted.2.1.1⟩
    · rw [List.length_take, Nat.min_eq_left (Nat.le_of_lt hlen)]
    · exact fun a ha => hsorted.2.2 a ha _ List.mem_cons_self
  sortUnstable_perm h := by
    simp only [strictOps] at h
    split at h
    · cases h
      exact List.mergeSort_perm _ _
    · cases h
  sortUnstable_ordered hcmp := ⟨_, if_pos hcmp, pairwise_mergeSort_before hcmp⟩

end QuantumFlow
