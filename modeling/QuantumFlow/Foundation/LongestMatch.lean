import Mathlib.Data.List.Basic

/-!
# Greedy cutting by longest match

A text is cut from the left into keys, each time taking the longest key that begins the
rest. Keys longer than the bound are never taken. There is at most one such cut, and several
segments of it in a row spell no key within the bound.
-/

namespace QuantumFlow

variable {α : Type}

/-- `segs` cuts the text into longest keys of at most `bound` elements. -/
inductive Munch (IsKey : List α → Prop) (bound : ℕ) : List α → List (List α) → Prop
  | nil : Munch IsKey bound [] []
  | cons {seg rest : List α} {segs : List (List α)} (nonempty : seg ≠ []) (key : IsKey seg)
      (short : seg.length ≤ bound)
      (longest : ∀ longer, longer <+: seg ++ rest → seg.length < longer.length →
        longer.length ≤ bound → ¬ IsKey longer)
      (tail : Munch IsKey bound rest segs) : Munch IsKey bound (seg ++ rest) (seg :: segs)

namespace Munch

variable {IsKey : List α → Prop} {bound : ℕ} {text : List α} {segs segs' : List (List α)}

theorem flatten_eq (h : Munch IsKey bound text segs) : segs.flatten = text := by
  induction h with
  | nil => rfl
  | cons _ _ _ _ _ ih => rw [List.flatten_cons, ih]

/-- A text has one greedy cut. -/
theorem unique (h : Munch IsKey bound text segs) (h' : Munch IsKey bound text segs') :
    segs = segs' := by
  induction h generalizing segs' with
  | nil =>
    generalize htext : ([] : List α) = text at h'
    cases h' with
    | nil => rfl
    | cons nonempty => exact absurd (List.append_eq_nil_iff.mp htext.symm).1 nonempty
  | @cons seg rest segs nonempty key short longest tail ih =>
    generalize htext : seg ++ rest = text at h'
    cases h' with
    | nil => exact absurd (List.append_eq_nil_iff.mp htext).1 nonempty
    | @cons seg' rest' segs' nonempty' key' short' longest' tail' =>
      have hlen : seg.length = seg'.length := by
        rcases Nat.lt_trichotomy seg.length seg'.length with hlt | heq | hgt
        · exact absurd key' (longest seg' (htext ▸ List.prefix_append _ _) hlt short')
        · exact heq
        · exact absurd key (longest' seg (htext ▸ List.prefix_append _ _) hgt short)
      obtain ⟨rfl, rfl⟩ := List.append_inj htext hlen
      rw [ih tail']

theorem ne_nil_of_mem (h : Munch IsKey bound text segs) {seg : List α} (hseg : seg ∈ segs) :
    seg ≠ [] := by
  induction h with
  | nil => cases hseg
  | cons nonempty _ _ _ _ ih =>
    rcases List.mem_cons.mp hseg with rfl | hseg
    · exact nonempty
    · exact ih hseg

/-- What follows some of the segments is cut by the others. -/
theorem of_append {l r : List (List α)} (h : Munch IsKey bound text (l ++ r)) :
    Munch IsKey bound r.flatten r := by
  induction l generalizing text with
  | nil => exact h.flatten_eq ▸ h
  | cons seg l ih =>
    cases h with
    | cons _ _ _ _ tail => exact ih tail

/-- A key that several segments in a row spell is beyond the bound. -/
theorem bound_lt_of_key {l r : List (List α)} {a b : List α} {group : List (List α)}
    (h : Munch IsKey bound text (l ++ (a :: b :: group) ++ r))
    (hkey : IsKey (a :: b :: group).flatten) : bound < (a :: b :: group).flatten.length := by
  rw [List.append_assoc] at h
  have hfrom := h.of_append
  have hb : 0 < b.length := List.length_pos_iff.mpr (h.ne_nil_of_mem (by simp))
  generalize htext : (a :: b :: group ++ r).flatten = text' at hfrom
  cases hfrom with
  | cons _ _ _ longest tail =>
    by_contra hshort
    refine longest _ ?_ ?_ (Nat.not_lt.mp hshort) hkey
    · rw [← htext, List.flatten_append]
      exact List.prefix_append _ _
    · simp only [List.flatten_cons, List.length_append]
      omega

/-- A cut into keys is the greedy one if none of its pieces could have been longer. -/
theorem of_longest {pieces : List (List α)} (hne : ∀ t ∈ pieces, t ≠ [])
    (hkey : ∀ t ∈ pieces, IsKey t) (hlongest : ∀ l t r, pieces = l ++ t :: r →
      t.length ≤ bound ∧ ∀ longer, longer <+: (t :: r).flatten → t.length < longer.length →
        longer.length ≤ bound → ¬ IsKey longer) : Munch IsKey bound pieces.flatten pieces := by
  induction pieces with
  | nil => exact .nil
  | cons t pieces ih =>
    obtain ⟨hshort, hlonger⟩ := hlongest [] t pieces rfl
    refine .cons (hne t List.mem_cons_self) (hkey t List.mem_cons_self) hshort hlonger ?_
    refine ih (fun t ht => hne t (List.mem_cons_of_mem _ ht))
      (fun t ht => hkey t (List.mem_cons_of_mem _ ht)) fun l t' r hpieces => ?_
    exact hlongest (t :: l) t' r (by rw [hpieces]; rfl)

/-- And the greedy cut is such a cut. -/
theorem longest {pieces l r : List (List α)} {t : List α} (h : Munch IsKey bound text pieces)
    (hpieces : pieces = l ++ t :: r) :
    t.length ≤ bound ∧ ∀ longer, longer <+: (t :: r).flatten → t.length < longer.length →
      longer.length ≤ bound → ¬ IsKey longer := by
  subst hpieces
  have hfrom := h.of_append
  generalize htext : (t :: r).flatten = text' at hfrom
  cases hfrom with
  | cons _ _ short longest _ => exact ⟨short, fun longer hpart => longest longer hpart⟩

/-- In front of the end of a text, the rest is cut at its longest key. -/
theorem exists_cons_of_drop {i : ℕ} (h : Munch IsKey bound (text.drop i) segs)
    (hi : i < text.length) :
    ∃ seg segs', segs = seg :: segs' ∧ 0 < seg.length ∧ seg.length ≤ bound ∧
      i + seg.length ≤ text.length ∧ (text.drop i).take seg.length = seg ∧ IsKey seg ∧
      (∀ len, seg.length < len → len ≤ bound → i + len ≤ text.length →
        ¬ IsKey ((text.drop i).take len)) ∧
      Munch IsKey bound (text.drop (i + seg.length)) segs' := by
  generalize hrest : text.drop i = rest at h
  have hlength : rest.length = text.length - i := by rw [← hrest, List.length_drop]
  cases h with
  | nil =>
    rw [List.length_nil] at hlength
    omega
  | @cons seg tail segs hne hkey hshort hlongest htail =>
    rw [List.length_append] at hlength
    refine ⟨seg, segs, rfl, List.length_pos_iff.mpr hne, hshort, by omega, List.take_left' rfl,
      hkey, fun len hlt hle hwithin => ?_, ?_⟩
    · have htake : ((seg ++ tail).take len).length = len := by
        rw [List.length_take, List.length_append]
        omega
      exact hlongest _ (List.take_prefix len _) (htake.symm ▸ hlt) (htake.symm ▸ hle)
    · rwa [← List.drop_drop, hrest, List.drop_left' rfl]

end Munch

end QuantumFlow
