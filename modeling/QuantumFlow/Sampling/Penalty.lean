import Mathlib.Algebra.Order.Field.Basic
import Mathlib.Data.List.Count
import Mathlib.Order.Iterate
import Mathlib.Tactic.Linarith
import QuantumFlow.Sampling.Logits

/-!
# The repeat penalty

Over exact arithmetic. The penalty is applied once for each occurrence of a token in the window,
and not at all when it is closer to 1 than a millionth. It depends on the set of recent tokens
only where neither matters: at a penalty of 1, at logits of 0, and for windows without
repetition.
-/

namespace QuantumFlow

variable {K : Type}

/-- Exact arithmetic in a field, with some exponential and some cast of words. -/
def FloatOps.exact [Field K] [LinearOrder K] (exp : K → K) (ofU64 : UInt64 → K)
    (bits : K → UInt32) : FloatOps K where
  zero := 0
  one := 1
  millionth := 1 / 1000000
  add := (· + ·)
  sub := (· - ·)
  mul := (· * ·)
  div := (· / ·)
  abs a := max a (-a)
  exp
  lt a b := a < b
  le a b := a ≤ b
  ofU64
  bits

/-! ## Any arithmetic -/

/-- Each occurrence of a token penalises its logit once more. -/
theorem getElem?_foldl_modify {α : Type} (f : α → α) (recent : List TokenId) (xs : List α) (i : ℕ) :
    (recent.foldl (fun xs tok => xs.modify tok.toNat f) xs)[i]? =
      xs[i]?.map f^[(recent.map UInt32.toNat).count i] := by
  induction recent generalizing xs with
  | nil => simp
  | cons tok recent ih =>
    rw [List.foldl_cons, ih, List.getElem?_modify, List.map_cons, List.count_cons]
    by_cases htok : tok.toNat = i
    · cases xs[i]? <;> simp [htok]
    · cases xs[i]? <;> simp [htok]

/-! ## Exact arithmetic -/

section Exact

variable [Field K] [LinearOrder K] {exp : K → K} {ofU64 : UInt64 → K} {bits : K → UInt32}

/-- What the penalty is to do: every recent token is penalised once, no logit is raised, and only
the set of recent tokens matters. -/
structure PenaltyLaw (ops : FloatOps K) (logits : List K) (penalty : K)
    (recent recent' : List TokenId) : Prop where
  once : applyRepeatPenalty ops logits recent penalty = logits.mapIdx fun i l =>
    if i ∈ recent.map UInt32.toNat then (if 0 < l then l / penalty else l * penalty) else l
  lowers : ∀ (i : ℕ) (l l' : K), logits[i]? = some l →
    (applyRepeatPenalty ops logits recent penalty)[i]? = some l' → l' ≤ l
  sameSet : applyRepeatPenalty ops logits recent' penalty =
    applyRepeatPenalty ops logits recent penalty

theorem penalise_exact (penalty l : K) :
    penalise (.exact exp ofU64 bits) penalty l = if 0 < l then l / penalty else l * penalty := by
  simp [penalise, FloatOps.exact]

theorem applyRepeatPenalty_exact (logits : List K) (recent : List TokenId) (penalty : K) :
    applyRepeatPenalty (.exact exp ofU64 bits) logits recent penalty =
      if max (penalty - 1) (-(penalty - 1)) < 1 / 1000000 then logits
      else recent.foldl (fun logits tok =>
        logits.modify tok.toNat (penalise (.exact exp ofU64 bits) penalty)) logits := by
  simp [applyRepeatPenalty, FloatOps.exact]

theorem iterate_penalise_zero (penalty : K) (n : ℕ) :
    (penalise (.exact exp ofU64 bits) penalty)^[n] 0 = 0 := by
  have hzero : penalise (.exact exp ofU64 bits) penalty 0 = 0 := by simp [penalise_exact]
  exact Function.iterate_fixed hzero n

variable [IsStrictOrderedRing K]

theorem penalise_lt {penalty l : K} (hp : 1 < penalty) (hl : l ≠ 0) :
    penalise (.exact exp ofU64 bits) penalty l < l := by
  rw [penalise_exact]
  split
  · rename_i hpos
    exact div_lt_self hpos hp
  · rename_i hle
    have hneg : l < 0 := lt_of_le_of_ne (not_lt.mp hle) hl
    nlinarith

theorem penalise_le {penalty : K} (hp : 1 ≤ penalty) (l : K) :
    penalise (.exact exp ofU64 bits) penalty l ≤ l := by
  rw [penalise_exact]
  split
  · rename_i hpos
    exact div_le_self hpos.le hp
  · rename_i hle
    nlinarith [not_lt.mp hle]

theorem penalise_ne_zero {penalty l : K} (hp : 1 ≤ penalty) (hl : l ≠ 0) :
    penalise (.exact exp ofU64 bits) penalty l ≠ 0 := by
  have hne : penalty ≠ 0 := (lt_of_lt_of_le zero_lt_one hp).ne'
  rw [penalise_exact]
  split
  · exact div_ne_zero hl hne
  · exact mul_ne_zero hl hne

theorem iterate_penalise_le {penalty : K} (hp : 1 ≤ penalty) (l : K) (n : ℕ) :
    (penalise (.exact exp ofU64 bits) penalty)^[n] l ≤ l := by
  induction n with
  | zero => exact le_refl l
  | succ n ih =>
    rw [Function.iterate_succ_apply']
    exact (penalise_le hp _).trans ih

/-- Penalising a logit twice is not penalising it once. -/
theorem iterate_penalise_injective {penalty l : K} (hp : 1 < penalty) (hl : l ≠ 0) :
    Function.Injective fun n => (penalise (.exact exp ofU64 bits) penalty)^[n] l := by
  have hne : ∀ n, (penalise (.exact exp ofU64 bits) penalty)^[n] l ≠ 0 := by
    intro n
    induction n with
    | zero => exact hl
    | succ n ih =>
      rw [Function.iterate_succ_apply']
      exact penalise_ne_zero hp.le ih
  refine (strictAnti_nat_of_succ_lt fun n => ?_).injective
  rw [Function.iterate_succ_apply']
  exact penalise_lt hp (hne n)

/-- How often the logit at `i` is penalised. -/
def timesPenalised (penalty : K) (recent : List TokenId) (i : ℕ) : ℕ :=
  if penalty - 1 < 1 / 1000000 then 0 else (recent.map UInt32.toNat).count i

theorem getElem?_applyRepeatPenalty {penalty : K} (hp : 1 ≤ penalty) (logits : List K)
    (recent : List TokenId) (i : ℕ) :
    (applyRepeatPenalty (.exact exp ofU64 bits) logits recent penalty)[i]? =
      logits[i]?.map
        (penalise (.exact exp ofU64 bits) penalty)^[timesPenalised penalty recent i] := by
  have hmax : max (penalty - 1) (-(penalty - 1)) = penalty - 1 := max_eq_left (by linarith)
  rw [applyRepeatPenalty_exact, hmax, timesPenalised]
  split
  · simp
  · exact getElem?_foldl_modify _ recent logits i

omit [IsStrictOrderedRing K] in
theorem timesPenalised_of_notMem {penalty : K} {recent : List TokenId} {i : ℕ}
    (h : i ∉ recent.map UInt32.toNat) : timesPenalised penalty recent i = 0 := by
  rw [timesPenalised, List.count_eq_zero_of_not_mem h, ite_self]

omit [IsStrictOrderedRing K] in
theorem timesPenalised_eq_one_iff {penalty : K} {recent : List TokenId} {tok : TokenId} :
    timesPenalised penalty recent tok.toNat = 1 ↔
      1 / 1000000 ≤ penalty - 1 ∧ recent.count tok = 1 := by
  rw [timesPenalised, List.count_map_of_injective recent UInt32.toNat
    (fun a b h => UInt32.toNat_inj.mp h)]
  split
  · rename_i hsmall
    exact iff_of_false Nat.zero_ne_one fun h => absurd hsmall (not_lt.mpr h.1)
  · rename_i hlarge
    exact (and_iff_right (not_lt.mp hlarge)).symm

/-- The law, one logit at a time. -/
theorem penaltyLaw_iff_forall {penalty : K} (hp : 1 ≤ penalty) {logits : List K}
    {recent recent' : List TokenId} :
    PenaltyLaw (.exact exp ofU64 bits) logits penalty recent recent' ↔
      ∀ (i : ℕ) (l : K), logits[i]? = some l →
        (penalise (.exact exp ofU64 bits) penalty)^[timesPenalised penalty recent i] l =
          (if i ∈ recent.map UInt32.toNat then penalise (.exact exp ofU64 bits) penalty l else l) ∧
        (penalise (.exact exp ofU64 bits) penalty)^[timesPenalised penalty recent' i] l =
          (penalise (.exact exp ofU64 bits) penalty)^[timesPenalised penalty recent i] l := by
  constructor
  · intro law i l hl
    have honce := congrArg (·[i]?) law.once
    have hsame := congrArg (·[i]?) law.sameSet
    simp only [getElem?_applyRepeatPenalty hp, List.getElem?_mapIdx, hl, Option.map_some,
      Option.some.injEq] at honce hsame
    rw [penalise_exact]
    exact ⟨honce, hsame⟩
  · intro h
    refine ⟨?_, fun i l l' hl hl' => ?_, ?_⟩
    · refine List.ext_getElem? fun i => ?_
      rw [getElem?_applyRepeatPenalty hp, List.getElem?_mapIdx]
      cases hl : logits[i]? with
      | none => rfl
      | some l =>
        rw [Option.map_some, Option.map_some, (h i l hl).1, penalise_exact]
    · rw [getElem?_applyRepeatPenalty hp, hl] at hl'
      cases hl'
      exact iterate_penalise_le hp l _
    · refine List.ext_getElem? fun i => ?_
      rw [getElem?_applyRepeatPenalty hp, getElem?_applyRepeatPenalty hp]
      cases hl : logits[i]? with
      | none => rfl
      | some l => rw [Option.map_some, Option.map_some, (h i l hl).2]

/-- The penalty follows the law exactly if it is 1, or if every recent token with a logit other
than 0 occurs once in both windows and the penalty is not within a millionth of 1. -/
theorem penaltyLaw_iff {penalty : K} (hp : 1 ≤ penalty) (logits : List K)
    {recent recent' : List TokenId} (hset : ∀ tok, tok ∈ recent ↔ tok ∈ recent') :
    PenaltyLaw (.exact exp ofU64 bits) logits penalty recent recent' ↔
      penalty = 1 ∨ ∀ tok ∈ recent, ∀ l, logits[tok.toNat]? = some l →
        l = 0 ∨ (1 / 1000000 ≤ penalty - 1 ∧ recent.count tok = 1 ∧ recent'.count tok = 1) := by
  rw [penaltyLaw_iff_forall hp]
  constructor
  · intro h
    rcases hp.eq_or_lt with hone | hone
    · exact Or.inl hone.symm
    refine Or.inr fun tok htok l hl => or_iff_not_imp_left.mpr fun hne => ?_
    obtain ⟨honce, hsame⟩ := h tok.toNat l hl
    rw [if_pos (List.mem_map_of_mem htok)] at honce
    have htimes : timesPenalised penalty recent tok.toNat = 1 :=
      iterate_penalise_injective hone hne honce
    have htimes' : timesPenalised penalty recent' tok.toNat = 1 :=
      (iterate_penalise_injective hone hne hsame).trans htimes
    obtain ⟨hlarge, hcount⟩ := timesPenalised_eq_one_iff.mp htimes
    exact ⟨hlarge, hcount, (timesPenalised_eq_one_iff.mp htimes').2⟩
  · rintro (rfl | h) i l hl
    · have hself : penalise (.exact exp ofU64 bits) 1 l = l := by simp [penalise_exact]
      rw [Function.iterate_fixed hself, Function.iterate_fixed hself, hself, ite_self]
      exact ⟨rfl, rfl⟩
    · by_cases hmem : i ∈ recent.map UInt32.toNat
      · obtain ⟨tok, htok, rfl⟩ := List.mem_map.mp hmem
        rw [if_pos hmem]
        rcases h tok htok l hl with rfl | ⟨hlarge, hcount, hcount'⟩
        · have hzero : penalise (.exact exp ofU64 bits) penalty 0 = 0 := by simp [penalise_exact]
          rw [iterate_penalise_zero, iterate_penalise_zero, hzero]
          exact ⟨rfl, rfl⟩
        · rw [timesPenalised_eq_one_iff.mpr ⟨hlarge, hcount⟩,
            timesPenalised_eq_one_iff.mpr ⟨hlarge, hcount'⟩]
          exact ⟨rfl, rfl⟩
      · have hmem' : i ∉ recent'.map UInt32.toNat := by
          intro hi
          obtain ⟨tok, htok, rfl⟩ := List.mem_map.mp hi
          exact hmem (List.mem_map_of_mem ((hset tok).mpr htok))
        rw [if_neg hmem, timesPenalised_of_notMem hmem, timesPenalised_of_notMem hmem']
        exact ⟨rfl, rfl⟩

end Exact

/-- Four logits and two orders of their tokens. The token of logit 0 may occur twice, that of
another one may not. -/
theorem penaltyLaw_iff_orders :
    PenaltyLaw (.exact (fun x : ℚ => x) (fun _ => 0) fun _ => 0) [1, -2, 3, 0] 2
        [2, 0, 1, 3] [3, 1, 0, 2, 3] ∧
      ¬ PenaltyLaw (.exact (fun x : ℚ => x) (fun _ => 0) fun _ => 0) [1, -2, 3, 0] 2
        [2, 0, 1, 3] [1, 2, 0, 3, 2] := by
  constructor
  · refine (penaltyLaw_iff one_le_two _ fun tok => ?_).mpr (Or.inr ?_)
    · simp only [List.mem_cons, List.not_mem_nil, or_false]
      tauto
    · intro tok htok l hl
      simp only [List.mem_cons, List.not_mem_nil, or_false] at htok
      rcases htok with rfl | rfl | rfl | rfl <;> cases hl
      · exact Or.inr ⟨by norm_num, by decide, by decide⟩
      · exact Or.inr ⟨by norm_num, by decide, by decide⟩
      · exact Or.inr ⟨by norm_num, by decide, by decide⟩
      · exact Or.inl rfl
  · intro law
    have hset : ∀ tok : TokenId, tok ∈ [2, 0, 1, 3] ↔ tok ∈ [1, 2, 0, 3, 2] := fun tok => by
      simp only [List.mem_cons, List.not_mem_nil, or_false]
      tauto
    rcases (penaltyLaw_iff one_le_two _ hset).mp law with htwo | hall
    · norm_num at htwo
    · rcases hall 2 (by decide) 3 rfl with hzero | ⟨-, -, hcount⟩
      · norm_num at hzero
      · exact absurd hcount (by decide)

/-- A token that is recent twice is penalised twice. -/
theorem not_penaltyLaw :
    ¬ ∀ (penalty : ℚ) (logits : List ℚ) (recent recent' : List TokenId), 1 ≤ penalty →
      (∀ tok, tok ∈ recent ↔ tok ∈ recent') →
      PenaltyLaw (.exact (fun x => x) (fun _ => 0) fun _ => 0) logits penalty recent recent' := by
  intro h
  have law := h 2 [1] [0] [0, 0] one_le_two (by simp)
  have hsame := congrArg (·[0]?) law.sameSet
  simp only [getElem?_applyRepeatPenalty one_le_two, List.getElem?_cons_zero, Option.map_some,
    Option.some.injEq] at hsame
  have htwice : timesPenalised (2 : ℚ) [0, 0] 0 = 2 := by norm_num [timesPenalised]
  have honce : timesPenalised (2 : ℚ) [0] 0 = 1 := by norm_num [timesPenalised]
  rw [htwice, honce] at hsame
  norm_num [Function.iterate_succ_apply, penalise_exact] at hsame

end QuantumFlow
