import Mathlib.Algebra.Ring.Int.Defs
import QuantumFlow.Foundation.RowMajor
import QuantumFlow.Generate.Turn

/-!
# The projection to logits

The logits are the product of the row-major weights with the hidden state. `projectInto` checks the
length of the buffer but not of the weights: short weights leave the end of the buffer as it was,
and weights that are too long or ragged are cut off. `projectToLogits` checks the weights against a
product that wraps. Cutting into rows of width 0 aborts.
-/

namespace QuantumFlow

/-- A slice of 4-byte numbers spans at most `2 ^ 63 - 1` bytes. -/
structure F32Slice (R : Type) where
  toList : List R
  bytes_lt : 4 * toList.length < 2 ^ 63

variable {R : Type}

def F32Slice.len (xs : F32Slice R) : UInt64 := UInt64.ofNat xs.toList.length

/-- One whole row of weights for each logit. -/
def Fits (hidden lmHead : F32Slice R) (vocabSize : UInt64) : Prop :=
  lmHead.toList.length = vocabSize.toNat * hidden.toList.length

/-- Weights that fit pass the wrapped check. -/
theorem Fits.len_eq {hidden lmHead : F32Slice R} {vocabSize : UInt64}
    (h : Fits hidden lmHead vocabSize) : lmHead.len = vocabSize * hidden.len := by
  rw [F32Slice.len, show lmHead.toList.length = _ from h, UInt64.ofNat_mul, UInt64.ofNat_toNat]
  rfl

/-- Weights that fit leave room for the logits. -/
theorem Fits.vocabSize_lt {hidden lmHead : F32Slice R} {vocabSize : UInt64}
    (h : Fits hidden lmHead vocabSize) (hne : hidden.toList ≠ []) :
    4 * vocabSize.toNat < 2 ^ 63 := by
  have hbytes := lmHead.bytes_lt
  have hle := Nat.le_mul_of_pos_right vocabSize.toNat (List.length_pos_iff.mpr hne)
  rw [show lmHead.toList.length = _ from h] at hbytes
  omega

section Product

variable [NonUnitalNonAssocSemiring R]

/-- The result, with what is left in `out`. -/
def projectInto (hidden lmHead : F32Slice R) (vocabSize : UInt64) (out : List R) :
    Outcome LogitError Unit × List R :=
  if out.length ≠ vocabSize.toNat then
    (.err (.shapeMismatch vocabSize.toNat out.length), out)
  else
    match chunksExact hidden.toList.length lmHead.toList with
    | none => (.panic, out)
    | some rows => (.ok (), writeOver (rows.map (dot · hidden.toList)) out)

/-- The product of the sizes wraps; a vector of more than `2 ^ 63 - 1` bytes aborts. -/
def projectToLogits (hidden lmHead : F32Slice R) (vocabSize : UInt64) :
    Outcome LogitError (List R) :=
  let hiddenSize := hidden.len
  if lmHead.len ≠ vocabSize * hiddenSize then
    .err (.shapeMismatch (vocabSize * hiddenSize).toNat lmHead.toList.length)
  else if 2 ^ 63 ≤ 4 * vocabSize.toNat then .panic
  else
    match projectInto hidden lmHead vocabSize (List.replicate vocabSize.toNat 0) with
    | (.ok (), logits) => .ok logits
    | (.err e, _) => .err e
    | (.panic, _) => .panic

/-! ## Full products -/

/-- Every logit is the dot product of its row with the hidden state. -/
def fullProduct (hidden lmHead : F32Slice R) (vocabSize : UInt64) : List R :=
  (List.range vocabSize.toNat).map (mulVecAt lmHead.toList hidden.toList)

theorem rows_eq_fullProduct (hidden lmHead : F32Slice R) (vocabSize : UInt64) :
    ((List.range vocabSize.toNat).map (chunk hidden.toList.length lmHead.toList)).map
        (dot · hidden.toList) = fullProduct hidden lmHead vocabSize := by
  rw [List.map_map, fullProduct]
  exact List.map_congr_left fun v _ => dot_chunk lmHead.toList hidden.toList v

/-- Whole rows of positive width give the full product. -/
theorem projectInto_of_fits {hidden lmHead : F32Slice R} {vocabSize : UInt64} {out : List R}
    (hout : out.length = vocabSize.toNat) (hne : hidden.toList ≠ [])
    (hfits : Fits hidden lmHead vocabSize) :
    projectInto hidden lmHead vocabSize out = (.ok (), fullProduct hidden lmHead vocabSize) := by
  have hpos : hidden.toList.length ≠ 0 := List.length_eq_zero_iff.not.mpr hne
  rw [projectInto, if_neg (not_not.mpr hout), chunksExact_of_length hpos hfits]
  dsimp only
  rw [rows_eq_fullProduct, writeOver_of_length]
  rw [fullProduct, List.length_map, List.length_range, hout]

/-- Without a buffer of the right length nothing is written. -/
theorem projectInto_of_ne {hidden lmHead : F32Slice R} {vocabSize : UInt64} {out : List R}
    (hout : out.length ≠ vocabSize.toNat) :
    projectInto hidden lmHead vocabSize out =
      (.err (.shapeMismatch vocabSize.toNat out.length), out) := if_pos hout

/-- A buffer of the right length is never reported. -/
theorem projectInto_ne_err (hidden lmHead : F32Slice R) {vocabSize : UInt64} {out : List R}
    (hout : out.length = vocabSize.toNat) (e : LogitError) :
    (projectInto hidden lmHead vocabSize out).1 ≠ .err e := by
  rw [projectInto, if_neg (not_not.mpr hout)]
  split <;> nofun

theorem projectInto_eq_panic {hidden : F32Slice R} (lmHead : F32Slice R) {vocabSize : UInt64}
    {out : List R} (hout : out.length = vocabSize.toNat) (hnil : hidden.toList = []) :
    (projectInto hidden lmHead vocabSize out).1 = .panic := by
  rw [projectInto, if_neg (not_not.mpr hout), hnil]
  rfl

theorem projectToLogits_of_ne {hidden lmHead : F32Slice R} {vocabSize : UInt64}
    (h : lmHead.len ≠ vocabSize * hidden.len) :
    projectToLogits hidden lmHead vocabSize =
      .err (.shapeMismatch (vocabSize * hidden.len).toNat lmHead.toList.length) := if_pos h

/-- Past its check, the projection is that into a zeroed vector, or aborts. -/
theorem projectToLogits_of_eq {hidden lmHead : F32Slice R} {vocabSize : UInt64}
    (h : lmHead.len = vocabSize * hidden.len) :
    projectToLogits hidden lmHead vocabSize = .panic ∨
      ∃ logits, projectToLogits hidden lmHead vocabSize = .ok logits ∧
        projectInto hidden lmHead vocabSize (List.replicate vocabSize.toNat 0) =
          (.ok (), logits) := by
  rw [projectToLogits, if_neg (not_not.mpr h)]
  split
  · exact Or.inl rfl
  · have hout : (List.replicate vocabSize.toNat (0 : R)).length = vocabSize.toNat := by simp
    rcases hinto : projectInto hidden lmHead vocabSize (List.replicate vocabSize.toNat 0) with
      ⟨_ | e | _, logits⟩
    · exact Or.inr ⟨logits, rfl, rfl⟩
    · exact absurd (congrArg Prod.fst hinto) (projectInto_ne_err hidden lmHead hout e)
    · exact Or.inl rfl

/-! ## Exactly when a projection is full or reported -/

/-- Either the weights and the buffer fit, and every logit is computed, or an error is returned and
the buffer is unchanged. -/
def FullOrReported (hidden lmHead : F32Slice R) (vocabSize : UInt64) (out : List R) : Prop :=
  (Fits hidden lmHead vocabSize ∧ out.length = vocabSize.toNat ∧
      projectInto hidden lmHead vocabSize out = (.ok (), fullProduct hidden lmHead vocabSize)) ∨
    (¬ (Fits hidden lmHead vocabSize ∧ out.length = vocabSize.toNat) ∧
      ∃ e, projectInto hidden lmHead vocabSize out = (.err e, out))

/-- Either the weights fit, and every logit is computed, or an error is returned. -/
def LogitsOrReported (hidden lmHead : F32Slice R) (vocabSize : UInt64) : Prop :=
  (Fits hidden lmHead vocabSize ∧
      projectToLogits hidden lmHead vocabSize = .ok (fullProduct hidden lmHead vocabSize)) ∨
    (¬ Fits hidden lmHead vocabSize ∧ ∃ e, projectToLogits hidden lmHead vocabSize = .err e)

theorem fullOrReported_iff (hidden lmHead : F32Slice R) (vocabSize : UInt64) (out : List R) :
    FullOrReported hidden lmHead vocabSize out ↔
      (out.length = vocabSize.toNat → hidden.toList ≠ [] ∧ Fits hidden lmHead vocabSize) := by
  by_cases hout : out.length = vocabSize.toNat
  · constructor
    · rintro (⟨hfits, -, hok⟩ | ⟨-, e, herr⟩) -
      · refine ⟨fun hnil => ?_, hfits⟩
        have hpanic := projectInto_eq_panic lmHead hout hnil
        rw [hok] at hpanic
        cases hpanic
      · exact absurd (congrArg Prod.fst herr) (projectInto_ne_err hidden lmHead hout e)
    · intro h
      obtain ⟨hne, hfits⟩ := h hout
      exact Or.inl ⟨hfits, hout, projectInto_of_fits hout hne hfits⟩
  · refine iff_of_true (Or.inr ⟨fun h => hout h.2, _, projectInto_of_ne hout⟩) fun h => ?_
    exact absurd h hout

theorem logitsOrReported_iff (hidden lmHead : F32Slice R) (vocabSize : UInt64) :
    LogitsOrReported hidden lmHead vocabSize ↔
      (lmHead.len = vocabSize * hidden.len →
        hidden.toList ≠ [] ∧ Fits hidden lmHead vocabSize) := by
  by_cases hlen : lmHead.len = vocabSize * hidden.len
  · constructor
    · rintro (⟨hfits, hok⟩ | ⟨-, e, herr⟩) -
      · refine ⟨fun hnil => ?_, hfits⟩
        rcases projectToLogits_of_eq hlen with hpanic | ⟨logits, -, hinto⟩
        · rw [hok] at hpanic
          cases hpanic
        · have hout : (List.replicate vocabSize.toNat (0 : R)).length = vocabSize.toNat := by simp
          have hpanic := projectInto_eq_panic lmHead hout hnil
          rw [hinto] at hpanic
          cases hpanic
      · rcases projectToLogits_of_eq hlen with hpanic | ⟨logits, hok, -⟩
        · rw [herr] at hpanic
          cases hpanic
        · rw [herr] at hok
          cases hok
    · intro h
      obtain ⟨hne, hfits⟩ := h hlen
      refine Or.inl ⟨hfits, ?_⟩
      rw [projectToLogits, if_neg (not_not.mpr hlen), if_neg (Nat.not_le.mpr
        (hfits.vocabSize_lt hne)), projectInto_of_fits (by simp) hne hfits]
  · refine iff_of_true (Or.inr ⟨fun h => hlen h.len_eq, _, projectToLogits_of_ne hlen⟩) fun h => ?_
    exact absurd h hlen

/-- The projection into a buffer is full or reported exactly when a buffer of the right length
comes with a hidden state that is not empty and weights that fit; the fresh projection exactly when
the wrapped product equals the number of weights only for such inputs. -/
theorem projection_full_iff (hidden lmHead : F32Slice R)
    (vocabSize : UInt64) :
    (∀ out, FullOrReported hidden lmHead vocabSize out ↔
      (out.length = vocabSize.toNat → hidden.toList ≠ [] ∧ Fits hidden lmHead vocabSize)) ∧
    (LogitsOrReported hidden lmHead vocabSize ↔
      (lmHead.len = vocabSize * hidden.len →
        hidden.toList ≠ [] ∧ Fits hidden lmHead vocabSize)) :=
  ⟨fullOrReported_iff hidden lmHead vocabSize, logitsOrReported_iff hidden lmHead vocabSize⟩

/-- One logit with no weights: the buffer keeps what it held, and no error is returned. Without a
hidden state, both projections abort. -/
theorem projection_not_full :
    ¬ FullOrReported (R := ℤ) ⟨[1], by decide⟩ ⟨[], by decide⟩ 1 [7] ∧
      projectInto (R := ℤ) ⟨[1], by decide⟩ ⟨[], by decide⟩ 1 [7] = (.ok (), [7]) ∧
      ¬ LogitsOrReported (R := ℤ) ⟨[], by decide⟩ ⟨[], by decide⟩ 1 ∧
      projectToLogits (R := ℤ) ⟨[], by decide⟩ ⟨[], by decide⟩ 1 = .panic := by
  refine ⟨fun h => ?_, rfl, fun h => ?_, rfl⟩
  · rcases h with ⟨hfits, -, -⟩ | ⟨-, e, herr⟩
    · exact absurd hfits (by simp [Fits])
    · cases herr
  · rcases h with ⟨-, hok⟩ | ⟨-, e, herr⟩
    · cases hok
    · cases herr

end Product

end QuantumFlow
