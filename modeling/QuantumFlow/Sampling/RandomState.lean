import QuantumFlow.Foundation.XorShift
import QuantumFlow.Generate.Window
import QuantumFlow.Sampling.Logits

/-!
# The random state

A sampling step replaces the random state by its xorshift. The xorshift is a bijection that keeps
zero, so a state that starts non-zero stays so, and states that differ stay apart. The seed from
the time is never zero.
-/

namespace QuantumFlow

/-! ## The update of the state -/

theorem toBitVec_xorshift64 (x : UInt64) :
    (xorshift64 x).toBitVec = xorShiftLeft 17 (xorShiftRight 7 (xorShiftLeft 13 x.toBitVec)) := by
  simp [xorshift64, xorShiftLeft, xorShiftRight]

theorem xorshift64_bijective : Function.Bijective xorshift64 := by
  refine Finite.injective_iff_bijective.mp fun x y h => ?_
  have hbits := congrArg UInt64.toBitVec h
  rw [toBitVec_xorshift64, toBitVec_xorshift64] at hbits
  have hright := (xorShiftLeft_bijective (by decide)).1 hbits
  have hleft := (xorShiftRight_bijective (by decide)).1 hright
  exact UInt64.toBitVec_inj.mp ((xorShiftLeft_bijective (by decide)).1 hleft)

theorem xorshift64_eq_zero_iff (x : UInt64) : xorshift64 x = 0 ↔ x = 0 :=
  xorshift64_bijective.1.eq_iff' rfl

/-! ## The seed -/

/-- The time since the epoch. -/
structure Duration where
  secs : UInt64
  subsecNanos : UInt32

/-- A clock that is before the epoch gives no duration. Products and sums wrap. -/
def rngSeedFromTime (sinceEpoch : Option Duration) : UInt64 :=
  let ns := (sinceEpoch.map fun d => d.subsecNanos.toUInt64 + d.secs * 1000000000).getD
    0x517cc1b727220a95
  if ns = 0 then 0x517cc1b727220a95 else ns

theorem rngSeedFromTime_ne_zero (sinceEpoch : Option Duration) :
    rngSeedFromTime sinceEpoch ≠ 0 := by
  unfold rngSeedFromTime
  dsimp only
  split
  · decide
  · assumption

/-! ## Sampling steps -/

variable {X W F : Type} {ops : FloatOps F} {slices : SliceOps ℕ}

/-- The state after a number of calls of the sampler that returned a token. -/
inductive SamplingSteps (ops : FloatOps F) (slices : SliceOps ℕ) : ℕ → UInt64 → UInt64 → Prop
  | refl {s : UInt64} : SamplingSteps ops slices 0 s s
  | step {n : ℕ} {s s' t : UInt64} {cfg : SamplingConfig F} {logits : List F}
      {recent : List TokenId} {token : TokenId}
      (hsample : sampleToken ops slices cfg logits recent s = .ok (token, s'))
      (hrest : SamplingSteps ops slices n s' t) : SamplingSteps ops slices (n + 1) s t

/-- A call that returns a token has moved the state by one xorshift. -/
theorem eq_xorshift64_of_sampleToken {cfg : SamplingConfig F} {logits : List F}
    {recent : List TokenId} {token : TokenId} {s s' : UInt64}
    (h : sampleToken ops slices cfg logits recent s = .ok (token, s')) : s' = xorshift64 s := by
  obtain ⟨id, -, hid⟩ := Outcome.bind_eq_ok.mp h
  cases hid
  rfl

theorem SamplingSteps.eq_iterate {n : ℕ} {s t : UInt64} (h : SamplingSteps ops slices n s t) :
    t = xorshift64^[n] s := by
  induction h with
  | refl => rfl
  | step hsample _ ih => rw [ih, eq_xorshift64_of_sampleToken hsample, Function.iterate_succ_apply]

theorem SamplingSteps.ne_zero {n : ℕ} {s t : UInt64} (h : SamplingSteps ops slices n s t)
    (hs : s ≠ 0) : t ≠ 0 := by
  induction h with
  | refl => exact hs
  | step hsample _ ih =>
    apply ih
    rw [eq_xorshift64_of_sampleToken hsample]
    exact (xorshift64_eq_zero_iff _).not.mpr hs

/-- Runs of equal length keep different states apart. -/
theorem SamplingSteps.ne {n : ℕ} {s t s' t' : UInt64} (h : SamplingSteps ops slices n s s')
    (h' : SamplingSteps ops slices n t t') (hne : s ≠ t) : s' ≠ t' := by
  rw [h.eq_iterate, h'.eq_iterate]
  exact (xorshift64_bijective.1.iterate n).ne hne

/-! ## The states of a turn -/

theorem samplingSteps_of_loopRuns {E : Engine X W F} {quiet : Bool} {calls : TurnCalls X}
    {cfg : SamplingConfig F} (hE : E.sample = sampleToken ops slices cfg)
    {reply recent : List TokenId} {out : Output} {nextToken : TokenId} {rng : UInt64}
    {trace : List TurnEvent} {res : Outcome GenerateError (List TokenId × TokenId × Output)}
    (h : Engine.LoopRuns E quiet calls reply out nextToken recent rng trace res) {i : ℕ}
    {s : UInt64} (hs : (TurnEvent.sampledStates trace)[i]? = some s) :
    SamplingSteps ops slices (i + 1) rng s := by
  induction h generalizing i with
  | stops => cases hs
  | fails htrace _ => rcases htrace with rfl | rfl <;> cases hs
  | asks _ _ => cases hs
  | @round _ _ _ _ _ _ rng rng' _ rest _ _ hsample _ ih =>
    rw [hE] at hsample
    change (rng' :: TurnEvent.sampledStates rest)[i]? = some s at hs
    cases i with
    | zero =>
      cases hs
      exact .step hsample .refl
    | succ i => exact .step hsample (ih hs)

/-- The `i`-th state of a turn is `i + 1` sampling steps from its seed. -/
theorem samplingSteps_of_turn {E : Engine X W F} {cfg : SamplingConfig F}
    (hE : E.sample = sampleToken ops slices cfg) (quiet : Bool) (calls : TurnCalls X)
    (turnIds : List TokenId) (g : LlamaGraph X W F) {i : ℕ} {s : UInt64}
    (hs : (TurnEvent.sampledStates (E.runGenerationTraced quiet calls turnIds g).1)[i]? = some s) :
    SamplingSteps ops slices (i + 1) calls.seed s := by
  rcases Engine.runGenerationTraced_cases E quiet calls turnIds g with
    ⟨htrace | htrace, -⟩ | ⟨logits, token, rng, trace, res, hsample, hloop, htrace, -⟩ <;>
    rw [htrace] at hs
  · cases hs
  · cases hs
  · rw [hE] at hsample
    change (rng :: TurnEvent.sampledStates trace)[i]? = some s at hs
    cases i with
    | zero =>
      cases hs
      exact .step hsample .refl
    | succ i => exact .step hsample (samplingSteps_of_loopRuns hE hloop hs)

/-- The xorshift is a bijection and only zero becomes zero. From a seed of the time, no number of
sampling steps reaches zero, and equally many steps from different states end in different states.
The states of a turn are reached by such steps from its seed. -/
theorem random_state_never_dies (ops : FloatOps F) (slices : SliceOps ℕ) :
    Function.Bijective xorshift64 ∧
      (∀ x, xorshift64 x = 0 ↔ x = 0) ∧
      (∀ sinceEpoch, rngSeedFromTime sinceEpoch ≠ 0) ∧
      (∀ sinceEpoch n s, SamplingSteps ops slices n (rngSeedFromTime sinceEpoch) s → s ≠ 0) ∧
      (∀ n s t s' t', s ≠ t → SamplingSteps ops slices n s s' → SamplingSteps ops slices n t t' →
        s' ≠ t') ∧
      ∀ (E : Engine X W F) cfg quiet (calls : TurnCalls X) turnIds (g : LlamaGraph X W F) i s,
        E.sample = sampleToken ops slices cfg →
        (TurnEvent.sampledStates (E.runGenerationTraced quiet calls turnIds g).1)[i]? = some s →
        SamplingSteps ops slices (i + 1) calls.seed s := by
  refine ⟨xorshift64_bijective, xorshift64_eq_zero_iff, rngSeedFromTime_ne_zero, ?_, ?_, ?_⟩
  · intro sinceEpoch n s h
    exact h.ne_zero (rngSeedFromTime_ne_zero sinceEpoch)
  · intro n s t s' t' hne h h'
    exact h.ne h' hne
  · intro E cfg quiet calls turnIds g i s hE hs
    exact samplingSteps_of_turn hE quiet calls turnIds g hs

end QuantumFlow
