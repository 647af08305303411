import QuantumFlow.Generate.Isolation
import QuantumFlow.Sampling.Nucleus

/-!
# Chats that do not depend on the clock

The seed of a turn comes from the clock, and is used only to draw among the candidates that are
left. Where one is left, whatever the arithmetic makes of the logits, it is the token that is
returned; a chat then goes the same way at any time. One candidate is left with `top_k` 1, and,
over exact arithmetic, with a `top_p` of at most 1 over `top_k`; it has the largest logit then.
-/

namespace QuantumFlow

variable {X W F : Type}

/-- The token that is drawn does not depend on the random state. -/
def Seedless (sample : Sampler F) : Prop :=
  ∀ logits recent rng rng',
    Prod.fst <$> sample logits recent rng' = Prod.fst <$> sample logits recent rng

theorem Seedless.cases {sample : Sampler F} (h : Seedless sample) (logits : List F)
    (recent : List TokenId) (rng rng' : UInt64) :
    (∃ token r r', sample logits recent rng = .ok (token, r) ∧
        sample logits recent rng' = .ok (token, r')) ∨
      (∃ e, sample logits recent rng = .err e ∧ sample logits recent rng' = .err e) ∨
      sample logits recent rng = .panic ∧ sample logits recent rng' = .panic := by
  have hsame := h logits recent rng rng'
  rcases hrng : sample logits recent rng with ⟨token, r⟩ | e | _ <;>
  rcases hrng' : sample logits recent rng' with ⟨token', r'⟩ | e' | _ <;>
  rw [hrng, hrng'] at hsame <;> cases hsame
  · exact Or.inl ⟨token, r, r', rfl, rfl⟩
  · exact Or.inr (Or.inl ⟨e, rfl, rfl⟩)
  · exact Or.inr (Or.inr ⟨rfl, rfl⟩)

/-- The same calls at another time. -/
def TurnCalls.reseed (calls : TurnCalls X) (seed : UInt64) : TurnCalls X := { calls with seed }

def ChatInput.reseed (input : ChatInput X) (seed : UInt64) : ChatInput X :=
  { input with calls := input.calls.reseed seed }

/-- Two inputs that differ at most in the time. -/
def ChatInput.SameButSeed (input input' : ChatInput X) : Prop :=
  input' = input.reseed input'.calls.seed

namespace Engine

variable {E : Engine X W F} {calls : TurnCalls X}

/-! ## Turns -/

/-- The loop does not depend on the random state it begins with. -/
theorem decodeLoopInner_reseed (h : Seedless E.sample) (quiet : Bool) (seed : UInt64) (left : ℕ)
    (reply : List TokenId) (out : Output) (nextToken : TokenId) (recent : List TokenId)
    (rng rng' : UInt64) (g : LlamaGraph X W F) :
    E.decodeLoopInner quiet (calls.reseed seed) left reply out nextToken recent rng' g =
      E.decodeLoopInner quiet calls left reply out nextToken recent rng g := by
  induction left generalizing reply out nextToken recent rng rng' g with
  | zero => rfl
  | succ left ih =>
    have hemit : E.emit quiet (calls.reseed seed) reply.length nextToken out =
        E.emit quiet calls reply.length nextToken out := rfl
    have hcalls : (calls.reseed seed).decode = calls.decode := rfl
    unfold decodeLoopInner
    split
    · rfl
    dsimp only
    split
    · rfl
    rw [hemit, hcalls]
    cases E.emit quiet calls reply.length nextToken out with
    | err e => rfl
    | panic => rfl
    | ok out' =>
      dsimp only
      rcases g.decodeOne E.ggml (calls.decode reply.length) E.model nextToken with
        ⟨logits | e | _, g'⟩
      · dsimp only
        rcases h.cases logits (pushRecent recent nextToken) rng rng' with
          ⟨token, r, r', hrng, hrng'⟩ | ⟨e, hrng, hrng'⟩ | ⟨hrng, hrng'⟩ <;>
          rw [hrng, hrng']
        exact ih _ _ _ _ _ _ _
      · rfl
      · rfl

theorem runGenerationInner_reseed (h : Seedless E.sample) (quiet : Bool) (seed : UInt64)
    (ids : List TokenId) (g : LlamaGraph X W F) :
    E.runGenerationInner quiet (calls.reseed seed) ids g =
      E.runGenerationInner quiet calls ids g := by
  have hcalls : (calls.reseed seed).prefill = calls.prefill := rfl
  have hseed : (calls.reseed seed).seed = seed := rfl
  unfold runGenerationInner
  split
  · rfl
  split
  · rfl
  rw [hcalls, hseed]
  rcases g.prefill E.ggml calls.prefill E.model ids with ⟨logits | e | _, g'⟩
  · dsimp only
    rcases h.cases logits [] calls.seed seed with
      ⟨token, r, r', hrng, hrng'⟩ | ⟨e, hrng, hrng'⟩ | ⟨hrng, hrng'⟩ <;>
      rw [hrng, hrng']
    dsimp only
    rw [decodeLoopInner_reseed h quiet seed _ _ _ _ _ r r']
  · rfl
  · rfl

theorem generateTurn_reseed (h : Seedless E.sample) (seed : UInt64) (message : String)
    (turnNumber : ℕ) (g : LlamaGraph X W F) :
    E.generateTurn (calls.reseed seed) message turnNumber g =
      E.generateTurn calls message turnNumber g := by
  unfold generateTurn
  simp only [runGeneration_eq_dropText, runGenerationInner_reseed h]

/-! ## Chats -/

variable {contextLen : ℕ} {input : ChatInput X}

theorem roundOutcome_reseed (h : Seedless E.sample) (seed : UInt64) (s : ChatState X W F) :
    E.roundOutcome (input.reseed seed) s = E.roundOutcome input s := by
  simp only [roundOutcome, ChatInput.reseed, generateTurn_reseed h]

theorem chatStep_reseed (h : Seedless E.sample) (seed : UInt64) (s : ChatState X W F) :
    E.chatStep contextLen (input.reseed seed) s = E.chatStep contextLen input s := by
  simp only [chatStep, chatTurn, ChatInput.reseed, generateTurn_reseed h]

/-- A chat whose draws do not depend on the random state goes the same way at any time. -/
theorem chat_of_seedless (h : Seedless E.sample) {inputs inputs' : List (ChatInput X)}
    (hinputs : List.Forall₂ ChatInput.SameButSeed inputs inputs') (s : ChatState X W F) :
    E.chatOutcomes contextLen inputs' s = E.chatOutcomes contextLen inputs s ∧
      E.chatRun contextLen inputs' s = E.chatRun contextLen inputs s := by
  induction hinputs generalizing s with
  | nil => exact ⟨rfl, rfl⟩
  | cons hinput hinputs ih =>
    rw [hinput, chatRun_cons, chatRun_cons, chatOutcomes, chatOutcomes, roundOutcome_reseed h,
      chatStep_reseed h]
    cases E.chatStep contextLen _ s with
    | none => exact ⟨rfl, rfl⟩
    | some s' =>
      obtain ⟨houtcomes, hrun⟩ := ih s'
      exact ⟨congrArg _ houtcomes, hrun⟩

end Engine

/-! ## One candidate -/

section OneCandidate

variable {ops : FloatOps F} {slices : SliceOps ℕ} {cfg : SamplingConfig F} {logits : List F}

/-- A nucleus of one candidate is what is drawn, whatever the threshold. -/
theorem draw_of_cutoff_one {top : ℕ} {rest : List ℕ} {exps : List F}
    (htop : topIndices ops slices cfg.topK logits = some (top :: rest))
    (hexps : softmax ops logits (top :: rest) = some exps)
    (hcut : cutoff ops cfg.topP exps = 1) (t : F) :
    draw ops slices cfg logits t = .ok (UInt32.ofNat top) := by
  have hlen : exps.length = rest.length + 1 := by
    cases hexps
    rw [FloatOps.length_normalise, List.length_map, List.length_cons]
  obtain ⟨e, exps', rfl⟩ := List.exists_cons_of_length_eq_add_one hlen
  have hpick : (pickFrom ops t ops.zero ([top].zip (ops.normalise [e]))).or [top][0]? =
      some top := by
    simp only [FloatOps.normalise, List.map_cons, List.map_nil, List.zip_cons_cons,
      List.zip_nil_left, pickFrom]
    split <;> rfl
  rw [draw, htop]
  simp only [orPanic, Outcome.ok_bind, hexps, hcut, List.take_succ_cons, List.take_zero, hpick]
  rfl

theorem cutoff_singleton (topP e : F) : cutoff ops topP [e] = 1 := by
  simp only [cutoff, cutoffFrom]
  split <;> rfl

/-- Asked for one candidate, selection leaves one. -/
theorem exists_of_topIndices_one (hS : slices.Lawful) {indices : List ℕ}
    (h : topIndices ops slices (some 1) logits = some indices) : ∃ top, indices = [top] := by
  rw [topIndices] at h
  split at h
  · cases h
  · rename_i hk
    obtain ⟨zs, hselect, hsort⟩ := Option.bind_eq_some_iff.mp h
    have hlen := (hS.sortUnstable_perm hsort).length_eq
    have hzs := (hS.selectNth_perm hselect).length_eq
    rw [List.length_range] at hzs
    simp only [Option.getD_some] at hk hlen
    rw [List.length_take, hzs] at hlen
    exact List.length_eq_one_iff.mp (by omega)

theorem fst_sampleToken (ops : FloatOps F) (slices : SliceOps ℕ) (cfg : SamplingConfig F)
    (logits : List F) (recent : List TokenId) (rng : UInt64) :
    Prod.fst <$> sampleToken ops slices cfg logits recent rng =
      sampleAt ops slices cfg logits recent (threshold ops (xorshift64 rng)) := by
  unfold sampleToken
  dsimp only
  cases sampleAt ops slices cfg logits recent (threshold ops (xorshift64 rng)) <;> rfl

/-- The random state is seen through the threshold of the draw only. -/
theorem seedless_of_draw
    (h : ∀ logits t t', draw ops slices cfg logits t' = draw ops slices cfg logits t) :
    Seedless (sampleToken ops slices cfg) := by
  intro logits recent rng rng'
  rw [fst_sampleToken, fst_sampleToken, sampleAt, sampleAt, h _ (threshold ops (xorshift64 rng))]

/-- With one candidate nothing is left to chance, whatever the arithmetic does. -/
theorem seedless_of_topK_one (ops : FloatOps F) (hS : slices.Lawful) (htop : cfg.topK = some 1) :
    Seedless (sampleToken ops slices cfg) := by
  refine seedless_of_draw fun logits t t' => ?_
  cases hindices : topIndices ops slices cfg.topK logits with
  | none => rw [draw, draw, hindices]; rfl
  | some indices =>
    obtain ⟨top, rfl⟩ := exists_of_topIndices_one hS (htop ▸ hindices)
    rw [draw_of_cutoff_one hindices rfl (cutoff_singleton _ _),
      draw_of_cutoff_one hindices rfl (cutoff_singleton _ _)]

end OneCandidate

/-- A chat that samples among one candidate goes the same way at any time: every round ends as it
does, and leaves what it leaves, whatever the clock shows. -/
theorem Engine.chat_at_any_time {E : Engine X W F} {ops : FloatOps F} {slices : SliceOps ℕ}
    {cfg : SamplingConfig F} (hE : E.sample = sampleToken ops slices cfg) (hS : slices.Lawful)
    (htop : cfg.topK = some 1) {inputs inputs' : List (ChatInput X)}
    (hinputs : List.Forall₂ ChatInput.SameButSeed inputs inputs') (contextLen : ℕ)
    (s : ChatState X W F) :
    E.chatOutcomes contextLen inputs' s = E.chatOutcomes contextLen inputs s ∧
      E.chatRun contextLen inputs' s = E.chatRun contextLen inputs s :=
  chat_of_seedless (hE ▸ seedless_of_topK_one ops hS htop) hinputs s

/-- An engine whose second token is always the likelier one. -/
def secondEngine : Engine Unit Unit ℚ where
  ggml :=
    { zero := (), getRows := fun _ _ => (), rmsNorm := fun _ _ => (), mul := fun _ _ => ()
      mulMat := fun _ _ => (), ropeExt := fun _ _ _ _ => (), attend := fun _ _ _ => ()
      add := fun _ _ => (), silu := fun _ => (), mulRows := fun _ _ => ()
      tensorGet := fun _ _ => [1, 2] }
  model := .const ()
  tokenizer := (unitEngine replyOnce).tokenizer
  sample := sampleToken rationalOps strictOps (plainConfig (some 1))
  maxNewTokens := 3

/-- Its first turn, at two times. -/
theorem Engine.chat_at_any_time_second :
    let start : ChatState Unit Unit ℚ := .start 512
      { hp := { unitHparams with freqBase := 0, rmsNormEps := 0 }
        kv := .new secondEngine.ggml 512, dGraph := none }
    secondEngine.chatOutcomes 512 [sayHi.reseed 7] start =
        secondEngine.chatOutcomes 512 [sayHi] start ∧
      secondEngine.chatRun 512 [sayHi.reseed 7] start =
        secondEngine.chatRun 512 [sayHi] start := by
  have hseed : sayHi.SameButSeed (sayHi.reseed 7) := rfl
  exact chat_at_any_time rfl lawful_strictOps rfl (.cons hseed .nil) 512 _

/-! ## A small nucleus -/

section Exact

variable {K : Type} [Field K] [LinearOrder K] [IsStrictOrderedRing K] {exp : K → K}
  {ofU64 : UInt64 → K} {bits : K → UInt32}

/-- The first of `n` candidates has at least an `n`-th of the mass. -/
theorem cutoff_of_small (hexp : ∀ x, 0 < exp x) (hmono : Monotone exp) (logits : List K) {topP : K}
    {top : ℕ} {rest : List ℕ} (hdescends : ∀ i ∈ rest, logits.getD i 0 ≤ logits.getD top 0)
    (hsmall : topP * ((top :: rest).length : K) ≤ 1) :
    cutoff (.exact exp ofU64 bits) topP (normalised (weights exp logits (top :: rest))) = 1 := by
  have hsum : 0 < (weights exp logits (top :: rest)).sum :=
    sum_weights_pos hexp logits (List.cons_ne_nil _ _)
  have hle : (weights exp logits (top :: rest)).sum ≤ ((top :: rest).length : K) * exp 0 := by
    have hall : ∀ w ∈ weights exp logits (top :: rest), w ≤ exp 0 := by
      intro w hw
      obtain ⟨i, hi, rfl⟩ := List.mem_map.mp hw
      refine hmono (sub_nonpos.mpr ?_)
      rcases List.mem_cons.mp hi with rfl | hi
      · exact le_rfl
      · exact hdescends i hi
    have hcard := List.sum_le_card_nsmul _ _ hall
    rwa [nsmul_eq_mul, weights, List.length_map] at hcard
  have hfirst : topP ≤ exp 0 / (weights exp logits (top :: rest)).sum := by
    rw [le_div_iff₀ hsum]
    rcases le_or_gt topP 0 with hneg | hpos
    · exact (mul_nonpos_of_nonpos_of_nonneg hneg hsum.le).trans (hexp 0).le
    · calc topP * (weights exp logits (top :: rest)).sum
          ≤ topP * (((top :: rest).length : K) * exp 0) := mul_le_mul_of_nonneg_left hle hpos.le
        _ = topP * ((top :: rest).length : K) * exp 0 := (mul_assoc _ _ _).symm
        _ ≤ 1 * exp 0 := mul_le_mul_of_nonneg_right hsmall (hexp 0).le
        _ = exp 0 := one_mul _
  have hhead : normalised (weights exp logits (top :: rest)) =
      exp 0 / (weights exp logits (top :: rest)).sum ::
        (rest.map fun i => exp (logits.getD i 0 - logits.getD top 0)).map
          (· / (weights exp logits (top :: rest)).sum) := by
    simp [normalised, weights]
  rw [hhead, cutoff, cutoffFrom]
  simp [FloatOps.exact, hfirst]

omit [IsStrictOrderedRing K] in
/-- The candidates that exact arithmetic finds are the largest logits. -/
theorem exists_largest_of_topIndices {slices : SliceOps ℕ} (hS : slices.Lawful) {topK : Option ℕ}
    {logits : List K} {indices : List ℕ}
    (h : topIndices (.exact exp ofU64 bits) slices topK logits = some indices) :
    indices ≠ [] ∧ Largest logits (min (topK.getD logits.length) logits.length) indices := by
  refine ⟨(topIndices_eq_some hS h).1, ?_⟩
  have hne : logits ≠ [] := by
    rintro rfl
    simp [topIndices] at h
  have htop : topK ≠ some 0 := by
    rintro rfl
    rw [topIndices_zero] at h
    cases h
  obtain ⟨indices', h', hfirst⟩ :=
    exists_topIndices hS htop hne (consistent_exact exp ofU64 bits logits)
  rw [h] at h'
  cases h'
  exact hfirst.largest

variable {slices : SliceOps ℕ} {cfg : SamplingConfig K} {k : ℕ}

/-- Where a draw has candidates, it returns the first of them. -/
theorem draw_of_small (hS : slices.Lawful) (hexp : ∀ x, 0 < exp x) (hmono : Monotone exp)
    (hk : cfg.topK = some k) (hsmall : cfg.topP * k ≤ 1) {logits : List K} {top : ℕ}
    {rest : List ℕ}
    (h : topIndices (.exact exp ofU64 bits) slices cfg.topK logits = some (top :: rest)) (t : K) :
    draw (.exact exp ofU64 bits) slices cfg logits t = .ok (UInt32.ofNat top) := by
  have hlargest := (exists_largest_of_topIndices hS h).2
  have hlen : (top :: rest).length ≤ k := by
    rw [hlargest.length, hk]
    exact Nat.min_le_left _ _
  have hfew : cfg.topP * ((top :: rest).length : K) ≤ 1 := by
    rcases le_or_gt cfg.topP 0 with hneg | hpos
    · exact (mul_nonpos_of_nonpos_of_nonneg hneg (Nat.cast_nonneg _)).trans zero_le_one
    · exact (mul_le_mul_of_nonneg_left (Nat.cast_le.mpr hlen) hpos.le).trans hsmall
  have hdescends := (List.pairwise_cons.mp hlargest.descends).1
  exact draw_of_cutoff_one h (softmax_exact exp ofU64 bits logits (List.cons_ne_nil _ _))
    (cutoff_of_small hexp hmono logits hdescends hfew) t

/-- With a nucleus of at most one over the number of candidates, sampling is greedy over exact
arithmetic: it does not depend on the random state, and returns a token whose penalised logit is
the largest. -/
theorem greedy_of_small_topP (ofU64 : UInt64 → K) (bits : K → UInt32) (hS : slices.Lawful)
    (hexp : ∀ x, 0 < exp x) (hmono : Monotone exp) (htemp : 0 < cfg.temperature)
    (htopP : 0 < cfg.topP) (hk : cfg.topK = some k) (hpos : 0 < k) (hsmall : cfg.topP * k ≤ 1) :
    Seedless (sampleToken (.exact exp ofU64 bits) slices cfg) ∧
      ∀ logits recent, logits ≠ [] → ∃ top < logits.length,
        (∀ rng, sampleToken (.exact exp ofU64 bits) slices cfg logits recent rng =
          .ok (UInt32.ofNat top, xorshift64 rng)) ∧
        ∀ b < logits.length,
          (applyRepeatPenalty (.exact exp ofU64 bits) logits recent cfg.repeatPenalty).getD b 0 ≤
          (applyRepeatPenalty (.exact exp ofU64 bits) logits recent cfg.repeatPenalty).getD top
            0 := by
  constructor
  · refine seedless_of_draw fun logits t t' => ?_
    cases hindices : topIndices (.exact exp ofU64 bits) slices cfg.topK logits with
    | none => rw [draw, draw, hindices]; rfl
    | some indices =>
      obtain ⟨top, rest, rfl⟩ :=
        List.exists_cons_of_ne_nil (exists_largest_of_topIndices hS hindices).1
      rw [draw_of_small hS hexp hmono hk hsmall hindices,
        draw_of_small hS hexp hmono hk hsmall hindices]
  · intro logits recent hne
    have hone : (1 : K) ≤ k := Nat.one_le_cast.mpr hpos
    have htopP' : cfg.topP ≤ 1 := (le_mul_of_one_le_right htopP.le hone).trans hsmall
    have hscaled : scaledLogits (.exact exp ofU64 bits) cfg logits recent ≠ [] := by
      rwa [← List.length_pos_iff, length_scaledLogits, List.length_pos_iff]
    have htopK : cfg.topK ≠ some 0 := by
      rw [hk]
      exact fun h => hpos.ne' (Option.some.inj h)
    obtain ⟨indices, hindices, hfirst⟩ :=
      exists_topIndices hS htopK hscaled (consistent_exact exp ofU64 bits _)
    obtain ⟨top, rest, rfl⟩ :=
      List.exists_cons_of_ne_nil (exists_largest_of_topIndices hS hindices).1
    have hlargest := hfirst.largest.of_scaled htemp
    refine ⟨top, ?_, fun rng => ?_, fun b hb => ?_⟩
    · simpa using hlargest.inside top List.mem_cons_self
    · rw [sampleToken, sampleAt_of_accepted (validate_exact htemp htopP htopP') hne,
        draw_of_small hS hexp hmono hk hsmall hindices]
      rfl
    · by_cases hmem : b ∈ top :: rest
      · rcases List.mem_cons.mp hmem with rfl | hrest
        · exact le_rfl
        · exact (List.pairwise_cons.mp hlargest.descends).1 b hrest
      · exact hlargest.others b (by simpa using hb) hmem top List.mem_cons_self

end Exact

/-- Four candidates, and a nucleus of a quarter. -/
def quarterConfig : SamplingConfig ℚ := { plainConfig (some 4) with topP := 1 / 4 }

/-- The second of three logits, whatever the seed. -/
theorem greedy_of_small_topP_quarter :
    Seedless (sampleToken (.exact growth (fun _ => 0) fun _ => 0) strictOps quarterConfig) ∧
      ∃ top < 3, ∀ rng,
        sampleToken (.exact growth (fun _ => 0) fun _ => 0) strictOps quarterConfig [1, 3, 2] []
          rng = .ok (UInt32.ofNat top, xorshift64 rng) := by
  have htemp : 0 < quarterConfig.temperature := by norm_num [quarterConfig, plainConfig]
  have htopP : 0 < quarterConfig.topP := by norm_num [quarterConfig]
  have hsmall : quarterConfig.topP * (4 : ℕ) ≤ 1 := by norm_num [quarterConfig]
  obtain ⟨hseedless, hgreedy⟩ := greedy_of_small_topP (fun _ => 0) (fun _ => 0) lawful_strictOps
    growth_pos growth_strictMono.monotone htemp htopP rfl (by decide) hsmall
  obtain ⟨top, hlt, hdraw, -⟩ := hgreedy [1, 3, 2] [] (by simp)
  exact ⟨hseedless, top, hlt, hdraw⟩

end QuantumFlow
