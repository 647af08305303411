import QuantumFlow.Generate.Isolation

/-!
# Room for a conversation

A text is never encoded with more ids than its spelling has bytes, and a turn caches at most its
prompt and a reply of the permitted length. So what a conversation needs can be read off its
messages: while it stays within the cache no turn is refused. A turn that was refused is refused
again until the next reset, since the cache only fills up.
-/

namespace QuantumFlow

variable {X W F : Type}

/-! ## How many ids a text is encoded with -/

/-- The bytes of a text in GPT-2 characters: one for each printable ASCII character, else two. -/
def spelledLength (text : String) : ℕ := (bytesToGpt2Unicode (utf8 text)).length

namespace Tokenizer

variable {T : Tokenizer}

/-- Every round of the scan pushes one id and moves on. -/
theorem length_initialTokeniseFrom_le {orig bytes : List UInt8} {fuel i : ℕ} {ids : List TokenId}
    (h : T.initialTokeniseFrom orig bytes fuel i = some ids) : ids.length ≤ bytes.length - i := by
  induction fuel generalizing i ids with
  | zero =>
    cases h
    exact Nat.zero_le _
  | succ fuel ih =>
    unfold initialTokeniseFrom at h
    split at h
    · rename_i hlt
      obtain ⟨⟨id, len⟩, hpush, h⟩ := Option.bind_eq_some_iff.mp h
      obtain ⟨rest, hrest, h⟩ := Option.bind_eq_some_iff.mp h
      cases h
      have hpos := pushAt_pos hpush
      have hlen := ih hrest
      rw [List.length_cons]
      omega
    · cases h
      exact Nat.zero_le _

theorem length_encodeNoBos_le {text : String} {ids : List TokenId}
    (h : T.encodeNoBos text = some ids) : ids.length ≤ spelledLength text := by
  obtain ⟨cut, hcut, h⟩ := Option.bind_eq_some_iff.mp h
  obtain ⟨merged, hmerged, h⟩ := Option.bind_eq_some_iff.mp h
  cases h
  have hscan : cut.length ≤ spelledLength text := length_initialTokeniseFrom_le hcut
  have hmerge : merged.length ≤ cut.length := by
    rw [eq_normalize_of_bpeMerge hmerged]
    exact PairMerge.length_normalizeFrom_le _ cut
  exact hmerge.trans hscan

end Tokenizer

/-- A bound on the ids of a turn: those of a first turn, which has more. -/
def turnCost (message : String) : ℕ :=
  10 + spelledLength "system" + spelledLength "\n\nYou are a helpful AI assistant." +
    spelledLength "user" + spelledLength ("\n\n" ++ message) + spelledLength "assistant"

theorem length_buildChatTokens_le {message : String} {T : Tokenizer} {ids : List TokenId}
    (h : buildChatTokens message T = some ids) : ids.length ≤ turnCost message := by
  obtain ⟨system, hsystem, h⟩ := Option.bind_eq_some_iff.mp h
  obtain ⟨prompt, hprompt, h⟩ := Option.bind_eq_some_iff.mp h
  obtain ⟨user, huser, h⟩ := Option.bind_eq_some_iff.mp h
  obtain ⟨text, htext, h⟩ := Option.bind_eq_some_iff.mp h
  obtain ⟨assistant, hassistant, h⟩ := Option.bind_eq_some_iff.mp h
  cases h
  have h₁ := Tokenizer.length_encodeNoBos_le hsystem
  have h₂ := Tokenizer.length_encodeNoBos_le hprompt
  have h₃ := Tokenizer.length_encodeNoBos_le huser
  have h₄ := Tokenizer.length_encodeNoBos_le htext
  have h₅ := Tokenizer.length_encodeNoBos_le hassistant
  simp only [turnCost, List.length_append, List.length_cons, List.length_nil]
  omega

theorem length_buildFollowupChatTokens_le {message : String} {T : Tokenizer} {ids : List TokenId}
    (h : buildFollowupChatTokens message T = some ids) : ids.length ≤ turnCost message := by
  obtain ⟨user, huser, h⟩ := Option.bind_eq_some_iff.mp h
  obtain ⟨text, htext, h⟩ := Option.bind_eq_some_iff.mp h
  obtain ⟨assistant, hassistant, h⟩ := Option.bind_eq_some_iff.mp h
  cases h
  have h₁ := Tokenizer.length_encodeNoBos_le huser
  have h₂ := Tokenizer.length_encodeNoBos_le htext
  have h₃ := Tokenizer.length_encodeNoBos_le hassistant
  simp only [turnCost, List.length_append, List.length_cons, List.length_nil]
  omega

namespace Engine

variable {E : Engine X W F} {calls : TurnCalls X} {g : LlamaGraph X W F}

theorem length_turnIds_le {message : String} {turnNumber : ℕ} {ids : List TokenId}
    (h : E.turnIds message turnNumber = some ids) : ids.length ≤ turnCost message := by
  unfold turnIds at h
  split at h
  · exact length_buildChatTokens_le h
  · exact length_buildFollowupChatTokens_le h

/-! ## How far a turn fills the cache -/

/-- The head moves up, by at most `n`, in a cache of the same size. -/
structure Fills (n : ℕ) (g g' : LlamaGraph X W F) : Prop where
  nCtx : g'.kv.nCtx = g.kv.nCtx
  head_le : g.kv.head ≤ g'.kv.head
  le_head : g'.kv.head ≤ g.kv.head + n

theorem Fills.refl (n : ℕ) (g : LlamaGraph X W F) : Fills n g g :=
  ⟨rfl, le_rfl, Nat.le_add_right _ _⟩

theorem Fills.trans {m n : ℕ} {g g' g'' : LlamaGraph X W F} (h : Fills m g g')
    (h' : Fills n g' g'') : Fills (m + n) g g'' where
  nCtx := h'.nCtx.trans h.nCtx
  head_le := h.head_le.trans h'.head_le
  le_head := by
    have hm := h.le_head
    have hn := h'.le_head
    omega

theorem Fills.mono {m n : ℕ} {g g' : LlamaGraph X W F} (h : Fills m g g') (hle : m ≤ n) :
    Fills n g g' :=
  ⟨h.nCtx, h.head_le, h.le_head.trans (Nat.add_le_add_left hle _)⟩

theorem fills_serve (req : Request X) (hreq : req ≠ .resetKv) :
    Fills req.tokens.length g (req.serve E.ggml E.model g).2 := by
  have happ : AppendsRows g (req.serve E.ggml E.model g).2 req.tokens.length
      (req.serve E.ggml E.model g).1 := appendsRows_serve hreq
  have hctx : (req.serve E.ggml E.model g).2.kv.nCtx = g.kv.nCtx := nCtx_serve req
  cases hres : (req.serve E.ggml E.model g).1 with
  | ok logits =>
    have hhead := happ.headOk logits hres
    exact ⟨hctx, by omega, by omega⟩
  | err e =>
    have hhead := happ.headErr e hres
    exact ⟨hctx, by omega, by omega⟩
  | panic => exact absurd hres (serve_ne_panic hreq)

theorem fills_decodeLoop {left : ℕ} {reply recent : List TokenId} {nextToken : TokenId}
    {rng : UInt64} :
    Fills left g (E.decodeLoop calls left reply nextToken recent rng g).2 := by
  induction left generalizing reply recent nextToken rng g with
  | zero =>
    unfold decodeLoop
    split <;> exact .refl 0 g
  | succ left ih =>
    have hone : Fills 1 g (g.decodeOne E.ggml (calls.decode reply.length) E.model nextToken).2 :=
      fills_serve (.decodeOne (calls.decode reply.length) nextToken) (by simp)
    unfold decodeLoop
    split
    · exact .refl _ g
    dsimp only
    split
    · exact .refl _ g
    split
    · exact .refl _ g
    split <;> rename_i hdecode <;> rw [hdecode] at hone
    · exact hone.mono (by omega)
    · exact hone.mono (by omega)
    · split
      · exact hone.mono (by omega)
      · exact hone.mono (by omega)
      · exact (hone.trans ih).mono (by omega)

theorem fills_runGeneration (ids : List TokenId) :
    Fills (ids.length + E.maxNewTokens) g (E.runGeneration calls ids g).2 := by
  have hids : Fills ids.length g (g.prefill E.ggml calls.prefill E.model ids).2 :=
    fills_serve (.prefill calls.prefill ids) (by simp)
  unfold runGeneration
  split
  · exact .refl _ g
  split
  · exact .refl _ g
  split <;> rename_i hprefill <;> rw [hprefill] at hids
  · exact hids.mono (by omega)
  · exact hids.mono (by omega)
  · rename_i logits g₁
    split
    · exact hids.mono (by omega)
    · exact hids.mono (by omega)
    · rename_i token rng _
      have hloop : Fills E.maxNewTokens g₁
          (E.decodeLoop calls E.maxNewTokens [] token [] rng g₁).2 := fills_decodeLoop
      split <;> rename_i hrun <;> rw [hrun] at hloop <;> exact hids.trans hloop

/-- A turn fills the cache by at most its cost and a reply. -/
theorem fills_generateTurn (message : String) (turnNumber : ℕ) :
    Fills (turnCost message + E.maxNewTokens) g (E.generateTurn calls message turnNumber g).2 := by
  unfold generateTurn
  split
  · exact .refl _ g
  split
  · exact .refl _ g
  · rename_i hids
    have hcost := length_turnIds_le hids
    exact (fills_runGeneration _).mono (by omega)

/-! ## Refusals -/

theorem decodeLoop_ne_contextFull {left : ℕ} {reply recent : List TokenId} {nextToken : TokenId}
    {rng : UInt64} (used max : ℕ) :
    (E.decodeLoop calls left reply nextToken recent rng g).1 ≠ .err (.contextFull used max) := by
  induction left generalizing reply recent nextToken rng g with
  | zero =>
    unfold decodeLoop
    split <;> simp
  | succ left ih =>
    unfold decodeLoop
    split
    · simp
    dsimp only
    split
    · simp
    split
    · simp
    split
    · simp
    · simp
    · split
      · simp
      · simp
      · exact ih

/-- A generation is refused only before its prefill. -/
theorem runGeneration_eq_contextFull {ids : List TokenId} {used max : ℕ}
    (h : (E.runGeneration calls ids g).1 = .err (.contextFull used max)) :
    (ids ≠ [] ∧ g.kv.nCtx < g.kv.head + ids.length) ∧ max = g.kv.nCtx := by
  unfold runGeneration at h
  split at h
  · cases h
  rename_i hne
  split at h
  · rename_i hfull
    cases h
    exact ⟨⟨hne, hfull⟩, rfl⟩
  split at h
  · cases h
  · cases h
  split at h
  · cases h
  · cases h
  split at h
  · rename_i hloop
    cases h
    exact absurd (congrArg Prod.fst hloop) (decodeLoop_ne_contextFull used max)
  · cases h
  · cases h

/-- The turn does not fit. -/
def Refused (E : Engine X W F) (message : String) (turnNumber : ℕ) (g : LlamaGraph X W F) : Prop :=
  trim message ≠ "" ∧ ∃ ids, E.turnIds message turnNumber = some ids ∧ ids ≠ [] ∧
    g.kv.nCtx < g.kv.head + ids.length

theorem refused_of_generateTurn {message : String} {turnNumber used max : ℕ}
    (h : (E.generateTurn calls message turnNumber g).1 = .err (.contextFull used max)) :
    E.Refused message turnNumber g ∧ max = g.kv.nCtx := by
  unfold generateTurn at h
  split at h
  · cases h
  rename_i htext
  split at h
  · cases h
  · rename_i ids hids
    obtain ⟨hfull, hmax⟩ := runGeneration_eq_contextFull h
    exact ⟨⟨htext, ids, hids, hfull⟩, hmax⟩

theorem Refused.generateTurn {message : String} {turnNumber : ℕ}
    (h : E.Refused message turnNumber g) (calls : TurnCalls X) :
    ∃ used, (E.generateTurn calls message turnNumber g).1 = .err (.contextFull used g.kv.nCtx) := by
  obtain ⟨htext, ids, hids, hne, hfull⟩ := h
  refine ⟨g.kv.head + ids.length, ?_⟩
  rw [Engine.generateTurn, if_neg htext, hids]
  dsimp only
  rw [runGeneration, if_neg hne, if_pos hfull]

/-! ## Conversations -/

/-- A chat that is some rounds further on in one conversation, filled by at most `n`. -/
structure Continues (n : ℕ) (s s' : ChatState X W F) : Prop where
  fills : Fills n s.graph s'.graph
  turnCount : s.session.turnCount ≤ s'.session.turnCount

theorem continues_chatTurn {message : String} {s s' : ChatState X W F}
    (h : E.chatTurn calls message s = some s') :
    Continues (turnCost message + E.maxNewTokens) s s' := by
  have hfills : Fills (turnCost message + E.maxNewTokens) s.graph
      (E.generateTurn calls message s.session.turnCount s.graph).2 := fills_generateTurn message _
  rcases chatTurn_cases h with ⟨stats, g, hturn, rfl⟩ | ⟨e, g, hturn, rfl⟩ <;>
    rw [hturn] at hfills
  · exact ⟨hfills, Nat.le_succ _⟩
  · exact ⟨hfills, le_rfl⟩

theorem Continues.trans {m n : ℕ} {s s' s'' : ChatState X W F} (h : Continues m s s')
    (h' : Continues n s' s'') : Continues (m + n) s s'' :=
  ⟨h.fills.trans h'.fills, h.turnCount.trans h'.turnCount⟩

variable {contextLen : ℕ}

theorem continues_chatStep {input : ChatInput X} {s s' : ChatState X W F}
    (hreset : input.line.map readCommand ≠ some .reset)
    (h : E.chatStep contextLen input s = some s') : ∃ n, Continues n s s' := by
  obtain ⟨line, hline, ⟨-, rfl⟩ | ⟨hcommand, -⟩ | ⟨text, -, hturn⟩⟩ := chatStep_cases h
  · exact ⟨0, .refl 0 _, le_rfl⟩
  · exact absurd (by rw [hline, Option.map_some, hcommand]) hreset
  · exact ⟨_, continues_chatTurn hturn⟩

/-- Without a reset a chat stays in one conversation. -/
theorem continues_chatRun {inputs : List (ChatInput X)} {s s' : ChatState X W F}
    (hresets : ∀ input ∈ inputs, input.line.map readCommand ≠ some .reset)
    (h : E.chatRun contextLen inputs s = some s') : ∃ n, Continues n s s' := by
  refine chatRun_induction (P := fun t => ∃ n, Continues n s t) ⟨0, .refl 0 _, le_rfl⟩ ?_
    (List.prefix_refl inputs) h
  rintro pre input t t' hpart - hstep ⟨n, hcontinues⟩
  have hmem : input ∈ inputs := hpart.subset (by simp)
  obtain ⟨m, hround⟩ := continues_chatStep (hresets input hmem) hstep
  exact ⟨_, hcontinues.trans hround⟩

/-- A message that was refused is refused again, whatever else was said, until the next reset. -/
theorem refused_until_reset {inputs : List (ChatInput X)} {s s' : ChatState X W F}
    {message : String} {calls : TurnCalls X} {used max : ℕ}
    (hrefused : (E.generateTurn calls message s.session.turnCount s.graph).1 =
      .err (.contextFull used max))
    (hresets : ∀ input ∈ inputs, input.line.map readCommand ≠ some .reset)
    (hrun : E.chatRun contextLen inputs s = some s')
    (hfirst : s.session.turnCount = 0 → s'.session.turnCount = 0) (calls' : TurnCalls X) :
    ∃ used', (E.generateTurn calls' message s'.session.turnCount s'.graph).1 =
      .err (.contextFull used' max) := by
  obtain ⟨⟨htext, ids, hids, hne, hfull⟩, rfl⟩ := refused_of_generateTurn hrefused
  obtain ⟨n, hfills, hcount⟩ := continues_chatRun hresets hrun
  have hsame : E.turnIds message s'.session.turnCount = some ids := by
    rw [← hids, turnIds, turnIds]
    exact if_congr ⟨fun h => Nat.le_zero.mp (h ▸ hcount), hfirst⟩ rfl rfl
  have hhead := hfills.head_le
  have hctx := hfills.nCtx
  rw [← hctx]
  exact Refused.generateTurn ⟨htext, ids, hsame, hne, by omega⟩ calls'

/-- A reply that never ends. -/
def chatter : Sampler Unit := fun _ _ rng => .ok (0, rng)

/-- It fills the cache, so that a second greeting is refused, and a third. -/
theorem refused_until_reset_chatter : ∃ s s' used,
    (unitEngine chatter).chatRun 512 [sayHi] (.start 512 unitGraph) = some s ∧
      (unitEngine chatter).chatRun 512 [sayHi] s = some s' ∧
      ((unitEngine chatter).generateTurn sayHi.calls "hi" s'.session.turnCount
        s'.graph).1 = .err (.contextFull used 512) := by
  have hfull : ((unitEngine chatter).chatRun 512 [sayHi] (.start 512 unitGraph)).any
      (fun s => s.session.turnCount == 1 && s.graph.kv.nCtx == 512 && s.graph.kv.head == 512 &&
        ((unitEngine chatter).chatRun 512 [sayHi] s).isSome) = true := by decide +kernel
  have hids : ((unitEngine chatter).turnIds "hi" 1).any (fun ids => !ids.isEmpty) = true := by
    decide +kernel
  obtain ⟨s, hs, hfull⟩ := (Option.any_eq_true _ _).mp hfull
  obtain ⟨ids, hids, hne⟩ := (Option.any_eq_true _ _).mp hids
  simp only [Bool.and_eq_true, beq_iff_eq] at hfull
  obtain ⟨⟨⟨hcount, hctx⟩, hhead⟩, hsome⟩ := hfull
  obtain ⟨s', hs'⟩ := Option.isSome_iff_exists.mp hsome
  have hne : ids ≠ [] := by simpa using hne
  have hlen : 0 < ids.length := List.length_pos_iff.mpr hne
  have hrefused : (unitEngine chatter).Refused "hi" s.session.turnCount s.graph :=
    ⟨by decide, ids, by rw [hcount, hids], hne, by omega⟩
  obtain ⟨used, hused⟩ := hrefused.generateTurn sayHi.calls
  rw [hctx] at hused
  have hresets : ∀ input ∈ [sayHi], input.line.map readCommand ≠ some .reset := by
    intro input hinput
    rw [List.mem_singleton.mp hinput]
    exact fun h => Command.noConfusion (Option.some.inj h)
  have hfirst : s.session.turnCount = 0 → s'.session.turnCount = 0 := fun hzero => by omega
  obtain ⟨used', hused'⟩ := refused_until_reset hused hresets hs' hfirst sayHi.calls
  exact ⟨s, s', used', hs, hs', hused'⟩

/-- A chat whose messages and replies fit beside what was `spent`, with a fresh start at every
reset. -/
def Affordable (maxNewTokens nCtx : ℕ) : ℕ → List (ChatInput X) → Prop
  | _, [] => True
  | spent, input :: inputs =>
    match input.line.map readCommand with
    | some (.message text) =>
      spent + turnCost text ≤ nCtx ∧
        Affordable maxNewTokens nCtx (spent + turnCost text + maxNewTokens) inputs
    | some .reset => Affordable maxNewTokens nCtx 0 inputs
    | some .blank => Affordable maxNewTokens nCtx spent inputs
    | some .quit => True
    | none => True

theorem not_refused_of_fits {message : String} {turnNumber : ℕ}
    (hfits : g.kv.head + turnCost message ≤ g.kv.nCtx) (used max : ℕ) :
    (E.generateTurn calls message turnNumber g).1 ≠ .err (.contextFull used max) := by
  intro h
  obtain ⟨⟨-, ids, hids, -, hfull⟩, -⟩ := refused_of_generateTurn h
  have hcost := length_turnIds_le hids
  omega

/-- In an affordable chat no turn is refused. -/
theorem affordable_not_refused {inputs : List (ChatInput X)} {s : ChatState X W F} {spent : ℕ}
    (hspent : s.graph.kv.head ≤ spent)
    (h : Affordable E.maxNewTokens s.graph.kv.nCtx spent inputs) (used max : ℕ) :
    some (.err (.contextFull used max)) ∉ E.chatOutcomes contextLen inputs s := by
  induction inputs generalizing s spent with
  | nil => exact List.not_mem_nil
  | cons input inputs ih =>
    rw [chatOutcomes, List.mem_cons, not_or]
    unfold Affordable at h
    constructor
    · intro houtcome
      unfold roundOutcome at houtcome
      split at houtcome
      · rename_i text hcommand
        rw [hcommand] at h
        have hfits : s.graph.kv.head + turnCost text ≤ s.graph.kv.nCtx := by
          have hle := h.1
          omega
        exact not_refused_of_fits hfits used max (Option.some.inj houtcome).symm
      · cases houtcome
    cases hstep : E.chatStep contextLen input s with
    | none => exact List.not_mem_nil
    | some s' =>
      obtain ⟨line, hline, ⟨hcommand, rfl⟩ | ⟨hcommand, rfl⟩ | ⟨text, hcommand, hturn⟩⟩ :=
        chatStep_cases hstep <;>
        rw [hline, Option.map_some, hcommand] at h
      · exact ih hspent h
      · exact ih (Nat.le_refl 0) h
      · have hfills := (continues_chatTurn hturn).fills
        have hhead := hfills.le_head
        have hspent' : s'.graph.kv.head ≤ spent + turnCost text + E.maxNewTokens := by omega
        exact ih hspent' (hfills.nCtx ▸ h.2)

/-- Two messages, a reset and a third, with replies of up to 100 tokens. -/
theorem affordable_not_refused_three :
    some (.err (.contextFull 513 512)) ∉
      { unitEngine replyOnce with maxNewTokens := 100 }.chatOutcomes 512
        [sayHi, enter "what is ggml?\n", reset, enter "and what is a cache?\n"]
        (.start 512 unitGraph) := by
  refine affordable_not_refused (Nat.le_refl 0) ?_ 513 512
  exact ⟨by decide, by decide, by decide, trivial⟩

end Engine

end QuantumFlow
