import QuantumFlow.Generate.Capture
import QuantumFlow.Generate.Chat
import QuantumFlow.Graph.Indistinct

/-!
# What a turn can tell about the past

A turn on two graphs that agree, with the same calls outside the process, ends in the same way: the
same reply and text, or the same error. What came before a reset, and whether the persistent graph
was built then, cannot be told from the outcome of anything that follows; a chat goes on after
`/reset` as the chat of a program that was just started.
-/

namespace QuantumFlow

variable {X W F : Type}

/-- Every decode of the turn can build the persistent graph. -/
def TurnCalls.Builds (calls : TurnCalls X) : Prop := ∀ i, (calls.decode i).Builds

/-- Two graphs that agree, and are both built or both not. -/
structure Twins (model : MappedModel W) (g₁ g₂ : LlamaGraph X W F) : Prop where
  agrees : Agrees model g₁ g₂
  built : g₁.dGraph.isSome = g₂.dGraph.isSome

/-- Two graphs that agree, and are both built or both not unless `B` holds. -/
structure Alike (model : MappedModel W) (B : Prop) (g₁ g₂ : LlamaGraph X W F) : Prop where
  agrees : Agrees model g₁ g₂
  build : g₁.dGraph.isSome = g₂.dGraph.isSome ∨ B

theorem Alike.resetKv {model : MappedModel W} {B : Prop} {g₁ g₂ : LlamaGraph X W F}
    (h : Alike model B g₁ g₂) : Alike model B g₁.resetKv g₂.resetKv :=
  ⟨agrees_of_head_eq_zero h.agrees.hp h.agrees.nCtx rfl rfl h.agrees.coherent₁ h.agrees.coherent₂,
    h.build⟩

/-- Two results that cannot be told apart, up to graphs that agree. -/
structure SameResult {ε α : Type} (R : LlamaGraph X W F → LlamaGraph X W F → Prop)
    (r₁ r₂ : Outcome ε α × LlamaGraph X W F) : Prop where
  result : r₂.1 = r₁.1
  graphs : R r₁.2 r₂.2

theorem SameResult.exists_eq {ε α : Type} {R : LlamaGraph X W F → LlamaGraph X W F → Prop}
    {r₁ r₂ : Outcome ε α × LlamaGraph X W F} (h : SameResult R r₁ r₂) :
    ∃ res g₁ g₂, r₁ = (res, g₁) ∧ r₂ = (res, g₂) ∧ R g₁ g₂ :=
  ⟨r₁.1, r₁.2, r₂.2, rfl, Prod.ext h.result rfl, h.graphs⟩

theorem SameResult.dropText {ε α β : Type} {R : LlamaGraph X W F → LlamaGraph X W F → Prop}
    {r₁ r₂ : Outcome ε α × LlamaGraph X W F} (h : SameResult R r₁ r₂) (f : α → β) :
    SameResult R (Engine.dropText f r₁) (Engine.dropText f r₂) := by
  obtain ⟨res, g₁, g₂, rfl, rfl, hg⟩ := h.exists_eq
  cases res <;> exact ⟨rfl, hg⟩

namespace Engine

section Observed

variable (E : Engine X W F) (contextLen : ℕ)

/-- How the turn of a round ends, if there is one. -/
def roundOutcome (input : ChatInput X) (s : ChatState X W F) :
    Option (Outcome GenerateError GenerateStats) :=
  match input.line.map readCommand with
  | some (.message text) => some (E.generateTurn input.calls text s.session.turnCount s.graph).1
  | _ => none

/-- The same for every round of a chat. -/
def chatOutcomes : List (ChatInput X) → ChatState X W F →
    List (Option (Outcome GenerateError GenerateStats))
  | [], _ => []
  | input :: inputs, s =>
    E.roundOutcome input s ::
      match E.chatStep contextLen input s with
      | none => []
      | some s => chatOutcomes inputs s

end Observed

variable {E : Engine X W F} {calls : TurnCalls X} {g₁ g₂ : LlamaGraph X W F} {B : Prop}

theorem decodeOne_alike (hB : B → calls.Builds) (h : Alike E.model B g₁ g₂) (i : ℕ)
    (token : TokenId) :
    SameResult (Twins E.model) (g₁.decodeOne E.ggml (calls.decode i) E.model token)
      (g₂.decodeOne E.ggml (calls.decode i) E.model token) := by
  have hbuild : SameBuild (calls.decode i) g₁ g₂ := h.build.imp_right fun hb => hB hb i
  obtain ⟨hres, hagrees, hsome⟩ := LlamaGraph.agrees_decodeOne (G := E.ggml) h.agrees hbuild token
  exact ⟨hres, hagrees, hsome⟩

/-- The loop ends alike. -/
theorem decodeLoopInner_alike (hB : B → calls.Builds) (quiet : Bool) (left : ℕ)
    (reply : List TokenId) (out : Output) (nextToken : TokenId) (recent : List TokenId)
    (rng : UInt64) (h : Alike E.model B g₁ g₂) :
    SameResult (Alike E.model B)
      (E.decodeLoopInner quiet calls left reply out nextToken recent rng g₁)
      (E.decodeLoopInner quiet calls left reply out nextToken recent rng g₂) := by
  induction left generalizing reply out nextToken recent rng g₁ g₂ with
  | zero =>
    unfold decodeLoopInner
    split <;> exact ⟨rfl, h⟩
  | succ left ih =>
    unfold decodeLoopInner
    split
    · exact ⟨rfl, h⟩
    dsimp only
    rw [h.agrees.nCtx, h.agrees.head]
    split
    · exact ⟨rfl, h⟩
    cases E.emit quiet calls reply.length nextToken out with
    | err e => exact ⟨rfl, h⟩
    | panic => exact ⟨rfl, h⟩
    | ok out' =>
      dsimp only
      obtain ⟨res, g₁', g₂', hr₁, hr₂, htwins⟩ :=
        (decodeOne_alike hB h reply.length nextToken).exists_eq
      rw [hr₁, hr₂]
      have halike : Alike E.model B g₁' g₂' := ⟨htwins.agrees, Or.inl htwins.built⟩
      cases res with
      | err e => exact ⟨rfl, halike⟩
      | panic => exact ⟨rfl, halike⟩
      | ok logits =>
        dsimp only
        cases E.sample logits (pushRecent recent nextToken) rng with
        | err e => exact ⟨rfl, halike⟩
        | panic => exact ⟨rfl, halike⟩
        | ok drawn => exact ih _ _ _ _ _ halike

theorem prefill_alike (h : Alike E.model B g₁ g₂) (ids : List TokenId) :
    SameResult (Alike E.model B) (g₁.prefill E.ggml calls.prefill E.model ids)
      (g₂.prefill E.ggml calls.prefill E.model ids) := by
  obtain ⟨hagrees, hd₁, hd₂⟩ := LlamaGraph.agrees_prefill (G := E.ggml) h.agrees ids
  exact ⟨LlamaGraph.prefill_congr h.agrees ids, hagrees, by rw [hd₁, hd₂]; exact h.build⟩

/-- A whole generation ends alike: the same reply, text and end token, or the same error. -/
theorem runGenerationInner_alike (hB : B → calls.Builds) (quiet : Bool) (ids : List TokenId)
    (h : Alike E.model B g₁ g₂) :
    SameResult (Alike E.model B) (E.runGenerationInner quiet calls ids g₁)
      (E.runGenerationInner quiet calls ids g₂) := by
  unfold runGenerationInner
  split
  · exact ⟨rfl, h⟩
  rw [h.agrees.nCtx, h.agrees.head]
  split
  · exact ⟨rfl, h⟩
  obtain ⟨res, g₁', g₂', hr₁, hr₂, halike⟩ := (prefill_alike h ids).exists_eq
  rw [hr₁, hr₂]
  cases res with
  | err e => exact ⟨rfl, halike⟩
  | panic => exact ⟨rfl, halike⟩
  | ok logits =>
    dsimp only
    cases E.sample logits [] calls.seed with
    | err e => exact ⟨rfl, halike⟩
    | panic => exact ⟨rfl, halike⟩
    | ok drawn =>
      dsimp only
      obtain ⟨res, g₁'', g₂'', hl₁, hl₂, hloop⟩ := (decodeLoopInner_alike hB quiet E.maxNewTokens []
        .empty drawn.1 [] drawn.2 halike).exists_eq
      rw [hl₁, hl₂]
      cases res <;> exact ⟨rfl, hloop⟩

theorem runGeneration_alike (hB : B → calls.Builds) (ids : List TokenId)
    (h : Alike E.model B g₁ g₂) :
    SameResult (Alike E.model B) (E.runGeneration calls ids g₁)
      (E.runGeneration calls ids g₂) := by
  rw [runGeneration_eq_dropText, runGeneration_eq_dropText]
  exact (runGenerationInner_alike hB false ids h).dropText Prod.fst

theorem generateTurn_alike (hB : B → calls.Builds) (message : String) (turnNumber : ℕ)
    (h : Alike E.model B g₁ g₂) :
    SameResult (Alike E.model B) (E.generateTurn calls message turnNumber g₁)
      (E.generateTurn calls message turnNumber g₂) := by
  unfold generateTurn
  split
  · exact ⟨rfl, h⟩
  cases E.turnIds message turnNumber with
  | none => exact ⟨rfl, h⟩
  | some ids => exact runGeneration_alike hB ids h

/-! ## A turn is a sequence of requests -/

/-- Some requests lead from one graph to the other. -/
def Served (E : Engine X W F) (g g' : LlamaGraph X W F) : Prop :=
  ∃ reqs, (replies E.ggml E.model reqs g).2 = g'

namespace Served

variable {g g' g'' : LlamaGraph X W F}

theorem refl (E : Engine X W F) (g : LlamaGraph X W F) : Served E g g := ⟨[], rfl⟩

theorem single (req : Request X) (g : LlamaGraph X W F) :
    Served E g (req.serve E.ggml E.model g).2 := ⟨[req], rfl⟩

theorem trans (h : Served E g g') (h' : Served E g' g'') : Served E g g'' := by
  obtain ⟨reqs, rfl⟩ := h
  obtain ⟨reqs', rfl⟩ := h'
  refine ⟨reqs ++ reqs', ?_⟩
  induction reqs generalizing g with
  | nil => rfl
  | cons req reqs ih => exact ih

theorem prefill {ids : List TokenId} {res : Outcome ForwardError (List F)}
    (h : g.prefill E.ggml calls.prefill E.model ids = (res, g')) : Served E g g' :=
  ⟨[.prefill calls.prefill ids], congrArg Prod.snd h⟩

theorem decodeOne {i : ℕ} {token : TokenId} {res : Outcome ForwardError (List F)}
    (h : g.decodeOne E.ggml (calls.decode i) E.model token = (res, g')) : Served E g g' :=
  ⟨[.decodeOne (calls.decode i) token], congrArg Prod.snd h⟩

end Served

/-- After any requests to a new graph, a reset makes it like new. -/
theorem Served.alike_resetKv {backend : Bool} {hp : LlamaHparams F} {g₀ g : LlamaGraph X W F}
    (h : Served E g₀ g) (hnew : LlamaGraph.new backend E.ggml hp = .ok g₀) :
    Alike E.model True g₀ g.resetKv := by
  obtain ⟨reqs, rfl⟩ := h
  have hcoherent : g₀.Coherent E.model := (LlamaGraph.coherent_of_new hnew).1
  obtain ⟨hcoherent', hhp, hctx⟩ := replies_history (G := E.ggml) reqs hcoherent
  exact ⟨agrees_of_head_eq_zero hhp hctx (LlamaGraph.head_of_new hnew) rfl hcoherent hcoherent',
    Or.inr trivial⟩

theorem served_decodeLoopInner (quiet : Bool) {left : ℕ} {reply : List TokenId} {out : Output}
    {nextToken : TokenId} {recent : List TokenId} {rng : UInt64} {g : LlamaGraph X W F} :
    Served E g (E.decodeLoopInner quiet calls left reply out nextToken recent rng g).2 := by
  induction left generalizing reply out nextToken recent rng g with
  | zero =>
    unfold decodeLoopInner
    split <;> exact .refl E g
  | succ left ih =>
    unfold decodeLoopInner
    split
    · exact .refl E g
    dsimp only
    split
    · exact .refl E g
    split
    · exact .refl E g
    · exact .refl E g
    split
    · rename_i hdecode
      exact .decodeOne hdecode
    · rename_i hdecode
      exact .decodeOne hdecode
    · rename_i hdecode
      split
      · exact .decodeOne hdecode
      · exact .decodeOne hdecode
      · exact .trans (.decodeOne hdecode) ih

theorem served_runGenerationInner (quiet : Bool) (ids : List TokenId) (g : LlamaGraph X W F) :
    Served E g (E.runGenerationInner quiet calls ids g).2 := by
  unfold runGenerationInner
  split
  · exact .refl E g
  split
  · exact .refl E g
  split
  · rename_i hprefill
    exact .prefill hprefill
  · rename_i hprefill
    exact .prefill hprefill
  · rename_i logits g' hprefill
    split
    · exact .prefill hprefill
    · exact .prefill hprefill
    · rename_i token rng _
      have hloop : Served E g'
          (E.decodeLoopInner quiet calls E.maxNewTokens [] .empty token [] rng g').2 :=
        served_decodeLoopInner quiet
      split <;> rename_i hrun <;> rw [hrun] at hloop <;> exact .trans (.prefill hprefill) hloop

theorem snd_dropText {ε α β γ : Type} (f : α → β) (r : Outcome ε α × γ) :
    (dropText f r).2 = r.2 := by
  obtain ⟨res, g⟩ := r
  cases res <;> rfl

theorem served_generateTurn (message : String) (turnNumber : ℕ) (g : LlamaGraph X W F) :
    Served E g (E.generateTurn calls message turnNumber g).2 := by
  unfold generateTurn
  split
  · exact .refl E g
  split
  · exact .refl E g
  · rw [runGeneration_eq_dropText, snd_dropText]
    exact served_runGenerationInner false _ g

/-! ## The chat after a reset -/

theorem served_chatTurn {message : String} {s s' : ChatState X W F}
    (h : E.chatTurn calls message s = some s') : Served E s.graph s'.graph := by
  have hserved : Served E s.graph
      (E.generateTurn calls message s.session.turnCount s.graph).2 :=
    served_generateTurn message _ _
  rcases chatTurn_cases h with ⟨stats, g, hturn, rfl⟩ | ⟨e, g, hturn, rfl⟩ <;>
    rw [hturn] at hserved <;> exact hserved

theorem served_chatStep {contextLen : ℕ} {input : ChatInput X} {s s' : ChatState X W F}
    (h : E.chatStep contextLen input s = some s') : Served E s.graph s'.graph := by
  obtain ⟨line, -, ⟨-, rfl⟩ | ⟨-, rfl⟩ | ⟨text, -, hturn⟩⟩ := chatStep_cases h
  · exact .refl E _
  · exact .single .resetKv s.graph
  · exact served_chatTurn hturn

theorem served_chatRun {contextLen : ℕ} {inputs : List (ChatInput X)} {s s' : ChatState X W F}
    (h : E.chatRun contextLen inputs s = some s') : Served E s.graph s'.graph :=
  chatRun_induction (P := fun t => Served E s.graph t.graph) (.refl E _)
    (fun _ _ _ _ _ _ hstep hserved => hserved.trans (served_chatStep hstep))
    (List.prefix_refl inputs) h

/-- Two chats that go on alike. -/
structure SameChat (E : Engine X W F) (B : Prop) (s₁ s₂ : ChatState X W F) : Prop where
  alike : Alike E.model B s₁.graph s₂.graph
  session : s₂.session = s₁.session
  turns : s₂.turns = s₁.turns
  prefixRows : s₂.prefixRows = s₁.prefixRows

variable {contextLen : ℕ} {input : ChatInput X} {s₁ s₂ : ChatState X W F}

theorem SameChat.afterTurn (h : SameChat E B s₁ s₂) (hg : Alike E.model B g₁ g₂) :
    SameChat E B (afterTurn s₁ g₁) (afterTurn s₂ g₂) := by
  refine ⟨hg, h.session, h.turns, ?_⟩
  unfold Engine.afterTurn
  rw [h.session, h.prefixRows, h.alike.agrees.head, hg.agrees.head]

theorem SameChat.chatTurn (hB : B → calls.Builds) (h : SameChat E B s₁ s₂) (message : String) :
    Option.Rel (SameChat E B) (E.chatTurn calls message s₁) (E.chatTurn calls message s₂) := by
  obtain ⟨res, g₁, g₂, hr₁, hr₂, hg⟩ :=
    (generateTurn_alike hB message s₁.session.turnCount h.alike).exists_eq
  have hafter := h.afterTurn hg
  unfold Engine.chatTurn
  rw [h.session, hr₁, hr₂]
  cases res with
  | ok stats =>
    refine .some ⟨hafter.alike, rfl, ?_, hafter.prefixRows⟩
    rw [h.turns]
  | err e => exact .some hafter
  | panic => exact .none

/-- A round of two chats that go on alike ends alike, and they go on alike after it. -/
theorem SameChat.step (contextLen : ℕ) (hB : B → input.calls.Builds) (h : SameChat E B s₁ s₂) :
    E.roundOutcome input s₂ = E.roundOutcome input s₁ ∧
      Option.Rel (SameChat E B) (E.chatStep contextLen input s₁)
        (E.chatStep contextLen input s₂) := by
  unfold roundOutcome chatStep
  cases input.line with
  | none => exact ⟨rfl, .none⟩
  | some line =>
    simp only [Option.map_some]
    cases readCommand line with
    | blank => exact ⟨rfl, .some h⟩
    | reset => exact ⟨rfl, .some ⟨h.alike.resetKv, rfl, rfl, rfl⟩⟩
    | quit => exact ⟨rfl, .none⟩
    | message text =>
      refine ⟨?_, h.chatTurn hB text⟩
      have hresult := (generateTurn_alike hB text s₁.session.turnCount h.alike).result
      simp only [h.session, hresult]

theorem chatRun_cons (input : ChatInput X) (inputs : List (ChatInput X)) (s : ChatState X W F) :
    E.chatRun contextLen (input :: inputs) s =
      (E.chatStep contextLen input s).bind (E.chatRun contextLen inputs) := rfl

/-- Whole chats that go on alike. -/
theorem SameChat.run (contextLen : ℕ) {inputs : List (ChatInput X)}
    (hB : B → ∀ input ∈ inputs, input.calls.Builds) (h : SameChat E B s₁ s₂) :
    E.chatOutcomes contextLen inputs s₂ = E.chatOutcomes contextLen inputs s₁ ∧
      Option.Rel (SameChat E B) (E.chatRun contextLen inputs s₁)
        (E.chatRun contextLen inputs s₂) := by
  induction inputs generalizing s₁ s₂ with
  | nil => exact ⟨rfl, .some h⟩
  | cons input inputs ih =>
    obtain ⟨hround, hnext⟩ := h.step contextLen fun hb => hB hb input List.mem_cons_self
    have hrest : B → ∀ input ∈ inputs, input.calls.Builds := fun hb input' hmem =>
      hB hb input' (List.mem_cons_of_mem input hmem)
    rw [chatRun_cons, chatRun_cons, chatOutcomes, chatOutcomes, hround]
    generalize E.chatStep contextLen input s₁ = r₁ at hnext ⊢
    generalize E.chatStep contextLen input s₂ = r₂ at hnext ⊢
    cases hnext with
    | none => exact ⟨rfl, .none⟩
    | some hs =>
      obtain ⟨houtcomes, hrun⟩ := ih hrest hs
      exact ⟨congrArg _ houtcomes, hrun⟩

/-- What the user and the session see of a chat. -/
def view (s : ChatState X W F) : Session × List Turn × List ℕ × ℕ :=
  (s.session, s.turns, s.prefixRows, s.graph.kv.head)

theorem view_of_rel {r₁ r₂ : Option (ChatState X W F)} (h : Option.Rel (SameChat E B) r₁ r₂) :
    r₁.map view = r₂.map view := by
  cases h with
  | none => rfl
  | some hs =>
    simp only [Option.map_some, view, hs.session, hs.turns, hs.prefixRows, hs.alike.agrees.head]

/-- Whatever was said before, after a reset the rounds of a chat end as they do in a program that
was just started, and leave the same session, if the persistent graph can be built where it is
missing. -/
theorem chat_after_reset {E : Engine X W F} {contextLen : ℕ} {backend : Bool} {hp : LlamaHparams F}
    {g₀ : LlamaGraph X W F} (hnew : LlamaGraph.new backend E.ggml hp = .ok g₀)
    {history : List (ChatInput X)} {s : ChatState X W F}
    (hrun : E.chatRun contextLen history (.start contextLen g₀) = some s)
    {resetInput : ChatInput X} (hreset : resetInput.line.map readCommand = some .reset)
    {inputs : List (ChatInput X)} (hbuilds : ∀ input ∈ inputs, input.calls.Builds) :
    E.chatOutcomes contextLen (resetInput :: inputs) s =
        none :: E.chatOutcomes contextLen inputs (.start contextLen g₀) ∧
      (E.chatRun contextLen (resetInput :: inputs) s).map view =
        (E.chatRun contextLen inputs (.start contextLen g₀)).map view := by
  obtain ⟨line, hline, hcommand⟩ := Option.map_eq_some_iff.mp hreset
  have hstep : E.chatStep contextLen resetInput s =
      some (.start contextLen s.graph.resetKv) := by
    simp only [chatStep, hline, hcommand]
  have hsame : SameChat E True (.start contextLen g₀) (.start contextLen s.graph.resetKv) :=
    ⟨(served_chatRun hrun).alike_resetKv hnew, rfl, rfl, rfl⟩
  obtain ⟨houtcomes, hrel⟩ := hsame.run contextLen fun _ => hbuilds
  constructor
  · rw [chatOutcomes, hstep, roundOutcome, hreset]
    exact congrArg _ houtcomes
  · rw [chatRun_cons, hstep]
    exact (view_of_rel hrel).symm

/-- A greeting before the reset, and one after it. -/
theorem chat_after_reset_hi :
    ∃ s, (unitEngine replyOnce).chatRun 512 [sayHi] (.start 512 unitGraph) = some s ∧
      (unitEngine replyOnce).chatOutcomes 512 [reset, sayHi] s =
        none :: (unitEngine replyOnce).chatOutcomes 512 [sayHi] (.start 512 unitGraph) ∧
      ((unitEngine replyOnce).chatRun 512 [reset, sayHi] s).map view =
        ((unitEngine replyOnce).chatRun 512 [sayHi] (.start 512 unitGraph)).map view := by
  obtain ⟨s, hrun⟩ := Option.isSome_iff_exists.mp (by decide +kernel :
    ((unitEngine replyOnce).chatRun 512 [sayHi] (.start 512 unitGraph)).isSome = true)
  have hreset : reset.line.map readCommand = some .reset := rfl
  refine ⟨s, hrun, chat_after_reset new_unitGraph hrun hreset ?_⟩
  intro input hinput i
  rw [List.mem_singleton.mp hinput]
  exact builds_succeed unitGgml

end Engine

end QuantumFlow
