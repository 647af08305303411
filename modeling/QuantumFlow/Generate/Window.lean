import Mathlib.Data.List.DropRight
import QuantumFlow.Generate.Streaming

/-!
# The penalty window

The generation loop keeps the last tokens of its reply for the repeat penalty, beside the text
that it collects. Here the loop records what it does, in order. Whenever it asks the sampler, and
when it stops, the window and the text are those of the tokens that it emitted and decoded before.
-/

namespace QuantumFlow

variable {X W F : Type}

/-- What a turn does, with its window and its text when it asks the sampler and when it stops. -/
inductive TurnEvent where
  | emitted (token : TokenId)
  | decoded (token : TokenId)
  | sampling (recent : List TokenId) (text : String)
  | sampled (token : TokenId) (rng : UInt64)
  | stopped (recent : List TokenId) (text : String)

namespace TurnEvent

/-- The window and the text at an event. -/
def inHand : TurnEvent → Option (List TokenId × String)
  | .sampling recent text => some (recent, text)
  | .stopped recent text => some (recent, text)
  | _ => none

def emittedTokens (trace : List TurnEvent) : List TokenId :=
  trace.filterMap fun | .emitted token => some token | _ => none

def decodedTokens (trace : List TurnEvent) : List TokenId :=
  trace.filterMap fun | .decoded token => some token | _ => none

def sampledTokens (trace : List TurnEvent) : List TokenId :=
  trace.filterMap fun | .sampled token _ => some token | _ => none

/-- The states of the generator, one for each token that was sampled. -/
def sampledStates (trace : List TurnEvent) : List UInt64 :=
  trace.filterMap fun | .sampled _ rng => some rng | _ => none

end TurnEvent

open TurnEvent

namespace Engine

variable (E : Engine X W F) (quiet : Bool) (calls : TurnCalls X)

/-- The decode loop, with what it did. -/
def decodeLoopTraced :
    ℕ → List TokenId → Output → TokenId → List TokenId → UInt64 → LlamaGraph X W F →
      List TurnEvent × Outcome GenerateError (List TokenId × TokenId × Output) × LlamaGraph X W F
  | left, reply, out, nextToken, recent, rng, g =>
    if Tokenizer.isEos nextToken then
      ([.stopped recent out.text], .ok (reply, nextToken, out), g)
    else
      match left with
      | 0 => ([.stopped recent out.text], .ok (reply, nextToken, out), g)
      | left + 1 =>
        if g.kv.nCtx ≤ g.kv.head then
          ([.stopped recent out.text], .ok (reply, nextToken, out), g)
        else
          match E.emit quiet calls reply.length nextToken out with
          | .err e => ([], .err e, g)
          | .panic => ([], .panic, g)
          | .ok out =>
            match g.decodeOne E.ggml (calls.decode reply.length) E.model nextToken with
            | (.err e, g) => ([.emitted nextToken], .err (.forward e), g)
            | (.panic, g) => ([.emitted nextToken], .panic, g)
            | (.ok logits, g) =>
              let asked := [.emitted nextToken, .decoded nextToken,
                .sampling (pushRecent recent nextToken) out.text]
              match E.sample logits (pushRecent recent nextToken) rng with
              | .err e => (asked, .err (.logit e), g)
              | .panic => (asked, .panic, g)
              | .ok (token, rng) =>
                let (rest, res) := decodeLoopTraced left (reply ++ [nextToken]) out token
                  (pushRecent recent nextToken) rng g
                (asked ++ .sampled token rng :: rest, res)

/-- A turn, with what it did after its prefill. -/
def runGenerationTraced (turnIds : List TokenId) (g : LlamaGraph X W F) :
    List TurnEvent × Outcome GenerateError (GenerateStats × Output) × LlamaGraph X W F :=
  if turnIds = [] then ([], .err .emptyPrompt, g)
  else if g.kv.nCtx < g.kv.head + turnIds.length then
    ([], .err (.contextFull (g.kv.head + turnIds.length) g.kv.nCtx), g)
  else
    match g.prefill E.ggml calls.prefill E.model turnIds with
    | (.err e, g) => ([], .err (.forward e), g)
    | (.panic, g) => ([], .panic, g)
    | (.ok logits, g) =>
      match E.sample logits [] calls.seed with
      | .err e => ([.sampling [] ""], .err (.logit e), g)
      | .panic => ([.sampling [] ""], .panic, g)
      | .ok (token, rng) =>
        match E.decodeLoopTraced quiet calls E.maxNewTokens [] .empty token [] rng g with
        | (trace, .err e, g) => (.sampling [] "" :: .sampled token rng :: trace, .err e, g)
        | (trace, .panic, g) => (.sampling [] "" :: .sampled token rng :: trace, .panic, g)
        | (trace, .ok (reply, endToken, out), g) =>
          (.sampling [] "" :: .sampled token rng :: trace,
            .ok ({ promptTokens := turnIds.length, generatedTokens := reply.length,
                   turn := { ids := turnIds, reply, endToken } }, out), g)

variable {E quiet calls}

/-! ## Recording changes nothing -/

theorem decodeLoopTraced_snd (left : ℕ) (reply : List TokenId) (out : Output)
    (nextToken : TokenId) (recent : List TokenId) (rng : UInt64) (g : LlamaGraph X W F) :
    (E.decodeLoopTraced quiet calls left reply out nextToken recent rng g).2 =
      E.decodeLoopInner quiet calls left reply out nextToken recent rng g := by
  induction left generalizing reply out nextToken recent rng g with
  | zero =>
    unfold decodeLoopTraced decodeLoopInner
    split <;> rfl
  | succ left ih =>
    unfold decodeLoopTraced decodeLoopInner
    split
    · rfl
    dsimp only
    split
    · rfl
    rcases E.emit quiet calls reply.length nextToken out with out' | e | _
    · dsimp only
      rcases g.decodeOne E.ggml (calls.decode reply.length) E.model nextToken with
        ⟨logits | e | _, g'⟩
      · dsimp only
        rcases E.sample logits (pushRecent recent nextToken) rng with ⟨token, rng'⟩ | e | _
        · exact ih _ _ _ _ _ _
        · rfl
        · rfl
      · rfl
      · rfl
    · rfl
    · rfl

theorem runGenerationTraced_snd (turnIds : List TokenId) (g : LlamaGraph X W F) :
    (E.runGenerationTraced quiet calls turnIds g).2 =
      E.runGenerationInner quiet calls turnIds g := by
  unfold runGenerationTraced runGenerationInner
  split
  · rfl
  split
  · rfl
  rcases g.prefill E.ggml calls.prefill E.model turnIds with ⟨logits | e | _, g'⟩
  · dsimp only
    rcases E.sample logits [] calls.seed with ⟨token, rng⟩ | e | _
    · dsimp only
      rw [← decodeLoopTraced_snd]
      rcases E.decodeLoopTraced quiet calls E.maxNewTokens [] .empty token [] rng g' with
        ⟨trace, ⟨reply, endToken, out⟩ | e | _, g''⟩ <;> rfl
    · rfl
    · rfl
  · rfl
  · rfl

/-! ## One step of the window and of the text -/

/-- Pushing keeps the last 64 tokens. -/
theorem pushRecent_rtake (tokens : List TokenId) (token : TokenId) :
    pushRecent (tokens.rtake 64) token = (tokens ++ [token]).rtake 64 := by
  unfold pushRecent List.rtake
  by_cases hlong : 64 ≤ tokens.length
  · have hdrop : (tokens.drop (tokens.length - 64) ++ [token]).length = 65 := by
      simp
      omega
    rw [if_pos (by omega), ← List.drop_append_of_le_length (by omega), List.drop_drop]
    congr 1
    simp
    omega
  · have hzero : tokens.length - 64 = 0 := by omega
    have hzero' : (tokens ++ [token]).length - 64 = 0 := by
      simp
      omega
    have hshort : ¬ 64 < (tokens ++ [token]).length := by
      simp
      omega
    rw [hzero, hzero', List.drop_zero, List.drop_zero, if_neg hshort]

variable (E quiet) in
/-- The text of tokens, as the loop collects it. -/
def collected (tokens : List TokenId) : String := if quiet then E.tokenizer.streamed tokens else ""

theorem text_emit {generated : ℕ} {token : TokenId} {tokens : List TokenId} {out out' : Output}
    (hout : out.text = E.collected quiet tokens)
    (h : E.emit quiet calls generated token out = .ok out') :
    out'.text = E.collected quiet (tokens ++ [token]) := by
  cases quiet with
  | true =>
    have hshown := shown_emit h
    change out'.text = out.text ++ (E.tokenizer.decodeOne token).getD "" at hshown
    rw [hshown, hout, collected, collected, if_pos rfl, if_pos rfl, Tokenizer.streamed,
      Tokenizer.streamed, List.foldl_concat]
  | false =>
    unfold emit at h
    split at h
    · cases h
      exact hout
    · simp only [Bool.false_eq_true, if_false] at h
      split at h <;> cases h
      exact hout

/-! ## The rounds of a loop -/

/-- What one round does until it asks the sampler. -/
def asked (recent : List TokenId) (nextToken : TokenId) (out : Output) : List TurnEvent :=
  [.emitted nextToken, .decoded nextToken, .sampling (pushRecent recent nextToken) out.text]

/-- How a loop ends with this trace and result: at once, within a round, or after a round. -/
inductive LoopRuns (E : Engine X W F) (quiet : Bool) (calls : TurnCalls X) :
    List TokenId → Output → TokenId → List TokenId → UInt64 → List TurnEvent →
      Outcome GenerateError (List TokenId × TokenId × Output) → Prop
  | stops {reply : List TokenId} {out : Output} {nextToken : TokenId} {recent : List TokenId}
      {rng : UInt64} :
      LoopRuns E quiet calls reply out nextToken recent rng [.stopped recent out.text]
        (.ok (reply, nextToken, out))
  | fails {reply : List TokenId} {out : Output} {nextToken : TokenId} {recent : List TokenId}
      {rng : UInt64} {trace : List TurnEvent}
      {res : Outcome GenerateError (List TokenId × TokenId × Output)}
      (htrace : trace = [] ∨ trace = [.emitted nextToken]) (hres : ∀ r, res ≠ .ok r) :
      LoopRuns E quiet calls reply out nextToken recent rng trace res
  | asks {reply : List TokenId} {out out' : Output} {nextToken : TokenId} {recent : List TokenId}
      {rng : UInt64} {res : Outcome GenerateError (List TokenId × TokenId × Output)}
      (hemit : E.emit quiet calls reply.length nextToken out = .ok out') (hres : ∀ r, res ≠ .ok r) :
      LoopRuns E quiet calls reply out nextToken recent rng (asked recent nextToken out') res
  | round {reply : List TokenId} {out out' : Output} {nextToken token : TokenId}
      {recent : List TokenId} {rng rng' : UInt64} {logits : List F} {rest : List TurnEvent}
      {res : Outcome GenerateError (List TokenId × TokenId × Output)}
      (hemit : E.emit quiet calls reply.length nextToken out = .ok out')
      (hsample : E.sample logits (pushRecent recent nextToken) rng = .ok (token, rng'))
      (hrest : LoopRuns E quiet calls (reply ++ [nextToken]) out' token
        (pushRecent recent nextToken) rng' rest res) :
      LoopRuns E quiet calls reply out nextToken recent rng
        (asked recent nextToken out' ++ .sampled token rng' :: rest) res

theorem loopRuns (E : Engine X W F) (quiet : Bool) (calls : TurnCalls X) (left : ℕ)
    (reply : List TokenId) (out : Output) (nextToken : TokenId) (recent : List TokenId)
    (rng : UInt64) (g : LlamaGraph X W F) :
    LoopRuns E quiet calls reply out nextToken recent rng
      (E.decodeLoopTraced quiet calls left reply out nextToken recent rng g).1
      (E.decodeLoopTraced quiet calls left reply out nextToken recent rng g).2.1 := by
  induction left generalizing reply out nextToken recent rng g with
  | zero =>
    unfold decodeLoopTraced
    split <;> exact .stops
  | succ left ih =>
    unfold decodeLoopTraced
    split
    · exact .stops
    dsimp only
    split
    · exact .stops
    cases hemit : E.emit quiet calls reply.length nextToken out with
    | err e => exact .fails (Or.inl rfl) (fun _ h => by cases h)
    | panic => exact .fails (Or.inl rfl) (fun _ h => by cases h)
    | ok out' =>
      dsimp only
      rcases g.decodeOne E.ggml (calls.decode reply.length) E.model nextToken with
        ⟨logits | e | _, g'⟩
      · dsimp only
        cases hsample : E.sample logits (pushRecent recent nextToken) rng with
        | err e => exact .asks hemit (fun _ h => by cases h)
        | panic => exact .asks hemit (fun _ h => by cases h)
        | ok drawn => exact .round hemit hsample (ih _ _ _ _ _ _)
      · exact .fails (Or.inr rfl) (fun _ h => by cases h)
      · exact .fails (Or.inr rfl) (fun _ h => by cases h)

/-! ## What is in hand at every event -/

/-- What holds of the window and the text, given what came before. -/
def InHand (P : List TurnEvent → List TokenId → String → Prop) (trace : List TurnEvent) : Prop :=
  ∀ pre event post recent text, trace = pre ++ event :: post →
    event.inHand = some (recent, text) → P pre recent text

theorem inHand_nil (P : List TurnEvent → List TokenId → String → Prop) : InHand P [] := by
  intro pre event post recent text h
  simp at h

theorem inHand_cons {P : List TurnEvent → List TokenId → String → Prop} {event : TurnEvent}
    {trace : List TurnEvent}
    (hhead : ∀ recent text, event.inHand = some (recent, text) → P [] recent text)
    (htail : InHand (fun pre => P (event :: pre)) trace) : InHand P (event :: trace) := by
  intro pre event' post recent text h hhand
  rcases List.cons_eq_append_iff.mp h with ⟨rfl, hcons⟩ | ⟨pre', rfl, hrest⟩
  · cases hcons
    exact hhead recent text hhand
  · exact htail pre' event' post recent text hrest hhand

/-- The window and the text are those of the tokens before, of which `tokens` came before the
trace. -/
def WindowExact (E : Engine X W F) (quiet : Bool) (tokens : List TokenId) (pre : List TurnEvent)
    (recent : List TokenId) (text : String) : Prop :=
  emittedTokens pre = decodedTokens pre ∧
    recent = (tokens ++ decodedTokens pre).rtake 64 ∧
    text = E.collected quiet (tokens ++ decodedTokens pre)

theorem inHand_asked {tokens recent : List TokenId} {nextToken : TokenId} {out : Output}
    {rest : List TurnEvent} (hrecent : recent = tokens.rtake 64)
    (hout : out.text = E.collected quiet (tokens ++ [nextToken]))
    (hrest : InHand (WindowExact E quiet (tokens ++ [nextToken])) rest) :
    InHand (WindowExact E quiet tokens) (asked recent nextToken out ++ rest) := by
  refine inHand_cons (fun _ _ h => by cases h) (inHand_cons (fun _ _ h => by cases h)
    (inHand_cons ?_ ?_))
  · rintro _ _ ⟨⟩
    refine ⟨rfl, ?_, hout⟩
    rw [hrecent, pushRecent_rtake]
    rfl
  · intro pre event post recent' text h hhand
    obtain ⟨hemitted, hwindow, htext⟩ := hrest pre event post recent' text h hhand
    rw [List.append_assoc] at hwindow htext
    exact ⟨congrArg (nextToken :: ·) hemitted, hwindow, htext⟩

theorem inHand_sampled {tokens : List TokenId} {token : TokenId} {rng : UInt64}
    {rest : List TurnEvent} (hrest : InHand (WindowExact E quiet tokens) rest) :
    InHand (WindowExact E quiet tokens) (.sampled token rng :: rest) :=
  inHand_cons (fun _ _ h => by cases h) hrest

theorem LoopRuns.windowExact {reply recent : List TokenId} {out : Output} {nextToken : TokenId}
    {rng : UInt64} {trace : List TurnEvent}
    {res : Outcome GenerateError (List TokenId × TokenId × Output)}
    (h : LoopRuns E quiet calls reply out nextToken recent rng trace res)
    (hrecent : recent = reply.rtake 64) (hout : out.text = E.collected quiet reply) :
    InHand (WindowExact E quiet reply) trace := by
  induction h with
  | stops =>
    refine inHand_cons ?_ (inHand_nil _)
    rintro _ _ ⟨⟩
    simp [WindowExact, emittedTokens, decodedTokens, hrecent, hout]
  | fails htrace _ =>
    rcases htrace with rfl | rfl
    · exact inHand_nil _
    · exact inHand_cons (fun _ _ h => by cases h) (inHand_nil _)
  | asks hemit _ =>
    rw [← List.append_nil (asked _ _ _)]
    exact inHand_asked hrecent (text_emit hout hemit) (inHand_nil _)
  | round hemit _ _ ih =>
    have hpushed := ih (by rw [hrecent, pushRecent_rtake]) (text_emit hout hemit)
    exact inHand_asked hrecent (text_emit hout hemit) (inHand_sampled hpushed)

/-- A loop that ends has decoded and emitted its reply, and has drawn one token more. -/
theorem LoopRuns.exit {reply recent : List TokenId} {out : Output} {nextToken : TokenId}
    {rng : UInt64} {trace : List TurnEvent}
    {res : Outcome GenerateError (List TokenId × TokenId × Output)}
    (h : LoopRuns E quiet calls reply out nextToken recent rng trace res)
    {reply' : List TokenId} {endToken : TokenId} {out' : Output}
    (hres : res = .ok (reply', endToken, out')) :
    reply' = reply ++ decodedTokens trace ∧
      nextToken :: sampledTokens trace = decodedTokens trace ++ [endToken] ∧
      ∃ pre recent', trace = pre ++ [.stopped recent' out'.text] := by
  induction h with
  | @stops _ out _ recent _ =>
    cases hres
    exact ⟨(List.append_nil _).symm, rfl, [], recent, rfl⟩
  | fails _ hfail => exact absurd hres (hfail _)
  | asks _ hfail => exact absurd hres (hfail _)
  | @round _ _ out' nextToken token recent _ rng' _ _ _ _ _ _ ih =>
    obtain ⟨hreply, hsampled, pre, recent', htrace⟩ := ih hres
    refine ⟨?_, congrArg (nextToken :: ·) hsampled,
      asked recent nextToken out' ++ .sampled token rng' :: pre, recent', ?_⟩
    · rw [hreply, List.append_assoc]
      rfl
    · rw [htrace, List.append_assoc]
      rfl

/-! ## A turn -/

/-- A turn fails before its first token, or draws it and goes into the loop. -/
theorem runGenerationTraced_cases (E : Engine X W F) (quiet : Bool) (calls : TurnCalls X)
    (turnIds : List TokenId) (g : LlamaGraph X W F) :
    (((E.runGenerationTraced quiet calls turnIds g).1 = [] ∨
        (E.runGenerationTraced quiet calls turnIds g).1 = [.sampling [] ""]) ∧
      ∀ r, (E.runGenerationTraced quiet calls turnIds g).2.1 ≠ .ok r) ∨
    ∃ logits token rng trace res, E.sample logits [] calls.seed = .ok (token, rng) ∧
      LoopRuns E quiet calls [] .empty token [] rng trace res ∧
      (E.runGenerationTraced quiet calls turnIds g).1 =
        .sampling [] "" :: .sampled token rng :: trace ∧
      ∀ stats out, (E.runGenerationTraced quiet calls turnIds g).2.1 = .ok (stats, out) →
        res = .ok (stats.turn.reply, stats.turn.endToken, out) ∧
        stats.generatedTokens = stats.turn.reply.length := by
  unfold runGenerationTraced
  split
  · exact Or.inl ⟨Or.inl rfl, fun _ h => by cases h⟩
  split
  · exact Or.inl ⟨Or.inl rfl, fun _ h => by cases h⟩
  rcases g.prefill E.ggml calls.prefill E.model turnIds with ⟨logits | e | _, g'⟩
  · dsimp only
    cases hsample : E.sample logits [] calls.seed with
    | err e => exact Or.inl ⟨Or.inr rfl, fun _ h => by cases h⟩
    | panic => exact Or.inl ⟨Or.inr rfl, fun _ h => by cases h⟩
    | ok drawn =>
      have hloop := loopRuns E quiet calls E.maxNewTokens [] .empty drawn.1 [] drawn.2 g'
      refine Or.inr ⟨logits, drawn.1, drawn.2, _, _, hsample, hloop, ?_⟩
      dsimp only
      rcases E.decodeLoopTraced quiet calls E.maxNewTokens [] .empty drawn.1 [] drawn.2 g' with
        ⟨trace, ⟨reply, endToken, out⟩ | e | _, g''⟩
      · refine ⟨rfl, ?_⟩
        rintro _ _ ⟨⟩
        exact ⟨rfl, rfl⟩
      · exact ⟨rfl, fun _ _ h => by cases h⟩
      · exact ⟨rfl, fun _ _ h => by cases h⟩
  · exact Or.inl ⟨Or.inl rfl, fun _ h => by cases h⟩
  · exact Or.inl ⟨Or.inl rfl, fun _ h => by cases h⟩

theorem windowExact_runGenerationTraced (E : Engine X W F) (quiet : Bool) (calls : TurnCalls X)
    (turnIds : List TokenId) (g : LlamaGraph X W F) :
    InHand (WindowExact E quiet []) (E.runGenerationTraced quiet calls turnIds g).1 := by
  have hfirst : WindowExact E quiet [] [] [] "" := by
    simp [WindowExact, emittedTokens, decodedTokens, collected, Tokenizer.streamed]
  rcases runGenerationTraced_cases E quiet calls turnIds g with
    ⟨htrace | htrace, -⟩ | ⟨logits, token, rng, trace, res, -, hloop, htrace, -⟩ <;> rw [htrace]
  · exact inHand_nil _
  · refine inHand_cons ?_ (inHand_nil _)
    rintro _ _ ⟨⟩
    exact hfirst
  · refine inHand_cons ?_ (inHand_sampled (hloop.windowExact rfl ?_))
    · rintro _ _ ⟨⟩
      exact hfirst
    · exact hfirst.2.2

/-- A turn that ends has decoded its reply, and has drawn one token more. -/
theorem exit_runGenerationTraced {turnIds : List TokenId} {g : LlamaGraph X W F}
    {stats : GenerateStats} {out : Output}
    (hok : (E.runGenerationTraced quiet calls turnIds g).2.1 = .ok (stats, out)) :
    ∃ pre recent,
      (E.runGenerationTraced quiet calls turnIds g).1 = pre ++ [.stopped recent out.text] ∧
      stats.generatedTokens = (decodedTokens pre).length ∧
      sampledTokens pre = decodedTokens pre ++ [stats.turn.endToken] := by
  rcases runGenerationTraced_cases E quiet calls turnIds g with
    ⟨-, hfail⟩ | ⟨logits, token, rng, trace, res, -, hloop, htrace, hres⟩
  · exact absurd hok (hfail _)
  obtain ⟨hloopOk, hcount⟩ := hres _ _ hok
  obtain ⟨hreply, hsampled, pre, recent, hstopped⟩ := hloop.exit hloopOk
  have hdecoded : decodedTokens trace = decodedTokens pre := by
    simp [hstopped, decodedTokens]
  have hdrawn : sampledTokens trace = sampledTokens pre := by
    simp [hstopped, sampledTokens]
  refine ⟨.sampling [] "" :: .sampled token rng :: pre, recent, ?_, ?_, ?_⟩
  · rw [htrace, hstopped]
    rfl
  · rw [hcount, hreply, hdecoded]
    rfl
  · rw [hdecoded, hdrawn] at hsampled
    exact hsampled

/-- Recording leaves a turn as it is. At every call of the sampler, the window is the last 64 of
the tokens emitted and decoded so far, and the collected text is theirs. A turn that ends has
decoded exactly its reply, has drawn one token more, and has neither pushed nor collected that
one. -/
theorem penalty_window_exact (E : Engine X W F) (quiet : Bool) (calls : TurnCalls X)
    (turnIds : List TokenId) (g : LlamaGraph X W F) :
    (E.runGenerationTraced quiet calls turnIds g).2 = E.runGenerationInner quiet calls turnIds g ∧
      (∀ pre recent text post,
        (E.runGenerationTraced quiet calls turnIds g).1 = pre ++ .sampling recent text :: post →
          emittedTokens pre = decodedTokens pre ∧
          recent = (decodedTokens pre).rtake 64 ∧
          recent.length = min 64 (decodedTokens pre).length ∧
          (quiet = true → text = E.tokenizer.streamed (decodedTokens pre))) ∧
      ∀ stats out, (E.runGenerationInner quiet calls turnIds g).1 = .ok (stats, out) →
        ∃ pre recent,
          (E.runGenerationTraced quiet calls turnIds g).1 = pre ++ [.stopped recent out.text] ∧
          emittedTokens pre = decodedTokens pre ∧
          stats.generatedTokens = (decodedTokens pre).length ∧
          sampledTokens pre = decodedTokens pre ++ [stats.turn.endToken] ∧
          recent = (decodedTokens pre).rtake 64 ∧
          (quiet = true → out.text = E.tokenizer.streamed (decodedTokens pre)) := by
  have hexact := windowExact_runGenerationTraced E quiet calls turnIds g
  refine ⟨runGenerationTraced_snd turnIds g, fun pre recent text post htrace => ?_,
    fun stats out hok => ?_⟩
  · obtain ⟨hemitted, hrecent, htext⟩ := hexact _ _ _ _ _ htrace rfl
    refine ⟨hemitted, hrecent, ?_, fun hquiet => ?_⟩
    · rw [hrecent, List.nil_append, List.rtake, List.length_drop]
      omega
    · rw [htext, collected, if_pos hquiet, List.nil_append]
  · rw [← runGenerationTraced_snd] at hok
    obtain ⟨pre, recent, htrace, hcount, hsampled⟩ := exit_runGenerationTraced hok
    obtain ⟨hemitted, hrecent, htext⟩ := hexact _ _ _ _ _ htrace rfl
    refine ⟨pre, recent, htrace, hemitted, hcount, hsampled, hrecent, fun hquiet => ?_⟩
    rw [htext, collected, if_pos hquiet, List.nil_append]

end Engine

end QuantumFlow
