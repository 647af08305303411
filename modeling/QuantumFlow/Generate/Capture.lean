import QuantumFlow.Generate.Turn

/-!
# Streamed and captured replies

Both entry points of generation run one loop. It writes the text of each token to the terminal
as it decodes it, or, when it is quiet, collects the texts and writes nothing.
-/

namespace QuantumFlow

variable {X W F : Type}

/-- The text of a reply: what was collected, and as a ghost what was written to the terminal. -/
structure Output where
  text : String
  written : String

def Output.empty : Output := ⟨"", ""⟩

namespace Engine

variable (E : Engine X W F) (quiet : Bool) (calls : TurnCalls X)

/-- Collect or write the text of a token, when it has one. -/
def emit (generated : ℕ) (token : TokenId) (out : Output) : Outcome GenerateError Output :=
  match E.tokenizer.decodeOne token with
  | none => .ok out
  | some piece =>
    if quiet then .ok { out with text := out.text ++ piece }
    else
      match calls.write generated with
      | some e => .err (.io e)
      | none => .ok { out with written := out.written ++ piece }

/-- The decode loop with room for `left` more tokens. It returns the reply, the token that ended
it and the text. -/
def decodeLoopInner :
    ℕ → List TokenId → Output → TokenId → List TokenId → UInt64 → LlamaGraph X W F →
      Outcome GenerateError (List TokenId × TokenId × Output) × LlamaGraph X W F
  | left, reply, out, nextToken, recent, rng, g =>
    if Tokenizer.isEos nextToken then (.ok (reply, nextToken, out), g)
    else
      match left with
      | 0 => (.ok (reply, nextToken, out), g)
      | left + 1 =>
        if g.kv.nCtx ≤ g.kv.head then (.ok (reply, nextToken, out), g)
        else
          match E.emit quiet calls reply.length nextToken out with
          | .err e => (.err e, g)
          | .panic => (.panic, g)
          | .ok out =>
            match g.decodeOne E.ggml (calls.decode reply.length) E.model nextToken with
            | (.err e, g) => (.err (.forward e), g)
            | (.panic, g) => (.panic, g)
            | (.ok logits, g) =>
              match E.sample logits (pushRecent recent nextToken) rng with
              | .err e => (.err (.logit e), g)
              | .panic => (.panic, g)
              | .ok (token, rng) =>
                decodeLoopInner left (reply ++ [nextToken]) out token (pushRecent recent nextToken)
                  rng g

def runGenerationInner (turnIds : List TokenId) (g : LlamaGraph X W F) :
    Outcome GenerateError (GenerateStats × Output) × LlamaGraph X W F :=
  if turnIds = [] then (.err .emptyPrompt, g)
  else if g.kv.nCtx < g.kv.head + turnIds.length then
    (.err (.contextFull (g.kv.head + turnIds.length) g.kv.nCtx), g)
  else
    match g.prefill E.ggml calls.prefill E.model turnIds with
    | (.err e, g) => (.err (.forward e), g)
    | (.panic, g) => (.panic, g)
    | (.ok logits, g) =>
      match E.sample logits [] calls.seed with
      | .err e => (.err (.logit e), g)
      | .panic => (.panic, g)
      | .ok (token, rng) =>
        match E.decodeLoopInner quiet calls E.maxNewTokens [] .empty token [] rng g with
        | (.err e, g) => (.err e, g)
        | (.panic, g) => (.panic, g)
        | (.ok (reply, endToken, out), g) =>
          (.ok ({ promptTokens := turnIds.length, generatedTokens := reply.length,
                  turn := { ids := turnIds, reply, endToken } }, out), g)

def runGenerationCaptured (turnIds : List TokenId) (g : LlamaGraph X W F) :
    Outcome GenerateError (GenerateStats × Output) × LlamaGraph X W F :=
  E.runGenerationInner true calls turnIds g

/-! ## The streaming entry point drops the text -/

variable {E quiet calls}

/-- A result with a component dropped. -/
def dropText {ε α β γ : Type} (f : α → β) : Outcome ε α × γ → Outcome ε β × γ
  | (.ok a, g) => (.ok (f a), g)
  | (.err e, g) => (.err e, g)
  | (.panic, g) => (.panic, g)

theorem emit_eq_writePiece (E : Engine X W F) (calls : TurnCalls X) (generated : ℕ)
    (token : TokenId) (out : Output) :
    (∃ out', E.emit false calls generated token out = .ok out' ∧
        E.writePiece calls generated token = none) ∨
      ∃ e, E.emit false calls generated token out = .err (.io e) ∧
        E.writePiece calls generated token = some e := by
  unfold emit writePiece
  cases E.tokenizer.decodeOne token with
  | none => exact Or.inl ⟨out, rfl, rfl⟩
  | some piece =>
    cases hwrite : calls.write generated with
    | none => exact Or.inl ⟨_, rfl, rfl⟩
    | some e => exact Or.inr ⟨e, rfl, rfl⟩

theorem decodeLoop_eq_dropText (left : ℕ) (reply : List TokenId) (out : Output)
    (nextToken : TokenId) (recent : List TokenId) (rng : UInt64) (g : LlamaGraph X W F) :
    E.decodeLoop calls left reply nextToken recent rng g =
      dropText (fun r => (r.1, r.2.1))
        (E.decodeLoopInner false calls left reply out nextToken recent rng g) := by
  induction left generalizing reply out nextToken recent rng g with
  | zero =>
    unfold decodeLoop decodeLoopInner
    split <;> rfl
  | succ left ih =>
    unfold decodeLoop decodeLoopInner
    split
    · rfl
    dsimp only
    split
    · rfl
    rcases emit_eq_writePiece E calls reply.length nextToken out with
      ⟨out', hemit, hwrite⟩ | ⟨e, hemit, hwrite⟩
    · rw [hemit, hwrite]
      dsimp only
      rcases g.decodeOne E.ggml (calls.decode reply.length) E.model nextToken with
        ⟨logits | e | _, g'⟩
      · dsimp only
        rcases E.sample logits (pushRecent recent nextToken) rng with ⟨token, rng'⟩ | e | _
        · exact ih _ _ _ _ _ _
        · rfl
        · rfl
      · rfl
      · rfl
    · rw [hemit, hwrite]
      rfl

theorem runGeneration_eq_dropText (turnIds : List TokenId) (g : LlamaGraph X W F) :
    E.runGeneration calls turnIds g =
      dropText Prod.fst (E.runGenerationInner false calls turnIds g) := by
  unfold runGeneration runGenerationInner
  split
  · rfl
  split
  · rfl
  rcases g.prefill E.ggml calls.prefill E.model turnIds with ⟨logits | e | _, g'⟩
  · dsimp only
    rcases E.sample logits [] calls.seed with ⟨token, rng⟩ | e | _
    · dsimp only
      rw [decodeLoop_eq_dropText _ _ .empty]
      rcases E.decodeLoopInner false calls E.maxNewTokens [] .empty token [] rng g' with
        ⟨⟨reply, endToken, out⟩ | e | _, g''⟩ <;> rfl
    · rfl
    · rfl
  · rfl
  · rfl

end Engine

end QuantumFlow
