import QuantumFlow.Generate.Template
import QuantumFlow.Graph.CachedTokens

/-!
# One turn of generation

A turn prefills its tokens, samples, and decodes what it sampled until an end token, the token
limit or a full cache. The end token is tested for before decoding, so it is never decoded.
Sampling and what happens outside the process are parameters; messages on the terminal other
than the reply are left out, since they can only abort.
-/

namespace QuantumFlow

variable {X W F : Type}

/-- The errors of projection and sampling; floats are bit patterns. -/
inductive LogitError where
  | shapeMismatch (expected got : ℕ)
  | emptyLogits
  | invalidTemperature (t : UInt32)
  | invalidTopP (p : UInt32)

inductive GenerateError where
  | forward (e : ForwardError)
  | logit (e : LogitError)
  | io (e : String)
  | emptyPrompt
  | contextFull (used max : ℕ)

/-- Draw a token from logits, given the recent tokens and the state of the generator. -/
abbrev Sampler (F : Type) : Type :=
  List F → List TokenId → UInt64 → Outcome LogitError (TokenId × UInt64)

/-- What a turn meets outside the process: how its ggml calls end, the seed, and the error of
the `i`-th write to the terminal, if any. -/
structure TurnCalls (X : Type) where
  prefill : GgmlCalls X
  seed : UInt64
  write : ℕ → Option String
  decode : ℕ → GgmlCalls X

/-- The tokens of a turn: the prompt part, the decoded reply, and the token that was sampled
last and not decoded. -/
structure Turn where
  ids : List TokenId
  reply : List TokenId
  endToken : TokenId

/-- `turn` is a ghost field. -/
structure GenerateStats where
  promptTokens : ℕ
  generatedTokens : ℕ
  turn : Turn

/-- Everything that stays fixed while the program runs. -/
structure Engine (X W F : Type) where
  ggml : Ggml X W F
  model : MappedModel W
  tokenizer : Tokenizer
  sample : Sampler F
  maxNewTokens : ℕ

namespace Engine

variable (E : Engine X W F)

/-- Write the text of a token, when it has one. -/
def writePiece (calls : TurnCalls X) (generated : ℕ) (token : TokenId) : Option String :=
  match E.tokenizer.decodeOne token with
  | some _ => calls.write generated
  | none => none

/-- The window of recent tokens for the repeat penalty. -/
def pushRecent (recent : List TokenId) (token : TokenId) : List TokenId :=
  if 64 < (recent ++ [token]).length then (recent ++ [token]).drop 1 else recent ++ [token]

/-- The decode loop with room for `left` more tokens. It returns the reply and the token that
ended it. -/
def decodeLoop (calls : TurnCalls X) :
    ℕ → List TokenId → TokenId → List TokenId → UInt64 → LlamaGraph X W F →
      Outcome GenerateError (List TokenId × TokenId) × LlamaGraph X W F
  | left, reply, nextToken, recent, rng, g =>
    if Tokenizer.isEos nextToken then (.ok (reply, nextToken), g)
    else
      match left with
      | 0 => (.ok (reply, nextToken), g)
      | left + 1 =>
        if g.kv.nCtx ≤ g.kv.head then (.ok (reply, nextToken), g)
        else
          match E.writePiece calls reply.length nextToken with
          | some e => (.err (.io e), g)
          | none =>
            match g.decodeOne E.ggml (calls.decode reply.length) E.model nextToken with
            | (.err e, g) => (.err (.forward e), g)
            | (.panic, g) => (.panic, g)
            | (.ok logits, g) =>
              match E.sample logits (pushRecent recent nextToken) rng with
              | .err e => (.err (.logit e), g)
              | .panic => (.panic, g)
              | .ok (token, rng) =>
                decodeLoop calls left (reply ++ [nextToken]) token (pushRecent recent nextToken)
                  rng g

/-- The capacity check is against the cache. -/
def runGeneration (calls : TurnCalls X) (turnIds : List TokenId) (g : LlamaGraph X W F) :
    Outcome GenerateError GenerateStats × LlamaGraph X W F :=
  if turnIds = [] then (.err .emptyPrompt, g)
  else if g.kv.nCtx < g.kv.head + turnIds.length then
    (.err (.contextFull (g.kv.head + turnIds.length) g.kv.nCtx), g)
  else
    match g.prefill E.ggml calls.prefill E.model turnIds with
    | (.err e, g) => (.err (.forward e), g)
    | (.panic, g) => (.panic, g)
    | (.ok logits, g) =>
      match E.sample logits [] calls.seed with
      | .err e => (.err (.logit e), g)
      | .panic => (.panic, g)
      | .ok (token, rng) =>
        match E.decodeLoop calls E.maxNewTokens [] token [] rng g with
        | (.err e, g) => (.err e, g)
        | (.panic, g) => (.panic, g)
        | (.ok (reply, endToken), g) =>
          (.ok { promptTokens := turnIds.length, generatedTokens := reply.length,
                 turn := { ids := turnIds, reply, endToken } }, g)

/-! ## White space -/

/-- The characters with the Unicode property `White_Space`. -/
def isWhiteSpace (c : Char) : Bool :=
  let n := c.toNat
  (0x9 ≤ n && n ≤ 0xD) || n = 0x20 || n = 0x85 || n = 0xA0 || n = 0x1680 ||
    (0x2000 ≤ n && n ≤ 0x200A) || n = 0x2028 || n = 0x2029 || n = 0x202F || n = 0x205F || n = 0x3000

def trim (s : String) : String :=
  String.ofList (((s.toList.dropWhile isWhiteSpace).reverse.dropWhile isWhiteSpace).reverse)

/-- Turn 0 begins with BOS and the system prompt. -/
def turnIds (userMessage : String) (turnNumber : ℕ) : Option (List TokenId) :=
  if turnNumber = 0 then buildChatTokens userMessage E.tokenizer
  else buildFollowupChatTokens userMessage E.tokenizer

/-- An abort in the tokenizer aborts the turn. -/
def generateTurn (calls : TurnCalls X) (userMessage : String) (turnNumber : ℕ)
    (g : LlamaGraph X W F) : Outcome GenerateError GenerateStats × LlamaGraph X W F :=
  if trim userMessage = "" then (.err .emptyPrompt, g)
  else
    match E.turnIds userMessage turnNumber with
    | none => (.panic, g)
    | some ids => E.runGeneration calls ids g

/-! ## What a turn appends to the cache -/

variable {E} {calls : TurnCalls X}

/-- Sampling can return the token. -/
def Sampled (E : Engine X W F) (token : TokenId) : Prop :=
  ∃ logits recent rng rng', E.sample logits recent rng = .ok (token, rng')

/-- A loop that stops has decoded nothing more. -/
theorem appends_of_stop {reply : List TokenId} {endToken nextToken : TokenId}
    {g g' : LlamaGraph X W F} {res : Outcome GenerateError (List TokenId × TokenId)}
    (h : (Outcome.ok (reply, endToken), g) = (res, g')) :
    ∃ new, Appends g g' new ∧ (E.Sampled nextToken → ∀ t ∈ new, E.Sampled t) ∧
      ∀ out, res = .ok out → out.1 = reply ++ new := by
  cases h
  refine ⟨[], .of_kv_eq rfl, fun _ _ ht => absurd ht List.not_mem_nil, fun out hout => ?_⟩
  cases hout
  exact (List.append_nil reply).symm

/-- The decode loop appends what it decoded, also when it fails, and it decodes what was
sampled. -/
theorem appends_of_decodeLoop {left : ℕ} {reply recent : List TokenId} {nextToken : TokenId}
    {rng : UInt64} {g g' : LlamaGraph X W F}
    {res : Outcome GenerateError (List TokenId × TokenId)}
    (h : E.decodeLoop calls left reply nextToken recent rng g = (res, g')) (hres : res ≠ .panic) :
    ∃ new, Appends g g' new ∧ (E.Sampled nextToken → ∀ t ∈ new, E.Sampled t) ∧
      ∀ out, res = .ok out → out.1 = reply ++ new := by
  induction left generalizing reply recent nextToken rng g with
  | zero =>
    unfold decodeLoop at h
    split at h <;> exact appends_of_stop h
  | succ left ih =>
    have hnone : E.Sampled nextToken → ∀ t ∈ ([] : List TokenId), E.Sampled t :=
      fun _ _ ht => absurd ht List.not_mem_nil
    unfold decodeLoop at h
    split at h
    · exact appends_of_stop h
    dsimp only at h
    split at h
    · exact appends_of_stop h
    split at h
    · cases h
      exact ⟨[], .of_kv_eq rfl, hnone, fun _ hout => by cases hout⟩
    split at h
    · rename_i hdecode
      cases h
      exact ⟨[], appends_of_decodeOne_err hdecode, hnone, fun _ hout => by cases hout⟩
    · cases h
      exact absurd rfl hres
    · rename_i hdecode
      have hone := appends_of_decodeOne_ok hdecode
      split at h
      · cases h
        refine ⟨[nextToken], hone, fun hnext t ht => ?_, fun _ hout => by cases hout⟩
        exact List.mem_singleton.mp ht ▸ hnext
      · cases h
        exact absurd rfl hres
      · rename_i hsample
        obtain ⟨new, hnew, hsampled, hreply⟩ := ih h
        refine ⟨nextToken :: new, hone.trans hnew, fun hnext t ht => ?_, fun out hout => ?_⟩
        · rcases List.mem_cons.mp ht with rfl | ht
          · exact hnext
          · exact hsampled ⟨_, _, _, _, hsample⟩ t ht
        · rw [hreply out hout, List.append_assoc, List.singleton_append]

/-- The prefill of a turn returns logits. -/
def Prefills (E : Engine X W F) (calls : TurnCalls X) (ids : List TokenId)
    (g : LlamaGraph X W F) : Prop :=
  ∃ logits g', g.prefill E.ggml calls.prefill E.model ids = (.ok logits, g')

theorem not_prefills_of_err {ids : List TokenId} {g g' : LlamaGraph X W F} {e : ForwardError}
    (h : g.prefill E.ggml calls.prefill E.model ids = (.err e, g')) : ¬ E.Prefills calls ids g := by
  rintro ⟨logits, g₁, hok⟩
  rw [h] at hok
  cases hok

/-- The prefill of a turn puts `ids` behind the cached tokens, and what is decoded after it puts
`reply` behind these, of sampled tokens. -/
def Caches (E : Engine X W F) (calls : TurnCalls X) (ids reply : List TokenId)
    (g g' : LlamaGraph X W F) : Prop :=
  ∃ logits g₁, g.prefill E.ggml calls.prefill E.model ids = (.ok logits, g₁) ∧
    Appends g₁ g' reply ∧ ∀ t ∈ reply, E.Sampled t

theorem Caches.appends {ids reply : List TokenId} {g g' : LlamaGraph X W F}
    (h : E.Caches calls ids reply g g') : Appends g g' (ids ++ reply) := by
  obtain ⟨logits, g₁, hprefill, hreply, -⟩ := h
  exact (appends_of_prefill_ok hprefill).trans hreply

theorem Caches.ne_nil {ids reply : List TokenId} {g g' : LlamaGraph X W F}
    (h : E.Caches calls ids reply g g') : ids ≠ [] := by
  obtain ⟨logits, g₁, hprefill, -⟩ := h
  exact (LlamaGraph.prefill_eq_ok hprefill).1

theorem Caches.prefills {ids reply : List TokenId} {g g' : LlamaGraph X W F}
    (h : E.Caches calls ids reply g g') : E.Prefills calls ids g := by
  obtain ⟨logits, g₁, hprefill, -⟩ := h
  exact ⟨logits, g₁, hprefill⟩

theorem Caches.sampled {ids reply : List TokenId} {g g' : LlamaGraph X W F}
    (h : E.Caches calls ids reply g g') : ∀ t ∈ reply, E.Sampled t := by
  obtain ⟨logits, g₁, -, -, hsampled⟩ := h
  exact hsampled

/-- A turn aborts, or fails without a prefill and leaves the cached tokens, or its prompt part
is cached, followed by the tokens it decoded. -/
theorem runGeneration_cases {ids : List TokenId} {g g' : LlamaGraph X W F}
    {res : Outcome GenerateError GenerateStats} (h : E.runGeneration calls ids g = (res, g')) :
    res = .panic ∨ ((∃ e, res = .err e) ∧ ¬ E.Prefills calls ids g ∧ Appends g g' []) ∨
      ∃ reply, E.Caches calls ids reply g g' ∧
        ∀ stats, res = .ok stats → stats.turn.ids = ids ∧ stats.turn.reply = reply := by
  unfold runGeneration at h
  split at h
  · rename_i hnil
    cases h
    refine Or.inr (Or.inl ⟨⟨_, rfl⟩, ?_, .of_kv_eq rfl⟩)
    rintro ⟨logits, g₁, hok⟩
    exact (LlamaGraph.prefill_eq_ok hok).1 hnil
  split at h
  · rename_i hfull
    cases h
    refine Or.inr (Or.inl ⟨⟨_, rfl⟩, ?_, .of_kv_eq rfl⟩)
    rintro ⟨logits, g₁, hok⟩
    exact absurd (LlamaGraph.prefill_eq_ok hok).2.1 (Nat.not_le.mpr hfull)
  split at h
  · rename_i hprefill
    cases h
    exact Or.inr (Or.inl ⟨⟨_, rfl⟩, not_prefills_of_err hprefill, appends_of_prefill_err hprefill⟩)
  · cases h
    exact Or.inl rfl
  · rename_i hprefill
    split at h
    · cases h
      refine Or.inr (Or.inr ⟨[], ⟨_, _, hprefill, .of_kv_eq rfl, ?_⟩, fun _ hout => by cases hout⟩)
      exact fun _ ht => absurd ht List.not_mem_nil
    · cases h
      exact Or.inl rfl
    · rename_i hsample
      have hfirst : E.Sampled _ := ⟨_, _, _, _, hsample⟩
      split at h
      · rename_i hloop
        cases h
        obtain ⟨new, hnew, hsampled, -⟩ :=
          appends_of_decodeLoop hloop (fun hpanic => by cases hpanic)
        exact Or.inr (Or.inr
          ⟨new, ⟨_, _, hprefill, hnew, hsampled hfirst⟩, fun _ hout => by cases hout⟩)
      · cases h
        exact Or.inl rfl
      · rename_i hloop
        cases h
        obtain ⟨new, hnew, hsampled, hreply⟩ :=
          appends_of_decodeLoop hloop (fun hpanic => by cases hpanic)
        refine Or.inr (Or.inr
          ⟨new, ⟨_, _, hprefill, hnew, hsampled hfirst⟩, fun stats hout => ?_⟩)
        cases hout
        exact ⟨rfl, hreply _ rfl⟩

/-- The turn gets to its prefill, and the prefill returns logits. -/
def PrefillsTurn (E : Engine X W F) (calls : TurnCalls X) (message : String) (turnNumber : ℕ)
    (g : LlamaGraph X W F) : Prop :=
  trim message ≠ "" ∧ ∃ ids, E.turnIds message turnNumber = some ids ∧ E.Prefills calls ids g

/-- The same for a turn of the chat. -/
theorem generateTurn_cases {message : String} {turnNumber : ℕ} {g g' : LlamaGraph X W F}
    {res : Outcome GenerateError GenerateStats}
    (h : E.generateTurn calls message turnNumber g = (res, g')) :
    res = .panic ∨
      ((∃ e, res = .err e) ∧ ¬ E.PrefillsTurn calls message turnNumber g ∧ Appends g g' []) ∨
      (E.PrefillsTurn calls message turnNumber g ∧
        ∃ ids reply, E.turnIds message turnNumber = some ids ∧ E.Caches calls ids reply g g' ∧
          ∀ stats, res = .ok stats → stats.turn.ids = ids ∧ stats.turn.reply = reply) := by
  unfold generateTurn at h
  split at h
  · rename_i hblank
    cases h
    exact Or.inr (Or.inl ⟨⟨_, rfl⟩, fun hprefills => hprefills.1 hblank, .of_kv_eq rfl⟩)
  rename_i htext
  split at h
  · cases h
    exact Or.inl rfl
  · rename_i ids hids
    rcases runGeneration_cases h with hpanic | ⟨herr, hnot, happ⟩ | ⟨reply, hcaches, hstats⟩
    · exact Or.inl hpanic
    · refine Or.inr (Or.inl ⟨herr, ?_, happ⟩)
      rintro ⟨-, ids', hids', hprefills⟩
      rw [hids] at hids'
      cases hids'
      exact hnot hprefills
    · exact Or.inr (Or.inr
        ⟨⟨htext, ids, hids, hcaches.prefills⟩, ids, reply, hids, hcaches, hstats⟩)

/-- The tokens of a turn, in its parts. -/
theorem turnIds_eq (E : Engine X W F) (message : String) (turnNumber : ℕ) :
    E.turnIds message turnNumber = turnParts (turnNumber == 0) message E.tokenizer := by
  rw [turnIds, buildChatTokens_eq, buildFollowupChatTokens_eq]
  cases turnNumber <;> rfl

end Engine

end QuantumFlow
