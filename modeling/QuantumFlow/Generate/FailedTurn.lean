import QuantumFlow.Generate.Chat
import QuantumFlow.Graph.AppendOnly

/-!
# Turns that fail

A turn is a prefill and then decodes, with a call that can fail between every two of them, and
nothing takes back what was appended. A failure up to the prefill leaves the conversation as it
was; a failure behind it leaves the prompt part of the turn in the cache.
-/

namespace QuantumFlow

variable {X W F : Type}

/-- The head and all rows below it are as before. -/
def Untouched (g g' : LlamaGraph X W F) : Prop :=
  g'.kv.head = g.kv.head ∧ ∀ r < g.kv.head, g'.kv.fed r = g.kv.fed r ∧
    ∀ layer, g'.kv.rows layer r = g.kv.rows layer r

namespace Engine

variable (E : Engine X W F) (calls : TurnCalls X)

/-- The loop comes to a token whose text cannot be written, or that cannot be decoded, or behind
which sampling fails. -/
inductive LoopFails :
    ℕ → List TokenId → TokenId → List TokenId → UInt64 → LlamaGraph X W F → Prop
  | write {left : ℕ} {reply recent : List TokenId} {token : TokenId} {rng : UInt64}
      {g : LlamaGraph X W F} {e : String} (heos : ¬ Tokenizer.isEos token)
      (hroom : g.kv.head < g.kv.nCtx) (hwrite : E.writePiece calls reply.length token = some e) :
      LoopFails (left + 1) reply token recent rng g
  | decode {left : ℕ} {reply recent : List TokenId} {token : TokenId} {rng : UInt64}
      {g g' : LlamaGraph X W F} {e : ForwardError} (heos : ¬ Tokenizer.isEos token)
      (hroom : g.kv.head < g.kv.nCtx) (hwrite : E.writePiece calls reply.length token = none)
      (hdecode : g.decodeOne E.ggml (calls.decode reply.length) E.model token = (.err e, g')) :
      LoopFails (left + 1) reply token recent rng g
  | sample {left : ℕ} {reply recent : List TokenId} {token : TokenId} {rng : UInt64}
      {g g' : LlamaGraph X W F} {logits : List F} {e : LogitError} (heos : ¬ Tokenizer.isEos token)
      (hroom : g.kv.head < g.kv.nCtx) (hwrite : E.writePiece calls reply.length token = none)
      (hdecode : g.decodeOne E.ggml (calls.decode reply.length) E.model token = (.ok logits, g'))
      (hsample : E.sample logits (pushRecent recent token) rng = .err e) :
      LoopFails (left + 1) reply token recent rng g
  | next {left : ℕ} {reply recent : List TokenId} {token token' : TokenId} {rng rng' : UInt64}
      {g g' : LlamaGraph X W F} {logits : List F} (heos : ¬ Tokenizer.isEos token)
      (hroom : g.kv.head < g.kv.nCtx) (hwrite : E.writePiece calls reply.length token = none)
      (hdecode : g.decodeOne E.ggml (calls.decode reply.length) E.model token = (.ok logits, g'))
      (hsample : E.sample logits (pushRecent recent token) rng = .ok (token', rng'))
      (hrest : LoopFails left (reply ++ [token]) token' (pushRecent recent token) rng' g') :
      LoopFails (left + 1) reply token recent rng g

/-- The prefill returns logits, and then sampling from them or the decode loop fails. -/
def FailsBehindPrefill (ids : List TokenId) (g : LlamaGraph X W F) : Prop :=
  ∃ logits g', g.prefill E.ggml calls.prefill E.model ids = (.ok logits, g') ∧
    ((∃ e, E.sample logits [] calls.seed = .err e) ∨
      ∃ token rng, E.sample logits [] calls.seed = .ok (token, rng) ∧
        E.LoopFails calls E.maxNewTokens [] token [] rng g')

/-- The same for a turn of the chat. -/
def LateFailure (message : String) (turnNumber : ℕ) (g : LlamaGraph X W F) : Prop :=
  trim message ≠ "" ∧ ∃ ids, E.turnIds message turnNumber = some ids ∧
    E.FailsBehindPrefill calls ids g

variable {E calls}

/-- The loop returns an error exactly when it comes to a failing step. -/
theorem decodeLoop_eq_err_iff {left : ℕ} {reply recent : List TokenId} {token : TokenId}
    {rng : UInt64} {g : LlamaGraph X W F} :
    (∃ e g', E.decodeLoop calls left reply token recent rng g = (.err e, g')) ↔
      E.LoopFails calls left reply token recent rng g := by
  constructor
  · rintro ⟨e, g', h⟩
    induction left generalizing reply recent token rng g with
    | zero =>
      unfold decodeLoop at h
      split at h <;> cases h
    | succ left ih =>
      unfold decodeLoop at h
      split at h
      · cases h
      rename_i heos
      dsimp only at h
      split at h
      · cases h
      rename_i hfull
      have hroom := Nat.not_le.mp hfull
      split at h
      · rename_i hwrite
        exact .write heos hroom hwrite
      rename_i hwrite
      split at h
      · rename_i hdecode
        exact .decode heos hroom hwrite hdecode
      · cases h
      rename_i hdecode
      split at h
      · rename_i hsample
        exact .sample heos hroom hwrite hdecode hsample
      · cases h
      · rename_i hsample
        exact .next heos hroom hwrite hdecode hsample (ih h)
  · intro h
    induction h with
    | write heos hroom hwrite =>
      simp [decodeLoop, heos, Nat.not_le.mpr hroom, hwrite]
    | decode heos hroom hwrite hdecode =>
      simp [decodeLoop, heos, Nat.not_le.mpr hroom, hwrite, hdecode]
    | sample heos hroom hwrite hdecode hsample =>
      simp [decodeLoop, heos, Nat.not_le.mpr hroom, hwrite, hdecode, hsample]
    | next heos hroom hwrite hdecode hsample _ ih =>
      simpa [decodeLoop, heos, Nat.not_le.mpr hroom, hwrite, hdecode, hsample] using ih

/-- A turn that fails behind its prefill keeps its tokens in the cache. -/
theorem runGeneration_of_failsBehindPrefill {ids : List TokenId} {g : LlamaGraph X W F}
    (h : E.FailsBehindPrefill calls ids g) :
    ∃ e g', E.runGeneration calls ids g = (.err e, g') ∧ g.kv.head < g'.kv.head := by
  obtain ⟨logits, g₁, hprefill, hlate⟩ := h
  obtain ⟨hne, hfits, -, -, hhead, -⟩ := LlamaGraph.prefill_eq_ok hprefill
  have hpos : 0 < ids.length := List.length_pos_iff.mpr hne
  have hroom : ¬ g.kv.nCtx < g.kv.head + ids.length := Nat.not_lt.mpr hfits
  rcases hlate with ⟨e, hsample⟩ | ⟨token, rng, hsample, hloop⟩
  · refine ⟨.logit e, g₁, ?_, by omega⟩
    simp [runGeneration, hne, hroom, hprefill, hsample]
  · obtain ⟨e, g₂, hloop⟩ := decodeLoop_eq_err_iff.mpr hloop
    obtain ⟨reply, happ, -⟩ := appends_of_decodeLoop hloop (fun hpanic => by cases hpanic)
    have hgrow := happ.head
    refine ⟨e, g₂, ?_, by omega⟩
    simp [runGeneration, hne, hroom, hprefill, hsample, hloop]

/-- Every other failure comes before anything is appended. -/
theorem untouched_of_not_failsBehindPrefill {ids : List TokenId} {g g' : LlamaGraph X W F}
    {e : GenerateError} (hearly : ¬ E.FailsBehindPrefill calls ids g)
    (h : E.runGeneration calls ids g = (.err e, g')) : Untouched g g' := by
  unfold runGeneration at h
  split at h
  · cases h
    exact ⟨rfl, fun r _ => ⟨rfl, fun _ => rfl⟩⟩
  split at h
  · cases h
    exact ⟨rfl, fun r _ => ⟨rfl, fun _ => rfl⟩⟩
  split at h
  · rename_i hprefill
    cases h
    exact (LlamaGraph.prefill_eq_err hprefill).2.2
  · cases h
  rename_i logits g₁ hprefill
  split at h
  · rename_i hsample
    exact absurd ⟨logits, g₁, hprefill, Or.inl ⟨_, hsample⟩⟩ hearly
  · cases h
  rename_i token rng hsample
  split at h
  · rename_i hloop
    have hfails := decodeLoop_eq_err_iff.mp ⟨_, _, hloop⟩
    exact absurd ⟨logits, g₁, hprefill, Or.inr ⟨token, rng, hsample, hfails⟩⟩ hearly
  · cases h
  · cases h

end Engine

/-- A turn that returns an error leaves the conversation as it was, exactly when it does not
fail behind its prefill. -/
theorem untouched_iff (E : Engine X W F) (calls : TurnCalls X) (message : String)
    (turnNumber : ℕ) (g : LlamaGraph X W F) :
    (∀ e g', E.generateTurn calls message turnNumber g = (.err e, g') → Untouched g g') ↔
      ¬ E.LateFailure calls message turnNumber g := by
  constructor
  · rintro huntouched ⟨htext, ids, hids, hlate⟩
    obtain ⟨e, g', hrun, hgrow⟩ := Engine.runGeneration_of_failsBehindPrefill hlate
    have hturn : E.generateTurn calls message turnNumber g = (.err e, g') := by
      simp [Engine.generateTurn, htext, hids, hrun]
    have hhead := (huntouched e g' hturn).1
    omega
  · intro hearly e g' h
    unfold Engine.generateTurn at h
    split at h
    · cases h
      exact ⟨rfl, fun r _ => ⟨rfl, fun _ => rfl⟩⟩
    rename_i htext
    split at h
    · cases h
    · rename_i ids hids
      exact Engine.untouched_of_not_failsBehindPrefill
        (fun hlate => hearly ⟨htext, ids, hids, hlate⟩) h

/-- The state that a failed call leaves. -/
def failed {ε α σ : Type} : Outcome ε α × σ → Option σ
  | (.ok _, _) => none
  | (.err _, s) => some s
  | (.panic, _) => none

theorem failed_eq_some {ε α σ : Type} {r : Outcome ε α × σ} {s : σ} (h : failed r = some s) :
    ∃ e, r = (.err e, s) := by
  obtain ⟨res, s'⟩ := r
  cases res <;> cases h
  exact ⟨_, rfl⟩

/-- With a temperature that sampling refuses, the prompt part of the turn stays in the cache. -/
theorem not_untouched :
    ¬ ∀ (X W F : Type) (E : Engine X W F) (calls : TurnCalls X) (message : String)
      (turnNumber : ℕ) (g g' : LlamaGraph X W F) (e : GenerateError),
      Reachable E.ggml E.model g → E.generateTurn calls message turnNumber g = (.err e, g') →
      Untouched g g' := by
  intro h
  obtain ⟨g', hfailed, hhead⟩ := Option.map_eq_some_iff.mp (by decide +kernel :
    (failed ((unitEngine refuse).generateTurn sayHi.calls "hi" 0 unitGraph)).map (·.kv.head) =
      some 66)
  obtain ⟨e, hturn⟩ := failed_eq_some hfailed
  have huntouched := h Unit Unit Unit (unitEngine refuse) sayHi.calls "hi" 0 unitGraph g' e
    (.new new_unitGraph) hturn
  have hsame : g'.kv.head = 0 := huntouched.1
  omega

end QuantumFlow
