import Mathlib.Data.List.Induction
import QuantumFlow.Generate.Turn
import QuantumFlow.Graph.Positions

/-!
# The chat loop

The loop reads a line, and resets, ends, or runs a turn. The session counts the completed turns
and the cache holds their tokens; the two are updated by different functions. A run is a list
of inputs after which the loop is back at the prompt.
-/

namespace QuantumFlow

variable {X W F : Type}

structure Session where
  turnCount : ℕ
  contextLen : ℕ

def Session.new (contextLen : ℕ) : Session := { turnCount := 0, contextLen }

def Session.recordTurn (s : Session) : Session := { s with turnCount := s.turnCount + 1 }

/-- Two ghost fields: the completed turns since the last reset, and the rows at which a first
turn's tokens were put into the cache since then. -/
structure ChatState (X W F : Type) where
  session : Session
  graph : LlamaGraph X W F
  turns : List Turn
  prefixRows : List ℕ

def ChatState.start (contextLen : ℕ) (g : LlamaGraph X W F) : ChatState X W F :=
  { session := .new contextLen, graph := g, turns := [], prefixRows := [] }

inductive Command where
  | blank
  | reset
  | quit
  | message (text : String)

def readCommand (line : String) : Command :=
  let trimmed := Engine.trim line
  if trimmed = "" then .blank
  else if trimmed = "/reset" then .reset
  else if trimmed = "/quit" ∨ trimmed = "/exit" then .quit
  else .message trimmed

/-- A line, or the end of the input, and what a turn on it would meet. -/
structure ChatInput (X : Type) where
  line : Option String
  calls : TurnCalls X

namespace Engine

variable (E : Engine X W F) (contextLen : ℕ)

/-- A turn 0 that cached anything put its tokens at the old head. -/
def afterTurn (s : ChatState X W F) (g : LlamaGraph X W F) : ChatState X W F :=
  { s with
    graph := g
    prefixRows :=
      if s.session.turnCount = 0 ∧ g.kv.head ≠ s.graph.kv.head then
        s.prefixRows ++ [s.graph.kv.head]
      else s.prefixRows }

/-- A completed turn is recorded; after an error the loop goes on. -/
def chatTurn (calls : TurnCalls X) (message : String) (s : ChatState X W F) :
    Option (ChatState X W F) :=
  match E.generateTurn calls message s.session.turnCount s.graph with
  | (.ok stats, g) =>
    some { afterTurn s g with
      session := s.session.recordTurn, turns := s.turns ++ [stats.turn] }
  | (.err _, g) => some (afterTurn s g)
  | (.panic, _) => none

/-- One round of the loop; `none` when the loop ends. -/
def chatStep (input : ChatInput X) (s : ChatState X W F) : Option (ChatState X W F) :=
  match input.line with
  | none => none
  | some line =>
    match readCommand line with
    | .blank => some s
    | .reset => some (.start contextLen s.graph.resetKv)
    | .quit => none
    | .message text => E.chatTurn input.calls text s

def chatRun (inputs : List (ChatInput X)) (s : ChatState X W F) : Option (ChatState X W F) :=
  inputs.foldlM (fun s input => E.chatStep contextLen input s) s

/-! ## Rounds -/

variable {E contextLen}

/-- A turn that returns to the prompt. -/
theorem chatTurn_cases {calls : TurnCalls X} {message : String} {s s' : ChatState X W F}
    (h : E.chatTurn calls message s = some s') :
    (∃ stats g, E.generateTurn calls message s.session.turnCount s.graph = (.ok stats, g) ∧
      s' = { afterTurn s g with
        session := s.session.recordTurn, turns := s.turns ++ [stats.turn] }) ∨
    ∃ e g, E.generateTurn calls message s.session.turnCount s.graph = (.err e, g) ∧
      s' = afterTurn s g := by
  unfold chatTurn at h
  split at h
  · rename_i hturn
    cases h
    exact Or.inl ⟨_, _, hturn, rfl⟩
  · rename_i hturn
    cases h
    exact Or.inr ⟨_, _, hturn, rfl⟩
  · cases h

/-- A round that returns to the prompt: a blank line, a reset or a turn. -/
theorem chatStep_cases {input : ChatInput X} {s s' : ChatState X W F}
    (h : E.chatStep contextLen input s = some s') : ∃ line, input.line = some line ∧
      ((readCommand line = .blank ∧ s' = s) ∨
        (readCommand line = .reset ∧ s' = .start contextLen s.graph.resetKv) ∨
        ∃ text, readCommand line = .message text ∧ E.chatTurn input.calls text s = some s') := by
  unfold chatStep at h
  split at h
  · cases h
  · rename_i line hline
    refine ⟨line, hline, ?_⟩
    split at h <;> rename_i hcommand
    · cases h
      exact Or.inl ⟨hcommand, rfl⟩
    · cases h
      exact Or.inr (Or.inl ⟨hcommand, rfl⟩)
    · cases h
    · exact Or.inr (Or.inr ⟨_, hcommand, h⟩)

theorem chatRun_append {pre post : List (ChatInput X)} {s s' : ChatState X W F} :
    E.chatRun contextLen (pre ++ post) s = some s' ↔
      ∃ s₁, E.chatRun contextLen pre s = some s₁ ∧ E.chatRun contextLen post s₁ = some s' := by
  rw [chatRun, List.foldlM_append]
  exact Option.bind_eq_some_iff

theorem chatRun_singleton (input : ChatInput X) (s : ChatState X W F) :
    E.chatRun contextLen [input] s = E.chatStep contextLen input s := by
  cases h : E.chatStep contextLen input s <;> simp [chatRun, h]

/-- The round that ends a part of a run returned to the prompt. -/
theorem chatStep_of_prefix {pre inputs : List (ChatInput X)} {input : ChatInput X}
    {s₀ s₁ s : ChatState X W F} (hrun : E.chatRun contextLen inputs s₀ = some s)
    (hpart : pre ++ [input] <+: inputs) (hpre : E.chatRun contextLen pre s₀ = some s₁) :
    ∃ s₂, E.chatStep contextLen input s₁ = some s₂ ∧
      E.chatRun contextLen (pre ++ [input]) s₀ = some s₂ := by
  obtain ⟨post, rfl⟩ := hpart
  obtain ⟨s₂, hs₂, -⟩ := chatRun_append.mp hrun
  obtain ⟨s₁', hs₁', hstep⟩ := chatRun_append.mp hs₂
  rw [hpre] at hs₁'
  cases hs₁'
  rw [chatRun_singleton] at hstep
  exact ⟨s₂, hstep, hs₂⟩

/-- What holds at the start and survives every round of a run holds in every state it reaches. -/
theorem chatRun_induction {P : ChatState X W F → Prop} {inputs : List (ChatInput X)}
    {s₀ : ChatState X W F} (hstart : P s₀)
    (hstep : ∀ pre input s s', pre ++ [input] <+: inputs → E.chatRun contextLen pre s₀ = some s →
      E.chatStep contextLen input s = some s' → P s → P s')
    {pre : List (ChatInput X)} {s : ChatState X W F} (hpre : pre <+: inputs)
    (hrun : E.chatRun contextLen pre s₀ = some s) : P s := by
  induction pre using List.reverseRecOn generalizing s with
  | nil =>
    cases hrun
    exact hstart
  | append_singleton pre input ih =>
    obtain ⟨s₁, hs₁, hs⟩ := chatRun_append.mp hrun
    rw [chatRun_singleton] at hs
    have hpart := List.IsPrefix.trans (List.prefix_append pre [input]) hpre
    exact hstep pre input s₁ s hpre hs₁ hs (ih hpart hs₁)

end Engine

/-! ## A small engine -/

/-- A vocabulary without tokens, and arithmetic without values. -/
def unitEngine (sample : Sampler Unit) : Engine Unit Unit Unit where
  ggml := unitGgml
  model := .const ()
  tokenizer :=
    { vocab := [], tokenToId := .empty, mergeRank := .empty, byteToToken := fun _ => 0 }
  sample
  maxNewTokens := 512

/-- Its graph before the first request. -/
def unitGraph : LlamaGraph Unit Unit Unit where
  hp := unitHparams
  kv := .new unitGgml 512
  dGraph := none

theorem new_unitGraph : LlamaGraph.new true unitGgml unitHparams = .ok unitGraph := rfl

/-- A reply of one token. -/
def replyOnce : Sampler Unit := fun _ recent rng =>
  .ok (if recent = [] then 0 else TOKEN_EOT, rng)

/-- Temperature 0. -/
def refuse : Sampler Unit := fun _ _ _ => .err (.invalidTemperature 0)

/-- A line during which every call succeeds. -/
def enter (line : String) : ChatInput Unit where
  line := some line
  calls :=
    { prefill := .succeed unitGgml, seed := 0, write := fun _ => none
      decode := fun _ => .succeed unitGgml }

def sayHi : ChatInput Unit := enter "hi\n"

def reset : ChatInput Unit := enter "/reset\n"

end QuantumFlow
