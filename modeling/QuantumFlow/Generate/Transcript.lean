import QuantumFlow.Generate.Chat

/-!
# The transcript in the cache

The decode loop stops on an end token without decoding it, and the next turn begins with its
user header. So the cache of a conversation holds the prompt part and the reply of every turn,
and no end token of a reply.
-/

namespace QuantumFlow

variable {X W F : Type}

/-- What the turns of a conversation put into the cache. -/
def openTranscript (turns : List Turn) : List TokenId := turns.flatMap fun t => t.ids ++ t.reply

/-- Every reply is closed by its end token. -/
def closedTranscript (turns : List Turn) : List TokenId :=
  turns.flatMap fun t => t.ids ++ t.reply ++ [t.endToken]

/-- Every reply but the last is closed by its end token. -/
def separatedTranscript (turns : List Turn) : List TokenId := (closedTranscript turns).dropLast

theorem length_closedTranscript (turns : List Turn) :
    (closedTranscript turns).length = (openTranscript turns).length + turns.length := by
  induction turns with
  | nil => rfl
  | cons t turns ih =>
    simp only [closedTranscript, openTranscript, List.flatMap_cons, List.length_append,
      List.length_cons, List.length_nil] at ih ⊢
    omega

/-- The two transcripts differ as soon as there is a turn. -/
theorem closedTranscript_eq_open_iff (turns : List Turn) :
    closedTranscript turns = openTranscript turns ↔ turns.length = 0 := by
  constructor
  · intro h
    have hlen := length_closedTranscript turns
    rw [h] at hlen
    omega
  · intro h
    rw [List.length_eq_zero_iff.mp h]
    rfl

/-- Without the last end token, they differ as soon as there are two. -/
theorem separatedTranscript_eq_open_iff (turns : List Turn) :
    separatedTranscript turns = openTranscript turns ↔ turns.length ≤ 1 := by
  constructor
  · intro h
    have hlen := congrArg List.length h
    rw [separatedTranscript, List.length_dropLast, length_closedTranscript] at hlen
    omega
  · intro h
    match turns with
    | [] => rfl
    | [t] => simp [separatedTranscript, closedTranscript, openTranscript]

/-- The messages since the last reset, when there were `n` before this input. -/
def countMessage (n : ℕ) (input : ChatInput X) : ℕ :=
  match input.line.map readCommand with
  | some (.message _) => n + 1
  | some .reset => 0
  | _ => n

def messagesSinceReset (inputs : List (ChatInput X)) : ℕ := inputs.foldl countMessage 0

namespace Engine

/-- The turn of a round, if there is one, succeeds and is ended by an end token. -/
def cleanRound (E : Engine X W F) (input : ChatInput X) (s : ChatState X W F) : Bool :=
  match input.line.map readCommand with
  | some (.message text) =>
    match E.generateTurn input.calls text s.session.turnCount s.graph with
    | (.ok stats, _) => Tokenizer.isEos stats.turn.endToken
    | _ => false
  | _ => true

def cleanRun (E : Engine X W F) (contextLen : ℕ) : List (ChatInput X) → ChatState X W F → Bool
  | [], _ => true
  | input :: inputs, s =>
    E.cleanRound input s &&
      match E.chatStep contextLen input s with
      | some s => E.cleanRun contextLen inputs s
      | none => true

section Run

variable {E : Engine X W F} {contextLen : ℕ}

/-- A turn that succeeds puts its prompt part and its reply behind the cached tokens. -/
theorem holds_generateTurn {calls : TurnCalls X} {text : String} {turnNumber : ℕ}
    {g g' : LlamaGraph X W F} {stats : GenerateStats} {ts : List TokenId}
    (h : E.generateTurn calls text turnNumber g = (.ok stats, g')) (hg : Holds g ts) :
    Holds g' (ts ++ (stats.turn.ids ++ stats.turn.reply)) := by
  rcases generateTurn_cases h with hpanic | ⟨⟨e, herr⟩, -⟩ | ⟨-, ids, reply, -, hcaches, hstats⟩
  · cases hpanic
  · cases herr
  · obtain ⟨hids, hreply⟩ := hstats stats rfl
    rw [hids, hreply]
    exact hg.append hcaches.appends

/-- A clean round keeps the open transcript in the cache, with one turn for each message. -/
theorem holds_chatStep {input : ChatInput X} {s s' : ChatState X W F}
    (h : E.chatStep contextLen input s = some s') (hclean : E.cleanRound input s = true)
    (hs : Holds s.graph (openTranscript s.turns)) :
    Holds s'.graph (openTranscript s'.turns) ∧
      s'.turns.length = countMessage s.turns.length input := by
  obtain ⟨line, hline, hcases⟩ := chatStep_cases h
  rcases hcases with ⟨hblank, rfl⟩ | ⟨hreset, rfl⟩ | ⟨text, htext, hturn⟩
  · exact ⟨hs, by simp [countMessage, hline, hblank]⟩
  · exact ⟨holds_nil rfl, by simp [countMessage, hline, hreset, ChatState.start]⟩
  · rcases chatTurn_cases hturn with ⟨stats, g, hok, rfl⟩ | ⟨e, g, herr, -⟩
    · refine ⟨?_, by simp [countMessage, hline, htext]⟩
      simpa [openTranscript, afterTurn] using holds_generateTurn hok hs
    · simp [cleanRound, hline, htext, herr] at hclean

/-- So does a run of clean rounds. -/
theorem holds_chatRun {inputs : List (ChatInput X)} {s s' : ChatState X W F}
    (h : E.chatRun contextLen inputs s = some s') (hclean : E.cleanRun contextLen inputs s = true)
    (hs : Holds s.graph (openTranscript s.turns)) :
    Holds s'.graph (openTranscript s'.turns) ∧
      s'.turns.length = inputs.foldl countMessage s.turns.length := by
  induction inputs generalizing s with
  | nil =>
    cases h
    exact ⟨hs, rfl⟩
  | cons input inputs ih =>
    obtain ⟨s₁, hstep, hrun⟩ := Option.bind_eq_some_iff.mp h
    simp only [cleanRun, hstep, Bool.and_eq_true] at hclean
    obtain ⟨hs₁, hcount⟩ := holds_chatStep hstep hclean.1 hs
    rw [List.foldl_cons, ← hcount]
    exact ih hrun hclean.2 hs₁

end Run

/-- After a run of clean rounds the cache holds the closed transcript exactly when there was no
message since the last reset, and the separated transcript exactly when there was at most one. -/
theorem holds_closedTranscript_iff {E : Engine X W F} {contextLen : ℕ} {backend : Bool}
    {hp : LlamaHparams F} {g₀ : LlamaGraph X W F} {inputs : List (ChatInput X)}
    {s : ChatState X W F} (hnew : LlamaGraph.new backend E.ggml hp = .ok g₀)
    (hrun : E.chatRun contextLen inputs (.start contextLen g₀) = some s)
    (hclean : E.cleanRun contextLen inputs (.start contextLen g₀) = true) :
    (Holds s.graph (closedTranscript s.turns) ↔ messagesSinceReset inputs = 0) ∧
      (Holds s.graph (separatedTranscript s.turns) ↔ messagesSinceReset inputs ≤ 1) := by
  obtain ⟨hopen, hcount⟩ := holds_chatRun hrun hclean (holds_nil (LlamaGraph.head_of_new hnew))
  have hmessages : s.turns.length = messagesSinceReset inputs := hcount
  rw [hopen.iff_eq, hopen.iff_eq, closedTranscript_eq_open_iff, separatedTranscript_eq_open_iff,
    hmessages]
  exact ⟨Iff.rfl, Iff.rfl⟩

/-- Two clean turns, a reset and a third one: its reply is not closed, and nothing stands behind
it. -/
theorem holds_closedTranscript_iff_reset :
    ∃ s, (unitEngine replyOnce).chatRun 512 [sayHi, sayHi, reset, sayHi] (.start 512 unitGraph) =
        some s ∧
      (Holds s.graph (closedTranscript s.turns) ↔
        messagesSinceReset [sayHi, sayHi, reset, sayHi] = 0) ∧
      (Holds s.graph (separatedTranscript s.turns) ↔
        messagesSinceReset [sayHi, sayHi, reset, sayHi] ≤ 1) := by
  obtain ⟨s, hrun⟩ := Option.isSome_iff_exists.mp (by decide +kernel :
    ((unitEngine replyOnce).chatRun 512 [sayHi, sayHi, reset, sayHi]
      (.start 512 unitGraph)).isSome = true)
  have hclean : (unitEngine replyOnce).cleanRun 512 [sayHi, sayHi, reset, sayHi]
      (.start 512 unitGraph) = true := by decide +kernel
  exact ⟨s, hrun, holds_closedTranscript_iff new_unitGraph hrun hclean⟩

/-- After two turns no end token separates the first reply from the second message. -/
theorem not_holds_closedTranscript :
    ∃ s, LlamaGraph.new true unitGgml unitHparams = .ok unitGraph ∧
      (unitEngine replyOnce).chatRun 512 [sayHi, sayHi] (.start 512 unitGraph) = some s ∧
      (unitEngine replyOnce).cleanRun 512 [sayHi, sayHi] (.start 512 unitGraph) = true ∧
      ¬ Holds s.graph (closedTranscript s.turns) ∧
      ¬ Holds s.graph (separatedTranscript s.turns) := by
  obtain ⟨s, hrun⟩ := Option.isSome_iff_exists.mp (by decide +kernel :
    ((unitEngine replyOnce).chatRun 512 [sayHi, sayHi] (.start 512 unitGraph)).isSome = true)
  have hclean :
      (unitEngine replyOnce).cleanRun 512 [sayHi, sayHi] (.start 512 unitGraph) = true := by
    decide +kernel
  obtain ⟨hopen, hcount⟩ := holds_chatRun hrun hclean (holds_nil rfl)
  have htwo : s.turns.length = 2 := hcount
  refine ⟨s, new_unitGraph, hrun, hclean, ?_, ?_⟩
  · rw [hopen.iff_eq, closedTranscript_eq_open_iff]
    omega
  · rw [hopen.iff_eq, separatedTranscript_eq_open_iff]
    omega

end Engine

end QuantumFlow
