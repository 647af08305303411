import QuantumFlow.Tokenizer.Encode

/-!
# Chat template

The token lists of a turn. The first turn of a conversation begins with BOS and the system
prompt; a follow-up turn is the user message between its headers. `none` is an abort inside
the tokenizer.
-/

namespace QuantumFlow

def T_BOS : TokenId := 128000
def T_START_HEADER : TokenId := 128006
def T_END_HEADER : TokenId := 128007
def T_EOT : TokenId := 128009
def T_NEWLINES : TokenId := 271

def buildChatTokens (userMessage : String) (T : Tokenizer) : Option (List TokenId) := do
  let system ← T.encodeNoBos "system"
  let prompt ← T.encodeNoBos "\n\nYou are a helpful AI assistant."
  let user ← T.encodeNoBos "user"
  let message ← T.encodeNoBos ("\n\n" ++ userMessage)
  let assistant ← T.encodeNoBos "assistant"
  return [T_BOS] ++
    ([T_START_HEADER] ++ system ++ [T_END_HEADER] ++ prompt ++ [T_EOT]) ++
    ([T_START_HEADER] ++ user ++ [T_END_HEADER] ++ message ++ [T_EOT]) ++
    ([T_START_HEADER] ++ assistant ++ [T_END_HEADER, T_NEWLINES])

def buildFollowupChatTokens (userMessage : String) (T : Tokenizer) : Option (List TokenId) := do
  let user ← T.encodeNoBos "user"
  let message ← T.encodeNoBos ("\n\n" ++ userMessage)
  let assistant ← T.encodeNoBos "assistant"
  return ([T_START_HEADER] ++ user ++ [T_END_HEADER] ++ message ++ [T_EOT]) ++
    ([T_START_HEADER] ++ assistant ++ [T_END_HEADER, T_NEWLINES])

/-- The part of a turn that encodes the message. -/
def messagePart (userMessage : String) (T : Tokenizer) : Option (List TokenId) :=
  T.encodeNoBos ("\n\n" ++ userMessage)

/-! ## The parts of a turn -/

/-- BOS and the system prompt. -/
def systemPrefix (T : Tokenizer) : Option (List TokenId) := do
  let system ← T.encodeNoBos "system"
  let prompt ← T.encodeNoBos "\n\nYou are a helpful AI assistant."
  return [T_BOS] ++ ([T_START_HEADER] ++ system ++ [T_END_HEADER] ++ prompt ++ [T_EOT])

theorem head?_systemPrefix {T : Tokenizer} {ids : List TokenId} (h : systemPrefix T = some ids) :
    ids.head? = some T_BOS := by
  obtain ⟨_, -, h⟩ := Option.bind_eq_some_iff.mp h
  obtain ⟨_, -, h⟩ := Option.bind_eq_some_iff.mp h
  cases h
  rfl

/-- A message behind its header, and the header of the reply. -/
def userPart (userMessage : String) (T : Tokenizer) : Option (List TokenId) := do
  let user ← T.encodeNoBos "user"
  let message ← messagePart userMessage T
  let assistant ← T.encodeNoBos "assistant"
  return [T_START_HEADER] ++ user ++ [T_END_HEADER] ++ message ++
    [T_EOT, T_START_HEADER] ++ assistant ++ [T_END_HEADER, T_NEWLINES]

/-- Only the first turn of a conversation has it. -/
def turnPrefix (first : Bool) (T : Tokenizer) : Option (List TokenId) :=
  if first then systemPrefix T else some []

/-- The tokens that a turn should put into the cache. -/
def turnParts (first : Bool) (userMessage : String) (T : Tokenizer) : Option (List TokenId) := do
  let before ← turnPrefix first T
  let user ← userPart userMessage T
  return before ++ user

theorem buildChatTokens_eq (userMessage : String) (T : Tokenizer) :
    buildChatTokens userMessage T = turnParts true userMessage T := by
  simp only [buildChatTokens, turnParts, turnPrefix, systemPrefix, userPart, messagePart, if_true,
    bind_assoc, pure_bind, List.append_assoc, List.cons_append, List.nil_append]

theorem buildFollowupChatTokens_eq (userMessage : String) (T : Tokenizer) :
    buildFollowupChatTokens userMessage T = turnParts false userMessage T := by
  have hprefix : turnPrefix false T = pure [] := rfl
  simp only [buildFollowupChatTokens, turnParts, hprefix, userPart, messagePart, bind_assoc,
    pure_bind, List.append_assoc, List.cons_append, List.nil_append]

theorem turnParts_eq_some {first : Bool} {userMessage : String} {T : Tokenizer}
    {ids : List TokenId} (h : turnParts first userMessage T = some ids) :
    ∃ before user, turnPrefix first T = some before ∧
      userPart userMessage T = some user ∧ ids = before ++ user := by
  obtain ⟨before, hbefore, h⟩ := Option.bind_eq_some_iff.mp h
  obtain ⟨user, huser, h⟩ := Option.bind_eq_some_iff.mp h
  exact ⟨before, user, hbefore, huser, (Option.some.inj h).symm⟩

/-- The message part stands between two lists that do not depend on the message. -/
def Frames (build : String → Tokenizer → Option (List TokenId)) (T : Tokenizer) : Prop :=
  ∃ before after : Option (List TokenId), ∀ m, build m T = do
    let b ← before
    let part ← messagePart m T
    let a ← after
    return b ++ part ++ a

theorem frames_buildChatTokens (T : Tokenizer) : Frames buildChatTokens T := by
  refine ⟨do
    let system ← T.encodeNoBos "system"
    let prompt ← T.encodeNoBos "\n\nYou are a helpful AI assistant."
    let user ← T.encodeNoBos "user"
    return [T_BOS] ++ ([T_START_HEADER] ++ system ++ [T_END_HEADER] ++ prompt ++ [T_EOT]) ++
      ([T_START_HEADER] ++ user ++ [T_END_HEADER]),
    do
    let assistant ← T.encodeNoBos "assistant"
    return [T_EOT] ++ ([T_START_HEADER] ++ assistant ++ [T_END_HEADER, T_NEWLINES]), fun m => ?_⟩
  simp only [buildChatTokens, messagePart, bind_assoc, pure_bind, List.append_assoc]

theorem frames_buildFollowupChatTokens (T : Tokenizer) : Frames buildFollowupChatTokens T := by
  refine ⟨do
    let user ← T.encodeNoBos "user"
    return [T_START_HEADER] ++ user ++ [T_END_HEADER],
    do
    let assistant ← T.encodeNoBos "assistant"
    return [T_EOT] ++ ([T_START_HEADER] ++ assistant ++ [T_END_HEADER, T_NEWLINES]), fun m => ?_⟩
  simp only [buildFollowupChatTokens, messagePart, bind_assoc, pure_bind, List.append_assoc]

end QuantumFlow
