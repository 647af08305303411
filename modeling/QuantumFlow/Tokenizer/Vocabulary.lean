import Mathlib.Algebra.Order.Ring.Nat
import QuantumFlow.Foundation.Dict
import QuantumFlow.Foundation.Hex
import QuantumFlow.Foundation.Outcome
import QuantumFlow.Foundation.Utf8

/-!
# Building the tokenizer

`fromGgufParts` turns the vocabulary tables of a model file into the four tables that
encoding and decoding look at. Token ids are 32-bit, so an index is truncated on the way
into the maps. The invariants that hold of every tokenizer built this way follow.
-/

namespace QuantumFlow

abbrev TokenId : Type := UInt32

def TOKEN_BOS : TokenId := 128000
def TOKEN_EOS : TokenId := 128001
def TOKEN_EOT : TokenId := 128009
def TOKEN_PAD : TokenId := 128004

/-- The messages are the ones the error prints. -/
inductive TokenizerError where
  | vocabSizeMismatch (tokens scores : ℕ)

def TokenizerError.message : TokenizerError → String
  | vocabSizeMismatch tokens scores => s!"vocab size mismatch: {tokens} tokens vs {scores} scores"

/-- `score` is a float bit pattern. Token types: 1 normal, 2 unknown, 3 control, 6 byte. -/
structure VocabEntry where
  text : List UInt8
  score : UInt32
  tokenType : UInt32

structure Tokenizer where
  vocab : List VocabEntry
  tokenToId : Dict (List UInt8) TokenId
  mergeRank : Dict (TokenId × TokenId) UInt32
  byteToToken : UInt8 → TokenId

/-! ## `<0xNN>` notation -/

def hexValue (c : Char) : Option ℕ :=
  if '0' ≤ c && c ≤ '9' then some (c.toNat - '0'.toNat)
  else if 'a' ≤ c && c ≤ 'f' then some (c.toNat - 'a'.toNat + 10)
  else if 'A' ≤ c && c ≤ 'F' then some (c.toNat - 'A'.toNat + 10)
  else none

/-- Accumulate hexadecimal digits, failing above 255. -/
def radixFrom : ℕ → List Char → Option ℕ
  | acc, [] => some acc
  | acc, c :: cs => do
    let d ← hexValue c
    if acc * 16 + d ≤ 255 then radixFrom (acc * 16 + d) cs else none

/-- A leading plus sign is accepted, but not alone. -/
def u8FromStrRadix16 : List Char → Option UInt8
  | [] => none
  | ['+'] => none
  | '+' :: cs => (radixFrom 0 cs).map UInt8.ofNat
  | cs => (radixFrom 0 cs).map UInt8.ofNat

def parseByteToken (s : String) : Option UInt8 :=
  match s.toList with
  | '<' :: '0' :: 'x' :: cs => if cs.getLast? = some '>' then u8FromStrRadix16 cs.dropLast else none
  | _ => none

example : parseByteToken "<0x41>" = some 65 ∧ parseByteToken "hello" = none := by decide

/-! ## The tables -/

/-- A byte token stands for its byte, any other token for its UTF-8 bytes. -/
def tokenText (tok : String) : List UInt8 :=
  match parseByteToken tok with
  | some b => [b]
  | none => utf8 tok

def buildVocab (tokens : List String) (scores types : List UInt32) : List VocabEntry :=
  tokens.mapIdx fun i tok =>
    { text := tokenText tok, score := scores.getD i 0, tokenType := types.getD i 1 }

def buildTokenToId (tokens : List String) : Dict (List UInt8) TokenId :=
  Dict.empty.insertAll (tokens.mapIdx fun i tok => (tokenText tok, UInt32.ofNat i))

/-- Split at the first space. -/
def splitOnce (s : String) : Option (List Char × List Char) :=
  match s.toList.dropWhile (· ≠ ' ') with
  | [] => none
  | _ :: right => some (s.toList.takeWhile (· ≠ ' '), right)

def mergeEntry (tokenToId : Dict (List UInt8) TokenId) (rank : ℕ) (merge : String) :
    Option ((TokenId × TokenId) × UInt32) := do
  let (left, right) ← splitOnce merge
  let lid ← tokenToId.get (utf8Chars left)
  let rid ← tokenToId.get (utf8Chars right)
  return ((lid, rid), UInt32.ofNat rank)

def buildMergeRank (tokenToId : Dict (List UInt8) TokenId) (merges : List String) :
    Dict (TokenId × TokenId) UInt32 :=
  Dict.empty.insertAll ((merges.mapIdx (mergeEntry tokenToId)).filterMap id)

def unassigned : TokenId := 0xFFFFFFFF

/-- Byte-typed entries and single bytes that are not normal tokens claim the slot of their
first byte; a byte-typed entry with no bytes is an index out of bounds. -/
def claimBytes : ℕ → List VocabEntry → (UInt8 → TokenId) → Option (UInt8 → TokenId)
  | _, [], table => some table
  | id, entry :: entries, table =>
    if entry.tokenType = 6 || (entry.text.length = 1 && entry.tokenType ≠ 1) then do
      let b ← entry.text.head?
      claimBytes (id + 1) entries (Function.update table b (UInt32.ofNat id))
    else claimBytes (id + 1) entries table

/-- The spelling `<0xNN>` of a byte. -/
def byteRepr (b : UInt8) : List UInt8 :=
  utf8Chars ("<0x".toList ++ hexUpper 2 b.toNat ++ ">".toList)

/-- Unclaimed slots take the `<0xNN>` token, or id 0. -/
def fillGaps (tokenToId : Dict (List UInt8) TokenId) (table : UInt8 → TokenId) (b : UInt8) :
    TokenId :=
  if table b = unassigned then (tokenToId.get (byteRepr b)).getD 0 else table b

def fromGgufParts (tokens : List String) (scores types : List UInt32) (merges : List String) :
    Outcome TokenizerError Tokenizer :=
  if scores ≠ [] ∧ scores.length ≠ tokens.length then
    .err (.vocabSizeMismatch tokens.length scores.length)
  else
    let vocab := buildVocab tokens scores types
    let tokenToId := buildTokenToId tokens
    match claimBytes 0 vocab fun _ => unassigned with
    | none => .panic
    | some table =>
      .ok { vocab, tokenToId,
            mergeRank := buildMergeRank tokenToId merges,
            byteToToken := fillGaps tokenToId table }

namespace Tokenizer

variable (T : Tokenizer)

/-- The bytes of a token, none for an id outside the vocabulary. -/
def textOf (id : TokenId) : Option (List UInt8) := (T.vocab[id.toNat]?).map VocabEntry.text

end Tokenizer

/-! ## Invariants of a built tokenizer -/

/-- A tokenizer that `fromGgufParts` returns for these tables. -/
structure BuiltFrom (tokens : List String) (scores types : List UInt32) (merges : List String)
    (T : Tokenizer) : Prop where
  vocab : T.vocab = buildVocab tokens scores types
  tokenToId : T.tokenToId = buildTokenToId tokens
  mergeRank : T.mergeRank = buildMergeRank (buildTokenToId tokens) merges

theorem builtFrom_of_eq_ok {tokens : List String} {scores types : List UInt32}
    {merges : List String} {T : Tokenizer} (h : fromGgufParts tokens scores types merges = .ok T) :
    BuiltFrom tokens scores types merges T := by
  unfold fromGgufParts at h
  split at h
  · cases h
  · dsimp only at h
    split at h
    · cases h
    · cases h
      exact ⟨rfl, rfl, rfl⟩

section Built

variable {tokens : List String} {scores types : List UInt32} {merges : List String}
  {T : Tokenizer} (built : BuiltFrom tokens scores types merges T)
include built

theorem BuiltFrom.textOf_eq (id : TokenId) :
    T.textOf id = (tokens[id.toNat]?).map tokenText := by
  rw [Tokenizer.textOf, built.vocab, buildVocab, List.getElem?_mapIdx, Option.map_map]
  rfl

/-- What is found is the number of an entry with that text, possibly truncated. -/
theorem BuiltFrom.exists_index_of_get {t : List UInt8} {id : TokenId}
    (h : T.tokenToId.get t = some id) :
    ∃ (i : ℕ) (hi : i < tokens.length), tokenText tokens[i] = t ∧ UInt32.ofNat i = id := by
  rw [built.tokenToId, buildTokenToId] at h
  obtain ⟨i, hi, hpair⟩ := List.mem_iff_getElem.mp (Dict.mem_of_get_insertAll h)
  rw [List.length_mapIdx] at hi
  rw [List.getElem_mapIdx] at hpair
  obtain ⟨htext, hid⟩ := Prod.mk.inj hpair
  exact ⟨i, hi, htext, hid⟩

/-- The two tables agree: a text is found under an id whose entry has that text. Ids are not
truncated as long as 32 bits can number the vocabulary. -/
theorem BuiltFrom.textOf_of_get (hsize : tokens.length ≤ 2 ^ 32) {t : List UInt8} {id : TokenId}
    (h : T.tokenToId.get t = some id) : T.textOf id = some t := by
  obtain ⟨i, hi, htext, hid⟩ := built.exists_index_of_get h
  have hnat : id.toNat = i := by
    rw [← hid]
    exact UInt32.toNat_ofNat_of_lt' (Nat.lt_of_lt_of_le hi hsize)
  rw [built.textOf_eq, hnat, List.getElem?_eq_getElem hi, Option.map_some, htext]

/-- Every token text is found. -/
theorem BuiltFrom.get_of_mem {tok : String} (h : tok ∈ tokens) :
    ∃ id, T.tokenToId.get (tokenText tok) = some id := by
  rw [built.tokenToId, buildTokenToId]
  apply Dict.get_insertAll_of_mem
  obtain ⟨i, hi, rfl⟩ := List.mem_iff_getElem.mp h
  exact List.mem_map.mpr ⟨(tokenText tokens[i], UInt32.ofNat i),
    List.mem_iff_getElem.mpr ⟨i, by simpa using hi, by simp⟩, rfl⟩

/-- What is found is a token text. -/
theorem BuiltFrom.mem_of_get {t : List UInt8} {id : TokenId} (h : T.tokenToId.get t = some id) :
    ∃ tok ∈ tokens, tokenText tok = t := by
  obtain ⟨i, hi, htext, -⟩ := built.exists_index_of_get h
  exact ⟨tokens[i], List.getElem_mem hi, htext⟩

end Built

/-- Only a byte-typed entry can stop the claiming. -/
theorem exists_claimBytes {entries : List VocabEntry} (h : ∀ entry ∈ entries, entry.tokenType ≠ 6)
    (id : ℕ) (table : UInt8 → TokenId) : ∃ table', claimBytes id entries table = some table' := by
  induction entries generalizing id table with
  | nil => exact ⟨table, rfl⟩
  | cons entry entries ih =>
    have hrest : ∀ e ∈ entries, e.tokenType ≠ 6 := fun e he => h e (by simp [he])
    unfold claimBytes
    split
    · rename_i hone
      have htype := h entry (by simp)
      have hlen : entry.text.length = 1 := by
        simp only [Bool.or_eq_true, decide_eq_true_eq, Bool.and_eq_true, htype, false_or] at hone
        exact hone.1
      obtain ⟨b, hb⟩ := List.length_eq_one_iff.mp hlen
      simpa [hb] using ih hrest (id + 1) _
    · exact ih hrest (id + 1) table

/-- Only a byte-typed token can stop the construction. -/
theorem exists_fromGgufParts_eq_ok (tokens : List String) (scores types : List UInt32)
    (merges : List String) (hscores : scores ≠ [] → scores.length = tokens.length)
    (htypes : ∀ i < tokens.length, types.getD i 1 ≠ 6) :
    ∃ T, fromGgufParts tokens scores types merges = .ok T := by
  have hvocab : ∀ entry ∈ buildVocab tokens scores types, entry.tokenType ≠ 6 := by
    intro entry hentry
    obtain ⟨i, hi, rfl⟩ := List.mem_mapIdx.mp hentry
    exact htypes i hi
  obtain ⟨table, htable⟩ := exists_claimBytes hvocab 0 fun _ => unassigned
  rw [fromGgufParts, if_neg (fun h => h.2 (hscores h.1))]
  simp only [htable]
  exact ⟨_, rfl⟩

end QuantumFlow
