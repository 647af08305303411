import QuantumFlow.Tokenizer.Segmentation

/-!
# Decoding what was encoded

Over a vocabulary that spells every byte, `encodeNoBos` loses nothing: the entries of the
ids concatenate to the spelled text. `decode` returns that spelling. It never turns the
spelled characters back into bytes, so the text comes back exactly when it spells itself.
-/

namespace QuantumFlow

/-- Every token is of type 1; a token without a type is. -/
def AllNormal (tokens : List String) (types : List UInt32) : Prop :=
  ∀ i < tokens.length, types.getD i 1 = 1

section Decode

variable {tokens : List String} {scores types : List UInt32} {merges : List String}
  {T : Tokenizer} (built : BuiltFrom tokens scores types merges T)
  (hids : tokens.length ≤ 128000) (hnormal : AllNormal tokens types)
include built hids hnormal

theorem BuiltFrom.decodedBytes_eq {t : List UInt8} {id : TokenId}
    (h : T.tokenToId.get t = some id) : T.decodedBytes id = t := by
  have htext := built.textOf_of_get (by omega) h
  rw [built.textOf_eq] at htext
  obtain ⟨tok, htok, htext⟩ := Option.map_eq_some_iff.mp htext
  obtain ⟨hlt, rfl⟩ := List.getElem?_eq_some_iff.mp htok
  have hspecial : ¬ (id = TOKEN_BOS ∨ id = TOKEN_EOS ∨ id = TOKEN_PAD) := by
    have hbound : id.toNat < 128000 := by omega
    rintro (rfl | rfl | rfl) <;> exact absurd hbound (by decide)
  rw [Tokenizer.decodedBytes, if_neg hspecial, built.vocab, buildVocab, List.getElem?_mapIdx, htok]
  have htype : types.getD id.toNat 1 = 1 := hnormal _ hlt
  simp only [Option.map_some, htype]
  exact htext

/-- Decoding named ids concatenates the texts. -/
theorem BuiltFrom.flatMap_decodedBytes {ids : List TokenId} {texts : List (List UInt8)}
    (h : Named T ids texts) : ids.flatMap T.decodedBytes = texts.flatten := by
  induction h with
  | nil => rfl
  | cons hget _ ih =>
    rw [List.flatMap_cons, List.flatten_cons, ih, built.decodedBytes_eq hids hnormal hget]

/-- Decoding an encoded text gives its spelling. -/
theorem BuiltFrom.decode_encodeNoBos (vocab : ByteVocab tokens) (text : String) :
    ∃ ids, T.encodeNoBos text = some ids ∧
      T.decode ids = String.ofList ((utf8 text).map gpt2Char) := by
  obtain ⟨ids, segs, hgreedy, hmunch, hnamed⟩ := vocab.initialTokenise_eq built text
  have hsize : tokens.length ≤ 2 ^ 32 := by omega
  obtain ⟨texts, hnamed', hflat⟩ := built.named_normalize hsize hnamed
  refine ⟨_, built.encodeNoBos_eq hsize hgreedy hnamed, ?_⟩
  rw [Tokenizer.decode, built.flatMap_decodedBytes hids hnormal hnamed', hflat, hmunch.flatten_eq,
    bytesToGpt2Unicode_eq_utf8, fromUtf8_utf8, Option.getD_some]

end Decode

/-- `decode` undoes `encodeNoBos` exactly on texts of printable ASCII characters other than
the space. -/
theorem decode_encode_iff {tokens : List String} {scores types : List UInt32}
    {merges : List String} {T : Tokenizer}
    (hbuilt : fromGgufParts tokens scores types merges = .ok T) (vocab : ByteVocab tokens)
    (hnormal : AllNormal tokens types) (hids : tokens.length ≤ 128000) (text : String) :
    (∃ ids, T.encodeNoBos text = some ids ∧ T.decode ids = text) ↔
      ∀ b ∈ utf8 text, 33 ≤ b ∧ b ≤ 126 := by
  obtain ⟨ids, hencode, hdecode⟩ :=
    (builtFrom_of_eq_ok hbuilt).decode_encodeNoBos hids hnormal vocab text
  rw [← bytesToGpt2Unicode_eq_self_iff, bytesToGpt2Unicode_eq_utf8, utf8_injective.eq_iff]
  constructor
  · rintro ⟨ids', hids', htext⟩
    rw [hencode] at hids'
    cases hids'
    rw [← hdecode, htext]
  · intro h
    exact ⟨ids, hencode, by rw [hdecode, h]⟩

theorem decode_encode_iff_hello :
    ∃ T, fromGgufParts byteTokens [] [] [] = .ok T ∧
      ((∃ ids, T.encodeNoBos "hello" = some ids ∧ T.decode ids = "hello") ↔
        ∀ b ∈ utf8 "hello", 33 ≤ b ∧ b ≤ 126) := by
  have hnormal : AllNormal byteTokens [] := fun _ _ => rfl
  obtain ⟨T, hT⟩ := exists_fromGgufParts_eq_ok byteTokens [] [] []
    (fun h => absurd rfl h) (by simp)
  exact ⟨T, hT, decode_encode_iff hT byteVocab_byteTokens hnormal (by simp [byteTokens]) "hello"⟩

/-- A space comes back as `Ġ`. -/
theorem not_decode_encode :
    ¬ ∀ (tokens : List String) (scores types : List UInt32) (merges : List String) (T : Tokenizer),
      fromGgufParts tokens scores types merges = .ok T → ByteVocab tokens →
      AllNormal tokens types → tokens.length ≤ 128000 → ∀ text : String,
      ∃ ids, T.encodeNoBos text = some ids ∧ T.decode ids = text := by
  intro h
  have hnormal : AllNormal byteTokens [] := fun _ _ => rfl
  have hids : byteTokens.length ≤ 128000 := by simp [byteTokens]
  obtain ⟨T, hT⟩ := exists_fromGgufParts_eq_ok byteTokens [] [] []
    (fun h => absurd rfl h) (by simp)
  obtain ⟨ids, hencode, hdecode⟩ := h _ _ _ _ T hT byteVocab_byteTokens hnormal hids " "
  obtain ⟨ids', hencode', hdecode'⟩ :=
    (builtFrom_of_eq_ok hT).decode_encodeNoBos hids hnormal byteVocab_byteTokens " "
  rw [hencode] at hencode'
  cases hencode'
  rw [hdecode] at hdecode'
  have hspace : utf8 " " = [32] := by decide
  rw [hspace] at hdecode'
  exact absurd hdecode' (by decide +kernel)

end QuantumFlow
