import QuantumFlow.Tokenizer.Cuts
import QuantumFlow.Tokenizer.Segmentation

/-!
# Encoding loses nothing

For any vocabulary that spells every byte, with raw bytes, duplicates and merges as they come:
every cut of the greedy pass is between two bytes of the text, where there is a match, and the
entries of the ids concatenate to the spelled text. The ids are 32-bit, so this takes a
vocabulary that they can number.
-/

namespace QuantumFlow

/-- The entries of the encoded text concatenate to its spelling, and at every cut of the greedy
pass an entry matches. -/
def LosesNothing (T : Tokenizer) (text : String) : Prop :=
  let bytes := bytesToGpt2Unicode (utf8 text)
  (∃ (ids : List TokenId) (texts : List (List UInt8)), T.encodeNoBos text = some ids ∧
      ids.map T.textOf = texts.map some ∧ texts.flatten = bytes) ∧
    ∀ i, T.CutAt text i → i < bytes.length →
      ∃ m, T.longestMatch (bytes.drop i) (min (bytes.length - i) 64) = some m

theorem bytesToGpt2Unicode_injective : Function.Injective bytesToGpt2Unicode := by
  intro as bs h
  rw [bytesToGpt2Unicode_eq_utf8, bytesToGpt2Unicode_eq_utf8] at h
  have hchars := String.ofList_injective (utf8_injective h)
  exact List.map_injective_iff.mpr gpt2Char_injective hchars

section Built

variable {tokens : List String} {scores types : List UInt32} {merges : List String}
  {T : Tokenizer} (built : BuiltFrom tokens scores types merges T) (spells : T.SpellsBytes)
include built spells

/-- A match at a byte boundary ends at one. -/
theorem BuiltFrom.drop_of_moves {orig bytes : List UInt8} {i j : ℕ} {bs : List UInt8}
    (hi : bytes.drop i = bytesToGpt2Unicode bs) (h : T.Moves orig bytes i j) :
    ∃ cs, bytes.drop j = bytesToGpt2Unicode cs := by
  obtain ⟨hlt, id, len, hpush, rfl⟩ := h
  have hlen : bytes.length - i = (bytesToGpt2Unicode bs).length := by rw [← hi, List.length_drop]
  cases bs with
  | nil =>
    simp only [bytesToGpt2Unicode_nil, List.length_nil] at hlen
    omega
  | cons b bs =>
    obtain ⟨id', len', as, cs, hbs, hlenas, hmatch, -⟩ := built.longestMatch_spelled spells b bs
    rw [Tokenizer.pushAt, hi, hlen, hmatch] at hpush
    cases hpush
    refine ⟨cs, ?_⟩
    rw [← List.drop_drop, hi, hbs, bytesToGpt2Unicode_append, hlenas, List.drop_left]

theorem BuiltFrom.drop_of_cutAt {text : String} {i : ℕ} (h : T.CutAt text i) :
    ∃ cs, (bytesToGpt2Unicode (utf8 text)).drop i = bytesToGpt2Unicode cs := by
  induction h with
  | refl => exact ⟨utf8 text, rfl⟩
  | tail _ hmoves ih =>
    obtain ⟨bs, hbs⟩ := ih
    exact built.drop_of_moves spells hbs hmoves

theorem BuiltFrom.exists_match_of_cutAt {text : String} {i : ℕ} (h : T.CutAt text i)
    (hlt : i < (bytesToGpt2Unicode (utf8 text)).length) :
    ∃ m, T.longestMatch ((bytesToGpt2Unicode (utf8 text)).drop i)
      (min ((bytesToGpt2Unicode (utf8 text)).length - i) 64) = some m := by
  obtain ⟨cs, hcs⟩ := built.drop_of_cutAt spells h
  have hlen := congrArg List.length hcs
  rw [List.length_drop] at hlen
  cases cs with
  | nil =>
    simp only [bytesToGpt2Unicode_nil, List.length_nil] at hlen
    omega
  | cons b bs =>
    obtain ⟨id, len, -, -, -, -, hmatch, -⟩ := built.longestMatch_spelled spells b bs
    rw [hcs, hlen]
    exact ⟨_, hmatch⟩

theorem BuiltFrom.losesNothing (hsize : tokens.length ≤ 2 ^ 32) (text : String) :
    LosesNothing T text := by
  refine ⟨?_, fun i => built.exists_match_of_cutAt spells⟩
  obtain ⟨ids, segs, hgreedy, hmunch, hnamed⟩ := built.initialTokenise_eq spells text
  obtain ⟨texts, hnamed', hflat⟩ := built.named_normalize hsize hnamed
  exact ⟨_, texts, built.encodeNoBos_eq hsize hgreedy hnamed, built.map_textOf hsize hnamed',
    hflat.trans hmunch.flatten_eq⟩

end Built

/-- A tokenizer that loses nothing encodes no two texts alike. -/
theorem encodeNoBos_injective {T : Tokenizer} (h : ∀ text, LosesNothing T text) :
    Function.Injective T.encodeNoBos := by
  intro text₁ text₂ hsame
  obtain ⟨ids, texts, hids, htexts, hflat⟩ := (h text₁).1
  obtain ⟨ids', texts', hids', htexts', hflat'⟩ := (h text₂).1
  rw [hids, hids'] at hsame
  cases hsame
  have hsame : texts = texts' := by
    apply List.map_injective_iff.mpr (Option.some_injective _)
    rw [← htexts, htexts']
  rw [hsame, hflat'] at hflat
  exact (utf8_injective (bytesToGpt2Unicode_injective hflat)).symm

/-- With a vocabulary of at most 2^32 tokens that spells every byte, encoding loses nothing and
is injective. -/
theorem encode_loses_nothing {tokens : List String} {scores types : List UInt32}
    {merges : List String} {T : Tokenizer}
    (hbuilt : fromGgufParts tokens scores types merges = .ok T) (spells : T.SpellsBytes)
    (hsize : tokens.length ≤ 2 ^ 32) :
    (∀ text, LosesNothing T text) ∧ Function.Injective T.encodeNoBos := by
  have hall : ∀ text, LosesNothing T text :=
    (builtFrom_of_eq_ok hbuilt).losesNothing spells hsize
  exact ⟨hall, encodeNoBos_injective hall⟩

/-! ## Raw bytes, and too many tokens -/

/-- The spellings in front of any other tokens are found. -/
theorem spellsBytes_of_mem {tokens : List String} {scores types : List UInt32}
    {merges : List String} {T : Tokenizer} (built : BuiltFrom tokens scores types merges T)
    (h : ∀ b, gpt2String b ∈ tokens) : T.SpellsBytes := by
  intro b
  have hget := built.get_of_mem (h b)
  rwa [tokenText, parseByteToken_gpt2String, utf8_gpt2String] at hget

/-- With a raw byte, a duplicate and a merge. -/
theorem encode_loses_nothing_raw :
    ∃ T, fromGgufParts (byteTokens ++ ["<0xC4>", "hi", "hi"]) [] [] ["h i"] = .ok T ∧
      (∀ text, LosesNothing T text) ∧ Function.Injective T.encodeNoBos := by
  obtain ⟨T, hT⟩ := exists_fromGgufParts_eq_ok (byteTokens ++ ["<0xC4>", "hi", "hi"]) [] [] ["h i"]
    (fun h => absurd rfl h) (by simp)
  have spells : T.SpellsBytes := spellsBytes_of_mem (builtFrom_of_eq_ok hT)
    fun b => List.mem_append_left _ (byteVocab_byteTokens.spells b)
  exact ⟨T, hT, encode_loses_nothing hT spells (by simp [byteTokens])⟩

/-- The last of 2^32 + 1 tokens is found under id 0. -/
theorem get_last_of_length_eq {xs : List String} {scores types : List UInt32}
    {merges : List String} {T : Tokenizer}
    (built : BuiltFrom (xs ++ ["zz"]) scores types merges T) (hlen : xs.length = 2 ^ 32) :
    T.tokenToId.get (utf8 "zz") = some 0 := by
  have hzz : tokenText "zz" = utf8 "zz" := rfl
  have hid : UInt32.ofNat (2 ^ 32) = 0 := rfl
  rw [built.tokenToId, buildTokenToId, List.mapIdx_concat, Dict.insertAll, List.foldl_concat,
    Dict.get_insert, hzz, if_pos rfl, hlen, hid]

/-- Its text is encoded as id 0, whose entry is another one. -/
theorem not_losesNothing_of_length_eq {xs : List String} {scores types : List UInt32}
    {merges : List String} {T : Tokenizer}
    (built : BuiltFrom (xs ++ ["zz"]) scores types merges T) (hlen : xs.length = 2 ^ 32)
    (hfirst : xs[0]? = some (gpt2String 0)) :
    ¬ LosesNothing T "zz" := by
  have hbytes : bytesToGpt2Unicode (utf8 "zz") = utf8 "zz" := by decide +kernel
  have hget := get_last_of_length_eq built hlen
  rintro ⟨⟨ids, texts, hids, htexts, hflat⟩, -⟩
  have hencode : T.encodeNoBos "zz" = some [0] := by
    apply Tokenizer.encodeNoBos_of_get <;> rw [hbytes]
    · exact hget
    · decide
    · decide
  rw [hencode] at hids
  cases hids
  have htext : T.textOf 0 = some (gpt2Bytes 0) := by
    have hzero : (xs ++ ["zz"])[(0 : TokenId).toNat]? = some (gpt2String 0) := by
      rw [List.getElem?_append_left (by rw [hlen]; decide)]
      exact hfirst
    rw [built.textOf_eq, hzero, Option.map_some, tokenText, parseByteToken_gpt2String,
      utf8_gpt2String]
  rw [List.map_singleton, htext] at htexts
  have hsome : [gpt2Bytes 0].map some = texts.map some := htexts
  obtain rfl := List.map_injective_iff.mpr (Option.some_injective _) hsome
  rw [hbytes] at hflat
  exact absurd hflat (by decide +kernel)

/-- With 2^32 + 1 tokens the index of the last one is truncated. -/
theorem not_encode_loses_nothing :
    ¬ ∀ (tokens : List String) (scores types : List UInt32) (merges : List String) (T : Tokenizer),
      fromGgufParts tokens scores types merges = .ok T → T.SpellsBytes →
      (∀ text, LosesNothing T text) ∧ Function.Injective T.encodeNoBos := by
  intro h
  have hcount : 256 + (2 ^ 32 - 256) = 2 ^ 32 := rfl
  generalize 2 ^ 32 - 256 = n at hcount
  obtain ⟨T, hT⟩ := exists_fromGgufParts_eq_ok ((byteTokens ++ List.replicate n "zz") ++ ["zz"])
    [] [] [] (fun h => absurd rfl h) (by simp)
  have built := builtFrom_of_eq_ok hT
  have spells : T.SpellsBytes := spellsBytes_of_mem built fun b =>
    List.mem_append_left _ (List.mem_append_left _ (byteVocab_byteTokens.spells b))
  have hlen : (byteTokens ++ List.replicate n "zz").length = 2 ^ 32 := by
    rw [List.length_append, List.length_replicate, byteTokens, List.length_map, List.length_range,
      hcount]
  exact not_losesNothing_of_length_eq built hlen rfl ((h _ _ _ _ T hT spells).1 "zz")

end QuantumFlow
