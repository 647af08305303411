import QuantumFlow.Foundation.LongestMatch
import QuantumFlow.Tokenizer.Encode

/-!
# What the greedy pass returns

When every byte can be spelled, the greedy pass never needs the byte table: it cuts the
spelled text into vocabulary entries by longest match, and pushes the id of each. Merging
then works on the ids of those entries, and the concatenated bytes never change.
-/

namespace QuantumFlow

/-- The spelling of a byte as a string. -/
def gpt2String (b : UInt8) : String := String.ofList [gpt2Char b]

theorem utf8_gpt2String (b : UInt8) : utf8 (gpt2String b) = gpt2Bytes b := by
  rw [gpt2String, utf8_ofList, utf8Chars_cons, utf8Chars_nil, List.append_nil, gpt2Bytes_eq]

/-- Distinct tokens, among them the spelling of every byte, and none in `<0xNN>` form. -/
structure ByteVocab (tokens : List String) : Prop where
  nodup : tokens.Nodup
  spells : ∀ b, gpt2String b ∈ tokens
  noRaw : ∀ tok ∈ tokens, parseByteToken tok = none

/-- The smallest such vocabulary. -/
def byteTokens : List String := (List.range 256).map fun n => gpt2String (UInt8.ofNat n)

theorem gpt2String_injective : Function.Injective gpt2String := by
  intro a b h
  have hchars := String.ofList_injective h
  exact gpt2Char_injective (List.singleton_injective hchars)

theorem parseByteToken_gpt2String (b : UInt8) : parseByteToken (gpt2String b) = none := by
  simp [parseByteToken, gpt2String]

theorem byteVocab_byteTokens : ByteVocab byteTokens where
  nodup := by
    refine List.Nodup.map_on ?_ List.nodup_range
    intro m hm n hn h
    have hbyte := congrArg UInt8.toNat (gpt2String_injective h)
    rwa [UInt8.toNat_ofNat_of_lt' (List.mem_range.mp hm),
      UInt8.toNat_ofNat_of_lt' (List.mem_range.mp hn)] at hbyte
  spells b := List.mem_map.mpr ⟨b.toNat, List.mem_range.mpr b.toNat_lt, by simp⟩
  noRaw := by
    intro tok htok
    obtain ⟨n, -, rfl⟩ := List.mem_map.mp htok
    exact parseByteToken_gpt2String _

/-- Longer tokens can be added. -/
theorem byteVocab_append {toks : List String} (hnodup : toks.Nodup)
    (hlen : ∀ tok ∈ toks, tok.toList.length ≠ 1)
    (hraw : ∀ tok ∈ toks, parseByteToken tok = none) : ByteVocab (byteTokens ++ toks) where
  nodup := by
    refine List.nodup_append.mpr ⟨byteVocab_byteTokens.nodup, hnodup, ?_⟩
    rintro tok' htok' tok htok rfl
    obtain ⟨n, -, rfl⟩ := List.mem_map.mp htok'
    exact hlen _ htok (by simp [gpt2String])
  spells b := List.mem_append_left _ (byteVocab_byteTokens.spells b)
  noRaw := by
    intro tok htok
    rcases List.mem_append.mp htok with htok | htok
    · exact byteVocab_byteTokens.noRaw tok htok
    · exact hraw tok htok

/-- The bytes of a token. -/
def IsText (tokens : List String) (t : List UInt8) : Prop := ∃ tok ∈ tokens, utf8 tok = t

/-- The only text of more than two bytes is the added one. -/
theorem eq_of_isText_append {tok : String} {t : List UInt8} (h : IsText (byteTokens ++ [tok]) t)
    (hlong : 2 < t.length) : t = utf8 tok := by
  obtain ⟨tok', htok', rfl⟩ := h
  rcases List.mem_append.mp htok' with htok' | htok'
  · obtain ⟨n, -, rfl⟩ := List.mem_map.mp htok'
    rw [utf8_gpt2String] at hlong
    exact absurd hlong (Nat.not_lt.mpr (length_gpt2Bytes_le _))
  · rw [List.mem_singleton.mp htok']

/-- Ids that are found under the texts, one for each. -/
def Named (T : Tokenizer) (ids : List TokenId) (texts : List (List UInt8)) : Prop :=
  List.Forall₂ (fun id t => T.tokenToId.get t = some id) ids texts

theorem Named.exists_text {T : Tokenizer} {ids : List TokenId} {texts : List (List UInt8)}
    (h : Named T ids texts) {id : TokenId} (hid : id ∈ ids) :
    ∃ t ∈ texts, T.tokenToId.get t = some id := by
  induction h with
  | nil => cases hid
  | @cons id' t ids texts hget _ ih =>
    rcases List.mem_cons.mp hid with rfl | hid
    · exact ⟨t, by simp, hget⟩
    · obtain ⟨t', ht', hget'⟩ := ih hid
      exact ⟨t', by simp [ht'], hget'⟩

theorem Named.exists_id {T : Tokenizer} {ids : List TokenId} {texts : List (List UInt8)}
    (h : Named T ids texts) {t : List UInt8} (ht : t ∈ texts) :
    ∃ id ∈ ids, T.tokenToId.get t = some id := by
  induction h with
  | nil => cases ht
  | @cons id t' ids texts hget _ ih =>
    rcases List.mem_cons.mp ht with rfl | ht
    · exact ⟨id, by simp, hget⟩
    · obtain ⟨id', hid', hget'⟩ := ih ht
      exact ⟨id', by simp [hid'], hget'⟩

/-! ## The greedy cut -/

/-- The text is found in the vocabulary. -/
def Tokenizer.IsKey (T : Tokenizer) (t : List UInt8) : Prop := ∃ id, T.tokenToId.get t = some id

/-- The spelling of every byte is found. -/
def Tokenizer.SpellsBytes (T : Tokenizer) : Prop := ∀ b, T.IsKey (gpt2Bytes b)

section Greedy

variable {tokens : List String} {scores types : List UInt32} {merges : List String}
  {T : Tokenizer} (built : BuiltFrom tokens scores types merges T)
include built

/-- A key is one raw byte or the byte view of a string. -/
theorem BuiltFrom.isKey_cases {t : List UInt8} (h : T.IsKey t) :
    (∃ b, t = [b]) ∨ ∃ s : String, t = utf8 s := by
  obtain ⟨id, hid⟩ := h
  obtain ⟨tok, -, rfl⟩ := built.mem_of_get hid
  unfold tokenText
  split
  · exact Or.inl ⟨_, rfl⟩
  · exact Or.inr ⟨tok, rfl⟩

/-- At a byte there is always a match, and it ends after a byte: a raw byte is only the longest
match of a byte that spells itself. -/
theorem BuiltFrom.longestMatch_spelled (spells : T.SpellsBytes) (b : UInt8) (bs : List UInt8) :
    ∃ id len as cs, b :: bs = as ++ cs ∧ len = (bytesToGpt2Unicode as).length ∧
      T.longestMatch (bytesToGpt2Unicode (b :: bs))
        (min (bytesToGpt2Unicode (b :: bs)).length 64) = some (id, len) ∧
      T.tokenToId.get (bytesToGpt2Unicode as) = some id := by
  have hchar : (gpt2Bytes b).length ≤ 2 := length_gpt2Bytes_le b
  have hpos : 0 < (gpt2Bytes b).length := List.length_pos_iff.mpr (gpt2Bytes_ne_nil b)
  have hle : (gpt2Bytes b).length ≤ min (bytesToGpt2Unicode (b :: bs)).length 64 := by
    simp only [bytesToGpt2Unicode_cons, List.length_append]
    omega
  have hfirst : (bytesToGpt2Unicode (b :: bs)).take (gpt2Bytes b).length = gpt2Bytes b := by
    rw [bytesToGpt2Unicode_cons, List.take_left' rfl]
  obtain ⟨id₀, hid₀⟩ := spells b
  cases hmatch : T.longestMatch (bytesToGpt2Unicode (b :: bs))
      (min (bytesToGpt2Unicode (b :: bs)).length 64) with
  | none =>
    have hget := Tokenizer.longestMatch_eq_none hmatch hpos hle
    rw [hfirst, hid₀] at hget
    cases hget
  | some m =>
    obtain ⟨id, len⟩ := m
    obtain ⟨hlen, hbound, hget, hlonger⟩ := Tokenizer.longestMatch_eq_some hmatch
    have hfits : len ≤ (bytesToGpt2Unicode (b :: bs)).length := by omega
    have hlong : (gpt2Bytes b).length ≤ len := by
      by_contra hshort
      have hnone := hlonger _ (Nat.not_le.mp hshort) hle
      rw [hfirst, hid₀] at hnone
      cases hnone
    rcases built.isKey_cases ⟨id, hget⟩ with ⟨raw, hraw⟩ | ⟨s, hs⟩
    · have hone : len = 1 := by
        have hcount := congrArg List.length hraw
        simp only [List.length_take, List.length_singleton] at hcount
        omega
      have hself : (gpt2Bytes b).length = len := by omega
      refine ⟨id, len, [b], bs, rfl, ?_, rfl, ?_⟩
      · simpa using hself.symm
      · rw [← hself, hfirst] at hget
        simpa using hget
    · have hcut : bytesToGpt2Unicode (b :: bs) =
          utf8 s ++ (bytesToGpt2Unicode (b :: bs)).drop len := by
        rw [← hs, List.take_append_drop]
      obtain ⟨as, cs, hbs, has, -⟩ := bytesToGpt2Unicode_append_eq hcut
      refine ⟨id, len, as, cs, hbs, ?_, rfl, ?_⟩
      · rw [← has, ← hs, List.length_take]
        omega
      · rw [← has, ← hs, hget]

/-- The scan from a byte boundary returns the ids of the greedy cut of the rest. -/
theorem BuiltFrom.initialTokeniseFrom_eq (spells : T.SpellsBytes) (orig bytes : List UInt8)
    (fuel : ℕ) {i : ℕ} {bs : List UInt8} (hrest : bytes.drop i = bytesToGpt2Unicode bs)
    (hfuel : (bytesToGpt2Unicode bs).length ≤ fuel) :
    ∃ ids segs, T.initialTokeniseFrom orig bytes fuel i = some ids ∧
      Munch T.IsKey 64 (bytesToGpt2Unicode bs) segs ∧ Named T ids segs := by
  have hlen : bytes.length - i = (bytesToGpt2Unicode bs).length := by
    rw [← hrest, List.length_drop]
  induction fuel generalizing i bs with
  | zero =>
    have hbs := length_le_bytesToGpt2Unicode bs
    obtain rfl := List.eq_nil_of_length_eq_zero (by omega : bs.length = 0)
    exact ⟨[], [], rfl, .nil, .nil⟩
  | succ fuel ih =>
    cases bs with
    | nil =>
      have hend : ¬ i < bytes.length := by
        simp only [bytesToGpt2Unicode_nil, List.length_nil] at hlen
        omega
      exact ⟨[], [], by rw [Tokenizer.initialTokeniseFrom, if_neg hend], .nil, .nil⟩
    | cons b bs =>
      obtain ⟨id, len, as, cs, hbs, hlenas, hmatch, hget⟩ :=
        built.longestMatch_spelled spells b bs
      obtain ⟨hpos, hle, -, hlonger⟩ := Tokenizer.longestMatch_eq_some hmatch
      have hsplit : bytesToGpt2Unicode (b :: bs) =
          bytesToGpt2Unicode as ++ bytesToGpt2Unicode cs := by
        rw [hbs, bytesToGpt2Unicode_append]
      have hpush : T.pushAt orig bytes i = some (id, len) := by
        rw [Tokenizer.pushAt, hrest, hlen, hmatch]
      have hrest' : bytes.drop (i + len) = bytesToGpt2Unicode cs := by
        rw [← List.drop_drop, hrest, hsplit, hlenas, List.drop_left]
      have hlen' : (bytesToGpt2Unicode (b :: bs)).length =
          len + (bytesToGpt2Unicode cs).length := by
        rw [hsplit, List.length_append, hlenas]
      obtain ⟨ids, segs, hids, hmunch, hnamed⟩ :=
        ih hrest' (by omega) (by omega)
      refine ⟨id :: ids, bytesToGpt2Unicode as :: segs, ?_, ?_, .cons hget hnamed⟩
      · rw [Tokenizer.initialTokeniseFrom, if_pos (by omega), hpush]
        simp [hids]
      · rw [hsplit]
        refine .cons ?_ ⟨id, hget⟩ (by omega) ?_ hmunch
        · exact List.ne_nil_of_length_pos (by omega)
        · rintro longer hpart hlt hbound ⟨id', hid'⟩
          have hle' := hpart.length_le
          rw [← hsplit] at hle'
          have hlonger' := hlonger longer.length (by omega) (by omega)
          rw [hsplit, ← List.prefix_iff_eq_take.mp hpart, hid'] at hlonger'
          cases hlonger'

/-- The greedy pass returns the ids of the greedy cut. -/
theorem BuiltFrom.initialTokenise_eq (spells : T.SpellsBytes) (text : String) :
    ∃ ids segs, T.initialTokenise text = some ids ∧
      Munch T.IsKey 64 (bytesToGpt2Unicode (utf8 text)) segs ∧ Named T ids segs :=
  built.initialTokeniseFrom_eq spells _ _ _ rfl (Nat.le_refl _)

variable (vocab : ByteVocab tokens)
include vocab

theorem ByteVocab.isText_of_get {t : List UInt8} {id : TokenId} (h : T.tokenToId.get t = some id) :
    IsText tokens t := by
  obtain ⟨tok, htok, ht⟩ := built.mem_of_get h
  refine ⟨tok, htok, ?_⟩
  rw [← ht, tokenText, vocab.noRaw tok htok]

theorem ByteVocab.get_of_isText {t : List UInt8} (h : IsText tokens t) :
    ∃ id, T.tokenToId.get t = some id := by
  obtain ⟨tok, htok, rfl⟩ := h
  have hget := built.get_of_mem htok
  rwa [tokenText, vocab.noRaw tok htok] at hget

/-- Without raw bytes the keys are the texts of the tokens. -/
theorem ByteVocab.isKey_eq : T.IsKey = IsText tokens := by
  funext t
  apply propext
  constructor
  · rintro ⟨id, hid⟩
    exact vocab.isText_of_get built hid
  · exact vocab.get_of_isText built

theorem ByteVocab.spellsBytes : T.SpellsBytes := fun b =>
  vocab.get_of_isText built ⟨_, vocab.spells b, utf8_gpt2String b⟩

theorem ByteVocab.initialTokenise_eq (text : String) :
    ∃ ids segs, T.initialTokenise text = some ids ∧
      Munch (IsText tokens) 64 (bytesToGpt2Unicode (utf8 text)) segs ∧ Named T ids segs := by
  rw [← vocab.isKey_eq built]
  exact built.initialTokenise_eq (vocab.spellsBytes built) text

end Greedy

/-! ## Encoding -/

section Encode

variable {tokens : List String} {scores types : List UInt32} {merges : List String}
  {T : Tokenizer} (built : BuiltFrom tokens scores types merges T)
  (hsize : tokens.length ≤ 2 ^ 32)
include built hsize

theorem BuiltFrom.isSome_textOf {t : List UInt8} {id : TokenId}
    (h : T.tokenToId.get t = some id) : (T.textOf id).isSome := by
  rw [built.textOf_of_get hsize h]
  rfl

theorem BuiltFrom.map_textOf {ids : List TokenId} {texts : List (List UInt8)}
    (h : Named T ids texts) : ids.map T.textOf = texts.map some := by
  induction h with
  | nil => rfl
  | cons hget _ ih => rw [List.map_cons, List.map_cons, ih, built.textOf_of_get hsize hget]

/-- From named ids, encoding is pair merging. -/
theorem BuiltFrom.encodeNoBos_eq {text : String} {ids : List TokenId} {texts : List (List UInt8)}
    (hids : T.initialTokenise text = some ids) (hnamed : Named T ids texts) :
    T.encodeNoBos text = some (PairMerge.normalize T.rankOf T.joinOf ids) := by
  have hsome : ∀ id ∈ ids, (T.textOf id).isSome := by
    intro id hid
    obtain ⟨t, -, hget⟩ := hnamed.exists_text hid
    exact built.isSome_textOf hsize hget
  obtain ⟨out, hout⟩ := Option.isSome_iff_exists.mp
    (Tokenizer.isSome_bpeMerge (fun _ _ => built.isSome_textOf hsize) hsome)
  rw [← Tokenizer.eq_normalize_of_bpeMerge hout]
  simp [Tokenizer.encodeNoBos, Tokenizer.encode, hids, hout]

/-- Merging named ids leaves named ids, and the same bytes. -/
theorem BuiltFrom.named_normalize {ids : List TokenId} {texts : List (List UInt8)}
    (hnamed : Named T ids texts) :
    ∃ texts', Named T (PairMerge.normalize T.rankOf T.joinOf ids) texts' ∧
      texts'.flatten = texts.flatten := by
  refine PairMerge.normalizeFrom_induction
    (P := fun ids => ∃ texts', Named T ids texts' ∧ texts'.flatten = texts.flatten)
    ?_ ids.length ⟨texts, hnamed, rfl⟩
  rintro xs ys hstep ⟨texts', hnamed', hflat⟩
  obtain ⟨l, a, b, c, r, rfl, rfl, -, hc⟩ := PairMerge.step_cases hstep
  obtain ⟨tl, t₁, htl, ht₁, rfl⟩ := PairMerge.forall₂_append_left hnamed'
  cases ht₁ with
  | @cons _ ta _ t₂ ha ht₂ =>
    cases ht₂ with
    | @cons _ tb _ tr hb htr =>
      rw [Tokenizer.joinOf, built.textOf_of_get hsize ha, built.textOf_of_get hsize hb] at hc
      refine ⟨tl ++ (ta ++ tb) :: tr, List.rel_append htl (.cons hc htr), ?_⟩
      rw [← hflat]
      simp

end Encode

end QuantumFlow
