import QuantumFlow.Tokenizer.Segmentation

/-!
# Comparison with byte pair encoding

The reference starts from one piece for each GPT-2 character and merges the leftmost adjacent
pair of lowest rank until no adjacent pair is in the merge list. The tokenizer runs the same
merging, but from the greedy cut: over the ids of that cut it computes what the reference
computes over its texts. Neighbours in the greedy cut spell no entry of at most 64 bytes, so unless
merges can make more of the text nothing is merged there. Then the two agree exactly when no entry
of at most 64 bytes goes on behind a token of the reference.
-/

namespace QuantumFlow

/-- The two texts of a merge entry. -/
def mergePair (merge : String) : Option (List UInt8 × List UInt8) :=
  (splitOnce merge).map (Prod.map utf8Chars utf8Chars)

/-- Distinct pairs whose parts and concatenation are tokens. -/
structure MergesOver (tokens merges : List String) : Prop where
  distinct : (merges.map mergePair).Nodup
  closed : ∀ m ∈ merges, ∃ a b, mergePair m = some (a, b) ∧ IsText tokens a ∧ IsText tokens b ∧
    IsText tokens (a ++ b)

/-! ## The reference -/

/-- The place of a pair in the merge list. -/
def referenceRank (merges : List String) (a b : List UInt8) : Option ℕ :=
  merges.findIdx? fun m => mergePair m = some (a, b)

def referenceJoin (a b : List UInt8) : Option (List UInt8) := some (a ++ b)

/-- One piece for each character. -/
def charPieces (text : String) : List (List UInt8) := (utf8 text).map gpt2Bytes

def referencePieces (merges : List String) (text : String) : List (List UInt8) :=
  PairMerge.normalize (referenceRank merges) referenceJoin (charPieces text)

/-- The place of a text in the vocabulary. -/
def referenceId (tokens : List String) (t : List UInt8) : Option TokenId :=
  (tokens.findIdx? fun tok => utf8 tok = t).map UInt32.ofNat

def referenceBpe (tokens merges : List String) (text : String) : Option (List TokenId) :=
  (referencePieces merges text).mapM (referenceId tokens)

theorem mergeEntry_eq_some_iff {d : Dict (List UInt8) TokenId} {i : ℕ} {m : String}
    {a b : TokenId} {r : UInt32} : mergeEntry d i m = some ((a, b), r) ↔
      ∃ x y, mergePair m = some (x, y) ∧ d.get x = some a ∧ d.get y = some b ∧
        r = UInt32.ofNat i := by
  cases hsplit : splitOnce m with
  | none => simp [mergeEntry, mergePair, hsplit]
  | some sides =>
    constructor
    · intro h
      rw [mergeEntry, hsplit, Option.bind_eq_bind, Option.bind_some] at h
      obtain ⟨lid, hl, h⟩ := Option.bind_eq_some_iff.mp h
      obtain ⟨rid, hr, h⟩ := Option.bind_eq_some_iff.mp h
      cases h
      exact ⟨_, _, by rw [mergePair, hsplit]; rfl, hl, hr, rfl⟩
    · rintro ⟨x, y, hpair, hx, hy, rfl⟩
      rw [mergePair, hsplit] at hpair
      cases hpair
      simp [mergeEntry, hsplit, hx, hy]

/-- A rank is the place of the pair. -/
theorem referenceRank_eq_some {merges : List String} {x y : List UInt8} {i : ℕ}
    (h : referenceRank merges x y = some i) :
    ∃ m, merges[i]? = some m ∧ mergePair m = some (x, y) := by
  obtain ⟨hi, hp, -⟩ := List.findIdx?_eq_some_iff_getElem.mp h
  exact ⟨merges[i], List.getElem?_eq_getElem hi, by simpa using hp⟩

section Simulation

variable {tokens : List String} {scores types : List UInt32} {merges : List String}
  {T : Tokenizer} (built : BuiltFrom tokens scores types merges T)
include built

/-- The map of the tokenizer finds the place in the vocabulary. -/
theorem ByteVocab.referenceId_eq (vocab : ByteVocab tokens) (t : List UInt8) :
    referenceId tokens t = T.tokenToId.get t := by
  unfold referenceId
  cases hidx : tokens.findIdx? fun tok => utf8 tok = t with
  | none =>
    have hnone := List.findIdx?_eq_none_iff.mp hidx
    cases hget : T.tokenToId.get t with
    | none => rfl
    | some id =>
      obtain ⟨tok, htok, ht⟩ := vocab.isText_of_get built hget
      exact absurd (hnone tok htok) (by simp [ht])
  | some i =>
    obtain ⟨hi, ht, -⟩ := List.findIdx?_eq_some_iff_getElem.mp hidx
    have htok : utf8 tokens[i] = t := by simpa using ht
    obtain ⟨id, hid⟩ := vocab.get_of_isText built ⟨tokens[i], List.getElem_mem hi, htok⟩
    rw [hid, Option.map_some]
    rw [built.tokenToId, buildTokenToId] at hid
    obtain ⟨j, hj, hpair⟩ := List.mem_mapIdx.mp (Dict.mem_of_get_insertAll hid)
    obtain ⟨htext, hidj⟩ := Prod.mk.inj hpair
    rw [tokenText, vocab.noRaw _ (List.getElem_mem hj)] at htext
    have hij := utf8_injective (htext.trans htok.symm)
    rw [vocab.nodup.getElem_inj_iff] at hij
    rw [← hidj, hij]

section Ranks

variable (hsize : tokens.length ≤ 2 ^ 32)
include hsize

/-- A rank in the table comes from an entry with the texts of the two ids. -/
theorem BuiltFrom.mergePair_of_get {a b : TokenId} {x y : List UInt8} {r : UInt32}
    (ha : T.tokenToId.get x = some a) (hb : T.tokenToId.get y = some b)
    (h : T.mergeRank.get (a, b) = some r) :
    ∃ i m, merges[i]? = some m ∧ mergePair m = some (x, y) ∧ r = UInt32.ofNat i := by
  rw [built.mergeRank, buildMergeRank] at h
  obtain ⟨e, he, heq⟩ := List.mem_filterMap.mp (Dict.mem_of_get_insertAll h)
  obtain ⟨i, hi, rfl⟩ := List.mem_mapIdx.mp he
  obtain ⟨x', y', hpair, hx', hy', hr⟩ := mergeEntry_eq_some_iff.mp heq
  rw [← built.tokenToId] at hx' hy'
  have hx : some x' = some x :=
    (built.textOf_of_get hsize hx').symm.trans (built.textOf_of_get hsize ha)
  have hy : some y' = some y :=
    (built.textOf_of_get hsize hy').symm.trans (built.textOf_of_get hsize hb)
  cases hx
  cases hy
  exact ⟨i, merges[i], List.getElem?_eq_getElem hi, hpair, hr⟩

/-- The merge table ranks two ids as the merge list ranks their texts. -/
theorem BuiltFrom.get_mergeRank (hdistinct : (merges.map mergePair).Nodup) {a b : TokenId}
    {x y : List UInt8} (ha : T.tokenToId.get x = some a) (hb : T.tokenToId.get y = some b) :
    T.mergeRank.get (a, b) = (referenceRank merges x y).map UInt32.ofNat := by
  cases hrank : referenceRank merges x y with
  | none =>
    have hnone := List.findIdx?_eq_none_iff.mp hrank
    cases hget : T.mergeRank.get (a, b) with
    | none => rfl
    | some r =>
      obtain ⟨i, m, hm, hpair, -⟩ := built.mergePair_of_get hsize ha hb hget
      exact absurd (hnone m (List.mem_of_getElem? hm)) (by simp [hpair])
  | some i =>
    obtain ⟨m, hm, hpair⟩ := referenceRank_eq_some hrank
    have hentry : mergeEntry (buildTokenToId tokens) i m = some ((a, b), UInt32.ofNat i) :=
      mergeEntry_eq_some_iff.mpr
        ⟨x, y, hpair, built.tokenToId ▸ ha, built.tokenToId ▸ hb, rfl⟩
    obtain ⟨r, hr⟩ : ∃ r, T.mergeRank.get (a, b) = some r := by
      rw [built.mergeRank, buildMergeRank]
      apply Dict.get_insertAll_of_mem
      refine List.mem_map.mpr ⟨((a, b), UInt32.ofNat i), List.mem_filterMap.mpr ⟨_, ?_, rfl⟩, rfl⟩
      apply List.mem_of_getElem? (i := i)
      rw [List.getElem?_mapIdx, hm, Option.map_some, hentry]
    obtain ⟨j, m', hm', hpair', rfl⟩ := built.mergePair_of_get hsize ha hb hr
    have hi : i < (merges.map mergePair).length := by
      rw [List.length_map]
      exact (List.getElem?_eq_some_iff.mp hm).1
    have hij : i = j := by
      refine (List.getElem?_inj hi hdistinct).mp ?_
      rw [List.getElem?_map, List.getElem?_map, hm, hm', Option.map_some, Option.map_some, hpair,
        hpair']
    rw [hr, Option.map_some, hij]

/-- From related starts, the merge loop and the reference end in related results. -/
theorem MergesOver.named_normalize (mergesOver : MergesOver tokens merges)
    (vocab : ByteVocab tokens) (hmerges : merges.length < 2 ^ 32) {ids : List TokenId}
    {texts : List (List UInt8)} (h : Named T ids texts) :
    Named T (PairMerge.normalize T.rankOf T.joinOf ids)
      (PairMerge.normalize (referenceRank merges) referenceJoin texts) := by
  have hrank : ∀ a b x y, T.tokenToId.get x = some a → T.tokenToId.get y = some b →
      T.rankOf a b = referenceRank merges x y := by
    intro a b x y ha hb
    rw [Tokenizer.rankOf, built.get_mergeRank hsize mergesOver.distinct ha hb]
    cases hrank : referenceRank merges x y with
    | none => rfl
    | some i =>
      obtain ⟨m, hm, -⟩ := referenceRank_eq_some hrank
      have hi : i < merges.length := (List.getElem?_eq_some_iff.mp hm).1
      have hnat : (UInt32.ofNat i).toNat = i := UInt32.toNat_ofNat_of_lt' (Nat.lt_trans hi hmerges)
      have hlt : UInt32.ofNat i < 0xFFFFFFFF := by
        rw [UInt32.lt_iff_toNat_lt, hnat]
        have hmax : (0xFFFFFFFF : UInt32).toNat = 0xFFFFFFFF := rfl
        omega
      simp [Option.filter, hlt, hnat]
  rw [PairMerge.normalize, PairMerge.normalize, ← h.length_eq]
  refine PairMerge.normalizeFrom_forall₂ hrank ?_ _ h
  intro a b x y k ha hb hk
  rw [hrank a b x y ha hb] at hk
  obtain ⟨m, hm, hpair⟩ := referenceRank_eq_some hk
  obtain ⟨x', y', hpair', -, -, hxy⟩ := mergesOver.closed m (List.mem_of_getElem? hm)
  rw [hpair] at hpair'
  cases hpair'
  obtain ⟨c, hc⟩ := vocab.get_of_isText built hxy
  have hjoin : T.joinOf a b = some c := by
    rw [Tokenizer.joinOf, built.textOf_of_get hsize ha, built.textOf_of_get hsize hb]
    exact hc
  rw [hjoin]
  exact .some hc

end Ranks

/-- Named ids are the reference ids of their texts. -/
theorem ByteVocab.mapM_referenceId_eq_some_iff (vocab : ByteVocab tokens) {ids : List TokenId}
    {texts : List (List UInt8)} :
    texts.mapM (referenceId tokens) = some ids ↔ Named T ids texts := by
  induction texts generalizing ids with
  | nil => cases ids <;> simp [Named]
  | cons t texts ih =>
    rw [List.mapM_cons, vocab.referenceId_eq built]
    constructor
    · intro h
      obtain ⟨id, hid, h⟩ := Option.bind_eq_some_iff.mp h
      obtain ⟨ids', hids', h⟩ := Option.bind_eq_some_iff.mp h
      cases h
      exact .cons hid (ih.mp hids')
    · intro h
      cases h with
      | cons hid htail => simp [hid, ih.mpr htail]

theorem Named.unique (hsize : tokens.length ≤ 2 ^ 32) {ids : List TokenId}
    {texts texts' : List (List UInt8)} (h : Named T ids texts) (h' : Named T ids texts') :
    texts = texts' := by
  induction h generalizing texts' with
  | nil =>
    cases h'
    rfl
  | cons hget _ ih =>
    cases h' with
    | cons hget' htail' =>
      have ht := (built.textOf_of_get hsize hget).symm.trans (built.textOf_of_get hsize hget')
      rw [Option.some.inj ht, ih htail']

end Simulation

/-! ## Stages of the reference -/

/-- Every piece is within the 64 bytes of a match, and no entry within them begins where the piece
does and is longer. -/
def LongestPieces (tokens : List String) (pieces : List (List UInt8)) : Prop :=
  ∀ l t r, pieces = l ++ t :: r → t.length ≤ 64 ∧
    ∀ longer, longer <+: (t :: r).flatten → t.length < longer.length → longer.length ≤ 64 →
      ¬ IsText tokens longer

/-- What merges can make of the text has at most 64 bytes. -/
def ShortMerges (merges : List String) (text : String) : Prop :=
  ∀ m ∈ merges, ∀ a b, mergePair m = some (a, b) →
    a ++ b <:+: bytesToGpt2Unicode (utf8 text) → (a ++ b).length ≤ 64

/-- The stages of the reference, from the characters on. -/
def Stage (merges : List String) (text : String) : List (List UInt8) → Prop :=
  PairMerge.Reduces (referenceRank merges) referenceJoin (charPieces text)

theorem stage_referencePieces (merges : List String) (text : String) :
    Stage merges text (referencePieces merges text) := PairMerge.reduces_normalizeFrom _ _

section Stages

variable {tokens : List String} {merges : List String} {text : String}
  {pieces : List (List UInt8)}

theorem flatten_charPieces (text : String) :
    (charPieces text).flatten = bytesToGpt2Unicode (utf8 text) := by
  rw [charPieces, ← List.flatMap_def, bytesToGpt2Unicode]

theorem Stage.flatten_eq (h : Stage merges text pieces) :
    pieces.flatten = bytesToGpt2Unicode (utf8 text) := by
  rw [← flatten_charPieces]
  induction h with
  | refl => rfl
  | tail _ hstep ih =>
    obtain ⟨l, a, b, c, r, rfl, rfl, -, hc⟩ := PairMerge.step_cases hstep
    obtain rfl : a ++ b = c := Option.some.inj hc
    simpa using ih

/-- Every piece of a stage is an entry. -/
theorem Stage.isText (h : Stage merges text pieces) (vocab : ByteVocab tokens)
    (mergesOver : MergesOver tokens merges) : ∀ t ∈ pieces, t ≠ [] ∧ IsText tokens t := by
  induction h with
  | refl =>
    intro t ht
    obtain ⟨b, -, rfl⟩ := List.mem_map.mp ht
    exact ⟨gpt2Bytes_ne_nil b, _, vocab.spells b, utf8_gpt2String b⟩
  | tail _ hstep ih =>
    obtain ⟨l, a, b, c, r, rfl, rfl, ⟨k, hk⟩, hc⟩ := PairMerge.step_cases hstep
    obtain rfl : a ++ b = c := Option.some.inj hc
    obtain ⟨m, hm, hpair⟩ := referenceRank_eq_some hk
    obtain ⟨x, y, hpair', -, -, hxy⟩ := mergesOver.closed m (List.mem_of_getElem? hm)
    rw [hpair] at hpair'
    cases hpair'
    intro t ht
    rcases List.mem_append.mp ht with ht | ht
    · exact ih t (by simp [ht])
    · rcases List.mem_cons.mp ht with rfl | ht
      · exact ⟨List.append_ne_nil_of_left_ne_nil (ih a (by simp)).1 b, hxy⟩
      · exact ih t (by simp [ht])

/-- A stage of longest pieces is the greedy cut. -/
theorem Stage.munch (h : Stage merges text pieces) (vocab : ByteVocab tokens)
    (mergesOver : MergesOver tokens merges) (hlongest : LongestPieces tokens pieces) :
    Munch (IsText tokens) 64 (bytesToGpt2Unicode (utf8 text)) pieces := by
  have hpieces := h.isText vocab mergesOver
  rw [← h.flatten_eq]
  exact .of_longest (fun t ht => (hpieces t ht).1) (fun t ht => (hpieces t ht).2) hlongest

/-- With short merges the reference has nothing to merge in the greedy cut. -/
theorem normalize_of_munch (mergesOver : MergesOver tokens merges)
    (hshort : ShortMerges merges text) {segs : List (List UInt8)}
    (hmunch : Munch (IsText tokens) 64 (bytesToGpt2Unicode (utf8 text)) segs) :
    PairMerge.normalize (referenceRank merges) referenceJoin segs = segs := by
  refine PairMerge.normalize_of_step_eq_none (PairMerge.step_eq_none_of_neighbours ?_)
  intro l a b r k hsegs hrank
  obtain ⟨m, hm, hpair⟩ := referenceRank_eq_some hrank
  have hmem := List.mem_of_getElem? hm
  obtain ⟨x, y, hpair', -, -, hxy⟩ := mergesOver.closed m hmem
  rw [hpair] at hpair'
  cases hpair'
  have hpieces : segs = l ++ [a, b] ++ r := by rw [hsegs, List.append_assoc]; rfl
  have hflat : [a, b].flatten = a ++ b := by simp
  have hlong := (hpieces ▸ hmunch).bound_lt_of_key (hflat ▸ hxy)
  rw [hflat] at hlong
  have hinfix : a ++ b <:+: bytesToGpt2Unicode (utf8 text) := by
    rw [← hmunch.flatten_eq, hsegs]
    exact ⟨l.flatten, r.flatten, by simp⟩
  exact absurd (hshort m hmem a b hpair hinfix) (Nat.not_le.mpr hlong)

end Stages

/-- Encoding gives the reference ids if some stage of the reference consists of longest pieces, and
unless merges can make more than 64 bytes of the text, exactly if its result does. In any case the
reference then has no cut inside a greedy match. -/
theorem encode_eq_reference_iff {tokens : List String} {scores types : List UInt32}
    {merges : List String} {T : Tokenizer}
    (hbuilt : fromGgufParts tokens scores types merges = .ok T) (vocab : ByteVocab tokens)
    (mergesOver : MergesOver tokens merges) (hsize : tokens.length ≤ 2 ^ 32)
    (hmerges : merges.length < 2 ^ 32) (text : String) :
    (∀ pieces, Stage merges text pieces → LongestPieces tokens pieces →
      T.encodeNoBos text = referenceBpe tokens merges text) ∧
    (ShortMerges merges text → (T.encodeNoBos text = referenceBpe tokens merges text ↔
      LongestPieces tokens (referencePieces merges text))) ∧
    ∃ segs, Munch (IsText tokens) 64 (bytesToGpt2Unicode (utf8 text)) segs ∧
      (T.encodeNoBos text = referenceBpe tokens merges text →
        PairMerge.Coarsens (referencePieces merges text) segs) := by
  have built := builtFrom_of_eq_ok hbuilt
  obtain ⟨ids, segs, hgreedy, hmunch, hnamed⟩ := vocab.initialTokenise_eq built text
  have hencode := built.encodeNoBos_eq hsize hgreedy hnamed
  have hmerged := mergesOver.named_normalize built hsize vocab hmerges hnamed
  have hiff : T.encodeNoBos text = referenceBpe tokens merges text ↔
      referencePieces merges text =
        PairMerge.normalize (referenceRank merges) referenceJoin segs := by
    rw [hencode, eq_comm, referenceBpe, vocab.mapM_referenceId_eq_some_iff built]
    exact ⟨fun href => href.unique built hsize hmerged, fun heq => heq ▸ hmerged⟩
  have henough : ∀ pieces, Stage merges text pieces → LongestPieces tokens pieces →
      T.encodeNoBos text = referenceBpe tokens merges text := by
    intro pieces hstage hlongest
    rw [hiff, hmunch.unique (hstage.munch vocab mergesOver hlongest)]
    exact PairMerge.normalize_of_reduces hstage
  refine ⟨henough, fun hshort => ⟨fun heq => ?_, ?_⟩, segs, hmunch, fun heq => ?_⟩
  · have hpieces := hiff.mp heq
    rw [normalize_of_munch mergesOver hshort hmunch] at hpieces
    rw [hpieces]
    exact fun l t r => hmunch.longest
  · exact henough _ (stage_referencePieces merges text)
  · rw [hiff.mp heq]
    exact PairMerge.coarsens_normalizeFrom (fun _ _ _ h => (Option.some.inj h).symm) _ segs

/-- The spelled bytes and one longer token. -/
def pairTokens : List String := byteTokens ++ ["ab"]

theorem byteVocab_pairTokens : ByteVocab pairTokens :=
  byteVocab_append (by decide) (by decide) (by decide)

theorem isText_pairTokens (b : UInt8) : IsText pairTokens (gpt2Bytes b) :=
  ⟨gpt2String b, byteVocab_pairTokens.spells b, utf8_gpt2String b⟩

theorem isText_ab : IsText pairTokens [97, 98] := ⟨"ab", by simp [pairTokens], by decide⟩

theorem munch_ab : Munch (IsText pairTokens) 64 (bytesToGpt2Unicode (utf8 "ab")) [[97, 98]] := by
  have hspelled : bytesToGpt2Unicode (utf8 "ab") = [97, 98] ++ [] := by
    have hself : bytesToGpt2Unicode [97, 98] = [97, 98] :=
      (bytesToGpt2Unicode_eq_self_iff _).mpr (by simp)
    rw [show utf8 "ab" = [97, 98] by decide, hself, List.append_nil]
  rw [hspelled]
  refine .cons (by simp) isText_ab (by simp) ?_ .nil
  intro longer hpart hlt
  exact absurd hpart.length_le (by simpa using hlt)

theorem encode_eq_reference_iff_ab :
    ∃ T, fromGgufParts pairTokens [] [] ["a b"] = .ok T ∧
      (∀ pieces, Stage ["a b"] "ab" pieces → LongestPieces pairTokens pieces →
        T.encodeNoBos "ab" = referenceBpe pairTokens ["a b"] "ab") ∧
      (ShortMerges ["a b"] "ab" → (T.encodeNoBos "ab" = referenceBpe pairTokens ["a b"] "ab" ↔
        LongestPieces pairTokens (referencePieces ["a b"] "ab"))) ∧
      ∃ segs, Munch (IsText pairTokens) 64 (bytesToGpt2Unicode (utf8 "ab")) segs ∧
        (T.encodeNoBos "ab" = referenceBpe pairTokens ["a b"] "ab" →
          PairMerge.Coarsens (referencePieces ["a b"] "ab") segs) := by
  obtain ⟨T, hT⟩ := exists_fromGgufParts_eq_ok pairTokens [] [] ["a b"]
    (fun h => absurd rfl h) (by simp)
  have ha : gpt2Bytes 97 = [97] := by decide +kernel
  have hb : gpt2Bytes 98 = [98] := by decide +kernel
  have mergesOver : MergesOver pairTokens ["a b"] := by
    refine ⟨by simp, ?_⟩
    intro m hm
    rw [List.mem_singleton.mp hm]
    exact ⟨[97], [98], by decide, ha ▸ isText_pairTokens 97, hb ▸ isText_pairTokens 98, isText_ab⟩
  exact ⟨T, hT, encode_eq_reference_iff hT byteVocab_pairTokens mergesOver
    (by simp [pairTokens, byteTokens]) (by simp) "ab"⟩

/-- Without merges the reference keeps the characters, but the greedy cut takes `ab`. -/
theorem not_encode_eq_reference :
    ¬ ∀ (tokens : List String) (scores types : List UInt32) (merges : List String) (T : Tokenizer),
      fromGgufParts tokens scores types merges = .ok T → ByteVocab tokens →
      MergesOver tokens merges → ∀ text : String,
      T.encodeNoBos text = referenceBpe tokens merges text := by
  intro h
  have hsize : pairTokens.length ≤ 2 ^ 32 := by simp [pairTokens, byteTokens]
  obtain ⟨T, hT⟩ := exists_fromGgufParts_eq_ok pairTokens [] [] []
    (fun h => absurd rfl h) (by simp)
  have built := builtFrom_of_eq_ok hT
  have heq := h _ _ _ _ T hT byteVocab_pairTokens ⟨by simp, by simp⟩ "ab"
  obtain ⟨ids, segs, hgreedy, hmunch, hnamed⟩ := byteVocab_pairTokens.initialTokenise_eq built "ab"
  rw [hmunch.unique munch_ab] at hnamed
  rw [built.encodeNoBos_eq hsize hgreedy hnamed, eq_comm, referenceBpe,
    byteVocab_pairTokens.mapM_referenceId_eq_some_iff built] at heq
  have hone : (PairMerge.normalize T.rankOf T.joinOf ids).length = 1 := by
    cases hnamed with
    | cons _ htail =>
      cases htail
      rfl
  have htwo : (referencePieces [] "ab").length = 2 := by decide +kernel
  rw [heq.length_eq, htwo] at hone
  exact absurd hone (by decide)

end QuantumFlow
