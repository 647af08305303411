import QuantumFlow.Generate.Template
import QuantumFlow.Tokenizer.Fallback
import QuantumFlow.Tokenizer.Segmentation

/-!
# Control tokens in a user message

A control token in the message part of a turn can only come from the greedy cut of the message or
from a merge. The cut looks control tokens up like any other, so a message that spells one is
encoded with its id. Merges hardly ever add one: where every place of the cut has a match, they
make no text of up to 64 bytes that the cut has not taken already.
-/

namespace QuantumFlow

/-- A control token by type, or at one of the fixed places. -/
def Tokenizer.IsControl (T : Tokenizer) (id : TokenId) : Prop :=
  id ∈ [TOKEN_BOS, TOKEN_EOS, TOKEN_PAD, T_START_HEADER, T_END_HEADER, TOKEN_EOT] ∨
    ∃ entry, T.vocab[id.toNat]? = some entry ∧ entry.tokenType = 3

/-- No id is a control token. -/
def Clean (T : Tokenizer) (ids : List TokenId) : Prop := ∀ id ∈ ids, ¬ T.IsControl id

/-- No part of the cut is a control token or can be merged to one. -/
def MakesNoControl (T : Tokenizer) (cut : List TokenId) : Prop :=
  ∀ group c, group <:+: cut → PairMerge.Derives T.rankOf T.joinOf group c → ¬ T.IsControl c

/-- No two neighbouring parts of the cut can be merged to a ranked pair with a control token. -/
def KeepsControl (T : Tokenizer) (cut : List TokenId) : Prop :=
  ∀ xs ys a b k, xs ++ ys <:+: cut → PairMerge.Derives T.rankOf T.joinOf xs a →
    PairMerge.Derives T.rankOf T.joinOf ys b → T.rankOf a b = some k →
    ¬ T.IsControl a ∧ ¬ T.IsControl b

/-- What a ranked pair joins to, where the text spells it, has at most 64 bytes. -/
def ShortJoins (T : Tokenizer) (text : String) : Prop :=
  ∀ a b c k t, T.rankOf a b = some k → T.joinOf a b = some c → T.textOf c = some t →
    t <:+: bytesToGpt2Unicode (utf8 text) → t.length ≤ 64

/-! ## From the cut to the message part -/

section Part

variable {T : Tokenizer} {cut : List TokenId}

/-- Merging keeps the control tokens that no ranked pair has. -/
theorem mem_normalize_of_isControl (hkeeps : KeepsControl T cut) {id : TokenId} (hid : id ∈ cut)
    (hcontrol : T.IsControl id) : id ∈ PairMerge.normalize T.rankOf T.joinOf cut := by
  refine (PairMerge.normalizeFrom_induction (P := fun ids =>
    (∃ groups, PairMerge.Parts T.rankOf T.joinOf cut ids groups) ∧ id ∈ ids) ?_ cut.length
    ⟨PairMerge.exists_parts_self cut, hid⟩).2
  rintro xs ys hstep ⟨⟨groups, hgroups⟩, hmem⟩
  obtain ⟨l, a, b, c, r, ga, gb, rfl, rfl, hinfix, ha, hb, ⟨k, hk⟩, -, hparts⟩ :=
    hgroups.step hstep
  refine ⟨hparts, ?_⟩
  obtain ⟨hca, hcb⟩ := hkeeps ga gb a b k hinfix ha hb hk
  have hane : id ≠ a := fun h => hca (h ▸ hcontrol)
  have hbne : id ≠ b := fun h => hcb (h ▸ hcontrol)
  have hrest : id ∈ l ∨ id ∈ r := by simpa [hane, hbne] using hmem
  rcases hrest with hrest | hrest <;> simp [hrest]

/-- The message part is the merged cut. -/
theorem exists_cut_of_messagePart {message : String} {part : List TokenId}
    (hpart : messagePart message T = some part) :
    ∃ cut, T.initialTokenise ("\n\n" ++ message) = some cut ∧
      T.Cut (utf8 ("\n\n" ++ message)) 0 cut ∧
      part = PairMerge.normalize T.rankOf T.joinOf cut := by
  obtain ⟨cut, hcut, h⟩ := Option.bind_eq_some_iff.mp hpart
  obtain ⟨out, hout, h⟩ := Option.bind_eq_some_iff.mp h
  cases h
  exact ⟨cut, hcut, Tokenizer.cut_of_initialTokenise hcut, Tokenizer.eq_normalize_of_bpeMerge hout⟩

end Part

section Matched

variable {T : Tokenizer}

/-- Where longest matches cut the rest of the spelling, the cut has their ids. -/
theorem Tokenizer.Cut.named {orig : List UInt8} {i : ℕ} {ids : List TokenId}
    {segs : List (List UInt8)} (h : T.Cut orig i ids)
    (hmunch : Munch T.IsKey 64 ((bytesToGpt2Unicode orig).drop i) segs) : Named T ids segs := by
  induction h generalizing segs with
  | done atEnd =>
    rw [List.drop_eq_nil_of_le atEnd] at hmunch
    obtain rfl := hmunch.unique .nil
    exact .nil
  | @entry i len id ids nonempty within bound found longest _ ih =>
    obtain ⟨seg, segs, rfl, hpos, hshort, hin, htake, hkey, hlongest, htail⟩ :=
      hmunch.exists_cons_of_drop (by omega)
    -- both are the longest entry there
    have hlen : len = seg.length := by
      rcases Nat.lt_trichotomy len seg.length with hlt | heq | hgt
      · obtain ⟨id', hid'⟩ := hkey
        have hnone := longest seg.length hlt hshort hin
        rw [htake, hid'] at hnone
        cases hnone
      · exact heq
      · exact absurd ⟨id, found⟩ (hlongest len hgt bound within)
    subst hlen
    rw [htake] at found
    exact .cons found (ih htail)
  | @byte i pos c ids first missing _ _ _ _ =>
    obtain ⟨seg, segs, rfl, hpos, hshort, hin, htake, ⟨id, hid⟩, -, -⟩ :=
      hmunch.exists_cons_of_drop (List.getElem?_eq_some_iff.mp first).1
    have hnone := missing seg.length hpos hshort hin
    rw [htake, hid] at hnone
    cases hnone

variable {tokens : List String} {scores types : List UInt32} {merges : List String}
  (built : BuiltFrom tokens scores types merges T) (hsize : tokens.length ≤ 2 ^ 32)
include built hsize

/-- Neighbours in a cut by longest matches are not merged, unless to more than 64 bytes. -/
theorem BuiltFrom.normalize_of_munch {text : String} {ids : List TokenId}
    {segs : List (List UInt8)} (hnamed : Named T ids segs)
    (hmunch : Munch T.IsKey 64 (bytesToGpt2Unicode (utf8 text)) segs)
    (hshort : ShortJoins T text) : PairMerge.normalize T.rankOf T.joinOf ids = ids := by
  refine PairMerge.normalize_of_step_eq_none (PairMerge.step_eq_none_of_neighbours ?_)
  rintro l a b r k rfl hrank
  obtain ⟨tl, t₁, -, ht₁, rfl⟩ := PairMerge.forall₂_append_left hnamed
  cases ht₁ with
  | @cons _ ta _ t₂ ha ht₂ =>
    cases ht₂ with
    | @cons _ tb _ tr hb _ =>
      cases hjoin : T.joinOf a b with
      | none => rfl
      | some c =>
        have hget : T.tokenToId.get (ta ++ tb) = some c := by
          rw [Tokenizer.joinOf, built.textOf_of_get hsize ha, built.textOf_of_get hsize hb] at hjoin
          exact hjoin
        have hinfix : ta ++ tb <:+: bytesToGpt2Unicode (utf8 text) := by
          rw [← hmunch.flatten_eq]
          exact ⟨tl.flatten, tr.flatten, by simp⟩
        have hle := hshort a b c k _ hrank hjoin (built.textOf_of_get hsize hget) hinfix
        have hflat : [ta, tb].flatten = ta ++ tb := by simp
        have hpieces : tl ++ ta :: tb :: tr = tl ++ [ta, tb] ++ tr := by simp
        have hlong := (hpieces ▸ hmunch).bound_lt_of_key (hflat ▸ ⟨c, hget⟩)
        rw [hflat] at hlong
        exact absurd hle (Nat.not_le.mpr hlong)

end Matched

/-- The message part is clean if no part of the cut of the message is or makes a control token, and
where ranked pairs leave control tokens alone, only if none is in the cut. Where every place of the
cut has a match and merges can make no more than 64 bytes of the message, it is clean exactly if no
control token is a longest match. Both builders put the message part between lists that do not
depend on the message. -/
theorem not_isControl_messagePart {tokens : List String} {scores types : List UInt32}
    {merges : List String} {T : Tokenizer}
    (hbuilt : fromGgufParts tokens scores types merges = .ok T) {message : String}
    {part : List TokenId} (hpart : messagePart message T = some part) :
    (∃ cut, T.Cut (utf8 ("\n\n" ++ message)) 0 cut ∧ (MakesNoControl T cut → Clean T part) ∧
      (KeepsControl T cut → Clean T part → Clean T cut)) ∧
    (tokens.length ≤ 2 ^ 32 → ShortJoins T ("\n\n" ++ message) →
      ∀ segs, Munch T.IsKey 64 (bytesToGpt2Unicode (utf8 ("\n\n" ++ message))) segs →
        (Clean T part ↔ ∀ t ∈ segs, ∀ id, T.tokenToId.get t = some id → ¬ T.IsControl id)) ∧
    Frames buildChatTokens T ∧ Frames buildFollowupChatTokens T := by
  have built := builtFrom_of_eq_ok hbuilt
  obtain ⟨cut, -, hcut, rfl⟩ := exists_cut_of_messagePart hpart
  refine ⟨⟨cut, hcut, ?_, ?_⟩, ?_, frames_buildChatTokens T, frames_buildFollowupChatTokens T⟩
  · intro hmakes id hid
    obtain ⟨group, hinfix, hderives⟩ := PairMerge.exists_derives_of_mem hid
    exact hmakes group id hinfix hderives
  · intro hkeeps hclean id hid hcontrol
    exact hclean id (mem_normalize_of_isControl hkeeps hid hcontrol) hcontrol
  · intro hsize hshort segs hmunch
    have hnamed : Named T cut segs := hcut.named hmunch
    rw [built.normalize_of_munch hsize hnamed hmunch hshort]
    constructor
    · intro hclean t ht id hget
      obtain ⟨id', hid', hget'⟩ := hnamed.exists_id ht
      rw [hget] at hget'
      cases hget'
      exact hclean id hid'
    · intro hclean id hid
      obtain ⟨t, ht, hget⟩ := hnamed.exists_text hid
      exact hclean t ht id hget

/-! ## A forged turn end -/

section Built

variable {tokens : List String} {scores types : List UInt32} {merges : List String}
  {T : Tokenizer} (built : BuiltFrom tokens scores types merges T)
include built

/-- Which ids are control tokens can be read off the vocabulary. -/
theorem BuiltFrom.isControl_iff (id : TokenId) : T.IsControl id ↔
    id ∈ [TOKEN_BOS, TOKEN_EOS, TOKEN_PAD, T_START_HEADER, T_END_HEADER, TOKEN_EOT] ∨
      id.toNat < tokens.length ∧ types.getD id.toNat 1 = 3 := by
  refine or_congr_right ?_
  rw [built.vocab, buildVocab, List.getElem?_mapIdx]
  constructor
  · rintro ⟨entry, hentry, htype⟩
    obtain ⟨tok, htok, rfl⟩ := Option.map_eq_some_iff.mp hentry
    exact ⟨(List.getElem?_eq_some_iff.mp htok).1, htype⟩
  · rintro ⟨hlt, htype⟩
    rw [List.getElem?_eq_getElem hlt]
    exact ⟨_, rfl, htype⟩

theorem BuiltFrom.toNat_lt_of_get (hsize : tokens.length ≤ 2 ^ 32) {t : List UInt8} {id : TokenId}
    (h : T.tokenToId.get t = some id) :
    ∃ hlt : id.toNat < tokens.length, tokenText (tokens.get ⟨id.toNat, hlt⟩) = t := by
  have htext := built.textOf_of_get hsize h
  rw [built.textOf_eq] at htext
  obtain ⟨tok, htok, rfl⟩ := Option.map_eq_some_iff.mp htext
  obtain ⟨hlt, rfl⟩ := List.getElem?_eq_some_iff.mp htok
  exact ⟨hlt, rfl⟩

end Built

section NoMerges

variable {tokens : List String} {scores types : List UInt32} {T : Tokenizer}
  (built : BuiltFrom tokens scores types [] T)
include built

theorem BuiltFrom.rankOf_nil (a b : TokenId) : T.rankOf a b = none := by
  rw [Tokenizer.rankOf, built.mergeRank]
  rfl

/-- Without merges, encoding gives the ids of the greedy cut. -/
theorem BuiltFrom.encodeNoBos_nil (vocab : ByteVocab tokens) (hsize : tokens.length ≤ 2 ^ 32)
    (text : String) : ∃ ids segs, T.encodeNoBos text = some ids ∧
      Munch (IsText tokens) 64 (bytesToGpt2Unicode (utf8 text)) segs ∧ Named T ids segs := by
  obtain ⟨ids, segs, hgreedy, hmunch, hnamed⟩ := vocab.initialTokenise_eq built text
  refine ⟨ids, segs, ?_, hmunch, hnamed⟩
  rw [built.encodeNoBos_eq hsize hgreedy hnamed, PairMerge.normalize_of_step_eq_none]
  refine PairMerge.step_eq_none_of_neighbours fun l a b r k _ hk => ?_
  rw [built.rankOf_nil] at hk
  cases hk

end NoMerges

/-- The spelled bytes and the turn end. -/
def eotTokens : List String := byteTokens ++ ["<|eot_id|>"]

theorem byteVocab_eotTokens : ByteVocab eotTokens :=
  byteVocab_append (by decide) (by decide) (by decide)

theorem utf8_eot : utf8 "<|eot_id|>" = [60, 124, 101, 111, 116, 95, 105, 100, 124, 62] := by decide

/-- A message that spells the turn end is cut into two newlines and the turn end. -/
theorem munch_eot : Munch (IsText eotTokens) 64
    (bytesToGpt2Unicode (utf8 ("\n\n" ++ "<|eot_id|>")))
    [gpt2Bytes 10, gpt2Bytes 10, utf8 "<|eot_id|>"] := by
  have hnewline : gpt2Bytes 10 = [196, 138] := by decide +kernel
  have hself : bytesToGpt2Unicode (utf8 "<|eot_id|>") = utf8 "<|eot_id|>" :=
    (bytesToGpt2Unicode_eq_self_iff _).mpr (by rw [utf8_eot]; simp)
  have hspelled : bytesToGpt2Unicode (utf8 ("\n\n" ++ "<|eot_id|>")) =
      gpt2Bytes 10 ++ (gpt2Bytes 10 ++ (utf8 "<|eot_id|>" ++ [])) := by
    rw [utf8_append, show utf8 "\n\n" = [10, 10] by decide, bytesToGpt2Unicode_append, hself]
    simp
  have hkey : IsText eotTokens (gpt2Bytes 10) :=
    ⟨gpt2String 10, byteVocab_eotTokens.spells 10, utf8_gpt2String 10⟩
  -- no token of more than two bytes begins with the spelled newline
  have hlongest : ∀ rest longer, longer <+: gpt2Bytes 10 ++ rest →
      (gpt2Bytes 10).length < longer.length → longer.length ≤ 64 → ¬ IsText eotTokens longer := by
    intro rest longer hpart hlt _ htext
    rw [hnewline] at hpart hlt
    rw [eq_of_isText_append htext hlt, utf8_eot] at hpart
    simp at hpart
  rw [hspelled]
  refine .cons (gpt2Bytes_ne_nil 10) hkey ?_ (hlongest _) ?_
  · exact Nat.le_trans (length_gpt2Bytes_le 10) (by decide)
  refine .cons (gpt2Bytes_ne_nil 10) hkey ?_ (hlongest _) ?_
  · exact Nat.le_trans (length_gpt2Bytes_le 10) (by decide)
  refine .cons ?_ ⟨"<|eot_id|>", by simp [eotTokens], rfl⟩ ?_ ?_ .nil
  · simp [utf8_eot]
  · simp [utf8_eot]
  · intro longer hpart hlt
    rw [List.append_nil] at hpart
    exact absurd hpart.length_le (Nat.not_le.mpr hlt)

/-- The types of some normal tokens and of a control token behind them. -/
theorem getD_types (n i : ℕ) : (List.replicate n 1 ++ [3] : List UInt32).getD i 1 =
    if i = n then 3 else 1 := by
  rw [List.getD_eq_getElem?_getD]
  rcases Nat.lt_trichotomy i n with hlt | rfl | hgt
  · rw [List.getElem?_append_left (by rwa [List.length_replicate]), List.getElem?_replicate,
      if_pos hlt, if_neg (Nat.ne_of_lt hlt)]
    rfl
  · rw [List.getElem?_append_right (by rw [List.length_replicate]), List.length_replicate,
      Nat.sub_self, if_pos rfl]
    rfl
  · rw [List.getElem?_eq_none (by simp; omega), if_neg (Nat.ne_of_gt hgt)]
    rfl

theorem getD_types_ne_six (n i : ℕ) : (List.replicate n 1 ++ [3] : List UInt32).getD i 1 ≠ 6 := by
  rw [getD_types]
  split <;> decide

theorem eq_of_getD_types {n i : ℕ}
    (h : (List.replicate n 1 ++ [3] : List UInt32).getD i 1 = 3) : i = n := by
  rw [getD_types] at h
  by_contra hne
  rw [if_neg hne] at h
  exact absurd h (by decide)

/-- The turn end, behind the text that it is merged from. -/
def mergedEotTokens : List String := byteTokens ++ ["<|eot_id|", "<|eot_id|>"]

theorem byteVocab_mergedEotTokens : ByteVocab mergedEotTokens :=
  byteVocab_append (by decide) (by decide) (by decide)

/-- A merge that makes the turn end does no harm to a message that does not spell it. -/
theorem not_isControl_messagePart_hi :
    ∃ T part, fromGgufParts mergedEotTokens [] (List.replicate 257 1 ++ [3]) ["<|eot_id| >"] =
      .ok T ∧ messagePart "hi" T = some part ∧ Clean T part := by
  obtain ⟨T, hT⟩ := exists_fromGgufParts_eq_ok mergedEotTokens []
    (List.replicate 257 1 ++ [3]) ["<|eot_id| >"] (fun h => absurd rfl h)
    (fun i _ => getD_types_ne_six 257 i)
  have built := builtFrom_of_eq_ok hT
  have hlen : mergedEotTokens.length = 258 := by simp [mergedEotTokens, byteTokens]
  have hsize : mergedEotTokens.length ≤ 2 ^ 32 := by omega
  have hspelled : (bytesToGpt2Unicode (utf8 ("\n\n" ++ "hi"))).length = 6 := by decide +kernel
  obtain ⟨ids, segs, hids, hmunch, hnamed⟩ :=
    built.initialTokenise_eq (byteVocab_mergedEotTokens.spellsBytes built) ("\n\n" ++ "hi")
  refine ⟨T, _, hT, built.encodeNoBos_eq hsize hids hnamed,
    ((not_isControl_messagePart hT (built.encodeNoBos_eq hsize hids hnamed)).2.1 hsize ?_ segs
      hmunch).mpr ?_⟩
  · intro a b c k t _ _ _ hinfix
    have hle := hinfix.length_le
    omega
  · intro t ht id hget
    -- every match is shorter than the turn end
    have hshort : t.length ≤ 6 := by
      rw [← hspelled, ← hmunch.flatten_eq]
      exact (List.sublist_flatten_of_mem ht).length_le
    obtain ⟨hlt, htext⟩ := built.toNat_lt_of_get hsize hget
    rw [built.isControl_iff]
    rintro (hfixed | ⟨-, htype⟩)
    · have hbound : id.toNat < 258 := by omega
      simp only [List.mem_cons, List.not_mem_nil, or_false] at hfixed
      rcases hfixed with rfl | rfl | rfl | rfl | rfl | rfl <;> exact absurd hbound (by decide)
    · have hindex := eq_of_getD_types htype
      have hlast : mergedEotTokens.get ⟨id.toNat, hlt⟩ = "<|eot_id|>" := by
        simp [hindex, mergedEotTokens, byteTokens]
      rw [tokenText, byteVocab_mergedEotTokens.noRaw _ (List.get_mem _ _), hlast] at htext
      rw [← htext, utf8_eot] at hshort
      exact absurd hshort (by decide)

/-- Normal bytes, and a control token after them. -/
def eotTypes : List UInt32 := List.replicate 256 1 ++ [3]

/-- A message `<|eot_id|>` is encoded with the control token of that text. -/
theorem not_clean_messagePart :
    ¬ ∀ (tokens : List String) (scores types : List UInt32) (merges : List String) (T : Tokenizer),
      fromGgufParts tokens scores types merges = .ok T → ∀ (message : String) (part : List TokenId),
      messagePart message T = some part → ∀ id ∈ part, ¬ T.IsControl id := by
  intro h
  obtain ⟨T, hT⟩ := exists_fromGgufParts_eq_ok eotTokens [] eotTypes []
    (fun h => absurd rfl h) (fun i _ => getD_types_ne_six 256 i)
  have built := builtFrom_of_eq_ok hT
  have hlen : eotTokens.length = 257 := by simp [eotTokens, byteTokens]
  have hsize : eotTokens.length ≤ 2 ^ 32 := by omega
  obtain ⟨part, segs, hpart, hmunch, hnamed⟩ :=
    built.encodeNoBos_nil byteVocab_eotTokens hsize ("\n\n" ++ "<|eot_id|>")
  obtain rfl := hmunch.unique munch_eot
  obtain ⟨id, hid, hget⟩ : ∃ id ∈ part, T.tokenToId.get (utf8 "<|eot_id|>") = some id := by
    rcases hnamed with _ | ⟨-, _ | ⟨-, _ | ⟨hget, -⟩⟩⟩
    exact ⟨_, by simp, hget⟩
  refine h _ _ _ _ T hT "<|eot_id|>" part hpart id hid ((built.isControl_iff id).mpr (Or.inr ?_))
  obtain ⟨hlt, htext⟩ := built.toNat_lt_of_get hsize hget
  rw [tokenText, byteVocab_eotTokens.noRaw _ (List.get_mem _ _)] at htext
  have hlast : eotTokens.get ⟨256, by omega⟩ = "<|eot_id|>" := by simp [eotTokens, byteTokens]
  have hindex := List.nodup_iff_injective_get.mp byteVocab_eotTokens.nodup
    ((utf8_injective htext).trans hlast.symm)
  have hnat : id.toNat = 256 := congrArg Fin.val hindex
  exact ⟨hlt, by rw [hnat]; decide⟩

end QuantumFlow
