import QuantumFlow.Foundation.Lossy
import QuantumFlow.Generate.Capture

/-!
# Streaming a reply and decoding it

A reply is printed or captured a token at a time, through `decodeOne`; `decode` turns all its
tokens into text at once. The two differ in three places: `decode` shows the text of the
end-of-turn token, `decodeOne` puts spelled spaces and newlines back, and `decodeOne` replaces a
character that is cut between tokens. They agree exactly when none of the three happens.
-/

namespace QuantumFlow

namespace Tokenizer

variable (T : Tokenizer)

/-- The concatenated texts of the single tokens. -/
def streamed (ids : List TokenId) : String :=
  ids.foldl (fun text id => text ++ (T.decodeOne id).getD "") ""

/-- The bytes an id shows, none for special and control ids. -/
def shownText (id : TokenId) : Option (List UInt8) :=
  if id = TOKEN_BOS ∨ id = TOKEN_EOS ∨ id = TOKEN_PAD then none
  else ((T.vocab[id.toNat]?).filter fun entry => entry.tokenType ≠ 3).map VocabEntry.text

/-- Some byte list that spells a space or a newline. -/
def SpellsBlank (bs : List UInt8) : Prop :=
  String.utf8EncodeChar '\u0120' <:+: bs ∨ String.utf8EncodeChar '\u010a' <:+: bs

/-- The end-of-turn token shows nothing, no token shows a spelled space or newline, and no token
ends inside a character that another one goes on with. -/
structure StreamsWhole : Prop where
  eot : ∀ text, T.shownText TOKEN_EOT = some text → text = []
  blank : ∀ id text, T.shownText id = some text → ¬ SpellsBlank text
  whole : ∀ id id' x y, T.shownText id = some x → T.shownText id' = some y → ¬ Joins x y

/-! ## Both decoders, over the shown texts -/

/-- The spelled space and newline are put back. -/
def unspell (c : Char) : Char := if c = '\u0120' then ' ' else if c = '\u010a' then '\n' else c

variable {T}

theorem decodedBytes_eq (id : TokenId) : T.decodedBytes id = (T.shownText id).getD [] := by
  unfold decodedBytes shownText
  split
  · rfl
  · cases T.vocab[id.toNat]? with
    | none => rfl
    | some entry => by_cases h : entry.tokenType = 3 <;> simp [h, Option.filter]

theorem decodeOne_eq {id : TokenId} (hid : id ≠ TOKEN_EOT) : T.decodeOne id =
    (T.shownText id).map fun text => String.ofList ((lossy text).map unspell) := by
  unfold decodeOne shownText
  simp only [hid, false_or]
  split
  · rfl
  · cases T.vocab[id.toNat]? with
    | none => rfl
    | some entry =>
      by_cases h : entry.tokenType = 3
      · simp [h, Option.filter]
      · simp [h, Option.filter, fromUtf8Lossy_eq]
        rfl

theorem toList_decodeOne {id : TokenId} (hid : id = TOKEN_EOT → T.decodedBytes id = []) :
    ((T.decodeOne id).getD "").toList = (lossy (T.decodedBytes id)).map unspell := by
  by_cases heot : id = TOKEN_EOT
  · rw [hid heot, heot]
    simp [decodeOne]
  · rw [decodeOne_eq heot, decodedBytes_eq]
    cases T.shownText id <;> simp

theorem toList_foldl_append (f : TokenId → String) (ids : List TokenId) (text : String) :
    (ids.foldl (fun text id => text ++ f id) text).toList =
      text.toList ++ ids.flatMap fun id => (f id).toList := by
  induction ids generalizing text with
  | nil => simp
  | cons id ids ih => simp [ih]

theorem toList_streamed {ids : List TokenId}
    (heot : TOKEN_EOT ∈ ids → T.decodedBytes TOKEN_EOT = []) :
    (T.streamed ids).toList = ((ids.map T.decodedBytes).flatMap lossy).map unspell := by
  rw [streamed, toList_foldl_append, List.map_flatMap, List.flatMap_map]
  apply List.flatMap_congr
  intro id hid
  exact toList_decodeOne fun h => h ▸ heot (h ▸ hid)

theorem toList_decode (ids : List TokenId) :
    (T.decode ids).toList = lossy (ids.map T.decodedBytes).flatten := by
  rw [decode, getD_fromUtf8, List.flatMap_def]
  simp

/-! ## When they agree -/

theorem map_unspell_eq_iff {cs : List Char} :
    cs.map unspell = cs ↔ '\u0120' ∉ cs ∧ '\u010a' ∉ cs := by
  have hchar : ∀ c, unspell c = c ↔ c ≠ '\u0120' ∧ c ≠ '\u010a' := by
    intro c
    unfold unspell
    split
    · rename_i h
      simp [h]
    · split
      · rename_i h
        simp [h]
      · simp_all
  induction cs with
  | nil => simp
  | cons c cs ih =>
    simp only [List.map_cons, List.cons_eq_cons, hchar, ih, List.mem_cons, not_or, ne_eq]
    grind

theorem spellsBlank_iff {bs : List UInt8} :
    SpellsBlank bs ↔ '\u0120' ∈ lossy bs ∨ '\u010a' ∈ lossy bs := by
  rw [SpellsBlank, mem_lossy_iff (by decide), mem_lossy_iff (by decide)]

/-- For ids without a shown end-of-turn text, streaming is decoding exactly when nothing shown
joins and nothing spells a blank. -/
theorem streamed_eq_decode_iff_of_eot {ids : List TokenId}
    (heot : TOKEN_EOT ∈ ids → T.decodedBytes TOKEN_EOT = []) :
    T.streamed ids = T.decode ids ↔
      ¬ Seam (ids.map T.decodedBytes) ∧ ∀ id ∈ ids, ¬ SpellsBlank (T.decodedBytes id) := by
  rw [← String.toList_inj, toList_streamed heot, toList_decode]
  have hblank : (((ids.map T.decodedBytes).flatMap lossy).map unspell =
      (ids.map T.decodedBytes).flatMap lossy) ↔
        ∀ id ∈ ids, ¬ SpellsBlank (T.decodedBytes id) := by
    rw [map_unspell_eq_iff]
    simp only [spellsBlank_iff, List.mem_flatMap, List.mem_map, exists_exists_and_eq_and,
      not_exists, not_and, not_or]
    exact ⟨fun h id hid => ⟨h.1 id hid, h.2 id hid⟩,
      fun h => ⟨fun id hid => (h id hid).1, fun id hid => (h id hid).2⟩⟩
  constructor
  · intro h
    have hseam : ¬ Seam (ids.map T.decodedBytes) := by
      intro hseam
      have hlt := length_lossy_flatten_lt hseam
      rw [← h, List.length_map] at hlt
      exact Nat.lt_irrefl _ hlt
    rw [lossy_flatten hseam] at h
    exact ⟨hseam, hblank.mp h⟩
  · rintro ⟨hseam, h⟩
    rw [lossy_flatten hseam]
    exact hblank.mpr h

theorem not_joins_nil_left (y : List UInt8) : ¬ Joins [] y := by
  rintro ⟨p, b, bs, hne, hp, -, -⟩
  exact hne (List.suffix_nil.mp hp)

theorem not_joins_nil_right (x : List UInt8) : ¬ Joins x [] := by
  rintro ⟨p, b, bs, -, -, h, -⟩
  cases h

theorem not_spellsBlank_nil : ¬ SpellsBlank [] := by
  rw [spellsBlank_iff]
  simp

namespace StreamsWhole

variable (h : T.StreamsWhole)
include h

theorem decodedBytes_eot : T.decodedBytes TOKEN_EOT = [] := by
  rw [decodedBytes_eq]
  cases htext : T.shownText TOKEN_EOT with
  | none => rfl
  | some text => exact h.eot text htext

theorem not_spellsBlank (id : TokenId) : ¬ SpellsBlank (T.decodedBytes id) := by
  rw [decodedBytes_eq]
  cases htext : T.shownText id with
  | none => exact not_spellsBlank_nil
  | some text => exact h.blank id text htext

theorem not_joins (id id' : TokenId) : ¬ Joins (T.decodedBytes id) (T.decodedBytes id') := by
  rw [decodedBytes_eq, decodedBytes_eq]
  cases hx : T.shownText id with
  | none => exact not_joins_nil_left _
  | some x =>
    cases hy : T.shownText id' with
    | none => exact not_joins_nil_right _
    | some y => exact h.whole id id' x y hx hy

theorem streamed_eq_decode (ids : List TokenId) : T.streamed ids = T.decode ids := by
  rw [streamed_eq_decode_iff_of_eot fun _ => h.decodedBytes_eot]
  refine ⟨not_seam_of_forall ?_, fun id _ => h.not_spellsBlank id⟩
  intro x hx y hy
  obtain ⟨id, -, rfl⟩ := List.mem_map.mp hx
  obtain ⟨id', -, rfl⟩ := List.mem_map.mp hy
  exact h.not_joins id id'

end StreamsWhole

/-- Agreement on one and two ids is enough for the three conditions. -/
theorem streamsWhole_of_forall (h : ∀ ids, T.streamed ids = T.decode ids) : T.StreamsWhole := by
  have heot : T.decodedBytes TOKEN_EOT = [] := by
    have hdecode := toList_decode (T := T) [TOKEN_EOT]
    rw [← h [TOKEN_EOT]] at hdecode
    by_contra hne
    obtain ⟨a, q, r, c, -, -, -, hlossy⟩ := exists_lossy_cons hne
    simp [streamed, decodeOne, hlossy] at hdecode
  have hids := fun ids => (streamed_eq_decode_iff_of_eot fun _ => heot).mp (h ids)
  have hbytes : ∀ id text, T.shownText id = some text → T.decodedBytes id = text := by
    intro id text htext
    rw [decodedBytes_eq, htext, Option.getD_some]
  refine ⟨fun text htext => (hbytes _ _ htext).symm.trans heot, ?_, ?_⟩
  · intro id text htext
    rw [← hbytes id text htext]
    exact (hids [id]).2 id (by simp)
  · intro id id' x y hx hy
    rw [← hbytes id x hx, ← hbytes id' y hy]
    have hseam := (hids [id, id']).1
    simp only [List.map_cons, List.map_nil, Seam, List.flatten_cons, List.flatten_nil,
      List.append_nil, not_or] at hseam
    exact hseam.1

end Tokenizer

/-! ## What a run prints or captures -/

/-- Where the text of a reply goes: collected when quiet, written otherwise. -/
def Output.shown (quiet : Bool) (out : Output) : String := if quiet then out.text else out.written

namespace Engine

variable {X W F : Type} {E : Engine X W F} {quiet : Bool} {calls : TurnCalls X}

/-- A token adds its own text. -/
theorem shown_emit {generated : ℕ} {token : TokenId} {out out' : Output}
    (h : E.emit quiet calls generated token out = .ok out') :
    out'.shown quiet = out.shown quiet ++ (E.tokenizer.decodeOne token).getD "" := by
  unfold emit at h
  cases hpiece : E.tokenizer.decodeOne token with
  | none =>
    rw [hpiece] at h
    cases h
    simp
  | some piece =>
    rw [hpiece] at h
    cases quiet with
    | true =>
      cases h
      rfl
    | false =>
      simp only [Bool.false_eq_true, if_false] at h
      split at h
      · cases h
      · cases h
        rfl

theorem shown_decodeLoopInner {left : ℕ} {reply : List TokenId} {out : Output}
    {nextToken : TokenId} {recent : List TokenId} {rng : UInt64} {g g' : LlamaGraph X W F}
    {reply' : List TokenId} {endToken : TokenId} {out' : Output}
    (hout : out.shown quiet = E.tokenizer.streamed reply)
    (h : E.decodeLoopInner quiet calls left reply out nextToken recent rng g =
      (.ok (reply', endToken, out'), g')) :
    out'.shown quiet = E.tokenizer.streamed reply' := by
  induction left generalizing reply out nextToken recent rng g with
  | zero =>
    unfold decodeLoopInner at h
    split at h <;>
    · cases h
      exact hout
  | succ left ih =>
    unfold decodeLoopInner at h
    split at h
    · cases h
      exact hout
    dsimp only at h
    split at h
    · cases h
      exact hout
    split at h
    · cases h
    · cases h
    rename_i out₁ hemit
    split at h
    · cases h
    · cases h
    split at h
    · cases h
    · cases h
    apply ih _ h
    rw [shown_emit hemit, hout, Tokenizer.streamed, Tokenizer.streamed, List.foldl_concat]

/-- What a run prints or captures are the concatenated texts of the tokens of its reply. -/
theorem shown_runGenerationInner {turnIds : List TokenId} {g g' : LlamaGraph X W F}
    {stats : GenerateStats} {out : Output}
    (h : E.runGenerationInner quiet calls turnIds g = (.ok (stats, out), g')) :
    out.shown quiet = E.tokenizer.streamed stats.turn.reply := by
  unfold runGenerationInner at h
  split at h
  · cases h
  split at h
  · cases h
  split at h
  · cases h
  · cases h
  split at h
  · cases h
  · cases h
  split at h
  · cases h
  · cases h
  rename_i hloop
  cases h
  refine shown_decodeLoopInner ?_ hloop
  cases quiet <;> rfl

end Engine

/-! ## Exactly when streaming is decoding -/

/-- Streaming is decoding on all ids exactly for tokenizers that stream whole, and on single
lists of ids without a shown end-of-turn text exactly when nothing in them joins or spells a
blank. What is streamed is what a run prints or captures. -/
theorem streamed_eq_decode_iff (T : Tokenizer) :
    ((∀ ids, T.streamed ids = T.decode ids) ↔ T.StreamsWhole) ∧
      (∀ ids, (TOKEN_EOT ∈ ids → T.decodedBytes TOKEN_EOT = []) →
        (T.streamed ids = T.decode ids ↔ ¬ Seam (ids.map T.decodedBytes) ∧
          ∀ id ∈ ids, ¬ Tokenizer.SpellsBlank (T.decodedBytes id))) ∧
      ∀ (X W F : Type) (E : Engine X W F) quiet calls turnIds g stats out g', E.tokenizer = T →
        E.runGenerationInner quiet calls turnIds g = (.ok (stats, out), g') →
        out.shown quiet = T.streamed stats.turn.reply := by
  refine ⟨⟨Tokenizer.streamsWhole_of_forall, fun h => h.streamed_eq_decode⟩,
    fun ids => Tokenizer.streamed_eq_decode_iff_of_eot, ?_⟩
  rintro X W F E quiet calls turnIds g stats out g' rfl h
  exact Engine.shown_runGenerationInner h

/-- The accented character of a word as its two bytes and as one entry. -/
def cafeTokens : List String := ["caf", "<0xC3>", "<0xA9>", "é"]

/-- A reply with the two bytes is streamed as other text than it is decoded as, a reply with the
entry is not. -/
theorem streamed_eq_decode_iff_cafe :
    ∃ T, fromGgufParts cafeTokens [] [1, 6, 6, 1] [] = .ok T ∧
      T.streamed [0, 1, 2] ≠ T.decode [0, 1, 2] ∧ T.streamed [0, 3] = T.decode [0, 3] := by
  obtain ⟨T, hT⟩ : ∃ T, fromGgufParts cafeTokens [] [1, 6, 6, 1] [] = .ok T := ⟨_, rfl⟩
  have hvocab : T.vocab = buildVocab cafeTokens [] [1, 6, 6, 1] := (builtFrom_of_eq_ok hT).vocab
  have hpieces : [0, 1, 2].map T.decodedBytes = [utf8 "caf", [0xC3], [0xA9]] ∧
      [0, 3].map T.decodedBytes = [utf8 "caf", [0xC3, 0xA9]] := by
    simp only [Tokenizer.decodedBytes, hvocab, List.map_cons, List.map_nil]
    decide +kernel
  have hbegins : BeginsChar [0xC3, 0xA9] := ⟨'é', by decide +kernel⟩
  refine ⟨T, hT, fun hagree => ?_, ?_⟩
  · have hwhole := ((streamed_eq_decode_iff T).2.1 [0, 1, 2] fun hmem =>
      absurd hmem (by decide)).mp hagree
    rw [hpieces.1] at hwhole
    exact hwhole.1 (.inr (.inl ⟨[0xC3], 0xA9, [], by simp, List.suffix_refl _, rfl, hbegins⟩))
  · refine ((streamed_eq_decode_iff T).2.1 [0, 3] fun hmem => absurd hmem (by decide)).mpr ?_
    rw [hpieces.2]
    constructor
    · rintro (hjoins | hjoins | hseam)
      · exact not_joins_of_begins (by simp) hbegins hjoins
      · exact Tokenizer.not_joins_nil_right _ hjoins
      · exact hseam
    · have hblank : ∀ bs ∈ [utf8 "caf", [0xC3, 0xA9]], ¬ Tokenizer.SpellsBlank bs := by
        unfold Tokenizer.SpellsBlank
        decide +kernel
      exact fun id hid => hblank _ (hpieces.2 ▸ List.mem_map_of_mem hid)

/-- A token that spells a space is streamed with a space and decoded without. -/
theorem not_streamed_eq_decode :
    ¬ ∀ (tokens : List String) (scores types : List UInt32) (merges : List String) (T : Tokenizer)
      (ids : List TokenId), fromGgufParts tokens scores types merges = .ok T →
      T.streamed ids = T.decode ids := by
  intro h
  obtain ⟨T, hT⟩ := exists_fromGgufParts_eq_ok ["Ġis"] [] [] [] (fun h => absurd rfl h)
    (by simp)
  have hvocab : T.vocab = [⟨utf8 "\u0120is", 0, 1⟩] := (builtFrom_of_eq_ok hT).vocab
  have hbytes : T.decodedBytes 0 = utf8 "\u0120is" := by
    rw [Tokenizer.decodedBytes, hvocab]
    rfl
  have hblank : Tokenizer.SpellsBlank (utf8 "\u0120is") := Or.inl ⟨[], utf8 "is", by decide +kernel⟩
  have hagree := (Tokenizer.streamed_eq_decode_iff_of_eot fun hmem => absurd hmem (by decide)).mp
    (h _ _ _ _ T [0] hT)
  exact hagree.2 0 (by simp) (hbytes ▸ hblank)

end QuantumFlow
