import QuantumFlow.Generate.Injection
import QuantumFlow.Generate.Streaming
import QuantumFlow.Tokenizer.RoundTrip

/-!
# Streaming what was encoded

A reply is shown a token at a time, and each token puts spelled spaces and newlines back. So the
reply that consists of the ids of a text is shown as that text for more texts than `decode`
returns: also for those with spaces and newlines. Every other byte is shown as the character that
spells it.
-/

namespace QuantumFlow

/-! ## What a byte is shown as -/

/-- The character that a byte is shown as. -/
def shownChar (b : UInt8) : Char := Tokenizer.unspell (gpt2Char b)

/-- Printable ASCII characters, the space and the newline. -/
def ShownAsItself (b : UInt8) : Prop := (32 ≤ b ∧ b ≤ 126) ∨ b = 10

theorem shownChar_eq_iff {b : UInt8} (hb : b.toNat < 128) :
    shownChar b = Char.ofNat b.toNat ↔ ShownAsItself b := by
  have hall : ∀ n : Fin 128, Tokenizer.unspell (Char.ofNat (codepointOf n)) = Char.ofNat n ↔
      (32 ≤ n.val ∧ n.val ≤ 126) ∨ n.val = 10 := by decide +kernel
  rw [shownChar, gpt2Char, getD_TABLE, ShownAsItself, UInt8.le_iff_toNat_le, UInt8.le_iff_toNat_le,
    ← UInt8.toNat_inj]
  exact hall ⟨b.toNat, hb⟩

theorem ShownAsItself.toNat_lt {b : UInt8} (h : ShownAsItself b) : b.toNat < 128 := by
  rcases h with ⟨-, h⟩ | rfl
  · rw [UInt8.le_iff_toNat_le] at h
    exact Nat.lt_of_le_of_lt h (by decide)
  · decide

/-- A character is shown as itself exactly when it is one byte that is. -/
theorem map_shownChar_utf8EncodeChar_iff (c : Char) :
    (String.utf8EncodeChar c).map shownChar = [c] ↔
      ∀ b ∈ String.utf8EncodeChar c, ShownAsItself b := by
  by_cases hsize : c.utf8Size = 1
  · have hc : c.toNat < 128 := by
      rw [Char.utf8Size_eq_one_iff, UInt32.le_iff_toNat_le] at hsize
      exact Nat.lt_succ_of_le hsize
    have hbyte : c.val.toUInt8.toNat = c.toNat := by
      rw [UInt32.toNat_toUInt8]
      exact Nat.mod_eq_of_lt (Nat.lt_trans hc (by decide))
    have hiff := shownChar_eq_iff (b := c.val.toUInt8) (hbyte ▸ hc)
    rw [hbyte, Char.ofNat_toNat] at hiff
    simpa [String.utf8EncodeChar_eq_singleton hsize] using hiff
  · have hlength : (String.utf8EncodeChar c).length ≠ 1 := by
      rwa [String.length_utf8EncodeChar]
    constructor
    · intro h
      exact absurd (by simpa using congrArg List.length h) hlength
    · intro h
      -- a second byte continues a character, and is shown as another one
      cases hbytes : String.utf8EncodeChar c with
      | nil => exact absurd hbytes (utf8EncodeChar_ne_nil c)
      | cons a bs =>
        rw [hbytes] at h hlength
        obtain ⟨b, hb⟩ := List.exists_mem_of_ne_nil bs (by rintro rfl; exact hlength rfl)
        have hcont := (isContinuation_iff.mp
          ((hbytes ▸ isChar_utf8EncodeChar c).isContinuation_of_mem.1 b hb)).1
        have := (h b (List.mem_cons_of_mem a hb)).toNat_lt
        omega

theorem length_le_utf8Chars (cs : List Char) : cs.length ≤ (utf8Chars cs).length := by
  induction cs with
  | nil => simp
  | cons c cs ih =>
    have hc := List.length_pos_iff.mpr (utf8EncodeChar_ne_nil c)
    rw [utf8Chars_cons, List.length_append, List.length_cons]
    omega

theorem map_shownChar_utf8Chars_iff (cs : List Char) :
    (utf8Chars cs).map shownChar = cs ↔ ∀ b ∈ utf8Chars cs, ShownAsItself b := by
  induction cs with
  | nil => simp
  | cons c cs ih =>
    rw [utf8Chars_cons, List.map_append, List.forall_mem_append, ← ih,
      ← map_shownChar_utf8EncodeChar_iff]
    constructor
    · intro h
      -- no character takes less than a byte, so this one takes no more
      have hlength := congrArg List.length h
      have hle := length_le_utf8Chars cs
      have hpos := List.length_pos_iff.mpr (utf8EncodeChar_ne_nil c)
      simp only [List.length_append, List.length_map, List.length_cons] at hlength
      rw [← List.singleton_append] at h
      refine List.append_inj h ?_
      rw [List.length_map, List.length_singleton]
      omega
    · rintro ⟨hc, hcs⟩
      rw [hc, hcs, List.singleton_append]

/-! ## What the ids of a text are shown as -/

section Shown

variable {tokens : List String} {scores types : List UInt32} {merges : List String}
  {T : Tokenizer} (built : BuiltFrom tokens scores types merges T)
  (hids : tokens.length ≤ 128000) (hnormal : AllNormal tokens types)
include built hids hnormal

/-- Named ids of whole texts are shown as the characters of these. -/
theorem BuiltFrom.streamed_named (vocab : ByteVocab tokens) {ids : List TokenId}
    {texts : List (List UInt8)} (h : Named T ids texts) :
    (T.streamed ids).toList = (lossy texts.flatten).map Tokenizer.unspell := by
  have heot : TOKEN_EOT ∉ ids := by
    intro hmem
    obtain ⟨t, -, hget⟩ := h.exists_text hmem
    obtain ⟨hlt, -⟩ := built.toNat_lt_of_get (by omega) hget
    exact absurd (Nat.lt_of_lt_of_le hlt hids) (by decide)
  rw [Tokenizer.toList_streamed fun hmem => absurd hmem heot]
  congr 1
  clear heot
  induction h with
  | nil => rfl
  | cons hget _ ih =>
    obtain ⟨tok, -, htok⟩ := vocab.isText_of_get built hget
    rw [List.map_cons, List.flatMap_cons, ih, built.decodedBytes_eq hids hnormal hget, ← htok,
      List.flatten_cons, utf8_eq, lossy_utf8Chars, lossy_utf8Chars_append]

theorem BuiltFrom.streamed_encodeNoBos (vocab : ByteVocab tokens) (text : String) :
    ∃ ids, T.encodeNoBos text = some ids ∧
      T.streamed ids = String.ofList ((utf8 text).map shownChar) := by
  obtain ⟨ids, segs, hgreedy, hmunch, hnamed⟩ := vocab.initialTokenise_eq built text
  have hsize : tokens.length ≤ 2 ^ 32 := by omega
  obtain ⟨texts, hnamed', hflat⟩ := built.named_normalize hsize hnamed
  refine ⟨_, built.encodeNoBos_eq hsize hgreedy hnamed, ?_⟩
  rw [← String.toList_inj, built.streamed_named hids hnormal vocab hnamed', hflat,
    hmunch.flatten_eq, bytesToGpt2Unicode_eq, lossy_utf8Chars, List.map_map, String.toList_ofList]
  rfl

end Shown

/-- The reply that consists of the ids of a text is shown as the text, printed or captured,
exactly when the text has no characters but printable ASCII ones, spaces and newlines. -/
theorem shown_encoded_iff {tokens : List String} {scores types : List UInt32}
    {merges : List String} {T : Tokenizer}
    (hbuilt : fromGgufParts tokens scores types merges = .ok T) (vocab : ByteVocab tokens)
    (hnormal : AllNormal tokens types) (hids : tokens.length ≤ 128000) (text : String) :
    ∃ ids, T.encodeNoBos text = some ids ∧
      (T.streamed ids = text ↔ ∀ b ∈ utf8 text, ShownAsItself b) ∧
      ∀ (X W F : Type) (E : Engine X W F) quiet calls turnIds g stats out g', E.tokenizer = T →
        E.runGenerationInner quiet calls turnIds g = (.ok (stats, out), g') →
        stats.turn.reply = ids →
        (out.shown quiet = text ↔ ∀ b ∈ utf8 text, ShownAsItself b) := by
  obtain ⟨ids, hencode, hstreamed⟩ :=
    (builtFrom_of_eq_ok hbuilt).streamed_encodeNoBos hids hnormal vocab text
  have hiff : T.streamed ids = text ↔ ∀ b ∈ utf8 text, ShownAsItself b := by
    rw [hstreamed, ← String.toList_inj, String.toList_ofList, utf8_eq]
    exact map_shownChar_utf8Chars_iff text.toList
  refine ⟨ids, hencode, hiff, ?_⟩
  rintro X W F E quiet calls turnIds g stats out g' rfl hrun rfl
  rw [Engine.shown_runGenerationInner hrun]
  exact hiff

theorem shown_encoded_hello :
    ∃ T, fromGgufParts byteTokens [] [] [] = .ok T ∧
      ∃ ids, T.encodeNoBos "hello you\n" = some ids ∧ T.streamed ids = "hello you\n" := by
  obtain ⟨T, hT⟩ := exists_fromGgufParts_eq_ok byteTokens [] [] []
    (fun h => absurd rfl h) (by simp)
  obtain ⟨ids, hencode, hstreamed, -⟩ := shown_encoded_iff hT byteVocab_byteTokens
    (fun _ _ => rfl) (by simp [byteTokens]) "hello you\n"
  have hshown : ∀ b ∈ utf8 "hello you\n", ShownAsItself b := by
    intro b hb
    have hall : ∀ b ∈ utf8 "hello you\n", (32 ≤ b ∧ b ≤ 126) ∨ b = 10 := by decide +kernel
    exact hall b hb
  exact ⟨T, hT, ids, hencode, hstreamed.mpr hshown⟩

end QuantumFlow
