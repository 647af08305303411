import QuantumFlow.Tokenizer.Numbering

/-!
# The byte table

The slot of a byte goes to the last entry that claims it: a byte-typed entry that begins with the
byte, or a one-byte entry that is not a normal token. The lookup of `<0xNN>` that is to fill the
gaps finds nothing, because the keys of the map are already raw bytes, so a slot without claim
holds 0, whatever the vocabulary spells as `<0xNN>`.
-/

namespace QuantumFlow

/-- The entry claims the slot of `b`. -/
def VocabEntry.Claims (entry : VocabEntry) (b : UInt8) : Prop :=
  (entry.tokenType = 6 ∧ entry.text.head? = some b) ∨ (entry.text = [b] ∧ entry.tokenType ≠ 1)

/-- `tok` is `<0xHH>`, with two hexadecimal digits that denote `b`. -/
def SpellsByte (tok : String) (b : UInt8) : Prop :=
  ∃ hi lo h l, tok.toList = ['<', '0', 'x', hi, lo, '>'] ∧ hexValue hi = some h ∧
    hexValue lo = some l ∧ b = UInt8.ofNat (h * 16 + l)

section Tables

variable (tokens : List String) (types : List UInt32)

/-- The text and the type of an entry. A missing type is normal. -/
def ClaimsSlot (b : UInt8) (i : ℕ) : Prop :=
  ∃ tok, tokens[i]? = some tok ∧ VocabEntry.Claims ⟨tokenText tok, 0, types.getD i 1⟩ b

/-- The entry that the slot of `b` goes to. -/
def LastClaim (b : UInt8) (i : ℕ) : Prop :=
  ClaimsSlot tokens types b i ∧ ∀ j, i < j → ¬ ClaimsSlot tokens types b j

/-- The entry with this id is the single byte `b`. -/
def EntryIs (b : UInt8) (id : TokenId) : Prop := (tokens[id.toNat]?).map tokenText = some [b]

/-- The tables are built, every slot of the byte table holds 0 or the id of its byte, and it holds
the id of its byte if the vocabulary has a `<0xHH>` token for it. -/
def ByteTableCorrect (scores : List UInt32) (merges : List String) : Prop :=
  ∃ T, fromGgufParts tokens scores types merges = .ok T ∧
    ∀ b, (T.byteToToken b = 0 ∨ T.textOf (T.byteToToken b) = some [b]) ∧
      ((∃ tok ∈ tokens, SpellsByte tok b) → T.textOf (T.byteToToken b) = some [b])

/-- No byte-typed token is empty; what claims a slot last is the single byte, entry 0, or the
entry whose id stands for an empty slot; and for a byte with a `<0xHH>` token, the last claim is
the single byte, or there is none and entry 0 is. -/
structure SlotsClaimed : Prop where
  nonempty : ∀ i, types.getD i 1 = 6 → tokens[i]? ≠ some ""
  single : ∀ b i, LastClaim tokens types b i →
    UInt32.ofNat i = 0 ∨ UInt32.ofNat i = unassigned ∨ EntryIs tokens b (UInt32.ofNat i)
  spelled : ∀ b, (∃ tok ∈ tokens, SpellsByte tok b) →
    (∃ i, LastClaim tokens types b i ∧ UInt32.ofNat i ≠ unassigned ∧
      EntryIs tokens b (UInt32.ofNat i)) ∨
    ((∀ i, LastClaim tokens types b i → UInt32.ofNat i = unassigned) ∧ EntryIs tokens b 0)

end Tables

/-! ## Claiming slots -/

/-- The pass over the entries aborts only at a byte-typed entry without bytes. -/
theorem isSome_claimBytes_iff {id : ℕ} {entries : List VocabEntry} {table : UInt8 → TokenId} :
    (claimBytes id entries table).isSome ↔
      ∀ entry ∈ entries, entry.tokenType = 6 → entry.text ≠ [] := by
  induction entries generalizing id table with
  | nil => simp [claimBytes]
  | cons entry entries ih =>
    rw [claimBytes, List.forall_mem_cons]
    split
    · cases htext : entry.text with
      | nil =>
        rename_i hclaims
        have htype : entry.tokenType = 6 := by simpa [htext] using hclaims
        simp [htype]
      | cons b text => simp [ih]
    · rename_i hclaims
      have htype : entry.tokenType ≠ 6 := fun h => hclaims (by simp [h])
      simp [htype, ih]

/-- A slot holds what the last entry that claims it put there, or what it held before. -/
theorem claimBytes_eq {id : ℕ} {entries : List VocabEntry} {table table' : UInt8 → TokenId}
    (h : claimBytes id entries table = some table') (b : UInt8) :
    (∃ i, (∃ entry, entries[i]? = some entry ∧ entry.Claims b) ∧
        (∀ j, i < j → ∀ entry, entries[j]? = some entry → ¬ entry.Claims b) ∧
        table' b = UInt32.ofNat (id + i)) ∨
      (∀ entry ∈ entries, ¬ entry.Claims b) ∧ table' b = table b := by
  induction entries generalizing id table with
  | nil =>
    cases h
    exact Or.inr ⟨by simp, rfl⟩
  | cons entry entries ih =>
    -- the table behind this entry
    obtain ⟨table₁, hrest, hslot⟩ : ∃ table₁, claimBytes (id + 1) entries table₁ = some table' ∧
        (entry.Claims b ∧ table₁ b = UInt32.ofNat id ∨ ¬ entry.Claims b ∧ table₁ b = table b) := by
      rw [claimBytes] at h
      split at h
      · rename_i hclaims
        obtain ⟨c, hc, h⟩ := Option.bind_eq_some_iff.mp h
        refine ⟨_, h, ?_⟩
        by_cases hb : b = c
        · subst hb
          refine Or.inl ⟨?_, Function.update_self _ _ _⟩
          obtain ⟨cs, hcs⟩ := List.head?_eq_some_iff.mp hc
          simpa [VocabEntry.Claims, hcs] using hclaims
        · refine Or.inr ⟨?_, Function.update_of_ne hb _ _⟩
          rintro (⟨-, hhead⟩ | ⟨htext, -⟩)
          · rw [hc] at hhead
            exact hb (Option.some.inj hhead).symm
          · rw [htext] at hc
            exact hb (Option.some.inj hc)
      · rename_i hclaims
        refine ⟨table, h, Or.inr ⟨?_, rfl⟩⟩
        rintro (⟨htype, -⟩ | ⟨htext, htype⟩)
        · exact hclaims (by simp [htype])
        · exact hclaims (by simp [htext, htype])
    rcases ih hrest with ⟨i, hi, hlast, hid⟩ | ⟨hnone, hkept⟩
    · refine Or.inl ⟨i + 1, by simpa using hi, fun j hj e he => ?_, by rw [hid]; congr 1; omega⟩
      obtain ⟨k, rfl⟩ : ∃ k, j = k + 1 := ⟨j - 1, by omega⟩
      exact hlast k (by omega) e (by simpa using he)
    · rcases hslot with ⟨hclaims, hid⟩ | ⟨hclaims, hsame⟩
      · refine Or.inl ⟨0, ⟨entry, rfl, hclaims⟩, fun j hj e he => ?_, by rw [hkept, hid]; rfl⟩
        obtain ⟨k, rfl⟩ : ∃ k, j = k + 1 := ⟨j - 1, by omega⟩
        exact hnone e (List.mem_of_getElem? (by simpa using he))
      · exact Or.inr ⟨List.forall_mem_cons.mpr ⟨hclaims, hnone⟩, by rw [hkept, hsame]⟩

/-! ## The lookup that fills the gaps -/

theorem hexValue_lt {c : Char} {n : ℕ} (h : hexValue c = some n) : n < 16 := by
  unfold hexValue at h
  have hbound : ∀ lo hi : Char, (lo ≤ c && c ≤ hi) = true →
      lo.toNat ≤ c.toNat ∧ c.toNat ≤ hi.toNat := by
    intro lo hi hc
    simpa [Char.le_def, UInt32.le_iff_toNat_le] using hc
  split at h
  · rename_i hc
    have hle := hbound _ _ hc
    cases h
    change 48 ≤ c.toNat ∧ c.toNat ≤ 57 at hle
    change c.toNat - 48 < 16
    omega
  · split at h
    · rename_i hc
      have hle := hbound _ _ hc
      cases h
      change 97 ≤ c.toNat ∧ c.toNat ≤ 102 at hle
      change c.toNat - 97 + 10 < 16
      omega
    · split at h
      · rename_i hc
        have hle := hbound _ _ hc
        cases h
        change 65 ≤ c.toNat ∧ c.toNat ≤ 70 at hle
        change c.toNat - 65 + 10 < 16
        omega
      · cases h

/-- A `<0xHH>` token stands for its byte. -/
theorem parseByteToken_of_spellsByte {tok : String} {b : UInt8} (h : SpellsByte tok b) :
    parseByteToken tok = some b := by
  obtain ⟨hi, lo, h, l, htok, hh, hl, rfl⟩ := h
  have hh' := hexValue_lt hh
  have hl' := hexValue_lt hl
  have hplus : hi ≠ '+' := by
    rintro rfl
    cases hh
  have hparse : u8FromStrRadix16 [hi, lo] = some (UInt8.ofNat (h * 16 + l)) := by
    have hradix : radixFrom 0 [hi, lo] = some (h * 16 + l) := by
      have hle : h ≤ 255 := by omega
      have hle' : h * 16 + l ≤ 255 := by omega
      simp [radixFrom, hh, hl, hle, hle']
    simp [u8FromStrRadix16, hplus, hradix]
  simp [parseByteToken, htok, hparse]

theorem hexValue_hexDigit {d : ℕ} (hd : d < 16) : hexValue (hexDigit d) = some d := by
  have hall : ∀ d : Fin 16, hexValue (hexDigit d) = some d.val := by decide
  exact hall ⟨d, hd⟩

theorem spellsByte_byteRepr (b : UInt8) :
    SpellsByte (String.ofList ("<0x".toList ++ hexUpper 2 b.toNat ++ ">".toList)) b := by
  have hlt := b.toNat_lt
  refine ⟨hexDigit (b.toNat / 16 % 16), hexDigit (b.toNat % 16), b.toNat / 16 % 16, b.toNat % 16,
    String.toList_ofList, hexValue_hexDigit (Nat.mod_lt _ (by decide)),
    hexValue_hexDigit (Nat.mod_lt _ (by decide)), ?_⟩
  have hdigits : b.toNat / 16 % 16 * 16 + b.toNat % 16 = b.toNat := by omega
  rw [hdigits, UInt8.ofNat_toNat]

/-- The spelling of a byte is never the text of an entry. -/
theorem tokenText_ne_byteRepr (tok : String) (b : UInt8) : tokenText tok ≠ byteRepr b := by
  intro h
  rw [tokenText] at h
  split at h
  · have hlen := congrArg List.length h
    have hopen : '<'.utf8Size = 1 := by decide
    have hclose : '>'.utf8Size = 1 := by decide
    simp [byteRepr, hopen, hclose] at hlen
  · rename_i hnone
    have htok : tok = String.ofList ("<0x".toList ++ hexUpper 2 b.toNat ++ ">".toList) := by
      apply utf8_injective
      rw [h, utf8_ofList, byteRepr]
    rw [htok, parseByteToken_of_spellsByte (spellsByte_byteRepr b)] at hnone
    cases hnone

theorem tokenText_eq_nil_iff {tok : String} : tokenText tok = [] ↔ tok = "" := by
  constructor
  · intro h
    rw [tokenText] at h
    split at h
    · cases h
    · exact utf8_injective h
  · rintro rfl
    rfl

/-! ## The table of a built tokenizer -/

section Built

variable {tokens : List String} {scores types : List UInt32} {merges : List String}
  {T : Tokenizer}

theorem LastClaim.unique {b : UInt8} {i j : ℕ} (hi : LastClaim tokens types b i)
    (hj : LastClaim tokens types b j) : i = j := by
  rcases Nat.lt_trichotomy i j with hlt | heq | hgt
  · exact absurd hj.1 (hi.2 j hlt)
  · exact heq
  · exact absurd hi.1 (hj.2 i hgt)

theorem claimsSlot_iff (scores : List UInt32) {b : UInt8} {i : ℕ} :
    ClaimsSlot tokens types b i ↔
      ∃ entry, (buildVocab tokens scores types)[i]? = some entry ∧ entry.Claims b := by
  rw [buildVocab, List.getElem?_mapIdx]
  cases htok : tokens[i]? <;> simp [ClaimsSlot, VocabEntry.Claims, htok]

/-- Construction aborts only at a byte-typed token that is empty. -/
theorem exists_fromGgufParts_iff (merges : List String)
    (hlen : scores = [] ∨ scores.length = tokens.length) :
    (∃ T, fromGgufParts tokens scores types merges = .ok T) ↔
      ∀ i, types.getD i 1 = 6 → tokens[i]? ≠ some "" := by
  have hclaims : (claimBytes 0 (buildVocab tokens scores types) fun _ => unassigned).isSome ↔
      ∀ i, types.getD i 1 = 6 → tokens[i]? ≠ some "" := by
    rw [isSome_claimBytes_iff]
    constructor
    · intro h i htype htok
      obtain ⟨hi, htok'⟩ := List.getElem?_eq_some_iff.mp htok
      refine h _ (List.mem_mapIdx.mpr ⟨i, hi, rfl⟩) htype ?_
      exact tokenText_eq_nil_iff.mpr htok'
    · intro h entry hentry htype htext
      obtain ⟨i, hi, rfl⟩ := List.mem_mapIdx.mp hentry
      exact h i htype (List.getElem?_eq_some_iff.mpr ⟨hi, tokenText_eq_nil_iff.mp htext⟩)
  have hscores : ¬ (scores ≠ [] ∧ scores.length ≠ tokens.length) := by
    rintro ⟨hne, hlen'⟩
    exact hlen.elim hne hlen'
  rw [← hclaims, fromGgufParts, if_neg hscores]
  cases htable : claimBytes 0 (buildVocab tokens scores types) fun _ => unassigned <;> simp [htable]

/-- Nothing is found where a gap is to be filled. -/
theorem BuiltFrom.fillGaps_eq (built : BuiltFrom tokens scores types merges T)
    (table : UInt8 → TokenId) (b : UInt8) :
    fillGaps T.tokenToId table b = if table b = unassigned then 0 else table b := by
  have hnone : T.tokenToId.get (byteRepr b) = none := by
    by_contra hsome
    obtain ⟨id, hget⟩ := Option.ne_none_iff_exists'.mp hsome
    obtain ⟨tok, -, htext⟩ := built.mem_of_get hget
    exact tokenText_ne_byteRepr tok b htext
  rw [fillGaps, hnone, Option.getD_none]

/-- A slot holds the last claim, or 0. -/
theorem byteToToken_cases (h : fromGgufParts tokens scores types merges = .ok T) (b : UInt8) :
    (∃ i, LastClaim tokens types b i ∧
        T.byteToToken b = if UInt32.ofNat i = unassigned then 0 else UInt32.ofNat i) ∨
      (∀ i, ¬ ClaimsSlot tokens types b i) ∧ T.byteToToken b = 0 := by
  have built := builtFrom_of_eq_ok h
  obtain ⟨table, htable, hbytes⟩ := exists_byteToToken_eq h
  rw [built.vocab] at htable
  rw [hbytes, built.fillGaps_eq]
  rcases claimBytes_eq htable b with ⟨i, hi, hlast, hid⟩ | ⟨hnone, hkept⟩
  · refine Or.inl ⟨i, ⟨(claimsSlot_iff scores).mpr hi, fun j hj hclaims => ?_⟩, ?_⟩
    · obtain ⟨entry, hentry, hclaims⟩ := (claimsSlot_iff scores).mp hclaims
      exact hlast j hj entry hentry hclaims
    · rw [hid, Nat.zero_add]
  · refine Or.inr ⟨fun i hclaims => ?_, by rw [hkept, if_pos rfl]⟩
    obtain ⟨entry, hentry, hclaims⟩ := (claimsSlot_iff scores).mp hclaims
    exact hnone entry (List.mem_of_getElem? hentry) hclaims

/-- The byte table is correct exactly if its slots are claimed by the right entries. -/
theorem byteTableCorrect_iff (hlen : scores = [] ∨ scores.length = tokens.length) :
    ByteTableCorrect tokens types scores merges ↔ SlotsClaimed tokens types := by
  constructor
  · rintro ⟨T, hT, hall⟩
    have built := builtFrom_of_eq_ok hT
    have hentry : ∀ b id, T.textOf id = some [b] → EntryIs tokens b id := by
      intro b id hid
      rwa [built.textOf_eq] at hid
    have hnonempty := (exists_fromGgufParts_iff merges hlen).mp ⟨T, hT⟩
    refine ⟨hnonempty, fun b i hlast => ?_, fun b htok => ?_⟩
    · by_cases hid : UInt32.ofNat i = unassigned
      · exact Or.inr (Or.inl hid)
      · rcases byteToToken_cases hT b with ⟨j, hj, hslot⟩ | ⟨hnone, -⟩
        · rw [hj.unique hlast, if_neg hid] at hslot
          rcases hslot ▸ (hall b).1 with hzero | htext
          · exact Or.inl hzero
          · exact Or.inr (Or.inr (hentry b _ htext))
        · exact absurd hlast.1 (hnone i)
    · have htext := (hall b).2 htok
      rcases byteToToken_cases hT b with ⟨i, hi, hslot⟩ | ⟨hnone, hslot⟩
      · rw [hslot] at htext
        split at htext
        · rename_i hid
          refine Or.inr ⟨fun j hj => ?_, hentry b 0 htext⟩
          rwa [hj.unique hi]
        · rename_i hid
          exact Or.inl ⟨i, hi, hid, hentry b _ htext⟩
      · rw [hslot] at htext
        exact Or.inr ⟨fun j hj => absurd hj.1 (hnone j), hentry b 0 htext⟩
  · intro hslots
    obtain ⟨T, hT⟩ := (exists_fromGgufParts_iff merges hlen).mpr hslots.nonempty
    have built := builtFrom_of_eq_ok hT
    have hentry : ∀ b id, EntryIs tokens b id → T.textOf id = some [b] := by
      intro b id hid
      rwa [built.textOf_eq]
    refine ⟨T, hT, fun b => ⟨?_, fun htok => ?_⟩⟩
    · rcases byteToToken_cases hT b with ⟨i, hi, hslot⟩ | ⟨-, hslot⟩
      · rw [hslot]
        split
        · exact Or.inl rfl
        · rename_i hid
          rcases hslots.single b i hi with hzero | hnone | htext
          · exact Or.inl hzero
          · exact absurd hnone hid
          · exact Or.inr (hentry b _ htext)
      · exact Or.inl hslot
    · rcases byteToToken_cases hT b with ⟨i, hi, hslot⟩ | ⟨hnone, hslot⟩
      · rw [hslot]
        rcases hslots.spelled b htok with ⟨j, hj, hid, htext⟩ | ⟨hempty, htext⟩
        · obtain rfl := hj.unique hi
          rw [if_neg hid]
          exact hentry b _ htext
        · rw [if_pos (hempty i hi)]
          exact hentry b 0 htext
      · rcases hslots.spelled b htok with ⟨j, hj, -⟩ | ⟨-, htext⟩
        · exact absurd hj.1 (hnone j)
        · rw [hslot]
          exact hentry b 0 htext

end Built

theorem byteTableCorrect_iff_two :
    ByteTableCorrect ["<unk>", "<0x41>"] [2, 6] [] [] ↔ SlotsClaimed ["<unk>", "<0x41>"] [2, 6] :=
  byteTableCorrect_iff (Or.inl rfl)

/-- Without types, the byte token of `A` leaves its slot at 0. -/
theorem not_byteTableCorrect :
    ¬ ∀ (tokens : List String) (scores types : List UInt32) (merges : List String),
      scores = [] ∨ scores.length = tokens.length →
      ByteTableCorrect tokens types scores merges := by
  intro h
  obtain ⟨T, hT, hall⟩ := h ["<unk>", "<0x41>"] [] [] [] (Or.inl rfl)
  have hspells : SpellsByte "<0x41>" 65 := ⟨'4', '1', 4, 1, rfl, rfl, rfl, rfl⟩
  have htext := (hall 65).2 ⟨"<0x41>", by simp, hspells⟩
  have hzero : T.byteToToken 65 = 0 := by
    rcases byteToToken_cases hT 65 with ⟨i, ⟨⟨tok, htok, hclaims⟩, -⟩, -⟩ | ⟨-, hzero⟩
    · rcases hclaims with ⟨htype, -⟩ | ⟨-, htype⟩
      · exact absurd htype (by simp)
      · exact absurd rfl htype
    · exact hzero
  rw [hzero, (builtFrom_of_eq_ok hT).textOf_eq] at htext
  exact absurd (congrArg (Option.map List.length) htext) (by decide)

end QuantumFlow
