import QuantumFlow.Tokenizer.Cuts

/-!
# Ids number entries

The ids in the tables of a built tokenizer are positions in its vocabulary, possibly truncated,
or 0 for a byte that has no token. Every id that encoding returns is from one of the tables.
-/

namespace QuantumFlow

/-- An id of an entry, or the id that fills the gaps of the byte table. -/
def Tokenizer.Numbers (T : Tokenizer) (id : TokenId) : Prop := id.toNat < T.vocab.length ∨ id = 0

/-- An id that a table holds. -/
def Tokenizer.InTables (T : Tokenizer) (id : TokenId) : Prop :=
  (∃ t, T.tokenToId.get t = some id) ∨ ∃ b, T.byteToToken b = id

/-- Truncation does not make an index larger. -/
theorem toNat_ofNat_lt {i n : ℕ} (h : i < n) : (UInt32.ofNat i).toNat < n := by
  rw [UInt32.toNat_ofNat']
  exact Nat.lt_of_le_of_lt (Nat.mod_le _ _) h

/-! ## The tables -/

theorem BuiltFrom.toNat_lt_vocab_of_get {tokens : List String} {scores types : List UInt32}
    {merges : List String} {T : Tokenizer} (built : BuiltFrom tokens scores types merges T)
    {t : List UInt8} {id : TokenId} (h : T.tokenToId.get t = some id) :
    id.toNat < T.vocab.length := by
  obtain ⟨i, hi, -, rfl⟩ := built.exists_index_of_get h
  rw [built.vocab, buildVocab, List.length_mapIdx]
  exact toNat_ofNat_lt hi

/-- A slot keeps its value or is claimed by the number of an entry. -/
theorem claimBytes_cases {id : ℕ} {entries : List VocabEntry} {table table' : UInt8 → TokenId}
    (h : claimBytes id entries table = some table') (b : UInt8) :
    table' b = table b ∨ ∃ i, i < id + entries.length ∧ table' b = UInt32.ofNat i := by
  induction entries generalizing id table with
  | nil =>
    cases h
    exact Or.inl rfl
  | cons entry entries ih =>
    have hlen : id + (entry :: entries).length = id + 1 + entries.length := by
      rw [List.length_cons]
      omega
    rw [hlen]
    unfold claimBytes at h
    split at h
    · obtain ⟨c, -, h⟩ := Option.bind_eq_some_iff.mp h
      rcases ih h with hkept | hclaimed
      · by_cases hb : b = c
        · subst hb
          rw [Function.update_self] at hkept
          exact Or.inr ⟨id, by omega, hkept⟩
        · rw [Function.update_of_ne hb] at hkept
          exact Or.inl hkept
      · exact Or.inr hclaimed
    · exact ih h

section Built

variable {tokens : List String} {scores types : List UInt32} {merges : List String}
  {T : Tokenizer} (h : fromGgufParts tokens scores types merges = .ok T)
include h

/-- The byte table is the claimed one with its gaps filled. -/
theorem exists_byteToToken_eq : ∃ table, claimBytes 0 T.vocab (fun _ => unassigned) = some table ∧
    T.byteToToken = fillGaps T.tokenToId table := by
  unfold fromGgufParts at h
  split at h
  · cases h
  dsimp only at h
  split at h
  · cases h
  · rename_i table htable
    cases h
    exact ⟨table, htable, rfl⟩

theorem numbers_byteToToken (b : UInt8) : T.Numbers (T.byteToToken b) := by
  obtain ⟨table, htable, hbytes⟩ := exists_byteToToken_eq h
  rw [hbytes, fillGaps]
  split
  · cases hget : T.tokenToId.get (byteRepr b) with
    | none => exact Or.inr rfl
    | some id => exact Or.inl ((builtFrom_of_eq_ok h).toNat_lt_vocab_of_get hget)
  · rename_i hassigned
    rcases claimBytes_cases htable b with hkept | ⟨i, hi, hclaimed⟩
    · exact absurd hkept hassigned
    · rw [Nat.zero_add] at hi
      rw [hclaimed]
      exact Or.inl (toNat_ofNat_lt hi)

theorem Tokenizer.InTables.numbers {id : TokenId} (hid : T.InTables id) : T.Numbers id := by
  rcases hid with ⟨t, hget⟩ | ⟨b, rfl⟩
  · exact Or.inl ((builtFrom_of_eq_ok h).toNat_lt_vocab_of_get hget)
  · exact numbers_byteToToken h b

end Built

/-! ## Encoding -/

theorem inTables_of_pushes {T : Tokenizer} {text : String} {id : TokenId}
    (hpush : T.Pushes text id) : T.InTables id := by
  obtain ⟨i, len, -, -, hpush⟩ := hpush
  unfold Tokenizer.pushAt at hpush
  split at hpush
  · rename_i hmatch
    cases hpush
    obtain ⟨-, -, hget, -⟩ := Tokenizer.longestMatch_eq_some hmatch
    exact Or.inl ⟨_, hget⟩
  · obtain ⟨pos, -, hpush⟩ := Option.bind_eq_some_iff.mp hpush
    obtain ⟨first, -, hpush⟩ := Option.bind_eq_some_iff.mp hpush
    split at hpush
    · cases hpush
      exact Or.inr ⟨_, rfl⟩
    · cases hpush

/-- What a merge makes is looked up, so it is in a table as well. -/
theorem inTables_of_mem_encodeNoBos {T : Tokenizer} {text : String} {ids : List TokenId}
    (hencode : T.encodeNoBos text = some ids) {id : TokenId} (hid : id ∈ ids) : T.InTables id := by
  obtain ⟨greedy, hgreedy, hencode⟩ := Option.bind_eq_some_iff.mp hencode
  obtain ⟨merged, hmerged, hencode⟩ := Option.bind_eq_some_iff.mp hencode
  cases hencode
  have hall : ∀ id ∈ merged, T.InTables id := by
    rw [Tokenizer.eq_normalize_of_bpeMerge hmerged]
    refine PairMerge.forall_mem_normalizeFrom ?_ _ ?_
    · intro a b c k _ hjoin
      obtain ⟨left, -, hjoin⟩ := Option.bind_eq_some_iff.mp hjoin
      obtain ⟨right, -, hjoin⟩ := Option.bind_eq_some_iff.mp hjoin
      exact Or.inl ⟨_, hjoin⟩
    · intro id hid
      exact inTables_of_pushes ((Tokenizer.mem_initialTokenise hgreedy id).mp hid)
  exact hall id hid

/-- Encoding with BOS puts one id in front. -/
theorem mem_encode_cases {T : Tokenizer} {text : String} {addBos : Bool} {ids : List TokenId}
    (hencode : T.encode text addBos = some ids) {id : TokenId} (hid : id ∈ ids) :
    id = TOKEN_BOS ∨ ∃ ids', T.encodeNoBos text = some ids' ∧ id ∈ ids' := by
  obtain ⟨greedy, hgreedy, hencode⟩ := Option.bind_eq_some_iff.mp hencode
  obtain ⟨merged, hmerged, hencode⟩ := Option.bind_eq_some_iff.mp hencode
  cases hencode
  rcases List.mem_append.mp hid with hbos | hid
  · cases addBos with
    | true => exact Or.inl (List.mem_singleton.mp hbos)
    | false => cases hbos
  · refine Or.inr ⟨merged, ?_, hid⟩
    simp [Tokenizer.encodeNoBos, Tokenizer.encode, hgreedy, hmerged]

end QuantumFlow
