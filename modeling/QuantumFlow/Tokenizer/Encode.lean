import QuantumFlow.Foundation.PairMerge
import QuantumFlow.Tokenizer.ByteMap
import QuantumFlow.Tokenizer.Vocabulary

/-!
# Encoding and decoding

Encoding spells the text in GPT-2 characters, cuts the spelling greedily into the longest
vocabulary entries, and merges adjacent ids by rank. Decoding concatenates the entries'
bytes. `none` is an index out of bounds, which aborts the process. The merge loop is the
pair merging of the library, over ids.
-/

namespace QuantumFlow.Tokenizer

variable (T : Tokenizer)

/-! ## Greedy cuts -/

/-- The longest entry that begins `suffix`, of at most `len` bytes, and its length. -/
def longestMatch (suffix : List UInt8) : ℕ → Option (TokenId × ℕ)
  | 0 => none
  | len + 1 =>
    match T.tokenToId.get (suffix.take (len + 1)) with
    | some id => some (id, len + 1)
    | none => longestMatch suffix len

/-- What one round of the scan at `i` pushes, and how far it moves. Without a match, the byte
table is looked up under the original byte's position in the text. -/
def pushAt (orig bytes : List UInt8) (i : ℕ) : Option (TokenId × ℕ) :=
  match T.longestMatch (bytes.drop i) (min (bytes.length - i) 64) with
  | some (id, len) => some (id, len)
  | none => do
    let pos ← origByteAt orig bytes i
    let first ← bytes[i]?
    if pos < 256 then some (T.byteToToken (UInt8.ofNat pos), gpt2CharLen first) else none

/-- Every round moves by at least one byte, so the number of bytes is enough fuel. -/
def initialTokeniseFrom (orig bytes : List UInt8) : ℕ → ℕ → Option (List TokenId)
  | 0, _ => some []
  | fuel + 1, i =>
    if i < bytes.length then do
      let (id, len) ← T.pushAt orig bytes i
      let ids ← initialTokeniseFrom orig bytes fuel (i + len)
      return id :: ids
    else some []

def initialTokenise (text : String) : Option (List TokenId) :=
  let orig := utf8 text
  let bytes := bytesToGpt2Unicode orig
  T.initialTokeniseFrom orig bytes bytes.length 0

/-! ## Merging -/

/-- The scan of adjacent pairs from position `i`, with the best rank and position so far. -/
def bestMergeFrom : List TokenId → ℕ → UInt32 × Option ℕ → UInt32 × Option ℕ
  | a :: b :: rest, i, best =>
    match T.mergeRank.get (a, b) with
    | some rank =>
      bestMergeFrom (b :: rest) (i + 1) (if rank < best.1 then (rank, some i) else best)
    | none => bestMergeFrom (b :: rest) (i + 1) best
  | _, _, best => best

def bestMerge (ids : List TokenId) : Option ℕ := (T.bestMergeFrom ids 0 (0xFFFFFFFF, none)).2

/-- Each merge shortens the list, so the number of ids is enough fuel. -/
def bpeMergeFrom : ℕ → List TokenId → Option (List TokenId)
  | 0, ids => some ids
  | fuel + 1, ids =>
    match T.bestMerge ids with
    | none => some ids
    | some bestPos => do
      let left ← ids[bestPos]? >>= T.textOf
      let right ← ids[bestPos + 1]? >>= T.textOf
      match T.tokenToId.get (left ++ right) with
      | some mergedId => bpeMergeFrom fuel ((ids.set bestPos mergedId).eraseIdx (bestPos + 1))
      | none => some ids

def bpeMerge (ids : List TokenId) : Option (List TokenId) := T.bpeMergeFrom ids.length ids

def encode (text : String) (addBos : Bool) : Option (List TokenId) := do
  let working ← T.initialTokenise text
  let working ← T.bpeMerge working
  return (if addBos then [TOKEN_BOS] else []) ++ working

def encodeNoBos (text : String) : Option (List TokenId) := T.encode text false

/-! ## Decoding -/

/-- The bytes an id contributes to the decoded text. -/
def decodedBytes (id : TokenId) : List UInt8 :=
  if id = TOKEN_BOS ∨ id = TOKEN_EOS ∨ id = TOKEN_PAD then []
  else
    match T.vocab[id.toNat]? with
    | some entry => if entry.tokenType = 3 then [] else entry.text
    | none => []

def decode (ids : List TokenId) : String :=
  let bytes := ids.flatMap T.decodedBytes
  (fromUtf8 bytes).getD (fromUtf8Lossy bytes)

/-- The text streamed for one id, with the spelled space and newline put back. -/
def decodeOne (id : TokenId) : Option String :=
  if id = TOKEN_BOS ∨ id = TOKEN_EOS ∨ id = TOKEN_EOT ∨ id = TOKEN_PAD then none
  else do
    let entry ← T.vocab[id.toNat]?
    if entry.tokenType = 3 then none
    else some (String.ofList ((fromUtf8Lossy entry.text).toList.map fun c =>
      if c = '\u0120' then ' ' else if c = '\u010a' then '\n' else c))

def isEos (id : TokenId) : Bool := id = TOKEN_EOS || id = TOKEN_EOT

/-! ## The longest match -/

variable {T}

/-- A match is a prefix in the table, within the bound, and no longer prefix is. -/
theorem longestMatch_eq_some {suffix : List UInt8} {bound len : ℕ} {id : TokenId}
    (h : T.longestMatch suffix bound = some (id, len)) :
    0 < len ∧ len ≤ bound ∧ T.tokenToId.get (suffix.take len) = some id ∧
      ∀ longer, len < longer → longer ≤ bound → T.tokenToId.get (suffix.take longer) = none := by
  induction bound with
  | zero => cases h
  | succ bound ih =>
    unfold longestMatch at h
    split at h
    · rename_i hget
      cases h
      exact ⟨by omega, Nat.le_refl _, hget, fun longer h₁ h₂ => absurd h₁ (by omega)⟩
    · rename_i hget
      obtain ⟨hpos, hle, hid, hlonger⟩ := ih h
      refine ⟨hpos, by omega, hid, fun longer h₁ h₂ => ?_⟩
      rcases Nat.le_succ_iff.mp h₂ with h₂ | rfl
      · exact hlonger longer h₁ h₂
      · exact hget

theorem longestMatch_eq_none {suffix : List UInt8} {bound : ℕ}
    (h : T.longestMatch suffix bound = none) {len : ℕ} (hpos : 0 < len) (hle : len ≤ bound) :
    T.tokenToId.get (suffix.take len) = none := by
  induction bound with
  | zero => omega
  | succ bound ih =>
    unfold longestMatch at h
    split at h
    · cases h
    · rename_i hget
      rcases Nat.le_succ_iff.mp hle with hle | rfl
      · exact ih h hle
      · exact hget

theorem pushAt_pos {orig bytes : List UInt8} {i len : ℕ} {id : TokenId}
    (h : T.pushAt orig bytes i = some (id, len)) : 0 < len := by
  unfold pushAt at h
  split at h
  · rename_i hmatch
    cases h
    exact (longestMatch_eq_some hmatch).1
  · obtain ⟨pos, -, h⟩ := Option.bind_eq_some_iff.mp h
    obtain ⟨first, -, h⟩ := Option.bind_eq_some_iff.mp h
    split at h
    · cases h
      unfold gpt2CharLen
      split
      · decide
      · split <;> decide
    · cases h

/-! ## Merging ids is pair merging -/

variable (T)

/-- The rank the merge loop sees; the maximal one never wins. -/
def rankOf (a b : TokenId) : Option ℕ :=
  ((T.mergeRank.get (a, b)).filter (· < 0xFFFFFFFF)).map UInt32.toNat

/-- The entry with the concatenated bytes. -/
def joinOf (a b : TokenId) : Option TokenId := do
  let left ← T.textOf a
  let right ← T.textOf b
  T.tokenToId.get (left ++ right)

variable {T}

/-- What a scan from position `i` keeps, when the pairs it sees have the best pair `found`. -/
def keepBest (i : ℕ) (best : UInt32 × Option ℕ) : Option (ℕ × ℕ) → UInt32 × Option ℕ
  | some (k, p) => if k < best.1.toNat then (UInt32.ofNat k, some (i + p)) else best
  | none => best

/-- An unranked pair is skipped. -/
theorem keepBest_map (i : ℕ) (best : UInt32 × Option ℕ) (found : Option (ℕ × ℕ)) :
    keepBest i best (found.map fun kp => (kp.1, kp.2 + 1)) = keepBest (i + 1) best found := by
  cases found with
  | none => rfl
  | some kp => simp [keepBest, Nat.add_right_comm, Nat.add_assoc]

/-- A ranked pair takes the lead if it is better than what was found before. -/
theorem keepBest_earlier (i : ℕ) (best : UInt32 × Option ℕ) (rank : UInt32)
    (found : Option (ℕ × ℕ)) : keepBest i best (some (PairMerge.earlier rank.toNat found)) =
      keepBest (i + 1) (if rank < best.1 then (rank, some i) else best) found := by
  have hlt : rank < best.1 ↔ rank.toNat < best.1.toNat := UInt32.lt_iff_toNat_lt
  cases found with
  | none =>
    simp only [PairMerge.earlier, hlt]
    by_cases hbetter : rank.toNat < best.1.toNat <;> simp [keepBest, hbetter]
  | some kp =>
    simp only [PairMerge.earlier, hlt]
    by_cases hbetter : rank.toNat < best.1.toNat
    · by_cases hk : kp.1 < rank.toNat
      · have hk' := Nat.lt_trans hk hbetter
        simp [keepBest, hbetter, hk, hk', Nat.add_right_comm, Nat.add_assoc]
      · simp [keepBest, hbetter, hk]
    · by_cases hk : kp.1 < rank.toNat
      · simp [keepBest, hbetter, hk, Nat.add_right_comm, Nat.add_assoc]
      · have hk' : ¬ kp.1 < best.1.toNat := by omega
        simp [keepBest, hbetter, hk, hk']

/-- The scan keeps the best pair of the whole list, if it beats what was found before. -/
theorem bestMergeFrom_eq (ids : List TokenId) (i : ℕ) (best : UInt32 × Option ℕ) :
    T.bestMergeFrom ids i best = keepBest i best (PairMerge.best T.rankOf ids) := by
  induction ids generalizing i best with
  | nil => rfl
  | cons a ids ih =>
    cases ids with
    | nil => rfl
    | cons b rest =>
      unfold bestMergeFrom
      cases hget : T.mergeRank.get (a, b) with
      | none =>
        have hrank : T.rankOf a b = none := by simp [rankOf, hget]
        rw [PairMerge.best_of_none hrank, keepBest_map]
        exact ih (i + 1) best
      | some rank =>
        by_cases hlast : rank < 0xFFFFFFFF
        · have hrank : T.rankOf a b = some rank.toNat := by simp [rankOf, hget, hlast]
          rw [PairMerge.best_of_some hrank, keepBest_earlier]
          exact ih (i + 1) _
        · have hrank : T.rankOf a b = none := by simpa [rankOf, hget] using hlast
          have hmax : best.1 ≤ 0xFFFFFFFF :=
            UInt32.le_iff_toNat_le.mpr (Nat.le_of_lt_succ best.1.toNat_lt)
          have hbetter : ¬ rank < best.1 := fun h => hlast (UInt32.lt_of_lt_of_le h hmax)
          rw [PairMerge.best_of_none hrank, keepBest_map]
          dsimp only
          rw [if_neg hbetter]
          exact ih (i + 1) best
theorem bestMerge_eq (ids : List TokenId) :
    T.bestMerge ids = (PairMerge.best T.rankOf ids).map Prod.snd := by
  rw [bestMerge, bestMergeFrom_eq]
  cases hbest : PairMerge.best T.rankOf ids with
  | none => rfl
  | some kp =>
    obtain ⟨l, a, b, r, -, -, hk⟩ := PairMerge.best_eq_some (k := kp.1) (p := kp.2) hbest
    obtain ⟨rank, hrank, hnat⟩ := Option.map_eq_some_iff.mp hk
    have hlt : rank < 0xFFFFFFFF := by simpa using (Option.filter_eq_some_iff.mp hrank).2
    have hlt' : kp.1 < 0xFFFFFFFF := hnat ▸ UInt32.lt_iff_toNat_lt.mp hlt
    simp [keepBest, hlt']

/-- A merge loop that returns has computed the pair merging. -/
theorem eq_normalizeFrom_of_bpeMergeFrom {fuel : ℕ} {ids out : List TokenId}
    (h : T.bpeMergeFrom fuel ids = some out) :
    out = PairMerge.normalizeFrom T.rankOf T.joinOf fuel ids := by
  induction fuel generalizing ids with
  | zero =>
    cases h
    rfl
  | succ fuel ih =>
    unfold bpeMergeFrom at h
    unfold PairMerge.normalizeFrom PairMerge.step
    rw [bestMerge_eq] at h
    cases hbest : PairMerge.best T.rankOf ids with
    | none =>
      rw [hbest] at h
      cases h
      rfl
    | some kp =>
      obtain ⟨l, a, b, r, rfl, hlen, -⟩ := PairMerge.best_eq_some (k := kp.1) (p := kp.2) hbest
      rw [hbest, Option.map_some, ← hlen] at h
      obtain ⟨left, hleft, h⟩ := Option.bind_eq_some_iff.mp h
      obtain ⟨right, hright, h⟩ := Option.bind_eq_some_iff.mp h
      have hjoin : T.joinOf a b = T.tokenToId.get (left ++ right) := by
        have ha : T.textOf a = some left := by simpa using hleft
        have hb : T.textOf b = some right := by simpa using hright
        simp [joinOf, ha, hb]
      rw [Option.bind_some, ← hlen, PairMerge.contract_append, hjoin]
      cases hget : T.tokenToId.get (left ++ right) with
      | none =>
        rw [hget] at h
        cases h
        rfl
      | some c =>
        rw [hget] at h
        exact ih (by simpa [List.eraseIdx_append_of_length_le] using h)

theorem eq_normalize_of_bpeMerge {ids out : List TokenId} (h : T.bpeMerge ids = some out) :
    out = PairMerge.normalize T.rankOf T.joinOf ids :=
  eq_normalizeFrom_of_bpeMergeFrom h

/-- On ids of the vocabulary the merge loop never aborts. -/
theorem isSome_bpeMergeFrom
    (hid : ∀ t id, T.tokenToId.get t = some id → (T.textOf id).isSome) (fuel : ℕ)
    {ids : List TokenId} (hids : ∀ id ∈ ids, (T.textOf id).isSome) :
    (T.bpeMergeFrom fuel ids).isSome := by
  induction fuel generalizing ids with
  | zero => rfl
  | succ fuel ih =>
    unfold bpeMergeFrom
    rw [bestMerge_eq]
    cases hbest : PairMerge.best T.rankOf ids with
    | none => rfl
    | some kp =>
      obtain ⟨l, a, b, r, rfl, hlen, -⟩ := PairMerge.best_eq_some (k := kp.1) (p := kp.2) hbest
      obtain ⟨left, hleft⟩ := Option.isSome_iff_exists.mp (hids a (by simp))
      obtain ⟨right, hright⟩ := Option.isSome_iff_exists.mp (hids b (by simp))
      rw [Option.map_some, ← hlen]
      cases hget : T.tokenToId.get (left ++ right) with
      | none => simp [hleft, hright, hget]
      | some c =>
        have hrest : ∀ id ∈ l ++ c :: r, (T.textOf id).isSome := by
          intro id hmem
          rcases List.mem_append.mp hmem with hmem | hmem
          · exact hids id (by simp [hmem])
          · rcases List.mem_cons.mp hmem with rfl | hmem
            · exact hid _ _ hget
            · exact hids id (by simp [hmem])
        simpa [hleft, hright, hget, List.eraseIdx_append_of_length_le] using ih hrest

theorem isSome_bpeMerge (hid : ∀ t id, T.tokenToId.get t = some id → (T.textOf id).isSome)
    {ids : List TokenId} (hids : ∀ id ∈ ids, (T.textOf id).isSome) : (T.bpeMerge ids).isSome :=
  isSome_bpeMergeFrom hid ids.length hids

/-! ## A text that is an entry -/

/-- The longest match of a key is the key. -/
theorem longestMatch_of_get {t : List UInt8} {id : TokenId}
    (hget : T.tokenToId.get t = some id) (hne : t ≠ []) :
    T.longestMatch t t.length = some (id, t.length) := by
  obtain ⟨n, hn⟩ := Nat.exists_eq_succ_of_ne_zero (mt List.length_eq_zero_iff.mp hne)
  have htake : t.take (n + 1) = t := List.take_of_length_le (Nat.le_of_eq hn)
  rw [hn, longestMatch, htake, hget]

/-- An entry that spells a text of up to 64 bytes is what that text is encoded with. -/
theorem encodeNoBos_of_get {text : String} {id : TokenId}
    (hget : T.tokenToId.get (bytesToGpt2Unicode (utf8 text)) = some id)
    (hne : bytesToGpt2Unicode (utf8 text) ≠ [])
    (hle : (bytesToGpt2Unicode (utf8 text)).length ≤ 64) : T.encodeNoBos text = some [id] := by
  have hgreedy : T.initialTokenise text = some [id] := by
    rw [initialTokenise]
    generalize bytesToGpt2Unicode (utf8 text) = bytes at hget hne hle
    obtain ⟨n, hn⟩ := Nat.exists_eq_succ_of_ne_zero (mt List.length_eq_zero_iff.mp hne)
    have hpush : T.pushAt (utf8 text) bytes 0 = some (id, bytes.length) := by
      rw [pushAt, List.drop_zero, Nat.sub_zero, Nat.min_eq_left hle,
        longestMatch_of_get hget hne]
    have hrest : T.initialTokeniseFrom (utf8 text) bytes n bytes.length = some [] := by
      cases n <;> simp [initialTokeniseFrom]
    rw [hn, initialTokeniseFrom, if_pos (by omega), hpush]
    simp [hrest]
  have hmerge : T.bpeMerge [id] = some [id] := rfl
  simp [encodeNoBos, encode, hgreedy, hmerge]

end QuantumFlow.Tokenizer
