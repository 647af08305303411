import QuantumFlow.Tokenizer.Numbering

/-!
# The byte fallback

Where no entry matches, the scan looks up the byte table under the position of the byte in the
text, and not under its value. The scan itself, by longest matches and whole characters, can be
described without the table: it falls back at a byte whose character is visited and matches
nothing. The position is an index of the table only below 256.
-/

namespace QuantumFlow

/-! ## Where characters begin -/

/-- Where the character of byte `j` begins in the spelling of `orig`. -/
def charStart (orig : List UInt8) (j : ℕ) : ℕ := (bytesToGpt2Unicode (orig.take j)).length

/-- The length of a character can be read off its first byte. -/
theorem gpt2CharLen_head (b : UInt8) :
    ∃ c cs, gpt2Bytes b = c :: cs ∧ gpt2CharLen c = (gpt2Bytes b).length := by
  have hall : ∀ n : Fin 256, (encodeCodepoint (codepointOf n)).head?.map gpt2CharLen =
      some (encodeCodepoint (codepointOf n)).length := by decide +kernel
  have hb := hall b.toFin
  rw [gpt2Bytes, getD_TABLE]
  obtain ⟨c, hc, hlen⟩ := Option.map_eq_some_iff.mp hb
  obtain ⟨cs, hcs⟩ := List.head?_eq_some_iff.mp hc
  exact ⟨c, cs, hcs, hlen⟩

@[simp] theorem charStart_zero (orig : List UInt8) : charStart orig 0 = 0 := by simp [charStart]

@[simp] theorem charStart_cons_succ (b : UInt8) (orig : List UInt8) (j : ℕ) :
    charStart (b :: orig) (j + 1) = (gpt2Bytes b).length + charStart orig j := by
  simp [charStart]

/-- Every character takes at least one byte. -/
theorem charStart_lt_charStart {orig : List UInt8} {i j : ℕ} (hij : i < j) (hj : j ≤ orig.length) :
    charStart orig i < charStart orig j := by
  induction orig generalizing i j with
  | nil =>
    simp only [List.length_nil] at hj
    omega
  | cons b orig ih =>
    have hb := List.length_pos_iff.mpr (gpt2Bytes_ne_nil b)
    cases j with
    | zero => omega
    | succ j =>
      cases i with
      | zero =>
        simp only [charStart_zero, charStart_cons_succ]
        omega
      | succ i =>
        have hrest := ih (i := i) (j := j) (by omega) (by simpa using hj)
        simpa using hrest

theorem charStart_length (orig : List UInt8) :
    charStart orig orig.length = (bytesToGpt2Unicode orig).length := by
  simp [charStart]

theorem charStart_lt_length {orig : List UInt8} {j : ℕ} (hj : j < orig.length) :
    charStart orig j < (bytesToGpt2Unicode orig).length := by
  rw [← charStart_length]
  exact charStart_lt_charStart hj (Nat.le_refl _)

/-- The byte at the start of a character tells where the next one starts. -/
theorem exists_getElem?_charStart {orig : List UInt8} {j : ℕ} (hj : j < orig.length) :
    ∃ c, (bytesToGpt2Unicode orig)[charStart orig j]? = some c ∧
      charStart orig j + gpt2CharLen c = charStart orig (j + 1) := by
  induction orig generalizing j with
  | nil => cases hj
  | cons b orig ih =>
    cases j with
    | zero =>
      obtain ⟨c, cs, hcs, hlen⟩ := gpt2CharLen_head b
      exact ⟨c, by simp [hcs], by simp [hlen]⟩
    | succ j =>
      obtain ⟨c, hc, hlen⟩ := ih (j := j) (by simpa using hj)
      refine ⟨c, ?_, ?_⟩
      · rw [bytesToGpt2Unicode_cons, charStart_cons_succ, List.getElem?_append_right (by omega),
          Nat.add_sub_cancel_left]
        exact hc
      · rw [charStart_cons_succ, charStart_cons_succ, ← hlen, Nat.add_assoc]

/-- The scan for the original byte stops at the character it looks for, and returns 0 if it does
not come to its position. -/
theorem origByteAtFrom_spelled (gpt2Pos : ℕ) (pre orig : List UInt8) (idx : ℕ) :
    ∃ pos, origByteAtFrom (pre ++ bytesToGpt2Unicode orig) gpt2Pos orig idx pre.length = some pos ∧
      (pos = 0 ∨ ∃ j < orig.length, gpt2Pos = pre.length + charStart orig j ∧ pos = idx + j) ∧
      ∀ j < orig.length, gpt2Pos = pre.length + charStart orig j → pos = idx + j := by
  induction orig generalizing pre idx with
  | nil => exact ⟨0, rfl, Or.inl rfl, fun j hj => absurd hj (Nat.not_lt_zero j)⟩
  | cons b orig ih =>
    obtain ⟨c, cs, hcs, hlen⟩ := gpt2CharLen_head b
    have hpos := List.length_pos_iff.mpr (gpt2Bytes_ne_nil b)
    rw [origByteAtFrom]
    split
    · rename_i heq
      refine ⟨idx, rfl, Or.inr ⟨0, by simp, by simp [heq], rfl⟩, fun j hj hstart => ?_⟩
      cases j with
      | zero => rfl
      | succ j =>
        rw [charStart_cons_succ] at hstart
        omega
    · rename_i hne
      have hfirst : (pre ++ bytesToGpt2Unicode (b :: orig))[pre.length]? = some c := by
        simp [hcs]
      obtain ⟨pos, hscan, hfound, hall⟩ := ih (pre ++ gpt2Bytes b) (idx + 1)
      rw [List.append_assoc, ← bytesToGpt2Unicode_cons, List.length_append] at hscan
      rw [List.length_append] at hfound hall
      refine ⟨pos, ?_, ?_, fun j hj hstart => ?_⟩
      · rw [hfirst, Option.bind_eq_bind, Option.bind_some, hlen]
        exact hscan
      · rcases hfound with hzero | ⟨j, hj, hstart, hpos'⟩
        · exact Or.inl hzero
        · refine Or.inr ⟨j + 1, by simpa using hj, ?_, by omega⟩
          rw [charStart_cons_succ, hstart, Nat.add_assoc]
      · cases j with
        | zero => exact absurd (by simpa using hstart.symm) hne
        | succ j =>
          rw [charStart_cons_succ, ← Nat.add_assoc] at hstart
          rw [hall j (by simpa using hj) hstart, Nat.add_assoc, Nat.add_comm 1 j]

/-- The original byte of a character is found. -/
theorem origByteAt_charStart {orig : List UInt8} {j : ℕ} (hj : j < orig.length) :
    origByteAt orig (bytesToGpt2Unicode orig) (charStart orig j) = some j := by
  obtain ⟨pos, hscan, -, hall⟩ :=
    origByteAtFrom_spelled (charStart orig j) [] orig 0
  have hpos := hall j hj (by simp)
  rw [origByteAt]
  simpa [hpos] using hscan

/-- No scan runs off the spelling, and inside a character it returns 0. -/
theorem origByteAt_cases (orig : List UInt8) (i : ℕ) :
    (∃ j < orig.length, i = charStart orig j) ∨
      origByteAt orig (bytesToGpt2Unicode orig) i = some 0 := by
  obtain ⟨pos, hscan, hfound, -⟩ := origByteAtFrom_spelled i [] orig 0
  rcases hfound with rfl | ⟨j, hj, hi, -⟩
  · exact Or.inr hscan
  · exact Or.inl ⟨j, hj, by simpa using hi⟩

namespace Tokenizer

variable (T : Tokenizer)

/-! ## The scan without the table -/

/-- The longest match at `i`, if there is one. -/
def matchAt (bytes : List UInt8) (i : ℕ) : Option (TokenId × ℕ) :=
  T.longestMatch (bytes.drop i) (min (bytes.length - i) 64)

/-- How far the scan moves at `i`: over the match, or over a character. -/
def stride (bytes : List UInt8) (i : ℕ) : ℕ :=
  match T.matchAt bytes i with
  | some (_, len) => len
  | none => gpt2CharLen (bytes.getD i 0)

/-- The scan comes from `i` to `j`, by longest matches and whole characters. -/
def Visits (bytes : List UInt8) : ℕ → ℕ → Prop :=
  Relation.ReflTransGen fun i j => i < bytes.length ∧ j = i + T.stride bytes i

/-- Nothing matches at the character of byte `j`, and the scan comes there. -/
def FallsBackAt (orig : List UInt8) (j : ℕ) : Prop :=
  j < orig.length ∧ T.Visits (bytesToGpt2Unicode orig) 0 (charStart orig j) ∧
    T.matchAt (bytesToGpt2Unicode orig) (charStart orig j) = none

variable {T}

theorem pushAt_of_match {orig bytes : List UInt8} {i : ℕ} {p : TokenId × ℕ}
    (h : T.matchAt bytes i = some p) : T.pushAt orig bytes i = some p := by
  rw [matchAt] at h
  rw [pushAt, h]

/-- The fallback at the character of byte `j` looks up the table under `j`. -/
theorem pushAt_charStart {orig : List UInt8} {j : ℕ} (hj : j < orig.length)
    (h : T.matchAt (bytesToGpt2Unicode orig) (charStart orig j) = none) :
    T.pushAt orig (bytesToGpt2Unicode orig) (charStart orig j) =
      if j < 256 then
        some (T.byteToToken (UInt8.ofNat j), charStart orig (j + 1) - charStart orig j)
      else none := by
  obtain ⟨c, hc, hnext⟩ := exists_getElem?_charStart hj
  have hlen : gpt2CharLen c = charStart orig (j + 1) - charStart orig j := by omega
  rw [matchAt] at h
  rw [pushAt, h]
  simp [origByteAt_charStart hj, hc, hlen]

/-- Inside a character the fallback looks up the table under 0. -/
theorem isSome_pushAt {orig : List UInt8} {i : ℕ} (hi : i < (bytesToGpt2Unicode orig).length)
    (h : ∀ j < orig.length, i = charStart orig j →
      T.matchAt (bytesToGpt2Unicode orig) i = none → j < 256) :
    (T.pushAt orig (bytesToGpt2Unicode orig) i).isSome := by
  cases hmatch : T.matchAt (bytesToGpt2Unicode orig) i with
  | some p => rw [pushAt_of_match hmatch, Option.isSome_some]
  | none =>
    rcases origByteAt_cases orig i with ⟨j, hj, rfl⟩ | hzero
    · rw [pushAt_charStart hj hmatch, if_pos (h j hj rfl hmatch), Option.isSome_some]
    · rw [matchAt] at hmatch
      rw [pushAt, hmatch]
      simp [hzero, List.getElem?_eq_getElem hi]

/-- A round that pushes something moves by the stride. -/
theorem eq_stride_of_pushAt {orig bytes : List UInt8} {i len : ℕ} {id : TokenId}
    (h : T.pushAt orig bytes i = some (id, len)) : len = T.stride bytes i := by
  rw [stride]
  cases hmatch : T.matchAt bytes i with
  | some p =>
    rw [pushAt_of_match hmatch] at h
    cases h
    rfl
  | none =>
    rw [matchAt] at hmatch
    rw [pushAt, hmatch] at h
    obtain ⟨pos, -, h⟩ := Option.bind_eq_some_iff.mp h
    obtain ⟨first, hfirst, h⟩ := Option.bind_eq_some_iff.mp h
    split at h
    · cases h
      rw [List.getD_eq_getElem?_getD, hfirst, Option.getD_some]
    · cases h

/-- The scan returns exactly if every round that it comes to pushes something. -/
theorem isSome_initialTokeniseFrom {orig bytes : List UInt8} {fuel i : ℕ}
    (hfuel : bytes.length - i ≤ fuel) :
    (T.initialTokeniseFrom orig bytes fuel i).isSome ↔
      ∀ j, T.Visits bytes i j → j < bytes.length → (T.pushAt orig bytes j).isSome := by
  have hend : ∀ i, ¬ i < bytes.length →
      ∀ j, T.Visits bytes i j → j < bytes.length → (T.pushAt orig bytes j).isSome := by
    intro i hi j hij hj
    rcases hij.cases_head with rfl | ⟨k, hik, -⟩
    · exact absurd hj hi
    · exact absurd hik.1 hi
  induction fuel generalizing i with
  | zero => exact iff_of_true rfl (hend i (by omega))
  | succ fuel ih =>
    rw [initialTokeniseFrom]
    split
    · rename_i hi
      cases hpush : T.pushAt orig bytes i with
      | none =>
        refine iff_of_false (by simp) fun h => ?_
        simpa [hpush] using h i .refl hi
      | some p =>
        have hpos : 0 < p.2 := pushAt_pos hpush
        have hlen : p.2 = T.stride bytes i := eq_stride_of_pushAt hpush
        have hrest := ih (i := i + p.2) (by omega)
        have hmap : ((T.initialTokeniseFrom orig bytes fuel (i + p.2)).bind fun ids =>
            some (p.1 :: ids)).isSome =
              (T.initialTokeniseFrom orig bytes fuel (i + p.2)).isSome := by
          cases T.initialTokeniseFrom orig bytes fuel (i + p.2) <;> rfl
        refine Iff.trans (by simpa using Bool.eq_iff_iff.mp hmap) (hrest.trans ?_)
        constructor
        · intro h j hij hj
          rcases hij.cases_head with rfl | ⟨k, ⟨-, rfl⟩, hkj⟩
          · simp [hpush]
          · exact h j (hlen ▸ hkj) hj
        · exact fun h j hij hj => h j (.head ⟨hi, by rw [hlen]⟩ hij) hj
    · rename_i hi
      exact iff_of_true rfl (hend i hi)

/-! ## The cut, from the tables alone -/

variable (T)

/-- `pos` is the byte whose character begins at `i`; inside a character it is 0. -/
def BytePosition (orig : List UInt8) (i pos : ℕ) : Prop :=
  (pos < orig.length ∧ i = charStart orig pos) ∨
    ((∀ j < orig.length, i ≠ charStart orig j) ∧ pos = 0)

/-- The ids of the spelling of `orig` from `i` on: of the longest entry of up to 64 bytes at each
place, or where there is none, the byte table's under the position of the byte. -/
inductive Cut (orig : List UInt8) : ℕ → List TokenId → Prop
  | done {i : ℕ} (atEnd : (bytesToGpt2Unicode orig).length ≤ i) : Cut orig i []
  | entry {i len : ℕ} {id : TokenId} {ids : List TokenId} (nonempty : 0 < len)
      (within : i + len ≤ (bytesToGpt2Unicode orig).length) (bound : len ≤ 64)
      (found : T.tokenToId.get (((bytesToGpt2Unicode orig).drop i).take len) = some id)
      (longest : ∀ longer, len < longer → longer ≤ 64 →
        i + longer ≤ (bytesToGpt2Unicode orig).length →
        T.tokenToId.get (((bytesToGpt2Unicode orig).drop i).take longer) = none)
      (rest : Cut orig (i + len) ids) : Cut orig i (id :: ids)
  | byte {i pos : ℕ} {c : UInt8} {ids : List TokenId}
      (first : (bytesToGpt2Unicode orig)[i]? = some c)
      (missing : ∀ len, 0 < len → len ≤ 64 → i + len ≤ (bytesToGpt2Unicode orig).length →
        T.tokenToId.get (((bytesToGpt2Unicode orig).drop i).take len) = none)
      (position : BytePosition orig i pos) (index : pos < 256)
      (rest : Cut orig (i + gpt2CharLen c) ids) :
      Cut orig i (T.byteToToken (UInt8.ofNat pos) :: ids)

variable {T}

theorem bytePosition_of_origByteAt {orig : List UInt8} {i pos : ℕ}
    (h : origByteAt orig (bytesToGpt2Unicode orig) i = some pos) : BytePosition orig i pos := by
  by_cases hstart : ∃ j < orig.length, i = charStart orig j
  · obtain ⟨j, hj, rfl⟩ := hstart
    rw [origByteAt_charStart hj] at h
    cases h
    exact Or.inl ⟨hj, rfl⟩
  · have hinside : ∀ j < orig.length, i ≠ charStart orig j :=
      fun j hj hi => hstart ⟨j, hj, hi⟩
    rcases origByteAt_cases orig i with hfound | hzero
    · exact absurd hfound hstart
    · rw [hzero] at h
      cases h
      exact Or.inr ⟨hinside, rfl⟩

/-- The scan returns the ids of the cut. -/
theorem cut_of_initialTokeniseFrom {orig : List UInt8} {fuel i : ℕ} {ids : List TokenId}
    (h : T.initialTokeniseFrom orig (bytesToGpt2Unicode orig) fuel i = some ids)
    (hfuel : (bytesToGpt2Unicode orig).length - i ≤ fuel) : T.Cut orig i ids := by
  induction fuel generalizing i ids with
  | zero =>
    cases h
    exact .done (by omega)
  | succ fuel ih =>
    unfold initialTokeniseFrom at h
    split at h
    · rename_i hi
      obtain ⟨⟨id, len⟩, hpush, h⟩ := Option.bind_eq_some_iff.mp h
      obtain ⟨rest, hrest, h⟩ := Option.bind_eq_some_iff.mp h
      cases h
      have hpos := pushAt_pos hpush
      have hcut := ih hrest (by omega)
      unfold pushAt at hpush
      split at hpush
      · rename_i hmatch
        cases hpush
        obtain ⟨-, hbound, hfound, hlonger⟩ := longestMatch_eq_some hmatch
        exact .entry hpos (by omega) (by omega) hfound
          (fun longer hlt hle hwithin => hlonger longer hlt (by omega)) hcut
      · rename_i hmatch
        obtain ⟨pos, hposition, hpush⟩ := Option.bind_eq_some_iff.mp hpush
        obtain ⟨c, hc, hpush⟩ := Option.bind_eq_some_iff.mp hpush
        split at hpush
        · rename_i hindex
          cases hpush
          exact .byte hc (fun len hlen hle hwithin => longestMatch_eq_none hmatch hlen (by omega))
            (bytePosition_of_origByteAt hposition) hindex hcut
        · cases hpush
    · cases h
      exact .done (by omega)

theorem cut_of_initialTokenise {text : String} {ids : List TokenId}
    (h : T.initialTokenise text = some ids) : T.Cut (utf8 text) 0 ids :=
  cut_of_initialTokeniseFrom h (by simp)

/-! ## Whole texts -/

variable (T)

def vocabSize : ℕ := T.vocab.length

/-- Encoding returns, and every id behind the optional BOS is below the size of the vocabulary. -/
def EncodesWithin (text : String) (addBos : Bool) : Prop :=
  ∃ ids, T.encode text addBos = some ids ∧
    ∀ id ∈ ids.drop (if addBos then 1 else 0), id.toNat < T.vocabSize

/-- Where the scan finds no match at the character of byte `j`, it pushes the token of that byte
and goes on at the character of byte `j + 1`. -/
def FallbackEmitsByte (text : String) : Prop :=
  ∀ j (hj : j < (utf8 text).length), T.CutAt text (charStart (utf8 text) j) →
    T.matchAt (bytesToGpt2Unicode (utf8 text)) (charStart (utf8 text) j) = none →
    ∃ len, T.pushAt (utf8 text) (bytesToGpt2Unicode (utf8 text)) (charStart (utf8 text) j) =
        some (T.byteToToken (utf8 text)[j], len) ∧
      charStart (utf8 text) j + len = charStart (utf8 text) (j + 1)

variable {T}

theorem isSome_initialTokenise_iff {text : String} :
    (T.initialTokenise text).isSome ↔ ∀ j, T.FallsBackAt (utf8 text) j → j < 256 := by
  rw [initialTokenise, isSome_initialTokeniseFrom (by omega)]
  constructor
  · rintro h j ⟨hj, hvisit, hnone⟩
    have hpush := h _ hvisit (charStart_lt_length hj)
    rw [pushAt_charStart hj hnone] at hpush
    by_contra hge
    simp [hge] at hpush
  · intro h i hvisit hi
    apply isSome_pushAt hi
    rintro j hj rfl hnone
    exact h j ⟨hj, hvisit, hnone⟩

/-- The cuts of the scan are positions that it visits. -/
theorem visits_of_cutAt {text : String} {i : ℕ} (h : T.CutAt text i) :
    T.Visits (bytesToGpt2Unicode (utf8 text)) 0 i := by
  induction h with
  | refl => exact .refl
  | tail _ hmove ih =>
    obtain ⟨hlt, id, len, hpush, rfl⟩ := hmove
    exact ih.tail ⟨hlt, by rw [eq_stride_of_pushAt hpush]⟩

/-- Up to the first round that fails, the positions visited are cuts of the scan. -/
theorem cutAt_of_visits {text : String} {i : ℕ}
    (h : ∀ k, T.CutAt text k → k < (bytesToGpt2Unicode (utf8 text)).length →
      (T.pushAt (utf8 text) (bytesToGpt2Unicode (utf8 text)) k).isSome)
    (hvisit : T.Visits (bytesToGpt2Unicode (utf8 text)) 0 i) : T.CutAt text i := by
  induction hvisit with
  | refl => exact .refl
  | tail _ hstep ih =>
    obtain ⟨hlt, rfl⟩ := hstep
    obtain ⟨⟨id, len⟩, hpush⟩ := Option.isSome_iff_exists.mp (h _ ih hlt)
    exact ih.tail ⟨hlt, id, len, hpush, by rw [eq_stride_of_pushAt hpush]⟩

/-- The fallback emits the right byte exactly if the table holds the same token under the position
of each byte that falls back as under its value. -/
theorem fallbackEmitsByte_iff (text : String) :
    T.FallbackEmitsByte text ↔ ∀ j (hj : j < (utf8 text).length), T.FallsBackAt (utf8 text) j →
      j < 256 ∧ T.byteToToken (UInt8.ofNat j) = T.byteToToken (utf8 text)[j] := by
  constructor
  · intro h j hj hfalls
    have hcut : T.CutAt text (charStart (utf8 text) j) := by
      refine cutAt_of_visits (fun k hk hlt => isSome_pushAt hlt ?_) hfalls.2.1
      rintro i hi rfl hnone
      obtain ⟨len, hpush, -⟩ := h i hi hk hnone
      rw [pushAt_charStart hi hnone] at hpush
      by_contra hge
      simp [hge] at hpush
    obtain ⟨len, hpush, -⟩ := h j hj hcut hfalls.2.2
    rw [pushAt_charStart hj hfalls.2.2] at hpush
    split at hpush
    · rename_i hlt
      exact ⟨hlt, congrArg Prod.fst (Option.some.inj hpush)⟩
    · cases hpush
  · intro h j hj hcut hnone
    obtain ⟨hlt, htable⟩ := h j hj ⟨hj, visits_of_cutAt hcut, hnone⟩
    have hnext := charStart_lt_charStart (Nat.lt_add_one j) hj
    refine ⟨charStart (utf8 text) (j + 1) - charStart (utf8 text) j, ?_, by omega⟩
    rw [pushAt_charStart hj hnone, if_pos hlt, htable]

end Tokenizer

section Built

variable {tokens : List String} {scores types : List UInt32} {merges : List String}
  {T : Tokenizer}

theorem BuiltFrom.length_vocab (built : BuiltFrom tokens scores types merges T) :
    T.vocab.length = tokens.length := by
  rw [built.vocab, buildVocab, List.length_mapIdx]

/-- With an entry in the vocabulary, id 0 numbers one as well. -/
theorem Tokenizer.Numbers.lt_vocabSize {id : TokenId} (h : T.Numbers id) (hne : T.vocab ≠ []) :
    id.toNat < T.vocabSize := by
  rcases h with hlt | rfl
  · exact hlt
  · exact List.length_pos_iff.mpr hne

/-- What the greedy pass returns can be merged. -/
theorem isSome_bpeMerge_initialTokenise (h : fromGgufParts tokens scores types merges = .ok T)
    (hne : T.vocab ≠ []) {text : String} {ids : List TokenId}
    (hgreedy : T.initialTokenise text = some ids) : (T.bpeMerge ids).isSome := by
  have htext : ∀ id, T.Numbers id → (T.textOf id).isSome := by
    intro id hid
    have hlt : id.toNat < T.vocab.length := hid.lt_vocabSize hne
    simp [Tokenizer.textOf, hlt]
  apply Tokenizer.isSome_bpeMerge
  · intro t id hget
    exact htext id (Or.inl ((builtFrom_of_eq_ok h).toNat_lt_vocab_of_get hget))
  · intro id hid
    have hpushes := (Tokenizer.mem_initialTokenise hgreedy id).mp hid
    exact htext id ((inTables_of_pushes hpushes).numbers h)

/-- Encoding fails only in the fallback. -/
theorem isSome_encode_iff (h : fromGgufParts tokens scores types merges = .ok T)
    (hne : T.vocab ≠ []) (text : String) (addBos : Bool) :
    (T.encode text addBos).isSome ↔ ∀ j, T.FallsBackAt (utf8 text) j → j < 256 := by
  rw [← Tokenizer.isSome_initialTokenise_iff]
  cases hgreedy : T.initialTokenise text with
  | none => simp [Tokenizer.encode, hgreedy]
  | some ids =>
    obtain ⟨merged, hmerged⟩ :=
      Option.isSome_iff_exists.mp (isSome_bpeMerge_initialTokenise h hne hgreedy)
    simp [Tokenizer.encode, hgreedy, hmerged]

/-- Encoding returns ids of the vocabulary exactly if no byte from the 257th on falls back. -/
theorem encodesWithin_iff (h : fromGgufParts tokens scores types merges = .ok T)
    (hne : tokens ≠ []) (text : String) (addBos : Bool) :
    T.EncodesWithin text addBos ↔ ∀ j, T.FallsBackAt (utf8 text) j → j < 256 := by
  have hvocab : T.vocab ≠ [] := by
    rw [← List.length_pos_iff, (builtFrom_of_eq_ok h).length_vocab]
    exact List.length_pos_iff.mpr hne
  rw [← isSome_encode_iff h hvocab text addBos]
  constructor
  · rintro ⟨ids, hids, -⟩
    rw [hids, Option.isSome_some]
  · intro hsome
    obtain ⟨ids, hids⟩ := Option.isSome_iff_exists.mp hsome
    refine ⟨ids, hids, fun id hid => ?_⟩
    obtain ⟨greedy, hgreedy, hrest⟩ := Option.bind_eq_some_iff.mp hids
    obtain ⟨merged, hmerged, hrest⟩ := Option.bind_eq_some_iff.mp hrest
    cases hrest
    have hencode : T.encodeNoBos text = some merged := by
      simp [Tokenizer.encodeNoBos, Tokenizer.encode, hgreedy, hmerged]
    have hmem : id ∈ merged := by
      cases addBos <;> simpa using hid
    exact ((inTables_of_mem_encodeNoBos hencode hmem).numbers h).lt_vocabSize hvocab

end Built

/-! ## The vocabulary of one letter -/

section OneLetter

variable {scores types : List UInt32} {merges : List String} {T : Tokenizer}

theorem eq_of_get_letter (built : BuiltFrom ["a"] scores types merges T) {t : List UInt8}
    {id : TokenId} (h : T.tokenToId.get t = some id) : t = [97] := by
  obtain ⟨tok, htok, htext⟩ := built.mem_of_get h
  obtain rfl := List.mem_singleton.mp htok
  exact htext ▸ rfl

/-- Only the letter itself matches. -/
theorem matchAt_letter (built : BuiltFrom ["a"] scores types merges T) {bytes : List UInt8} {k : ℕ}
    (hk : k < bytes.length) : T.matchAt bytes k = none ↔ bytes[k] ≠ 97 := by
  rw [Tokenizer.matchAt, List.drop_eq_getElem_cons hk]
  constructor
  · intro hnone hletter
    obtain ⟨id, hget⟩ := built.get_of_mem (List.mem_singleton_self "a")
    have htake := Tokenizer.longestMatch_eq_none hnone Nat.one_pos (by omega)
    rw [List.take_succ_cons, List.take_zero, hletter] at htake
    cases hget.symm.trans htake
  · intro hne
    by_contra hsome
    obtain ⟨⟨id, len⟩, hmatch⟩ := Option.ne_none_iff_exists'.mp hsome
    obtain ⟨hpos, -, hget, -⟩ := Tokenizer.longestMatch_eq_some hmatch
    obtain ⟨len, rfl⟩ := Nat.exists_eq_succ_of_ne_zero (Nat.ne_of_gt hpos)
    have hkey := eq_of_get_letter built hget
    rw [List.take_succ_cons] at hkey
    exact hne (List.head_eq_of_cons_eq hkey)

/-- The scan moves one byte at a time. -/
theorem stride_letter (built : BuiltFrom ["a"] scores types merges T) {bytes : List UInt8} {k : ℕ}
    (hk : k < bytes.length) (hascii : bytes[k] < 0x80) : T.stride bytes k = 1 := by
  rw [Tokenizer.stride]
  split
  · rename_i id len hmatch
    obtain ⟨-, hle, hget, -⟩ := Tokenizer.longestMatch_eq_some hmatch
    have hlength := congrArg List.length (eq_of_get_letter built hget)
    rw [List.length_take, List.length_drop, List.length_singleton] at hlength
    omega
  · rw [List.getD_eq_getElem?_getD, List.getElem?_eq_getElem hk, Option.getD_some, gpt2CharLen,
      if_pos hascii]

/-- In a text that is its own spelling, every byte but the letter falls back. -/
theorem fallsBackAt_letter (built : BuiltFrom ["a"] scores types merges T) {bytes : List UInt8}
    (hspelled : ∀ b ∈ bytes, 33 ≤ b ∧ b ≤ 126) {j : ℕ} :
    T.FallsBackAt bytes j ↔ ∃ hj : j < bytes.length, bytes[j] ≠ 97 := by
  have hspell := (bytesToGpt2Unicode_eq_self_iff bytes).mpr hspelled
  have hstart : ∀ k ≤ bytes.length, charStart bytes k = k := by
    intro k hk
    have htake := (bytesToGpt2Unicode_eq_self_iff (bytes.take k)).mpr
      fun b hb => hspelled b (List.mem_of_mem_take hb)
    rw [charStart, htake, List.length_take, Nat.min_eq_left hk]
  have hvisit : ∀ k ≤ bytes.length, T.Visits bytes 0 k := by
    intro k hk
    induction k with
    | zero => exact .refl
    | succ k ih =>
      have hascii : bytes[k] < 0x80 :=
        UInt8.lt_of_le_of_lt (hspelled _ (List.getElem_mem hk)).2 (by decide)
      exact (ih (Nat.le_of_lt hk)).tail ⟨hk, by rw [stride_letter built hk hascii]⟩
  constructor
  · rintro ⟨hj, -, hnone⟩
    rw [hspell, hstart j (Nat.le_of_lt hj)] at hnone
    exact ⟨hj, (matchAt_letter built hj).mp hnone⟩
  · rintro ⟨hj, hne⟩
    rw [Tokenizer.FallsBackAt, hspell, hstart j (Nat.le_of_lt hj)]
    exact ⟨hj, hvisit j (Nat.le_of_lt hj), (matchAt_letter built hj).mpr hne⟩

/-- `n` letters that are not in the vocabulary, and `m` that are. -/
def lettersBA (n m : ℕ) : String := String.ofList (List.replicate n 'b' ++ List.replicate m 'a')

theorem utf8_lettersBA (n m : ℕ) :
    utf8 (lettersBA n m) = List.replicate n 98 ++ List.replicate m 97 := by
  have hchars : ∀ (c : Char) (b : UInt8) k, String.utf8EncodeChar c = [b] →
      utf8Chars (List.replicate k c) = List.replicate k b := by
    intro c b k hc
    induction k with
    | zero => rfl
    | succ k ih => rw [List.replicate_succ, utf8Chars_cons, ih, hc, List.replicate_succ]; rfl
  rw [lettersBA, utf8_ofList, utf8Chars_append, hchars 'b' 98 n (by decide),
    hchars 'a' 97 m (by decide)]

theorem fallsBackAt_lettersBA (built : BuiltFrom ["a"] scores types merges T) (n m : ℕ) {j : ℕ} :
    T.FallsBackAt (utf8 (lettersBA n m)) j ↔ j < n := by
  have hspelled : ∀ b ∈ List.replicate n (98 : UInt8) ++ List.replicate m 97,
      33 ≤ b ∧ b ≤ 126 := by
    intro b hb
    rcases List.mem_append.mp hb with hb | hb
    · rw [List.eq_of_mem_replicate hb]
      decide
    · rw [List.eq_of_mem_replicate hb]
      decide
  rw [utf8_lettersBA, fallsBackAt_letter built hspelled]
  constructor
  · rintro ⟨hj, hne⟩
    by_contra hle
    rw [List.getElem_append_right (by simpa using hle), List.getElem_replicate] at hne
    exact hne rfl
  · intro hlt
    refine ⟨by simp; omega, ?_⟩
    rw [List.getElem_append_left (by simpa using hlt), List.getElem_replicate]
    decide

end OneLetter

/-- Of three hundred letters the first 256 fall back. -/
theorem encodesWithin_iff_letters :
    ∃ T, fromGgufParts ["a"] [] [] [] = .ok T ∧ T.EncodesWithin (lettersBA 256 44) true := by
  obtain ⟨T, hT⟩ := exists_fromGgufParts_eq_ok ["a"] [] [] [] (fun h => absurd rfl h)
    (fun i _ => by simp)
  refine ⟨T, hT, (encodesWithin_iff hT (List.cons_ne_nil _ _) _ true).mpr fun j hj => ?_⟩
  exact (fallsBackAt_lettersBA (builtFrom_of_eq_ok hT) 256 44).mp hj

/-- A text of 257 letters that are not in the vocabulary aborts. -/
theorem not_encodesWithin :
    ¬ ∀ (tokens : List String) (scores types : List UInt32) (merges : List String) (T : Tokenizer),
      fromGgufParts tokens scores types merges = .ok T → tokens ≠ [] →
      ∀ (text : String) (addBos : Bool), T.EncodesWithin text addBos := by
  intro h
  obtain ⟨T, hT⟩ := exists_fromGgufParts_eq_ok ["a"] [] [] [] (fun h => absurd rfl h)
    (fun i _ => by simp)
  have hvocab : T.vocab ≠ [] := by
    rw [(builtFrom_of_eq_ok hT).vocab]
    exact List.cons_ne_nil _ _
  obtain ⟨ids, hids, -⟩ := h ["a"] [] [] [] T hT (List.cons_ne_nil _ _) (lettersBA 257 0) false
  have hall := (isSome_encode_iff hT hvocab _ false).mp (by rw [hids, Option.isSome_some])
  have hlast := (fallsBackAt_lettersBA (builtFrom_of_eq_ok hT) 257 0).mpr (by decide : 256 < 257)
  exact absurd (hall 256 hlast) (by decide)

/-- A space has a byte token, and no entry spells it. -/
theorem not_fallbackEmitsByte :
    ¬ ∀ (tokens : List String) (scores types : List UInt32) (merges : List String) (T : Tokenizer),
      fromGgufParts tokens scores types merges = .ok T → ∀ text, T.FallbackEmitsByte text := by
  intro h
  obtain ⟨T, hT, hmatch, hbytes⟩ : ∃ T, fromGgufParts ["<0x00>", "<0x20>"] [] [6, 6] [] = .ok T ∧
      T.matchAt (bytesToGpt2Unicode [32]) 0 = none ∧ T.byteToToken 0 ≠ T.byteToToken 32 :=
    ⟨_, rfl, by decide +kernel, by decide +kernel⟩
  have hutf8 : utf8 " " = [32] := by decide +kernel
  have hemits := h _ _ _ _ T hT " "
  rw [Tokenizer.fallbackEmitsByte_iff, hutf8] at hemits
  exact hbytes (hemits 0 (by decide) ⟨by decide, .refl, hmatch⟩).2

end QuantumFlow
