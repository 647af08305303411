import QuantumFlow.Tokenizer.Encode

/-!
# Where the greedy pass cuts

For an arbitrary tokenizer: the positions the scan visits, and the ids it pushes there.
-/

namespace QuantumFlow.Tokenizer

variable (T : Tokenizer)

/-- One round of the scan. -/
def Moves (orig bytes : List UInt8) (i j : ℕ) : Prop :=
  i < bytes.length ∧ ∃ id len, T.pushAt orig bytes i = some (id, len) ∧ j = i + len

/-- The scan of a text visits `i`. -/
def CutAt (text : String) (i : ℕ) : Prop :=
  Relation.ReflTransGen (T.Moves (utf8 text) (bytesToGpt2Unicode (utf8 text))) 0 i

/-- At a cut of the text, the longest match there, or the byte table where nothing matches, is
`id`. -/
def Pushes (text : String) (id : TokenId) : Prop :=
  ∃ i len, T.CutAt text i ∧ i < (bytesToGpt2Unicode (utf8 text)).length ∧
    T.pushAt (utf8 text) (bytesToGpt2Unicode (utf8 text)) i = some (id, len)

variable {T}

/-- The scan from a position pushes what it finds at the cuts from there on. -/
theorem mem_initialTokeniseFrom {orig bytes : List UInt8} {fuel i : ℕ} {ids : List TokenId}
    (h : T.initialTokeniseFrom orig bytes fuel i = some ids) (hfuel : bytes.length - i ≤ fuel)
    (id : TokenId) :
    id ∈ ids ↔ ∃ j len, Relation.ReflTransGen (T.Moves orig bytes) i j ∧ j < bytes.length ∧
      T.pushAt orig bytes j = some (id, len) := by
  have hend : ∀ i, ¬ i < bytes.length → ¬ ∃ j len, Relation.ReflTransGen (T.Moves orig bytes) i j ∧
      j < bytes.length ∧ T.pushAt orig bytes j = some (id, len) := by
    rintro i hi ⟨j, len, hij, hj, -⟩
    rcases hij.cases_head with rfl | ⟨k, hik, -⟩
    · exact hi hj
    · exact hi hik.1
  induction fuel generalizing i ids with
  | zero =>
    cases h
    simpa using hend i (by omega)
  | succ fuel ih =>
    unfold initialTokeniseFrom at h
    split at h
    · rename_i hi
      obtain ⟨⟨id₀, len₀⟩, hpush, h⟩ := Option.bind_eq_some_iff.mp h
      obtain ⟨rest, hrest, h⟩ := Option.bind_eq_some_iff.mp h
      cases h
      have hpos := pushAt_pos hpush
      have hmem := ih hrest (by omega)
      refine List.mem_cons.trans ((or_congr_right hmem).trans ?_)
      constructor
      · rintro (rfl | ⟨j, len, hij, hj, hid⟩)
        · exact ⟨i, len₀, .refl, hi, hpush⟩
        · exact ⟨j, len, .head ⟨hi, id₀, len₀, hpush, rfl⟩ hij, hj, hid⟩
      · rintro ⟨j, len, hij, hj, hid⟩
        rcases hij.cases_head with rfl | ⟨k, ⟨-, id', len', hpush', rfl⟩, hkj⟩
        · rw [hpush] at hid
          cases hid
          exact Or.inl rfl
        · rw [hpush] at hpush'
          cases hpush'
          exact Or.inr ⟨j, len, hkj, hj, hid⟩
    · rename_i hi
      cases h
      simpa using hend i hi

/-- The greedy pass returns the ids that it pushes at the cuts. -/
theorem mem_initialTokenise {text : String} {ids : List TokenId}
    (h : T.initialTokenise text = some ids) (id : TokenId) : id ∈ ids ↔ T.Pushes text id :=
  mem_initialTokeniseFrom h (by simp) id

end QuantumFlow.Tokenizer
