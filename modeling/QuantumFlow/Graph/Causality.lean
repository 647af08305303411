import QuantumFlow.Graph.LlamaGraph

/-!
# What the first tokens of a batch depend on

A query of the batched graph attends to every row read, so to the rows of all tokens of its
batch. The rows of the first layer are computed before any attention and depend on their own
token only; from the second layer on, the rows of the first tokens depend on the whole batch.
-/

namespace QuantumFlow

/-- Over all arithmetics, models and cache contents: two batches leave the same rows, in every
layer, for their first `m` tokens. -/
def SameFirstRows (nLayer head nCtx m : ℕ) (ts₁ ts₂ : List TokenId) : Prop :=
  ∀ (X W F : Type) (G : Ggml X W F) (model : MappedModel W) (calls₁ calls₂ : GgmlCalls X)
    (pos : ℤ) (g g₁ g₂ : LlamaGraph X W F) (l₁ l₂ : List F),
    g.hp.nLayer = nLayer → g.kv.head = head → g.kv.nCtx = nCtx →
    g.forward G calls₁ model ts₁ pos = (.ok l₁, g₁) →
    g.forward G calls₂ model ts₂ pos = (.ok l₂, g₂) →
    ∀ layer < nLayer, ∀ i < m, g₁.kv.rows layer (head + i) = g₂.kv.rows layer (head + i)

section FirstLayer

variable {X W F : Type} {G : Ggml X W F} {hp : LlamaHparams F}

/-- The rows of the first layer depend on their own token only. -/
theorem rows_zero_batchCache {w : Weights W} {kv : KVCache X} {tokens : List TokenId} {pos : ℤ}
    {l : LayerWeights W} {ls : List (LayerWeights W)} (hlayers : w.layers = l :: ls) {i : ℕ}
    (hi : i < tokens.length) :
    (LlamaGraph.batchCache G w kv hp tokens pos).1.rows 0 (kv.head + i) =
      keyValueRow G hp l (pos + i) (G.getRows w.tokenEmbd tokens[i]) := by
  simp only [LlamaGraph.batchCache, hlayers]
  rw [forwardLayers_self, writeRows_add _ _ _ (by simpa using hi)]
  simp

end FirstLayer

/-! ## Arithmetic that collects tokens -/

/-- A row is a list of tokens: attention appends the K rows it is given. -/
def collectGgml : Ggml (List TokenId) Unit Unit where
  zero := []
  getRows _ tok := [tok]
  rmsNorm _ x := x
  mul x _ := x
  mulMat _ x := x
  ropeExt _ _ _ x := x
  attend _ _ rows := rows.flatMap Prod.fst
  add x y := x ++ y
  silu x := x
  mulRows _ _ := []
  tensorGet _ _ := []

/-- A graph with `head` cached rows that hold no tokens. -/
def collectGraph (nLayer head nCtx : ℕ) : LlamaGraph (List TokenId) Unit Unit where
  hp := { nVocab := 0, nEmbd := 0, nHead := 1, nLayer, nRot := 0, freqBase := (), rmsNormEps := () }
  kv := { rows := fun _ _ => ([], []), nCtx, head, fed := fun _ => none }
  dGraph := none

theorem keyValueRow_collect (hp : LlamaHparams Unit) (w : LayerWeights Unit) (pos : ℤ)
    (x : List TokenId) : keyValueRow collectGgml hp w pos x = (x, x) := rfl

theorem layerOut_collect (hp : LlamaHparams Unit) (w : LayerWeights Unit) (pos : ℤ)
    (rows : List (List TokenId × List TokenId)) (x : List TokenId) :
    layerOut collectGgml hp w pos rows x = x ++ rows.flatMap Prod.fst :=
  List.append_nil _

/-- The K rows of a batch spell it. -/
theorem flatMap_rows_collect (tokens : List TokenId) :
    ((tokens.map fun t => [t]).mapIdx fun _ x => (x, x)).flatMap Prod.fst = tokens := by
  have hmap : ((tokens.map fun t => [t]).mapIdx fun _ x => (x, x)) =
      tokens.map fun t => ([t], [t]) := by
    apply List.ext_getElem <;> simp
  rw [hmap, List.flatMap_map, List.flatMap_singleton']

/-- In the second layer, the first row of a batch has seen the whole batch. -/
theorem rows_one_collectGraph (nLayer head nCtx : ℕ) (pos : ℤ) (t : TokenId)
    (ts : List TokenId) :
    (LlamaGraph.batchCache collectGgml (.const () (nLayer + 2))
      (collectGraph (nLayer + 2) head nCtx).kv (collectGraph (nLayer + 2) head nCtx).hp
      (t :: ts) pos).1.rows 1 head = (t :: t :: ts, t :: t :: ts) := by
  have hlayers : (Weights.const () (nLayer + 2)).layers =
      LayerWeights.const () :: LayerWeights.const () :: List.replicate nLayer (.const ()) := rfl
  have hembd : (t :: ts).map (collectGgml.getRows (Weights.const () (nLayer + 2)).tokenEmbd) =
      (t :: ts).map fun t => [t] := rfl
  simp only [LlamaGraph.batchCache, hlayers, hembd]
  rw [forwardLayers_cons, forwardLayers_self]
  simp only [keyValueRow_collect, layerOut_collect, List.flatMap_append, flatMap_rows_collect]
  simp [writeRows, collectGraph]

/-! ## Causality -/

/-- A query attends to no later token of its batch exactly when it is the last one. -/
theorem forall_attendedRows_le_iff (head : ℕ) {len i : ℕ} (hi : i < len) :
    (∀ r ∈ attendedRows none (head + len), r ≤ head + i) ↔ i + 1 = len := by
  rw [attendedRows_none]
  constructor
  · intro hall
    have hlast := hall (head + len - 1) (List.mem_range.mpr (by omega))
    omega
  · intro hlast r hr
    have hlt := List.mem_range.mp hr
    omega

section Condition

variable {nLayer head nCtx m : ℕ} {ts₁ ts₂ : List TokenId}

/-- With one layer at most, nothing that is written depends on an attention. -/
theorem sameFirstRows_of_le_one (hm₁ : m ≤ ts₁.length) (hm₂ : m ≤ ts₂.length)
    (hcommon : ts₁.take m = ts₂.take m) (hlayers : nLayer ≤ 1) :
    SameFirstRows nLayer head nCtx m ts₁ ts₂ := by
  intro X W F G model calls₁ calls₂ pos g g₁ g₂ l₁ l₂ hn hhead _ h₁ h₂ layer hlayer i hi
  obtain ⟨w, hw, -, -, rfl⟩ := LlamaGraph.forward_eq_ok h₁
  obtain ⟨w', hw', -, -, rfl⟩ := LlamaGraph.forward_eq_ok h₂
  rw [hw] at hw'
  cases hw'
  have hone : w.layers.length = 1 := by
    rw [MappedModel.length_layers hw]
    omega
  obtain ⟨l, hl⟩ := List.length_eq_one_iff.mp hone
  obtain rfl : layer = 0 := by omega
  have htoken : ts₁[i] = ts₂[i] := by
    have htake := congrArg (fun ts => ts[i]?) hcommon
    simp only [List.getElem?_take_of_lt hi] at htake
    rwa [List.getElem?_eq_getElem (by omega), List.getElem?_eq_getElem (by omega),
      Option.some.injEq] at htake
  rw [← hhead, rows_zero_batchCache hl (by omega), rows_zero_batchCache hl (by omega), htoken]

theorem sameFirstRows_self (ts : List TokenId) : SameFirstRows nLayer head nCtx m ts ts := by
  intro X W F G model calls₁ calls₂ pos g g₁ g₂ l₁ l₂ _ _ _ h₁ h₂ layer _ i _
  obtain ⟨w, hw, -, -, rfl⟩ := LlamaGraph.forward_eq_ok h₁
  obtain ⟨w', hw', -, -, rfl⟩ := LlamaGraph.forward_eq_ok h₂
  rw [hw] at hw'
  cases hw'
  rfl

/-- From two layers on, one token in common is enough to tell batches apart. -/
theorem eq_of_sameFirstRows {n : ℕ} {t₁ t₂ : TokenId} (hfit₁ : head + (t₁ :: ts₁).length ≤ nCtx)
    (hfit₂ : head + (t₂ :: ts₂).length ≤ nCtx) (hm : 0 < m)
    (h : SameFirstRows (n + 2) head nCtx m (t₁ :: ts₁) (t₂ :: ts₂)) : t₁ :: ts₁ = t₂ :: ts₂ := by
  have hw := MappedModel.weights_const () (n + 2)
  obtain ⟨_, -, h₁⟩ := LlamaGraph.forward_succeed (G := collectGgml)
    (g := collectGraph (n + 2) head nCtx) hw 0 (List.cons_ne_nil t₁ ts₁) hfit₁
  obtain ⟨_, -, h₂⟩ := LlamaGraph.forward_succeed (G := collectGgml)
    (g := collectGraph (n + 2) head nCtx) hw 0 (List.cons_ne_nil t₂ ts₂) hfit₂
  have hrows := h _ _ _ collectGgml (.const ()) _ _ 0 _ _ _ _ _ rfl rfl rfl h₁ h₂ 1 (by omega) 0 hm
  have hrow₁ := rows_one_collectGraph n head nCtx 0 t₁ ts₁
  have hrow₂ := rows_one_collectGraph n head nCtx 0 t₂ ts₂
  rw [Nat.add_zero] at hrows
  have hsame := (hrow₁.symm.trans hrows).trans hrow₂
  exact List.tail_eq_of_cons_eq (congrArg Prod.fst hsame)

end Condition

/-- For batches with their first `m` tokens in common: the rows of these tokens agree for all
arithmetics, models and cache contents exactly when there are none, there is at most one layer
or the batches are equal. -/
theorem sameFirstRows_iff {nLayer head nCtx m : ℕ} {ts₁ ts₂ : List TokenId}
    (hm₁ : m ≤ ts₁.length) (hm₂ : m ≤ ts₂.length) (hcommon : ts₁.take m = ts₂.take m)
    (hfit₁ : head + ts₁.length ≤ nCtx) (hfit₂ : head + ts₂.length ≤ nCtx) :
    (SameFirstRows nLayer head nCtx m ts₁ ts₂ ↔ m = 0 ∨ nLayer ≤ 1 ∨ ts₁ = ts₂) ∧
      ∀ len i, i < len →
        ((∀ r ∈ attendedRows none (head + len), r ≤ head + i) ↔ i + 1 = len) := by
  refine ⟨⟨?_, ?_⟩, fun _ _ hi => forall_attendedRows_le_iff head hi⟩
  · intro h
    by_cases hm : m = 0
    · exact Or.inl hm
    by_cases hlayers : nLayer ≤ 1
    · exact Or.inr (Or.inl hlayers)
    obtain ⟨n, rfl⟩ : ∃ n, nLayer = n + 2 := ⟨nLayer - 2, by omega⟩
    obtain ⟨t₁, ts₁, rfl⟩ := List.exists_cons_of_length_pos (by omega : 0 < ts₁.length)
    obtain ⟨t₂, ts₂, rfl⟩ := List.exists_cons_of_length_pos (by omega : 0 < ts₂.length)
    exact Or.inr (Or.inr (eq_of_sameFirstRows hfit₁ hfit₂ (by omega) h))
  · rintro (rfl | hlayers | rfl)
    · intro _ _ _ _ _ _ _ _ _ _ _ _ _ _ _ _ _ _ _ _ i hi
      exact absurd hi (Nat.not_lt_zero i)
    · exact sameFirstRows_of_le_one hm₁ hm₂ hcommon hlayers
    · exact sameFirstRows_self ts₁

theorem sameFirstRows_iff_two :
    (SameFirstRows 2 0 4 1 [5, 6] [5, 7] ↔ (1 : ℕ) = 0 ∨ 2 ≤ 1 ∨ [5, 6] = ([5, 7] : List TokenId)) ∧
      ∀ len i, i < len → ((∀ r ∈ attendedRows none (0 + len), r ≤ 0 + i) ↔ i + 1 = len) :=
  sameFirstRows_iff (by decide) (by decide) (by decide) (by decide) (by decide)

/-- With two layers, the row of a first token depends on the second one. -/
theorem not_sameFirstRows :
    ¬ ∀ (nLayer head nCtx m : ℕ) (ts₁ ts₂ : List TokenId), m ≤ ts₁.length → m ≤ ts₂.length →
      ts₁.take m = ts₂.take m → head + ts₁.length ≤ nCtx → head + ts₂.length ≤ nCtx →
      SameFirstRows nLayer head nCtx m ts₁ ts₂ := by
  intro h
  have hsame := h 2 0 4 1 [5, 6] [5, 7] (by decide) (by decide) (by decide) (by decide) (by decide)
  exact absurd (eq_of_sameFirstRows (by decide) (by decide) (by decide) hsame) (by decide)

end QuantumFlow
