import QuantumFlow.Graph.LlamaGraph

/-!
# What the graphs write

Prefill writes rows inside the graph it computes, decode writes back the rows its graph hands out.
Both write the rows of their tokens behind the head and no others, and both write K rotated with
the position that they feed. In the first layer a row is computed from its token alone, in the
others from what the layers before made of it.
-/

namespace QuantumFlow

variable {X W F : Type}

/-- Rows `head` to `head + n` are the only ones in which `rows'` differs from `rows`. -/
def SameOutside (rows rows' : KVRows X) (head n : ℕ) : Prop :=
  ∀ layer r, r < head ∨ head + n ≤ r → rows' layer r = rows layer r

theorem SameOutside.refl (rows : KVRows X) (head n : ℕ) : SameOutside rows rows head n :=
  fun _ _ _ => rfl

theorem SameOutside.trans {rows₁ rows₂ rows₃ : KVRows X} {head n : ℕ}
    (h : SameOutside rows₁ rows₂ head n) (h' : SameOutside rows₂ rows₃ head n) :
    SameOutside rows₁ rows₃ head n :=
  fun layer r hr => (h' layer r hr).trans (h layer r hr)

theorem sameOutside_writeRows (rows : KVRows X) (layer head : ℕ) (new : List (X × X)) :
    SameOutside rows (writeRows rows layer head new) head new.length := by
  intro l r hr
  by_cases hl : l = layer
  · subst hl
    rcases hr with hlt | hge
    · exact writeRows_of_lt rows l head new hlt
    · have hnone : new[r - head]? = none := List.getElem?_eq_none (by omega)
      simp [writeRows, hnone]
  · rw [writeRows_of_ne rows hl]

/-- The copies of the batched graph stay in their views, in every layer. -/
theorem sameOutside_forwardLayers (G : Ggml X W F) (hp : LlamaHparams F) (head : ℕ) (pos : ℤ)
    (layer : ℕ) (ws : List (LayerWeights W)) (rows : KVRows X) (cur : List X) :
    SameOutside rows (forwardLayers G hp head pos layer ws rows cur).1 head cur.length := by
  induction ws generalizing layer rows cur with
  | nil => exact .refl rows head cur.length
  | cons w ws ih =>
    rw [forwardLayers_cons]
    have hwrite := sameOutside_writeRows rows layer head
      (cur.mapIdx fun i x => keyValueRow G hp w (pos + i) x)
    rw [List.length_mapIdx] at hwrite
    apply hwrite.trans
    simpa only [List.length_mapIdx] using ih (layer + 1) _ (cur.mapIdx _)

/-- The rows at `r` are those of `tok`, fed with position `pos`. -/
def KVCache.RowOf (G : Ggml X W F) (w : Weights W) (hp : LlamaHparams F) (kv : KVCache X) (r : ℕ)
    (tok : TokenId) (pos : ℤ) : Prop :=
  ∀ layer lw, w.layers[layer]? = some lw →
    ∃ x, kv.rows layer r = keyValueRow G hp lw pos x ∧
      (layer = 0 → x = G.getRows w.tokenEmbd tok)

theorem KVCache.RowOf.congr {G : Ggml X W F} {w : Weights W} {hp : LlamaHparams F}
    {kv kv' : KVCache X} {r : ℕ} {tok : TokenId} {pos : ℤ} (h : kv.RowOf G w hp r tok pos)
    (hrows : ∀ layer, kv'.rows layer r = kv.rows layer r) : kv'.RowOf G w hp r tok pos := by
  intro layer lw hlw
  rw [hrows]
  exact h layer lw hlw

/-- Every cached row is the one that `fed` records. -/
def RowsFed (G : Ggml X W F) (model : MappedModel W) (g : LlamaGraph X W F) : Prop :=
  ∀ w, model.weights g.hp.nLayer = .ok w → ∀ r < g.kv.head,
    ∃ tok pos, g.kv.fed r = some (tok, pos) ∧ g.kv.RowOf G w g.hp r tok pos

section Layers

variable (G : Ggml X W F) (hp : LlamaHparams F)

/-- Each layer of the batched graph writes the rows of its input. -/
theorem keyValueRow_forwardLayers (head : ℕ) (pos : ℤ) (layer : ℕ) {l i : ℕ} {lw : LayerWeights W}
    {ws : List (LayerWeights W)} (rows : KVRows X) {cur : List X} (hlw : ws[l]? = some lw)
    (hi : i < cur.length) :
    ∃ x, (forwardLayers G hp head pos layer ws rows cur).1 (layer + l) (head + i) =
        keyValueRow G hp lw (pos + i) x ∧ (l = 0 → x = cur[i]) := by
  induction ws generalizing layer l rows cur with
  | nil => cases hlw
  | cons w ws ih =>
    cases l with
    | zero =>
      obtain rfl : w = lw := Option.some.inj hlw
      refine ⟨cur[i], ?_, fun _ => rfl⟩
      rw [Nat.add_zero, forwardLayers_self, writeRows_add _ _ _ (by rwa [List.length_mapIdx]),
        List.getElem_mapIdx]
    | succ l =>
      rw [forwardLayers_cons]
      generalize hcur' : (cur.mapIdx fun i x => layerOut G hp w (pos + i) _ x) = cur'
      have hi' : i < cur'.length := by rwa [← hcur', List.length_mapIdx]
      obtain ⟨x, hx, -⟩ := ih (layer + 1) (writeRows rows layer head _) hlw hi'
      refine ⟨x, ?_, fun hzero => absurd hzero (Nat.succ_ne_zero l)⟩
      rw [← hx, Nat.add_right_comm, Nat.add_assoc]

/-- Each layer of the single-token graph hands out the row of its input. -/
theorem keyValueRow_decodeLayers (nCtx : ℕ) (mask : List ℤ) (pos : ℤ) (layer : ℕ)
    {l : ℕ} {lw : LayerWeights W} {ws : List (LayerWeights W)} (rows : KVRows X) (cur : X)
    (hlw : ws[l]? = some lw) :
    ∃ x, (decodeLayers G hp nCtx mask pos layer ws rows cur).1[l]? =
        some (keyValueRow G hp lw pos x) ∧ (l = 0 → x = cur) := by
  induction ws generalizing layer l cur with
  | nil => cases hlw
  | cons w ws ih =>
    cases l with
    | zero =>
      obtain rfl : w = lw := Option.some.inj hlw
      exact ⟨cur, rfl, fun _ => rfl⟩
    | succ l =>
      obtain ⟨x, hx, -⟩ := ih (layer + 1) (layerOut G hp w pos _ cur) hlw
      exact ⟨x, hx, fun hzero => absurd hzero (Nat.succ_ne_zero l)⟩

end Layers

namespace LlamaGraph

variable {G : Ggml X W F} {calls : GgmlCalls X} {model : MappedModel W} {g g' : LlamaGraph X W F}

theorem sameOutside_batchCache (w : Weights W) (kv : KVCache X) (hp : LlamaHparams F)
    (tokens : List TokenId) (pos : ℤ) :
    SameOutside kv.rows (batchCache G w kv hp tokens pos).1.rows kv.head tokens.length := by
  simpa [batchCache] using sameOutside_forwardLayers G hp kv.head pos 0 w.layers kv.rows
    (tokens.map (G.getRows w.tokenEmbd))

theorem sameOutside_failedCache (kv : KVCache X) (n : ℕ) :
    SameOutside kv.rows (failedCache calls kv n).rows kv.head n := by
  intro layer r hr
  have hout : ¬ (kv.head ≤ r ∧ r < kv.head + n) := by omega
  simp [failedCache, hout]

/-- The rows of one token are written back at the head. -/
theorem sameOutside_tokenCache (w : Weights W) (kv : KVCache X) (hp : LlamaHparams F)
    (token : TokenId) : SameOutside kv.rows (tokenCache G w kv hp token).1.rows kv.head 1 := by
  intro layer r hr
  have hne : r ≠ kv.head := by omega
  simp [tokenCache, hne]

/-- A batch writes the rows of its tokens, at the positions it feeds. -/
theorem rowOf_batchCache (w : Weights W) (kv : KVCache X) (hp : LlamaHparams F)
    (tokens : List TokenId) (pos : ℤ) {i : ℕ} (hi : i < tokens.length) :
    (batchCache G w kv hp tokens pos).1.RowOf G w hp (kv.head + i) tokens[i] (pos + i) := by
  intro layer lw hlw
  have hi' : i < (tokens.map (G.getRows w.tokenEmbd)).length := by rwa [List.length_map]
  obtain ⟨x, hx, hfirst⟩ := keyValueRow_forwardLayers G hp kv.head pos 0 kv.rows
    hlw hi'
  refine ⟨x, ?_, fun hzero => by rw [hfirst hzero, List.getElem_map]⟩
  rw [← hx, Nat.zero_add]
  rfl

/-- So does a single token. -/
theorem rowOf_tokenCache (w : Weights W) (kv : KVCache X) (hp : LlamaHparams F)
    (token : TokenId) :
    (tokenCache G w kv hp token).1.RowOf G w hp kv.head token kv.head := by
  intro layer lw hlw
  obtain ⟨x, hx, hfirst⟩ := keyValueRow_decodeLayers G hp kv.nCtx
    (decodeMask kv.nCtx kv.head) kv.head 0 kv.rows (G.getRows w.tokenEmbd token) hlw
  exact ⟨x, by simp [tokenCache, hx], hfirst⟩

end LlamaGraph

end QuantumFlow
