import QuantumFlow.Graph.CachedTokens
import QuantumFlow.Graph.Agreement
import QuantumFlow.Graph.Positions

/-!
# What a decoded token attends to

The single-token graph was built once over the whole cache, and only its mask says which rows
count. Each of its layers reads the cache as the request found it: the row of the token itself is
written after the graph has run, and the mask stops before it. So the query of a decoded token
attends to the rows before the head, and never to its own. The attentions of a request are all
that its logits and its rows are computed from.
-/

namespace QuantumFlow

variable {X W F : Type}

/-- One attention of the single-token graph: the query, the K/V row of its token, the mask, and
the cache of the layer as it is when the attention is computed. -/
structure Attention (X : Type) where
  query : X
  own : X × X
  mask : List ℤ
  cache : List (X × X)

/-- The rows over which the softmax is taken. -/
def Attention.read (a : Attention X) : List (X × X) :=
  (attendedRows (some a.mask) a.cache.length).filterMap (a.cache[·]?)

section Graphs

variable (G : Ggml X W F) (hp : LlamaHparams F)

/-- The output of an attention: the softmax of its query over the rows that it reads. -/
def Attention.attended (a : Attention X) : X := G.attend hp.headDim a.query a.read

/-- What a layer makes of the output of its attention and of its input: the residual, then the
feed-forward part. -/
def afterAttention (w : LayerWeights W) (attended x : X) : X :=
  let cur := G.add x (G.mulMat w.attnOutput attended)
  let ffnIn := G.mul (G.rmsNorm hp.rmsNormEps cur) w.ffnNorm
  let gate := G.silu (G.mulMat w.ffnGate ffnIn)
  let up := G.mulMat w.ffnUp ffnIn
  G.add cur (G.mulMat w.ffnDown (G.mulRows gate up))

/-- The activation behind the layers, each taking the output of its attention. -/
def lastActivation (ws : List (LayerWeights W)) (as : List (Attention X)) (x : X) : X :=
  (ws.zip as).foldl (fun cur p => afterAttention G hp p.1 (p.2.attended G hp) cur) x

/-- The attentions of the single-token graph, from `layer` on. -/
def decodeAttentions (nCtx : ℕ) (mask : List ℤ) (pos : ℤ) :
    ℕ → List (LayerWeights W) → KVRows X → X → List (Attention X)
  | _, [], _, _ => []
  | layer, w :: ws, rows, cur =>
    let a : Attention X :=
      { query := queryRow G hp w pos cur
        own := keyValueRow G hp w pos cur
        mask
        cache := (List.range nCtx).map (rows layer) }
    a :: decodeAttentions nCtx mask pos (layer + 1) ws rows (layerOut G hp w pos a.read cur)

end Graphs

/-- The attentions that a request for `token` computes. -/
def KVCache.attentions (G : Ggml X W F) (w : Weights W) (hp : LlamaHparams F) (kv : KVCache X)
    (token : TokenId) : List (Attention X) :=
  decodeAttentions G hp kv.nCtx (LlamaGraph.decodeMask kv.nCtx kv.head) kv.head 0 w.layers kv.rows
    (G.getRows w.tokenEmbd token)

/-- A row is attended if its mask entry is 0 and it was computed from the token of its position. -/
def KVCache.Attends (kv : KVCache X) (tokens : List TokenId) (a : Attention X) (r : ℕ) : Prop :=
  a.mask[r]? = some 0 ∧ ∃ tok, tokens[r]? = some tok ∧ (kv.fed r).map Prod.fst = some tok

/-- Every query of a request for `token` attends to exactly the rows up to its own, behind a
cache that holds `ts`. -/
def KVCache.AttendsUpToSelf (G : Ggml X W F) (w : Weights W) (hp : LlamaHparams F)
    (kv : KVCache X) (ts : List TokenId) (token : TokenId) : Prop :=
  ∀ a ∈ kv.attentions G w hp token, ∀ r, kv.Attends (ts ++ [token]) a r ↔ r ≤ kv.head

/-! ## The attentions are those of the graph -/

section Graphs

variable {G : Ggml X W F} {hp : LlamaHparams F}

theorem filterMap_getElem?_map_range {α : Type} (f : ℕ → α) {n : ℕ} {rs : List ℕ}
    (h : ∀ r ∈ rs, r < n) : rs.filterMap (((List.range n).map f)[·]?) = rs.map f := by
  induction rs with
  | nil => rfl
  | cons r rs ih =>
    have hr : ((List.range n).map f)[r]? = some (f r) := by
      simp [h r List.mem_cons_self]
    rw [List.filterMap_cons_some hr, ih fun r' hr' => h r' (List.mem_cons_of_mem _ hr'),
      List.map_cons]

/-- The rows that an attention reads, of the first `nCtx` rows of its layer. -/
theorem read_mk (query : X) (own : X × X) (mask : List ℤ) (nCtx : ℕ) (f : ℕ → X × X) :
    (Attention.mk query own mask ((List.range nCtx).map f)).read =
      (attendedRows (some mask) nCtx).map f := by
  rw [Attention.read, List.length_map, List.length_range]
  refine filterMap_getElem?_map_range f fun r hr => ?_
  exact List.mem_range.mp (List.mem_filter.mp hr).1

theorem layerOut_eq_afterAttention (w : LayerWeights W) (pos : ℤ) (rows : List (X × X)) (x : X) :
    layerOut G hp w pos rows x =
      afterAttention G hp w (G.attend hp.headDim (queryRow G hp w pos x) rows) x := rfl

variable (G hp) in
/-- The graph hands out the own rows of these attentions, and its last activation is made of
their outputs. -/
theorem decodeLayers_eq (nCtx : ℕ) (mask : List ℤ) (pos : ℤ) (layer : ℕ)
    (ws : List (LayerWeights W)) (rows : KVRows X) (cur : X) :
    decodeLayers G hp nCtx mask pos layer ws rows cur =
      ((decodeAttentions G hp nCtx mask pos layer ws rows cur).map Attention.own,
        lastActivation G hp ws (decodeAttentions G hp nCtx mask pos layer ws rows cur) cur) := by
  induction ws generalizing layer cur with
  | nil => rfl
  | cons w ws ih =>
    simp only [decodeLayers, decodeAttentions, List.map_cons, read_mk, ih, lastActivation,
      List.zip_cons_cons, List.foldl_cons, Attention.attended, layerOut_eq_afterAttention]

theorem length_decodeAttentions (nCtx : ℕ) (mask : List ℤ) (pos : ℤ) (layer : ℕ)
    (ws : List (LayerWeights W)) (rows : KVRows X) (cur : X) :
    (decodeAttentions G hp nCtx mask pos layer ws rows cur).length = ws.length := by
  induction ws generalizing layer cur with
  | nil => rfl
  | cons w ws ih => simp [decodeAttentions, ih]

/-- Each layer reads its own part of the cache. -/
theorem cache_of_getElem?_decodeAttentions {nCtx : ℕ} {mask : List ℤ} {pos : ℤ} {layer l : ℕ}
    {ws : List (LayerWeights W)} {rows : KVRows X} {cur : X} {a : Attention X}
    (h : (decodeAttentions G hp nCtx mask pos layer ws rows cur)[l]? = some a) :
    a.cache = (List.range nCtx).map (rows (layer + l)) := by
  induction ws generalizing layer cur l with
  | nil => cases h
  | cons w ws ih =>
    cases l with
    | zero =>
      cases h
      rfl
    | succ l =>
      rw [ih h, Nat.add_right_comm, Nat.add_assoc]

theorem mask_of_mem_decodeAttentions {nCtx : ℕ} {mask : List ℤ} {pos : ℤ} {layer : ℕ}
    {ws : List (LayerWeights W)} {rows : KVRows X} {cur : X} {a : Attention X}
    (h : a ∈ decodeAttentions G hp nCtx mask pos layer ws rows cur) : a.mask = mask := by
  induction ws generalizing layer cur with
  | nil => cases h
  | cons w ws ih =>
    rcases List.mem_cons.mp h with rfl | h
    · rfl
    · exact ih h

end Graphs

/-! ## Which rows count -/

theorem getElem?_decodeMask {nCtx head r : ℕ} :
    (LlamaGraph.decodeMask nCtx head)[r]? = some 0 ↔ r < nCtx ∧ r < head := by
  by_cases hr : r < nCtx <;> by_cases hhead : r < head <;> simp [LlamaGraph.decodeMask, hr, hhead]

namespace LlamaGraph

variable {G : Ggml X W F} {calls : GgmlCalls X} {model : MappedModel W} {g g' : LlamaGraph X W F}

/-- Every layer attends to the rows before the head. -/
theorem attends_iff {w : Weights W} {ts : List TokenId} {token : TokenId} (hts : Holds g ts)
    (hfits : g.kv.head ≤ g.kv.nCtx) {a : Attention X}
    (ha : a ∈ g.kv.attentions G w g.hp token) (r : ℕ) :
    g.kv.Attends (ts ++ [token]) a r ↔ r < g.kv.head := by
  rw [KVCache.Attends, mask_of_mem_decodeAttentions ha, getElem?_decodeMask]
  constructor
  · rintro ⟨⟨-, hr⟩, -⟩
    exact hr
  · intro hr
    have hlen : r < ts.length := hts.head ▸ hr
    refine ⟨⟨by omega, hr⟩, ts[r], ?_, ?_⟩
    · rw [List.getElem?_append_left hlen, List.getElem?_eq_getElem hlen]
    · rw [hts.rows r hr, List.getElem?_eq_getElem hlen]

/-- The softmax is taken over the rows before the head, as the request found them. -/
theorem read_of_getElem?_attentions {w : Weights W} {kv : KVCache X} {hp : LlamaHparams F}
    {token : TokenId} (hfits : kv.head ≤ kv.nCtx) {layer : ℕ} {a : Attention X}
    (ha : (kv.attentions G w hp token)[layer]? = some a) :
    a.read = (List.range kv.head).map (kv.rows layer) := by
  have hmask := mask_of_mem_decodeAttentions (List.mem_of_getElem? ha)
  have hcache := cache_of_getElem?_decodeAttentions ha
  rw [Nat.zero_add] at hcache
  obtain ⟨query, own, mask, cache⟩ := a
  subst hmask hcache
  rw [read_mk, attendedRows_decodeMask hfits]

/-- A graph with a layer has a query. -/
theorem attentions_eq_nil (w : Weights W) (kv : KVCache X) (hp : LlamaHparams F)
    (token : TokenId) : kv.attentions G w hp token = [] ↔ w.layers = [] := by
  rw [← List.length_eq_zero_iff, KVCache.attentions, length_decodeAttentions,
    List.length_eq_zero_iff]

/-- A decode that returns computes its logits from the outputs of its attentions and hands out
their own rows. Each of them is taken over exactly the rows before the head, as the request found
them, so it attends to its own row only if there is no layer at all. -/
theorem attendsUpToSelf_iff {token : TokenId} {logits : List F} {ts : List TokenId}
    (h : g.executeDecode G calls model token = (.ok logits, g')) (hts : Holds g ts) :
    ∃ w, g'.dGraph = some w ∧
      logits = logitsOf G g.hp w (lastActivation G g.hp w.layers
        (g.kv.attentions G w g.hp token) (G.getRows w.tokenEmbd token)) ∧
      (∀ layer a, (g.kv.attentions G w g.hp token)[layer]? = some a →
        g'.kv.rows layer g.kv.head = a.own ∧
          a.read = (List.range g.kv.head).map (g.kv.rows layer) ∧
          ∀ r, g.kv.Attends (ts ++ [token]) a r ↔ r < g.kv.head) ∧
      (g.kv.AttendsUpToSelf G w g.hp ts token ↔ w.layers = []) := by
  obtain ⟨w, -, hlt, hlogits, rfl⟩ := executeDecode_eq_ok h
  have hfits : g.kv.head ≤ g.kv.nCtx := Nat.le_of_lt hlt
  have hgraph := decodeLayers_eq G g.hp g.kv.nCtx
    (decodeMask g.kv.nCtx g.kv.head) g.kv.head 0 w.layers g.kv.rows (G.getRows w.tokenEmbd token)
  refine ⟨w, rfl, ?_, fun layer a ha => ⟨?_, ?_, ?_⟩, ?_⟩
  · rw [hlogits]
    exact congrArg (logitsOf G g.hp w) (congrArg Prod.snd hgraph)
  · have hown : (decodeLayers G g.hp g.kv.nCtx (decodeMask g.kv.nCtx g.kv.head) g.kv.head 0
        w.layers g.kv.rows (G.getRows w.tokenEmbd token)).1[layer]? = some a.own := by
      rw [hgraph, List.getElem?_map]
      exact congrArg (Option.map Attention.own) ha
    simp [tokenCache, hown]
  · exact read_of_getElem?_attentions hfits ha
  · exact attends_iff hts hfits (List.mem_of_getElem? ha)
  · rw [← attentions_eq_nil w g.kv g.hp token, List.eq_nil_iff_forall_not_mem]
    constructor
    · intro hself a ha
      -- the own row would have to be before the head
      have hown := (attends_iff hts hfits ha g.kv.head).mp
        ((hself a ha g.kv.head).mpr (Nat.le_refl _))
      exact absurd hown (Nat.lt_irrefl _)
    · exact fun hnone a ha => absurd ha (hnone a)

end LlamaGraph

/-! ## One layer -/

/-- A cache of four rows that holds one token, below one layer. -/
def oneRowGraph : LlamaGraph ℕ Unit ℕ where
  hp := (countGraph 1 4).hp
  kv :=
    { rows := fun _ _ => (0, 0)
      nCtx := 4
      head := 1
      fed := fun r => if r = 0 then some (5, 0) else none }
  dGraph := some (.const () 1)

theorem holds_oneRowGraph : Holds oneRowGraph [5] := by
  refine ⟨rfl, fun r hr => ?_⟩
  obtain rfl : r = 0 := Nat.lt_one_iff.mp hr
  rfl

theorem attendsUpToSelf_iff_oneRow :
    ∃ logits g', oneRowGraph.executeDecode countGgml (.succeed countGgml) (.const ()) 6 =
        (.ok logits, g') ∧
      ∃ w, g'.dGraph = some w ∧
        logits = logitsOf countGgml oneRowGraph.hp w (lastActivation countGgml oneRowGraph.hp
          w.layers (oneRowGraph.kv.attentions countGgml w oneRowGraph.hp 6)
          (countGgml.getRows w.tokenEmbd 6)) ∧
        (∀ layer a, (oneRowGraph.kv.attentions countGgml w oneRowGraph.hp 6)[layer]? = some a →
          g'.kv.rows layer oneRowGraph.kv.head = a.own ∧
            a.read = (List.range oneRowGraph.kv.head).map (oneRowGraph.kv.rows layer) ∧
            ∀ r, oneRowGraph.kv.Attends ([5] ++ [6]) a r ↔ r < oneRowGraph.kv.head) ∧
        (oneRowGraph.kv.AttendsUpToSelf countGgml w oneRowGraph.hp [5] 6 ↔ w.layers = []) := by
  have hdecode : oneRowGraph.executeDecode countGgml (.succeed countGgml) (.const ()) 6 =
      (.ok [1], _) := rfl
  exact ⟨_, _, hdecode, LlamaGraph.attendsUpToSelf_iff hdecode holds_oneRowGraph⟩

/-- The second token of a cache does not attend to itself: its logits count one row, not two. -/
theorem not_attendsUpToSelf :
    (oneRowGraph.executeDecode countGgml (.succeed countGgml) (.const ()) 6).1 = .ok [1] ∧
    ¬ ∀ (X W F : Type) (G : Ggml X W F) (calls : GgmlCalls X) (model : MappedModel W)
      (g g' : LlamaGraph X W F) (w : Weights W) (ts : List TokenId) (token : TokenId)
      (logits : List F), g.executeDecode G calls model token = (.ok logits, g') →
      g'.dGraph = some w → Holds g ts → g.kv.AttendsUpToSelf G w g.hp ts token := by
  refine ⟨rfl, fun h => ?_⟩
  have hself := h ℕ Unit ℕ countGgml (.succeed countGgml) (.const ()) oneRowGraph _ _ [5] 6 _
    rfl rfl holds_oneRowGraph
  have hmem : _ ∈ oneRowGraph.kv.attentions countGgml (.const () 1) oneRowGraph.hp 6 :=
    List.mem_cons_self
  have hown := (hself _ hmem 1).mpr (Nat.le_refl 1)
  exact absurd hown.1 (by decide)

end QuantumFlow
