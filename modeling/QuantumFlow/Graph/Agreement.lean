import QuantumFlow.Graph.LlamaGraph

/-!
# Prefill compared with decode

The same tokens can enter the cache as one batch or one by one. The batched graph has no mask,
so its last query attends to its own row; the mask of the single-token graph stops before the
row of its token, which is only written after the graph has run. The two therefore attend to
different sets of rows, by one row at every decoded token.
-/

namespace QuantumFlow

variable {X W F : Type}

/-- Decode tokens in order, every ggml call succeeding; the logits are those of the last call. -/
def decodeEach (G : Ggml X W F) (model : MappedModel W) :
    List TokenId → List F × LlamaGraph X W F → Option (List F × LlamaGraph X W F)
  | [], s => some s
  | t :: ts, s =>
    match s.2.decodeOne G (.succeed G) model t with
    | (.ok logits, g) => decodeEach G model ts (logits, g)
    | _ => none

/-- Prefill one list, then decode the other. -/
def prefillThenDecode (G : Ggml X W F) (model : MappedModel W) (as bs : List TokenId)
    (g : LlamaGraph X W F) : Option (List F × LlamaGraph X W F) :=
  match g.prefill G (.succeed G) model as with
  | (.ok logits, g) => decodeEach G model bs (logits, g)
  | _ => none

/-- Over all arithmetics and complete models, from any graph with an empty cache: prefill of
`as ++ bs` and prefill of `as` followed by decoding `bs` both succeed, and leave the same head,
the same cached rows and the same logits. -/
def PrefillMatchesDecode (nLayer nCtx : ℕ) (as bs : List TokenId) : Prop :=
  ∀ (X W F : Type) (G : Ggml X W F) (model : MappedModel W) (w : Weights W)
    (g : LlamaGraph X W F), g.hp.nLayer = nLayer → g.kv.nCtx = nCtx → g.kv.head = 0 →
    g.Coherent model → model.weights nLayer = .ok w →
    ∃ l₁ g₁ l₂ g₂, g.prefill G (.succeed G) model (as ++ bs) = (.ok l₁, g₁) ∧
      prefillThenDecode G model as bs g = some (l₂, g₂) ∧ g₁.kv.head = g₂.kv.head ∧
      (∀ layer < nLayer, ∀ r < g₁.kv.head, g₁.kv.rows layer r = g₂.kv.rows layer r) ∧ l₁ = l₂

/-! ## Decoding a list -/

section Decode

variable {G : Ggml X W F} {model : MappedModel W}

theorem decodeEach_append (ts us : List TokenId) (s : List F × LlamaGraph X W F) :
    decodeEach G model (ts ++ us) s = (decodeEach G model ts s).bind (decodeEach G model us) := by
  induction ts generalizing s with
  | nil => rfl
  | cons t ts ih =>
    rw [List.cons_append, decodeEach, decodeEach]
    split
    · exact ih _
    · rfl

/-- Tokens that fit are decoded, each into the row behind the head. -/
theorem decodeEach_succeed {w : Weights W} (ts : List TokenId) {l : List F}
    {g : LlamaGraph X W F} (hw : model.weights g.hp.nLayer = .ok w) (hg : g.Coherent model)
    (hfits : g.kv.head + ts.length ≤ g.kv.nCtx) :
    ∃ l' g', decodeEach G model ts (l, g) = some (l', g') ∧ g'.hp = g.hp ∧
      g'.kv.nCtx = g.kv.nCtx ∧ g'.kv.head = g.kv.head + ts.length ∧ g'.Coherent model := by
  induction ts generalizing l g with
  | nil => exact ⟨l, g, rfl, rfl, rfl, rfl, hg⟩
  | cons t ts ih =>
    rw [List.length_cons] at hfits
    let g₁ : LlamaGraph X W F :=
      { g with dGraph := some w, kv := (LlamaGraph.tokenCache G w g.kv g.hp t).1 }
    have hdecode : g.decodeOne G (.succeed G) model t = (.ok (logitsOf G g.hp w _), g₁) :=
      LlamaGraph.decodeOne_succeed hw hg (by omega) t
    have hhead : g₁.kv.head = g.kv.head + 1 := Nat.min_eq_left (by omega)
    have hnCtx : g₁.kv.nCtx = g.kv.nCtx := rfl
    obtain ⟨l', g', hrest, hhp', hnCtx', hhead', hg'⟩ :=
      ih (g := g₁) hw (LlamaGraph.coherent_of_dGraph_eq hw _) (by omega)
    refine ⟨l', g', ?_, hhp', hnCtx', ?_, hg'⟩
    · rw [decodeEach, hdecode]
      exact hrest
    · rw [List.length_cons]
      omega

/-- The last of several tokens is decoded behind all the others. -/
theorem prefillThenDecode_append_singleton {w : Weights W} {as ts : List TokenId} {t : TokenId}
    {g : LlamaGraph X W F} (hw : model.weights g.hp.nLayer = .ok w) (hg : g.Coherent model)
    (hne : as ≠ []) (hfits : g.kv.head + (as ++ (ts ++ [t])).length ≤ g.kv.nCtx) :
    ∃ g' : LlamaGraph X W F, g'.kv.head = g.kv.head + (as.length + ts.length) ∧
      g'.kv.nCtx = g.kv.nCtx ∧ prefillThenDecode G model as (ts ++ [t]) g =
        some (logitsOf G g.hp w (LlamaGraph.tokenCache G w g'.kv g.hp t).2,
          { g' with dGraph := some w, kv := (LlamaGraph.tokenCache G w g'.kv g.hp t).1 }) := by
  simp only [List.length_append, List.length_singleton] at hfits
  obtain ⟨last, -, hprefill⟩ := LlamaGraph.prefill_succeed (G := G) hw hne (by omega)
  obtain ⟨-, -, hhp₁, hnCtx₁, hhead₁, -⟩ := LlamaGraph.prefill_eq_ok hprefill
  generalize hg₁ : ({ g with kv := (LlamaGraph.batchCache G w g.kv g.hp as 0).1 } :
    LlamaGraph X W F) = g₁ at hprefill hhp₁ hnCtx₁ hhead₁
  have hcoherent : g₁.Coherent model := by
    rw [← hg₁]
    exact hg
  obtain ⟨l', g', hdecode, hhp, hnCtx, hhead, hg'⟩ :=
    decodeEach_succeed (G := G) (l := logitsOf G g.hp w last) ts (hhp₁ ▸ hw) hcoherent (by omega)
  refine ⟨g', by omega, by omega, ?_⟩
  have hlast := LlamaGraph.decodeOne_succeed (G := G) (g := g') (w := w)
    (by rw [hhp, hhp₁]; exact hw) hg' (by omega) t
  rw [prefillThenDecode, hprefill]
  simp only [decodeEach_append, hdecode, Option.bind_some, decodeEach, hlast, hhp, hhp₁]

end Decode

/-! ## Counting attended rows -/

/-- The single-token graph attends to the rows before the head. -/
theorem attendedRows_decodeMask {nCtx head : ℕ} (h : head ≤ nCtx) :
    attendedRows (some (LlamaGraph.decodeMask nCtx head)) nCtx = List.range head := by
  obtain ⟨n, rfl⟩ := Nat.exists_eq_add_of_le h
  have hmask : ∀ r < head + n,
      (LlamaGraph.decodeMask (head + n) head).getD r 0 = if r < head then 0 else -10000 := by
    intro r hr
    simp [LlamaGraph.decodeMask, List.getD_eq_getElem?_getD, List.getElem?_range hr]
  rw [attendedRows, List.range_add, List.filter_append]
  have hkeep : (List.range head).filter
      (fun r => (LlamaGraph.decodeMask (head + n) head).getD r 0 ≠ -10000) = List.range head := by
    refine List.filter_eq_self.mpr fun r hr => ?_
    have hlt := List.mem_range.mp hr
    rw [hmask r (by omega), if_pos hlt]
    decide
  have hdrop : ((List.range n).map (head + ·)).filter
      (fun r => (LlamaGraph.decodeMask (head + n) head).getD r 0 ≠ -10000) = [] := by
    refine List.filter_eq_nil_iff.mpr fun r hr => ?_
    obtain ⟨i, hi, rfl⟩ := List.mem_map.mp hr
    have hlt := List.mem_range.mp hi
    rw [hmask (head + i) (by omega), if_neg (by omega)]
    decide
  rw [hkeep, hdrop, List.append_nil]

/-- A row is a number: attention returns how many rows it was given. -/
def countGgml : Ggml ℕ Unit ℕ where
  zero := 0
  getRows _ _ := 0
  rmsNorm _ x := x
  mul x _ := x
  mulMat _ x := x
  ropeExt _ _ _ x := x
  attend _ _ rows := rows.length
  add x y := x + y
  silu x := x
  mulRows _ _ := 0
  tensorGet _ x := [x]

theorem layerOut_count (hp : LlamaHparams ℕ) (w : LayerWeights Unit) (pos : ℤ)
    (rows : List (ℕ × ℕ)) (x : ℕ) : layerOut countGgml hp w pos rows x = x + rows.length := rfl

theorem forwardLayers_count (hp : LlamaHparams ℕ) (head : ℕ) (pos : ℤ) (layer : ℕ)
    (ws : List (LayerWeights Unit)) (rows : KVRows ℕ) (n c : ℕ) :
    (forwardLayers countGgml hp head pos layer ws rows (List.replicate n c)).2 =
      List.replicate n (c + ws.length * (head + n)) := by
  induction ws generalizing layer rows c with
  | nil => simp [forwardLayers]
  | cons w ws ih =>
    have hcur : ((List.replicate n c).mapIdx fun i x => layerOut countGgml hp w (pos + i)
        ((List.range head).map (rows layer) ++ (List.replicate n c).mapIdx fun i x =>
          keyValueRow countGgml hp w (pos + i) x) x) = List.replicate n (c + (head + n)) := by
      apply List.ext_getElem <;> simp [layerOut_count]
    rw [forwardLayers_cons, hcur, ih, List.length_cons, Nat.succ_mul]
    congr 1
    omega

theorem decodeLayers_count (hp : LlamaHparams ℕ) (nCtx : ℕ) (mask : List ℤ) (pos : ℤ) (layer : ℕ)
    (ws : List (LayerWeights Unit)) (rows : KVRows ℕ) (c : ℕ) :
    (decodeLayers countGgml hp nCtx mask pos layer ws rows c).2 =
      c + ws.length * (attendedRows (some mask) nCtx).length := by
  induction ws generalizing layer c with
  | nil => simp [decodeLayers]
  | cons w ws ih =>
    rw [decodeLayers]
    simp only [ih, layerOut_count, List.length_map, List.length_cons, Nat.succ_mul]
    omega

/-- An empty cache over `nLayer` layers. -/
def countGraph (nLayer nCtx : ℕ) : LlamaGraph ℕ Unit ℕ where
  hp := { nVocab := 1, nEmbd := 1, nHead := 1, nLayer, nRot := 0, freqBase := 0, rmsNormEps := 0 }
  kv := KVCache.new countGgml nCtx
  dGraph := none

/-- A batch over an empty cache attends to all its rows in every layer. -/
theorem batchCache_count {nLayer nCtx : ℕ} {tokens : List TokenId} {last : ℕ}
    (h : (LlamaGraph.batchCache countGgml (.const () nLayer) (countGraph nLayer nCtx).kv
      (countGraph nLayer nCtx).hp tokens 0).2.getLast? = some last) :
    last = nLayer * tokens.length := by
  have hcur : tokens.map (countGgml.getRows (Weights.const () nLayer).tokenEmbd) =
      List.replicate tokens.length 0 := List.map_const'
  have hlayers : (Weights.const () nLayer).layers.length = nLayer := List.length_replicate
  have hhead : (countGraph nLayer nCtx).kv.head = 0 := rfl
  rw [LlamaGraph.batchCache] at h
  simp only [hcur, forwardLayers_count, hlayers, hhead, Nat.zero_add] at h
  exact List.eq_of_mem_replicate (List.mem_of_getLast? h)

/-- With a layer, a decoded token misses one row in each layer. -/
theorem eq_nil_of_prefillMatchesDecode {nLayer nCtx : ℕ} {as bs : List TokenId} (hne : as ≠ [])
    (hfits : (as ++ bs).length ≤ nCtx) (hlayers : 0 < nLayer)
    (h : PrefillMatchesDecode nLayer nCtx as bs) : bs = [] := by
  rcases List.eq_nil_or_concat' bs with hnil | ⟨ts, t, rfl⟩
  · exact hnil
  · have hw := MappedModel.weights_const () nLayer
    have hg : (countGraph nLayer nCtx).Coherent (.const ()) := fun _ hw => by cases hw
    have hfits' : (countGraph nLayer nCtx).kv.head + (as ++ (ts ++ [t])).length ≤
        (countGraph nLayer nCtx).kv.nCtx := by
      show 0 + (as ++ (ts ++ [t])).length ≤ nCtx
      omega
    obtain ⟨l₁, g₁, l₂, g₂, hprefill, hdecode, -, -, hlogits⟩ :=
      h _ _ _ countGgml (.const ()) _ (countGraph nLayer nCtx) rfl rfl rfl hg hw
    obtain ⟨last, hlast, hprefill'⟩ := LlamaGraph.prefill_succeed (G := countGgml)
      (g := countGraph nLayer nCtx) hw (by simp) hfits'
    obtain ⟨g', hhead, hnCtx, hdecode'⟩ := prefillThenDecode_append_singleton (G := countGgml)
      (g := countGraph nLayer nCtx) hw hg hne hfits'
    rw [hprefill'] at hprefill
    rw [hdecode'] at hdecode
    cases hprefill
    cases hdecode
    have hrows : last = (LlamaGraph.tokenCache countGgml (.const () nLayer) g'.kv
        (countGraph nLayer nCtx).hp t).2 := List.head_eq_of_cons_eq hlogits
    have hN : (as ++ (ts ++ [t])).length = as.length + ts.length + 1 := by
      simp [Nat.add_assoc]
    have hfits'' : g'.kv.head ≤ g'.kv.nCtx := by omega
    rw [batchCache_count hlast, LlamaGraph.tokenCache] at hrows
    have hzero : (countGraph nLayer nCtx).kv.head = 0 := rfl
    have hlayers' : (Weights.const () nLayer).layers.length = nLayer := List.length_replicate
    have hembd : countGgml.getRows (Weights.const () nLayer).tokenEmbd t = 0 := rfl
    simp only [decodeLayers_count, attendedRows_decodeMask hfits'', List.length_range] at hrows
    simp only [hlayers', hembd, hhead, hzero, hN, Nat.zero_add, Nat.mul_add, Nat.mul_one] at hrows
    omega

theorem prefillMatchesDecode_nil {nLayer nCtx : ℕ} {as : List TokenId} (hne : as ≠ [])
    (hfits : as.length ≤ nCtx) : PrefillMatchesDecode nLayer nCtx as [] := by
  intro X W F G model w g hn hctx hhead hg hw
  subst hn hctx
  obtain ⟨last, -, hprefill⟩ := LlamaGraph.prefill_succeed (G := G) hw hne (by omega)
  refine ⟨logitsOf G g.hp w last, { g with kv := (LlamaGraph.batchCache G w g.kv g.hp as 0).1 },
    _, _, ?_, ?_, rfl, fun _ _ _ _ => rfl, rfl⟩
  · rw [List.append_nil]
    exact hprefill
  · rw [prefillThenDecode, hprefill]
    rfl

/-- Without layers, the logits only depend on the last token. -/
theorem prefillMatchesDecode_of_zero {nCtx : ℕ} {as bs : List TokenId} (hne : as ≠ [])
    (hfits : (as ++ bs).length ≤ nCtx) : PrefillMatchesDecode 0 nCtx as bs := by
  rcases List.eq_nil_or_concat' bs with rfl | ⟨ts, t, rfl⟩
  · exact prefillMatchesDecode_nil hne (by simpa using hfits)
  · intro X W F G model w g hn hctx hhead hg hw
    subst hctx
    have hw' : model.weights g.hp.nLayer = .ok w := hn.symm ▸ hw
    have hlayers : w.layers = [] := List.eq_nil_of_length_eq_zero (MappedModel.length_layers hw)
    have hne' : as ++ (ts ++ [t]) ≠ [] := by simp
    have hfits' : g.kv.head + (as ++ (ts ++ [t])).length ≤ g.kv.nCtx := by omega
    obtain ⟨last, hlast, hprefill⟩ := LlamaGraph.prefill_succeed (G := G) hw' hne' hfits'
    obtain ⟨g', hhead', hnCtx', hdecode⟩ :=
      prefillThenDecode_append_singleton (G := G) hw' hg hne hfits'
    obtain ⟨-, -, -, -, hheads, -⟩ := LlamaGraph.prefill_eq_ok hprefill
    refine ⟨_, _, _, _, hprefill, hdecode, ?_, fun layer hlayer => by omega, ?_⟩
    · simp only [List.length_append, List.length_singleton] at hfits hheads
      rw [hheads]
      show _ = min (g'.kv.head + 1) g'.kv.nCtx
      omega
    · have hlast' : last = G.getRows w.tokenEmbd t := by
        simpa [LlamaGraph.batchCache, hlayers, forwardLayers, eq_comm] using hlast
      have hdecoded : (LlamaGraph.tokenCache G w g'.kv g.hp t).2 = G.getRows w.tokenEmbd t := by
        simp [LlamaGraph.tokenCache, hlayers, decodeLayers]
      rw [hlast', hdecoded]

/-- Prefill and decode agree, for all arithmetics and models, exactly when nothing is decoded or
there are no layers. -/
theorem prefillMatchesDecode_iff {nLayer nCtx : ℕ} {as bs : List TokenId} (hne : as ≠ [])
    (hfits : as.length + bs.length ≤ nCtx) :
    PrefillMatchesDecode nLayer nCtx as bs ↔ bs = [] ∨ nLayer = 0 := by
  have hfits' : (as ++ bs).length ≤ nCtx := by rwa [List.length_append]
  constructor
  · intro h
    rcases Nat.eq_zero_or_pos nLayer with hzero | hpos
    · exact Or.inr hzero
    · exact Or.inl (eq_nil_of_prefillMatchesDecode hne hfits' hpos h)
  · rintro (rfl | rfl)
    · exact prefillMatchesDecode_nil hne hfits
    · exact prefillMatchesDecode_of_zero hne hfits'

theorem prefillMatchesDecode_iff_two :
    PrefillMatchesDecode 1 4 [5, 6] [7] ↔ ([7] : List TokenId) = [] ∨ 1 = 0 :=
  prefillMatchesDecode_iff (by decide) (by decide)

/-- With one layer, the second token's logits differ. -/
theorem not_prefillMatchesDecode :
    ¬ ∀ (nLayer nCtx : ℕ) (as bs : List TokenId), as ≠ [] → as.length + bs.length ≤ nCtx →
      PrefillMatchesDecode nLayer nCtx as bs := by
  intro h
  have hagree := h 1 4 [5] [6] (by decide) (by decide)
  exact absurd (eq_nil_of_prefillMatchesDecode (by decide) (by decide) (by decide) hagree)
    (by decide)

end QuantumFlow
