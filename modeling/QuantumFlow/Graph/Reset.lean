import Mathlib.Data.List.Forall2
import QuantumFlow.Graph.Agreement
import QuantumFlow.Graph.AppendOnly

/-!
# What a reset forgets

A reset moves the head to 0 and leaves the rows in the buffer. Two graphs of one model agree
when their heads and the rows before them do; what lies behind the head is stale and may differ.
The same request keeps two such graphs in agreement and returns the same logits from both, so
nothing that was cached before a reset can be seen after it.
-/

namespace QuantumFlow

variable {X W F : Type}

/-- The logits of a request that returned them. -/
def returned {ε α : Type} : Outcome ε α → Option α
  | .ok a => some a
  | .err _ => none
  | .panic => none

/-- The logits that each request returns, if it does, and the state after the last one. -/
def replies (G : Ggml X W F) (model : MappedModel W) :
    List (Request X) → LlamaGraph X W F → List (Option (List F)) × LlamaGraph X W F
  | [], g => ([], g)
  | req :: reqs, g =>
    let (res, g) := req.serve G model g
    let (rest, g) := replies G model reqs g
    (returned res :: rest, g)

/-- The state in which a history followed by a reset leaves a graph. -/
def afterReset (G : Ggml X W F) (model : MappedModel W) (history : List (Request X))
    (g : LlamaGraph X W F) : LlamaGraph X W F :=
  (replies G model history g).2.resetKv

/-- One request to two graphs, whose ggml calls may end differently. -/
inductive SameRequest : Request X → Request X → Prop
  | prefill (calls₁ calls₂ : GgmlCalls X) (tokens : List TokenId) :
      SameRequest (.prefill calls₁ tokens) (.prefill calls₂ tokens)
  | decodeOne (calls₁ calls₂ : GgmlCalls X) (token : TokenId) :
      SameRequest (.decodeOne calls₁ token) (.decodeOne calls₂ token)

/-- Two graphs of one model with the same cached rows. -/
structure Agrees (model : MappedModel W) (g₁ g₂ : LlamaGraph X W F) : Prop where
  hp : g₂.hp = g₁.hp
  nCtx : g₂.kv.nCtx = g₁.kv.nCtx
  head : g₂.kv.head = g₁.kv.head
  fits : g₁.kv.head ≤ g₁.kv.nCtx
  rows : ∀ layer < g₁.hp.nLayer, ∀ r < g₁.kv.head, g₂.kv.rows layer r = g₁.kv.rows layer r
  coherent₁ : g₁.Coherent model
  coherent₂ : g₂.Coherent model

/-! ## Graphs over agreeing rows -/

section Layers

variable {G : Ggml X W F} {hp : LlamaHparams F}

/-- The batched graph sees the rows before the head only, and leaves the same rows behind. -/
theorem forwardLayers_congr {head : ℕ} {pos : ℤ} {layer : ℕ} {ws : List (LayerWeights W)}
    {rows₁ rows₂ : KVRows X} (cur : List X)
    (h : ∀ l, layer ≤ l → l < layer + ws.length → ∀ r < head, rows₂ l r = rows₁ l r) :
    (forwardLayers G hp head pos layer ws rows₂ cur).2 =
        (forwardLayers G hp head pos layer ws rows₁ cur).2 ∧
      ∀ l, layer ≤ l → l < layer + ws.length → ∀ r < head + cur.length,
        (forwardLayers G hp head pos layer ws rows₂ cur).1 l r =
          (forwardLayers G hp head pos layer ws rows₁ cur).1 l r := by
  induction ws generalizing layer rows₁ rows₂ cur with
  | nil => exact ⟨rfl, fun l hl hlt => absurd hlt (Nat.not_lt.mpr hl)⟩
  | cons w ws ih =>
    rw [List.length_cons] at h ⊢
    have hread : (List.range head).map (rows₂ layer) = (List.range head).map (rows₁ layer) :=
      List.map_congr_left fun r hr => h layer (Nat.le_refl _) (by omega) r (List.mem_range.mp hr)
    rw [forwardLayers_cons, forwardLayers_cons, hread]
    generalize hnew : (cur.mapIdx fun i x => keyValueRow G hp w (pos + i) x) = new
    generalize hcur' : (cur.mapIdx fun i x => layerOut G hp w (pos + i) _ x) = cur'
    have hlen : new.length = cur.length := by rw [← hnew, List.length_mapIdx]
    have hlen' : cur'.length = cur.length := by rw [← hcur', List.length_mapIdx]
    have hrest : ∀ l, layer + 1 ≤ l → l < layer + 1 + ws.length → ∀ r < head,
        writeRows rows₂ layer head new l r = writeRows rows₁ layer head new l r := by
      intro l hl hlt r hr
      have hne : l ≠ layer := by omega
      rw [writeRows_of_ne rows₂ hne, writeRows_of_ne rows₁ hne]
      exact h l (by omega) (by omega) r hr
    obtain ⟨hout, hrows⟩ := ih cur' hrest
    refine ⟨hout, fun l hl hlt r hr => ?_⟩
    rcases Nat.eq_or_lt_of_le hl with rfl | hgt
    · -- later layers leave the rows that this layer wrote
      rw [forwardLayers_of_lt head pos (Nat.lt_succ_self _),
        forwardLayers_of_lt head pos (Nat.lt_succ_self _)]
      by_cases hold : r < head
      · rw [writeRows_of_lt rows₂ _ head new hold, writeRows_of_lt rows₁ _ head new hold]
        exact h _ (Nat.le_refl _) hlt r hold
      · obtain ⟨i, rfl⟩ := Nat.exists_eq_add_of_le (Nat.not_lt.mp hold)
        have hi : i < new.length := by omega
        rw [writeRows_add rows₂ _ head hi, writeRows_add rows₁ _ head hi]
    · exact hrows l hgt (by omega) r (by omega)

/-- The single-token graph sees the rows that its mask leaves. -/
theorem decodeLayers_congr {nCtx : ℕ} {mask : List ℤ} {pos : ℤ} {layer : ℕ}
    {ws : List (LayerWeights W)} {rows₁ rows₂ : KVRows X} (cur : X)
    (h : ∀ l, layer ≤ l → l < layer + ws.length → ∀ r ∈ attendedRows (some mask) nCtx,
      rows₂ l r = rows₁ l r) :
    decodeLayers G hp nCtx mask pos layer ws rows₂ cur =
      decodeLayers G hp nCtx mask pos layer ws rows₁ cur := by
  induction ws generalizing layer cur with
  | nil => rfl
  | cons w ws ih =>
    rw [List.length_cons] at h
    have hread : (attendedRows (some mask) nCtx).map (rows₂ layer) =
        (attendedRows (some mask) nCtx).map (rows₁ layer) :=
      List.map_congr_left fun r hr => h layer (Nat.le_refl _) (by omega) r hr
    have hrest : ∀ cur, decodeLayers G hp nCtx mask pos (layer + 1) ws rows₂ cur =
        decodeLayers G hp nCtx mask pos (layer + 1) ws rows₁ cur :=
      fun cur => ih cur fun l hl hlt r hr => h l (by omega) (by omega) r hr
    simp only [decodeLayers, hread, hrest]

theorem length_decodeLayers (nCtx : ℕ) (mask : List ℤ) (pos : ℤ) (layer : ℕ)
    (ws : List (LayerWeights W)) (rows : KVRows X) (cur : X) :
    (decodeLayers G hp nCtx mask pos layer ws rows cur).1.length = ws.length := by
  induction ws generalizing layer cur with
  | nil => rfl
  | cons w ws ih => simp [decodeLayers, ih]

end Layers

/-! ## The persistent graph -/

namespace LlamaGraph

variable {G : Ggml X W F} {calls : GgmlCalls X} {model : MappedModel W} {g : LlamaGraph X W F}

theorem hp_forward (tokens : List TokenId) (pos : ℤ) :
    (g.forward G calls model tokens pos).2.hp = g.hp ∧
      (g.forward G calls model tokens pos).2.dGraph = g.dGraph := by
  unfold forward
  split
  · exact ⟨rfl, rfl⟩
  · exact ⟨rfl, rfl⟩
  · dsimp only
    split
    · exact ⟨rfl, rfl⟩
    · split <;> exact ⟨rfl, rfl⟩

/-- Prefill keeps the persistent graph. -/
theorem hp_prefill (tokens : List TokenId) :
    (g.prefill G calls model tokens).2.hp = g.hp ∧
      (g.prefill G calls model tokens).2.dGraph = g.dGraph := by
  unfold prefill
  split
  · exact ⟨rfl, rfl⟩
  · exact hp_forward tokens 0

/-- Decode looks weights up in the model only. -/
theorem coherent_executeDecode (hg : g.Coherent model) (token : TokenId) :
    (g.executeDecode G calls model token).2.Coherent model ∧
      (g.executeDecode G calls model token).2.hp = g.hp := by
  unfold executeDecode
  dsimp only
  split
  · exact ⟨hg, rfl⟩
  · exact ⟨hg, rfl⟩
  · rename_i w hbuilt
    have hw : model.weights g.hp.nLayer = .ok w := by
      split at hbuilt
      · rename_i w' hw'
        cases hbuilt
        exact hg w hw'
      · exact weights_of_buildDecodeGraph hbuilt
    split
    · exact ⟨coherent_of_dGraph_eq hw g.kv, rfl⟩
    split
    · exact ⟨coherent_of_dGraph_eq hw g.kv, rfl⟩
    · exact ⟨coherent_of_dGraph_eq hw _, rfl⟩

theorem coherent_serve (hg : g.Coherent model) (req : Request X) :
    (req.serve G model g).2.Coherent model ∧ (req.serve G model g).2.hp = g.hp := by
  cases req with
  | prefill calls tokens =>
    have hkeeps : (g.prefill G calls model tokens).2.hp = g.hp ∧
      (g.prefill G calls model tokens).2.dGraph = g.dGraph := hp_prefill tokens
    obtain ⟨hhp, hd⟩ := hkeeps
    refine ⟨fun w hw => ?_, hhp⟩
    rw [Request.serve, hd] at hw
    rw [Request.serve, hhp]
    exact hg w hw
  | decodeOne calls token => exact coherent_executeDecode hg token
  | resetKv => exact ⟨hg, rfl⟩

end LlamaGraph

/-! ## One request to two graphs -/

section Step

variable {G : Ggml X W F} {model : MappedModel W} {g₁ g₂ : LlamaGraph X W F}

/-- Batches over agreeing rows return the same last row and leave agreeing rows. -/
theorem batchCache_congr {w : Weights W} (hw : model.weights g₁.hp.nLayer = .ok w)
    (h : Agrees model g₁ g₂) (tokens : List TokenId) (pos : ℤ) :
    (LlamaGraph.batchCache G w g₂.kv g₂.hp tokens pos).2 =
        (LlamaGraph.batchCache G w g₁.kv g₁.hp tokens pos).2 ∧
      ∀ layer < g₁.hp.nLayer, ∀ r < g₁.kv.head + tokens.length,
        (LlamaGraph.batchCache G w g₂.kv g₂.hp tokens pos).1.rows layer r =
          (LlamaGraph.batchCache G w g₁.kv g₁.hp tokens pos).1.rows layer r := by
  have hlen := MappedModel.length_layers hw
  have hold : ∀ l, 0 ≤ l → l < 0 + w.layers.length → ∀ r < g₁.kv.head,
      g₂.kv.rows l r = g₁.kv.rows l r := fun l _ hl r hr => h.rows l (by omega) r hr
  obtain ⟨hout, hrows⟩ := forwardLayers_congr (G := G) (tokens.map (G.getRows w.tokenEmbd)) hold
  rw [List.length_map] at hrows
  simp only [LlamaGraph.batchCache, h.hp, h.head]
  exact ⟨hout, fun layer hlayer r hr => hrows layer (Nat.zero_le _) (by omega) r hr⟩

/-- Tokens decoded behind agreeing rows give the same last row and leave agreeing rows. -/
theorem tokenCache_congr {w : Weights W} (hw : model.weights g₁.hp.nLayer = .ok w)
    (h : Agrees model g₁ g₂) (token : TokenId) :
    (LlamaGraph.tokenCache G w g₂.kv g₂.hp token).2 =
        (LlamaGraph.tokenCache G w g₁.kv g₁.hp token).2 ∧
      ∀ layer < g₁.hp.nLayer, ∀ r < g₁.kv.head + 1,
        (LlamaGraph.tokenCache G w g₂.kv g₂.hp token).1.rows layer r =
          (LlamaGraph.tokenCache G w g₁.kv g₁.hp token).1.rows layer r := by
  have hlen := MappedModel.length_layers hw
  have hold : ∀ l, 0 ≤ l → l < 0 + w.layers.length →
      ∀ r ∈ attendedRows (some (LlamaGraph.decodeMask g₁.kv.nCtx g₁.kv.head)) g₁.kv.nCtx,
        g₂.kv.rows l r = g₁.kv.rows l r := by
    intro l _ hl r hr
    rw [attendedRows_decodeMask h.fits] at hr
    exact h.rows l (by omega) r (List.mem_range.mp hr)
  have hsame : ∀ (pos : ℤ) (cur : X), decodeLayers G g₁.hp g₁.kv.nCtx
      (LlamaGraph.decodeMask g₁.kv.nCtx g₁.kv.head) pos 0 w.layers g₂.kv.rows cur =
        decodeLayers G g₁.hp g₁.kv.nCtx (LlamaGraph.decodeMask g₁.kv.nCtx g₁.kv.head) pos 0
          w.layers g₁.kv.rows cur := fun pos cur => decodeLayers_congr cur hold
  simp only [LlamaGraph.tokenCache, h.hp, h.head, h.nCtx, hsame]
  refine ⟨trivial, fun layer hlayer r hr => ?_⟩
  split
  · rw [List.getElem?_eq_getElem (by rw [length_decodeLayers]; omega)]
    rfl
  · exact h.rows layer hlayer r (by omega)

/-- Two requests that both return. -/
theorem ok_congr {r₁ r₂ : Request X} {l₁ l₂ : List F} {g₁' g₂' : LlamaGraph X W F}
    (hreq : SameRequest r₁ r₂) (h : Agrees model g₁ g₂) (h₁ : r₁.serve G model g₁ = (.ok l₁, g₁'))
    (h₂ : r₂.serve G model g₂ = (.ok l₂, g₂')) :
    l₁ = l₂ ∧ g₂'.kv.head = g₁'.kv.head ∧
      ∀ layer < g₁.hp.nLayer, ∀ r < g₁'.kv.head, g₂'.kv.rows layer r = g₁'.kv.rows layer r := by
  cases hreq with
  | prefill calls₁ calls₂ tokens =>
    have hhead₁ := (LlamaGraph.prefill_eq_ok h₁).2.2.2.2.1
    have hhead₂ := (LlamaGraph.prefill_eq_ok h₂).2.2.2.2.1
    obtain ⟨w, hw, hlogits₁, rfl⟩ := LlamaGraph.prefill_returns h₁
    obtain ⟨w', hw', hlogits₂, rfl⟩ := LlamaGraph.prefill_returns h₂
    rw [h.hp, hw] at hw'
    cases hw'
    obtain ⟨hout, hrows⟩ := batchCache_congr (G := G) hw h tokens 0
    rw [hout, h.hp, hlogits₁] at hlogits₂
    refine ⟨Option.some.inj hlogits₂, by rw [hhead₁, hhead₂, h.head], fun layer hlayer r hr => ?_⟩
    exact hrows layer hlayer r (by rwa [hhead₁] at hr)
  | decodeOne calls₁ calls₂ token =>
    have hhead₁ := (LlamaGraph.decodeOne_eq_ok h₁).2.2.2.1
    have hhead₂ := (LlamaGraph.decodeOne_eq_ok h₂).2.2.2.1
    obtain ⟨w, hw, rfl, rfl⟩ := LlamaGraph.decodeOne_returns h.coherent₁ h₁
    obtain ⟨w', hw', rfl, rfl⟩ := LlamaGraph.decodeOne_returns h.coherent₂ h₂
    rw [h.hp, hw] at hw'
    cases hw'
    obtain ⟨hout, hrows⟩ := tokenCache_congr (G := G) hw h token
    refine ⟨by rw [hout, h.hp], by rw [hhead₁, hhead₂, h.head], fun layer hlayer r hr => ?_⟩
    exact hrows layer hlayer r (by rwa [hhead₁] at hr)

/-- A request that fails leaves the head and the rows before it. -/
theorem serve_err {req : Request X} {g g' : LlamaGraph X W F} {e : ForwardError}
    (h : req.serve G model g = (.err e, g')) :
    g'.kv.head = g.kv.head ∧ ∀ layer, ∀ r < g.kv.head, g'.kv.rows layer r = g.kv.rows layer r := by
  cases req with
  | prefill calls tokens =>
    have happ := appendsRows_prefill h
    exact ⟨happ.headErr e rfl, happ.below⟩
  | decodeOne calls token =>
    have happ := appendsRows_decodeOne h
    exact ⟨happ.headErr e rfl, happ.below⟩
  | resetKv => cases h

theorem SameRequest.ne_panic {r₁ r₂ : Request X} (hreq : SameRequest r₁ r₂) :
    (r₁.serve G model g₁).1 ≠ .panic ∧ (r₂.serve G model g₂).1 ≠ .panic := by
  cases hreq with
  | prefill calls₁ calls₂ tokens =>
    exact ⟨LlamaGraph.prefill_ne_panic tokens, LlamaGraph.prefill_ne_panic tokens⟩
  | decodeOne calls₁ calls₂ token =>
    exact ⟨LlamaGraph.decodeOne_ne_panic token, LlamaGraph.decodeOne_ne_panic token⟩

/-- The same request to two graphs that agree, when both return or both fail, gets the same
reply, and the graphs agree behind it. -/
theorem agrees_serve {r₁ r₂ : Request X} (hreq : SameRequest r₁ r₂) (h : Agrees model g₁ g₂)
    (hsame : (returned (r₁.serve G model g₁).1).isSome =
      (returned (r₂.serve G model g₂).1).isSome) :
    returned (r₁.serve G model g₁).1 = returned (r₂.serve G model g₂).1 ∧
      Agrees model (r₁.serve G model g₁).2 (r₂.serve G model g₂).2 := by
  obtain ⟨hcoherent₁, hhp₁⟩ := LlamaGraph.coherent_serve (G := G) h.coherent₁ r₁
  obtain ⟨hcoherent₂, hhp₂⟩ := LlamaGraph.coherent_serve (G := G) h.coherent₂ r₂
  have hfits : (r₁.serve G model g₁).2.kv.head ≤ (r₁.serve G model g₁).2.kv.nCtx :=
    head_le_of_serve r₁ h.fits
  have hctx₁ : (r₁.serve G model g₁).2.kv.nCtx = g₁.kv.nCtx := nCtx_serve r₁
  have hctx₂ : (r₂.serve G model g₂).2.kv.nCtx = g₂.kv.nCtx := nCtx_serve r₂
  have hne : (r₁.serve G model g₁).1 ≠ .panic ∧ (r₂.serve G model g₂).1 ≠ .panic :=
    hreq.ne_panic
  obtain ⟨hne₁, hne₂⟩ := hne
  cases h₁ : r₁.serve G model g₁ with
  | mk res₁ g₁' =>
    cases h₂ : r₂.serve G model g₂ with
    | mk res₂ g₂' =>
      rw [h₁] at hcoherent₁ hhp₁ hfits hctx₁ hne₁ hsame
      rw [h₂] at hcoherent₂ hhp₂ hctx₂ hne₂ hsame
      have hreply : returned res₁ = returned res₂ ∧ g₂'.kv.head = g₁'.kv.head ∧
          ∀ layer < g₁.hp.nLayer, ∀ r < g₁'.kv.head,
            g₂'.kv.rows layer r = g₁'.kv.rows layer r := by
        cases res₁ with
        | ok l₁ =>
          cases res₂ with
          | ok l₂ =>
            obtain ⟨rfl, hrest⟩ := ok_congr hreq h h₁ h₂
            exact ⟨rfl, hrest⟩
          | err e => cases hsame
          | panic => exact absurd rfl hne₂
        | err e =>
          cases res₂ with
          | ok l₂ => cases hsame
          | err e' =>
            obtain ⟨hhead₁, hrows₁⟩ := serve_err h₁
            obtain ⟨hhead₂, hrows₂⟩ := serve_err h₂
            refine ⟨rfl, by rw [hhead₁, hhead₂, h.head], fun layer hlayer r hr => ?_⟩
            rw [hhead₁] at hr
            rw [hrows₁ layer r hr, hrows₂ layer r (by rw [h.head]; exact hr)]
            exact h.rows layer hlayer r hr
          | panic => exact absurd rfl hne₂
        | panic => exact absurd rfl hne₁
      obtain ⟨hsame', hhead, hrows⟩ := hreply
      refine ⟨hsame', ?_⟩
      exact
        { hp := by rw [hhp₁, hhp₂, h.hp]
          nCtx := by rw [hctx₁, hctx₂, h.nCtx]
          head := hhead
          fits := hfits
          rows := fun layer hlayer => hrows layer (by rwa [hhp₁] at hlayer)
          coherent₁ := hcoherent₁
          coherent₂ := hcoherent₂ }

end Step

/-! ## Runs -/

section Runs

variable {G : Ggml X W F} {model : MappedModel W}

/-- The replies of a run depend on the rows before the head only. -/
theorem replies_congr {c₁ c₂ : List (Request X)} (hc : List.Forall₂ SameRequest c₁ c₂)
    {g₁ g₂ : LlamaGraph X W F} (h : Agrees model g₁ g₂)
    (hsame : (replies G model c₁ g₁).1.map Option.isSome =
      (replies G model c₂ g₂).1.map Option.isSome) :
    (replies G model c₁ g₁).1 = (replies G model c₂ g₂).1 := by
  induction hc generalizing g₁ g₂ with
  | nil => rfl
  | cons hreq _ ih =>
    simp only [replies, List.map_cons, List.cons.injEq] at hsame ⊢
    obtain ⟨hreply, hnext⟩ := agrees_serve hreq h hsame.1
    exact ⟨hreply, ih hnext hsame.2⟩

theorem replies_history (history : List (Request X)) {g : LlamaGraph X W F}
    (hg : g.Coherent model) :
    (replies G model history g).2.Coherent model ∧ (replies G model history g).2.hp = g.hp ∧
      (replies G model history g).2.kv.nCtx = g.kv.nCtx := by
  induction history generalizing g with
  | nil => exact ⟨hg, rfl, rfl⟩
  | cons req history ih =>
    obtain ⟨hcoherent, hhp⟩ := LlamaGraph.coherent_serve (G := G) hg req
    have hctx : (req.serve G model g).2.kv.nCtx = g.kv.nCtx := nCtx_serve req
    obtain ⟨hcoherent', hhp', hctx'⟩ := ih hcoherent
    exact ⟨hcoherent', hhp'.trans hhp, hctx'.trans hctx⟩

/-- All that two histories can differ in is stale after a reset. -/
theorem agrees_afterReset (history₁ history₂ : List (Request X)) {g : LlamaGraph X W F}
    (hg : g.Coherent model) :
    Agrees model (afterReset G model history₁ g) (afterReset G model history₂ g) := by
  obtain ⟨hcoherent₁, hhp₁, hctx₁⟩ := replies_history (G := G) history₁ hg
  obtain ⟨hcoherent₂, hhp₂, hctx₂⟩ := replies_history (G := G) history₂ hg
  exact
    { hp := hhp₂.trans hhp₁.symm
      nCtx := hctx₂.trans hctx₁.symm
      head := rfl
      fits := Nat.zero_le _
      rows := fun _ _ r hr => absurd hr (Nat.not_lt_zero r)
      coherent₁ := hcoherent₁
      coherent₂ := hcoherent₂ }

theorem length_replies (c : List (Request X)) (g : LlamaGraph X W F) :
    (replies G model c g).1.length = c.length := by
  induction c generalizing g with
  | nil => rfl
  | cons req c ih => simp [replies, ih]

/-- Two runs in which every step returns. -/
theorem replies_congr_of_isSome {c₁ c₂ : List (Request X)} (hc : List.Forall₂ SameRequest c₁ c₂)
    {g₁ g₂ : LlamaGraph X W F} (h : Agrees model g₁ g₂)
    (h₁ : ∀ r ∈ (replies G model c₁ g₁).1, r.isSome = true)
    (h₂ : ∀ r ∈ (replies G model c₂ g₂).1, r.isSome = true) :
    (replies G model c₁ g₁).1 = (replies G model c₂ g₂).1 := by
  apply replies_congr hc h
  have hall : ∀ {c : List (Request X)} {g : LlamaGraph X W F},
      (∀ r ∈ (replies G model c g).1, r.isSome = true) →
      (replies G model c g).1.map Option.isSome = List.replicate c.length true := by
    intro c g hsome
    rw [List.eq_replicate_iff, List.length_map, length_replies]
    exact ⟨rfl, by simpa using hsome⟩
  rw [hall h₁, hall h₂, hc.length_eq]

theorem tokens_eq_of_sameRequest {c₁ c₂ : List (Request X)}
    (hc : List.Forall₂ SameRequest c₁ c₂) :
    c₁.flatMap Request.tokens = c₂.flatMap Request.tokens := by
  induction hc with
  | nil => rfl
  | cons hreq _ ih => cases hreq <;> simp [Request.tokens, ih]

/-- A request for at least one token whose ggml calls all succeed. -/
def Request.Succeeds (G : Ggml X W F) : Request X → Prop
  | prefill calls tokens => calls = .succeed G ∧ tokens ≠ []
  | decodeOne calls _ => calls = .succeed G
  | resetKv => False

theorem serve_succeeds {w : Weights W} {req : Request X} {g : LlamaGraph X W F}
    (hw : model.weights g.hp.nLayer = .ok w) (hg : g.Coherent model) (hreq : req.Succeeds G)
    (hfits : g.kv.head + req.tokens.length ≤ g.kv.nCtx) :
    ∃ logits, (req.serve G model g).1 = .ok logits := by
  cases req with
  | prefill calls tokens =>
    obtain ⟨rfl, hne⟩ := hreq
    obtain ⟨last, -, hprefill⟩ := LlamaGraph.prefill_succeed (G := G) hw hne hfits
    exact ⟨_, congrArg Prod.fst hprefill⟩
  | decodeOne calls token =>
    obtain rfl := hreq
    exact ⟨_, congrArg Prod.fst (LlamaGraph.decodeOne_succeed hw hg hfits token)⟩
  | resetKv => exact absurd hreq id

/-- A run within capacity returns at every step. -/
theorem isSome_replies {w : Weights W} {c : List (Request X)} {g : LlamaGraph X W F}
    (hw : model.weights g.hp.nLayer = .ok w) (hg : g.Coherent model)
    (hc : ∀ req ∈ c, req.Succeeds G)
    (hfits : g.kv.head + (c.flatMap Request.tokens).length ≤ g.kv.nCtx) :
    ∀ r ∈ (replies G model c g).1, r.isSome = true := by
  induction c generalizing g with
  | nil => exact fun r hr => absurd hr List.not_mem_nil
  | cons req c ih =>
    rw [List.flatMap_cons, List.length_append] at hfits
    have hreq := hc req List.mem_cons_self
    obtain ⟨logits, hok⟩ := serve_succeeds (G := G) hw hg hreq (by omega)
    obtain ⟨hcoherent, hhp⟩ := LlamaGraph.coherent_serve (G := G) hg req
    have hctx : (req.serve G model g).2.kv.nCtx = g.kv.nCtx := nCtx_serve req
    have happ : AppendsRows g (req.serve G model g).2 req.tokens.length
        (req.serve G model g).1 := by
      apply appendsRows_serve
      rintro rfl
      exact hreq
    have hhead := happ.headOk logits hok
    intro r hr
    simp only [replies, List.mem_cons] at hr
    rcases hr with rfl | hr
    · rw [hok]
      rfl
    · exact ih (by rwa [hhp]) hcoherent (fun req' hmem => hc req' (List.mem_cons_of_mem _ hmem))
        (by omega) r hr

end Runs

/-- After any two histories followed by a reset, the same continuation returns the same logits at
every step of a run whose steps return; and they all return within capacity. -/
theorem reset_forgets {G : Ggml X W F} {model : MappedModel W} {backend : Bool}
    {hp : LlamaHparams F} {g₀ : LlamaGraph X W F} (hnew : LlamaGraph.new backend G hp = .ok g₀)
    (history₁ history₂ : List (Request X)) (calls₁ calls₂ : GgmlCalls X) (tokens : List TokenId)
    {c₁ c₂ : List (Request X)} (hsame : List.Forall₂ SameRequest c₁ c₂) :
    let r₁ := (replies G model (.prefill calls₁ tokens :: c₁) (afterReset G model history₁ g₀)).1
    let r₂ := (replies G model (.prefill calls₂ tokens :: c₂) (afterReset G model history₂ g₀)).1
    ((∀ r ∈ r₁, r.isSome = true) → (∀ r ∈ r₂, r.isSome = true) → r₁ = r₂) ∧
      ((∃ w, model.weights hp.nLayer = .ok w) →
        (∀ req ∈ Request.prefill calls₁ tokens :: c₁, req.Succeeds G) →
        (∀ req ∈ Request.prefill calls₂ tokens :: c₂, req.Succeeds G) →
        tokens.length + (c₁.flatMap Request.tokens).length ≤ g₀.kv.nCtx →
        (∀ r ∈ r₁, r.isSome = true) ∧ ∀ r ∈ r₂, r.isSome = true) := by
  intro r₁ r₂
  obtain ⟨hcoherent, hhp⟩ := LlamaGraph.coherent_of_new hnew
  have hc : List.Forall₂ SameRequest (.prefill calls₁ tokens :: c₁)
      (.prefill calls₂ tokens :: c₂) :=
    .cons (.prefill calls₁ calls₂ tokens) hsame
  refine ⟨replies_congr_of_isSome hc (agrees_afterReset history₁ history₂ hcoherent), ?_⟩
  rintro ⟨w, hw⟩ hsucceeds₁ hsucceeds₂ hfits
  have hreturns : ∀ (history c : List (Request X)), (∀ req ∈ c, req.Succeeds G) →
      (c.flatMap Request.tokens).length ≤ g₀.kv.nCtx →
      ∀ r ∈ (replies G model c (afterReset G model history g₀)).1, r.isSome = true := by
    intro history c hsucceeds hlen
    obtain ⟨-, hhp', hctx'⟩ := replies_history (G := G) history hcoherent
    have hagrees := agrees_afterReset (G := G) history history hcoherent
    refine isSome_replies (w := w) ?_ hagrees.coherent₁ hsucceeds ?_
    · show model.weights (replies G model history g₀).2.hp.nLayer = .ok w
      rw [hhp', hhp, hw]
    · show 0 + _ ≤ (replies G model history g₀).2.kv.nCtx
      omega
  constructor
  · apply hreturns history₁ _ hsucceeds₁
    simpa [Request.tokens] using hfits
  · apply hreturns history₂ _ hsucceeds₂
    rw [tokens_eq_of_sameRequest hsame] at hfits
    simpa [Request.tokens] using hfits

/-- A prompt before the reset is not seen after it. -/
theorem reset_forgets_prompt :
    ∃ g₀, LlamaGraph.new true countGgml (countGraph 1 512).hp = .ok g₀ ∧
      (replies countGgml (.const ())
          [.prefill (.succeed countGgml) [5], .decodeOne (.succeed countGgml) 6]
          (afterReset countGgml (.const ()) [.prefill (.succeed countGgml) [7, 8]] g₀)).1 =
        (replies countGgml (.const ())
          [.prefill (.succeed countGgml) [5], .decodeOne (.succeed countGgml) 6]
          (afterReset countGgml (.const ()) [] g₀)).1 := by
  have hnew : LlamaGraph.new true countGgml (countGraph 1 512).hp = .ok _ := rfl
  refine ⟨_, hnew, ?_⟩
  refine (reset_forgets hnew [.prefill (.succeed countGgml) [7, 8]] [] (.succeed countGgml)
    (.succeed countGgml) [5] (.cons (.decodeOne _ _ 6) .nil)).1 ?_ ?_
  · decide
  · decide

end QuantumFlow
