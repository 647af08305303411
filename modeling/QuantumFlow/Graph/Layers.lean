import Mathlib.Data.Int.Notation
import QuantumFlow.Foundation.Outcome
import QuantumFlow.Tokenizer.Vocabulary

/-!
# Transformer layers

What one graph computes, for any arithmetic: `X` is a row of activations, `W` a weight tensor
and `F` a float. The batched graph writes the K/V rows of its tokens before it reads the cache;
the single-token graph reads the cache as it was and hands its rows out. Both compute the same
functions of a row; they differ in the rows they attend to.
-/

namespace QuantumFlow

variable {X W F : Type}

/-- The ggml operations of the graphs, one row at a time. `attend` is the softmax attention of a
query over K/V rows, for a head size. -/
structure Ggml (X W F : Type) where
  zero : X
  getRows : W → TokenId → X
  rmsNorm : F → X → X
  mul : X → W → X
  mulMat : W → X → X
  ropeExt : ℕ → F → ℤ → X → X
  attend : ℕ → X → List (X × X) → X
  add : X → X → X
  silu : X → X
  mulRows : X → X → X
  tensorGet : ℕ → X → List F

structure LlamaHparams (F : Type) where
  nVocab : ℕ
  nEmbd : ℕ
  nHead : ℕ
  nLayer : ℕ
  nRot : ℕ
  freqBase : F
  rmsNormEps : F

def LlamaHparams.headDim (hp : LlamaHparams F) : ℕ := hp.nEmbd / hp.nHead

/-! ## Weights -/

/-- The tensors of a model file, by name. -/
structure MappedModel (W : Type) where
  tensor : String → Option W

namespace MappedModel

variable (model : MappedModel W)

def layerTensor (layer : ℕ) (suffix : String) : Option W := model.tensor s!"blk.{layer}.{suffix}"

/-- A tensor, or the message that it is missing. -/
def require (name : String) : Outcome String W :=
  match model.tensor name with
  | some w => .ok w
  | none => .err s!"{name} not found"

def requireLayer (layer : ℕ) (name : String) : Outcome String W :=
  match model.layerTensor layer name with
  | some w => .ok w
  | none => .err s!"blk.{layer}.{name} not found"

end MappedModel

structure LayerWeights (W : Type) where
  attnNorm : W
  attnQ : W
  attnK : W
  attnV : W
  attnOutput : W
  ffnNorm : W
  ffnGate : W
  ffnUp : W
  ffnDown : W

structure Weights (W : Type) where
  tokenEmbd : W
  layers : List (LayerWeights W)
  outputNorm : W
  output : W

/-- The weights of one layer, looked up in the order of the graph. -/
def MappedModel.layerWeights (model : MappedModel W) (layer : ℕ) :
    Outcome String (LayerWeights W) := do
  let attnNorm ← model.requireLayer layer "attn_norm.weight"
  let attnQ ← model.requireLayer layer "attn_q.weight"
  let attnK ← model.requireLayer layer "attn_k.weight"
  let attnV ← model.requireLayer layer "attn_v.weight"
  let attnOutput ← model.requireLayer layer "attn_output.weight"
  let ffnNorm ← model.requireLayer layer "ffn_norm.weight"
  let ffnGate ← model.requireLayer layer "ffn_gate.weight"
  let ffnUp ← model.requireLayer layer "ffn_up.weight"
  let ffnDown ← model.requireLayer layer "ffn_down.weight"
  return { attnNorm, attnQ, attnK, attnV, attnOutput, ffnNorm, ffnGate, ffnUp, ffnDown }

/-- The weights of `count` layers from `layer` on. -/
def MappedModel.layersFrom (model : MappedModel W) : ℕ → ℕ → Outcome String (List (LayerWeights W))
  | 0, _ => .ok []
  | count + 1, layer => do
    let w ← model.layerWeights layer
    let ws ← layersFrom model count (layer + 1)
    return w :: ws

/-- All the weights, as a graph with `nLayer` layers looks them up. -/
def MappedModel.weights (model : MappedModel W) (nLayer : ℕ) : Outcome String (Weights W) := do
  let tokenEmbd ← model.require "token_embd.weight"
  let layers ← model.layersFrom nLayer 0
  let outputNorm ← model.require "output_norm.weight"
  let output ← model.require "output.weight"
  return { tokenEmbd, layers, outputNorm, output }

theorem MappedModel.length_layersFrom {model : MappedModel W} {count layer : ℕ}
    {ws : List (LayerWeights W)} (h : model.layersFrom count layer = .ok ws) :
    ws.length = count := by
  induction count generalizing layer ws with
  | zero =>
    cases h
    rfl
  | succ count ih =>
    obtain ⟨w, -, h⟩ := Outcome.bind_eq_ok.mp h
    obtain ⟨ws', hws', h⟩ := Outcome.bind_eq_ok.mp h
    cases h
    rw [List.length_cons, ih hws']

/-- The weights of a model are the ones that are looked up. -/
theorem MappedModel.weights_eq_ok {model : MappedModel W} {nLayer : ℕ} {w : Weights W} :
    model.weights nLayer = .ok w ↔
      model.require "token_embd.weight" = .ok w.tokenEmbd ∧
        model.layersFrom nLayer 0 = .ok w.layers ∧
        model.require "output_norm.weight" = .ok w.outputNorm ∧
        model.require "output.weight" = .ok w.output := by
  constructor
  · intro h
    obtain ⟨embd, hembd, h⟩ := Outcome.bind_eq_ok.mp h
    obtain ⟨layers, hlayers, h⟩ := Outcome.bind_eq_ok.mp h
    obtain ⟨norm, hnorm, h⟩ := Outcome.bind_eq_ok.mp h
    obtain ⟨output, houtput, h⟩ := Outcome.bind_eq_ok.mp h
    cases h
    exact ⟨hembd, hlayers, hnorm, houtput⟩
  · rintro ⟨hembd, hlayers, hnorm, houtput⟩
    simp [MappedModel.weights, hembd, hlayers, hnorm, houtput]

theorem MappedModel.length_layers {model : MappedModel W} {nLayer : ℕ} {w : Weights W}
    (h : model.weights nLayer = .ok w) : w.layers.length = nLayer := by
  obtain ⟨-, hlayers, -, -⟩ := MappedModel.weights_eq_ok.mp h
  exact MappedModel.length_layersFrom hlayers

/-- A model file in which every name is a tensor, always the same one. -/
def MappedModel.const (w : W) : MappedModel W := ⟨fun _ => some w⟩

def LayerWeights.const (w : W) : LayerWeights W := ⟨w, w, w, w, w, w, w, w, w⟩

def Weights.const (w : W) (nLayer : ℕ) : Weights W := ⟨w, List.replicate nLayer (.const w), w, w⟩

theorem MappedModel.layersFrom_const (w : W) (count layer : ℕ) :
    (MappedModel.const w).layersFrom count layer = .ok (List.replicate count (.const w)) := by
  induction count generalizing layer with
  | zero => rfl
  | succ count ih =>
    have hlayer : (MappedModel.const w).layerWeights layer = .ok (.const w) := rfl
    rw [MappedModel.layersFrom, hlayer, Outcome.ok_bind, ih]
    rfl

theorem MappedModel.weights_const (w : W) (nLayer : ℕ) :
    (MappedModel.const w).weights nLayer = .ok (.const w nLayer) := by
  have hrequire : ∀ name, (MappedModel.const w).require name = .ok w := fun _ => rfl
  simp [MappedModel.weights, hrequire, MappedModel.layersFrom_const, Weights.const]

/-! ## One row through one layer -/

section Row

variable (G : Ggml X W F) (hp : LlamaHparams F) (w : LayerWeights W)

def normed (x : X) : X := G.mul (G.rmsNorm hp.rmsNormEps x) w.attnNorm

def queryRow (pos : ℤ) (x : X) : X :=
  G.ropeExt hp.nRot hp.freqBase pos (G.mulMat w.attnQ (normed G hp w x))

/-- The K and V rows of a token. Only K is rotated. -/
def keyValueRow (pos : ℤ) (x : X) : X × X :=
  (G.ropeExt hp.nRot hp.freqBase pos (G.mulMat w.attnK (normed G hp w x)),
    G.mulMat w.attnV (normed G hp w x))

/-- Attention over the given rows, then the feed-forward part. -/
def layerOut (pos : ℤ) (rows : List (X × X)) (x : X) : X :=
  let cur := G.add x (G.mulMat w.attnOutput (G.attend hp.headDim (queryRow G hp w pos x) rows))
  let ffnIn := G.mul (G.rmsNorm hp.rmsNormEps cur) w.ffnNorm
  let gate := G.silu (G.mulMat w.ffnGate ffnIn)
  let up := G.mulMat w.ffnUp ffnIn
  G.add cur (G.mulMat w.ffnDown (G.mulRows gate up))

/-- Final norm and projection to the vocabulary. -/
def logitsOf (w : Weights W) (x : X) : List F :=
  G.tensorGet hp.nVocab (G.mulMat w.output (G.mul (G.rmsNorm hp.rmsNormEps x) w.outputNorm))

end Row

/-! ## The two graphs -/

/-- The rows a query attends to, of `len` rows read: all of them without a mask, and those that
are not masked out with one. -/
def attendedRows (mask : Option (List ℤ)) (len : ℕ) : List ℕ :=
  match mask with
  | none => List.range len
  | some m => (List.range len).filter fun r => m.getD r 0 ≠ -10000

/-- The K/V rows of every layer. -/
abbrev KVRows (X : Type) : Type := ℕ → ℕ → X × X

/-- Copy rows into the cache of one layer, from row `head` on. -/
def writeRows (rows : KVRows X) (layer head : ℕ) (new : List (X × X)) : KVRows X :=
  Function.update rows layer fun r =>
    if head ≤ r then (new[r - head]?).getD (rows layer r) else rows layer r

section Graphs

variable (G : Ggml X W F) (hp : LlamaHparams F)

/-- The batched graph from `layer` on, for rows at positions from `pos` and cache rows from
`head`: the K/V rows after it and the last activations. -/
def forwardLayers (head : ℕ) (pos : ℤ) :
    ℕ → List (LayerWeights W) → KVRows X → List X → KVRows X × List X
  | _, [], rows, cur => (rows, cur)
  | layer, w :: ws, rows, cur =>
    let rows := writeRows rows layer head (cur.mapIdx fun i x => keyValueRow G hp w (pos + i) x)
    let read := (attendedRows none (head + cur.length)).map (rows layer)
    let cur := cur.mapIdx fun i x => layerOut G hp w (pos + i) read x
    forwardLayers head pos (layer + 1) ws rows cur

/-- The single-token graph from `layer` on: the K/V rows it hands out, one for each layer, and
the last activation. -/
def decodeLayers (nCtx : ℕ) (mask : List ℤ) (pos : ℤ) :
    ℕ → List (LayerWeights W) → KVRows X → X → List (X × X) × X
  | _, [], _, cur => ([], cur)
  | layer, w :: ws, rows, cur =>
    let full := (attendedRows (some mask) nCtx).map (rows layer)
    let (out, last) := decodeLayers nCtx mask pos (layer + 1) ws rows (layerOut G hp w pos full cur)
    (keyValueRow G hp w pos cur :: out, last)

end Graphs

/-! ## Rows that a graph reads and writes -/

theorem writeRows_of_ne (rows : KVRows X) {layer l : ℕ} (h : l ≠ layer) (head : ℕ)
    (new : List (X × X)) : writeRows rows layer head new l = rows l :=
  Function.update_of_ne h _ rows

theorem writeRows_add (rows : KVRows X) (layer head : ℕ) {new : List (X × X)} {i : ℕ}
    (h : i < new.length) : writeRows rows layer head new layer (head + i) = new[i] := by
  rw [writeRows, Function.update_self, if_pos (Nat.le_add_right head i), Nat.add_sub_cancel_left,
    List.getElem?_eq_getElem h, Option.getD_some]

theorem writeRows_of_lt (rows : KVRows X) (layer head : ℕ) (new : List (X × X)) {r : ℕ}
    (h : r < head) : writeRows rows layer head new layer r = rows layer r := by
  rw [writeRows, Function.update_self, if_neg (Nat.not_le.mpr h)]

/-- After a write, the cache up to the last row written is the old rows, then the new ones. -/
theorem map_range_writeRows (rows : KVRows X) (layer head : ℕ) (new : List (X × X)) :
    (List.range (head + new.length)).map (writeRows rows layer head new layer) =
      (List.range head).map (rows layer) ++ new := by
  rw [List.range_add, List.map_append, List.map_map]
  congr 1
  · exact List.map_congr_left fun r hr =>
      writeRows_of_lt rows layer head new (List.mem_range.mp hr)
  · refine List.ext_getElem (by simp) fun i h₁ h₂ => ?_
    rw [List.getElem_map, List.getElem_range]
    exact writeRows_add rows layer head h₂

/-- The same for rows computed one by one. -/
theorem map_range_writeRows_mapIdx (rows : KVRows X) (layer head : ℕ) (cur : List X)
    (f : ℕ → X → X × X) :
    (List.range (head + cur.length)).map (writeRows rows layer head (cur.mapIdx f) layer) =
      (List.range head).map (rows layer) ++ cur.mapIdx f := by
  have h := map_range_writeRows rows layer head (cur.mapIdx f)
  rwa [List.length_mapIdx] at h

@[simp] theorem attendedRows_none (len : ℕ) : attendedRows none len = List.range len := rfl

section Graphs

variable {G : Ggml X W F} {hp : LlamaHparams F}

/-- A layer of the batched graph attends to the cached rows and to all rows of the batch. -/
theorem forwardLayers_cons (head : ℕ) (pos : ℤ) (layer : ℕ) (w : LayerWeights W)
    (ws : List (LayerWeights W)) (rows : KVRows X) (cur : List X) :
    forwardLayers G hp head pos layer (w :: ws) rows cur =
      forwardLayers G hp head pos (layer + 1) ws
        (writeRows rows layer head (cur.mapIdx fun i x => keyValueRow G hp w (pos + i) x))
        (cur.mapIdx fun i x => layerOut G hp w (pos + i) ((List.range head).map (rows layer) ++
          cur.mapIdx fun i x => keyValueRow G hp w (pos + i) x) x) := by
  rw [forwardLayers, attendedRows_none, map_range_writeRows_mapIdx]

theorem length_forwardLayers (head : ℕ) (pos : ℤ) (layer : ℕ) (ws : List (LayerWeights W))
    (rows : KVRows X) (cur : List X) :
    (forwardLayers G hp head pos layer ws rows cur).2.length = cur.length := by
  induction ws generalizing layer rows cur with
  | nil => rfl
  | cons w ws ih =>
    rw [forwardLayers, ih, List.length_mapIdx]

/-- The graph from `layer` on leaves the rows of the layers before. -/
theorem forwardLayers_of_lt (head : ℕ) (pos : ℤ) {layer l : ℕ} (h : l < layer)
    (ws : List (LayerWeights W)) (rows : KVRows X) (cur : List X) :
    (forwardLayers G hp head pos layer ws rows cur).1 l = rows l := by
  induction ws generalizing layer rows cur with
  | nil => rfl
  | cons w ws ih =>
    rw [forwardLayers, ih (Nat.lt_succ_of_lt h), writeRows_of_ne rows (Nat.ne_of_lt h)]

/-- The first layer of the graph writes the rows of its input. -/
theorem forwardLayers_self (head : ℕ) (pos : ℤ) (layer : ℕ) (w : LayerWeights W)
    (ws : List (LayerWeights W)) (rows : KVRows X) (cur : List X) :
    (forwardLayers G hp head pos layer (w :: ws) rows cur).1 layer =
      writeRows rows layer head (cur.mapIdx fun i x => keyValueRow G hp w (pos + i) x) layer := by
  rw [forwardLayers, forwardLayers_of_lt head pos (Nat.lt_succ_self layer)]

end Graphs

end QuantumFlow
