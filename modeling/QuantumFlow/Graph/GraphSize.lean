import QuantumFlow.Graph.AppendOnly

/-!
# Looking up the tensors of a graph

Both graphs look up their tensors by name while they are built, and the first that is missing ends
that. Every operation asserts that the shapes of its operands go together, and aborts where they do
not. The graphs are created with room for a number of nodes; adding a node behind the last one
aborts as well. Adding a tensor adds what leads to it, so the nodes of a layer come in two parts, up
to its K and V and behind them. There are fewer leaves than nodes, and as much room for them.
-/

namespace QuantumFlow

variable {X W F : Type}

/-! ## The required tensors -/

def layerTensorNames (layer : ℕ) : List String :=
  ["attn_norm.weight", "attn_q.weight", "attn_k.weight", "attn_v.weight", "attn_output.weight",
    "ffn_norm.weight", "ffn_gate.weight", "ffn_up.weight", "ffn_down.weight"].map
    fun name => s!"blk.{layer}.{name}"

/-- Those that are looked up after the token embedding. -/
def laterTensorNames (nLayer : ℕ) : List String :=
  (List.range nLayer).flatMap layerTensorNames ++ ["output_norm.weight", "output.weight"]

namespace MappedModel

variable (model : MappedModel W)

def Has (name : String) : Prop := model.tensor name ≠ none

/-- The look-ups after the token embedding, in order. -/
def laterWeights (nLayer : ℕ) : Outcome String (List (LayerWeights W) × W × W) := do
  let layers ← model.layersFrom nLayer 0
  let outputNorm ← model.require "output_norm.weight"
  let output ← model.require "output.weight"
  return (layers, outputNorm, output)

theorem exists_require_iff (name : String) :
    (∃ w, model.require name = .ok w) ↔ model.Has name := by
  unfold require Has
  cases model.tensor name <;> simp

theorem exists_layerWeights_iff (layer : ℕ) :
    (∃ w, model.layerWeights layer = .ok w) ↔ ∀ name ∈ layerTensorNames layer, model.Has name := by
  have hname : ∀ name, (∃ w, model.requireLayer layer name = .ok w) ↔
      model.Has s!"blk.{layer}.{name}" := by
    intro name
    unfold requireLayer layerTensor Has
    cases model.tensor s!"blk.{layer}.{name}" <;> simp
  rw [layerWeights, Outcome.exists_bind_ok_iff fun _ => Outcome.exists_bind_ok_iff fun _ =>
    Outcome.exists_bind_ok_iff fun _ => Outcome.exists_bind_ok_iff fun _ =>
    Outcome.exists_bind_ok_iff fun _ => Outcome.exists_bind_ok_iff fun _ =>
    Outcome.exists_bind_ok_iff fun _ => Outcome.exists_bind_ok_iff fun _ =>
    Outcome.exists_bind_ok_iff fun _ => Outcome.exists_pure_iff _]
  simp only [hname, layerTensorNames, List.map_cons, List.map_nil, List.forall_mem_cons,
    List.not_mem_nil, false_imp_iff, implies_true]

theorem exists_layersFrom_iff (count layer : ℕ) :
    (∃ ws, model.layersFrom count layer = .ok ws) ↔
      ∀ name ∈ (List.range' layer count).flatMap layerTensorNames, model.Has name := by
  induction count generalizing layer with
  | zero => simp [layersFrom]
  | succ count ih =>
    rw [layersFrom, Outcome.exists_bind_ok_iff fun _ => Outcome.exists_bind_ok_iff fun _ =>
      Outcome.exists_pure_iff _, exists_layerWeights_iff, ih, and_true, List.range'_succ,
      List.flatMap_cons, List.forall_mem_append]

theorem exists_laterWeights_iff (nLayer : ℕ) :
    (∃ w, model.laterWeights nLayer = .ok w) ↔
      ∀ name ∈ laterTensorNames nLayer, model.Has name := by
  rw [laterWeights, Outcome.exists_bind_ok_iff fun _ => Outcome.exists_bind_ok_iff fun _ =>
    Outcome.exists_bind_ok_iff fun _ => Outcome.exists_pure_iff _, exists_layersFrom_iff,
    exists_require_iff, exists_require_iff, and_true, laterTensorNames, List.forall_mem_append,
    List.range_eq_range']
  simp

theorem bind_laterWeights {β : Type} (nLayer : ℕ)
    (f : List (LayerWeights W) × W × W → Outcome String β) :
    (do
      let layers ← model.layersFrom nLayer 0
      let outputNorm ← model.require "output_norm.weight"
      let output ← model.require "output.weight"
      f (layers, outputNorm, output)) = model.laterWeights nLayer >>= f := by
  unfold laterWeights
  cases model.layersFrom nLayer 0 with
  | ok layers =>
    cases model.require "output_norm.weight" with
    | ok outputNorm => cases model.require "output.weight" <;> rfl
    | err e => rfl
    | panic => rfl
  | err e => rfl
  | panic => rfl

theorem laterWeights_ne_panic (nLayer : ℕ) : model.laterWeights nLayer ≠ .panic := by
  simp [laterWeights, Outcome.bind_eq_panic, require_ne_panic, layersFrom_ne_panic]

/-- A look-up returns a tensor that is there, or reports one that is missing. -/
theorem require_cases (name : String) :
    (∃ w, model.require name = .ok w ∧ model.Has name) ∨
      ∃ e, model.require name = .err e ∧ ¬ model.Has name := by
  unfold require Has
  cases model.tensor name <;> simp

/-- So do the later look-ups together. -/
theorem laterWeights_cases (nLayer : ℕ) :
    (∃ w, model.laterWeights nLayer = .ok w ∧
        ∀ name ∈ laterTensorNames nLayer, model.Has name) ∨
      ∃ e, model.laterWeights nLayer = .err e ∧
        ∃ name ∈ laterTensorNames nLayer, ¬ model.Has name := by
  have hiff := model.exists_laterWeights_iff nLayer
  cases h : model.laterWeights nLayer with
  | ok w => exact Or.inl ⟨w, rfl, hiff.mp ⟨w, h⟩⟩
  | err e =>
    refine Or.inr ⟨e, rfl, ?_⟩
    by_contra! hall
    obtain ⟨w, hw⟩ := hiff.mpr hall
    rw [h] at hw
    cases hw
  | panic => exact absurd h (model.laterWeights_ne_panic nLayer)

end MappedModel

/-! ## The size of a graph -/

/-- The operations whose results are nodes. -/
inductive GgmlOp where
  | getRows | rmsNorm | mul | mulMat | reshape | ropeExt | cont | view | cpy | permute | scale
  | softMaxExt | add | silu

/-- The room of a graph, and its nodes: the embedding, in each layer those up to the K and V of the
tokens and those behind them, and those behind the layers. -/
structure GraphNodes where
  size : ℕ
  embd : List GgmlOp
  kv : List GgmlOp
  rest : List GgmlOp
  logits : List GgmlOp

/-- The query, the K and V that are attended to, the attention and the feed-forward part. -/
def attendNodes : List GgmlOp :=
  [.mulMat, .reshape, .ropeExt, .permute,
    .view, .cont, .reshape, .permute, .cont, .view, .cont, .reshape, .permute, .cont,
    .mulMat, .scale, .softMaxExt, .mulMat, .permute, .cont, .reshape, .mulMat, .add,
    .rmsNorm, .mul, .mulMat, .silu, .mulMat, .mul, .mulMat, .add]

/-- A batch copies its K and V to views of the cache. -/
def forwardNodes : GraphNodes where
  size := 8192
  embd := [.getRows]
  kv := [.rmsNorm, .mul, .mulMat, .reshape, .ropeExt, .cont, .reshape, .view, .cpy,
    .mulMat, .reshape, .cont, .reshape, .view, .cpy]
  rest := attendNodes
  logits := [.rmsNorm, .mul, .view, .mulMat]

/-- A single token hands its K and V out. -/
def decodeNodes : GraphNodes where
  size := 16384
  embd := [.getRows]
  kv := [.rmsNorm, .mul, .mulMat, .reshape, .ropeExt, .cont, .reshape,
    .mulMat, .reshape, .cont, .reshape]
  rest := attendNodes
  logits := [.rmsNorm, .mul, .mulMat]

namespace GraphNodes

variable (n : GraphNodes)

/-- The nodes in front of a layer. -/
def before (layer : ℕ) : ℕ := n.embd.length + layer * (n.kv.length + n.rest.length)

/-- The nodes up to the K and V of a layer. -/
def upToKv (layer : ℕ) : ℕ := n.before layer + n.kv.length

def total (nLayer : ℕ) : ℕ := n.before nLayer + n.logits.length

/-- Adding nodes, up to a number of them, asserts that there is room for each. -/
def buildForwardExpand (count : ℕ) : Outcome String Unit :=
  if count ≤ n.size then .ok () else .panic

variable {n}

theorem buildForwardExpand_of_le {count : ℕ} (h : count ≤ n.size) :
    n.buildForwardExpand count = .ok () := if_pos h

theorem buildForwardExpand_of_lt {count : ℕ} (h : n.size < count) :
    n.buildForwardExpand count = .panic := if_neg (Nat.not_le.mpr h)

theorem before_succ (layer : ℕ) :
    n.before (layer + 1) = n.upToKv layer + n.rest.length := by
  rw [before, upToKv, before, Nat.succ_mul]
  omega

theorem total_forwardNodes_le_iff (nLayer : ℕ) :
    forwardNodes.total nLayer ≤ forwardNodes.size ↔ nLayer ≤ 177 := by
  have htotal : forwardNodes.total nLayer = 1 + nLayer * 46 + 4 := rfl
  have hsize : forwardNodes.size = 8192 := rfl
  omega

theorem total_decodeNodes_le_iff (nLayer : ℕ) :
    decodeNodes.total nLayer ≤ decodeNodes.size ↔ nLayer ≤ 390 := by
  have htotal : decodeNodes.total nLayer = 1 + nLayer * 42 + 3 := rfl
  have hsize : decodeNodes.size = 16384 := rfl
  omega

end GraphNodes

/-! ## Building a graph -/

/-- Which of the library's assertions hold for a request: those of the operations behind the look-up
of a tensor, up to the next look-up, those of the computation, and those of reading the logits. -/
structure GgmlAsserts where
  operands : String → Bool
  computation : Bool
  logits : Bool

def GgmlAsserts.hold : GgmlAsserts := ⟨fun _ => true, true, true⟩

namespace MappedModel

variable (model : MappedModel W) (n : GraphNodes) (asserts : GgmlAsserts)

/-- A look-up and the operations behind it. -/
def requireIn (name : String) : Outcome String W := do
  let w ← model.require name
  if asserts.operands name then return w else .panic

def requireLayerIn (layer : ℕ) (name : String) : Outcome String W := do
  let w ← model.requireLayer layer name
  if asserts.operands s!"blk.{layer}.{name}" then return w else .panic

/-- The look-ups of a layer, with its K and V added to the graph in between. -/
def layerWeightsIn (layer : ℕ) : Outcome String (LayerWeights W) := do
  let attnNorm ← model.requireLayerIn asserts layer "attn_norm.weight"
  let attnQ ← model.requireLayerIn asserts layer "attn_q.weight"
  let attnK ← model.requireLayerIn asserts layer "attn_k.weight"
  let attnV ← model.requireLayerIn asserts layer "attn_v.weight"
  n.buildForwardExpand (n.upToKv layer)
  let attnOutput ← model.requireLayerIn asserts layer "attn_output.weight"
  let ffnNorm ← model.requireLayerIn asserts layer "ffn_norm.weight"
  let ffnGate ← model.requireLayerIn asserts layer "ffn_gate.weight"
  let ffnUp ← model.requireLayerIn asserts layer "ffn_up.weight"
  let ffnDown ← model.requireLayerIn asserts layer "ffn_down.weight"
  return { attnNorm, attnQ, attnK, attnV, attnOutput, ffnNorm, ffnGate, ffnUp, ffnDown }

def layersIn : ℕ → ℕ → Outcome String (List (LayerWeights W))
  | 0, _ => .ok []
  | count + 1, layer => do
    let w ← model.layerWeightsIn n asserts layer
    let ws ← layersIn count (layer + 1)
    return w :: ws

/-- The look-ups after the token embedding, with the logits added to the graph at the end. -/
def laterWeightsIn (nLayer : ℕ) : Outcome String (List (LayerWeights W) × W × W) := do
  let layers ← model.layersIn n asserts nLayer 0
  let outputNorm ← model.requireIn asserts "output_norm.weight"
  let output ← model.requireIn asserts "output.weight"
  n.buildForwardExpand (n.total nLayer)
  return (layers, outputNorm, output)

variable {model n asserts}

/-! ### Where the assertions hold -/

theorem requireIn_of_operands {name : String} (h : asserts.operands name = true) :
    model.requireIn asserts name = model.require name := by
  unfold requireIn
  simp only [h, if_true]
  cases model.require name <;> rfl

theorem requireLayerIn_of_operands {layer : ℕ} {name : String}
    (h : asserts.operands s!"blk.{layer}.{name}" = true) :
    model.requireLayerIn asserts layer name = model.requireLayer layer name := by
  unfold requireLayerIn
  simp only [h, if_true]
  cases model.requireLayer layer name <;> rfl

theorem layerWeightsIn_of_le {layer : ℕ} (h : n.upToKv layer ≤ n.size)
    (hasserts : ∀ name ∈ layerTensorNames layer, asserts.operands name = true) :
    model.layerWeightsIn n asserts layer = model.layerWeights layer := by
  simp only [layerTensorNames, List.map_cons, List.map_nil, List.forall_mem_cons] at hasserts
  obtain ⟨hnorm, hq, hk, hv, hout, hffn, hgate, hup, hdown, -⟩ := hasserts
  unfold layerWeightsIn layerWeights
  rw [GraphNodes.buildForwardExpand_of_le h, requireLayerIn_of_operands hnorm,
    requireLayerIn_of_operands hq, requireLayerIn_of_operands hk, requireLayerIn_of_operands hv,
    requireLayerIn_of_operands hout, requireLayerIn_of_operands hffn,
    requireLayerIn_of_operands hgate, requireLayerIn_of_operands hup,
    requireLayerIn_of_operands hdown]
  rfl

theorem layersIn_of_le {count layer : ℕ} (h : n.before (layer + count) ≤ n.size)
    (hasserts : ∀ name ∈ (List.range' layer count).flatMap layerTensorNames,
      asserts.operands name = true) :
    model.layersIn n asserts count layer = model.layersFrom count layer := by
  induction count generalizing layer with
  | zero => rfl
  | succ count ih =>
    rw [Nat.add_comm count, ← Nat.add_assoc] at h
    rw [List.range'_succ, List.flatMap_cons, List.forall_mem_append] at hasserts
    have hlayer : n.upToKv layer ≤ n.size := by
      have hmono : n.before (layer + 1) ≤ n.before (layer + 1 + count) :=
        Nat.add_le_add_left (Nat.mul_le_mul_right _ (Nat.le_add_right _ _)) _
      have hsucc := n.before_succ layer
      omega
    rw [layersIn, layersFrom, layerWeightsIn_of_le hlayer hasserts.1, ih h hasserts.2]

/-- With enough room and operands that go together, the look-ups are what they are alone. -/
theorem laterWeightsIn_of_le {nLayer : ℕ} (h : n.total nLayer ≤ n.size)
    (hasserts : ∀ name ∈ laterTensorNames nLayer, asserts.operands name = true) :
    model.laterWeightsIn n asserts nLayer = model.laterWeights nLayer := by
  have hlayers : n.before (0 + nLayer) ≤ n.size := by
    rw [Nat.zero_add]
    exact (Nat.le_add_right _ _).trans h
  rw [laterTensorNames, List.forall_mem_append, List.range_eq_range'] at hasserts
  simp only [List.forall_mem_cons] at hasserts
  obtain ⟨hall, hnorm, houtput, -⟩ := hasserts
  unfold laterWeightsIn laterWeights
  rw [layersIn_of_le hlayers hall, requireIn_of_operands hnorm, requireIn_of_operands houtput,
    GraphNodes.buildForwardExpand_of_le h]
  rfl

/-! ### Where one does not -/

theorem operands_of_requireIn {name : String} {w : W}
    (h : model.requireIn asserts name = .ok w) : asserts.operands name = true := by
  obtain ⟨w', -, h⟩ := Outcome.bind_eq_ok.mp h
  by_contra hfails
  rw [if_neg hfails] at h
  cases h

theorem operands_of_requireLayerIn {layer : ℕ} {name : String} {w : W}
    (h : model.requireLayerIn asserts layer name = .ok w) :
    asserts.operands s!"blk.{layer}.{name}" = true := by
  obtain ⟨w', -, h⟩ := Outcome.bind_eq_ok.mp h
  by_contra hfails
  rw [if_neg hfails] at h
  cases h

theorem operands_of_layerWeightsIn {layer : ℕ} {w : LayerWeights W}
    (h : model.layerWeightsIn n asserts layer = .ok w) :
    ∀ name ∈ layerTensorNames layer, asserts.operands name = true := by
  obtain ⟨_, hnorm, h⟩ := Outcome.bind_eq_ok.mp h
  obtain ⟨_, hq, h⟩ := Outcome.bind_eq_ok.mp h
  obtain ⟨_, hk, h⟩ := Outcome.bind_eq_ok.mp h
  obtain ⟨_, hv, h⟩ := Outcome.bind_eq_ok.mp h
  obtain ⟨_, -, h⟩ := Outcome.bind_eq_ok.mp h
  obtain ⟨_, hout, h⟩ := Outcome.bind_eq_ok.mp h
  obtain ⟨_, hffn, h⟩ := Outcome.bind_eq_ok.mp h
  obtain ⟨_, hgate, h⟩ := Outcome.bind_eq_ok.mp h
  obtain ⟨_, hup, h⟩ := Outcome.bind_eq_ok.mp h
  obtain ⟨_, hdown, -⟩ := Outcome.bind_eq_ok.mp h
  simp only [layerTensorNames, List.map_cons, List.map_nil, List.forall_mem_cons,
    List.not_mem_nil, false_imp_iff, implies_true, and_true]
  exact ⟨operands_of_requireLayerIn hnorm, operands_of_requireLayerIn hq,
    operands_of_requireLayerIn hk, operands_of_requireLayerIn hv, operands_of_requireLayerIn hout,
    operands_of_requireLayerIn hffn, operands_of_requireLayerIn hgate,
    operands_of_requireLayerIn hup, operands_of_requireLayerIn hdown⟩

theorem operands_of_layersIn {count layer : ℕ} {ws : List (LayerWeights W)}
    (h : model.layersIn n asserts count layer = .ok ws) :
    ∀ name ∈ (List.range' layer count).flatMap layerTensorNames,
      asserts.operands name = true := by
  induction count generalizing layer ws with
  | zero => simp
  | succ count ih =>
    obtain ⟨w, hw, h⟩ := Outcome.bind_eq_ok.mp h
    obtain ⟨ws, hws, -⟩ := Outcome.bind_eq_ok.mp h
    rw [List.range'_succ, List.flatMap_cons, List.forall_mem_append]
    exact ⟨operands_of_layerWeightsIn hw, ih hws⟩

/-- A graph that is built had room for its nodes, and operands that go together. -/
theorem laterWeightsIn_eq_ok {nLayer : ℕ} {w : List (LayerWeights W) × W × W}
    (h : model.laterWeightsIn n asserts nLayer = .ok w) :
    n.total nLayer ≤ n.size ∧ ∀ name ∈ laterTensorNames nLayer, asserts.operands name = true := by
  obtain ⟨layers, hlayers, h⟩ := Outcome.bind_eq_ok.mp h
  obtain ⟨outputNorm, hnorm, h⟩ := Outcome.bind_eq_ok.mp h
  obtain ⟨output, houtput, h⟩ := Outcome.bind_eq_ok.mp h
  obtain ⟨_, hroom, -⟩ := Outcome.bind_eq_ok.mp h
  constructor
  · by_contra hlarge
    rw [GraphNodes.buildForwardExpand_of_lt (Nat.not_le.mp hlarge)] at hroom
    cases hroom
  · rw [laterTensorNames, List.forall_mem_append, List.range_eq_range']
    simp only [List.forall_mem_cons, List.not_mem_nil, false_imp_iff, implies_true, and_true]
    exact ⟨operands_of_layersIn hlayers, operands_of_requireIn hnorm,
      operands_of_requireIn houtput⟩

end MappedModel

end QuantumFlow
