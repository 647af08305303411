import QuantumFlow.Graph.Layers

/-!
# Prefill, decode and the KV cache

The requests of `LlamaGraph` as functions of its state. Each returns how it ended and the state
it leaves. Prefill rebuilds its graph on every call; decode builds its graph once and keeps the
weights it looked up then. `fed` is a ghost field: the token and the position each cache row
was computed from, which no function reads.
-/

namespace QuantumFlow

variable {X W F : Type}

structure KVCache (X : Type) where
  rows : KVRows X
  nCtx : ℕ
  head : ℕ
  fed : ℕ → Option (TokenId × ℤ)

def KVCache.new (G : Ggml X W F) (nCtx : ℕ) : KVCache X :=
  { rows := fun _ _ => (G.zero, G.zero), nCtx, head := 0, fed := fun _ => none }

def KVCache.clear (kv : KVCache X) : KVCache X := { kv with head := 0 }

/-- `dGraph` is the persistent decode graph, as the weights it was built with. -/
structure LlamaGraph (X W F : Type) where
  hp : LlamaHparams F
  kv : KVCache X
  dGraph : Option (Weights W)

/-- The only error that the two requests report. -/
inductive ForwardError where
  | allocationFailed (msg : String)

def ForwardError.message : ForwardError → String
  | allocationFailed msg => s!"allocation failed: {msg}"

/-- How the ggml calls of one request end, and what a failed batch leaves in the rows it was to
write. -/
structure GgmlCalls (X : Type) where
  inpBuf : Bool
  inpCtx : Bool
  graphCtx : Bool
  galloc : Bool
  allocGraph : Bool
  status : ℤ
  leftover : KVRows X

/-- Every call succeeds. -/
def GgmlCalls.succeed (G : Ggml X W F) : GgmlCalls X where
  inpBuf := true
  inpCtx := true
  graphCtx := true
  galloc := true
  allocGraph := true
  status := 0
  leftover := fun _ _ => (G.zero, G.zero)

def ensure (ok : Bool) (msg : String) : Outcome String Unit := if ok then .ok () else .err msg

namespace LlamaGraph

/-- The head size is a quotient by the number of heads. -/
def new (backend : Bool) (G : Ggml X W F) (hp : LlamaHparams F) :
    Outcome String (LlamaGraph X W F) :=
  if ¬ backend then .err "[Z.1 Graph] ggml_backend_cpu_init failed"
  else if hp.nHead = 0 then .panic
  else .ok { hp, kv := KVCache.new G 512, dGraph := none }

variable (G : Ggml X W F) (calls : GgmlCalls X) (model : MappedModel W)

/-! ## Prefill -/

/-- Everything before the batched graph is computed: its weights, or the first failure. -/
def forwardGraph (g : LlamaGraph X W F) (nTokens : ℕ) : Outcome String (Weights W) := do
  ensure calls.inpBuf "[Z.1 Graph] ggml_backend_alloc_buffer failed"
  ensure calls.inpCtx "[Z.1 Graph] inp_ctx alloc failed"
  ensure calls.graphCtx "[Z.1 Graph] graph ctx alloc failed"
  let tokenEmbd ← model.require "token_embd.weight"
  let kvLen := g.kv.head + nTokens
  ensure (kvLen ≤ g.kv.nCtx) s!"[Z.1 Graph] KV cache overflow: {kvLen} > {g.kv.nCtx}"
  let layers ← model.layersFrom g.hp.nLayer 0
  let outputNorm ← model.require "output_norm.weight"
  let output ← model.require "output.weight"
  ensure calls.galloc "[Z.1 Graph] gallocr_new failed"
  ensure calls.allocGraph "[Z.1 Graph] gallocr_alloc_graph failed"
  return { tokenEmbd, layers, outputNorm, output }

/-- The cache after a batch was computed. -/
def batchCache (w : Weights W) (kv : KVCache X) (hp : LlamaHparams F) (tokens : List TokenId)
    (pos : ℤ) : KVCache X × List X :=
  let (rows, cur) :=
    forwardLayers G hp kv.head pos 0 w.layers kv.rows (tokens.map (G.getRows w.tokenEmbd))
  ({ kv with
      rows
      head := min (kv.head + tokens.length) kv.nCtx
      fed := fun r =>
        if kv.head ≤ r ∧ r < kv.head + tokens.length then
          (tokens[r - kv.head]?).map fun tok => (tok, pos + ((r - kv.head : ℕ) : ℤ))
        else kv.fed r }, cur)

/-- A failed batch may have written any of its rows. -/
def failedCache (kv : KVCache X) (nTokens : ℕ) : KVCache X :=
  { kv with
    rows := fun layer r =>
      if kv.head ≤ r ∧ r < kv.head + nTokens then calls.leftover layer r else kv.rows layer r
    fed := fun r => if kv.head ≤ r ∧ r < kv.head + nTokens then none else kv.fed r }

/-- Without tokens there is no last row to take the logits from. -/
def forward (tokens : List TokenId) (pos : ℤ) (g : LlamaGraph X W F) :
    Outcome String (List F) × LlamaGraph X W F :=
  match forwardGraph calls model g tokens.length with
  | .err e => (.err e, g)
  | .panic => (.panic, g)
  | .ok w =>
    if calls.status ≠ 0 then
      (.err s!"[Z.1 Graph] compute failed status={calls.status}",
        { g with kv := failedCache calls g.kv tokens.length })
    else
      let (kv, cur) := batchCache G w g.kv g.hp tokens pos
      match cur.getLast? with
      | none => (.panic, g)
      | some last => (.ok (logitsOf G g.hp w last), { g with kv })

def mapErr : Outcome String (List F) → Outcome ForwardError (List F)
  | .ok logits => .ok logits
  | .err e => .err (.allocationFailed e)
  | .panic => .panic

/-- The positions of a batch always begin at 0. -/
def prefill (tokenIds : List TokenId) (g : LlamaGraph X W F) :
    Outcome ForwardError (List F) × LlamaGraph X W F :=
  if tokenIds = [] then (.err (.allocationFailed "empty token sequence"), g)
  else
    let (res, g) := forward G calls model tokenIds 0 g
    (mapErr res, g)

/-! ## Decode -/

def buildDecodeGraph (g : LlamaGraph X W F) : Outcome String (Weights W) := do
  ensure calls.inpBuf "[Z.1 Decode] input buffer alloc failed"
  ensure calls.inpCtx "[Z.1 Decode] inp_ctx alloc failed"
  ensure calls.graphCtx "[Z.1 Decode] graph ctx alloc failed"
  let tokenEmbd ← model.require "token_embd.weight"
  let layers ← model.layersFrom g.hp.nLayer 0
  let outputNorm ← model.require "output_norm.weight"
  let output ← model.require "output.weight"
  ensure calls.galloc "[Z.1 Decode] gallocr_new failed"
  ensure calls.allocGraph "[Z.1 Decode] gallocr_alloc_graph failed"
  return { tokenEmbd, layers, outputNorm, output }

/-- The first `kvHead` positions are valid. -/
def decodeMask (nCtx kvHead : ℕ) : List ℤ :=
  (List.range nCtx).map fun i => if i < kvHead then 0 else -10000

/-- The cache after the rows of one token were written back, and its last activation. -/
def tokenCache (w : Weights W) (kv : KVCache X) (hp : LlamaHparams F) (token : TokenId) :
    KVCache X × X :=
  let pos : ℤ := kv.head
  let (out, last) := decodeLayers G hp kv.nCtx (decodeMask kv.nCtx kv.head) pos 0 w.layers kv.rows
    (G.getRows w.tokenEmbd token)
  ({ kv with
      rows := fun layer r =>
        if r = kv.head then (out[layer]?).getD (kv.rows layer r) else kv.rows layer r
      head := min (kv.head + 1) kv.nCtx
      fed := Function.update kv.fed kv.head (some (token, pos)) }, last)

def executeDecode (token : TokenId) (g : LlamaGraph X W F) :
    Outcome String (List F) × LlamaGraph X W F :=
  let built : Outcome String (Weights W) :=
    match g.dGraph with
    | some w => .ok w
    | none => buildDecodeGraph calls model g
  match built with
  | .err e => (.err e, g)
  | .panic => (.panic, g)
  | .ok w =>
    let g := { g with dGraph := some w }
    if g.kv.nCtx ≤ g.kv.head then
      (.err s!"[Z.1 Decode] KV cache full ({g.kv.head}/{g.kv.nCtx})", g)
    else if calls.status ≠ 0 then
      (.err s!"[Z.1 Decode] compute failed status={calls.status}", g)
    else
      let (kv, last) := tokenCache G w g.kv g.hp token
      (.ok (logitsOf G g.hp w last), { g with kv })

def decodeOne (token : TokenId) (g : LlamaGraph X W F) :
    Outcome ForwardError (List F) × LlamaGraph X W F :=
  let (res, g) := executeDecode G calls model token g
  (mapErr res, g)

def resetKv (g : LlamaGraph X W F) : LlamaGraph X W F := { g with kv := g.kv.clear }

/-! ## What a request does to the cache -/

variable {G calls model}

theorem head_of_new {backend : Bool} {hp : LlamaHparams F} {g : LlamaGraph X W F}
    (h : new backend G hp = .ok g) : g.kv.head = 0 := by
  unfold new at h
  split at h
  · cases h
  · split at h <;> cases h
    rfl

/-- The batched graph hands out one row for each token. -/
theorem length_batchCache (w : Weights W) (kv : KVCache X) (hp : LlamaHparams F)
    (tokens : List TokenId) (pos : ℤ) :
    (batchCache G w kv hp tokens pos).2.length = tokens.length := by
  rw [batchCache, length_forwardLayers, List.length_map]

theorem mapErr_eq_ok {res : Outcome String (List F)} {logits : List F}
    (h : mapErr res = .ok logits) : res = .ok logits := by
  cases res <;> cases h
  rfl

theorem mapErr_eq_err {res : Outcome String (List F)} {e : ForwardError}
    (h : mapErr res = .err e) : ∃ msg, res = .err msg := by
  cases res <;> cases h
  exact ⟨_, rfl⟩

/-- A batch is computed only when it fits, and with the weights of the model. -/
theorem forwardGraph_eq_ok {g : LlamaGraph X W F} {nTokens : ℕ} {w : Weights W}
    (h : forwardGraph calls model g nTokens = .ok w) :
    g.kv.head + nTokens ≤ g.kv.nCtx ∧ model.weights g.hp.nLayer = .ok w := by
  simp only [forwardGraph, Outcome.bind_eq_ok] at h
  obtain ⟨_, _, _, _, _, _, embd, hembd, _, hfits, layers, hlayers, norm, hnorm, out, hout, _, _, _,
    _, hw⟩ := h
  constructor
  · by_contra hlt
    simp [ensure, hlt] at hfits
  · cases hw
    exact MappedModel.weights_eq_ok.mpr ⟨hembd, hlayers, hnorm, hout⟩

/-- A batch that returns logits leaves the cache of the batch. -/
theorem forward_eq_ok {tokens : List TokenId} {pos : ℤ} {g g' : LlamaGraph X W F}
    {logits : List F} (h : forward G calls model tokens pos g = (.ok logits, g')) :
    ∃ w, model.weights g.hp.nLayer = .ok w ∧ g.kv.head + tokens.length ≤ g.kv.nCtx ∧
      (batchCache G w g.kv g.hp tokens pos).2.getLast?.map (logitsOf G g.hp w) = some logits ∧
      g' = { g with kv := (batchCache G w g.kv g.hp tokens pos).1 } := by
  unfold forward at h
  split at h
  · cases h
  · cases h
  · rename_i w hw
    split at h
    · cases h
    · dsimp only at h
      split at h
      · cases h
      · rename_i last hlast
        cases h
        obtain ⟨hfits, hweights⟩ := forwardGraph_eq_ok hw
        exact ⟨w, hweights, hfits, by rw [hlast]; rfl, rfl⟩

theorem forward_eq_err {tokens : List TokenId} {pos : ℤ} {g g' : LlamaGraph X W F} {msg : String}
    (h : forward G calls model tokens pos g = (.err msg, g')) :
    g' = g ∨ g' = { g with kv := failedCache calls g.kv tokens.length } := by
  unfold forward at h
  split at h
  · cases h
    exact Or.inl rfl
  · cases h
  · split at h
    · cases h
      exact Or.inr rfl
    · dsimp only at h
      split at h <;> cases h

theorem prefill_cases {tokens : List TokenId} {g g' : LlamaGraph X W F}
    {res : Outcome ForwardError (List F)} (h : prefill G calls model tokens g = (res, g')) :
    (tokens = [] ∧ g' = g ∧ res = .err (.allocationFailed "empty token sequence")) ∨
      (tokens ≠ [] ∧
        ∃ res', forward G calls model tokens 0 g = (res', g') ∧ res = mapErr res') := by
  unfold prefill at h
  split at h
  · rename_i hnil
    cases h
    exact Or.inl ⟨hnil, rfl, rfl⟩
  · rename_i hne
    cases h
    exact Or.inr ⟨hne, _, rfl, rfl⟩

/-- A prefill returns the logits of the last row of its batch. -/
theorem prefill_returns {tokens : List TokenId} {logits : List F} {g g' : LlamaGraph X W F}
    (h : prefill G calls model tokens g = (.ok logits, g')) :
    ∃ w, model.weights g.hp.nLayer = .ok w ∧
      (batchCache G w g.kv g.hp tokens 0).2.getLast?.map (logitsOf G g.hp w) = some logits ∧
      g' = { g with kv := (batchCache G w g.kv g.hp tokens 0).1 } := by
  rcases prefill_cases h with ⟨-, -, hres⟩ | ⟨-, res, hforward, hres⟩
  · cases hres
  · obtain rfl := mapErr_eq_ok hres.symm
    obtain ⟨w, hw, -, hlogits, hg'⟩ := forward_eq_ok hforward
    exact ⟨w, hw, hlogits, hg'⟩

/-- The effect of a successful prefill on the bookkeeping of the cache. -/
theorem prefill_eq_ok {tokens : List TokenId} {g g' : LlamaGraph X W F} {logits : List F}
    (h : prefill G calls model tokens g = (.ok logits, g')) :
    tokens ≠ [] ∧ g.kv.head + tokens.length ≤ g.kv.nCtx ∧ g'.hp = g.hp ∧ g'.kv.nCtx = g.kv.nCtx ∧
      g'.kv.head = g.kv.head + tokens.length ∧
      ∀ r, g'.kv.fed r = if g.kv.head ≤ r ∧ r < g.kv.head + tokens.length then
        (tokens[r - g.kv.head]?).map fun tok => (tok, ((r - g.kv.head : ℕ) : ℤ))
        else g.kv.fed r := by
  rcases prefill_cases h with ⟨-, -, hres⟩ | ⟨hne, res, hforward, hres⟩
  · cases hres
  · obtain rfl := mapErr_eq_ok hres.symm
    obtain ⟨w, -, hfits, -, rfl⟩ := forward_eq_ok hforward
    exact ⟨hne, hfits, rfl, rfl, Nat.min_eq_left hfits, fun r => by simp [batchCache]⟩

/-- A prefill that fails leaves the head and the rows before it. -/
theorem prefill_eq_err {tokens : List TokenId} {g g' : LlamaGraph X W F} {e : ForwardError}
    (h : prefill G calls model tokens g = (.err e, g')) :
    g'.hp = g.hp ∧ g'.kv.nCtx = g.kv.nCtx ∧ g'.kv.head = g.kv.head ∧
      ∀ r < g.kv.head, g'.kv.fed r = g.kv.fed r ∧
        ∀ layer, g'.kv.rows layer r = g.kv.rows layer r := by
  have hsame : g' = g ∨ g' = { g with kv := failedCache calls g.kv tokens.length } := by
    rcases prefill_cases h with ⟨-, hg, -⟩ | ⟨-, res, hforward, hres⟩
    · exact Or.inl hg
    · obtain ⟨msg, rfl⟩ := mapErr_eq_err hres.symm
      exact forward_eq_err hforward
  rcases hsame with rfl | rfl
  · exact ⟨rfl, rfl, rfl, fun r _ => ⟨rfl, fun _ => rfl⟩⟩
  · refine ⟨rfl, rfl, rfl, fun r hr => ?_⟩
    have hbefore : ¬ (g.kv.head ≤ r ∧ r < g.kv.head + tokens.length) := by omega
    simp [failedCache, hbefore]

/-- A decode that returns logits appends its token at the position of its row. -/
theorem executeDecode_eq_ok {token : TokenId} {g g' : LlamaGraph X W F} {logits : List F}
    (h : executeDecode G calls model token g = (.ok logits, g')) :
    ∃ w, (g.dGraph = some w ∨ g.dGraph = none ∧ buildDecodeGraph calls model g = .ok w) ∧
      g.kv.head < g.kv.nCtx ∧
      logits = logitsOf G g.hp w (tokenCache G w g.kv g.hp token).2 ∧
      g' = { g with dGraph := some w, kv := (tokenCache G w g.kv g.hp token).1 } := by
  unfold executeDecode at h
  dsimp only at h
  split at h
  · cases h
  · cases h
  · rename_i w hw
    split at h
    · cases h
    · rename_i hfull
      split at h
      · cases h
      · cases h
        refine ⟨w, ?_, Nat.not_le.mp hfull, rfl, rfl⟩
        cases hbuilt : g.dGraph with
        | some w' =>
          rw [hbuilt] at hw
          cases hw
          exact Or.inl rfl
        | none =>
          rw [hbuilt] at hw
          exact Or.inr ⟨rfl, hw⟩

theorem executeDecode_eq_err {token : TokenId} {g g' : LlamaGraph X W F} {msg : String}
    (h : executeDecode G calls model token g = (.err msg, g')) : g'.hp = g.hp ∧ g'.kv = g.kv := by
  unfold executeDecode at h
  dsimp only at h
  split at h
  · cases h
    exact ⟨rfl, rfl⟩
  · cases h
  · split at h
    · cases h
      exact ⟨rfl, rfl⟩
    · split at h <;> cases h
      exact ⟨rfl, rfl⟩

theorem decodeOne_cases {token : TokenId} {g g' : LlamaGraph X W F}
    {res : Outcome ForwardError (List F)} (h : decodeOne G calls model token g = (res, g')) :
    ∃ res', executeDecode G calls model token g = (res', g') ∧ res = mapErr res' := by
  cases h
  exact ⟨_, rfl, rfl⟩

/-- The effect of a successful decode on the bookkeeping of the cache. -/
theorem decodeOne_eq_ok {token : TokenId} {g g' : LlamaGraph X W F} {logits : List F}
    (h : decodeOne G calls model token g = (.ok logits, g')) :
    g.kv.head < g.kv.nCtx ∧ g'.hp = g.hp ∧ g'.kv.nCtx = g.kv.nCtx ∧
      g'.kv.head = g.kv.head + 1 ∧
      g'.kv.fed = Function.update g.kv.fed g.kv.head (some (token, (g.kv.head : ℤ))) := by
  obtain ⟨res, hdecode, hres⟩ := decodeOne_cases h
  obtain rfl := mapErr_eq_ok hres.symm
  obtain ⟨w, -, hlt, -, rfl⟩ := executeDecode_eq_ok hdecode
  exact ⟨hlt, rfl, rfl, Nat.min_eq_left hlt, rfl⟩

/-- A decode that fails leaves the cache. -/
theorem decodeOne_eq_err {token : TokenId} {g g' : LlamaGraph X W F} {e : ForwardError}
    (h : decodeOne G calls model token g = (.err e, g')) : g'.hp = g.hp ∧ g'.kv = g.kv := by
  obtain ⟨res, hdecode, hres⟩ := decodeOne_cases h
  obtain ⟨msg, rfl⟩ := mapErr_eq_err hres.symm
  exact executeDecode_eq_err hdecode

/-- The persistent graph, if there is one, was built from this model. -/
def Coherent (model : MappedModel W) (g : LlamaGraph X W F) : Prop :=
  ∀ w, g.dGraph = some w → model.weights g.hp.nLayer = .ok w

theorem coherent_of_new {backend : Bool} {hp : LlamaHparams F} {g : LlamaGraph X W F}
    (h : new backend G hp = .ok g) : g.Coherent model ∧ g.hp = hp := by
  unfold new at h
  split at h
  · cases h
  · split at h
    · cases h
    · cases h
      refine ⟨fun w hw => ?_, rfl⟩
      cases hw

theorem weights_of_buildDecodeGraph {g : LlamaGraph X W F} {w : Weights W}
    (h : buildDecodeGraph calls model g = .ok w) :
    model.weights g.hp.nLayer = .ok w := by
  simp only [buildDecodeGraph, Outcome.bind_eq_ok] at h
  obtain ⟨_, _, _, _, _, _, embd, hembd, layers, hlayers, norm, hnorm, out, hout, _, _, _, _,
    hw⟩ := h
  cases hw
  exact MappedModel.weights_eq_ok.mpr ⟨hembd, hlayers, hnorm, hout⟩

/-- A decode returns the logits of its row. -/
theorem decodeOne_returns {token : TokenId} {logits : List F} {g g' : LlamaGraph X W F}
    (hg : g.Coherent model) (h : g.decodeOne G calls model token = (.ok logits, g')) :
    ∃ w, model.weights g.hp.nLayer = .ok w ∧
      logits = logitsOf G g.hp w (tokenCache G w g.kv g.hp token).2 ∧
      g' = { g with dGraph := some w, kv := (tokenCache G w g.kv g.hp token).1 } := by
  obtain ⟨res, hdecode, hres⟩ := decodeOne_cases h
  obtain rfl := mapErr_eq_ok hres.symm
  obtain ⟨w, hbuilt, -, hlogits, hg'⟩ := executeDecode_eq_ok hdecode
  rcases hbuilt with hw | ⟨-, hw⟩
  · exact ⟨w, hg w hw, hlogits, hg'⟩
  · exact ⟨w, weights_of_buildDecodeGraph hw, hlogits, hg'⟩

/-! ## When nothing is missing -/

section Succeed

variable {g : LlamaGraph X W F} {w : Weights W}

theorem forwardGraph_succeed (hw : model.weights g.hp.nLayer = .ok w) {nTokens : ℕ}
    (hfits : g.kv.head + nTokens ≤ g.kv.nCtx) :
    forwardGraph (.succeed G) model g nTokens = .ok w := by
  obtain ⟨hembd, hlayers, hnorm, hout⟩ := MappedModel.weights_eq_ok.mp hw
  simp [forwardGraph, ensure, GgmlCalls.succeed, hfits, hembd, hlayers, hnorm, hout]

theorem buildDecodeGraph_succeed (hw : model.weights g.hp.nLayer = .ok w) :
    buildDecodeGraph (.succeed G) model g = .ok w := by
  obtain ⟨hembd, hlayers, hnorm, hout⟩ := MappedModel.weights_eq_ok.mp hw
  simp [buildDecodeGraph, ensure, GgmlCalls.succeed, hembd, hlayers, hnorm, hout]

/-- A batch that fits is computed. -/
theorem forward_succeed (hw : model.weights g.hp.nLayer = .ok w) {tokens : List TokenId} (pos : ℤ)
    (hne : tokens ≠ []) (hfits : g.kv.head + tokens.length ≤ g.kv.nCtx) :
    ∃ last, (batchCache G w g.kv g.hp tokens pos).2.getLast? = some last ∧
      forward G (.succeed G) model tokens pos g =
        (.ok (logitsOf G g.hp w last),
          { g with kv := (batchCache G w g.kv g.hp tokens pos).1 }) := by
  have hne' : (batchCache G w g.kv g.hp tokens pos).2 ≠ [] := by
    apply List.ne_nil_of_length_pos
    rw [length_batchCache]
    exact List.length_pos_iff.mpr hne
  refine ⟨_, List.getLast?_eq_some_getLast hne', ?_⟩
  have hstatus : ¬ (GgmlCalls.succeed G).status ≠ 0 := fun h => h rfl
  rw [forward, forwardGraph_succeed hw hfits]
  simp only [if_neg hstatus, List.getLast?_eq_some_getLast hne']

theorem prefill_succeed (hw : model.weights g.hp.nLayer = .ok w) {tokens : List TokenId}
    (hne : tokens ≠ []) (hfits : g.kv.head + tokens.length ≤ g.kv.nCtx) :
    ∃ last, (batchCache G w g.kv g.hp tokens 0).2.getLast? = some last ∧
      prefill G (.succeed G) model tokens g =
        (.ok (logitsOf G g.hp w last), { g with kv := (batchCache G w g.kv g.hp tokens 0).1 }) := by
  obtain ⟨last, hlast, hforward⟩ := forward_succeed hw 0 hne hfits
  refine ⟨last, hlast, ?_⟩
  rw [prefill, if_neg hne, hforward]
  rfl

/-- A token that fits is decoded. -/
theorem decodeOne_succeed (hw : model.weights g.hp.nLayer = .ok w) (hg : g.Coherent model)
    (hfits : g.kv.head < g.kv.nCtx) (token : TokenId) :
    decodeOne G (.succeed G) model token g =
      (.ok (logitsOf G g.hp w (tokenCache G w g.kv g.hp token).2),
        { g with dGraph := some w, kv := (tokenCache G w g.kv g.hp token).1 }) := by
  have hstatus : ¬ (GgmlCalls.succeed G).status ≠ 0 := fun h => h rfl
  have hroom : ¬ g.kv.nCtx ≤ g.kv.head := Nat.not_le.mpr hfits
  cases hbuilt : g.dGraph with
  | none =>
    simp only [decodeOne, executeDecode, hbuilt, buildDecodeGraph_succeed hw, if_neg hroom,
      if_neg hstatus, mapErr]
  | some w' =>
    have hsame := hg w' hbuilt
    rw [hw] at hsame
    cases hsame
    simp only [decodeOne, executeDecode, hbuilt, if_neg hroom, if_neg hstatus, mapErr]

theorem coherent_of_dGraph_eq (hw : model.weights g.hp.nLayer = .ok w) (kv : KVCache X) :
    Coherent model { g with dGraph := some w, kv } := by
  intro w' hw'
  cases hw'
  exact hw

end Succeed

end LlamaGraph

end QuantumFlow
