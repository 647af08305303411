import QuantumFlow.Graph.Positions

/-!
# The cache is append-only

A state is reachable when any requests lead to it from a new graph, whatever their outcomes.
Prefill writes rows inside the graph it computes, decode writes back the rows its graph hands
out; a request for `n` tokens writes no row outside the `n` rows from the head on, and moves the
head over them only when it returns logits.
-/

namespace QuantumFlow

variable {X W F : Type}

section Serve

variable (G : Ggml X W F) (model : MappedModel W)

/-- How a request ends, and the state it leaves. A reset returns nothing, for which the empty
list stands. -/
def Request.serve : Request X → LlamaGraph X W F →
    Outcome ForwardError (List F) × LlamaGraph X W F
  | prefill calls tokens, g => g.prefill G calls model tokens
  | decodeOne calls token, g => g.decodeOne G calls model token
  | resetKv, g => (.ok [], g.resetKv)

/-- The tokens that a request feeds. -/
def Request.tokens : Request X → List TokenId
  | prefill _ tokens => tokens
  | decodeOne _ token => [token]
  | resetKv => []

/-- The states that a graph can be in. -/
inductive Reachable : LlamaGraph X W F → Prop
  | new {backend : Bool} {hp : LlamaHparams F} {g : LlamaGraph X W F}
      (h : LlamaGraph.new backend G hp = .ok g) : Reachable g
  | serve {g : LlamaGraph X W F} (req : Request X) (h : Reachable g) :
      Reachable (req.serve G model g).2

end Serve

/-- What a request for `n` tokens that ends with `res` does to the cache. From 178 layers on the
graph of a batch has no room for its nodes, and building it aborts. -/
structure AppendsRows (g g' : LlamaGraph X W F) (n : ℕ) (res : Outcome ForwardError (List F)) :
    Prop where
  returns : g.hp.nLayer ≤ 177 → res ≠ .panic
  headOk : ∀ logits, res = .ok logits → g'.kv.head = g.kv.head + n
  headErr : ∀ e, res = .err e → g'.kv.head = g.kv.head
  below : ∀ layer, ∀ r < g.kv.head, g'.kv.rows layer r = g.kv.rows layer r
  beyond : ∀ layer, ∀ r ≥ g.kv.head + n, g'.kv.rows layer r = g.kv.rows layer r

/-! ## Requests whose graphs have room -/

theorem Outcome.bind_eq_panic {ε α β : Type} {x : Outcome ε α} {f : α → Outcome ε β} :
    (x >>= f) = .panic ↔ x = .panic ∨ ∃ a, x = .ok a ∧ f a = .panic := by
  cases x <;> simp

theorem ensure_ne_panic (ok : Bool) (msg : String) : ensure ok msg ≠ .panic := by
  cases ok <;> simp [ensure]

namespace MappedModel

variable (model : MappedModel W)

theorem require_ne_panic (name : String) : model.require name ≠ .panic := by
  unfold require
  split <;> simp

theorem requireLayer_ne_panic (layer : ℕ) (name : String) :
    model.requireLayer layer name ≠ .panic := by
  unfold requireLayer
  split <;> simp

theorem layerWeights_ne_panic (layer : ℕ) : model.layerWeights layer ≠ .panic := by
  simp [layerWeights, Outcome.bind_eq_panic, requireLayer_ne_panic]

theorem layersFrom_ne_panic (count layer : ℕ) : model.layersFrom count layer ≠ .panic := by
  induction count generalizing layer with
  | zero => simp [layersFrom]
  | succ count ih => simp [layersFrom, Outcome.bind_eq_panic, layerWeights_ne_panic, ih]

end MappedModel

namespace LlamaGraph

variable {G : Ggml X W F} {calls : GgmlCalls X} {model : MappedModel W} {g : LlamaGraph X W F}

theorem forwardGraph_ne_panic (n : ℕ) : forwardGraph calls model g n ≠ .panic := by
  simp [forwardGraph, Outcome.bind_eq_panic, ensure_ne_panic, model.require_ne_panic,
    model.layersFrom_ne_panic]

theorem buildDecodeGraph_ne_panic : buildDecodeGraph calls model g ≠ .panic := by
  simp [buildDecodeGraph, Outcome.bind_eq_panic, ensure_ne_panic, model.require_ne_panic,
    model.layersFrom_ne_panic]

theorem mapErr_eq_panic {res : Outcome String (List F)} : mapErr res = .panic ↔ res = .panic := by
  cases res <;> simp [mapErr]

theorem forward_ne_panic {tokens : List TokenId} (hne : tokens ≠ []) (pos : ℤ) :
    (g.forward G calls model tokens pos).1 ≠ .panic := by
  unfold forward
  split
  · simp
  · rename_i hpanic
    exact absurd hpanic (forwardGraph_ne_panic _)
  · rename_i w _
    dsimp only
    split
    · simp
    split
    · rename_i hlast
      have hlen : (batchCache G w g.kv g.hp tokens pos).2.length = tokens.length :=
        length_batchCache w g.kv g.hp tokens pos
      rw [List.getLast?_eq_none_iff.mp hlast] at hlen
      exact absurd (List.eq_nil_of_length_eq_zero hlen.symm) hne
    · simp

theorem prefill_ne_panic (tokens : List TokenId) :
    (g.prefill G calls model tokens).1 ≠ .panic := by
  unfold prefill
  split
  · simp
  · rename_i hne
    exact fun h => forward_ne_panic hne 0 (mapErr_eq_panic.mp h)

theorem executeDecode_ne_panic (token : TokenId) :
    (g.executeDecode G calls model token).1 ≠ .panic := by
  unfold executeDecode
  dsimp only
  split
  · simp
  · rename_i hpanic
    split at hpanic
    · cases hpanic
    · exact absurd hpanic buildDecodeGraph_ne_panic
  · split
    · simp
    split <;> simp

theorem decodeOne_ne_panic (token : TokenId) : (g.decodeOne G calls model token).1 ≠ .panic :=
  fun h => executeDecode_ne_panic token (mapErr_eq_panic.mp h)

end LlamaGraph

/-! ## What a request writes -/

theorem AppendsRows.of_sameOutside {g g' : LlamaGraph X W F} {n : ℕ}
    {res : Outcome ForwardError (List F)} (hres : res ≠ .panic)
    (hok : ∀ logits, res = .ok logits → g'.kv.head = g.kv.head + n)
    (herr : ∀ e, res = .err e → g'.kv.head = g.kv.head)
    (hrows : SameOutside g.kv.rows g'.kv.rows g.kv.head n) : AppendsRows g g' n res where
  returns _ := hres
  headOk := hok
  headErr := herr
  below layer r hr := hrows layer r (Or.inl hr)
  beyond layer r hr := hrows layer r (Or.inr hr)

section Requests

variable {G : Ggml X W F} {calls : GgmlCalls X} {model : MappedModel W} {g g' : LlamaGraph X W F}
  {res : Outcome ForwardError (List F)}

theorem sameOutside_prefill {tokens : List TokenId}
    (h : g.prefill G calls model tokens = (res, g')) :
    SameOutside g.kv.rows g'.kv.rows g.kv.head tokens.length := by
  rcases LlamaGraph.prefill_cases h with ⟨-, rfl, -⟩ | ⟨hne, res', hforward, -⟩
  · exact .refl _ _ _
  · cases res' with
    | ok logits =>
      obtain ⟨w, -, -, -, rfl⟩ := LlamaGraph.forward_eq_ok hforward
      exact LlamaGraph.sameOutside_batchCache w g.kv g.hp tokens 0
    | err msg =>
      rcases LlamaGraph.forward_eq_err hforward with rfl | rfl
      · exact .refl _ _ _
      · exact LlamaGraph.sameOutside_failedCache g.kv tokens.length
    | panic => exact absurd (congrArg Prod.fst hforward) (LlamaGraph.forward_ne_panic hne 0)

theorem appendsRows_prefill {tokens : List TokenId}
    (h : g.prefill G calls model tokens = (res, g')) : AppendsRows g g' tokens.length res := by
  apply AppendsRows.of_sameOutside
  · have hreturns : (g.prefill G calls model tokens).1 ≠ .panic :=
      LlamaGraph.prefill_ne_panic tokens
    rwa [h] at hreturns
  · rintro logits rfl
    exact (LlamaGraph.prefill_eq_ok h).2.2.2.2.1
  · rintro e rfl
    exact (LlamaGraph.prefill_eq_err h).2.2.1
  · exact sameOutside_prefill h

theorem appendsRows_decodeOne {token : TokenId}
    (h : g.decodeOne G calls model token = (res, g')) : AppendsRows g g' 1 res := by
  have hreturns : (g.decodeOne G calls model token).1 ≠ .panic :=
    LlamaGraph.decodeOne_ne_panic token
  rw [h] at hreturns
  cases res with
  | ok logits =>
    have hhead := (LlamaGraph.decodeOne_eq_ok h).2.2.2.1
    obtain ⟨res', hdecode, hres'⟩ := LlamaGraph.decodeOne_cases h
    obtain rfl := LlamaGraph.mapErr_eq_ok hres'.symm
    obtain ⟨w, -, -, -, rfl⟩ := LlamaGraph.executeDecode_eq_ok hdecode
    exact .of_sameOutside hreturns (fun _ _ => hhead) (fun _ herr => by cases herr)
      (LlamaGraph.sameOutside_tokenCache w g.kv g.hp token)
  | err e =>
    have hkv := (LlamaGraph.decodeOne_eq_err h).2
    refine .of_sameOutside hreturns (fun _ hok => by cases hok) (fun _ _ => by rw [hkv]) ?_
    rw [hkv]
    exact .refl _ _ _
  | panic => exact absurd rfl hreturns

theorem appendsRows_serve {req : Request X} (hreq : req ≠ .resetKv) :
    AppendsRows g (req.serve G model g).2 req.tokens.length (req.serve G model g).1 := by
  cases req with
  | prefill calls tokens => exact appendsRows_prefill rfl
  | decodeOne calls token => exact appendsRows_decodeOne rfl
  | resetKv => exact absurd rfl hreq

theorem serve_ne_panic {req : Request X} (hreq : req ≠ .resetKv) :
    (req.serve G model g).1 ≠ .panic := by
  cases req with
  | prefill calls tokens => exact LlamaGraph.prefill_ne_panic tokens
  | decodeOne calls token => exact LlamaGraph.decodeOne_ne_panic token
  | resetKv => exact absurd rfl hreq

/-- The capacity of a cache never changes, and its head stays within it. -/
theorem room_serve (req : Request X) :
    (req.serve G model g).2.kv.nCtx = g.kv.nCtx ∧
      (g.kv.head ≤ g.kv.nCtx → (req.serve G model g).2.kv.head ≤ g.kv.nCtx) := by
  cases req with
  | prefill calls tokens =>
    cases h : g.prefill G calls model tokens with
    | mk res g' =>
      rw [Request.serve, h]
      dsimp only
      cases res with
      | ok logits =>
        obtain ⟨-, hfits, -, hctx, hhead, -⟩ := LlamaGraph.prefill_eq_ok h
        exact ⟨hctx, fun _ => by omega⟩
      | err e =>
        obtain ⟨-, hctx, hhead, -⟩ := LlamaGraph.prefill_eq_err h
        exact ⟨hctx, fun hle => by omega⟩
      | panic => exact absurd (congrArg Prod.fst h) (LlamaGraph.prefill_ne_panic tokens)
  | decodeOne calls token =>
    cases h : g.decodeOne G calls model token with
    | mk res g' =>
      rw [Request.serve, h]
      dsimp only
      cases res with
      | ok logits =>
        obtain ⟨hfits, -, hctx, hhead, -⟩ := LlamaGraph.decodeOne_eq_ok h
        exact ⟨hctx, fun _ => by omega⟩
      | err e =>
        obtain ⟨-, hkv⟩ := LlamaGraph.decodeOne_eq_err h
        rw [hkv]
        exact ⟨rfl, id⟩
      | panic => exact absurd (congrArg Prod.fst h) (LlamaGraph.decodeOne_ne_panic token)
  | resetKv => exact ⟨rfl, fun _ => Nat.zero_le _⟩

theorem nCtx_serve (req : Request X) : (req.serve G model g).2.kv.nCtx = g.kv.nCtx :=
  (room_serve req).1

theorem head_le_of_serve (req : Request X) (hg : g.kv.head ≤ g.kv.nCtx) :
    (req.serve G model g).2.kv.head ≤ (req.serve G model g).2.kv.nCtx := by
  rw [nCtx_serve]
  exact (room_serve req).2 hg

theorem Reachable.head_le (hg : Reachable G model g) : g.kv.head ≤ g.kv.nCtx := by
  induction hg with
  | new h =>
    rw [LlamaGraph.head_of_new h]
    exact Nat.zero_le _
  | serve req _ ih => exact head_le_of_serve req ih

end Requests

/-- In every reachable state the head is within the cache; a request appends the rows of its
tokens and leaves all others, whatever its outcome; and only a reset lowers the head. -/
theorem cache_append_only {G : Ggml X W F} {model : MappedModel W} {g : LlamaGraph X W F}
    (hg : Reachable G model g) :
    g.kv.head ≤ g.kv.nCtx ∧
      (∀ calls tokens res g', g.prefill G calls model tokens = (res, g') →
        AppendsRows g g' tokens.length res) ∧
      (∀ calls token res g', g.decodeOne G calls model token = (res, g') →
        AppendsRows g g' 1 res) ∧
      ∀ req, (Request.serve G model req g).2.kv.head < g.kv.head → req = .resetKv := by
  refine ⟨hg.head_le, fun _ _ _ _ => appendsRows_prefill, fun _ _ _ _ => appendsRows_decodeOne,
    fun req hlower => ?_⟩
  by_contra hreq
  have happ : AppendsRows g (req.serve G model g).2 req.tokens.length (req.serve G model g).1 :=
    appendsRows_serve hreq
  cases hres : (req.serve G model g).1 with
  | ok logits =>
    have hhead := happ.headOk logits hres
    omega
  | err e =>
    have hhead := happ.headErr e hres
    omega
  | panic => exact serve_ne_panic hreq hres

/-- Behind a prompt of two tokens. -/
theorem cache_append_only_prompt :
    ∃ g, g.kv.head = 2 ∧ g.kv.head ≤ g.kv.nCtx ∧
      (∀ calls tokens res g', g.prefill unitGgml calls (.const ()) tokens = (res, g') →
        AppendsRows g g' tokens.length res) ∧
      (∀ calls token res g', g.decodeOne unitGgml calls (.const ()) token = (res, g') →
        AppendsRows g g' 1 res) ∧
      ∀ req, (Request.serve unitGgml (.const ()) req g).2.kv.head < g.kv.head → req = .resetKv := by
  have hnew : LlamaGraph.new true unitGgml unitHparams = .ok _ := rfl
  exact ⟨_, rfl, cache_append_only
    (.serve (.prefill (.succeed unitGgml) [5, 6]) (.new hnew))⟩

end QuantumFlow
