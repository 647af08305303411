import QuantumFlow.Generate.VocabSizes
import QuantumFlow.Graph.Handles
import QuantumFlow.Graph.Indistinct
import QuantumFlow.Graph.KvSizes

/-!
# The life of the handles

Loading a model acquires a buffer and a context, and a new graph two more for its cache; the first
decode adds the four of the persistent graph. Dropping the graph and the model frees them. Over a
whole run of the program nothing else is live, but for three handles of each request that a missing
tensor ends. The cache is not looked at when it could not be allocated, and a graph of too many
layers aborts.
-/

namespace QuantumFlow

variable {X W F : Type}

/-! ## Loading and dropping -/

structure ModelHandles where
  ggmlCtx : Handle GgmlHandle
  weightBuf : Handle GgmlHandle

/-- In the order in which they are freed. -/
def ModelHandles.all (m : ModelHandles) : List (Handle GgmlHandle) := [m.ggmlCtx, m.weightBuf]

/-- Freeing a context that is not there does nothing. -/
structure KvHandles where
  ctx : Option (Handle GgmlHandle)
  dataBuf : Handle GgmlHandle

def KvHandles.all (kv : KvHandles) : List (Handle GgmlHandle) := kv.ctx.toList ++ [kv.dataBuf]

/-- How the allocations of a cache end. -/
structure KvCalls where
  buffer : Bool
  context : Bool

/-- A loader that gets no context returns without freeing the buffer. -/
def loadHandled (calls : LoadCalls) (serves : ℕ → ℕ → Bool) (file : List UInt8) :
    Handled GgmlHandle (Outcome String (LoadedModel × ModelHandles)) :=
  match Gguf.GgufHeader.parse serves file with
  | .panic => pure .panic
  | .err _ => pure (.err "Failed to parse GGUF header")
  | .ok header =>
    if ¬ calls.mapped then pure (.err "Failed to mmap model file")
    else if ¬ calls.buffer then
      pure (.err "[Z.1 Loader] ggml_backend_cpu_buffer_from_ptr returned null")
    else do
      let weightBuf ← acquire .buffer
      if ¬ calls.context then pure (.err "[Z.1 Loader] ggml_init returned null")
      else
        let ggmlCtx ← acquire .context
        match placeTensors calls (UInt64.ofNat file.length) header 0 header.tensors .empty with
        | .ok tensors => pure (.ok ({ header, tensors }, { ggmlCtx, weightBuf }))
        | .err e => pure (.err e)
        | .panic => pure .panic

/-- A graph with the handles in its fields. -/
structure HandledGraph (X W F : Type) where
  graph : LlamaGraph X W F
  kv : KvHandles
  decode : Option LlamaGraph.DecodeHandles

namespace HandledGraph

/-- In the order in which they are freed. -/
def all (s : HandledGraph X W F) : List (Handle GgmlHandle) :=
  ((s.decode.map LlamaGraph.DecodeHandles.all).getD []) ++ s.kv.all

variable (G : Ggml X W F) (model : MappedModel W)

/-- Neither allocation of the cache is checked: the base of a buffer that is not there is looked
up, and each layer makes its tensors in the context. -/
def newHandled (backend : Bool) (kvCalls : KvCalls) (ofBits : UInt32 → F)
    (header : Gguf.GgufHeader) : Handled GgmlHandle (Outcome String (HandledGraph X W F)) :=
  match (KvHparams.fromModel header).newSizes backend with
  | .err e => pure (.err e)
  | .panic => pure .panic
  | .ok _ =>
    match LlamaGraph.new backend G (.fromModel ofBits header) with
    | .err e => pure (.err e)
    | .panic => pure .panic
    | .ok graph =>
      if ¬ kvCalls.buffer then pure .panic
      else do
        let dataBuf ← acquire .buffer
        if kvCalls.context then
          let ctx ← acquire .context
          pure (.ok { graph, kv := { ctx := some ctx, dataBuf }, decode := none })
        else if graph.hp.nLayer = 0 then
          pure (.ok { graph, kv := { ctx := none, dataBuf }, decode := none })
        else pure .panic

/-- The assertions of the library are taken to hold. -/
def prefillHandled (calls : GgmlCalls X) (tokens : List TokenId) (s : HandledGraph X W F) :
    Handled GgmlHandle (Outcome ForwardError (List F) × HandledGraph X W F) :=
  if tokens = [] then pure (.err (.allocationFailed "empty token sequence"), s)
  else do
    let (res, graph) ← LlamaGraph.forwardHandled G calls .hold model tokens 0 s.graph
    pure (LlamaGraph.mapErr res, { s with graph })

/-- The persistent graph is built by the first decode, and its handles are kept. -/
def decodeOneHandled (calls : GgmlCalls X) (token : TokenId) (s : HandledGraph X W F) :
    Handled GgmlHandle (Outcome ForwardError (List F) × HandledGraph X W F) :=
  match s.decode with
  | some _ =>
    let (res, graph) := s.graph.decodeOne G calls model token
    pure (res, { s with graph })
  | none => do
    match ← LlamaGraph.buildDecodeHandled calls .hold model s.graph with
    | .err e => pure (.err (.allocationFailed e), s)
    | .panic => pure (.panic, s)
    | .ok (w, d) =>
      let (res, graph) := { s.graph with dGraph := some w }.decodeOne G calls model token
      pure (res, { s with graph, decode := some d })

def serveHandled : Request X → HandledGraph X W F →
    Handled GgmlHandle (Outcome ForwardError (List F) × HandledGraph X W F)
  | .prefill calls tokens, s => prefillHandled G model calls tokens s
  | .decodeOne calls token, s => decodeOneHandled G model calls token s
  | .resetKv, s => pure (.ok [], { s with graph := s.graph.resetKv })

def repliesHandled : List (Request X) → HandledGraph X W F →
    Handled GgmlHandle (List (Option (List F)) × HandledGraph X W F)
  | [], s => pure ([], s)
  | req :: reqs, s => do
    let (res, s) ← serveHandled G model req s
    let (rest, s) ← repliesHandled reqs s
    pure (returned res :: rest, s)

def drop (s : HandledGraph X W F) : Handled GgmlHandle Unit := do
  LlamaGraph.dropHandled s.decode
  freeAll s.kv.all

end HandledGraph

/-- The program: load, serve, and drop the graph and then the model. One that fails to start exits
without dropping. -/
def programHandled (calls : LoadCalls) (serves : ℕ → ℕ → Bool) (file : List UInt8) (backend : Bool)
    (kvCalls : KvCalls) (ofBits : UInt32 → F) (G : Ggml X Tensor F) (reqs : List (Request X)) :
    Handled GgmlHandle (Outcome String (List (Option (List F)))) := do
  match ← loadHandled calls serves file with
  | .err e => pure (.err e)
  | .panic => pure .panic
  | .ok (m, handles) =>
    match ← HandledGraph.newHandled G backend kvCalls ofBits m.header with
    | .err e => pure (.err e)
    | .panic => pure .panic
    | .ok s =>
      let (rs, s) ← HandledGraph.repliesHandled G m.mappedModel reqs s
      s.drop
      freeAll handles.all
      pure (.ok rs)

/-! ## Requests that leak -/

instance (model : MappedModel W) (name : String) : Decidable (model.Has name) :=
  decidable_of_iff ((model.tensor name).isSome = true) Option.isSome_iff_ne_none

instance (calls : GgmlCalls X) : Decidable (LlamaGraph.Opened calls) :=
  inferInstanceAs (Decidable (_ ∧ _))

instance (calls : GgmlCalls X) (model : MappedModel W) (g : LlamaGraph X W F) (n : ℕ) :
    Decidable (LlamaGraph.ForwardLeaks calls model g n) := inferInstanceAs (Decidable (_ ∧ _))

instance (calls : GgmlCalls X) (model : MappedModel W) (g : LlamaGraph X W F) :
    Decidable (LlamaGraph.BuildLeaks calls model g) := inferInstanceAs (Decidable (_ ∧ _))

/-- A required tensor is missing where the request has a buffer and two contexts in hand. -/
def Request.Leaks (model : MappedModel W) : Request X → LlamaGraph X W F → Prop
  | .prefill calls tokens, g => tokens ≠ [] ∧ LlamaGraph.ForwardLeaks calls model g tokens.length
  | .decodeOne calls _, g => g.dGraph.isSome = false ∧ LlamaGraph.BuildLeaks calls model g
  | .resetKv, _ => False

instance (model : MappedModel W) (req : Request X) (g : LlamaGraph X W F) :
    Decidable (req.Leaks model g) :=
  match req with
  | .prefill _ _ => inferInstanceAs (Decidable (_ ∧ _))
  | .decodeOne _ _ => inferInstanceAs (Decidable (_ ∧ _))
  | .resetKv => inferInstanceAs (Decidable False)

/-- How many requests of a run leak. -/
def leakCount (G : Ggml X W F) (model : MappedModel W) : List (Request X) → LlamaGraph X W F → ℕ
  | [], _ => 0
  | req :: reqs, g =>
    (if req.Leaks model g then 1 else 0) + leakCount G model reqs (req.serve G model g).2

/-! ## One request -/

namespace LlamaGraph

variable {G : Ggml X W F} {calls : GgmlCalls X} {model : MappedModel W} {g : LlamaGraph X W F}

theorem not_forwardAborts_hold (calls : GgmlCalls X) {n : ℕ} (hlayers : g.hp.nLayer ≤ 177) :
    ¬ ForwardAborts calls .hold g n := by
  rintro ⟨-, hfails | ⟨-, hlarge | ⟨name, -, hfails⟩ | ⟨-, -, hfails | ⟨-, hfails⟩⟩⟩⟩
  · cases hfails
  · omega
  · cases hfails
  · cases hfails
  · cases hfails

theorem not_buildAborts_hold (calls : GgmlCalls X) (hlayers : g.hp.nLayer ≤ 177) :
    ¬ BuildAborts calls .hold g := by
  rintro ⟨-, hlarge | ⟨name, -, hfails⟩⟩
  · omega
  · cases hfails

/-- A batch that returns keeps three handles where it leaks, and none elsewhere. -/
theorem forwardHandled_holds (calls : GgmlCalls X) (model : MappedModel W) (g : LlamaGraph X W F)
    {tokens : List TokenId} (hne : tokens ≠ []) (pos : ℤ) (hlayers : g.hp.nLayer ≤ 177)
    (l : Ledger GgmlHandle) :
    ∃ l' kept, (forwardHandled G calls .hold model tokens pos g).run l =
        some (forward G calls model tokens pos g, l') ∧ l.Holds l' kept ∧
      kept.length = if ForwardLeaks calls model g tokens.length then 3 else 0 := by
  have hreturns : (forward G calls model tokens pos g).1 ≠ .panic := forward_ne_panic hne pos
  have hasserts : ¬ ForwardAborts calls .hold g tokens.length :=
    not_forwardAborts_hold calls hlayers
  have hnothing : ∀ {l' : Ledger GgmlHandle}, l'.live = l.live → l.Holds l' [] := fun hlive =>
    (Ledger.Holds.refl l).of_perm (List.Perm.refl _) hlive
  rcases openGraph_run calls
    (fun msg => ((.err msg, g) : Outcome String (List F) × LlamaGraph X W F))
    "[Z.1 Graph] ggml_backend_alloc_buffer failed" "[Z.1 Graph] inp_ctx alloc failed"
    "[Z.1 Graph] graph ctx alloc failed" (forwardOpened G calls .hold model tokens pos g) l with
    ⟨hnot, msg, l', hmsg, hrun, hlive⟩ | ⟨hopen, inpBuf, inpCtx, ctx, l', hholds, hrun⟩
  · refine ⟨l', [], ?_, hnothing hlive, ?_⟩
    · have hgraph : forwardGraph calls model g tokens.length = .err msg := by
        rw [forwardGraph_eq_opening, hmsg, Outcome.err_bind]
      rw [forward_of_err G pos hgraph]
      exact hrun
    · rw [if_neg fun hleaks => hnot hleaks.1, List.length_nil]
  · obtain ⟨l'', hrun', hleak, hkeep⟩ :=
      forwardOpened_run G model tokens pos g hopen hasserts hholds
    by_cases hleaks : ForwardLeaks calls model g tokens.length
    · obtain ⟨rfl, -⟩ := hleak hleaks
      exact ⟨l'', _, hrun.trans hrun', hholds, by rw [if_pos hleaks]; rfl⟩
    · exact ⟨l'', [], hrun.trans hrun', hnothing (hkeep hleaks hreturns),
        by rw [if_neg hleaks]; rfl⟩

/-- Building the persistent graph keeps three handles where it leaks. -/
theorem buildDecodeHandled_holds (calls : GgmlCalls X) (model : MappedModel W)
    (g : LlamaGraph X W F) (hlayers : g.hp.nLayer ≤ 177) (l : Ledger GgmlHandle) :
    ∃ res l', (buildDecodeHandled calls .hold model g).run l = some (res, l') ∧
      Prod.fst <$> res = buildDecodeGraph calls model g ∧
      (BuildLeaks calls model g → (∃ e, res = .err e) ∧ ∃ kept, l.Holds l' kept ∧ kept.length = 3) ∧
      (¬ BuildLeaks calls model g → Released l l' res) := by
  have hasserts : ¬ BuildAborts calls .hold g := not_buildAborts_hold calls hlayers
  rcases openGraph_run calls (.err : String → Outcome String (Weights W × DecodeHandles))
    "[Z.1 Decode] input buffer alloc failed" "[Z.1 Decode] inp_ctx alloc failed"
    "[Z.1 Decode] graph ctx alloc failed" (buildDecodeOpened calls .hold model g) l with
    ⟨hnot, -⟩ | ⟨hopen, inpBuf, inpCtx, ctx, l', hholds, hrun⟩
  · obtain ⟨res, l', hrun, hres, -, hkeep⟩ := buildDecodeHandled_run calls model g hasserts l
    exact ⟨res, l', hrun, hres, fun hleaks => absurd hleaks.1 hnot, hkeep⟩
  · obtain ⟨res, l'', hrun', hres, hleak, hkeep⟩ :=
      buildDecodeOpened_run model g hopen hasserts hholds
    refine ⟨res, l'', hrun.trans hrun', hres, fun hleaks => ?_, hkeep⟩
    obtain ⟨rfl, herr⟩ := hleak hleaks
    exact ⟨herr, _, hholds, rfl⟩

/-- A decode whose graph cannot be built. -/
theorem decodeOne_of_build_err (hnone : g.dGraph = none) {e : String}
    (h : buildDecodeGraph calls model g = .err e) (token : TokenId) :
    g.decodeOne G calls model token = (.err (.allocationFailed e), g) := by
  have hbuilt : built calls model g = .err e := by rw [built, hnone]; exact h
  rw [decodeOne, executeDecode_eq, hbuilt]
  rfl

/-- A decode that builds its graph goes on as one that has it. -/
theorem decodeOne_of_build_ok (hnone : g.dGraph = none) {w : Weights W}
    (h : buildDecodeGraph calls model g = .ok w) (token : TokenId) :
    g.decodeOne G calls model token =
      { g with dGraph := some w }.decodeOne G calls model token := by
  have hbuilt : built calls model g = .ok w := by rw [built, hnone]; exact h
  have hbuilt' : built calls model { g with dGraph := some w } = .ok w := rfl
  rw [decodeOne, decodeOne, executeDecode_eq, executeDecode_eq, hbuilt, hbuilt']

theorem dGraph_decodeOne (hsome : g.dGraph.isSome = true) (token : TokenId) :
    (g.decodeOne G calls model token).2.dGraph.isSome = true := by
  obtain ⟨w, hw⟩ := Option.isSome_iff_exists.mp hsome
  have hbuilt : built calls model g = .ok w := by rw [built, hw]
  rw [decodeOne, executeDecode_eq, hbuilt]
  dsimp only
  split
  · rfl
  split <;> rfl

theorem hp_decodeOne (token : TokenId) : (g.decodeOne G calls model token).2.hp = g.hp := by
  rw [decodeOne, executeDecode_eq]
  cases built calls model g with
  | ok w =>
    dsimp only
    split
    · rfl
    split <;> rfl
  | err e => rfl
  | panic => rfl

end LlamaGraph

namespace HandledGraph

variable {G : Ggml X W F} {model : MappedModel W} {l₀ l : Ledger GgmlHandle}
  {s : HandledGraph X W F} {others : List (Handle GgmlHandle)}

/-- The live handles are those of the graph and some others, beside those before. -/
structure Owns (l₀ l : Ledger GgmlHandle) (s : HandledGraph X W F)
    (others : List (Handle GgmlHandle)) : Prop where
  holds : l₀.Holds l (s.all ++ others)
  built : s.decode.isSome = s.graph.dGraph.isSome
  layers : s.graph.hp.nLayer ≤ 177

/-- What a request leaves: its result, its state, and three more handles if it leaks. -/
def Serves (l₀ : Ledger GgmlHandle) (others : List (Handle GgmlHandle)) (leaks : Prop)
    [Decidable leaks] (r : Outcome ForwardError (List F) × LlamaGraph X W F)
    (run : Option ((Outcome ForwardError (List F) × HandledGraph X W F) × Ledger GgmlHandle)) :
    Prop :=
  ∃ s' l' kept, run = some ((r.1, s'), l') ∧ s'.graph = r.2 ∧ Owns l₀ l' s' (kept ++ others) ∧
    kept.length = if leaks then 3 else 0

theorem Owns.keep (h : Owns l₀ l s others) {l' : Ledger GgmlHandle}
    {kept : List (Handle GgmlHandle)} (hkept : l.Holds l' kept) {g : LlamaGraph X W F}
    (hbuilt : s.graph.dGraph.isSome = g.dGraph.isSome) (hhp : g.hp = s.graph.hp) :
    Owns l₀ l' { s with graph := g } (kept ++ others) where
  holds := (h.holds.trans hkept).of_perm (List.perm_append_comm_assoc _ _ _) rfl
  built := h.built.trans hbuilt
  layers := hhp ▸ h.layers

theorem prefillHandled_serves (h : Owns l₀ l s others) (calls : GgmlCalls X)
    (tokens : List TokenId) :
    Serves l₀ others ((Request.prefill calls tokens).Leaks model s.graph)
      (s.graph.prefill G calls model tokens) ((prefillHandled G model calls tokens s).run l) := by
  unfold prefillHandled LlamaGraph.prefill
  by_cases hnil : tokens = []
  · rw [if_pos hnil, if_pos hnil]
    exact ⟨s, l, [], rfl, rfl, h, (if_neg fun hleaks => hleaks.1 hnil).symm⟩
  · obtain ⟨l', kept, hrun, hkept, hlen⟩ :=
      LlamaGraph.forwardHandled_holds (G := G) calls model s.graph hnil 0 h.layers l
    have hkeeps : (LlamaGraph.forward G calls model tokens 0 s.graph).2.hp = s.graph.hp ∧
        (LlamaGraph.forward G calls model tokens 0 s.graph).2.dGraph = s.graph.dGraph :=
      LlamaGraph.hp_forward tokens 0
    rw [if_neg hnil, if_neg hnil, StateT.run_bind, hrun]
    refine ⟨{ s with graph := (LlamaGraph.forward G calls model tokens 0 s.graph).2 }, l', kept,
      rfl, rfl, h.keep hkept (congrArg Option.isSome hkeeps.2.symm) hkeeps.1, ?_⟩
    rw [hlen]
    exact if_congr ⟨fun hleaks => ⟨hnil, hleaks⟩, And.right⟩ rfl rfl

theorem decodeOneHandled_serves (h : Owns l₀ l s others) (calls : GgmlCalls X) (token : TokenId) :
    Serves l₀ others ((Request.decodeOne calls token).Leaks model s.graph)
      (s.graph.decodeOne G calls model token) ((decodeOneHandled G model calls token s).run l) := by
  obtain ⟨graph, kv, decode⟩ := s
  cases decode with
  | some d =>
    have hsome : graph.dGraph.isSome = true := h.built.symm
    refine ⟨⟨(graph.decodeOne G calls model token).2, kv, some d⟩, l, [], rfl, rfl, ?_, ?_⟩
    · exact h.keep (.refl l) (hsome.trans (LlamaGraph.dGraph_decodeOne hsome token).symm)
        (LlamaGraph.hp_decodeOne token)
    · exact (if_neg fun hleaks => Bool.noConfusion (hsome.symm.trans hleaks.1)).symm
  | none =>
    have hisSome : graph.dGraph.isSome = false := h.built.symm
    have hnone : graph.dGraph = none := by simpa using hisSome
    obtain ⟨res, l', hrun, hres, hleak, hkeep⟩ :=
      LlamaGraph.buildDecodeHandled_holds calls model graph h.layers l
    unfold decodeOneHandled
    dsimp only
    rw [StateT.run_bind, hrun]
    by_cases hleaks : LlamaGraph.BuildLeaks calls model graph
    · obtain ⟨⟨e, rfl⟩, kept, hkept, hlen⟩ := hleak hleaks
      rw [LlamaGraph.decodeOne_of_build_err hnone hres.symm]
      exact ⟨_, l', kept, rfl, rfl, h.keep hkept rfl rfl,
        hlen.trans (if_pos ⟨hisSome, hleaks⟩).symm⟩
    · have hreleased := hkeep hleaks
      have hnot : (if (Request.decodeOne calls token).Leaks model graph then 3 else 0) = 0 :=
        if_neg fun h => hleaks h.2
      cases res with
      | err e =>
        have hlive : l.Holds l' [] := (Ledger.Holds.refl l).of_perm (List.Perm.refl _) hreleased
        rw [LlamaGraph.decodeOne_of_build_err hnone hres.symm]
        exact ⟨_, l', [], rfl, rfl, h.keep hlive rfl rfl, hnot.symm⟩
      | panic => exact hreleased.elim
      | ok built =>
        obtain ⟨w, d⟩ := built
        have hsome : ({ graph with dGraph := some w }.decodeOne G calls model
            token).2.dGraph.isSome = true := LlamaGraph.dGraph_decodeOne rfl token
        rw [LlamaGraph.decodeOne_of_build_ok hnone hres.symm]
        have hhp : ({ graph with dGraph := some w }.decodeOne G calls model token).2.hp =
            graph.hp := LlamaGraph.hp_decodeOne token
        refine ⟨_, l', [], rfl, rfl, ⟨?_, hsome.symm,
          (congrArg LlamaHparams.nLayer hhp).trans_le h.layers⟩, hnot.symm⟩
        exact (h.holds.trans hreleased).of_perm (by simp [all, List.append_assoc]) rfl

theorem serveHandled_serves (h : Owns l₀ l s others) (req : Request X) :
    Serves l₀ others (req.Leaks model s.graph) (req.serve G model s.graph)
      ((serveHandled G model req s).run l) := by
  cases req with
  | prefill calls tokens => exact prefillHandled_serves h calls tokens
  | decodeOne calls token => exact decodeOneHandled_serves h calls token
  | resetKv => exact ⟨_, l, [], rfl, rfl, h.keep (.refl l) rfl rfl, rfl⟩

/-! ## A run of the program -/

/-- A run returns what it returns without handles, and keeps three for each request that leaks. -/
theorem repliesHandled_owns (reqs : List (Request X)) (h : Owns l₀ l s others) :
    ∃ s' l' kept, (repliesHandled G model reqs s).run l =
        some (((replies G model reqs s.graph).1, s'), l') ∧
      Owns l₀ l' s' (kept ++ others) ∧ kept.length = 3 * leakCount G model reqs s.graph := by
  induction reqs generalizing s l others with
  | nil => exact ⟨s, l, [], rfl, h, rfl⟩
  | cons req reqs ih =>
    have hserves : Serves l₀ others (req.Leaks model s.graph) (req.serve G model s.graph)
        ((serveHandled G model req s).run l) := serveHandled_serves h req
    obtain ⟨s₁, l₁, kept₁, hrun₁, hgraph, howns₁, hlen₁⟩ := hserves
    obtain ⟨s₂, l₂, kept₂, hrun₂, howns₂, hlen₂⟩ := ih howns₁
    refine ⟨s₂, l₂, kept₂ ++ kept₁, ?_, ?_, ?_⟩
    · rw [repliesHandled, StateT.run_bind, hrun₁, Option.bind_eq_bind, Option.bind_some,
        StateT.run_bind, hrun₂, hgraph]
      rfl
    · rw [List.append_assoc]
      exact howns₂
    · rw [List.length_append, hlen₁, hlen₂, leakCount, hgraph]
      split <;> omega

theorem drop_eq (s : HandledGraph X W F) : s.drop = freeAll s.all := by
  rw [all, freeAll_append, drop]
  cases s.decode <;> rfl

/-- A graph whose cache could be allocated holds that. -/
theorem newHandled_run {backend : Bool} {kvCalls : KvCalls} {ofBits : UInt32 → F}
    {header : Gguf.GgufHeader} {g : LlamaGraph X W F}
    (hsizes : (KvHparams.fromModel header).SizesDefined)
    (hnew : LlamaGraph.new backend G (.fromModel ofBits header) = .ok g)
    (hbuffer : kvCalls.buffer = true) (hcontext : kvCalls.context = true ∨ g.hp.nLayer = 0)
    (hlayers : g.hp.nLayer ≤ 177) (l : Ledger GgmlHandle) :
    ∃ s l', (newHandled (W := W) G backend kvCalls ofBits header).run l = some (.ok s, l') ∧
      s.graph = g ∧ Owns l l' s [] := by
  obtain ⟨hbackend, hnone⟩ : backend = true ∧ g.dGraph = none := by
    unfold LlamaGraph.new at hnew
    split at hnew
    · cases hnew
    rename_i hbackend
    split at hnew <;> cases hnew
    exact ⟨by simpa using hbackend, rfl⟩
  obtain ⟨sizes, hok⟩ : ∃ sizes, (KvHparams.fromModel header).newSizes backend = .ok sizes := by
    obtain ⟨sizes, hs⟩ := (KvHparams.fromModel header).sizes_isSome_iff.mpr hsizes
    exact ⟨sizes, by simp [KvHparams.newSizes, hbackend, hs]⟩
  have hholds := (Ledger.Holds.refl l).acquire GgmlHandle.buffer
  have hbuilt : (none : Option LlamaGraph.DecodeHandles).isSome = g.dGraph.isSome :=
    (congrArg Option.isSome hnone).symm
  unfold newHandled
  rw [hok, hnew, hbuffer]
  cases hctx : kvCalls.context with
  | true =>
    have hholds := hholds.acquire GgmlHandle.context
    exact ⟨_, _, rfl, rfl, hholds, hbuilt, hlayers⟩
  | false =>
    have hzero : g.hp.nLayer = 0 := hcontext.resolve_left (by simp [hctx])
    simp only [not_true_eq_false, Bool.false_eq_true, if_false, if_pos hzero]
    exact ⟨_, _, rfl, rfl, hholds, hbuilt, hlayers⟩

end HandledGraph

/-- The loader returns what it returns without handles, and holds those of the model. -/
theorem loadHandled_run {calls : LoadCalls} {serves : ℕ → ℕ → Bool} {file : List UInt8}
    {m : LoadedModel} (hload : load calls serves file = .ok m) (l : Ledger GgmlHandle) :
    ∃ handles l', (loadHandled calls serves file).run l = some (.ok (m, handles), l') ∧
      l.Holds l' handles.all := by
  have hholds := ((Ledger.Holds.refl l).acquire GgmlHandle.buffer).acquire GgmlHandle.context
  unfold load at hload
  unfold loadHandled
  cases hparse : Gguf.GgufHeader.parse serves file with
  | panic =>
    rw [hparse] at hload
    cases hload
  | err e =>
    rw [hparse] at hload
    cases hload
  | ok header =>
    rw [hparse] at hload
    dsimp only at hload ⊢
    split at hload
    · cases hload
    rename_i hmapped
    split at hload
    · cases hload
    rename_i hbuffer
    split at hload
    · cases hload
    rename_i hcontext
    obtain ⟨tensors, hplace, hm⟩ := Outcome.bind_eq_ok.mp hload
    cases hm
    rw [if_neg hmapped, if_neg hbuffer]
    simp only [StateT.run_bind, run_acquire, if_neg hcontext, hplace]
    exact ⟨_, _, rfl, hholds⟩

/-- The whole program returns its replies and frees everything it acquired, but for three handles
of each request that leaks, if its cache could be allocated, its graphs have room for the layers of
the model, and the assertions of the library hold. -/
theorem programHandled_live {calls : LoadCalls} {serves : ℕ → ℕ → Bool} {file : List UInt8}
    {backend : Bool} {kvCalls : KvCalls} {ofBits : UInt32 → F} {G : Ggml X Tensor F}
    {m : LoadedModel} (hload : load calls serves file = .ok m)
    (hsizes : (KvHparams.fromModel m.header).SizesDefined) {g₀ : LlamaGraph X Tensor F}
    (hnew : LlamaGraph.new backend G (.fromModel ofBits m.header) = .ok g₀)
    (hbuffer : kvCalls.buffer = true) (hcontext : kvCalls.context = true ∨ g₀.hp.nLayer = 0)
    (hlayers : g₀.hp.nLayer ≤ 177) (reqs : List (Request X)) (l : Ledger GgmlHandle) :
    ∃ l' kept, (programHandled calls serves file backend kvCalls ofBits G reqs).run l =
        some (.ok (replies G m.mappedModel reqs g₀).1, l') ∧ l.Holds l' kept ∧
      kept.length = 3 * leakCount G m.mappedModel reqs g₀ := by
  obtain ⟨handles, l₁, hrun₁, hmodel⟩ := loadHandled_run hload l
  obtain ⟨s, l₂, hrun₂, rfl, howns⟩ :=
    HandledGraph.newHandled_run hsizes hnew hbuffer hcontext hlayers l₁
  obtain ⟨s', l₃, kept, hrun₃, howns', hlen⟩ :=
    HandledGraph.repliesHandled_owns (G := G) (W := Tensor) reqs howns
  obtain ⟨l₄, hrun₄, hkept⟩ := howns'.holds.exists_run_freeAll_left
  have hall : l.Holds l₄ (handles.all ++ (kept ++ [])) :=
    (hmodel.trans hkept).of_perm List.perm_append_comm rfl
  obtain ⟨l₅, hrun₅, hleft⟩ := hall.exists_run_freeAll_left
  refine ⟨l₅, kept ++ [], ?_, hleft, by rw [List.append_nil]; exact hlen⟩
  unfold programHandled
  simp only [StateT.run_bind, hrun₁, hrun₂, hrun₃, HandledGraph.drop_eq, hrun₄, hrun₅,
    Option.bind_eq_bind, Option.bind_some]
  rfl

/-- A host on which no tensor descriptor is created. -/
def noDescriptors : LoadCalls := { mapAt4096 with created := fun _ => false }

theorem load_noDescriptors :
    load noDescriptors (fun _ _ => true) smallFile = .ok ⟨smallHeader, .empty⟩ := by
  have hlen : smallFile.length = 736 := by decide +kernel
  have hparse : Gguf.GgufHeader.parse (fun _ _ => true) smallFile = .ok smallHeader :=
    parse_smallModel _
  have hplace : placeTensors noDescriptors (UInt64.ofNat 736) smallHeader 0 smallHeader.tensors
      .empty = .ok .empty := rfl
  rw [load, hparse, hlen]
  dsimp only
  rw [hplace]
  rfl

/-- A prompt, a decode and a reset on it: six handles are left. -/
theorem programHandled_live_noDescriptors : ∃ l' kept rs,
    (programHandled noDescriptors (fun _ _ => true) smallFile true ⟨true, true⟩ (fun _ => ())
      tensorGgml
      [.prefill (.succeed tensorGgml) [5], .decodeOne (.succeed tensorGgml) 5, .resetKv]).run
        .empty = some (.ok rs, l') ∧ Ledger.Holds .empty l' kept ∧ kept.length = 6 := by
  obtain ⟨g, hnew, -⟩ := new_smallHeader tensorGgml (fun _ => ())
  have hsizes : (KvHparams.fromModel smallHeader).SizesDefined := by
    unfold KvHparams.SizesDefined
    decide +kernel
  have hlayers : g.hp.nLayer ≤ 177 := by
    cases hnew
    decide +kernel
  have hbuffer : (⟨true, true⟩ : KvCalls).buffer = true := rfl
  obtain ⟨l', kept, hrun, hholds, hlen⟩ := programHandled_live
    load_noDescriptors hsizes hnew hbuffer (Or.inl rfl) hlayers
    [.prefill (.succeed tensorGgml) [5], .decodeOne (.succeed tensorGgml) 5, .resetKv] .empty
  cases hnew
  exact ⟨l', kept, _, hrun, hholds, hlen.trans (by decide +kernel)⟩

end QuantumFlow
