import QuantumFlow.Foundation.Ledger
import QuantumFlow.Graph.GraphSize

/-!
# Contexts, buffers and allocators

Building a graph acquires an input buffer, a context for the inputs, one for the graph and an
allocator. Every failure frees by hand what was acquired before it, except that a missing tensor
returns at once, and that an assertion that does not hold aborts: that there is room for the nodes
of the graph, or one about the operands of an operation. A batch frees everything before it returns;
the graph for single tokens is kept, and freed when the program ends.
-/

namespace QuantumFlow

variable {X W F : Type}

inductive GgmlHandle where
  | buffer
  | context
  | gallocr
  deriving DecidableEq

/-! ## Opening a graph -/

/-- What both graphs acquire first: the input buffer and the two contexts. `fail` is the result
with a message. -/
def openGraph {α : Type} (calls : GgmlCalls X) (fail : String → α) (noBuf noInpCtx noCtx : String)
    (k : Handle GgmlHandle → Handle GgmlHandle → Handle GgmlHandle → Handled GgmlHandle α) :
    Handled GgmlHandle α :=
  if ¬ calls.inpBuf then pure (fail noBuf)
  else do
    let inpBuf ← acquire .buffer
    if ¬ calls.inpCtx then
      freeAll [inpBuf]
      pure (fail noInpCtx)
    else
      let inpCtx ← acquire .context
      if ¬ calls.graphCtx then
        freeAll [inpCtx, inpBuf]
        pure (fail noCtx)
      else
        let ctx ← acquire .context
        k inpBuf inpCtx ctx

namespace LlamaGraph

variable (G : Ggml X W F) (calls : GgmlCalls X) (asserts : GgmlAsserts) (model : MappedModel W)

/-- A batch, once its graph is built. -/
def computeHandled (w : Weights W) (tokens : List TokenId) (pos : ℤ) (g : LlamaGraph X W F)
    (inpBuf inpCtx ctx : Handle GgmlHandle) :
    Handled GgmlHandle (Outcome String (List F) × LlamaGraph X W F) :=
  if ¬ calls.galloc then do
    freeAll [ctx, inpCtx, inpBuf]
    pure (.err "[Z.1 Graph] gallocr_new failed", g)
  else do
    let galloc ← acquire .gallocr
    if ¬ calls.allocGraph then
      freeAll [galloc, ctx, inpCtx, inpBuf]
      pure (.err "[Z.1 Graph] gallocr_alloc_graph failed", g)
    else if ¬ asserts.computation then pure (.panic, g)
    else if calls.status ≠ 0 then
      freeAll [galloc, ctx, inpCtx, inpBuf]
      pure (.err s!"[Z.1 Graph] compute failed status={calls.status}",
        { g with kv := failedCache calls g.kv tokens.length })
    else if ¬ asserts.logits then pure (.panic, g)
    else
      let (kv, cur) := batchCache G w g.kv g.hp tokens pos
      match cur.getLast? with
      | none => pure (.panic, g)
      | some last =>
        freeAll [galloc, ctx, inpCtx, inpBuf]
        pure (.ok (logitsOf G g.hp w last), { g with kv })

/-- A batch, once its buffer and contexts are there. A missing tensor returns without freeing. -/
def forwardOpened (tokens : List TokenId) (pos : ℤ) (g : LlamaGraph X W F)
    (inpBuf inpCtx ctx : Handle GgmlHandle) :
    Handled GgmlHandle (Outcome String (List F) × LlamaGraph X W F) :=
  match model.requireIn asserts "token_embd.weight" with
  | .err e => pure (.err e, g)
  | .panic => pure (.panic, g)
  | .ok tokenEmbd =>
    let kvLen := g.kv.head + tokens.length
    if g.kv.nCtx < kvLen then do
      freeAll [ctx, inpCtx, inpBuf]
      pure (.err s!"[Z.1 Graph] KV cache overflow: {kvLen} > {g.kv.nCtx}", g)
    else
      match model.laterWeightsIn forwardNodes asserts g.hp.nLayer with
      | .err e => pure (.err e, g)
      | .panic => pure (.panic, g)
      | .ok (layers, outputNorm, output) =>
        computeHandled G calls asserts { tokenEmbd, layers, outputNorm, output } tokens pos g inpBuf
          inpCtx ctx

def forwardHandled (tokens : List TokenId) (pos : ℤ) (g : LlamaGraph X W F) :
    Handled GgmlHandle (Outcome String (List F) × LlamaGraph X W F) :=
  openGraph calls (fun msg => (.err msg, g)) "[Z.1 Graph] ggml_backend_alloc_buffer failed"
    "[Z.1 Graph] inp_ctx alloc failed" "[Z.1 Graph] graph ctx alloc failed"
    (forwardOpened G calls asserts model tokens pos g)

/-- The handles that are kept for the graph of single tokens. -/
structure DecodeHandles where
  dInpCtx : Handle GgmlHandle
  dCtx : Handle GgmlHandle
  dGalloc : Handle GgmlHandle
  dInpBuf : Handle GgmlHandle

/-- In the order in which they are freed. -/
def DecodeHandles.all (d : DecodeHandles) : List (Handle GgmlHandle) :=
  [d.dGalloc, d.dCtx, d.dInpCtx, d.dInpBuf]

def buildDecodeOpened (g : LlamaGraph X W F) (inpBuf inpCtx ctx : Handle GgmlHandle) :
    Handled GgmlHandle (Outcome String (Weights W × DecodeHandles)) :=
  match model.requireIn asserts "token_embd.weight" with
  | .err e => pure (.err e)
  | .panic => pure .panic
  | .ok tokenEmbd =>
    match model.laterWeightsIn decodeNodes asserts g.hp.nLayer with
    | .err e => pure (.err e)
    | .panic => pure .panic
    | .ok (layers, outputNorm, output) =>
      if ¬ calls.galloc then do
        freeAll [inpCtx, ctx, inpBuf]
        pure (.err "[Z.1 Decode] gallocr_new failed")
      else do
        let galloc ← acquire .gallocr
        if ¬ calls.allocGraph then
          freeAll [galloc, inpCtx, ctx, inpBuf]
          pure (.err "[Z.1 Decode] gallocr_alloc_graph failed")
        else
          pure (.ok ({ tokenEmbd, layers, outputNorm, output },
            { dInpCtx := inpCtx, dCtx := ctx, dGalloc := galloc, dInpBuf := inpBuf }))

def buildDecodeHandled (g : LlamaGraph X W F) :
    Handled GgmlHandle (Outcome String (Weights W × DecodeHandles)) :=
  openGraph calls .err "[Z.1 Decode] input buffer alloc failed" "[Z.1 Decode] inp_ctx alloc failed"
    "[Z.1 Decode] graph ctx alloc failed" (buildDecodeOpened calls asserts model g)

/-- What dropping the program's graph frees, if the graph for single tokens was built. -/
def dropHandled : Option DecodeHandles → Handled GgmlHandle Unit
  | none => pure ()
  | some d => freeAll d.all

variable {G calls asserts model}

/-! ## What opening does -/

/-- The buffer and both contexts are there. -/
def Opened (calls : GgmlCalls X) : Prop :=
  calls.inpBuf = true ∧ calls.inpCtx = true ∧ calls.graphCtx = true

/-- The first steps of both graphs, without handles. -/
def opening (calls : GgmlCalls X) (noBuf noInpCtx noCtx : String) : Outcome String Unit := do
  ensure calls.inpBuf noBuf
  ensure calls.inpCtx noInpCtx
  ensure calls.graphCtx noCtx

/-- Opening fails with everything freed, or goes on holding a buffer and two contexts. -/
theorem openGraph_run {α : Type} (calls : GgmlCalls X) (fail : String → α)
    (noBuf noInpCtx noCtx : String)
    (k : Handle GgmlHandle → Handle GgmlHandle → Handle GgmlHandle → Handled GgmlHandle α)
    (l : Ledger GgmlHandle) :
    (¬ Opened calls ∧ ∃ msg l', opening calls noBuf noInpCtx noCtx = .err msg ∧
      (openGraph calls fail noBuf noInpCtx noCtx k).run l = some (fail msg, l') ∧
      l'.live = l.live) ∨
    (Opened calls ∧ ∃ inpBuf inpCtx ctx l', l.Holds l' [ctx, inpCtx, inpBuf] ∧
      (openGraph calls fail noBuf noInpCtx noCtx k).run l = (k inpBuf inpCtx ctx).run l') := by
  unfold openGraph opening Opened
  cases hbuf : calls.inpBuf with
  | false => exact Or.inl ⟨by simp, noBuf, l, by simp [ensure], rfl, rfl⟩
  | true =>
    have hholds := (Ledger.Holds.refl l).acquire GgmlHandle.buffer
    cases hinp : calls.inpCtx with
    | false =>
      obtain ⟨l', hrun, hlive⟩ := hholds.exists_run_freeAll (List.Perm.refl _)
      refine Or.inl ⟨by simp, noInpCtx, l', by simp [ensure], ?_, hlive⟩
      simp [hrun]
    | true =>
      have hholds := hholds.acquire GgmlHandle.context
      cases hctx : calls.graphCtx with
      | false =>
        obtain ⟨l', hrun, hlive⟩ := hholds.exists_run_freeAll (List.Perm.refl _)
        refine Or.inl ⟨by simp, noCtx, l', by simp [ensure], ?_, hlive⟩
        simp [hrun]
      | true =>
        have hholds := hholds.acquire GgmlHandle.context
        refine Or.inr ⟨⟨rfl, rfl, rfl⟩, _, _, _, _, hholds, ?_⟩
        simp

theorem opening_eq_ok {noBuf noInpCtx noCtx : String} (h : Opened calls) :
    opening calls noBuf noInpCtx noCtx = .ok () := by
  simp [opening, ensure, h.1, h.2.1, h.2.2]

theorem opening_bind {α : Type} (noBuf noInpCtx noCtx : String) (f : Outcome String α) :
    (do
      ensure calls.inpBuf noBuf
      ensure calls.inpCtx noInpCtx
      ensure calls.graphCtx noCtx
      f) = opening calls noBuf noInpCtx noCtx >>= fun _ => f := by
  unfold opening ensure
  cases calls.inpBuf with
  | false => rfl
  | true =>
    cases calls.inpCtx with
    | false => rfl
    | true => cases calls.graphCtx <;> rfl

/-- A batch opens its graph, and goes on. -/
theorem forwardGraph_eq_opening (calls : GgmlCalls X) (model : MappedModel W)
    (g : LlamaGraph X W F) (n : ℕ) :
    forwardGraph calls model g n =
      opening calls "[Z.1 Graph] ggml_backend_alloc_buffer failed"
        "[Z.1 Graph] inp_ctx alloc failed" "[Z.1 Graph] graph ctx alloc failed" >>= fun _ => do
      let tokenEmbd ← model.require "token_embd.weight"
      ensure (g.kv.head + n ≤ g.kv.nCtx)
        s!"[Z.1 Graph] KV cache overflow: {g.kv.head + n} > {g.kv.nCtx}"
      let (layers, outputNorm, output) ← model.laterWeights g.hp.nLayer
      ensure calls.galloc "[Z.1 Graph] gallocr_new failed"
      ensure calls.allocGraph "[Z.1 Graph] gallocr_alloc_graph failed"
      return { tokenEmbd, layers, outputNorm, output } := by
  simp only [forwardGraph, opening_bind, ← model.bind_laterWeights]

/-- So does the graph for single tokens. -/
theorem buildDecodeGraph_eq_opening (g : LlamaGraph X W F) :
    buildDecodeGraph calls model g =
      opening calls "[Z.1 Decode] input buffer alloc failed" "[Z.1 Decode] inp_ctx alloc failed"
        "[Z.1 Decode] graph ctx alloc failed" >>= fun _ => do
      let tokenEmbd ← model.require "token_embd.weight"
      let (layers, outputNorm, output) ← model.laterWeights g.hp.nLayer
      ensure calls.galloc "[Z.1 Decode] gallocr_new failed"
      ensure calls.allocGraph "[Z.1 Decode] gallocr_alloc_graph failed"
      return { tokenEmbd, layers, outputNorm, output } := by
  simp only [buildDecodeGraph, opening_bind, ← model.bind_laterWeights]

/-! ## A batch -/

/-- A required tensor is missing where the batch has its buffer and contexts in hand. -/
def ForwardLeaks (calls : GgmlCalls X) (model : MappedModel W) (g : LlamaGraph X W F) (n : ℕ) :
    Prop :=
  Opened calls ∧ (¬ model.Has "token_embd.weight" ∨
    (g.kv.head + n ≤ g.kv.nCtx ∧ ∃ name ∈ laterTensorNames g.hp.nLayer, ¬ model.Has name))

/-- An assertion that a batch comes to does not hold: about an operand, or, if the batch fits the
cache, about the room for its layers, its computation or its logits. -/
def ForwardAborts (calls : GgmlCalls X) (asserts : GgmlAsserts) (g : LlamaGraph X W F) (n : ℕ) :
    Prop :=
  Opened calls ∧ (asserts.operands "token_embd.weight" = false ∨ (g.kv.head + n ≤ g.kv.nCtx ∧
    (177 < g.hp.nLayer ∨ (∃ name ∈ laterTensorNames g.hp.nLayer, asserts.operands name = false) ∨
      (calls.galloc = true ∧ calls.allocGraph = true ∧ (asserts.computation = false ∨
        (calls.status = 0 ∧ asserts.logits = false))))))

/-- Where nothing aborts, the embedding is looked up as it is. -/
theorem operands_of_not_forwardAborts {g : LlamaGraph X W F} {n : ℕ} (hopen : Opened calls)
    (h : ¬ ForwardAborts calls asserts g n) : asserts.operands "token_embd.weight" = true := by
  by_contra hfails
  exact h ⟨hopen, Or.inl (Bool.not_eq_true _ ▸ hfails)⟩

/-- So are the later tensors of a batch that fits. -/
theorem laterWeightsIn_of_not_forwardAborts {g : LlamaGraph X W F} {n : ℕ} (hopen : Opened calls)
    (hfits : g.kv.head + n ≤ g.kv.nCtx) (h : ¬ ForwardAborts calls asserts g n) :
    model.laterWeightsIn forwardNodes asserts g.hp.nLayer = model.laterWeights g.hp.nLayer := by
  refine MappedModel.laterWeightsIn_of_le ((GraphNodes.total_forwardNodes_le_iff _).mpr ?_) ?_
  · exact Nat.not_lt.mp fun hlt => h ⟨hopen, Or.inr ⟨hfits, Or.inl hlt⟩⟩
  · intro name hname
    by_contra hfails
    exact h ⟨hopen, Or.inr ⟨hfits, Or.inr (Or.inl ⟨name, hname, Bool.not_eq_true _ ▸ hfails⟩)⟩⟩

/-- And an allocated graph is computed, and its logits are read. -/
theorem computes_of_not_forwardAborts {g : LlamaGraph X W F} {n : ℕ} (hopen : Opened calls)
    (hfits : g.kv.head + n ≤ g.kv.nCtx) (h : ¬ ForwardAborts calls asserts g n)
    (hgalloc : calls.galloc = true) (halloc : calls.allocGraph = true) :
    asserts.computation = true ∧ (calls.status = 0 → asserts.logits = true) := by
  by_contra hfails
  rw [not_and_or, Classical.not_imp, Bool.not_eq_true, Bool.not_eq_true] at hfails
  exact h ⟨hopen, Or.inr ⟨hfits, Or.inr (Or.inr ⟨hgalloc, halloc, hfails⟩)⟩⟩

/-- A batch leaks nothing where the embedding is there, and the later tensors if it fits. -/
theorem not_forwardLeaks_of_has {g : LlamaGraph X W F} {n : ℕ}
    (hembd : model.Has "token_embd.weight")
    (hlater : g.kv.head + n ≤ g.kv.nCtx →
      ∀ name ∈ laterTensorNames g.hp.nLayer, model.Has name) :
    ¬ ForwardLeaks calls model g n := by
  rintro ⟨-, hmissing | ⟨hfits, name, hname, hmissing⟩⟩
  · exact hmissing hembd
  · exact hmissing (hlater hfits name hname)

variable (G)

theorem forward_of_err (pos : ℤ) {tokens : List TokenId} {g : LlamaGraph X W F} {e : String}
    (h : forwardGraph calls model g tokens.length = .err e) :
    forward G calls model tokens pos g = (.err e, g) := by
  rw [forward, h]

/-- Once the graph is built, everything is freed. -/
theorem computeHandled_run (pos : ℤ) {w : Weights W} {tokens : List TokenId}
    {g : LlamaGraph X W F} {inpBuf inpCtx ctx : Handle GgmlHandle} {l l' : Ledger GgmlHandle}
    (hholds : l.Holds l' [ctx, inpCtx, inpBuf])
    (hcomputes : calls.galloc = true → calls.allocGraph = true →
      asserts.computation = true ∧ (calls.status = 0 → asserts.logits = true))
    (hw : forwardGraph calls model g tokens.length = do
      ensure calls.galloc "[Z.1 Graph] gallocr_new failed"
      ensure calls.allocGraph "[Z.1 Graph] gallocr_alloc_graph failed"
      return w) :
    ∃ l'', (computeHandled G calls asserts w tokens pos g inpBuf inpCtx ctx).run l' =
        some (forward G calls model tokens pos g, l'') ∧
      ((forward G calls model tokens pos g).1 ≠ .panic → l''.live = l.live) := by
  unfold computeHandled forward
  rw [hw]
  cases hgalloc : calls.galloc with
  | false =>
    obtain ⟨l'', hrun, hlive⟩ := hholds.exists_run_freeAll_pure (List.Perm.refl _)
      ((.err "[Z.1 Graph] gallocr_new failed", g) :
        Outcome String (List F) × LlamaGraph X W F)
    exact ⟨l'', hrun, fun _ => hlive⟩
  | true =>
    have hholds := hholds.acquire GgmlHandle.gallocr
    simp only [ensure, not_true_eq_false, if_false, if_true, Outcome.ok_bind, StateT.run_bind,
      run_acquire, Option.bind_eq_bind, Option.bind_some]
    cases halloc : calls.allocGraph with
    | false =>
      obtain ⟨l'', hrun, hlive⟩ := hholds.exists_run_freeAll_pure (List.Perm.refl _)
        ((.err "[Z.1 Graph] gallocr_alloc_graph failed", g) :
          Outcome String (List F) × LlamaGraph X W F)
      exact ⟨l'', hrun, fun _ => hlive⟩
    | true =>
      obtain ⟨hcomputation, hlogits⟩ := hcomputes hgalloc halloc
      simp only [hcomputation]
      by_cases hstatus : calls.status = 0
      · simp only [not_true_eq_false, if_false, if_true, Outcome.ok_bind, hstatus, ne_eq,
          hlogits hstatus]
        cases hlast : (batchCache G w g.kv g.hp tokens pos).2.getLast? with
        | none => exact ⟨_, by simp [hlast]; rfl, fun h => absurd (by simp [hlast]) h⟩
        | some last =>
          obtain ⟨l'', hrun, hlive⟩ := hholds.exists_run_freeAll_pure (List.Perm.refl _)
            ((.ok (logitsOf G g.hp w last),
              { g with kv := (batchCache G w g.kv g.hp tokens pos).1 }) :
              Outcome String (List F) × LlamaGraph X W F)
          exact ⟨l'', by simpa [hlast] using hrun, fun _ => hlive⟩
      · simp only [not_true_eq_false, if_false, if_true, Outcome.ok_bind, hstatus, ne_eq,
          not_false_eq_true]
        obtain ⟨l'', hrun, hlive⟩ := hholds.exists_run_freeAll_pure (List.Perm.refl _)
          ((.err s!"[Z.1 Graph] compute failed status={calls.status}",
            { g with kv := failedCache calls g.kv tokens.length }) :
            Outcome String (List F) × LlamaGraph X W F)
        exact ⟨l'', hrun, fun _ => hlive⟩

/-- A missing tensor ends a batch with its buffer and contexts in hand; nothing else does, if
nothing aborts. -/
theorem forwardOpened_run (model : MappedModel W) (tokens : List TokenId) (pos : ℤ)
    (g : LlamaGraph X W F) {inpBuf inpCtx ctx : Handle GgmlHandle} {l l' : Ledger GgmlHandle}
    (hopen : Opened calls) (hasserts : ¬ ForwardAborts calls asserts g tokens.length)
    (hholds : l.Holds l' [ctx, inpCtx, inpBuf]) :
    ∃ l'', (forwardOpened G calls asserts model tokens pos g inpBuf inpCtx ctx).run l' =
        some (forward G calls model tokens pos g, l'') ∧
      (ForwardLeaks calls model g tokens.length → l'' = l' ∧ ∃ e,
        forward G calls model tokens pos g = (.err e, g)) ∧
      (¬ ForwardLeaks calls model g tokens.length →
        (forward G calls model tokens pos g).1 ≠ .panic → l''.live = l.live) := by
  have hgraph := forwardGraph_eq_opening calls model g tokens.length
  rw [opening_eq_ok hopen, Outcome.ok_bind] at hgraph
  have hembdIn : model.requireIn asserts "token_embd.weight" = model.require "token_embd.weight" :=
    MappedModel.requireIn_of_operands (operands_of_not_forwardAborts hopen hasserts)
  unfold forwardOpened
  rw [hembdIn]
  rcases model.require_cases "token_embd.weight" with
    ⟨tokenEmbd, hembd, hhas⟩ | ⟨e, hembd, hmissing⟩
  · rw [hembd, Outcome.ok_bind] at hgraph
    rw [hembd]
    by_cases hfits : g.kv.head + tokens.length ≤ g.kv.nCtx
    · rw [ensure, if_pos (decide_eq_true hfits), Outcome.ok_bind] at hgraph
      have hin : model.laterWeightsIn forwardNodes asserts g.hp.nLayer =
          model.laterWeights g.hp.nLayer :=
        laterWeightsIn_of_not_forwardAborts hopen hfits hasserts
      have hcomputes := computes_of_not_forwardAborts hopen hfits hasserts
      simp only [Nat.not_lt.mpr hfits, if_false, hin]
      rcases model.laterWeights_cases g.hp.nLayer with
        ⟨⟨layers, outputNorm, output⟩, hlater, hall⟩ | ⟨e, hlater, hmissing⟩
      · rw [hlater, Outcome.ok_bind] at hgraph
        rw [hlater]
        have hnot : ¬ ForwardLeaks calls model g tokens.length :=
          not_forwardLeaks_of_has hhas fun _ => hall
        obtain ⟨l'', hrun, hlive⟩ := computeHandled_run G pos hholds hcomputes hgraph
        exact ⟨l'', hrun, fun hleaks => absurd hleaks hnot, fun _ => hlive⟩
      · rw [hlater, Outcome.err_bind] at hgraph
        rw [hlater, forward_of_err G pos hgraph]
        have hleaks : ForwardLeaks calls model g tokens.length := ⟨hopen, Or.inr ⟨hfits, hmissing⟩⟩
        exact ⟨l', rfl, fun _ => ⟨rfl, e, rfl⟩, fun hnot => absurd hleaks hnot⟩
    -- A batch that does not fit ends before the later look-ups, with everything freed.
    · have hnot : ¬ ForwardLeaks calls model g tokens.length :=
        not_forwardLeaks_of_has hhas fun hle => absurd hle hfits
      rw [ensure, if_neg (by simpa using hfits), Outcome.err_bind] at hgraph
      rw [forward_of_err G pos hgraph]
      simp only [Nat.not_le.mp hfits, if_true]
      obtain ⟨l'', hrun, hlive⟩ := hholds.exists_run_freeAll_pure (List.Perm.refl _)
        ((.err s!"[Z.1 Graph] KV cache overflow: {g.kv.head + tokens.length} > {g.kv.nCtx}", g) :
          Outcome String (List F) × LlamaGraph X W F)
      exact ⟨l'', hrun, fun hleaks => absurd hleaks hnot, fun _ _ => hlive⟩
  -- The look-up of the embedding returns past every release.
  · rw [hembd, Outcome.err_bind] at hgraph
    rw [hembd, forward_of_err G pos hgraph]
    have hleaks : ForwardLeaks calls model g tokens.length := ⟨hopen, Or.inl hmissing⟩
    exact ⟨l', rfl, fun _ => ⟨rfl, e, rfl⟩, fun hnot => absurd hleaks hnot⟩

/-- A batch returns what it returns without handles, and keeps three of them where it leaks, if
nothing aborts. -/
theorem forwardHandled_run (calls : GgmlCalls X) (model : MappedModel W) (tokens : List TokenId)
    (pos : ℤ) (g : LlamaGraph X W F) (hasserts : ¬ ForwardAborts calls asserts g tokens.length)
    (l : Ledger GgmlHandle) :
    ∃ l', (forwardHandled G calls asserts model tokens pos g).run l =
        some (forward G calls model tokens pos g, l') ∧
      (ForwardLeaks calls model g tokens.length →
        (forward G calls model tokens pos g).1 ≠ .panic ∧ l'.live ≠ l.live) ∧
      (¬ ForwardLeaks calls model g tokens.length →
        (forward G calls model tokens pos g).1 ≠ .panic → l'.live = l.live) := by
  rcases openGraph_run calls
    (fun msg => ((.err msg, g) : Outcome String (List F) × LlamaGraph X W F))
    "[Z.1 Graph] ggml_backend_alloc_buffer failed" "[Z.1 Graph] inp_ctx alloc failed"
    "[Z.1 Graph] graph ctx alloc failed" (forwardOpened G calls asserts model tokens pos g) l with
    ⟨hnot, msg, l', hmsg, hrun, hlive⟩ | ⟨hopen, inpBuf, inpCtx, ctx, l', hholds, hrun⟩
  · refine ⟨l', ?_, fun hleaks => absurd hleaks.1 hnot, fun _ _ => hlive⟩
    have hgraph : forwardGraph calls model g tokens.length = .err msg := by
      rw [forwardGraph_eq_opening, hmsg, Outcome.err_bind]
    rw [forward_of_err G pos hgraph]
    exact hrun
  · obtain ⟨l'', hrun', hleak, hkeep⟩ :=
      forwardOpened_run G model tokens pos g hopen hasserts hholds
    refine ⟨l'', hrun.trans hrun', fun hleaks => ?_, hkeep⟩
    obtain ⟨rfl, e, hforward⟩ := hleak hleaks
    rw [hforward]
    exact ⟨by simp, hholds.live_ne (by simp)⟩

/-- Where an assertion does not hold, a batch aborts, or ends at a missing tensor with its buffer
and contexts in hand. -/
theorem forwardHandled_of_aborts (model : MappedModel W) (tokens : List TokenId) (pos : ℤ)
    {g : LlamaGraph X W F} (haborts : ForwardAborts calls asserts g tokens.length)
    (l : Ledger GgmlHandle) :
    ∃ res l', (forwardHandled G calls asserts model tokens pos g).run l = some ((res, g), l') ∧
      (res = .panic ∨ l'.live ≠ l.live) := by
  obtain ⟨hopen, haborts⟩ := haborts
  rcases openGraph_run calls
    (fun msg => ((.err msg, g) : Outcome String (List F) × LlamaGraph X W F))
    "[Z.1 Graph] ggml_backend_alloc_buffer failed" "[Z.1 Graph] inp_ctx alloc failed"
    "[Z.1 Graph] graph ctx alloc failed" (forwardOpened G calls asserts model tokens pos g) l with
    ⟨hnot, -⟩ | ⟨-, inpBuf, inpCtx, ctx, l', hholds, hrun⟩
  · exact absurd hopen hnot
  rw [forwardHandled, hrun, forwardOpened]
  have hleft : l'.live ≠ l.live := hholds.live_ne (by simp)
  cases hembd : model.requireIn asserts "token_embd.weight" with
  | err e => exact ⟨_, l', rfl, Or.inr hleft⟩
  | panic => exact ⟨_, l', rfl, Or.inl rfl⟩
  | ok tokenEmbd =>
    -- A built graph leaves the assertions of the computation.
    obtain ⟨hfits, hlater⟩ := haborts.resolve_left
      (by simp [MappedModel.operands_of_requireIn hembd])
    simp only [Nat.not_lt.mpr hfits, if_false]
    cases hok : model.laterWeightsIn forwardNodes asserts g.hp.nLayer with
    | err e => exact ⟨_, l', rfl, Or.inr hleft⟩
    | panic => exact ⟨_, l', rfl, Or.inl rfl⟩
    | ok w =>
      obtain ⟨hroom, hoperands⟩ := MappedModel.laterWeightsIn_eq_ok hok
      rcases hlater with hlarge | ⟨name, hname, hfails⟩ | ⟨hgalloc, halloc, hfails⟩
      · exact absurd ((GraphNodes.total_forwardNodes_le_iff _).mp hroom) (Nat.not_le.mpr hlarge)
      · exact absurd (hoperands name hname) (by simp [hfails])
      · exact ⟨.panic, l'.add .gallocr, by
          rcases hfails with hfails | ⟨hstatus, hfails⟩
          · simp [computeHandled, hgalloc, halloc, hfails]
          · simp [computeHandled, hgalloc, halloc, hstatus, hfails], Or.inl rfl⟩

variable {G}

/-! ## The graph for single tokens -/

/-- A required tensor is missing where the graph has its buffer and contexts in hand. -/
def BuildLeaks (calls : GgmlCalls X) (model : MappedModel W) (g : LlamaGraph X W F) : Prop :=
  Opened calls ∧ ∃ name ∈ "token_embd.weight" :: laterTensorNames g.hp.nLayer, ¬ model.Has name

/-- An assertion that the graph comes to does not hold: about the room for its layers, or about an
operand. -/
def BuildAborts (calls : GgmlCalls X) (asserts : GgmlAsserts) (g : LlamaGraph X W F) : Prop :=
  Opened calls ∧ (390 < g.hp.nLayer ∨
    ∃ name ∈ "token_embd.weight" :: laterTensorNames g.hp.nLayer, asserts.operands name = false)

/-- Nothing is kept of a graph that was not built, and of one that was exactly its fields. -/
def Released (l l' : Ledger GgmlHandle) : Outcome String (Weights W × DecodeHandles) → Prop
  | .ok (_, d) => l.Holds l' d.all
  | .err _ => l'.live = l.live
  | .panic => False

theorem operands_of_not_buildAborts {g : LlamaGraph X W F} (hopen : Opened calls)
    (h : ¬ BuildAborts calls asserts g) :
    ∀ name ∈ "token_embd.weight" :: laterTensorNames g.hp.nLayer,
      asserts.operands name = true := by
  intro name hname
  by_contra hfails
  exact h ⟨hopen, Or.inr ⟨name, hname, Bool.not_eq_true _ ▸ hfails⟩⟩

theorem laterWeightsIn_of_not_buildAborts {g : LlamaGraph X W F} (hopen : Opened calls)
    (h : ¬ BuildAborts calls asserts g) :
    model.laterWeightsIn decodeNodes asserts g.hp.nLayer = model.laterWeights g.hp.nLayer := by
  have hlayers : g.hp.nLayer ≤ 390 := Nat.not_lt.mp fun hlt => h ⟨hopen, Or.inl hlt⟩
  refine MappedModel.laterWeightsIn_of_le ((GraphNodes.total_decodeNodes_le_iff _).mpr hlayers) ?_
  exact fun name hname =>
    operands_of_not_buildAborts hopen h name (List.mem_cons_of_mem _ hname)

theorem buildDecodeOpened_run (model : MappedModel W) (g : LlamaGraph X W F)
    {inpBuf inpCtx ctx : Handle GgmlHandle} {l l' : Ledger GgmlHandle} (hopen : Opened calls)
    (hasserts : ¬ BuildAborts calls asserts g) (hholds : l.Holds l' [ctx, inpCtx, inpBuf]) :
    ∃ res l'', (buildDecodeOpened calls asserts model g inpBuf inpCtx ctx).run l' =
        some (res, l'') ∧
      Prod.fst <$> res = buildDecodeGraph calls model g ∧
      (BuildLeaks calls model g → l'' = l' ∧ ∃ e, res = .err e) ∧
      (¬ BuildLeaks calls model g → Released l l'' res) := by
  have hoperands := operands_of_not_buildAborts hopen hasserts
  unfold buildDecodeOpened
  rw [buildDecodeGraph_eq_opening, opening_eq_ok hopen, Outcome.ok_bind,
    laterWeightsIn_of_not_buildAborts hopen hasserts,
    MappedModel.requireIn_of_operands (hoperands _ List.mem_cons_self)]
  rcases model.require_cases "token_embd.weight" with
    ⟨tokenEmbd, hembd, hhas⟩ | ⟨e, hembd, hmissing⟩
  · rcases model.laterWeights_cases g.hp.nLayer with
      ⟨⟨layers, outputNorm, output⟩, hlater, hall⟩ | ⟨e, hlater, name, hname, hmissing⟩
    · rw [hembd, hlater]
      have hnot : ¬ BuildLeaks calls model g := by
        rintro ⟨-, name, hname, hmissing⟩
        exact hmissing (List.forall_mem_cons.mpr ⟨hhas, hall⟩ name hname)
      simp only [Outcome.ok_bind, ensure]
      cases hgalloc : calls.galloc with
      | false =>
        -- The contexts are freed in the order in which they were made.
        have hperm : [inpCtx, ctx, inpBuf].Perm [ctx, inpCtx, inpBuf] := List.Perm.swap _ _ _
        obtain ⟨l'', hrun, hlive⟩ := hholds.exists_run_freeAll_pure hperm
          (.err "[Z.1 Decode] gallocr_new failed" : Outcome String (Weights W × DecodeHandles))
        exact ⟨_, l'', hrun, rfl, fun hleaks => absurd hleaks hnot, fun _ => hlive⟩
      | true =>
        have hholds := hholds.acquire GgmlHandle.gallocr
        cases halloc : calls.allocGraph with
        | false =>
          have hperm : [(.gallocr, l'.next), inpCtx, ctx, inpBuf].Perm
              [(.gallocr, l'.next), ctx, inpCtx, inpBuf] :=
            (List.Perm.swap _ _ _).cons _
          obtain ⟨l'', hrun, hlive⟩ := hholds.exists_run_freeAll_pure hperm
            (.err "[Z.1 Decode] gallocr_alloc_graph failed" :
              Outcome String (Weights W × DecodeHandles))
          exact ⟨_, l'', hrun, rfl, fun hleaks => absurd hleaks hnot, fun _ => hlive⟩
        | true => exact ⟨_, _, rfl, rfl, fun hleaks => absurd hleaks hnot, fun _ => hholds⟩
    · have hleaks : BuildLeaks calls model g :=
        ⟨hopen, name, List.mem_cons_of_mem _ hname, hmissing⟩
      rw [hembd, hlater]
      exact ⟨.err e, l', rfl, rfl, fun _ => ⟨rfl, e, rfl⟩, fun hnot => absurd hleaks hnot⟩
  · have hleaks : BuildLeaks calls model g := ⟨hopen, _, List.mem_cons_self, hmissing⟩
    rw [hembd]
    exact ⟨.err e, l', rfl, rfl, fun _ => ⟨rfl, e, rfl⟩, fun hnot => absurd hleaks hnot⟩

/-- The graph is built as it is without handles, and keeps three of them where it leaks, if nothing
aborts. -/
theorem buildDecodeHandled_run (calls : GgmlCalls X) (model : MappedModel W) (g : LlamaGraph X W F)
    (hasserts : ¬ BuildAborts calls asserts g) (l : Ledger GgmlHandle) :
    ∃ res l', (buildDecodeHandled calls asserts model g).run l = some (res, l') ∧
      Prod.fst <$> res = buildDecodeGraph calls model g ∧
      (BuildLeaks calls model g → (∃ e, res = .err e) ∧ l'.live ≠ l.live) ∧
      (¬ BuildLeaks calls model g → Released l l' res) := by
  rcases openGraph_run calls (.err : String → Outcome String (Weights W × DecodeHandles))
    "[Z.1 Decode] input buffer alloc failed" "[Z.1 Decode] inp_ctx alloc failed"
    "[Z.1 Decode] graph ctx alloc failed" (buildDecodeOpened calls asserts model g) l with
    ⟨hnot, msg, l', hmsg, hrun, hlive⟩ | ⟨hopen, inpBuf, inpCtx, ctx, l', hholds, hrun⟩
  · refine ⟨.err msg, l', hrun, ?_, fun hleaks => absurd hleaks.1 hnot, fun _ => hlive⟩
    rw [buildDecodeGraph_eq_opening, hmsg, Outcome.err_bind]
    rfl
  · obtain ⟨res, l'', hrun', hres, hleak, hkeep⟩ :=
      buildDecodeOpened_run model g hopen hasserts hholds
    refine ⟨res, l'', hrun.trans hrun', hres, fun hleaks => ?_, hkeep⟩
    obtain ⟨rfl, e, herr⟩ := hleak hleaks
    exact ⟨⟨e, herr⟩, hholds.live_ne (by simp)⟩

/-- Where an assertion does not hold the graph is not built: that aborts, or ends at a missing
tensor with a buffer and two contexts in hand. -/
theorem buildDecodeHandled_of_aborts (model : MappedModel W) {g : LlamaGraph X W F}
    (haborts : BuildAborts calls asserts g) (l : Ledger GgmlHandle) :
    ∃ res l', (buildDecodeHandled calls asserts model g).run l = some (res, l') ∧
      (res = .panic ∨ (∃ e, res = .err e) ∧ l'.live ≠ l.live) := by
  obtain ⟨hopen, haborts⟩ := haborts
  rcases openGraph_run calls (.err : String → Outcome String (Weights W × DecodeHandles))
    "[Z.1 Decode] input buffer alloc failed" "[Z.1 Decode] inp_ctx alloc failed"
    "[Z.1 Decode] graph ctx alloc failed" (buildDecodeOpened calls asserts model g) l with
    ⟨hnot, -⟩ | ⟨-, inpBuf, inpCtx, ctx, l', hholds, hrun⟩
  · exact absurd hopen hnot
  rw [buildDecodeHandled, hrun, buildDecodeOpened]
  have hleft : l'.live ≠ l.live := hholds.live_ne (by simp)
  cases hembd : model.requireIn asserts "token_embd.weight" with
  | err e => exact ⟨_, l', rfl, Or.inr ⟨⟨e, rfl⟩, hleft⟩⟩
  | panic => exact ⟨_, l', rfl, Or.inl rfl⟩
  | ok tokenEmbd =>
    dsimp only
    cases hok : model.laterWeightsIn decodeNodes asserts g.hp.nLayer with
    | err e => exact ⟨_, l', rfl, Or.inr ⟨⟨e, rfl⟩, hleft⟩⟩
    | panic => exact ⟨_, l', rfl, Or.inl rfl⟩
    | ok w =>
      obtain ⟨hroom, hoperands⟩ := MappedModel.laterWeightsIn_eq_ok hok
      rcases haborts with hlarge | ⟨name, hname, hfails⟩
      · exact absurd ((GraphNodes.total_decodeNodes_le_iff _).mp hroom) (Nat.not_le.mpr hlarge)
      · rcases List.mem_cons.mp hname with rfl | hname
        · exact absurd (MappedModel.operands_of_requireIn hembd) (by simp [hfails])
        · exact absurd (hoperands name hname) (by simp [hfails])

/-! ## What is kept -/

variable (G calls asserts model)

/-- A batch returns, and leaves the handles that were live before it. -/
def ForwardKeepsHandles (tokens : List TokenId) (pos : ℤ) (g : LlamaGraph X W F)
    (l : Ledger GgmlHandle) : Prop :=
  ∃ res l', (forwardHandled G calls asserts model tokens pos g).run l = some (res, l') ∧
    res = forward G calls model tokens pos g ∧ res.1 ≠ .panic ∧ l'.live = l.live

/-- Building the graph for single tokens returns. It leaves nothing when it fails, and else the
handles in its fields, which are freed when the graph is dropped. -/
def BuildKeepsHandles (g : LlamaGraph X W F) (l : Ledger GgmlHandle) : Prop :=
  ∃ res l', (buildDecodeHandled calls asserts model g).run l = some (res, l') ∧
    Prod.fst <$> res = buildDecodeGraph calls model g ∧ res ≠ .panic ∧
    ((∃ e, res = .err e) → l'.live = l.live) ∧
    ∀ w d, res = .ok (w, d) → l.Holds l' d.all ∧
      ∃ l'', (dropHandled (some d)).run l' = some ((), l'') ∧ l''.live = l.live

variable {G calls asserts model}

theorem forwardKeepsHandles_iff {tokens : List TokenId} (hne : tokens ≠ []) {pos : ℤ}
    {g : LlamaGraph X W F} {l : Ledger GgmlHandle} :
    ForwardKeepsHandles G calls asserts model tokens pos g l ↔
      ¬ ForwardLeaks calls model g tokens.length ∧
        ¬ ForwardAborts calls asserts g tokens.length := by
  constructor
  · rintro ⟨res, l', hrun, hres, hreturns, hlive⟩
    have hasserts : ¬ ForwardAborts calls asserts g tokens.length := by
      intro haborts
      obtain ⟨res', l'', hrun', hbad⟩ := forwardHandled_of_aborts G model tokens pos haborts l
      rw [hrun] at hrun'
      cases hrun'
      exact hbad.elim hreturns (absurd hlive)
    refine ⟨fun hleaks => ?_, hasserts⟩
    obtain ⟨l'', hrun', hleak, -⟩ := forwardHandled_run G calls model tokens pos g hasserts l
    rw [hrun] at hrun'
    cases hrun'
    exact (hleak hleaks).2 hlive
  · rintro ⟨hnot, hasserts⟩
    obtain ⟨l', hrun, -, hkeep⟩ := forwardHandled_run G calls model tokens pos g hasserts l
    have hreturns : (forward G calls model tokens pos g).1 ≠ .panic := forward_ne_panic hne pos
    exact ⟨_, l', hrun, rfl, hreturns, hkeep hnot hreturns⟩

theorem Released.dropped {l l' : Ledger GgmlHandle} {w : Weights W} {d : DecodeHandles}
    (h : Released l l' (.ok (w, d))) :
    ∃ l'', (dropHandled (some d)).run l' = some ((), l'') ∧ l''.live = l.live :=
  Ledger.Holds.exists_run_freeAll h (List.Perm.refl _)

theorem buildKeepsHandles_iff {g : LlamaGraph X W F} {l : Ledger GgmlHandle} :
    BuildKeepsHandles calls asserts model g l ↔
      ¬ BuildLeaks calls model g ∧ ¬ BuildAborts calls asserts g := by
  constructor
  · rintro ⟨res, l', hrun, -, hreturns, herr, -⟩
    have hasserts : ¬ BuildAborts calls asserts g := by
      intro haborts
      obtain ⟨res', l'', hrun', hbad⟩ := buildDecodeHandled_of_aborts model haborts l
      rw [hrun] at hrun'
      cases hrun'
      exact hbad.elim hreturns fun hleft => hleft.2 (herr hleft.1)
    refine ⟨fun hleaks => ?_, hasserts⟩
    obtain ⟨res', l'', hrun', -, hleak, -⟩ := buildDecodeHandled_run calls model g hasserts l
    rw [hrun] at hrun'
    cases hrun'
    obtain ⟨hfailed, hdiff⟩ := hleak hleaks
    exact hdiff (herr hfailed)
  · rintro ⟨hnot, hasserts⟩
    obtain ⟨res, l', hrun, hres, -, hkeep⟩ := buildDecodeHandled_run calls model g hasserts l
    refine ⟨res, l', hrun, hres, ?_, ?_, ?_⟩
    · rintro rfl
      exact hkeep hnot
    · rintro ⟨e, rfl⟩
      exact hkeep hnot
    · rintro w d rfl
      exact ⟨hkeep hnot, (hkeep hnot).dropped⟩

/-- Handles are kept as they should be exactly where no missing tensor ends a request that has its
buffer and contexts in hand, and no assertion aborts it. -/
theorem handles_released_iff {tokens : List TokenId} (hne : tokens ≠ []) (pos : ℤ)
    (g : LlamaGraph X W F) (l : Ledger GgmlHandle) :
    (ForwardKeepsHandles G calls asserts model tokens pos g l ↔
      ¬ ForwardLeaks calls model g tokens.length ∧
        ¬ ForwardAborts calls asserts g tokens.length) ∧
    (BuildKeepsHandles calls asserts model g l ↔
      ¬ BuildLeaks calls model g ∧ ¬ BuildAborts calls asserts g) :=
  ⟨forwardKeepsHandles_iff hne, buildKeepsHandles_iff⟩

/-- A new graph of `n` layers. -/
def ofLayers (n : ℕ) : LlamaGraph Unit Unit Unit :=
  ⟨{ unitHparams with nLayer := n }, KVCache.new unitGgml 512, none⟩

/-- Of a model with all its tensors, handles are kept as they should be up to 177 layers in a batch
and up to 390 in the graph for single tokens, if the operands go together. -/
theorem handles_released_iff_ofLayers :
    ForwardKeepsHandles unitGgml (.succeed unitGgml) .hold (.const ()) [5] 0 (ofLayers 177) .empty ∧
      ¬ ForwardKeepsHandles unitGgml (.succeed unitGgml) .hold (.const ()) [5] 0 (ofLayers 178)
        .empty ∧
      ¬ ForwardKeepsHandles unitGgml (.succeed unitGgml) ⟨(· ≠ "output.weight"), true, true⟩
        (.const ()) [5] 0 (ofLayers 177) .empty ∧
      BuildKeepsHandles (.succeed unitGgml) .hold (.const ()) (ofLayers 390) .empty ∧
      ¬ BuildKeepsHandles (.succeed unitGgml) .hold (.const ()) (ofLayers 391) .empty := by
  have hhas : ∀ name, MappedModel.Has (.const ()) name := fun _ => Option.some_ne_none ()
  have hiff : ∀ asserts n,
      (ForwardKeepsHandles unitGgml (.succeed unitGgml) asserts (.const ()) [5] 0 (ofLayers n)
          .empty ↔ ¬ ForwardLeaks (.succeed unitGgml) (.const ()) (ofLayers n) 1 ∧
          ¬ ForwardAborts (.succeed unitGgml) asserts (ofLayers n) 1) ∧
      (BuildKeepsHandles (.succeed unitGgml) asserts (.const ()) (ofLayers n) .empty ↔
        ¬ BuildLeaks (.succeed unitGgml) (.const ()) (ofLayers n) ∧
          ¬ BuildAborts (.succeed unitGgml) asserts (ofLayers n)) := fun asserts n =>
    handles_released_iff (List.cons_ne_nil _ _) 0 (ofLayers n) .empty
  refine ⟨(hiff _ 177).1.mpr ⟨?_, ?_⟩,
    fun hkeeps => ((hiff _ 178).1.mp hkeeps).2 ⟨⟨rfl, rfl, rfl⟩, Or.inr ⟨by decide, Or.inl ?_⟩⟩,
    fun hkeeps => ((hiff _ 177).1.mp hkeeps).2 ⟨⟨rfl, rfl, rfl⟩, Or.inr ⟨by decide, Or.inr ?_⟩⟩,
    (hiff _ 390).2.mpr ⟨?_, ?_⟩,
    fun hkeeps => ((hiff _ 391).2.mp hkeeps).2 ⟨⟨rfl, rfl, rfl⟩, Or.inl (by decide)⟩⟩
  · rintro ⟨-, hmissing | ⟨-, name, -, hmissing⟩⟩
    · exact hmissing (hhas _)
    · exact hmissing (hhas name)
  · rintro ⟨-, hfails | ⟨-, hlarge | ⟨name, -, hfails⟩ | ⟨-, -, hfails | ⟨-, hfails⟩⟩⟩⟩
    · cases hfails
    · exact absurd hlarge (by decide)
    · cases hfails
    · cases hfails
    · cases hfails
  · decide
  · exact Or.inl ⟨"output.weight", List.mem_append_right _ (by simp), rfl⟩
  · rintro ⟨-, name, -, hmissing⟩
    exact hmissing (hhas name)
  · rintro ⟨-, hlarge | ⟨name, -, hfails⟩⟩
    · exact absurd hlarge (by decide)
    · cases hfails

/-! ## An empty model -/

/-- A model without tensors, and no handle: three are live after a batch of one token, and three
after the graph for single tokens was not built. -/
theorem handles_not_released :
    let model : MappedModel Unit := ⟨fun _ => none⟩
    let g : LlamaGraph Unit Unit Unit := ⟨unitHparams, KVCache.new unitGgml 512, none⟩
    let l : Ledger GgmlHandle := .empty
    LlamaGraph.new true unitGgml unitHparams = .ok g ∧
    (∃ g' l', (forwardHandled unitGgml (.succeed unitGgml) .hold model [5] 0 g).run l =
      some ((.err "token_embd.weight not found", g'), l') ∧
      l'.live = {(.buffer, 0), (.context, 1), (.context, 2)}) ∧
    (∃ l', (buildDecodeHandled (.succeed unitGgml) .hold model g).run l =
      some (.err "token_embd.weight not found", l') ∧
      l'.live = {(.buffer, 0), (.context, 1), (.context, 2)}) ∧
    ¬ ForwardKeepsHandles unitGgml (.succeed unitGgml) .hold model [5] 0 g l ∧
    ¬ BuildKeepsHandles (.succeed unitGgml) .hold model g l := by
  intro model g l
  have hforward : (forwardHandled unitGgml (.succeed unitGgml) .hold model [5] 0 g).run l =
      some ((.err "token_embd.weight not found", g), _) := rfl
  have hbuild : (buildDecodeHandled (.succeed unitGgml) .hold model g).run l =
      some (.err "token_embd.weight not found", _) := rfl
  refine ⟨rfl, ⟨g, _, hforward, by decide⟩, ⟨_, hbuild, by decide⟩, ?_, ?_⟩
  · rintro ⟨res, l', hrun, -, -, hlive⟩
    rw [hforward] at hrun
    cases hrun
    exact absurd hlive (by decide)
  · rintro ⟨res, l', hrun, -, -, herr, -⟩
    rw [hbuild] at hrun
    cases hrun
    exact absurd (herr ⟨_, rfl⟩) (by decide)

end LlamaGraph

end QuantumFlow
