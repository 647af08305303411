import QuantumFlow.Graph.Reset

/-!
# Requests that cannot tell two graphs apart

Two graphs of one model that agree on the rows before their heads may still differ behind them, and
in whether their persistent graph is built. The same request, with the same ggml calls, ends in the
same way in both: it returns the same logits or fails with the same message. Only a decode that has
to build the persistent graph in one of them must be able to build it.
-/

namespace QuantumFlow

variable {X W F : Type}

/-- The calls that build the persistent graph succeed. -/
structure GgmlCalls.Builds (calls : GgmlCalls X) : Prop where
  inpBuf : calls.inpBuf = true
  inpCtx : calls.inpCtx = true
  graphCtx : calls.graphCtx = true
  galloc : calls.galloc = true
  allocGraph : calls.allocGraph = true

/-- Both graphs have their persistent graph, or neither has, or it can be built. -/
def SameBuild (calls : GgmlCalls X) (g₁ g₂ : LlamaGraph X W F) : Prop :=
  g₁.dGraph.isSome = g₂.dGraph.isSome ∨ calls.Builds

theorem builds_succeed (G : Ggml X W F) : (GgmlCalls.succeed G).Builds := ⟨rfl, rfl, rfl, rfl, rfl⟩

namespace LlamaGraph

variable {G : Ggml X W F} {calls : GgmlCalls X} {model : MappedModel W} {g₁ g₂ : LlamaGraph X W F}

theorem forwardGraph_congr (h : Agrees model g₁ g₂) (n : ℕ) :
    forwardGraph calls model g₂ n = forwardGraph calls model g₁ n := by
  simp only [forwardGraph, h.hp, h.head, h.nCtx]

/-- A batch ends alike. -/
theorem forward_congr (h : Agrees model g₁ g₂) (tokens : List TokenId) (pos : ℤ) :
    (g₂.forward G calls model tokens pos).1 = (g₁.forward G calls model tokens pos).1 := by
  unfold forward
  rw [forwardGraph_congr h]
  cases hgraph : forwardGraph calls model g₁ tokens.length with
  | err e => rfl
  | panic => rfl
  | ok w =>
    have hw := (forwardGraph_eq_ok hgraph).2
    have hlast := (batchCache_congr (G := G) hw h tokens pos).1
    dsimp only
    split
    · rfl
    · rw [hlast, h.hp]
      split <;> rfl

theorem prefill_congr (h : Agrees model g₁ g₂) (tokens : List TokenId) :
    (g₂.prefill G calls model tokens).1 = (g₁.prefill G calls model tokens).1 := by
  unfold prefill
  split
  · rfl
  · exact congrArg mapErr (forward_congr h tokens 0)

/-- After a prefill the graphs agree again, and are built as before. -/
theorem agrees_prefill (h : Agrees model g₁ g₂) (tokens : List TokenId) :
    Agrees model (g₁.prefill G calls model tokens).2 (g₂.prefill G calls model tokens).2 ∧
      (g₁.prefill G calls model tokens).2.dGraph = g₁.dGraph ∧
      (g₂.prefill G calls model tokens).2.dGraph = g₂.dGraph := by
  have hsame : (g₂.prefill G calls model tokens).1 = (g₁.prefill G calls model tokens).1 :=
    prefill_congr h tokens
  refine ⟨(agrees_serve (.prefill calls calls tokens) h ?_).2, (hp_prefill tokens).2,
    (hp_prefill tokens).2⟩
  simp only [Request.serve, hsame]

theorem buildDecodeGraph_of_builds (hcalls : calls.Builds) {g : LlamaGraph X W F} {w : Weights W}
    (hw : model.weights g.hp.nLayer = .ok w) : buildDecodeGraph calls model g = .ok w := by
  obtain ⟨hembd, hlayers, hnorm, hout⟩ := MappedModel.weights_eq_ok.mp hw
  simp [buildDecodeGraph, ensure, hcalls.inpBuf, hcalls.inpCtx, hcalls.graphCtx, hcalls.galloc,
    hcalls.allocGraph, hembd, hlayers, hnorm, hout]

/-- The weights that a decode computes with. -/
def built (calls : GgmlCalls X) (model : MappedModel W) (g : LlamaGraph X W F) :
    Outcome String (Weights W) :=
  match g.dGraph with
  | some w => .ok w
  | none => buildDecodeGraph calls model g

theorem built_of_isSome (calls : GgmlCalls X) (hg : g₁.Coherent model)
    (hsome : g₁.dGraph.isSome = true) :
    ∃ w, built calls model g₁ = .ok w ∧ model.weights g₁.hp.nLayer = .ok w := by
  obtain ⟨w, hw⟩ := Option.isSome_iff_exists.mp hsome
  exact ⟨w, by rw [built, hw], hg w hw⟩

/-- A build that fails leaves the graph without its persistent graph. -/
theorem dGraph_of_built (h : ∀ w, built calls model g₁ ≠ .ok w) : g₁.dGraph = none := by
  cases hd : g₁.dGraph with
  | none => rfl
  | some w => exact absurd (by rw [built, hd]) (h w)

theorem built_congr (h : Agrees model g₁ g₂) (hbuild : SameBuild calls g₁ g₂) :
    built calls model g₂ = built calls model g₁ := by
  have hnone : ∀ {g : LlamaGraph X W F}, g.dGraph.isSome = false →
      built calls model g = buildDecodeGraph calls model g := by
    intro g hg
    have hd : g.dGraph = none := by simpa using hg
    rw [built, hd]
  have hsame : buildDecodeGraph calls model g₂ = buildDecodeGraph calls model g₁ := by
    simp only [buildDecodeGraph, h.hp]
  cases h₁ : g₁.dGraph.isSome <;> cases h₂ : g₂.dGraph.isSome
  · rw [hnone h₁, hnone h₂, hsame]
  · obtain ⟨w, hw, hweights⟩ := built_of_isSome calls h.coherent₂ h₂
    have hcalls : calls.Builds := hbuild.resolve_left (by simp [h₁, h₂])
    rw [hw, hnone h₁, ← hsame, buildDecodeGraph_of_builds hcalls hweights]
  · obtain ⟨w, hw, hweights⟩ := built_of_isSome calls h.coherent₁ h₁
    have hcalls : calls.Builds := hbuild.resolve_left (by simp [h₁, h₂])
    rw [hw, hnone h₂, hsame, buildDecodeGraph_of_builds hcalls hweights]
  · obtain ⟨w, hw, hweights⟩ := built_of_isSome calls h.coherent₁ h₁
    obtain ⟨w', hw', hweights'⟩ := built_of_isSome calls h.coherent₂ h₂
    rw [h.hp, hweights] at hweights'
    rw [hw, hw', hweights']

theorem executeDecode_eq (token : TokenId) (g : LlamaGraph X W F) :
    g.executeDecode G calls model token =
      match built calls model g with
      | .err e => (.err e, g)
      | .panic => (.panic, g)
      | .ok w =>
        if g.kv.nCtx ≤ g.kv.head then
          (.err s!"[Z.1 Decode] KV cache full ({g.kv.head}/{g.kv.nCtx})",
            { g with dGraph := some w })
        else if calls.status ≠ 0 then
          (.err s!"[Z.1 Decode] compute failed status={calls.status}", { g with dGraph := some w })
        else
          (.ok (logitsOf G g.hp w (tokenCache G w g.kv g.hp token).2),
            { g with dGraph := some w, kv := (tokenCache G w g.kv g.hp token).1 }) := by
  unfold executeDecode built
  rfl

/-- A decode ends alike, and leaves both graphs built or neither. -/
theorem executeDecode_congr (h : Agrees model g₁ g₂) (hbuild : SameBuild calls g₁ g₂)
    (token : TokenId) :
    (g₂.executeDecode G calls model token).1 = (g₁.executeDecode G calls model token).1 ∧
      (g₁.executeDecode G calls model token).2.dGraph.isSome =
        (g₂.executeDecode G calls model token).2.dGraph.isSome := by
  have hsame := built_congr h hbuild
  rw [executeDecode_eq, executeDecode_eq, hsame]
  cases hbuilt : built calls model g₁ with
  | err e | panic =>
    have h₁ : g₁.dGraph = none := dGraph_of_built fun w hw => by cases hbuilt.symm.trans hw
    have h₂ : g₂.dGraph = none := dGraph_of_built fun w hw => by
      cases (hsame.trans hbuilt).symm.trans hw
    exact ⟨rfl, by rw [h₁, h₂]⟩
  | ok w =>
    have hw : ∀ w', built calls model g₁ = .ok w' → model.weights g₁.hp.nLayer = .ok w' := by
      intro w' hw'
      unfold built at hw'
      split at hw'
      · rename_i hd
        cases hw'
        exact h.coherent₁ _ hd
      · exact weights_of_buildDecodeGraph hw'
    have hlogits := (tokenCache_congr (G := G) (hw w hbuilt) h token).1
    dsimp only
    rw [h.head, h.nCtx]
    split
    · exact ⟨rfl, rfl⟩
    split
    · exact ⟨rfl, rfl⟩
    · rw [hlogits, h.hp]
      exact ⟨rfl, rfl⟩

theorem agrees_decodeOne (h : Agrees model g₁ g₂) (hbuild : SameBuild calls g₁ g₂)
    (token : TokenId) :
    (g₂.decodeOne G calls model token).1 = (g₁.decodeOne G calls model token).1 ∧
      Agrees model (g₁.decodeOne G calls model token).2 (g₂.decodeOne G calls model token).2 ∧
      (g₁.decodeOne G calls model token).2.dGraph.isSome =
        (g₂.decodeOne G calls model token).2.dGraph.isSome := by
  obtain ⟨hres, hsome⟩ := executeDecode_congr (G := G) h hbuild token
  have hsame : (g₂.decodeOne G calls model token).1 = (g₁.decodeOne G calls model token).1 :=
    congrArg mapErr hres
  refine ⟨hsame, (agrees_serve (.decodeOne calls calls token) h ?_).2, hsome⟩
  simp only [Request.serve, hsame]

end LlamaGraph

/-- Two empty graphs of one session agree, whatever their rows. -/
theorem agrees_of_head_eq_zero {model : MappedModel W} {g₁ g₂ : LlamaGraph X W F}
    (hhp : g₂.hp = g₁.hp) (hctx : g₂.kv.nCtx = g₁.kv.nCtx) (hhead₁ : g₁.kv.head = 0)
    (hhead₂ : g₂.kv.head = 0) (h₁ : g₁.Coherent model) (h₂ : g₂.Coherent model) :
    Agrees model g₁ g₂ where
  hp := hhp
  nCtx := hctx
  head := hhead₂.trans hhead₁.symm
  fits := hhead₁ ▸ Nat.zero_le _
  rows := fun _ _ r hr => absurd (hhead₁ ▸ hr) (Nat.not_lt_zero r)
  coherent₁ := h₁
  coherent₂ := h₂

end QuantumFlow
