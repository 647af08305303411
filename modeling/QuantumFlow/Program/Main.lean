import QuantumFlow.Generate.Capacity
import QuantumFlow.Generate.SingleShot
import QuantumFlow.Generate.VocabSizes
import QuantumFlow.Program.CommandLine
import QuantumFlow.Sampling.Logits

/-!
# The program

`main` parses the command line, loads a model, builds the tokenizer and the graph, and runs the
benchmark, a chat or a single prompt. Whatever mode it runs in, every reply that it completes was
sampled with a configuration that passes its checks, keeps to the token limit and to the cache, and
has no end token in it.
-/

namespace QuantumFlow

open Gguf

variable {X F : Type}

def DEFAULT_MODEL : String := "models/Meta-Llama-3.1-8B-Instruct-Q4_K_M.gguf"

/-- 0.7, 0.9, 40 candidates and 1.1. -/
def SamplingConfig.default (ofBits : UInt32 → F) : SamplingConfig F where
  temperature := ofBits 0x3F333333
  topP := ofBits 0x3F666666
  topK := some 40
  repeatPenalty := ofBits 0x3F8CCCCD

/-- What the program meets outside: the model files, floats and slices, the calls of each stage,
and what is typed into a chat. -/
structure Machine (X F : Type) where
  files : String → Option (List UInt8)
  serves : ℕ → ℕ → Bool
  loadCalls : LoadCalls
  backend : Bool
  ggml : Ggml X Tensor F
  ops : FloatOps F
  ofBits : UInt32 → F
  f32FromStr : String → Option F
  slices : SliceOps ℕ
  promptCalls : TurnCalls X
  regressionCalls : TurnCalls X
  speedCalls : ℕ → TurnCalls X
  inputs : List (ChatInput X)

/-- Where a start fails. -/
inductive StartError where
  | unreadable
  | header (e : GgufError)
  | load (e : String)
  | tokenizer (e : String)
  | forward (e : String)

/-- How the program ends: its help, a failed or aborted start, or the results of a mode. -/
inductive Exit where
  | help
  | failed (e : StartError)
  | aborted
  | benched (report : Option BenchReport)
  | chatted (outcomes : List (Option (Outcome GenerateError GenerateStats)))
  | prompted (result : Outcome SingleShotError GenerateStats)
  | idle

def Args.generateConfig (args : Args F) : GenerateConfig where
  contextLen := 4096
  addBos := true
  chatTemplate := !args.noChatTemplate

namespace Machine

variable (m : Machine X F)

/-- The header is read on its own, and once more with the weights. -/
def start (path : String) :
    Outcome StartError (LoadedModel × Tokenizer × LlamaGraph X Tensor F) :=
  match m.files path with
  | none => .err .unreadable
  | some file =>
    match GgufHeader.parse m.serves file with
    | .err e => .err (.header e)
    | .panic => .panic
    | .ok header =>
      match load m.loadCalls m.serves file with
      | .err e => .err (.load e)
      | .panic => .panic
      | .ok model =>
        match buildTokenizer header with
        | .err e => .err (.tokenizer e)
        | .panic => .panic
        | .ok tokenizer =>
          match LlamaGraph.new m.backend m.ggml (.fromModel m.ofBits model.header) with
          | .err e => .err (.forward e)
          | .panic => .panic
          | .ok g => .ok (model, tokenizer, g)

/-- The defaults, where the command line says nothing else. -/
def sampling (args : Args F) : SamplingConfig F :=
  let default := SamplingConfig.default m.ofBits
  { default with
    temperature := args.temperature.getD default.temperature
    topP := args.topP.getD default.topP }

/-- The regression run lowers the temperature to 0.01. -/
def regressionSampling (args : Args F) : SamplingConfig F :=
  { m.sampling args with temperature := m.ofBits 0x3C23D70A }

def engine (args : Args F) (model : LoadedModel) (tokenizer : Tokenizer) : Engine X Tensor F where
  ggml := m.ggml
  model := model.mappedModel
  tokenizer := tokenizer
  sample := sampleToken m.ops m.slices (m.sampling args)
  maxNewTokens := args.maxTokens.getD 512

/-- A benchmark comes before a chat, and a chat before a prompt. -/
def dispatch (args : Args F) (E : Engine X Tensor F) (g : LlamaGraph X Tensor F) : Exit :=
  let cfg := args.generateConfig
  if args.bench then
    .benched (E.runBench cfg (sampleToken m.ops m.slices (m.regressionSampling args))
      m.regressionCalls m.speedCalls g).1
  else if args.chat then
    .chatted (E.chatOutcomes cfg.contextLen m.inputs (.start cfg.contextLen g))
  else
    match args.prompt with
    | some prompt => .prompted (E.generate m.promptCalls cfg prompt g).1
    | none => .idle

def main (raw : List String) : Exit :=
  let args := parseArgs m.f32FromStr raw
  if args.help ∨ (¬ args.chat ∧ ¬ args.bench ∧ args.prompt = none) then .help
  else
    match m.start (args.modelPath.getD DEFAULT_MODEL) with
    | .err e => .failed e
    | .panic => .aborted
    | .ok (model, tokenizer, g) => m.dispatch args (m.engine args model tokenizer) g

end Machine

/-! ## One reply -/

/-- A completed reply keeps to the limits, and ends before an end token. -/
structure Completed (limit nCtx : ℕ) (stats : GenerateStats) : Prop where
  within : stats.generatedTokens ≤ limit
  fits : stats.promptTokens + stats.generatedTokens ≤ nCtx
  length_reply : stats.turn.reply.length = stats.generatedTokens
  noEnd : ∀ token ∈ stats.turn.reply, ¬ Tokenizer.isEos token

namespace Engine

variable {W : Type} {E : Engine X W F} {quiet : Bool} {calls : TurnCalls X}

theorem noEnd_of_decodeLoopInner {left : ℕ} {reply reply' recent : List TokenId}
    {nextToken endToken : TokenId} {out out' : Output} {rng : UInt64} {g g' : LlamaGraph X W F}
    (hreply : ∀ token ∈ reply, ¬ Tokenizer.isEos token)
    (h : E.decodeLoopInner quiet calls left reply out nextToken recent rng g =
      (.ok (reply', endToken, out'), g')) : ∀ token ∈ reply', ¬ Tokenizer.isEos token := by
  induction left generalizing reply out nextToken recent rng g with
  | zero =>
    unfold decodeLoopInner at h
    split at h <;> cases h <;> exact hreply
  | succ left ih =>
    unfold decodeLoopInner at h
    split at h
    · cases h
      exact hreply
    rename_i heos
    dsimp only at h
    split at h
    · cases h
      exact hreply
    split at h
    · cases h
    · cases h
    split at h
    · cases h
    · cases h
    split at h
    · cases h
    · cases h
    · refine ih ?_ h
      intro token htoken
      rcases List.mem_append.mp htoken with hmem | hmem
      · exact hreply token hmem
      · rw [List.mem_singleton.mp hmem]
        exact heos

theorem completed_runGenerationInner {ids : List TokenId} {stats : GenerateStats} {out : Output}
    {g g' : LlamaGraph X W F}
    (h : E.runGenerationInner quiet calls ids g = (.ok (stats, out), g')) :
    Completed E.maxNewTokens g.kv.nCtx stats := by
  obtain ⟨hwithin, hhead, hfits⟩ := (runGenerationInner_fits h).2 _ rfl
  unfold runGenerationInner at h
  split at h
  · cases h
  split at h
  · cases h
  split at h
  · cases h
  · cases h
  split at h
  · cases h
  · cases h
  split at h
  · cases h
  · cases h
  rename_i hloop
  cases h
  dsimp only at hhead
  exact ⟨hwithin, by dsimp only; omega, rfl, noEnd_of_decodeLoopInner (by simp) hloop⟩

/-- A reply is completed only by a sampler that draws. -/
theorem sample_of_runGenerationInner {ids : List TokenId} {r : GenerateStats × Output}
    {g g' : LlamaGraph X W F} (h : E.runGenerationInner quiet calls ids g = (.ok r, g')) :
    ∃ logits recent rng drawn, E.sample logits recent rng = .ok drawn := by
  unfold runGenerationInner at h
  split at h
  · cases h
  split at h
  · cases h
  split at h
  · cases h
  · cases h
  split at h
  · cases h
  · cases h
  · rename_i hsample
    exact ⟨_, _, _, _, hsample⟩

/-! ## The replies of a mode -/

/-- A reply that is completed after some requests. -/
def Generates (E : Engine X W F) (g : LlamaGraph X W F) (stats : GenerateStats) : Prop :=
  ∃ quiet calls ids g' out g'', Served E g g' ∧
    E.runGenerationInner quiet calls ids g' = (.ok (stats, out), g'')

theorem Served.nCtx {g g' : LlamaGraph X W F} (h : Served E g g') : g'.kv.nCtx = g.kv.nCtx := by
  obtain ⟨reqs, rfl⟩ := h
  induction reqs generalizing g with
  | nil => rfl
  | cons req reqs ih => exact ih.trans (nCtx_serve req)

theorem Generates.completed {g : LlamaGraph X W F} {stats : GenerateStats}
    (h : E.Generates g stats) : Completed E.maxNewTokens g.kv.nCtx stats := by
  obtain ⟨quiet, calls, ids, g', out, g'', hserved, hrun⟩ := h
  exact hserved.nCtx ▸ completed_runGenerationInner hrun

theorem Generates.exists_sample {g : LlamaGraph X W F} {stats : GenerateStats}
    (h : E.Generates g stats) :
    ∃ logits recent rng drawn, E.sample logits recent rng = .ok drawn := by
  obtain ⟨quiet, calls, ids, g', out, g'', -, hrun⟩ := h
  exact sample_of_runGenerationInner hrun

theorem Generates.of_served {g g' : LlamaGraph X W F} {stats : GenerateStats}
    (hserved : Served E g g') (h : E.Generates g' stats) : E.Generates g stats := by
  obtain ⟨quiet, calls, ids, g'', out, g₃, hserved', hrun⟩ := h
  exact ⟨quiet, calls, ids, g'', out, g₃, hserved.trans hserved', hrun⟩

theorem generates_of_runGeneration {ids : List TokenId} {stats : GenerateStats}
    {g : LlamaGraph X W F} (h : (E.runGeneration calls ids g).1 = .ok stats) :
    E.Generates g stats := by
  rw [runGeneration_eq_dropText] at h
  rcases hrun : E.runGenerationInner false calls ids g with ⟨⟨stats', out⟩ | e | _, g'⟩ <;>
    rw [hrun] at h <;> cases h
  exact ⟨false, calls, ids, g, out, g', .refl E g, hrun⟩

theorem generates_of_generateTurn {message : String} {turnNumber : ℕ} {stats : GenerateStats}
    {g : LlamaGraph X W F} (h : (E.generateTurn calls message turnNumber g).1 = .ok stats) :
    E.Generates g stats := by
  unfold generateTurn at h
  split at h
  · cases h
  split at h
  · cases h
  · exact generates_of_runGeneration h

theorem generates_of_mem_chatOutcomes {contextLen : ℕ} {inputs : List (ChatInput X)}
    {s : ChatState X W F} {stats : GenerateStats}
    (h : some (.ok stats) ∈ E.chatOutcomes contextLen inputs s) : E.Generates s.graph stats := by
  induction inputs generalizing s with
  | nil => cases h
  | cons input inputs ih =>
    unfold chatOutcomes at h
    rcases List.mem_cons.mp h with hround | hrest
    · unfold roundOutcome at hround
      split at hround
      · exact generates_of_generateTurn (Option.some.inj hround).symm
      · cases hround
    · split at hrest
      · cases hrest
      · rename_i hstep
        exact (ih hrest).of_served (served_chatStep hstep)

theorem generates_of_generate {cfg : GenerateConfig} {prompt : String} {stats : GenerateStats}
    {g : LlamaGraph X W F} (h : (E.generate calls cfg prompt g).1 = .ok stats) :
    E.Generates g stats := by
  unfold generate at h
  split at h
  · cases h
  dsimp only at h
  split at h
  · cases h
  rename_i ids _
  split at h
  · cases h
  split at h
  · cases h
  split at h <;> cases h
  rename_i hrun
  exact (generates_of_runGeneration (congrArg Prod.fst hrun)).of_served (served_resetKv g)

theorem generates_of_speedRun {cfg : GenerateConfig} {stats : GenerateStats} {out : Output}
    {g : LlamaGraph X W F} (h : (E.speedRun cfg calls g).1 = .ok (stats, out)) :
    E.speedEngine.Generates g stats := by
  unfold speedRun at h
  split at h
  · cases h
  · rename_i ids _
    exact ⟨true, calls, ids, g.resetKv, out, _, served_resetKv g, Prod.ext h rfl⟩

theorem generates_of_mem_speedRuns {cfg : GenerateConfig} {speedCalls : List (TurnCalls X)}
    {runs : List (Outcome GenerateError (GenerateStats × Output))} {stats : GenerateStats}
    {out : Output} {g : LlamaGraph X W F} (h : (E.speedRuns cfg speedCalls g).1 = some runs)
    (hmem : .ok (stats, out) ∈ runs) : E.speedEngine.Generates g stats := by
  induction speedCalls generalizing g runs with
  | nil =>
    cases h
    cases hmem
  | cons calls rest ih =>
    have hserved : Served E g (E.speedRun cfg calls g).2 := served_speedRun g
    unfold speedRuns at h
    split at h
    · cases h
    · rename_i hrun
      rw [hrun] at hserved
      split at h
      · cases h
      · rename_i hruns
        cases h
        rcases List.mem_cons.mp hmem with heq | hmem
        · cases heq
        · exact (ih (congrArg Prod.fst hruns) hmem).of_served hserved
    · rename_i hrun
      rw [hrun] at hserved
      split at h
      · cases h
      · rename_i hruns
        cases h
        rcases List.mem_cons.mp hmem with heq | hmem
        · cases heq
          exact generates_of_speedRun (congrArg Prod.fst hrun)
        · exact (ih (congrArg Prod.fst hruns) hmem).of_served hserved

theorem generates_of_runBench {cfg : GenerateConfig} {sample : Sampler F}
    {regressionCalls : TurnCalls X} {speedCalls : ℕ → TurnCalls X}
    {runs : List (Outcome GenerateError (GenerateStats × Output))} {stats : GenerateStats}
    {out : Output} {g : LlamaGraph X W F}
    (h : (E.runBench cfg sample regressionCalls speedCalls g).1 = some (.measured runs))
    (hmem : .ok (stats, out) ∈ runs) : E.speedEngine.Generates g stats := by
  obtain ⟨g₁, hserved, hruns, -⟩ := runBench_eq_measured (Prod.ext h rfl)
  exact (generates_of_mem_speedRuns hruns hmem).of_served hserved

end Engine

/-! ## The replies of the program -/

/-- The replies among the results of a mode. -/
inductive Exit.Completes : Exit → GenerateStats → Prop
  | benched {runs : List (Outcome GenerateError (GenerateStats × Output))} {stats : GenerateStats}
      {out : Output} : .ok (stats, out) ∈ runs → Completes (.benched (some (.measured runs))) stats
  | chatted {outcomes : List (Option (Outcome GenerateError GenerateStats))}
      {stats : GenerateStats} : some (.ok stats) ∈ outcomes → Completes (.chatted outcomes) stats
  | prompted {stats : GenerateStats} : Completes (.prompted (.ok stats)) stats

theorem validate_of_sampleToken {ops : FloatOps F} {slices : SliceOps ℕ} {cfg : SamplingConfig F}
    {logits : List F} {recent : List TokenId} {rng : UInt64} {drawn : TokenId × UInt64}
    (h : sampleToken ops slices cfg logits recent rng = .ok drawn) : cfg.validate ops = .ok () := by
  obtain ⟨id, hid, -⟩ := Outcome.bind_eq_ok.mp h
  obtain ⟨_, hvalid, -⟩ := Outcome.bind_eq_ok.mp hid
  exact hvalid

theorem LlamaGraph.nCtx_of_new {W : Type} {backend : Bool} {G : Ggml X W F} {hp : LlamaHparams F}
    {g : LlamaGraph X W F} (h : LlamaGraph.new backend G hp = .ok g) : g.kv.nCtx = 512 := by
  unfold LlamaGraph.new at h
  split at h
  · cases h
  · split at h <;> cases h
    rfl

namespace Machine

variable {m : Machine X F}

theorem nCtx_of_start {path : String} {model : LoadedModel} {tokenizer : Tokenizer}
    {g : LlamaGraph X Tensor F} (h : m.start path = .ok (model, tokenizer, g)) :
    g.kv.nCtx = 512 := by
  unfold start at h
  split at h
  · cases h
  split at h
  · cases h
  · cases h
  split at h
  · cases h
  · cases h
  split at h
  · cases h
  · cases h
  split at h
  · cases h
  · cases h
  · rename_i hnew
    cases h
    exact LlamaGraph.nCtx_of_new hnew

/-- The limit of the replies of a mode. -/
def replyLimit (args : Args F) : ℕ := if args.bench then 32 else args.maxTokens.getD 512

theorem generates_of_dispatch {args : Args F} {E : Engine X Tensor F} {g : LlamaGraph X Tensor F}
    {stats : GenerateStats} (h : (m.dispatch args E g).Completes stats) :
    if args.bench then E.speedEngine.Generates g stats else E.Generates g stats := by
  unfold dispatch at h
  dsimp only at h
  split at h
  · rename_i hbench
    rw [if_pos hbench]
    generalize hreport : (E.runBench _ _ _ _ g).1 = report at h
    cases h with
    | benched hmem => exact Engine.generates_of_runBench hreport hmem
  rename_i hbench
  rw [if_neg hbench]
  split at h
  · generalize houtcomes : E.chatOutcomes _ _ _ = outcomes at h
    cases h with
    | chatted hmem => exact Engine.generates_of_mem_chatOutcomes (houtcomes ▸ hmem)
  · split at h
    · generalize hresult : (E.generate _ _ _ g).1 = result at h
      cases h
      exact Engine.generates_of_generate hresult
    · cases h

/-- A file that is read, loaded and built starts. -/
theorem start_eq_ok {path : String} {file : List UInt8} {header : GgufHeader} {model : LoadedModel}
    {tokenizer : Tokenizer} {g : LlamaGraph X Tensor F} (hfile : m.files path = some file)
    (hparse : GgufHeader.parse m.serves file = .ok header)
    (hload : load m.loadCalls m.serves file = .ok model)
    (htokenizer : buildTokenizer header = .ok tokenizer)
    (hnew : LlamaGraph.new m.backend m.ggml (.fromModel m.ofBits model.header) = .ok g) :
    m.start path = .ok (model, tokenizer, g) := by
  rw [start, hfile]
  dsimp only
  rw [hparse]
  dsimp only
  rw [hload]
  dsimp only
  rw [htokenizer]
  dsimp only
  rw [hnew]

/-- Once it has started, it does what the arguments ask for. -/
theorem main_eq_dispatch {raw : List String} {model : LoadedModel} {tokenizer : Tokenizer}
    {g : LlamaGraph X Tensor F}
    (hstart : m.start ((parseArgs m.f32FromStr raw).modelPath.getD DEFAULT_MODEL) =
      .ok (model, tokenizer, g))
    (hasks : ¬ ((parseArgs m.f32FromStr raw).help ∨ (¬ (parseArgs m.f32FromStr raw).chat ∧
      ¬ (parseArgs m.f32FromStr raw).bench ∧ (parseArgs m.f32FromStr raw).prompt = none))) :
    m.main raw = m.dispatch (parseArgs m.f32FromStr raw)
      (m.engine (parseArgs m.f32FromStr raw) model tokenizer) g := by
  rw [main]
  rw [if_neg hasks, hstart]

/-- Every reply that the program completes, in any mode and on any model, was sampled with an
accepted configuration, and keeps to the limits. -/
theorem main_completes {raw : List String} {stats : GenerateStats}
    (h : (m.main raw).Completes stats) :
    (m.sampling (parseArgs m.f32FromStr raw)).validate m.ops = .ok () ∧
      Completed (replyLimit (parseArgs m.f32FromStr raw)) 512 stats := by
  unfold main at h
  dsimp only at h
  split at h
  · cases h
  split at h
  · cases h
  · cases h
  rename_i model tokenizer g hstart
  have hgenerates := generates_of_dispatch h
  have hctx := nCtx_of_start hstart
  generalize parseArgs m.f32FromStr raw = args at hgenerates ⊢
  unfold replyLimit
  split at hgenerates <;> rename_i hbench
  · rw [if_pos hbench]
    obtain ⟨logits, recent, rng, drawn, hsample⟩ := hgenerates.exists_sample
    exact ⟨validate_of_sampleToken hsample, hctx ▸ hgenerates.completed⟩
  · rw [if_neg hbench]
    obtain ⟨logits, recent, rng, drawn, hsample⟩ := hgenerates.exists_sample
    refine ⟨validate_of_sampleToken hsample, ?_⟩
    have hcompleted := hgenerates.completed
    rwa [hctx] at hcompleted

end Machine

/-- Floats without values. -/
def unitOps : FloatOps Unit where
  zero := ()
  one := ()
  millionth := ()
  add _ _ := ()
  sub _ _ := ()
  mul _ _ := ()
  div _ _ := ()
  abs _ := ()
  exp _ := ()
  lt _ _ := false
  le _ _ := false
  ofU64 _ := ()
  bits _ := 0

def servedEmbd : TensorInfo :=
  { name := "token_embd.weight", dims := [32, 128256], ggmlType := 0, offset := 0 }

def servedNorm : TensorInfo :=
  { name := "output_norm.weight", dims := [32], ggmlType := 0, offset := 16416768 }

def servedOutput : TensorInfo :=
  { name := "output.weight", dims := [32, 1], ggmlType := 0, offset := 16416896 }

/-- One token and no layers, with an embedding row for every id of the template. -/
def servedModel : HeaderLayout where
  __ := smallModel
  tensors := [servedEmbd, servedNorm, servedOutput]
  tensors_lt := by decide
  tensors_fit := by
    simp only [List.mem_cons, List.not_mem_nil, or_false, forall_eq_or_imp, forall_eq]
    refine ⟨TensorInfo.fits_eight ?_ (by decide), TensorInfo.fits_eight ?_ (by decide),
      TensorInfo.fits_eight ?_ (by decide)⟩ <;>
      (simp [StringFits, utf8_eq]; decide)

def servedHeader : GgufHeader := ⟨3, 3, servedModel.metadataMap, servedModel.tensors, 352⟩

/-- The file, with two bytes of padding and the tensor data. -/
def servedFile : List UInt8 := servedModel.encode ++ List.replicate 16417026 0

theorem length_servedFile : servedFile.length = 16417376 := by
  have hlen : servedModel.encode.length = 350 := by decide +kernel
  rw [servedFile, List.length_append, hlen, List.length_replicate]

theorem parse_servedFile :
    GgufHeader.parse (fun _ _ => true) servedFile = .ok servedHeader := by
  have halign : alignmentOf servedModel.metadataMap = 32 := by decide +kernel
  have hlen : servedModel.encode.length = 350 := by decide +kernel
  rw [servedFile, parse_encode (fun _ _ _ => rfl) servedModel (Or.inr rfl), halign, hlen]
  rfl

/-- Its tensors, placed. -/
def servedTensors : Dict String Tensor :=
  ((Dict.empty.insert "token_embd.weight" (newTensor mapAt4096 servedHeader servedEmbd .f32)).insert
    "output_norm.weight" (newTensor mapAt4096 servedHeader servedNorm .f32)).insert
    "output.weight" (newTensor mapAt4096 servedHeader servedOutput .f32)

theorem placeTensors_servedModel :
    placeTensors mapAt4096 16417376 servedHeader 0 servedHeader.tensors .empty =
      .ok servedTensors := by
  have hembd : PassesChecks mapAt4096 16417376 servedHeader 0 servedEmbd .f32 :=
    ⟨rfl, by decide, rfl⟩
  have hnorm : PassesChecks mapAt4096 16417376 servedHeader 1 servedNorm .f32 :=
    ⟨rfl, by decide, rfl⟩
  have houtput : PassesChecks mapAt4096 16417376 servedHeader 2 servedOutput .f32 :=
    ⟨rfl, by decide, rfl⟩
  rw [show servedHeader.tensors = [servedEmbd, servedNorm, servedOutput] from rfl,
    placeTensors_cons hembd (by decide), placeTensors_cons hnorm (by decide),
    placeTensors_cons houtput (by decide)]
  rfl

theorem load_servedFile :
    load mapAt4096 (fun _ _ => true) servedFile = .ok ⟨servedHeader, servedTensors⟩ := by
  have hsize : UInt64.ofNat 16417376 = 16417376 := by decide
  rw [load, parse_servedFile, length_servedFile]
  dsimp only
  rw [hsize, placeTensors_servedModel]
  rfl

/-- A machine with this file, of which every logits tensor has one entry. -/
def servedMachine : Machine Unit Unit where
  files _ := some servedFile
  serves _ _ := true
  loadCalls := mapAt4096
  backend := true
  ggml := { tensorGgml with tensorGet := fun _ _ => [()] }
  ops := unitOps
  ofBits _ := ()
  f32FromStr _ := none
  slices := strictOps
  promptCalls := sayHi.calls
  regressionCalls := sayHi.calls
  speedCalls _ := sayHi.calls
  inputs := [sayHi]

/-- What it holds once it has started. -/
def servedTokenizer : Tokenizer where
  vocab := buildVocab ["a"] [] []
  tokenToId := buildTokenToId ["a"]
  mergeRank := buildMergeRank (buildTokenToId ["a"]) []
  byteToToken := fillGaps (buildTokenToId ["a"]) fun _ => unassigned

def servedGraph : LlamaGraph Unit Tensor Unit where
  hp := .fromModel (fun _ => ()) servedHeader
  kv := .new tensorGgml 512
  dGraph := none

theorem start_servedMachine (path : String) : servedMachine.start path =
    .ok (⟨servedHeader, servedTensors⟩, servedTokenizer, servedGraph) :=
  Machine.start_eq_ok rfl parse_servedFile load_servedFile rfl rfl

def Exit.hasReply : Exit → Bool
  | .prompted (.ok _) => true
  | _ => false

theorem Exit.completes_of_hasReply {exit : Exit} (h : exit.hasReply = true) :
    ∃ stats, exit.Completes stats := by
  unfold hasReply at h
  split at h
  · rename_i stats
    exact ⟨stats, .prompted⟩
  · cases h

/-- A prompt with a reply of up to three tokens. -/
theorem Machine.main_completes_served :
    ∃ stats, (servedMachine.main ["-p", "a", "-n", "3"]).Completes stats ∧
      Completed 3 512 stats := by
  have hreply : (servedMachine.main ["-p", "a", "-n", "3"]).hasReply = true := by
    rw [main_eq_dispatch (start_servedMachine _) (by decide +kernel)]
    decide +kernel
  obtain ⟨stats, hcompletes⟩ := Exit.completes_of_hasReply hreply
  exact ⟨stats, hcompletes, (main_completes hcompletes).2⟩

end QuantumFlow
