import QuantumFlow.Graph.LlamaGraph
import QuantumFlow.Loader.MappedModel
import QuantumFlow.Tokenizer.Tables

/-!
# Starting up

What the program holds once a file is loaded: the model, the tokenizer built from its metadata,
and a graph with the hyperparameters that its metadata gives.
-/

namespace QuantumFlow

open Gguf

variable {X F : Type}

section FromModel

variable (ofBits : UInt32 → F) (header : GgufHeader)

def LlamaHparams.getU32 (key : String) : ℕ :=
  (((header.metadata.get key).bind GgufValue.asU32).getD 0).toNat

def LlamaHparams.getF32 (key : String) (default : UInt32) : F :=
  ofBits (((header.metadata.get key).bind f32Of).getD default)

/-- A missing number is 0. The vocabulary size is not looked up under the architecture. -/
def LlamaHparams.fromModel : LlamaHparams F :=
  let arch := header.architecture.getD "llama"
  { nVocab := getU32 header "llama.vocab_size"
    nEmbd := getU32 header s!"{arch}.embedding_length"
    nHead := getU32 header s!"{arch}.attention.head_count"
    nLayer := getU32 header s!"{arch}.block_count"
    nRot := getU32 header s!"{arch}.rope.dimension_count"
    -- 500000.0 and 1e-5
    freqBase := getF32 ofBits header s!"{arch}.rope.freq_base" 0x48F42400
    rmsNormEps := getF32 ofBits header s!"{arch}.attention.layer_norm_rms_epsilon" 0x3727C5AC }

end FromModel

/-- A program that has started on a file: everything it needed was loaded, built and found. -/
structure Started (X F : Type) where
  serves : ℕ → ℕ → Bool
  calls : LoadCalls
  file : List UInt8
  backend : Bool
  ggml : Ggml X Tensor F
  ofBits : UInt32 → F
  model : LoadedModel
  tokenizer : Tokenizer
  graph : LlamaGraph X Tensor F
  weights : Weights Tensor
  load_eq : load calls serves file = .ok model
  buildTokenizer_eq : buildTokenizer model.header = .ok tokenizer
  new_eq : LlamaGraph.new backend ggml (.fromModel ofBits model.header) = .ok graph
  weights_eq : model.mappedModel.weights graph.hp.nLayer = .ok weights

namespace Started

variable (s : Started X F)

/-- The rows of `token_embd.weight`, as ggml counts them. -/
def embdRows : ℤ := s.weights.tokenEmbd.rows

/-- The rows of `output.weight`: a logits tensor has one float for each. -/
def outputRows : ℤ := s.weights.output.rows

theorem hp_eq : s.graph.hp = .fromModel s.ofBits s.model.header := by
  have h := s.new_eq
  unfold LlamaGraph.new at h
  split at h
  · cases h
  split at h
  · cases h
  · rw [← Outcome.ok.inj h]

/-- The vocabulary size comes from a 32-bit number. -/
theorem nVocab_lt : s.graph.hp.nVocab < 2 ^ 32 := by
  rw [s.hp_eq]
  exact UInt32.toNat_lt _

end Started

end QuantumFlow
