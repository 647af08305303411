import QuantumFlow.Gguf.Header
import QuantumFlow.Graph.Layers

/-!
# Loading a mapped model

The loader maps the file and places each tensor of its header at the mapping's base plus the
data offset plus the tensor's offset, in 64-bit wrapping arithmetic. ggml computes the byte size
of a tensor from its type and dimensions, wrapping as well, and aborts when a tensor does not
lie within the mapping.
-/

namespace QuantumFlow

open Gguf

/-! ## ggml tensors -/

/-- The types that the loader knows. -/
inductive GgmlType where
  | f32 | f16 | q4_0 | q4_1 | q5_0 | q5_1 | q8_0 | q8_1
  | q2_K | q3_K | q4_K | q5_K | q6_K | q8_K | bf16 | i32
  deriving DecidableEq

namespace GgmlType

/-- `none` is the type `Unknown`. -/
def ofU32 (v : UInt32) : Option GgmlType :=
  match v.toNat with
  | 0 => some f32 | 1 => some f16 | 2 => some q4_0 | 3 => some q4_1
  | 6 => some q5_0 | 7 => some q5_1 | 8 => some q8_0 | 9 => some q8_1
  | 10 => some q2_K | 11 => some q3_K | 12 => some q4_K | 13 => some q5_K
  | 14 => some q6_K | 15 => some q8_K | 30 => some bf16 | 26 => some i32
  | _ => none

/-- Elements in a block. -/
def blckSize : GgmlType → ℕ
  | f32 | f16 | bf16 | i32 => 1
  | q4_0 | q4_1 | q5_0 | q5_1 | q8_0 | q8_1 => 32
  | q2_K | q3_K | q4_K | q5_K | q6_K | q8_K => 256

/-- Bytes of a block. -/
def typeSize : GgmlType → ℕ
  | f32 | i32 => 4
  | f16 | bf16 => 2
  | q4_0 => 18 | q4_1 => 20 | q5_0 => 22 | q5_1 => 24 | q8_0 => 34 | q8_1 => 36
  | q2_K => 84 | q3_K => 110 | q4_K => 144 | q5_K => 176 | q6_K => 210 | q8_K => 292

end GgmlType

/-- A tensor descriptor of ggml, with the address of its data. -/
structure Tensor where
  type : GgmlType
  ne : Fin 4 → Int64
  data : UInt64

/-- The first four dimensions, and 1 for a missing one; ggml has no more. -/
def shapeOf (dims : List UInt64) (i : Fin 4) : Int64 := ((dims[i.val]?).map UInt64.toInt64).getD 1

namespace Tensor

variable (t : Tensor)

/-- Strides in bytes. The blocks of a row are a signed quotient. -/
def nb (i : Fin 4) : UInt64 :=
  let nb0 := UInt64.ofNat t.type.typeSize
  let nb1 := nb0 * (t.ne 0 / Int64.ofNat t.type.blckSize).toUInt64
  let nb2 := nb1 * (t.ne 1).toUInt64
  match i with
  | 0 => nb0
  | 1 => nb1
  | 2 => nb2
  | 3 => nb2 * (t.ne 2).toUInt64

/-- The rows of a matrix. -/
def rows : ℤ := (t.ne 1).toInt

/-- The bytes from the first element to the last one, stepping along one dimension. -/
def span (i : Fin 4) : UInt64 := (t.ne i - 1).toUInt64 * t.nb i

def nbytes : UInt64 :=
  if t.type.blckSize = 1 then
    UInt64.ofNat t.type.typeSize + t.span 0 + t.span 1 + t.span 2 + t.span 3
  else
    (t.ne 0).toUInt64 * t.nb 0 / UInt64.ofNat t.type.blckSize + t.span 1 + t.span 2 + t.span 3

end Tensor

/-! ## Placing the tensors -/

/-- What the host decides while a file is loaded: whether it can be mapped and where, whether the
buffer and the context are created, and whether the `i`-th descriptor is. -/
structure LoadCalls where
  mapped : Bool
  base : UInt64
  buffer : Bool
  context : Bool
  created : ℕ → Bool

section Load

variable (calls : LoadCalls) (fileSize : UInt64)

/-- The assertions of `ggml_backend_tensor_alloc`. -/
def tensorAlloc (t : Tensor) : Bool :=
  calls.base ≤ t.data && t.data + t.nbytes ≤ calls.base + fileSize

def tensorAddr (header : GgufHeader) (ti : TensorInfo) : UInt64 :=
  calls.base + UInt64.ofNat header.dataOffset + ti.offset

/-- The tensor of a descriptor. -/
def newTensor (header : GgufHeader) (ti : TensorInfo) (type : GgmlType) : Tensor :=
  { type, ne := shapeOf ti.dims, data := tensorAddr calls header ti }

/-- The loop over the descriptors, from the `i`-th on. -/
def placeTensors (header : GgufHeader) :
    ℕ → List TensorInfo → Dict String Tensor → Outcome String (Dict String Tensor)
  | _, [], tensors => .ok tensors
  | i, ti :: rest, tensors =>
    match GgmlType.ofU32 ti.ggmlType with
    | none => placeTensors header (i + 1) rest tensors
    | some type =>
      if calls.base + fileSize ≤ tensorAddr calls header ti then
        placeTensors header (i + 1) rest tensors
      else if calls.created i = false then placeTensors header (i + 1) rest tensors
      else
        let t := newTensor calls header ti type
        if tensorAlloc calls fileSize t then
          placeTensors header (i + 1) rest (tensors.insert ti.name t)
        else .panic

/-- A loaded file. -/
structure LoadedModel where
  header : GgufHeader
  tensors : Dict String Tensor

def LoadedModel.mappedModel (m : LoadedModel) : MappedModel Tensor := ⟨m.tensors.get⟩

def load (serves : ℕ → ℕ → Bool) (file : List UInt8) : Outcome String LoadedModel :=
  match GgufHeader.parse serves file with
  | .panic => .panic
  | .err _ => .err "Failed to parse GGUF header"
  | .ok header => do
    if ¬ calls.mapped then .err "Failed to mmap model file"
    else if ¬ calls.buffer then
      .err "[Z.1 Loader] ggml_backend_cpu_buffer_from_ptr returned null"
    else if ¬ calls.context then .err "[Z.1 Loader] ggml_init returned null"
    else
      let tensors ← placeTensors calls (UInt64.ofNat file.length) header 0 header.tensors .empty
      return { header, tensors }

end Load

end QuantumFlow
