import QuantumFlow.Foundation.Dict
import QuantumFlow.Foundation.Hex
import QuantumFlow.Foundation.LittleEndian
import QuantumFlow.Foundation.Reader
import QuantumFlow.Foundation.Utf8

/-!
# The GGUF header reader

`GgufHeader.parse` and the readers it calls. The stream is the content of the file. Each
buffer, vector and map is allocated from its count before any element is read: `serves`
is the allocator's answer to such a request. Floats are bit patterns.
-/

namespace QuantumFlow.Gguf

open Reader

def GGUF_MAGIC : UInt32 := 0x46554747

def SUPPORTED_VERSIONS : List UInt32 := [1, 2, 3]

inductive GgufValue where
  | u8 (v : UInt8)
  | i8 (v : Int8)
  | u16 (v : UInt16)
  | i16 (v : Int16)
  | u32 (v : UInt32)
  | i32 (v : Int32)
  | f32 (bits : UInt32)
  | u64 (v : UInt64)
  | i64 (v : Int64)
  | f64 (bits : UInt64)
  | bool (v : Bool)
  | string (v : String)
  | array (vs : List GgufValue)

def GgufValue.asStr : GgufValue → Option String
  | .string s => some s
  | _ => none

def GgufValue.asU32 : GgufValue → Option UInt32
  | .u32 v => some v
  | _ => none

/-- A tensor descriptor: `offset` counts from the start of the tensor data. -/
structure TensorInfo where
  name : String
  dims : List UInt64
  ggmlType : UInt32
  offset : UInt64

structure GgufHeader where
  version : UInt32
  nTensors : UInt64
  metadata : Dict String GgufValue
  tensors : List TensorInfo
  dataOffset : ℕ

def GgufHeader.architecture (header : GgufHeader) : Option String :=
  (header.metadata.get "general.architecture").bind GgufValue.asStr

/-- The first two come from the standard library, the third carries the reader's own text. -/
inductive GgufError where
  | unexpectedEof
  | invalidUtf8 (bytes : List UInt8)
  | invalidData (message : String)

/-! ## Low-level readers -/

/-- A little-endian number of `w` bytes. -/
def readLe (w : ℕ) : Reader GgufError ℕ := do
  let b ← readExact .unexpectedEof w
  return leNat b

def readU8 : Reader GgufError UInt8 := do return UInt8.ofNat (← readLe 1)
def readU16 : Reader GgufError UInt16 := do return UInt16.ofNat (← readLe 2)
def readU32 : Reader GgufError UInt32 := do return UInt32.ofNat (← readLe 4)
def readU64 : Reader GgufError UInt64 := do return UInt64.ofNat (← readLe 8)

/-- Four bytes in version 1, eight in the others. -/
def readCount (version : UInt32) : Reader GgufError UInt64 :=
  if version = 1 then do return (← readU32).toUInt64 else readU64

section Allocation

variable (serves : ℕ → ℕ → Bool)

def checkUtf8 (buf : List UInt8) : Reader GgufError String :=
  match fromUtf8 buf with
  | some s => pure s
  | none => fail (.invalidUtf8 buf)

/-- The length has eight bytes whatever the version. -/
def readGgufString : Reader GgufError String := do
  let len ← readU64
  reserve serves len.toNat
  let buf ← readExact .unexpectedEof len.toNat
  checkUtf8 buf

def readGgufValueByType (typeId : UInt32) : Reader GgufError GgufValue :=
  match typeId.toNat with
  | 0 => do return .u8 (← readU8)
  | 1 => do return .i8 (← readU8).toInt8
  | 2 => do return .u16 (← readU16)
  | 3 => do return .i16 (← readU16).toInt16
  | 4 => do return .u32 (← readU32)
  | 5 => do return .i32 (← readU32).toInt32
  | 6 => do return .f32 (← readU32)
  | 7 => do return .bool ((← readU8) != 0)
  | 8 => do return .string (← readGgufString serves)
  | 10 => do return .u64 (← readU64)
  | 11 => do return .i64 (← readU64).toInt64
  | 12 => do return .f64 (← readU64)
  | _ => fail (.invalidData s!"unsupported array element type {typeId}")

/-- The elements of an array are read by the other reader, so arrays do not nest. -/
def readGgufArray (version : UInt32) : Reader GgufError GgufValue := do
  let elemType ← readU32
  let count ← readCount version
  reserve serves count.toNat
  let arr ← repeated (readGgufValueByType serves elemType) count.toNat
  return .array arr

def readGgufValue (version : UInt32) : Reader GgufError GgufValue := do
  let typeId ← readU32
  match typeId.toNat with
  | 0 => do return .u8 (← readU8)
  | 1 => do return .i8 (← readU8).toInt8
  | 2 => do return .u16 (← readU16)
  | 3 => do return .i16 (← readU16).toInt16
  | 4 => do return .u32 (← readU32)
  | 5 => do return .i32 (← readU32).toInt32
  | 6 => do return .f32 (← readU32)
  | 7 => do return .bool ((← readU8) != 0)
  | 8 => do return .string (← readGgufString serves)
  | 9 => readGgufArray serves version
  | 10 => do return .u64 (← readU64)
  | 11 => do return .i64 (← readU64).toInt64
  | 12 => do return .f64 (← readU64)
  | _ => fail (.invalidData s!"unknown GGUF value type {typeId}")

def readKeyValue (version : UInt32) : Reader GgufError (String × GgufValue) := do
  let key ← readGgufString serves
  let value ← readGgufValue serves version
  return (key, value)

def readTensorInfo (version : UInt32) : Reader GgufError TensorInfo := do
  let name ← readGgufString serves
  let nDims ← readU32
  reserve serves nDims.toNat
  let dims ← repeated (readCount version) nDims.toNat
  let ggmlType ← readU32
  let offset ← readU64
  return { name, dims, ggmlType, offset }

/-! ## The header -/

/-- `general.alignment` as the reader takes it, with 32 when it is missing or no `u32`. -/
def alignmentOf (metadata : Dict String GgufValue) : ℕ :=
  (((metadata.get "general.alignment").bind GgufValue.asU32).getD 32).toNat

/-- The metadata, the tensors and the data offset. A zero alignment divides by zero, which
aborts. -/
def parseLists (version : UInt32) (nTensors nKv : UInt64) : Reader GgufError GgufHeader := do
  reserve serves nKv.toNat
  let pairs ← repeated (readKeyValue serves version) nKv.toNat
  let metadata := Dict.empty.insertAll pairs
  reserve serves nTensors.toNat
  let tensors ← repeated (readTensorInfo serves version) nTensors.toNat
  let pos ← position
  let alignment := alignmentOf metadata
  if alignment = 0 then abort
  else
    return { version, nTensors, metadata, tensors,
             dataOffset := (pos + alignment - 1) / alignment * alignment }

def parseBody (version : UInt32) : Reader GgufError GgufHeader := do
  let nTensors ← readCount version
  let nKv ← readCount version
  parseLists serves version nTensors nKv

def parseHeader : Reader GgufError GgufHeader := do
  let magic ← readU32
  if magic ≠ GGUF_MAGIC then
    fail (.invalidData s!"not a GGUF file (magic = 0x{String.ofList (hexUpper 8 magic.toNat)})")
  else
    let version ← readU32
    if ¬ SUPPORTED_VERSIONS.contains version then
      fail (.invalidData s!"unsupported GGUF version {version}")
    else
      parseBody serves version

/-- The header at the start of a file. -/
def GgufHeader.parse (file : List UInt8) : Outcome GgufError GgufHeader := do
  let r ← parseHeader serves ⟨file, 0⟩
  return r.1

end Allocation

end QuantumFlow.Gguf
