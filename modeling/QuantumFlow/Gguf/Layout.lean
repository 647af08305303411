import Mathlib.Order.Bounds.Basic
import QuantumFlow.Gguf.Header

/-!
# The GGUF header layout

The format's own description of a header, independent of the reader: thirteen tagged value
kinds, counted strings, arrays and lists, all little-endian. Counts take four bytes in
version 1 and eight in versions 2 and 3.
-/

namespace QuantumFlow.Gguf

/-- The kinds of value an array can hold. -/
inductive ElemKind where
  | u8 | i8 | u16 | i16 | u32 | i32 | f32 | bool | string | u64 | i64 | f64
  deriving DecidableEq

namespace ElemKind

def typeId : ElemKind → ℕ
  | u8 => 0 | i8 => 1 | u16 => 2 | i16 => 3 | u32 => 4 | i32 => 5 | f32 => 6
  | bool => 7 | string => 8 | u64 => 10 | i64 => 11 | f64 => 12

/-- What a value of this kind holds, floats by bit pattern. -/
def Carrier : ElemKind → Type
  | u8 => UInt8 | i8 => Int8 | u16 => UInt16 | i16 => Int16 | u32 => UInt32 | i32 => Int32
  | f32 => UInt32 | bool => Bool | string => String | u64 => UInt64 | i64 => Int64 | f64 => UInt64

def value : (k : ElemKind) → k.Carrier → GgufValue
  | u8, v => .u8 v
  | i8, v => .i8 v
  | u16, v => .u16 v
  | i16, v => .i16 v
  | u32, v => .u32 v
  | i32, v => .i32 v
  | f32, v => .f32 v
  | bool, v => .bool v
  | string, v => .string v
  | u64, v => .u64 v
  | i64, v => .i64 v
  | f64, v => .f64 v

end ElemKind

/-- A metadata value: a single value, or an array whose elements have one kind. -/
inductive MetaValue where
  | single (k : ElemKind) (v : k.Carrier)
  | array (k : ElemKind) (vs : List k.Carrier)

def MetaValue.value : MetaValue → GgufValue
  | single k v => k.value v
  | array k vs => .array (vs.map k.value)

/-! ## Encoding, with counts of `w` bytes -/

def encodeString (w : ℕ) (s : String) : List UInt8 := leBytes w (utf8 s).length ++ utf8 s

def ElemKind.encode (w : ℕ) : (k : ElemKind) → k.Carrier → List UInt8
  | u8, v => leBytes 1 v.toNat
  | i8, v => leBytes 1 v.toUInt8.toNat
  | u16, v => leBytes 2 v.toNat
  | i16, v => leBytes 2 v.toUInt16.toNat
  | u32, v => leBytes 4 v.toNat
  | i32, v => leBytes 4 v.toUInt32.toNat
  | f32, v => leBytes 4 v.toNat
  | bool, v => leBytes 1 v.toNat
  | string, v => encodeString w v
  | u64, v => leBytes 8 v.toNat
  | i64, v => leBytes 8 v.toUInt64.toNat
  | f64, v => leBytes 8 v.toNat

def encodeArray (w : ℕ) (k : ElemKind) (vs : List k.Carrier) : List UInt8 :=
  leBytes 4 k.typeId ++ (leBytes w vs.length ++ vs.flatMap (k.encode w))

def MetaValue.encode (w : ℕ) : MetaValue → List UInt8
  | single k v => leBytes 4 k.typeId ++ k.encode w v
  | array k vs => leBytes 4 9 ++ encodeArray w k vs

def encodeKeyValue (w : ℕ) (kv : String × MetaValue) : List UInt8 :=
  encodeString w kv.1 ++ kv.2.encode w

def encodeTensorInfo (w : ℕ) (t : TensorInfo) : List UInt8 :=
  encodeString w t.name ++ (leBytes 4 t.dims.length ++
    (t.dims.flatMap (fun d => leBytes w d.toNat) ++
      (leBytes 4 t.ggmlType.toNat ++ leBytes 8 t.offset.toNat)))

def countWidth (version : UInt32) : ℕ := if version = 1 then 4 else 8

/-! ## What the counts can express -/

def StringFits (w : ℕ) (s : String) : Prop := (utf8 s).length < 256 ^ w

def ElemKind.Fits (w : ℕ) : (k : ElemKind) → k.Carrier → Prop
  | string, v => StringFits w v
  | _, _ => True

def MetaValue.Fits (w : ℕ) : MetaValue → Prop
  | single k v => k.Fits w v
  | array k vs => vs.length < 256 ^ w ∧ ∀ v ∈ vs, k.Fits w v

structure TensorInfo.Fits (w : ℕ) (t : TensorInfo) : Prop where
  name : StringFits w t.name
  rank : t.dims.length < 256 ^ 4
  dims : ∀ d ∈ t.dims, d.toNat < 256 ^ w

/-- Eight bytes hold any dimension. -/
theorem TensorInfo.fits_eight {t : TensorInfo} (hname : StringFits 8 t.name)
    (hrank : t.dims.length < 256 ^ 4) : t.Fits 8 :=
  ⟨hname, hrank, fun d _ => Nat.lt_of_lt_of_eq d.toNat_lt (by decide)⟩

theorem no_tensors_lt : ([] : List TensorInfo).length < 256 ^ countWidth 3 := by decide

theorem no_tensors_fit : ∀ t ∈ ([] : List TensorInfo), t.Fits (countWidth 3) := by simp

/-- A header that the layout of its version can express: its keys are distinct, and every
count fits the bytes it is written to. -/
structure HeaderLayout where
  version : UInt32
  metadata : List (String × MetaValue)
  tensors : List TensorInfo
  keys_nodup : (metadata.map Prod.fst).Nodup
  metadata_lt : metadata.length < 256 ^ countWidth version
  tensors_lt : tensors.length < 256 ^ countWidth version
  keys_fit : ∀ kv ∈ metadata, StringFits (countWidth version) kv.1
  values_fit : ∀ kv ∈ metadata, kv.2.Fits (countWidth version)
  tensors_fit : ∀ t ∈ tensors, t.Fits (countWidth version)

namespace HeaderLayout

variable (h : HeaderLayout)

def width : ℕ := countWidth h.version

/-- Everything after magic and version. -/
def encodeBody : List UInt8 :=
  leBytes h.width h.tensors.length ++ (leBytes h.width h.metadata.length ++
    (h.metadata.flatMap (encodeKeyValue h.width) ++ h.tensors.flatMap (encodeTensorInfo h.width)))

def encode : List UInt8 :=
  leBytes 4 GGUF_MAGIC.toNat ++ (leBytes 4 h.version.toNat ++ h.encodeBody)

/-- The metadata as a map. -/
def metadataMap : Dict String GgufValue :=
  Dict.empty.insertAll (h.metadata.map fun kv => (kv.1, kv.2.value))

/-- `general.alignment` as the format means it: a `u32` that is not zero, otherwise 32. -/
def alignment : ℕ :=
  match h.metadataMap.get "general.alignment" with
  | some (.u32 a) => if a = 0 then 32 else a.toNat
  | _ => 32

/-- `out` holds exactly the metadata and the tensors of the layout. -/
structure SameContent (out : GgufHeader) : Prop where
  metadata : ∀ k v, out.metadata.get k = some v ↔ ∃ kv ∈ h.metadata, kv.1 = k ∧ kv.2.value = v
  tensors : out.tensors = h.tensors

/-- `out` is the header that the layout encodes. -/
structure IsHeader (out : GgufHeader) : Prop extends h.SameContent out where
  version : out.version = h.version
  nTensors : out.nTensors.toNat = h.tensors.length
  dataOffset : IsLeast {m | h.alignment ∣ m ∧ h.encode.length ≤ m} out.dataOffset

theorem map_keys_nodup : ((h.metadata.map fun kv => (kv.1, kv.2.value)).map Prod.fst).Nodup := by
  simpa [List.map_map, Function.comp_def] using h.keys_nodup

theorem get_metadataMap (k : String) (v : GgufValue) :
    h.metadataMap.get k = some v ↔ ∃ kv ∈ h.metadata, kv.1 = k ∧ kv.2.value = v := by
  rw [metadataMap, Dict.get_insertAll_iff_mem h.map_keys_nodup]
  simp

end HeaderLayout

end QuantumFlow.Gguf
