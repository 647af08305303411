import QuantumFlow.Foundation.Checked
import QuantumFlow.Loader.Startup

/-!
# The sizes of the KV cache

`LlamaGraph::new` divides the embedding length by the number of heads and multiplies the quotient
up to the sizes of the cache, in signed and unsigned 64-bit numbers. The factors are 32-bit numbers
of the metadata, 0 when missing. A number of heads of 0, and cells or layers that are too many, have
no result.
-/

namespace QuantumFlow

open Gguf

/-- The bytes of one tensor of the cache, of all of them, and of their descriptors. -/
structure KvSizes where
  bytesPer : ℕ
  totalData : ℕ
  memSize : ℕ

/-- The sizes, in the order of the code; `none` when a product or a sum has no result. -/
def KVCache.sizes (nLayers : ℕ) (nHeadKv headDim nCtx : ℤ) : Option KvSizes := do
  let row ← i64 (nHeadKv * headDim)
  let cells ← i64 (row * nCtx)
  let bytes ← i64 (cells * 4)
  let bytesPer := asUsize bytes
  let cached ← usize (bytesPer * nLayers)
  let both ← usize (cached * 2)
  let totalData ← usize (both + 1024)
  let descriptors ← usize (nLayers * 2)
  let spare ← usize (descriptors + 16)
  let memSize ← usize (spare * 512)
  return { bytesPer, totalData, memSize }

/-- The hyperparameters that the sizes depend on. -/
structure KvHparams where
  nEmbd : UInt32
  nHead : UInt32
  nHeadKv : UInt32
  nLayer : UInt32

namespace KvHparams

def getU32 (header : GgufHeader) (key : String) : UInt32 :=
  ((header.metadata.get key).bind GgufValue.asU32).getD 0

def fromModel (header : GgufHeader) : KvHparams :=
  let arch := header.architecture.getD "llama"
  { nEmbd := getU32 header s!"{arch}.embedding_length"
    nHead := getU32 header s!"{arch}.attention.head_count"
    nHeadKv := getU32 header s!"{arch}.attention.head_count_kv"
    nLayer := getU32 header s!"{arch}.block_count" }

variable (hp : KvHparams)

def headDim : Option ℤ := i64Div hp.nEmbd.toNat hp.nHead.toNat

/-- The arithmetic of `LlamaGraph::new`; a step without a result aborts. -/
def newSizes (backend : Bool) : Outcome String KvSizes :=
  if ¬ backend then .err "[Z.1 Graph] ggml_backend_cpu_init failed"
  else
    match hp.headDim.bind fun headDim =>
      KVCache.sizes hp.nLayer.toNat hp.nHeadKv.toNat headDim 512 with
    | none => .panic
    | some sizes => .ok sizes

end KvHparams

/-! ## When there are sizes -/

/-- The bytes of one tensor of the cache. -/
def kvBytes (nHeadKv headDim nCtx : ℕ) : ℕ := nHeadKv * headDim * nCtx * 4

/-- Every step of the arithmetic, in order. -/
theorem KVCache.sizes_eq_some_iff_steps {nLayers nHeadKv headDim nCtx : ℕ} {s : KvSizes} :
    KVCache.sizes nLayers nHeadKv headDim nCtx = some s ↔
      nHeadKv * headDim < 2 ^ 63 ∧ nHeadKv * headDim * nCtx < 2 ^ 63 ∧
        kvBytes nHeadKv headDim nCtx < 2 ^ 63 ∧
        kvBytes nHeadKv headDim nCtx * nLayers < 2 ^ 64 ∧
        kvBytes nHeadKv headDim nCtx * nLayers * 2 < 2 ^ 64 ∧
        kvBytes nHeadKv headDim nCtx * nLayers * 2 + 1024 < 2 ^ 64 ∧
        nLayers * 2 < 2 ^ 64 ∧ nLayers * 2 + 16 < 2 ^ 64 ∧ (nLayers * 2 + 16) * 512 < 2 ^ 64 ∧
        s = { bytesPer := kvBytes nHeadKv headDim nCtx
              totalData := kvBytes nHeadKv headDim nCtx * nLayers * 2 + 1024
              memSize := (nLayers * 2 + 16) * 512 } := by
  have hfour : (4 : ℤ) = (4 : ℕ) := rfl
  simp only [KVCache.sizes, Option.bind_eq_bind, hfour, ← Nat.cast_mul, i64_bind_eq_some_iff,
    kvBytes]
  refine and_congr_right fun _ => and_congr_right fun _ => and_congr_right fun hbytes => ?_
  rw [asUsize_natCast (hbytes.trans (by decide))]
  simp only [usize_bind_eq_some_iff, Option.pure_def, Option.some.injEq, eq_comm (a := s)]

/-- A product that is defined has defined factors, since every further factor is positive. -/
theorem KVCache.sizes_eq_some_iff {nLayers : ℕ} (nHeadKv headDim : ℕ) {nCtx : ℕ}
    (hlayers : nLayers < 2 ^ 32) (hctx : 0 < nCtx) (s : KvSizes) :
    KVCache.sizes nLayers nHeadKv headDim nCtx = some s ↔
      kvBytes nHeadKv headDim nCtx < 2 ^ 63 ∧
        kvBytes nHeadKv headDim nCtx * nLayers * 2 + 1024 < 2 ^ 64 ∧
        s = { bytesPer := kvBytes nHeadKv headDim nCtx
              totalData := kvBytes nHeadKv headDim nCtx * nLayers * 2 + 1024
              memSize := (nLayers * 2 + 16) * 512 } := by
  rw [KVCache.sizes_eq_some_iff_steps]
  constructor
  · rintro ⟨-, -, hbytes, -, -, htotal, -, -, -, hs⟩
    exact ⟨hbytes, htotal, hs⟩
  · rintro ⟨hbytes, htotal, hs⟩
    have hcells : nHeadKv * headDim * nCtx < 2 ^ 63 :=
      (Nat.le_mul_of_pos_right _ (by omega)).trans_lt hbytes
    have hrow : nHeadKv * headDim < 2 ^ 63 := (Nat.le_mul_of_pos_right _ hctx).trans_lt hcells
    exact ⟨hrow, hcells, hbytes, by omega, by omega, htotal, by omega, by omega, by omega, hs⟩

namespace KvHparams

/-- Every step of the arithmetic has a result. -/
def SizesDefined (hp : KvHparams) : Prop :=
  let headDim := hp.nEmbd.toNat / hp.nHead.toNat
  hp.nHead ≠ 0 ∧ kvBytes hp.nHeadKv.toNat headDim 512 < 2 ^ 63 ∧
    kvBytes hp.nHeadKv.toNat headDim 512 * hp.nLayer.toNat * 2 + 1024 < 2 ^ 64

theorem headDim_eq (hp : KvHparams) :
    hp.headDim =
      if hp.nHead = 0 then none else some ((hp.nEmbd.toNat / hp.nHead.toNat : ℕ) : ℤ) := by
  have hembd := hp.nEmbd.toNat_lt
  rw [headDim, i64Div_natCast (by omega)]
  simp [← UInt32.toNat_inj]

theorem sizes_isSome_iff (hp : KvHparams) :
    (∃ s, (hp.headDim.bind fun headDim =>
      KVCache.sizes hp.nLayer.toNat hp.nHeadKv.toNat headDim 512) = some s) ↔ hp.SizesDefined := by
  rw [headDim_eq]
  split
  · rename_i hzero
    simp [SizesDefined, hzero]
  · rename_i hne
    rw [Option.bind_some]
    have hiff := KVCache.sizes_eq_some_iff hp.nHeadKv.toNat (hp.nEmbd.toNat / hp.nHead.toNat)
      hp.nLayer.toNat_lt (show 0 < 512 by omega)
    constructor
    · rintro ⟨s, hs⟩
      obtain ⟨hbytes, htotal, -⟩ := (hiff s).mp hs
      exact ⟨hne, hbytes, htotal⟩
    · rintro ⟨-, hbytes, htotal⟩
      exact ⟨_, (hiff _).mpr ⟨hbytes, htotal, rfl⟩⟩

/-- Without a backend the error comes first; otherwise a step without a result aborts. -/
theorem newSizes_eq_panic_iff (hp : KvHparams) (backend : Bool) :
    hp.newSizes backend = .panic ↔ backend = true ∧ ¬ hp.SizesDefined := by
  rw [← hp.sizes_isSome_iff]
  unfold newSizes
  cases backend with
  | false => simp
  | true =>
    rw [if_neg (by simp)]
    cases hp.headDim.bind fun headDim =>
      KVCache.sizes hp.nLayer.toNat hp.nHeadKv.toNat headDim 512 <;> simp

/-- Creating a graph either fails for lack of a backend or has defined arithmetic, exactly when
there is no backend, or the number of heads is not 0 and the sizes of the cache stay in range. -/
theorem hyperparameter_arithmetic_iff (header : GgufHeader) (backend : Bool) :
    (fromModel header).newSizes backend ≠ .panic ↔
      backend = false ∨ (fromModel header).SizesDefined := by
  rw [Ne, newSizes_eq_panic_iff, not_and_or, Bool.not_eq_true, not_not]

/-- A header with this metadata. -/
def headerOf (metadata : List (String × GgufValue)) : GgufHeader :=
  { version := 3, nTensors := 0, metadata := Dict.empty.insertAll metadata, tensors := [],
    dataOffset := 32 }

/-- No metadata, a number of heads of another type, and numbers whose product is out of range. -/
theorem hyperparameter_arithmetic_undefined :
    (fromModel (headerOf [])).newSizes true = .panic ∧
      (fromModel (headerOf [("llama.embedding_length", .u32 4096),
        ("llama.attention.head_count", .u64 32)])).newSizes true = .panic ∧
      (fromModel (headerOf [("llama.embedding_length", .u32 0xFFFFFFFF),
        ("llama.attention.head_count", .u32 1),
        ("llama.attention.head_count_kv", .u32 0xFFFFFFFF)])).newSizes true = .panic := by
  refine ⟨rfl, rfl, rfl⟩

end KvHparams

end QuantumFlow
