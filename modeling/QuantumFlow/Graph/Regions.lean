import Mathlib.Tactic.Ring
import QuantumFlow.Foundation.Region
import QuantumFlow.Graph.KvSizes

/-!
# Tensors in one buffer

The K and V tensors of all layers are placed in one buffer at computed addresses, and so are the
inputs of a batch and of a single token. Every write goes to an offset within a tensor. For all
sizes that do not overflow, the tensors do not meet, they lie in their buffers, and the writes lie
in their tensors.
-/

namespace QuantumFlow

/-! ## The cache -/

/-- Sizes of a cache whose products do not overflow. -/
structure KvShape where
  nLayers : UInt64
  nHeadKv : UInt64
  headDim : UInt64
  nCtx : UInt64
  nCtx_pos : 0 < nCtx.toNat
  bytes_lt : kvBytes nHeadKv.toNat headDim.toNat nCtx.toNat < 2 ^ 63
  total_lt : kvBytes nHeadKv.toNat headDim.toNat nCtx.toNat * nLayers.toNat * 2 + 1024 < 2 ^ 64

namespace KvShape

variable (s : KvShape)

def bytesPer : UInt64 := s.nHeadKv * s.headDim * s.nCtx * 4

def totalData : UInt64 := s.bytesPer * s.nLayers * 2 + 1024

/-- The bytes of one row of a tensor. -/
def kvRowStride : UInt64 := s.nHeadKv * s.headDim * 4

theorem toNat_bytesPer :
    s.bytesPer.toNat = kvBytes s.nHeadKv.toNat s.headDim.toNat s.nCtx.toNat := by
  have hlt := s.bytes_lt
  have hfour : (4 : UInt64).toNat = 4 := rfl
  rw [bytesPer, UInt64.toNat_mul, UInt64.toNat_mul, UInt64.toNat_mul, hfour, Nat.mod_mul_mod,
    Nat.mul_assoc _ _ 4, Nat.mod_mul_mod, ← Nat.mul_assoc, ← kvBytes, Nat.mod_eq_of_lt (by omega)]

theorem toNat_totalData :
    s.totalData.toNat = s.bytesPer.toNat * s.nLayers.toNat * 2 + 1024 := by
  have hlt := s.total_lt
  rw [← toNat_bytesPer] at hlt
  have htwo : (2 : UInt64).toNat = 2 := rfl
  have hspare : (1024 : UInt64).toNat = 1024 := rfl
  rw [totalData, UInt64.toNat_add, UInt64.toNat_mul, UInt64.toNat_mul, htwo, hspare,
    Nat.mod_mul_mod]
  omega

theorem toNat_kvRowStride : s.kvRowStride.toNat = s.nHeadKv.toNat * s.headDim.toNat * 4 := by
  have hlt := s.bytes_lt
  have hle := Nat.le_mul_of_pos_right (s.nHeadKv.toNat * s.headDim.toNat) s.nCtx_pos
  have hfour : (4 : UInt64).toNat = 4 := rfl
  unfold kvBytes at hlt
  rw [kvRowStride, UInt64.toNat_mul, UInt64.toNat_mul, hfour, Nat.mod_mul_mod]
  omega

/-- A tensor is as many rows as there are positions. -/
theorem toNat_bytesPer_eq_rows : s.bytesPer.toNat = s.nCtx.toNat * s.kvRowStride.toNat := by
  rw [toNat_bytesPer, toNat_kvRowStride, kvBytes]
  ring

/-- The sizes are those that a graph is created with. -/
theorem sizes_eq (hlayers : s.nLayers.toNat < 2 ^ 32) :
    KVCache.sizes s.nLayers.toNat s.nHeadKv.toNat s.headDim.toNat s.nCtx.toNat =
      some { bytesPer := s.bytesPer.toNat
             totalData := s.totalData.toNat
             memSize := (s.nLayers.toNat * 2 + 16) * 512 } := by
  rw [KVCache.sizes_eq_some_iff _ _ hlayers s.nCtx_pos, toNat_totalData, toNat_bytesPer]
  exact ⟨s.bytes_lt, s.total_lt, rfl⟩

end KvShape

/-- The buffer of a cache: at least the bytes that were asked for, from a base on. -/
structure KvBuffer extends KvShape where
  base : UInt64
  fits : base.toNat + toKvShape.totalData.toNat ≤ 2 ^ 64

inductive KvKind where
  | k
  | v
  deriving DecidableEq

namespace KvBuffer

variable (b : KvBuffer)

/-- Where a layer's tensor is placed. -/
def slotAddr : KvKind → UInt64 → UInt64
  | .k, layer => b.base + layer * b.bytesPer
  | .v, layer => b.base + b.nLayers * b.bytesPer + layer * b.bytesPer

def buffer : Set ℕ := region b.base.toNat b.totalData.toNat

def slot (kind : KvKind) (layer : UInt64) : Set ℕ :=
  region (b.slotAddr kind layer).toNat b.bytesPer.toNat

/-- The row that a decoded token is written to. -/
def rowWrite (kind : KvKind) (layer kvHead : UInt64) : Set ℕ :=
  region (b.slotAddr kind layer + kvHead * b.kvRowStride).toNat b.kvRowStride.toNat

/-- The rows of the view that a batch is written to. -/
def batchWrite (kind : KvKind) (layer kvHead nTokens : UInt64) : Set ℕ :=
  ⋃ r < nTokens.toNat,
    region (b.slotAddr kind layer + kvHead * b.kvRowStride + UInt64.ofNat r * b.kvRowStride).toNat
      b.kvRowStride.toNat

/-- The K tensors come first, then the V tensors. -/
def slotIndex : KvKind → UInt64 → ℕ
  | .k, layer => layer.toNat
  | .v, layer => b.nLayers.toNat + layer.toNat

variable {b}

theorem slotIndex_lt (kind : KvKind) {layer : UInt64} (hlayer : layer < b.nLayers) :
    b.slotIndex kind layer < 2 * b.nLayers.toNat := by
  have hlt := UInt64.lt_iff_toNat_lt.mp hlayer
  cases kind <;> simp only [slotIndex] <;> omega

theorem slotIndex_injective {kind kind' : KvKind} {layer layer' : UInt64}
    (hlayer : layer < b.nLayers) (hlayer' : layer' < b.nLayers)
    (h : b.slotIndex kind layer = b.slotIndex kind' layer') : kind = kind' ∧ layer = layer' := by
  have hlt := UInt64.lt_iff_toNat_lt.mp hlayer
  have hlt' := UInt64.lt_iff_toNat_lt.mp hlayer'
  cases kind <;> cases kind' <;> simp only [slotIndex] at h
  · exact ⟨rfl, UInt64.toNat_inj.mp h⟩
  · omega
  · omega
  · exact ⟨rfl, UInt64.toNat_inj.mp (by omega)⟩

/-- No address of a tensor wraps. -/
theorem toNat_slotAddr (kind : KvKind) {layer : UInt64} (hlayer : layer < b.nLayers) :
    (b.slotAddr kind layer).toNat = b.base.toNat + b.slotIndex kind layer * b.bytesPer.toNat := by
  have hlt := UInt64.lt_iff_toNat_lt.mp hlayer
  have hle := Nat.mul_le_mul_right b.bytesPer.toNat hlt.le
  have hfits := b.fits
  rw [b.toNat_totalData, Nat.mul_comm b.bytesPer.toNat] at hfits
  cases kind with
  | k =>
    rw [slotAddr, slotIndex, UInt64.toNat_add, UInt64.toNat_mul]
    omega
  | v =>
    rw [slotAddr, slotIndex, UInt64.toNat_add, UInt64.toNat_add, UInt64.toNat_mul,
      UInt64.toNat_mul, Nat.add_mul]
    omega

theorem slot_eq (kind : KvKind) {layer : UInt64} (hlayer : layer < b.nLayers) :
    b.slot kind layer =
      region (b.base.toNat + b.slotIndex kind layer * b.bytesPer.toNat) b.bytesPer.toNat := by
  rw [slot, toNat_slotAddr kind hlayer]

/-- The tensors do not meet. -/
theorem slot_disjoint {kind kind' : KvKind} {layer layer' : UInt64} (hlayer : layer < b.nLayers)
    (hlayer' : layer' < b.nLayers) (hne : (kind, layer) ≠ (kind', layer')) :
    Disjoint (b.slot kind layer) (b.slot kind' layer') := by
  rw [slot_eq kind hlayer, slot_eq kind' hlayer']
  refine region_disjoint_of_index_ne _ _ fun h => hne ?_
  obtain ⟨rfl, rfl⟩ := slotIndex_injective hlayer hlayer' h
  rfl

theorem slot_subset_buffer (kind : KvKind) {layer : UInt64} (hlayer : layer < b.nLayers) :
    b.slot kind layer ⊆ b.buffer := by
  rw [slot_eq kind hlayer, buffer]
  refine (region_index_subset _ _ (slotIndex_lt kind hlayer)).trans (region_subset le_rfl ?_)
  rw [b.toNat_totalData, Nat.mul_comm b.bytesPer.toNat, Nat.mul_comm 2, Nat.mul_right_comm]
  omega

/-! ## Writes to the cache -/

theorem slotAddr_add_le (kind : KvKind) {layer : UInt64} (hlayer : layer < b.nLayers) :
    (b.slotAddr kind layer).toNat + b.bytesPer.toNat < 2 ^ 64 := by
  have hindex := Nat.mul_le_mul_right b.bytesPer.toNat (slotIndex_lt kind hlayer)
  have hfits := b.fits
  rw [b.toNat_totalData, Nat.mul_comm b.bytesPer.toNat, Nat.mul_right_comm,
    Nat.mul_comm b.nLayers.toNat 2] at hfits
  rw [Nat.succ_mul] at hindex
  rw [toNat_slotAddr kind hlayer]
  omega

/-- The bytes before a row, and those of the row, are bytes of a tensor. -/
theorem row_le {row : ℕ} (hrow : row < b.nCtx.toNat) :
    row * b.kvRowStride.toNat + b.kvRowStride.toNat ≤ b.bytesPer.toNat := by
  have hle := Nat.mul_le_mul_right b.kvRowStride.toNat hrow
  rw [Nat.succ_mul] at hle
  rw [b.toNat_bytesPer_eq_rows]
  exact hle

theorem row_subset_slot (kind : KvKind) (layer : UInt64) {row : ℕ} (hrow : row < b.nCtx.toNat) :
    region ((b.slotAddr kind layer).toNat + row * b.kvRowStride.toNat) b.kvRowStride.toNat ⊆
      b.slot kind layer := by
  rw [slot, b.toNat_bytesPer_eq_rows]
  exact region_index_subset _ _ hrow

theorem rowWrite_subset_slot (kind : KvKind) {layer kvHead : UInt64} (hlayer : layer < b.nLayers)
    (hhead : kvHead < b.nCtx) : b.rowWrite kind layer kvHead ⊆ b.slot kind layer := by
  have hrow := UInt64.lt_iff_toNat_lt.mp hhead
  have hend := slotAddr_add_le kind hlayer
  have hle := row_le hrow
  have haddr : (b.slotAddr kind layer + kvHead * b.kvRowStride).toNat =
      (b.slotAddr kind layer).toNat + kvHead.toNat * b.kvRowStride.toNat := by
    rw [UInt64.toNat_add, UInt64.toNat_mul]
    omega
  rw [rowWrite, haddr]
  exact row_subset_slot kind layer hrow

theorem batchWrite_subset_slot (kind : KvKind) {layer kvHead nTokens : UInt64}
    (hlayer : layer < b.nLayers) (hfits : kvHead.toNat + nTokens.toNat ≤ b.nCtx.toNat) :
    b.batchWrite kind layer kvHead nTokens ⊆ b.slot kind layer := by
  refine Set.iUnion₂_subset fun r hr => ?_
  have hrow : kvHead.toNat + r < b.nCtx.toNat := by omega
  have hend := slotAddr_add_le kind hlayer
  have hle := row_le hrow
  rw [Nat.add_mul] at hle
  have hr' : (UInt64.ofNat r).toNat = r :=
    UInt64.toNat_ofNat_of_lt' (hr.trans nTokens.toNat_lt)
  have haddr : (b.slotAddr kind layer + kvHead * b.kvRowStride +
      UInt64.ofNat r * b.kvRowStride).toNat =
        (b.slotAddr kind layer).toNat + (kvHead.toNat + r) * b.kvRowStride.toNat := by
    rw [UInt64.toNat_add, UInt64.toNat_add, UInt64.toNat_mul, UInt64.toNat_mul, hr', Nat.add_mul]
    omega
  rw [haddr]
  exact row_subset_slot kind layer hrow

end KvBuffer

/-! ## The inputs of a batch -/

/-- A buffer for the tokens and the positions of a batch. -/
structure PrefillInput where
  nTokens : UInt64
  size_lt : nTokens.toNat * 4 * 2 + 256 < 2 ^ 64
  base : UInt64
  fits : base.toNat + (nTokens * 4 * 2 + 256).toNat ≤ 2 ^ 64

namespace PrefillInput

variable (p : PrefillInput)

def tokBytes : UInt64 := p.nTokens * 4

def inpBufSize : UInt64 := p.tokBytes * 2 + 256

/-- The bytes of the tokens, rounded up to 64. -/
def posOffset : UInt64 := (p.tokBytes + 63) &&& ~~~63

def buffer : Set ℕ := region p.base.toNat p.inpBufSize.toNat

def tokenRegion : Set ℕ := region p.base.toNat p.tokBytes.toNat

def posRegion : Set ℕ := region (p.base + p.posOffset).toNat p.tokBytes.toNat

theorem toNat_tokBytes : p.tokBytes.toNat = p.nTokens.toNat * 4 := by
  have hlt := p.size_lt
  have hfour : (4 : UInt64).toNat = 4 := rfl
  rw [tokBytes, UInt64.toNat_mul, hfour]
  omega

theorem toNat_inpBufSize : p.inpBufSize.toNat = p.tokBytes.toNat * 2 + 256 := by
  have hlt := p.size_lt
  rw [← toNat_tokBytes] at hlt
  have htwo : (2 : UInt64).toNat = 2 := rfl
  have hspare : (256 : UInt64).toNat = 256 := rfl
  rw [inpBufSize, UInt64.toNat_add, UInt64.toNat_mul, htwo, hspare]
  omega

/-- Rounding up adds at most 63 bytes. -/
theorem posOffset_bounds :
    p.tokBytes.toNat ≤ p.posOffset.toNat ∧ p.posOffset.toNat ≤ p.tokBytes.toNat + 63 := by
  have hlt := p.size_lt
  rw [← toNat_tokBytes] at hlt
  have hround : (63 : UInt64).toNat = 63 := rfl
  rw [posOffset, toNat_and_not_63, UInt64.toNat_add, hround]
  omega

theorem toNat_posAddr : (p.base + p.posOffset).toNat = p.base.toNat + p.posOffset.toNat := by
  have hfits : p.base.toNat + p.inpBufSize.toNat ≤ 2 ^ 64 := p.fits
  have hbounds := p.posOffset_bounds
  rw [toNat_inpBufSize] at hfits
  rw [UInt64.toNat_add]
  omega

theorem regions : Disjoint p.tokenRegion p.posRegion ∧ p.tokenRegion ⊆ p.buffer ∧
    p.posRegion ⊆ p.buffer := by
  have hbounds := p.posOffset_bounds
  rw [tokenRegion, posRegion, buffer, toNat_posAddr, toNat_inpBufSize]
  exact ⟨region_disjoint (by omega), region_subset le_rfl (by omega),
    region_subset (by omega) (by omega)⟩

end PrefillInput

/-! ## The inputs of a single token -/

/-- A buffer for the token, the position and the mask of a decode. -/
structure DecodeInput where
  nCtx : UInt64
  size_lt : 128 + nCtx.toNat * 4 + 256 < 2 ^ 64
  base : UInt64
  fits : base.toNat + (128 + nCtx * 4 + 256).toNat ≤ 2 ^ 64

namespace DecodeInput

variable (d : DecodeInput)

def maskBytes : UInt64 := d.nCtx * 4

def inpBufSize : UInt64 := 128 + d.maskBytes + 256

def buffer : Set ℕ := region d.base.toNat d.inpBufSize.toNat

def tokenRegion : Set ℕ := region d.base.toNat 4

def posRegion : Set ℕ := region (d.base + 64).toNat 4

def maskRegion : Set ℕ := region (d.base + 128).toNat d.maskBytes.toNat

theorem toNat_maskBytes : d.maskBytes.toNat = d.nCtx.toNat * 4 := by
  have hlt := d.size_lt
  have hfour : (4 : UInt64).toNat = 4 := rfl
  rw [maskBytes, UInt64.toNat_mul, hfour]
  omega

theorem toNat_inpBufSize : d.inpBufSize.toNat = 128 + d.maskBytes.toNat + 256 := by
  have hlt := d.size_lt
  rw [← toNat_maskBytes] at hlt
  have hgap : (128 : UInt64).toNat = 128 := rfl
  have hspare : (256 : UInt64).toNat = 256 := rfl
  rw [inpBufSize, UInt64.toNat_add, UInt64.toNat_add, hgap, hspare]
  omega

theorem regions : Disjoint d.tokenRegion d.posRegion ∧ Disjoint d.tokenRegion d.maskRegion ∧
    Disjoint d.posRegion d.maskRegion ∧ d.tokenRegion ⊆ d.buffer ∧ d.posRegion ⊆ d.buffer ∧
    d.maskRegion ⊆ d.buffer := by
  have hfits : d.base.toNat + d.inpBufSize.toNat ≤ 2 ^ 64 := d.fits
  rw [toNat_inpBufSize] at hfits
  have hpos : (d.base + 64).toNat = d.base.toNat + 64 := by
    have hgap : (64 : UInt64).toNat = 64 := rfl
    rw [UInt64.toNat_add, hgap]
    omega
  have hmask : (d.base + 128).toNat = d.base.toNat + 128 := by
    have hgap : (128 : UInt64).toNat = 128 := rfl
    rw [UInt64.toNat_add, hgap]
    omega
  rw [tokenRegion, posRegion, maskRegion, buffer, hpos, hmask, toNat_inpBufSize]
  exact ⟨region_disjoint (by omega), region_disjoint (by omega), region_disjoint (by omega),
    region_subset le_rfl (by omega), region_subset (by omega) (by omega),
    region_subset (by omega) (by omega)⟩

end DecodeInput

/-- For all sizes without overflow: the tensors of a cache do not meet and lie in its buffer, the
rows that are written lie in their tensor, and the inputs of both graphs do not meet and lie in
their buffers. The sizes of the cache are those that a graph is created with. -/
theorem tensors_never_overlap (b : KvBuffer) (p : PrefillInput) (d : DecodeInput) :
    (∀ kind kind' layer layer', layer < b.nLayers → layer' < b.nLayers →
      (kind, layer) ≠ (kind', layer') → Disjoint (b.slot kind layer) (b.slot kind' layer')) ∧
    (∀ kind layer, layer < b.nLayers → b.slot kind layer ⊆ b.buffer ∧
      (∀ kvHead, kvHead < b.nCtx → b.rowWrite kind layer kvHead ⊆ b.slot kind layer) ∧
      ∀ kvHead nTokens : UInt64, kvHead.toNat + nTokens.toNat ≤ b.nCtx.toNat →
        b.batchWrite kind layer kvHead nTokens ⊆ b.slot kind layer) ∧
    (Disjoint p.tokenRegion p.posRegion ∧ p.tokenRegion ⊆ p.buffer ∧ p.posRegion ⊆ p.buffer) ∧
    (Disjoint d.tokenRegion d.posRegion ∧ Disjoint d.tokenRegion d.maskRegion ∧
      Disjoint d.posRegion d.maskRegion ∧ d.tokenRegion ⊆ d.buffer ∧ d.posRegion ⊆ d.buffer ∧
      d.maskRegion ⊆ d.buffer) ∧
    (b.nLayers.toNat < 2 ^ 32 →
      KVCache.sizes b.nLayers.toNat b.nHeadKv.toNat b.headDim.toNat b.nCtx.toNat =
        some { bytesPer := b.bytesPer.toNat
               totalData := b.totalData.toNat
               memSize := (b.nLayers.toNat * 2 + 16) * 512 }) := by
  refine ⟨fun _ _ _ _ hlayer hlayer' hne => KvBuffer.slot_disjoint hlayer hlayer' hne,
    fun kind layer hlayer => ⟨KvBuffer.slot_subset_buffer kind hlayer, ?_, ?_⟩, p.regions,
    d.regions, b.sizes_eq⟩
  · exact fun kvHead hhead => KvBuffer.rowWrite_subset_slot kind hlayer hhead
  · exact fun kvHead nTokens hfits => KvBuffer.batchWrite_subset_slot kind hlayer hfits

/-- The cache of a model of 8 billion parameters, in the upper part of the user addresses. -/
def kvLlama : KvBuffer where
  nLayers := 32
  nHeadKv := 8
  headDim := 128
  nCtx := 512
  nCtx_pos := by decide
  bytes_lt := by decide
  total_lt := by decide
  base := 0x7F2A40000000
  fits := by decide

/-- The inputs of a prompt of 24 tokens. -/
def batchLlama : PrefillInput where
  nTokens := 24
  size_lt := by decide
  base := 0x55D0C8A01000
  fits := by decide

def decodeLlama : DecodeInput where
  nCtx := 512
  size_lt := by decide
  base := 0x55D0C8A02000
  fits := by decide

/-- There the last K tensor ends before the first V tensor, the last row of the last V tensor and
a batch behind 100 cached rows lie in their tensors, and the positions of the batch, moved up from
byte 96 to byte 128, do not meet the tokens. -/
theorem tensors_never_overlap_llama :
    Disjoint (kvLlama.slot .k 31) (kvLlama.slot .v 0) ∧
      (kvLlama.rowWrite .v 31 511 ⊆ kvLlama.slot .v 31 ∧ kvLlama.slot .v 31 ⊆ kvLlama.buffer) ∧
      kvLlama.batchWrite .k 7 100 batchLlama.nTokens ⊆ kvLlama.slot .k 7 ∧
      (batchLlama.posOffset = 128 ∧ Disjoint batchLlama.tokenRegion batchLlama.posRegion) ∧
      (Disjoint decodeLlama.posRegion decodeLlama.maskRegion ∧
        decodeLlama.maskRegion ⊆ decodeLlama.buffer) ∧
      KVCache.sizes 32 8 128 512 =
        some { bytesPer := 2097152, totalData := 134218752, memSize := 40960 } := by
  obtain ⟨hdisjoint, hwrites, ⟨htokens, -, -⟩, ⟨-, -, hmask, -, -, hinside⟩, hsizes⟩ :=
    tensors_never_overlap kvLlama batchLlama decodeLlama
  obtain ⟨hbuffer, hrow, -⟩ := hwrites .v 31 (by decide)
  obtain ⟨-, -, hbatch⟩ := hwrites .k 7 (by decide)
  exact ⟨hdisjoint .k .v 31 0 (by decide) (by decide) (by decide),
    ⟨hrow 511 (by decide), hbuffer⟩, hbatch 100 24 (by decide), ⟨by decide, htokens⟩,
    ⟨hmask, hinside⟩, hsizes (by decide)⟩

end QuantumFlow
