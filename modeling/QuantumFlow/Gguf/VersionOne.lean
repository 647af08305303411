import QuantumFlow.Gguf.RoundTrip

/-!
# Version 1 headers

The reader takes eight bytes for every string length, the version 1 layout writes four. A
reader that returns the encoded content has therefore consumed four bytes more than the
layout wrote for each string, and there is a string in every key-value pair and in every
tensor descriptor.
-/

namespace QuantumFlow.Gguf

open Reader

/-! ## What the readers consume -/

/-- The bytes the reader takes for a value that is no array. -/
def elemSize : GgufValue → ℕ
  | .u8 _ | .i8 _ | .bool _ => 1
  | .u16 _ | .i16 _ => 2
  | .u32 _ | .i32 _ | .f32 _ => 4
  | .u64 _ | .i64 _ | .f64 _ => 8
  | .string s => 8 + (utf8 s).length
  | .array _ => 0

/-- The bytes the version 1 reader takes after the type tag of a value. -/
def valueSize : GgufValue → ℕ
  | .array vs => 8 + (vs.map elemSize).sum
  | v => elemSize v

def keyValueSize (kv : String × GgufValue) : ℕ := 8 + (utf8 kv.1).length + (4 + valueSize kv.2)

def tensorSize (t : TensorInfo) : ℕ := 8 + (utf8 t.name).length + (4 + (4 * t.dims.length + 12))

theorem consumes_readLe (w : ℕ) : Consumes (readLe w) fun _ n => n = w :=
  (consumes_readExact _ w).bind fun _ _ h => Consumes.pure h.1

theorem consumes_readU8 : Consumes readU8 fun _ n => n = 1 :=
  (consumes_readLe 1).bind fun _ _ h => Consumes.pure h

theorem consumes_readU16 : Consumes readU16 fun _ n => n = 2 :=
  (consumes_readLe 2).bind fun _ _ h => Consumes.pure h

theorem consumes_readU32 : Consumes readU32 fun _ n => n = 4 :=
  (consumes_readLe 4).bind fun _ _ h => Consumes.pure h

theorem consumes_readU64 : Consumes readU64 fun _ n => n = 8 :=
  (consumes_readLe 8).bind fun _ _ h => Consumes.pure h

theorem consumes_readCount : Consumes (readCount 1) fun _ n => n = 4 :=
  consumes_readU32.bind fun _ _ h => Consumes.pure h

section Allocation

variable (serves : ℕ → ℕ → Bool)

theorem consumes_checkUtf8 (buf : List UInt8) :
    Consumes (checkUtf8 buf) fun s n => n = 0 ∧ utf8 s = buf := by
  unfold checkUtf8
  split
  · rename_i s hs
    exact Consumes.pure ⟨rfl, fromUtf8_eq_some_iff.mp hs⟩
  · exact consumes_fail _ _

theorem consumes_readGgufString :
    Consumes (readGgufString serves) fun s n => n = 8 + (utf8 s).length := by
  refine consumes_readU64.bind fun len n hn => ?_
  refine (consumes_reserve serves _).bind fun _ m hm => ?_
  refine (consumes_readExact _ _).bind fun buf k hk => ?_
  refine (consumes_checkUtf8 buf).mono fun s j hj => ?_
  rw [hj.2]
  omega

theorem consumes_readGgufValueByType (typeId : UInt32) :
    Consumes (readGgufValueByType serves typeId) fun v n => n = elemSize v := by
  unfold readGgufValueByType
  split
  case h_1 | h_2 | h_8 => exact consumes_readU8.bind fun _ _ h => Consumes.pure h
  case h_3 | h_4 => exact consumes_readU16.bind fun _ _ h => Consumes.pure h
  case h_5 | h_6 | h_7 => exact consumes_readU32.bind fun _ _ h => Consumes.pure h
  case h_9 =>
    exact (consumes_readGgufString serves).bind fun _ _ h => Consumes.pure h
  case h_10 | h_11 | h_12 => exact consumes_readU64.bind fun _ _ h => Consumes.pure h
  case h_13 => exact consumes_fail _ _

theorem consumes_readGgufArray :
    Consumes (readGgufArray serves 1) fun v n => n = valueSize v := by
  refine consumes_readU32.bind fun elemType n hn => ?_
  refine consumes_readCount.bind fun count m hm => ?_
  refine (consumes_reserve serves _).bind fun _ k hk => ?_
  have helem := consumes_readGgufValueByType serves elemType
  refine (consumes_repeated _ helem _).bind fun arr j hj => Consumes.pure ?_
  simp only [valueSize]
  omega

theorem consumes_readGgufValue :
    Consumes (readGgufValue serves 1) fun v n => n = 4 + valueSize v := by
  refine consumes_readU32.bind fun typeId n hn => ?_
  subst hn
  split
  case h_1 | h_2 | h_8 => exact consumes_readU8.bind fun _ _ h => Consumes.pure (by rw [h]; rfl)
  case h_3 | h_4 => exact consumes_readU16.bind fun _ _ h => Consumes.pure (by rw [h]; rfl)
  case h_5 | h_6 | h_7 => exact consumes_readU32.bind fun _ _ h => Consumes.pure (by rw [h]; rfl)
  case h_9 =>
    exact (consumes_readGgufString serves).bind fun _ _ h => Consumes.pure (by rw [h]; rfl)
  case h_10 => exact (consumes_readGgufArray serves).mono fun v n h => by rw [h]
  case h_11 | h_12 | h_13 => exact consumes_readU64.bind fun _ _ h => Consumes.pure (by rw [h]; rfl)
  case h_14 => exact consumes_fail _ _

theorem consumes_readKeyValue :
    Consumes (readKeyValue serves 1) fun kv n => n = keyValueSize kv := by
  refine (consumes_readGgufString serves).bind fun key n hn => ?_
  refine (consumes_readGgufValue serves).bind fun value m hm => Consumes.pure ?_
  simp only [keyValueSize]
  omega

theorem consumes_readTensorInfo :
    Consumes (readTensorInfo serves 1) fun t n => n = tensorSize t := by
  refine (consumes_readGgufString serves).bind fun name n hn => ?_
  refine consumes_readU32.bind fun nDims m hm => ?_
  refine (consumes_reserve serves _).bind fun _ k hk => ?_
  refine (consumes_repeated (fun _ => 4) consumes_readCount _).bind fun dims j hj => ?_
  refine consumes_readU32.bind fun ggmlType i hi => ?_
  refine consumes_readU64.bind fun offset l hl => Consumes.pure ?_
  have hsum : (dims.map fun _ => 4).sum = 4 * dims.length := by simp [Nat.mul_comm]
  simp only [tensorSize]
  omega

/-- A version 1 header that is returned has cost what its pairs and tensors cost. -/
theorem consumes_parseLists (nTensors nKv : UInt64) :
    Consumes (parseLists serves 1 nTensors nKv) fun out n =>
      ∃ pairs, pairs.length = nKv.toNat ∧ out.metadata = Dict.empty.insertAll pairs ∧
        n = (pairs.map keyValueSize).sum + (out.tensors.map tensorSize).sum := by
  refine (consumes_reserve serves _).bind fun _ k hk => ?_
  refine (consumes_repeated _ (consumes_readKeyValue serves) _).bind fun pairs n hn => ?_
  refine (consumes_reserve serves _).bind fun _ j hj => ?_
  refine (consumes_repeated _ (consumes_readTensorInfo serves) _).bind fun tensors m hm => ?_
  refine consumes_position.bind fun pos i hi => ?_
  dsimp only
  split
  · exact consumes_abort _
  · exact Consumes.pure ⟨pairs, hn.1, rfl, by simp only; omega⟩

end Allocation

/-! ## What the layout wrote -/

theorem length_encode_elem (k : ElemKind) (v : k.Carrier) :
    (k.encode 4 v).length ≤ elemSize (k.value v) := by
  cases k <;> simp [ElemKind.encode, ElemKind.value, elemSize, encodeString]

theorem valueSize_single (k : ElemKind) (v : k.Carrier) :
    valueSize (k.value v) = elemSize (k.value v) := by
  cases k <;> rfl

theorem length_encode_value (v : MetaValue) : (v.encode 4).length ≤ 4 + valueSize v.value := by
  cases v with
  | single k v =>
    have helem := length_encode_elem k v
    simp only [MetaValue.encode, MetaValue.value, List.length_append, length_leBytes,
      valueSize_single]
    omega
  | array k vs =>
    have helems : (vs.flatMap (k.encode 4)).length ≤ ((vs.map k.value).map elemSize).sum := by
      have helem : ∀ v ∈ vs, (k.encode 4 v).length + 0 ≤ elemSize (k.value v) :=
        fun v _ => length_encode_elem k v
      have hsum := length_flatMap_add_le vs helem
      simpa [List.map_map, Function.comp_def] using hsum
    simp only [MetaValue.encode, MetaValue.value, encodeArray, List.length_append, length_leBytes,
      valueSize]
    omega

theorem length_encodeKeyValue (kv : String × MetaValue) :
    (encodeKeyValue 4 kv).length + 4 ≤ keyValueSize (kv.1, kv.2.value) := by
  have hvalue := length_encode_value kv.2
  simp only [encodeKeyValue, encodeString, List.length_append, length_leBytes, keyValueSize]
  omega

theorem length_encodeTensorInfo (t : TensorInfo) :
    (encodeTensorInfo 4 t).length + 4 ≤ tensorSize t := by
  have hdims : (t.dims.flatMap fun d => leBytes 4 d.toNat).length = 4 * t.dims.length := by
    simp [List.length_flatMap, Nat.mul_comm]
  simp only [encodeTensorInfo, encodeString, List.length_append, length_leBytes, hdims, tensorSize]
  omega

/-! ## Exactness -/

section Exact

variable {serves : ℕ → ℕ → Bool} {h : HeaderLayout} (hv : h.version = 1)
include hv

theorem parse_v1 (data : List UInt8) :
    GgufHeader.parse serves (h.encode ++ data) =
      (parseLists serves 1 (UInt64.ofNat h.tensors.length) (UInt64.ofNat h.metadata.length)
        ⟨h.metadata.flatMap (encodeKeyValue 4) ++ (h.tensors.flatMap (encodeTensorInfo 4) ++ data),
          16⟩ >>= fun r => pure r.1) := by
  have hw : countWidth h.version = 4 := by rw [hv]; rfl
  have hcounts := reads_readCount h.tensors_lt
  have hkvs := reads_readCount h.metadata_lt
  rw [hw, hv] at hcounts hkvs
  unfold GgufHeader.parse parseHeader
  rw [HeaderLayout.encode, List.append_assoc, (reads_readU32 GGUF_MAGIC).bind_run,
    if_neg (by simp), List.append_assoc, (reads_readU32 h.version).bind_run, hv,
    if_neg (by decide), parseBody, HeaderLayout.encodeBody, HeaderLayout.width, hw]
  simp only [List.append_assoc]
  rw [hcounts.bind_run, hkvs.bind_run]
  simp only [length_leBytes]

/-- Content that comes back whole has cost four bytes of trailing data for every pair and
every tensor. -/
theorem four_mul_le_of_sameContent {data : List UInt8} {out : GgufHeader}
    (hout : GgufHeader.parse serves (h.encode ++ data) = .ok out) (hsame : h.SameContent out) :
    4 * (h.metadata.length + h.tensors.length) ≤ data.length := by
  rw [parse_v1 hv, Outcome.bind_eq_ok] at hout
  obtain ⟨⟨out', c⟩, hrun, hpure⟩ := hout
  cases hpure
  obtain ⟨n, hn, pairs, hlen, hmap, hsize⟩ := consumes_parseLists serves _ _ _ _ _ hrun
  have hmlt := h.metadata_lt
  rw [hv, show countWidth 1 = 4 from rfl] at hmlt
  rw [toNat_ofNat_u64 (by omega)] at hlen
  -- the pairs that were read are the encoded ones, in some order
  have hperm : (h.metadata.map fun kv => (kv.1, kv.2.value)).Perm pairs := by
    refine Dict.perm_of_insertAll_eq h.map_keys_nodup (by simp [hlen]) ?_
    rw [← hmap]
    ext k v
    exact (hsame.metadata k v).trans (h.get_metadataMap k v).symm
  have hpairs : (pairs.map keyValueSize).sum =
      (h.metadata.map fun kv => keyValueSize (kv.1, kv.2.value)).sum := by
    rw [← (hperm.map keyValueSize).sum_nat, List.map_map]
    rfl
  have hmeta := length_flatMap_add_le h.metadata fun kv _ => length_encodeKeyValue kv
  have htens := length_flatMap_add_le h.tensors fun t _ => length_encodeTensorInfo t
  rw [hsame.tensors, hpairs] at hsize
  simp only [List.length_append] at hn
  omega

/-- Without pairs and tensors there is no string to misread. -/
theorem parse_v1_empty (hserves : Adequate serves) (hm : h.metadata = []) (ht : h.tensors = [])
    (data : List UInt8) :
    ∃ out, GgufHeader.parse serves (h.encode ++ data) = .ok out ∧ h.SameContent out := by
  have hroom : serves 0 data.length = true := hserves 0 _ (Nat.zero_le _)
  rw [parse_v1 hv, hm, ht]
  refine ⟨⟨1, 0, Dict.empty, [], 32⟩, ?_, ?_, ht.symm⟩
  · simp [-bind_pure_comp, parseLists, bind_run, reserve, hroom, repeated, pure_run, position,
      alignmentOf]
  · simp [hm]

end Exact

/-- A version 1 header followed by `data` is read back. -/
def ReadsBack (serves : ℕ → ℕ → Bool) (h : HeaderLayout) (data : List UInt8) : Prop :=
  ∃ out, GgufHeader.parse serves (h.encode ++ data) = .ok out ∧ h.SameContent out

/-- Version 1 is read back exactly when there is nothing to read: whatever follows the header,
and already when fewer than four bytes follow it. -/
theorem parse_v1_iff {serves : ℕ → ℕ → Bool} (hserves : Adequate serves) (h : HeaderLayout)
    (hv : h.version = 1) :
    ((∀ data, ReadsBack serves h data) ↔ h.metadata = [] ∧ h.tensors = []) ∧
      ∀ data, data.length < 4 → (ReadsBack serves h data ↔ h.metadata = [] ∧ h.tensors = []) := by
  have hshort : ∀ data : List UInt8, data.length < 4 → ReadsBack serves h data →
      h.metadata = [] ∧ h.tensors = [] := by
    rintro data hdata ⟨out, hout, hsame⟩
    have hle := four_mul_le_of_sameContent hv hout hsame
    exact ⟨List.eq_nil_of_length_eq_zero (by omega), List.eq_nil_of_length_eq_zero (by omega)⟩
  have hempty : h.metadata = [] ∧ h.tensors = [] → ∀ data, ReadsBack serves h data :=
    fun hnil data => parse_v1_empty hv hserves hnil.1 hnil.2 data
  exact ⟨⟨fun hall => hshort [] (by decide) (hall []), hempty⟩,
    fun data hdata => ⟨hshort data hdata, fun hnil => hempty hnil data⟩⟩

/-- A file with no metadata and no tensors. -/
def emptyLayout (version : UInt32) : HeaderLayout where
  version := version
  metadata := []
  tensors := []
  keys_nodup := List.nodup_nil
  metadata_lt := Nat.pow_pos (by decide)
  tensors_lt := Nat.pow_pos (by decide)
  keys_fit := by simp
  values_fit := by simp
  tensors_fit := by simp

/-- A version 1 file that only names its architecture. -/
def llamaV1 : HeaderLayout where
  version := 1
  metadata := [("general.architecture", .single .string ("llama" : String))]
  tensors := []
  keys_nodup := List.nodup_singleton _
  metadata_lt := by decide
  tensors_lt := by decide
  keys_fit := by simp [StringFits, utf8_eq, countWidth]; decide
  values_fit := by simp [MetaValue.Fits, ElemKind.Fits, StringFits, utf8_eq, countWidth]; decide
  tensors_fit := by simp

/-- A header without pairs and tensors is read back whatever follows it; one that names its
architecture is not read back in front of three bytes. -/
theorem parse_v1_iff_llamaV1 : ReadsBack (fun _ _ => true) (emptyLayout 1) [1, 2, 3, 4, 5] ∧
    ¬ ReadsBack (fun _ _ => true) llamaV1 [1, 2, 3] := by
  have hgenerous : Reader.Adequate fun _ _ => true := fun _ _ _ => rfl
  refine ⟨(parse_v1_iff hgenerous (emptyLayout 1) rfl).1.mpr ⟨rfl, rfl⟩ _, fun hreads => ?_⟩
  have hnone := ((parse_v1_iff hgenerous llamaV1 rfl).2 [1, 2, 3] (by decide)).mp hreads
  exact absurd hnone.1 (List.cons_ne_nil _ _)

/-- The architecture is not read back. -/
theorem not_parse_v1 : ¬ ∀ (serves : ℕ → ℕ → Bool) (h : HeaderLayout) (data : List UInt8),
    Adequate serves → h.version = 1 → ReadsBack serves h data := by
  intro hall
  obtain ⟨out, hout, hsame⟩ := hall (fun _ _ => true) llamaV1 [] (fun _ _ _ => rfl) rfl
  have hle := four_mul_le_of_sameContent rfl hout hsame
  exact absurd hle (by decide)

end QuantumFlow.Gguf
