import Mathlib.Tactic.Ring
import QuantumFlow.Gguf.Layout

/-!
# Reading back version 2 and 3 headers

One `Reads` lemma for each reader, in the order of the layout: numbers, strings, the
thirteen value kinds, key-value pairs, tensor descriptors, the header. Only the last step
looks at the alignment.
-/

namespace QuantumFlow.Gguf

open Reader

/-! ## Numbers -/

theorem reads_readLe {w n : ℕ} (h : n < 256 ^ w) : Reads (readLe w) (leBytes w n) n := by
  have hread := (reads_readExact GgufError.unexpectedEof (leBytes w n)).map leNat
  rwa [length_leBytes, leNat_leBytes h] at hread

theorem reads_readU8 (v : UInt8) : Reads readU8 (leBytes 1 v.toNat) v := by
  have h := (reads_readLe (w := 1) (n := v.toNat) v.toNat_lt).map UInt8.ofNat
  rwa [UInt8.ofNat_toNat] at h

theorem reads_readU16 (v : UInt16) : Reads readU16 (leBytes 2 v.toNat) v := by
  have h := (reads_readLe (w := 2) (n := v.toNat) v.toNat_lt).map UInt16.ofNat
  rwa [UInt16.ofNat_toNat] at h

theorem reads_readU32_ofNat {n : ℕ} (h : n < 256 ^ 4) :
    Reads readU32 (leBytes 4 n) (UInt32.ofNat n) := (reads_readLe h).map UInt32.ofNat

theorem reads_readU32 (v : UInt32) : Reads readU32 (leBytes 4 v.toNat) v := by
  have h := reads_readU32_ofNat (n := v.toNat) v.toNat_lt
  rwa [UInt32.ofNat_toNat] at h

theorem reads_readU64_ofNat {n : ℕ} (h : n < 256 ^ 8) :
    Reads readU64 (leBytes 8 n) (UInt64.ofNat n) := (reads_readLe h).map UInt64.ofNat

theorem reads_readU64 (v : UInt64) : Reads readU64 (leBytes 8 v.toNat) v := by
  have h := reads_readU64_ofNat (n := v.toNat) v.toNat_lt
  rwa [UInt64.ofNat_toNat] at h

theorem toNat_ofNat_u32 {n : ℕ} (h : n < 256 ^ 4) : (UInt32.ofNat n).toNat = n :=
  UInt32.toNat_ofNat_of_lt' h

theorem toNat_ofNat_u64 {n : ℕ} (h : n < 256 ^ 8) : (UInt64.ofNat n).toNat = n :=
  UInt64.toNat_ofNat_of_lt' h

/-- Counts are read at the width they are written with, in every version. -/
theorem reads_readCount {version : UInt32} {n : ℕ} (h : n < 256 ^ countWidth version) :
    Reads (readCount version) (leBytes (countWidth version) n) (UInt64.ofNat n) := by
  unfold readCount countWidth at *
  split at h
  · rename_i hv
    rw [if_pos hv, if_pos hv]
    have hread := (reads_readU32_ofNat h).map UInt32.toUInt64
    have hwide : (UInt32.ofNat n).toUInt64 = UInt64.ofNat n := by
      apply UInt64.toNat_inj.mp
      rw [UInt32.toNat_toUInt64, toNat_ofNat_u32 h, toNat_ofNat_u64 (by omega)]
    rwa [hwide] at hread
  · rename_i hv
    rw [if_neg hv, if_neg hv]
    exact reads_readU64_ofNat h

/-- The signed kinds are the unsigned ones read as two's complement. -/
theorem reads_i8 (v : Int8) :
    Reads (do return GgufValue.i8 (← readU8).toInt8) (leBytes 1 v.toUInt8.toNat) (.i8 v) := by
  have h := (reads_readU8 v.toUInt8).map fun b => GgufValue.i8 b.toInt8
  rwa [Int8.toInt8_toUInt8] at h

theorem reads_i16 (v : Int16) :
    Reads (do return GgufValue.i16 (← readU16).toInt16) (leBytes 2 v.toUInt16.toNat) (.i16 v) := by
  have h := (reads_readU16 v.toUInt16).map fun b => GgufValue.i16 b.toInt16
  rwa [Int16.toInt16_toUInt16] at h

theorem reads_i32 (v : Int32) :
    Reads (do return GgufValue.i32 (← readU32).toInt32) (leBytes 4 v.toUInt32.toNat) (.i32 v) := by
  have h := (reads_readU32 v.toUInt32).map fun b => GgufValue.i32 b.toInt32
  rwa [Int32.toInt32_toUInt32] at h

theorem reads_i64 (v : Int64) :
    Reads (do return GgufValue.i64 (← readU64).toInt64) (leBytes 8 v.toUInt64.toNat) (.i64 v) := by
  have h := (reads_readU64 v.toUInt64).map fun b => GgufValue.i64 b.toInt64
  rwa [Int64.toInt64_toUInt64] at h

theorem reads_bool (v : Bool) :
    Reads (do return GgufValue.bool ((← readU8) != 0)) (leBytes 1 v.toNat) (.bool v) := by
  have h := (reads_readU8 (UInt8.ofNat v.toNat)).map fun b => GgufValue.bool (b != 0)
  cases v <;> exact h

/-! ## Strings and values -/

theorem typeId_lt (k : ElemKind) : k.typeId < 256 ^ 4 := by cases k <;> decide

theorem reads_checkUtf8 (s : String) : Reads (checkUtf8 (utf8 s)) [] s := by
  rw [checkUtf8, fromUtf8_utf8]
  exact Reads.pure s

theorem leBytes_append_ne_nil {w : ℕ} (hw : 0 < w) (n : ℕ) (bs : List UInt8) :
    leBytes w n ++ bs ≠ [] := by
  intro h
  have hlen := congrArg List.length h
  simp only [List.length_append, length_leBytes, List.length_nil] at hlen
  omega

theorem encode_ne_nil (k : ElemKind) (v : k.Carrier) : k.encode 8 v ≠ [] := by
  cases k with
  | string => exact leBytes_append_ne_nil (by decide) _ _
  | _ => exact fun h => absurd (congrArg List.length h) (by simp [ElemKind.encode])

/-- After its type, a single value is read like an element of an array. -/
theorem readGgufValue_eq_bind (serves : ℕ → ℕ → Bool) (version : UInt32) :
    ∃ body, readGgufValue serves version = readU32 >>= body ∧
      (∀ k : ElemKind, body (UInt32.ofNat k.typeId) =
        readGgufValueByType serves (UInt32.ofNat k.typeId)) ∧
      body (UInt32.ofNat 9) = readGgufArray serves version := by
  refine ⟨_, rfl, fun k => ?_, rfl⟩
  rw [readGgufValueByType, toNat_ofNat_u32 (typeId_lt k)]
  cases k <;> simp only [ElemKind.typeId]

section Values

variable {serves : ℕ → ℕ → Bool} (hserves : Adequate serves)
include hserves

theorem reads_readGgufString {s : String} (h : StringFits 8 s) :
    Reads (readGgufString serves) (encodeString 8 s) s := by
  refine (reads_readU64_ofNat h).bind ?_
  rw [toNat_ofNat_u64 h]
  refine Reads.reserve hserves ?_ le_rfl
  have hbuf := (reads_readExact GgufError.unexpectedEof (utf8 s)).bind (reads_checkUtf8 s)
  rwa [List.append_nil] at hbuf

theorem reads_readGgufValueByType (k : ElemKind) {v : k.Carrier} (h : k.Fits 8 v) :
    Reads (readGgufValueByType serves (UInt32.ofNat k.typeId)) (k.encode 8 v) (k.value v) := by
  cases k with
  | u8 => exact (reads_readU8 v).map GgufValue.u8
  | i8 => exact reads_i8 v
  | u16 => exact (reads_readU16 v).map GgufValue.u16
  | i16 => exact reads_i16 v
  | u32 => exact (reads_readU32 v).map GgufValue.u32
  | i32 => exact reads_i32 v
  | f32 => exact (reads_readU32 v).map GgufValue.f32
  | bool => exact reads_bool v
  | string => exact (reads_readGgufString hserves h).map GgufValue.string
  | u64 => exact (reads_readU64 v).map GgufValue.u64
  | i64 => exact reads_i64 v
  | f64 => exact (reads_readU64 v).map GgufValue.f64

theorem reads_readGgufArray {version : UInt32} (hw : countWidth version = 8) (k : ElemKind)
    {vs : List k.Carrier} (h : (MetaValue.array k vs).Fits 8) :
    Reads (readGgufArray serves version) (encodeArray 8 k vs) (.array (vs.map k.value)) := by
  obtain ⟨hcount, helems⟩ := h
  refine (reads_readU32_ofNat (typeId_lt k)).bind ?_
  rw [← hw] at hcount
  have hread := reads_readCount hcount
  rw [hw] at hread
  refine hread.bind ?_
  rw [hw] at hcount
  rw [toNat_ofNat_u64 hcount]
  refine Reads.reserve hserves ?_ (length_le_flatMap fun v _ => encode_ne_nil k v)
  exact (reads_repeated (k.encode 8) k.value vs fun v hv =>
    reads_readGgufValueByType hserves k (helems v hv)).map GgufValue.array

theorem reads_readGgufValue {version : UInt32} (hw : countWidth version = 8) {v : MetaValue}
    (h : v.Fits 8) : Reads (readGgufValue serves version) (v.encode 8) v.value := by
  obtain ⟨body, hbody, hsingle, harray⟩ := readGgufValue_eq_bind serves version
  rw [hbody]
  cases v with
  | single k v =>
    refine (reads_readU32_ofNat (typeId_lt k)).bind ?_
    rw [hsingle]
    exact reads_readGgufValueByType hserves k h
  | array k vs =>
    refine (reads_readU32_ofNat (n := 9) (by decide)).bind ?_
    rw [harray]
    exact reads_readGgufArray hserves hw k h

theorem reads_readKeyValue {version : UInt32} (hw : countWidth version = 8)
    {kv : String × MetaValue} (hkey : StringFits 8 kv.1) (hvalue : kv.2.Fits 8) :
    Reads (readKeyValue serves version) (encodeKeyValue 8 kv) (kv.1, kv.2.value) :=
  (reads_readGgufString hserves hkey).bind
    ((reads_readGgufValue hserves hw hvalue).map (kv.1, ·))

theorem reads_readTensorInfo {version : UInt32} (hw : countWidth version = 8) {t : TensorInfo}
    (h : t.Fits 8) : Reads (readTensorInfo serves version) (encodeTensorInfo 8 t) t := by
  refine (reads_readGgufString hserves h.name).bind ((reads_readU32_ofNat h.rank).bind ?_)
  have hdim : ∀ d ∈ t.dims, Reads (readCount version) (leBytes 8 d.toNat) d := by
    intro d hd
    have hfits : d.toNat < 256 ^ countWidth version := by
      rw [hw]
      exact h.dims d hd
    have hread := reads_readCount hfits
    rwa [hw, UInt64.ofNat_toNat] at hread
  have hdims := reads_repeated (fun d : UInt64 => leBytes 8 d.toNat) id t.dims hdim
  rw [List.map_id] at hdims
  have hroom : t.dims.length ≤ (t.dims.flatMap fun d => leBytes 8 d.toNat).length :=
    length_le_flatMap fun d _ => by
      simpa using leBytes_append_ne_nil (w := 8) (by decide) d.toNat []
  rw [toNat_ofNat_u32 h.rank]
  refine Reads.reserve hserves ?_ (hroom.trans (by simp))
  exact hdims.bind ((reads_readU32 t.ggmlType).bind ((reads_readU64 t.offset).map _))

end Values

/-! ## The header -/

/-- The reader divides by zero exactly when the file stores a zero alignment. -/
theorem alignmentOf_eq_zero_iff (m : Dict String GgufValue) :
    alignmentOf m = 0 ↔ m.get "general.alignment" = some (.u32 0) := by
  unfold alignmentOf
  cases hget : m.get "general.alignment" with
  | none => simp
  | some v =>
    cases v with
    | u32 a =>
      simp only [Option.bind_some, GgufValue.asU32, Option.getD_some, Option.some.injEq,
        GgufValue.u32.injEq]
      exact UInt32.toNat_inj (b := 0)
    | _ => simp [GgufValue.asU32]

/-- The format's alignment is the reader's, unless the file stores a zero. -/
theorem HeaderLayout.alignment_eq {h : HeaderLayout} (hzero : alignmentOf h.metadataMap ≠ 0) :
    h.alignment = alignmentOf h.metadataMap := by
  unfold alignment alignmentOf at *
  cases hget : h.metadataMap.get "general.alignment" with
  | none => rfl
  | some v =>
    cases v <;> simp_all [GgufValue.asU32]
    · rename_i a
      intro ha
      simp [ha] at hzero

/-- Rounding up is the least multiple from a bound on. -/
theorem isLeast_roundUp (pos : ℕ) {a : ℕ} (ha : 0 < a) :
    IsLeast {m | a ∣ m ∧ pos ≤ m} ((pos + a - 1) / a * a) := by
  have hdiv := Nat.div_add_mod (pos + a - 1) a
  have hmod := Nat.mod_lt (pos + a - 1) ha
  rw [Nat.mul_comm] at hdiv
  refine ⟨⟨Dvd.intro_left _ rfl, by omega⟩, ?_⟩
  rintro m ⟨⟨q, rfl⟩, hle⟩
  have hq : (pos + a - 1) / a ≤ q := by
    rw [← Nat.lt_succ_iff, Nat.div_lt_iff_lt_mul ha]
    calc pos + a - 1 < a * q + a := by omega
      _ = (q + 1) * a := by ring
  calc (pos + a - 1) / a * a ≤ q * a := Nat.mul_le_mul_right a hq
    _ = a * q := Nat.mul_comm q a

theorem countWidth_eq {version : UInt32} (hv : version = 2 ∨ version = 3) :
    countWidth version = 8 := by
  rcases hv with rfl | rfl <;> decide

section Header

variable {serves : ℕ → ℕ → Bool} (hserves : Adequate serves)
variable (h : HeaderLayout) (hv : h.version = 2 ∨ h.version = 3)
include hserves hv

/-- The lists of the header come back whole, and the cursor stands at its end. -/
theorem parseBody_run (data : List UInt8) (pos : ℕ) :
    parseBody serves h.version ⟨h.encodeBody ++ data, pos⟩ =
      if alignmentOf h.metadataMap = 0 then .panic
      else .ok (⟨h.version, UInt64.ofNat h.tensors.length, h.metadataMap, h.tensors,
        (pos + h.encodeBody.length + alignmentOf h.metadataMap - 1) /
          alignmentOf h.metadataMap * alignmentOf h.metadataMap⟩,
        ⟨data, pos + h.encodeBody.length⟩) := by
  have hw := countWidth_eq hv
  have hcounts := reads_readCount h.tensors_lt
  have hkvs := reads_readCount h.metadata_lt
  have hpairs := reads_repeated (p := readKeyValue serves h.version) (encodeKeyValue 8)
    (fun kv => (kv.1, kv.2.value)) h.metadata fun kv hkv =>
      reads_readKeyValue hserves hw (hw ▸ h.keys_fit kv hkv) (hw ▸ h.values_fit kv hkv)
  have htensors := reads_repeated (p := readTensorInfo serves h.version) (encodeTensorInfo 8)
    id h.tensors fun t ht => reads_readTensorInfo hserves hw (hw ▸ h.tensors_fit t ht)
  have hkvroom : h.metadata.length ≤ (h.metadata.flatMap (encodeKeyValue 8)).length :=
    length_le_flatMap fun kv _ => by
      rw [encodeKeyValue, encodeString, List.append_assoc]
      exact leBytes_append_ne_nil (by decide) _ _
  have htroom : h.tensors.length ≤ (h.tensors.flatMap (encodeTensorInfo 8)).length :=
    length_le_flatMap fun t _ => by
      rw [encodeTensorInfo, encodeString, List.append_assoc]
      exact leBytes_append_ne_nil (by decide) _ _
  have htlt := h.tensors_lt
  have hmlt := h.metadata_lt
  rw [hw] at hcounts hkvs htlt hmlt
  rw [List.map_id] at htensors
  unfold parseBody HeaderLayout.encodeBody HeaderLayout.width
  rw [hw]
  simp only [List.append_assoc]
  rw [hcounts.bind_run, hkvs.bind_run, parseLists, toNat_ofNat_u64 hmlt, toNat_ofNat_u64 htlt,
    reserve_bind_run hserves (by simp only [List.length_append]; omega), hpairs.bind_run,
    reserve_bind_run hserves (by simp only [List.length_append]; omega), htensors.bind_run]
  change (if alignmentOf h.metadataMap = 0 then abort else _ : Reader GgufError GgufHeader) _ = _
  split
  · rfl
  · simp only [pure_run, HeaderLayout.metadataMap, List.length_append, Nat.add_assoc]

theorem parse_encode (data : List UInt8) :
    GgufHeader.parse serves (h.encode ++ data) =
      if alignmentOf h.metadataMap = 0 then .panic
      else .ok ⟨h.version, UInt64.ofNat h.tensors.length, h.metadataMap, h.tensors,
        (h.encode.length + alignmentOf h.metadataMap - 1) /
          alignmentOf h.metadataMap * alignmentOf h.metadataMap⟩ := by
  have hmagic := (reads_readU32 GGUF_MAGIC)
  have hversion := reads_readU32 h.version
  have hsupported : SUPPORTED_VERSIONS.contains h.version = true := by
    rcases hv with hv | hv <;> rw [hv] <;> decide
  have hlen : h.encode.length = 0 + 4 + 4 + h.encodeBody.length := by
    simp only [HeaderLayout.encode, List.length_append, length_leBytes]
    omega
  unfold GgufHeader.parse parseHeader
  rw [HeaderLayout.encode, List.append_assoc, hmagic.bind_run, if_neg (by simp),
    List.append_assoc, hversion.bind_run, if_neg (by simpa using hsupported),
    parseBody_run hserves h hv, length_leBytes, length_leBytes, ← hlen]
  split <;> rfl

end Header

/-! ## Decode undoes encode -/

/-- The reader returns the encoded header, with the least aligned data offset, on exactly
the layouts that store no zero alignment. -/
theorem parse_encode_iff {serves : ℕ → ℕ → Bool} (hserves : Adequate serves) (h : HeaderLayout)
    (hv : h.version = 2 ∨ h.version = 3) (data : List UInt8) :
    (∃ out, GgufHeader.parse serves (h.encode ++ data) = .ok out ∧ h.IsHeader out) ↔
      ∀ kv ∈ h.metadata, kv.1 = "general.alignment" → kv.2.value ≠ .u32 0 := by
  have hzero : (∀ kv ∈ h.metadata, kv.1 = "general.alignment" → kv.2.value ≠ .u32 0) ↔
      alignmentOf h.metadataMap ≠ 0 := by
    rw [ne_eq, alignmentOf_eq_zero_iff, h.get_metadataMap]
    exact ⟨fun hall ⟨kv, hkv, hk, hval⟩ => hall kv hkv hk hval,
      fun hnone kv hkv hk hval => hnone ⟨kv, hkv, hk, hval⟩⟩
  rw [parse_encode hserves h hv, hzero]
  constructor
  · rintro ⟨out, hout, -⟩ hz
    rw [if_pos hz] at hout
    cases hout
  · intro hne
    rw [if_neg hne]
    refine ⟨_, rfl, ⟨h.get_metadataMap, rfl⟩, rfl, ?_, ?_⟩
    · exact toNat_ofNat_u64 (countWidth_eq hv ▸ h.tensors_lt)
    · rw [h.alignment_eq hne]
      exact isLeast_roundUp _ (Nat.pos_of_ne_zero hne)

/-- Strings, numbers, arrays of two kinds and two tensors, aligned to 64 bytes. -/
def tinyLayout : HeaderLayout where
  version := 3
  metadata := [("general.architecture", .single .string ("llama" : String)),
    ("general.alignment", .single .u32 (64 : UInt32)),
    ("llama.rope.scale", .single .i16 (-2 : Int16)),
    ("tokenizer.ggml.tokens", .array .string (["a", "ö"] : List String)),
    ("tokenizer.ggml.token_type", .array .i32 ([1, 3] : List Int32)),
    ("tokenizer.ggml.add_bos_token", .single .bool true)]
  tensors := [{ name := "token_embd.weight", dims := [32, 2], ggmlType := 0, offset := 0 },
    { name := "output_norm.weight", dims := [32], ggmlType := 0, offset := 256 }]
  keys_nodup := by decide
  metadata_lt := by decide
  tensors_lt := by decide
  keys_fit := by simp [StringFits, utf8_eq, countWidth]; decide
  values_fit := by
    simp only [List.mem_cons, List.not_mem_nil, or_false, forall_eq_or_imp, forall_eq]
    refine ⟨?_, trivial, trivial, ⟨by decide, ?_⟩, ⟨by decide, fun _ _ => trivial⟩, trivial⟩
    · simp [MetaValue.Fits, ElemKind.Fits, StringFits, utf8_eq, countWidth]; decide
    · intro v hv
      rcases List.mem_pair.mp hv with rfl | rfl <;>
        (simp [ElemKind.Fits, StringFits, utf8_eq, countWidth]; decide)
  tensors_fit := by
    simp only [List.mem_cons, List.not_mem_nil, or_false, forall_eq_or_imp, forall_eq]
    refine ⟨TensorInfo.fits_eight ?_ (by decide), TensorInfo.fits_eight ?_ (by decide)⟩ <;>
      (simp [StringFits, utf8_eq]; decide)

/-- Its content is read back in front of the padding and the data of the tensors, which start at
the first multiple of 64. -/
theorem parse_encode_iff_tiny : ∃ out,
    GgufHeader.parse (fun asked left => asked ≤ left)
        (tinyLayout.encode ++ (List.replicate 47 0 ++ List.replicate 384 7)) = .ok out ∧
      out.tensors = tinyLayout.tensors ∧
      out.metadata.get "tokenizer.ggml.tokens" = some (.array [.string "a", .string "ö"]) ∧
      out.metadata.get "llama.rope.scale" = some (.i16 (-2)) ∧ out.dataOffset = 448 := by
  have hnonzero : ∀ kv ∈ tinyLayout.metadata, kv.1 = "general.alignment" →
      kv.2.value ≠ .u32 0 := by
    simp [tinyLayout, MetaValue.value, ElemKind.value]
  have hadequate : Adequate fun asked left => asked ≤ left := fun _ _ h => decide_eq_true h
  obtain ⟨out, hout, hheader⟩ := (parse_encode_iff hadequate tinyLayout (Or.inr rfl)
    (List.replicate 47 0 ++ List.replicate 384 7)).mpr hnonzero
  have htokens : ("tokenizer.ggml.tokens", .array .string (["a", "ö"] : List String)) ∈
      tinyLayout.metadata := by simp [tinyLayout]
  have hscale : ("llama.rope.scale", .single .i16 (-2 : Int16)) ∈ tinyLayout.metadata := by
    simp [tinyLayout]
  refine ⟨out, hout, hheader.tensors, (hheader.metadata _ _).mpr ⟨_, htokens, rfl, rfl⟩,
    (hheader.metadata _ _).mpr ⟨_, hscale, rfl, rfl⟩, ?_⟩
  · have halign : tinyLayout.alignment = 64 := by decide +kernel
    have hlen : tinyLayout.encode.length = 401 := by decide +kernel
    have hleast := hheader.dataOffset
    rw [halign, hlen] at hleast
    exact hleast.unique (isLeast_roundUp 401 (by decide))

/-- A version 3 file whose only metadata pair is a zero alignment. -/
def zeroAlignment : HeaderLayout where
  version := 3
  metadata := [("general.alignment", .single .u32 (0 : UInt32))]
  tensors := []
  keys_nodup := List.nodup_singleton _
  metadata_lt := by decide
  tensors_lt := by decide
  keys_fit := by simp [StringFits, utf8_eq, countWidth]; decide
  values_fit := by simp [MetaValue.Fits, ElemKind.Fits]
  tensors_fit := by simp

/-- Reading back the zero alignment aborts. -/
theorem not_parse_encode : ¬ ∀ (serves : ℕ → ℕ → Bool) (h : HeaderLayout) (data : List UInt8),
    Adequate serves → (h.version = 2 ∨ h.version = 3) →
    ∃ out, GgufHeader.parse serves (h.encode ++ data) = .ok out ∧ h.IsHeader out := by
  intro hall
  obtain ⟨out, hout, -⟩ := hall (fun _ _ => true) zeroAlignment [] (fun _ _ _ => rfl) (Or.inr rfl)
  have hzero : alignmentOf zeroAlignment.metadataMap = 0 := rfl
  rw [parse_encode (fun _ _ _ => rfl) zeroAlignment (Or.inr rfl), if_pos hzero] at hout
  cases hout

end QuantumFlow.Gguf
