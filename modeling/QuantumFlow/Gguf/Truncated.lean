import QuantumFlow.Foundation.Truncation
import QuantumFlow.Gguf.RoundTrip

/-!
# Truncated headers

A version 2 or 3 header whose end is missing is never accepted. It is reported as an error
unless the host refuses to make room for one of its counts: the counts stand before what they
count, so that a truncated file may well ask for more than it contains.
-/

namespace QuantumFlow.Gguf

open Encoding Reader

/-- What a version 2 or 3 header stores. Keys may repeat. -/
structure HeaderContent where
  version : UInt32
  metadata : List (String × MetaValue)
  tensors : List TensorInfo
  version_eq : version = 2 ∨ version = 3
  metadata_lt : metadata.length < 256 ^ 8
  tensors_lt : tensors.length < 256 ^ 8
  keys_fit : ∀ kv ∈ metadata, StringFits 8 kv.1
  values_fit : ∀ kv ∈ metadata, kv.2.Fits 8
  tensors_fit : ∀ t ∈ tensors, t.Fits 8

def HeaderContent.encode (c : HeaderContent) : List UInt8 :=
  leBytes 4 GGUF_MAGIC.toNat ++ (leBytes 4 c.version.toNat ++
    (leBytes 8 c.tensors.length ++ (leBytes 8 c.metadata.length ++
      (c.metadata.flatMap (encodeKeyValue 8) ++ c.tensors.flatMap (encodeTensorInfo 8)))))

def HeaderLayout.content (h : HeaderLayout) (hv : h.version = 2 ∨ h.version = 3) :
    HeaderContent where
  version := h.version
  metadata := h.metadata
  tensors := h.tensors
  version_eq := hv
  metadata_lt := countWidth_eq hv ▸ h.metadata_lt
  tensors_lt := countWidth_eq hv ▸ h.tensors_lt
  keys_fit := countWidth_eq hv ▸ h.keys_fit
  values_fit := countWidth_eq hv ▸ h.values_fit
  tensors_fit := countWidth_eq hv ▸ h.tensors_fit

theorem HeaderLayout.encode_content (h : HeaderLayout) (hv : h.version = 2 ∨ h.version = 3) :
    (h.content hv).encode = h.encode := by
  rw [HeaderLayout.encode, encodeBody, width, countWidth_eq hv]
  rfl

/-! ## Where room is asked for -/

def stringEncoding (s : String) : Encoding :=
  raw (leBytes 8 (utf8 s).length) ++ (ask (utf8 s).length ++ raw (utf8 s))

def elemEncoding : (k : ElemKind) → k.Carrier → Encoding
  | .string, v => stringEncoding v
  | k, v => raw (k.encode 8 v)

def arrayEncoding (k : ElemKind) (vs : List k.Carrier) : Encoding :=
  raw (leBytes 4 k.typeId) ++ (raw (leBytes 8 vs.length) ++
    (ask vs.length ++ concat (vs.map (elemEncoding k))))

def valueEncoding : MetaValue → Encoding
  | .single k v => raw (leBytes 4 k.typeId) ++ elemEncoding k v
  | .array k vs => raw (leBytes 4 9) ++ arrayEncoding k vs

def pairEncoding (kv : String × MetaValue) : Encoding :=
  stringEncoding kv.1 ++ valueEncoding kv.2

def tensorEncoding (t : TensorInfo) : Encoding :=
  stringEncoding t.name ++ (raw (leBytes 4 t.dims.length) ++ (ask t.dims.length ++
    (concat (t.dims.map fun d => raw (leBytes 8 d.toNat)) ++
      (raw (leBytes 4 t.ggmlType.toNat) ++ raw (leBytes 8 t.offset.toNat)))))

def HeaderContent.encoding (c : HeaderContent) : Encoding :=
  raw (leBytes 4 GGUF_MAGIC.toNat) ++ (raw (leBytes 4 c.version.toNat) ++
    (raw (leBytes 8 c.tensors.length) ++ (raw (leBytes 8 c.metadata.length) ++
      (ask c.metadata.length ++ (concat (c.metadata.map pairEncoding) ++
        (ask c.tensors.length ++ concat (c.tensors.map tensorEncoding)))))))

theorem bytes_elemEncoding (k : ElemKind) (v : k.Carrier) :
    (elemEncoding k v).bytes = k.encode 8 v := by
  cases k <;> rfl

theorem bytes_valueEncoding (v : MetaValue) : (valueEncoding v).bytes = v.encode 8 := by
  cases v with
  | single k v =>
    rw [valueEncoding, bytes_append, bytes_elemEncoding]
    rfl
  | array k vs =>
    rw [valueEncoding, arrayEncoding]
    simp only [bytes_append, bytes_concat_map, bytes_elemEncoding]
    rfl

theorem bytes_pairEncoding (kv : String × MetaValue) :
    (pairEncoding kv).bytes = encodeKeyValue 8 kv := by
  rw [pairEncoding, bytes_append, bytes_valueEncoding]
  rfl

theorem bytes_tensorEncoding (t : TensorInfo) :
    (tensorEncoding t).bytes = encodeTensorInfo 8 t := by
  rw [tensorEncoding]
  simp only [bytes_append, bytes_concat_map]
  rfl

theorem HeaderContent.bytes_encoding (c : HeaderContent) : c.encoding.bytes = c.encode := by
  rw [encoding, encode]
  simp only [bytes_append, bytes_concat_map, bytes_pairEncoding, bytes_tensorEncoding]
  rfl

/-! ## The readers -/

theorem short_readLe (w : ℕ) : Short (readLe w) w := (short_readExact _ w).bind _

section Readers

variable (serves : ℕ → ℕ → Bool)

theorem parses_readU32 (v : UInt32) : Parses serves readU32 (raw (leBytes 4 v.toNat)) v :=
  Short.parses ((short_readLe 4).bind _) (reads_readU32 v)

theorem parses_readU32_ofNat {n : ℕ} (h : n < 256 ^ 4) :
    Parses serves readU32 (raw (leBytes 4 n)) (UInt32.ofNat n) :=
  Short.parses ((short_readLe 4).bind _) (reads_readU32_ofNat h)

theorem parses_readU64 (v : UInt64) : Parses serves readU64 (raw (leBytes 8 v.toNat)) v :=
  Short.parses ((short_readLe 8).bind _) (reads_readU64 v)

theorem parses_readU64_ofNat {n : ℕ} (h : n < 256 ^ 8) :
    Parses serves readU64 (raw (leBytes 8 n)) (UInt64.ofNat n) :=
  Short.parses ((short_readLe 8).bind _) (reads_readU64_ofNat h)

theorem readCount_eq_readU64 {version : UInt32} (hw : countWidth version = 8) :
    readCount version = readU64 := by
  unfold countWidth at hw
  split at hw
  · cases hw
  · rename_i hv
    rw [readCount, if_neg hv]

theorem parses_readGgufString {s : String} (h : StringFits 8 s) :
    Parses serves (readGgufString serves) (stringEncoding s) s := by
  refine (parses_readU64_ofNat serves h).bind ?_
  rw [toNat_ofNat_u64 h]
  have hbuf : Parses serves (readExact GgufError.unexpectedEof (utf8 s).length) (raw (utf8 s))
      (utf8 s) := Short.parses (short_readExact _ _) (reads_readExact _ _)
  have hcheck : Parses serves (checkUtf8 (utf8 s)) (raw []) s := by
    rw [checkUtf8, fromUtf8_utf8]
    exact Parses.pure s
  exact (Parses.reserve _).bind (hbuf.bind_empty hcheck)

theorem parses_readGgufValueByType (k : ElemKind) {v : k.Carrier} (h : k.Fits 8 v) :
    Parses serves (readGgufValueByType serves (UInt32.ofNat k.typeId)) (elemEncoding k v)
      (k.value v) := by
  have hgenerous : Adequate fun _ _ => true := fun _ _ _ => rfl
  have hreads := reads_readGgufValueByType hgenerous k h
  -- only a string is read with a request, so that the host matters
  cases k with
  | string => exact (parses_readGgufString serves h).map GgufValue.string
  | u8 | i8 | bool => exact Short.parses (((short_readLe 1).bind _).bind _) hreads
  | u16 | i16 => exact Short.parses (((short_readLe 2).bind _).bind _) hreads
  | u32 | i32 | f32 => exact Short.parses (((short_readLe 4).bind _).bind _) hreads
  | u64 | i64 | f64 => exact Short.parses (((short_readLe 8).bind _).bind _) hreads

theorem parses_readGgufArray {version : UInt32} (hw : countWidth version = 8) (k : ElemKind)
    {vs : List k.Carrier} (h : (MetaValue.array k vs).Fits 8) :
    Parses serves (readGgufArray serves version) (arrayEncoding k vs)
      (.array (vs.map k.value)) := by
  obtain ⟨hcount, helems⟩ := h
  unfold readGgufArray
  rw [readCount_eq_readU64 hw]
  refine (parses_readU32_ofNat serves (typeId_lt k)).bind ?_
  refine (parses_readU64_ofNat serves hcount).bind ?_
  rw [toNat_ofNat_u64 hcount]
  have hvs := Parses.repeated (elemEncoding k) k.value vs fun v hv =>
    parses_readGgufValueByType serves k (helems v hv)
  exact (Parses.reserve _).bind (hvs.map GgufValue.array)

theorem parses_readGgufValue {version : UInt32} (hw : countWidth version = 8) {v : MetaValue}
    (h : v.Fits 8) : Parses serves (readGgufValue serves version) (valueEncoding v) v.value := by
  obtain ⟨body, hbody, hsingle, harray⟩ := readGgufValue_eq_bind serves version
  rw [hbody]
  cases v with
  | single k v =>
    refine (parses_readU32_ofNat serves (typeId_lt k)).bind ?_
    rw [hsingle]
    exact parses_readGgufValueByType serves k h
  | array k vs =>
    refine (parses_readU32_ofNat serves (n := 9) (by decide)).bind ?_
    rw [harray]
    exact parses_readGgufArray serves hw k h

theorem parses_readKeyValue {version : UInt32} (hw : countWidth version = 8)
    {kv : String × MetaValue} (hkey : StringFits 8 kv.1) (hvalue : kv.2.Fits 8) :
    Parses serves (readKeyValue serves version) (pairEncoding kv) (kv.1, kv.2.value) :=
  (parses_readGgufString serves hkey).bind ((parses_readGgufValue serves hw hvalue).map (kv.1, ·))

theorem parses_readTensorInfo {version : UInt32} (hw : countWidth version = 8) {t : TensorInfo}
    (h : t.Fits 8) : Parses serves (readTensorInfo serves version) (tensorEncoding t) t := by
  unfold readTensorInfo
  rw [readCount_eq_readU64 hw]
  refine (parses_readGgufString serves h.name).bind ((parses_readU32_ofNat serves h.rank).bind ?_)
  rw [toNat_ofNat_u32 h.rank]
  have hdims := Parses.repeated (fun d : UInt64 => raw (leBytes 8 d.toNat)) id t.dims
    fun d _ => parses_readU64 serves d
  rw [List.map_id] at hdims
  exact (Parses.reserve _).bind (hdims.bind ((parses_readU32 serves t.ggmlType).bind
    ((parses_readU64 serves t.offset).map _)))

/-! ## The header -/

/-- What comes after the lists reads nothing, so that no cut is in front of it. -/
theorem cuts_parseHeader (c : HeaderContent) :
    Cuts serves (parseHeader serves) c.encoding := by
  have hw := countWidth_eq c.version_eq
  have hsupported : SUPPORTED_VERSIONS.contains c.version = true := by
    rcases c.version_eq with hv | hv <;> rw [hv] <;> decide
  have hpairs := Parses.repeated pairEncoding (fun kv => (kv.1, kv.2.value)) c.metadata
    fun kv hkv => parses_readKeyValue serves hw (c.keys_fit kv hkv) (c.values_fit kv hkv)
  have htensors := Parses.repeated tensorEncoding id c.tensors
    fun t ht => parses_readTensorInfo serves hw (c.tensors_fit t ht)
  unfold parseHeader
  refine Cuts.bind (parses_readU32 serves GGUF_MAGIC) ?_
  rw [if_neg (by simp)]
  refine Cuts.bind (parses_readU32 serves c.version) ?_
  rw [if_neg (by simpa using hsupported), parseBody, readCount_eq_readU64 hw]
  refine Cuts.bind (parses_readU64_ofNat serves c.tensors_lt) ?_
  refine Cuts.bind (parses_readU64_ofNat serves c.metadata_lt) ?_
  rw [parseLists, toNat_ofNat_u64 c.tensors_lt, toNat_ofNat_u64 c.metadata_lt]
  refine Cuts.bind (Parses.reserve _) (Cuts.bind hpairs (Cuts.bind (Parses.reserve _) ?_))
  rw [← append_raw_nil (concat _)]
  exact Cuts.bind htensors (Cuts.of_empty _)

end Readers

/-! ## Every cut -/

/-- A header without its end is never accepted. It is reported exactly when the host serves the
counts that are still there. -/
theorem parse_truncated_iff (serves : ℕ → ℕ → Bool) (c : HeaderContent) {file : List UInt8}
    (hpre : file <+: c.encode) (hne : file ≠ c.encode) :
    (∀ out, GgufHeader.parse serves file ≠ .ok out) ∧
      ((∃ err, GgufHeader.parse serves file = .err err) ↔
        c.encoding.Served serves file.length) := by
  have hcuts := cuts_parseHeader serves c
  rw [← c.bytes_encoding] at hpre hne
  have hlt : file.length < c.encoding.bytes.length :=
    Nat.lt_of_le_of_ne hpre.length_le fun hlen => hne (hpre.eq_of_length hlen)
  by_cases hserved : c.encoding.Served serves file.length
  · obtain ⟨err, herr⟩ := hcuts.reports file 0 hpre hlt hserved
    have hparse : GgufHeader.parse serves file = .err err := by
      rw [GgufHeader.parse, herr, Outcome.err_bind]
    simp [hparse, hserved]
  · have hparse : GgufHeader.parse serves file = .panic := by
      rw [GgufHeader.parse, hcuts.aborts file 0 hpre hlt hserved, Outcome.panic_bind]
    simp [hparse, hserved]

/-- A host that serves what fits the bytes left, and anything below 2^63 elements. -/
def roomyHost (asked left : ℕ) : Bool := asked ≤ left || asked < 2 ^ 63

/-- A file with `n` tensors without a name and without dimensions. -/
def namelessTensors (n : ℕ) (hn : n < 256 ^ 8) : HeaderContent where
  version := 3
  metadata := []
  tensors := List.replicate n ⟨"", [], 0, 0⟩
  version_eq := Or.inr rfl
  metadata_lt := by decide
  tensors_lt := by rwa [List.length_replicate]
  keys_fit := by simp
  values_fit := by simp
  tensors_fit := by
    intro t ht
    rw [List.eq_of_mem_replicate ht]
    exact TensorInfo.fits_eight (by simp [StringFits, utf8_eq]) (by decide)

/-- The tiny layout, cut inside its first string, an array and its last descriptor. A host that
only makes room for what is there aborts on the string; one with room reports every cut. -/
theorem parse_truncated_iff_tiny :
    (∃ err, GgufHeader.parse roomyHost (tinyLayout.encode.take 66) = .err err) ∧
      (∃ err, GgufHeader.parse roomyHost (tinyLayout.encode.take 190) = .err err) ∧
      (∃ err, GgufHeader.parse roomyHost (tinyLayout.encode.take 390) = .err err) ∧
      ¬ ∃ err, GgufHeader.parse (fun asked left => asked ≤ left) (tinyLayout.encode.take 66) =
        .err err := by
  have hlen : tinyLayout.encode.length = 401 := by decide +kernel
  have hcut : ∀ (serves : ℕ → ℕ → Bool) (n : ℕ), n < 401 →
      ((∃ err, GgufHeader.parse serves (tinyLayout.encode.take n) = .err err) ↔
        (tinyLayout.content (Or.inr rfl)).encoding.Served serves n) := by
    intro serves n hn
    have htake : (tinyLayout.encode.take n).length = n := by rw [List.length_take]; omega
    have hcontent := tinyLayout.encode_content (Or.inr rfl)
    have hpre : tinyLayout.encode.take n <+: (tinyLayout.content (Or.inr rfl)).encode := by
      rw [hcontent]
      exact List.take_prefix n _
    have hne : tinyLayout.encode.take n ≠ (tinyLayout.content (Or.inr rfl)).encode := by
      intro heq
      rw [heq, hcontent] at htake
      omega
    have hreports := (parse_truncated_iff serves _ hpre hne).2
    rwa [htake] at hreports
  have hroomy : ∀ n, (tinyLayout.content (Or.inr rfl)).encoding.Served roomyHost n := by
    have hsmall : ∀ r ∈ (tinyLayout.content (Or.inr rfl)).encoding.requests, r.2 < 2 ^ 63 := by
      decide +kernel
    intro n r hr _
    simpa [roomyHost] using Or.inr (hsmall r hr)
  refine ⟨(hcut _ 66 (by decide)).mpr (hroomy 66), (hcut _ 190 (by decide)).mpr (hroomy 190),
    (hcut _ 390 (by decide)).mpr (hroomy 390), fun herr => ?_⟩
  -- of the five bytes of the string, two are there
  have hrefused : ¬ (tinyLayout.content (Or.inr rfl)).encoding.Served
      (fun asked left => asked ≤ left) 66 := by
    unfold Encoding.Served
    decide +kernel
  exact hrefused ((hcut _ 66 (by decide)).mp herr)

/-- The part in front of the tensors. -/
def namelessStart (n : ℕ) : List UInt8 :=
  leBytes 4 GGUF_MAGIC.toNat ++ (leBytes 4 3 ++ (leBytes 8 n ++ leBytes 8 0))

theorem encode_namelessTensors (n : ℕ) (hn : n < 256 ^ 8) : (namelessTensors n hn).encode =
    namelessStart n ++ (namelessTensors n hn).tensors.flatMap (encodeTensorInfo 8) := by
  have hlen : (namelessTensors n hn).tensors.length = n := List.length_replicate
  rw [HeaderContent.encode, hlen, namelessStart]
  simp only [List.append_assoc]
  rfl

theorem namelessStart_ne_encode {n : ℕ} (hn : n < 256 ^ 8) (hpos : 0 < n) :
    namelessStart n ≠ (namelessTensors n hn).encode := by
  intro h
  have hroom : (namelessTensors n hn).tensors.length ≤
      ((namelessTensors n hn).tensors.flatMap (encodeTensorInfo 8)).length :=
    length_le_flatMap fun t _ => by
      rw [encodeTensorInfo, encodeString, List.append_assoc]
      exact leBytes_append_ne_nil (by decide) _ _
  have hlen := congrArg List.length (h.trans (encode_namelessTensors n hn))
  rw [List.length_append] at hlen
  have hcount : (namelessTensors n hn).tensors.length = n := List.length_replicate
  omega

/-- A file that ends behind a count of 2^63 tensors. -/
theorem not_parse_truncated : ¬ ∀ (serves : ℕ → ℕ → Bool) (c : HeaderContent) (file : List UInt8),
    Adequate serves → file <+: c.encode → file ≠ c.encode →
    ∃ err, GgufHeader.parse serves file = .err err := by
  intro h
  have hn : 2 ^ 63 < 256 ^ 8 := by decide
  have hadequate : Adequate roomyHost := fun asked left hle => by simp [roomyHost, hle]
  have hpre : namelessStart (2 ^ 63) <+: (namelessTensors (2 ^ 63) hn).encode := by
    rw [encode_namelessTensors]
    exact List.prefix_append _ _
  obtain ⟨err, herr⟩ := h roomyHost _ _ hadequate hpre
    (namelessStart_ne_encode hn (Nat.pow_pos Nat.two_pos))
  have hpanic : GgufHeader.parse roomyHost (namelessStart (2 ^ 63)) = .panic := by rfl
  rw [hpanic] at herr
  cases herr

end QuantumFlow.Gguf
