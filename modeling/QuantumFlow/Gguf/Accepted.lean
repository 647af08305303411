import QuantumFlow.Foundation.Format
import QuantumFlow.Foundation.Spelling
import QuantumFlow.Gguf.Truncated

/-!
# What the header reader accepts

The bytes that spell a header, for each version and down to the last byte: any byte but zero is
`true`, an empty array may name any type for the elements it does not have, keys may repeat, and
strings count their bytes with eight bytes even in version 1. The reader accepts exactly the files
that start with such bytes, and returns the header they spell.
-/

namespace QuantumFlow.Gguf

open Reader

/-! ## What bytes spell -/

def StringSpelled (s : String) (x : List UInt8) : Prop := StringFits 8 s ∧ x = encodeString 8 s

/-- The value of an element of a kind; a `bool` has 255 ways to be true. -/
def ElemKind.Spelled : (k : ElemKind) → k.Carrier → List UInt8 → Prop
  | bool, v, x => ∃ b : UInt8, v = (b != 0) ∧ x = leBytes 1 b.toNat
  | k, v, x => k.Fits 8 v ∧ x = k.encode 8 v

def ElemSpelled (typeId : UInt32) (v : GgufValue) (x : List UInt8) : Prop :=
  ∃ (k : ElemKind) (c : k.Carrier), typeId.toNat = k.typeId ∧ v = k.value c ∧ k.Spelled c x

/-- Counts take `w` bytes. -/
def ArraySpelled (w : ℕ) (v : GgufValue) (x : List UInt8) : Prop :=
  ∃ (elemType : UInt32) (vs : List GgufValue) (xs : List (List UInt8)),
    v = .array vs ∧ vs.length < 256 ^ w ∧
      x = leBytes 4 elemType.toNat ++ (leBytes w vs.length ++ xs.flatten) ∧
      List.Forall₂ (ElemSpelled elemType) vs xs

def ValueSpelled (w : ℕ) (v : GgufValue) (x : List UInt8) : Prop :=
  ∃ (typeId : UInt32) (y : List UInt8), x = leBytes 4 typeId.toNat ++ y ∧
    (typeId.toNat = 9 ∧ ArraySpelled w v y ∨ ElemSpelled typeId v y)

def PairSpelled (w : ℕ) (kv : String × GgufValue) (x : List UInt8) : Prop :=
  ∃ y z, x = y ++ z ∧ StringSpelled kv.1 y ∧ ValueSpelled w kv.2 z

structure TensorSpelled (w : ℕ) (t : TensorInfo) (x : List UInt8) : Prop where
  name : StringFits 8 t.name
  rank : t.dims.length < 256 ^ 4
  dims : ∀ d ∈ t.dims, d.toNat < 256 ^ w
  bytes : x = encodeString 8 t.name ++ (leBytes 4 t.dims.length ++
    (t.dims.flatMap (fun d => leBytes w d.toNat) ++
      (leBytes 4 t.ggmlType.toNat ++ leBytes 8 t.offset.toNat)))

/-- The lists of a header, with the bytes of each pair and each tensor. -/
structure ListsSpelled (w : ℕ) (pairs : List (String × GgufValue)) (tensors : List TensorInfo)
    (x : List UInt8) : Prop where
  metadata_lt : pairs.length < 256 ^ w
  tensors_lt : tensors.length < 256 ^ w
  bytes : ∃ xs ys, x = leBytes w tensors.length ++ (leBytes w pairs.length ++
    (xs.flatten ++ ys.flatten)) ∧ List.Forall₂ (PairSpelled w) pairs xs ∧
      List.Forall₂ (TensorSpelled w) tensors ys

/-- A whole header. A key that repeats keeps its last value; the tensor data starts at the first
multiple of the alignment that is not before the end of the bytes. -/
structure HeaderSpelled (out : GgufHeader) (x : List UInt8) : Prop where
  supported : out.version ∈ SUPPORTED_VERSIONS
  nTensors : out.nTensors.toNat = out.tensors.length
  alignment : alignmentOf out.metadata ≠ 0
  dataOffset : IsLeast {m | alignmentOf out.metadata ∣ m ∧ x.length ≤ m} out.dataOffset
  bytes : ∃ pairs y, x = leBytes 4 GGUF_MAGIC.toNat ++ (leBytes 4 out.version.toNat ++ y) ∧
    out.metadata = Dict.empty.insertAll pairs ∧
      ListsSpelled (countWidth out.version) pairs out.tensors y

/-! ## Numbers -/

theorem spells_readLe (w : ℕ) : Spells (readLe w) fun _ n x => n < 256 ^ w ∧ x = leBytes w n := by
  refine ((Spells.readExact GgufError.unexpectedEof w).map leNat).congr fun _ n x => ?_
  constructor
  · rintro ⟨bs, rfl, rfl, rfl⟩
    exact ⟨leNat_lt x, (leBytes_leNat x).symm⟩
  · rintro ⟨hlt, rfl⟩
    exact ⟨_, (leNat_leBytes hlt).symm, rfl, length_leBytes w n⟩

/-- Numbers of `w` bytes under another type. -/
theorem spells_number {α : Type} {w : ℕ} {f : ℕ → α} {g : α → ℕ}
    (hfg : ∀ n < 256 ^ w, g (f n) = n) (hgf : ∀ a, f (g a) = a) (hg : ∀ a, g a < 256 ^ w) :
    Spells (do let n ← readLe w; pure (f n)) fun _ v x => x = leBytes w (g v) := by
  refine ((spells_readLe w).map f).congr fun _ v x => ?_
  constructor
  · rintro ⟨n, rfl, hlt, rfl⟩
    rw [hfg n hlt]
  · rintro rfl
    exact ⟨g v, (hgf v).symm, hg v, rfl⟩

theorem spells_readU8 : Spells readU8 fun _ v x => x = leBytes 1 v.toNat :=
  spells_number (fun _ h => UInt8.toNat_ofNat_of_lt' h) (fun _ => UInt8.ofNat_toNat)
    fun v => v.toNat_lt

theorem spells_readU16 : Spells readU16 fun _ v x => x = leBytes 2 v.toNat :=
  spells_number (fun _ h => UInt16.toNat_ofNat_of_lt' h) (fun _ => UInt16.ofNat_toNat)
    fun v => v.toNat_lt

theorem spells_readU32 : Spells readU32 fun _ v x => x = leBytes 4 v.toNat :=
  spells_number (fun _ h => toNat_ofNat_u32 h) (fun _ => UInt32.ofNat_toNat) fun v => v.toNat_lt

theorem spells_readU64 : Spells readU64 fun _ v x => x = leBytes 8 v.toNat :=
  spells_number (fun _ h => toNat_ofNat_u64 h) (fun _ => UInt64.ofNat_toNat) fun v => v.toNat_lt

theorem spells_readCount (version : UInt32) :
    Spells (readCount version) fun _ v x =>
      v.toNat < 256 ^ countWidth version ∧ x = leBytes (countWidth version) v.toNat := by
  unfold readCount countWidth
  split
  · refine (spells_readU32.map UInt32.toUInt64).congr fun _ v x => ?_
    constructor
    · rintro ⟨u, rfl, rfl⟩
      rw [UInt32.toNat_toUInt64]
      exact ⟨u.toNat_lt, rfl⟩
    · rintro ⟨hlt, rfl⟩
      refine ⟨UInt32.ofNat v.toNat, ?_, by rw [toNat_ofNat_u32 hlt]⟩
      apply UInt64.toNat_inj.mp
      rw [UInt32.toNat_toUInt64, toNat_ofNat_u32 hlt]
  · refine spells_readU64.congr fun _ v x => ?_
    rw [and_iff_right]
    exact v.toNat_lt

/-- A number, and what is read by it. -/
theorem spells_readU32_bind {α : Type} {f : UInt32 → Reader GgufError α}
    {U : UInt32 → ℕ → α → List UInt8 → Prop} (hf : ∀ v, Spells (f v) (U v)) :
    Spells (readU32 >>= f) fun pos a z =>
      ∃ v y, z = leBytes 4 v.toNat ++ y ∧ U v (pos + 4) a y := by
  refine (spells_readU32.bind hf).congr fun pos a z => ?_
  constructor
  · rintro ⟨v, x, y, rfl, rfl, hU⟩
    exact ⟨v, y, rfl, by rwa [length_leBytes] at hU⟩
  · rintro ⟨v, y, rfl, hU⟩
    exact ⟨v, _, y, rfl, rfl, by rwa [length_leBytes]⟩

/-! ## Strings and values -/

theorem spells_checkUtf8 (buf : List UInt8) :
    Spells (checkUtf8 buf) fun _ s x => utf8 s = buf ∧ x = [] := by
  unfold checkUtf8
  cases h : fromUtf8 buf with
  | some t =>
    have ht := fromUtf8_eq_some_iff.mp h
    refine (Spells.pure t).congr fun _ s x => and_congr_left fun _ => ?_
    rw [← ht]
    exact utf8_injective.eq_iff.symm
  | none =>
    refine (Spells.fail _).congr fun _ s x => ?_
    rw [false_iff]
    rintro ⟨rfl, -⟩
    simp at h

/-- The values of a kind whose bytes are a number. -/
theorem spells_kind (k : ElemKind) {α : Type} {p : Reader GgufError α} {w : ℕ} {n : α → ℕ}
    (hp : Spells p fun _ a x => x = leBytes w (n a)) (f : α → k.Carrier) (g : k.Carrier → α)
    (hgf : ∀ a, g (f a) = a) (hfg : ∀ c, f (g c) = c)
    (hk : ∀ c x, k.Spelled c x ↔ x = leBytes w (n (g c))) :
    Spells (do let a ← p; pure (k.value (f a))) fun _ v x =>
      ∃ c : k.Carrier, v = k.value c ∧ k.Spelled c x := by
  refine (hp.map fun a => k.value (f a)).congr fun _ v x => ?_
  constructor
  · rintro ⟨a, rfl, rfl⟩
    exact ⟨f a, rfl, (hk _ _).mpr (by rw [hgf])⟩
  · rintro ⟨c, rfl, hx⟩
    exact ⟨g c, by rw [hfg], (hk _ _).mp hx⟩

theorem typeId_injective : Function.Injective ElemKind.typeId := by
  intro k l h
  cases k <;> cases l <;> first | rfl | cases h

/-- Under the type of a kind, the values of that kind. -/
theorem elemSpelled_iff {k : ElemKind} {typeId : UInt32} (h : typeId.toNat = k.typeId)
    {v : GgufValue} {x : List UInt8} :
    ElemSpelled typeId v x ↔ ∃ c : k.Carrier, v = k.value c ∧ k.Spelled c x := by
  constructor
  · rintro ⟨l, c, hl, hv, hx⟩
    obtain rfl := typeId_injective (h.symm.trans hl)
    exact ⟨c, hv, hx⟩
  · rintro ⟨c, hv, hx⟩
    exact ⟨k, c, h, hv, hx⟩

theorem ElemSpelled.length_pos {typeId : UInt32} {v : GgufValue} {x : List UInt8}
    (h : ElemSpelled typeId v x) : 0 < x.length := by
  obtain ⟨k, c, -, -, hx⟩ := h
  cases k with
  | bool =>
    obtain ⟨b, -, rfl⟩ := hx
    simp
  | _ =>
    obtain ⟨-, rfl⟩ := hx
    exact List.length_pos_iff.mpr (encode_ne_nil _ c)

theorem StringSpelled.length_pos {s : String} {x : List UInt8} (h : StringSpelled s x) :
    0 < x.length := by
  obtain ⟨-, rfl⟩ := h
  simp [encodeString]

theorem PairSpelled.length_pos {w : ℕ} {kv : String × GgufValue} {x : List UInt8}
    (h : PairSpelled w kv x) : 0 < x.length := by
  obtain ⟨y, z, rfl, hkey, -⟩ := h
  exact hkey.length_pos.trans_le (by simp)

theorem TensorSpelled.length_pos {w : ℕ} {t : TensorInfo} {x : List UInt8}
    (h : TensorSpelled w t x) : 0 < x.length := by
  rw [h.bytes, encodeString]
  simp

theorem countWidth_le (version : UInt32) : countWidth version ≤ 8 := by
  unfold countWidth
  split <;> decide

/-- The types without a kind. -/
theorem unknown_typeId {n : ℕ} (h : ¬ ∃ k : ElemKind, n = k.typeId) : n = 9 ∨ 12 < n := by
  have hne : ∀ k : ElemKind, n ≠ k.typeId := fun k hk => h ⟨k, hk⟩
  have hlow : n ≠ 0 ∧ n ≠ 1 ∧ n ≠ 2 ∧ n ≠ 3 ∧ n ≠ 4 ∧ n ≠ 5 :=
    ⟨hne .u8, hne .i8, hne .u16, hne .i16, hne .u32, hne .i32⟩
  have hhigh : n ≠ 6 ∧ n ≠ 7 ∧ n ≠ 8 ∧ n ≠ 10 ∧ n ≠ 11 ∧ n ≠ 12 :=
    ⟨hne .f32, hne .bool, hne .string, hne .u64, hne .i64, hne .f64⟩
  omega

theorem countWidth_pos (version : UInt32) : 0 < countWidth version := by
  unfold countWidth
  split <;> decide

theorem readGgufValueByType_of_unknown (serves : ℕ → ℕ → Bool) {typeId : UInt32}
    (h : ¬ ∃ k : ElemKind, typeId.toNat = k.typeId) :
    ∃ e, readGgufValueByType serves typeId = fail e := by
  have htype := unknown_typeId h
  unfold readGgufValueByType
  split <;> first | exact ⟨_, rfl⟩ | omega

/-- What follows the type of a value. -/
theorem readGgufValue_cases (serves : ℕ → ℕ → Bool) (version : UInt32) :
    ∃ body, readGgufValue serves version = readU32 >>= body ∧
      (∀ t : UInt32, (∃ k : ElemKind, t.toNat = k.typeId) →
        body t = readGgufValueByType serves t) ∧
      (∀ t : UInt32, t.toNat = 9 → body t = readGgufArray serves version) ∧
      ∀ t : UInt32, t.toNat ≠ 9 → (¬ ∃ k : ElemKind, t.toNat = k.typeId) →
        ∃ e, body t = fail e := by
  refine ⟨_, rfl, ?_, fun t hnine => ?_, fun t hnine hk => ?_⟩
  · rintro t ⟨k, hk⟩
    rw [readGgufValueByType, hk]
    cases k <;> simp only [ElemKind.typeId]
  · rw [hnine]
    rfl
  · have htype := unknown_typeId hk
    split <;> first | exact ⟨_, rfl⟩ | omega

/-- The dimensions, of which there are as many as were announced. -/
theorem spells_dims (version : UInt32) (n : ℕ) :
    Spells (repeated (readCount version) n) fun _ dims x =>
      dims.length = n ∧ (∀ d ∈ dims, d.toNat < 256 ^ countWidth version) ∧
        x = dims.flatMap fun d => leBytes (countWidth version) d.toNat := by
  refine ((spells_readCount version).repeated n).congr fun _ dims x => and_congr_right fun _ => ?_
  constructor
  · rintro ⟨xs, rfl, hall⟩
    obtain ⟨hlt, rfl⟩ := forall₂_eq_iff.mp hall
    exact ⟨hlt, List.flatMap_def.symm⟩
  · rintro ⟨hlt, rfl⟩
    exact ⟨_, List.flatMap_def, forall₂_eq_iff.mpr ⟨hlt, rfl⟩⟩

/-- The header that the lists make, when they end at `stop`. -/
structure ListsMake (version : UInt32) (nTensors : UInt64) (pairs : List (String × GgufValue))
    (stop : ℕ) (out : GgufHeader) : Prop where
  version : out.version = version
  nTensors : out.nTensors = nTensors
  metadata : out.metadata = Dict.empty.insertAll pairs
  alignment : alignmentOf out.metadata ≠ 0
  dataOffset : out.dataOffset =
    (stop + alignmentOf out.metadata - 1) / alignmentOf out.metadata * alignmentOf out.metadata

/-- A header that is read from the position `pos` on. -/
def HeaderAt (pos : ℕ) (out : GgufHeader) (x : List UInt8) : Prop :=
  out.version ∈ SUPPORTED_VERSIONS ∧ out.nTensors.toNat = out.tensors.length ∧
    ∃ pairs y, x = leBytes 4 GGUF_MAGIC.toNat ++ (leBytes 4 out.version.toNat ++ y) ∧
      ListsSpelled (countWidth out.version) pairs out.tensors y ∧
      ListsMake out.version out.nTensors pairs (pos + x.length) out

theorem headerAt_zero_iff {out : GgufHeader} {x : List UInt8} :
    HeaderAt 0 out x ↔ HeaderSpelled out x := by
  rw [HeaderAt, Nat.zero_add]
  constructor
  · rintro ⟨hversion, hcount, pairs, y, hx, hlists, hmake⟩
    refine ⟨hversion, hcount, hmake.alignment, ?_, pairs, y, hx, hmake.metadata, hlists⟩
    rw [hmake.dataOffset]
    exact isLeast_roundUp _ (Nat.pos_of_ne_zero hmake.alignment)
  · rintro ⟨hversion, hcount, halign, hoffset, pairs, y, hx, hmetadata, hlists⟩
    refine ⟨hversion, hcount, pairs, y, hx, hlists, rfl, rfl, hmetadata, halign, ?_⟩
    exact hoffset.unique (isLeast_roundUp _ (Nat.pos_of_ne_zero halign))

/-- What is done once the lists are read. -/
theorem spells_finish (version : UInt32) (nTensors : UInt64) (metadata : Dict String GgufValue)
    (tensors : List TensorInfo) :
    Spells (do
        let pos ← position
        let alignment := alignmentOf metadata
        if alignment = 0 then abort
        else
          return { version, nTensors, metadata, tensors,
                    dataOffset := (pos + alignment - 1) / alignment * alignment } :
        Reader GgufError GgufHeader)
      fun pos out x => x = [] ∧ alignmentOf metadata ≠ 0 ∧
        out = { version, nTensors, metadata, tensors,
                dataOffset := (pos + alignmentOf metadata - 1) / alignmentOf metadata *
                  alignmentOf metadata } := by
  by_cases hzero : alignmentOf metadata = 0
  · simp only [hzero, if_true]
    refine (Spells.position.bind fun _ => Spells.abort).congr fun _ out x => ?_
    simp
  · simp only [hzero, if_false]
    refine (Spells.position.bind fun pos => Spells.pure _).congr fun pos out z => ?_
    constructor
    · rintro ⟨_, _, _, rfl, ⟨rfl, rfl⟩, rfl, rfl⟩
      exact ⟨rfl, hzero, rfl⟩
    · rintro ⟨rfl, -, rfl⟩
      exact ⟨pos, [], [], rfl, ⟨rfl, rfl⟩, rfl, rfl⟩

section Values

variable {serves : ℕ → ℕ → Bool} (hserves : Adequate serves)
include hserves

theorem spells_readGgufString : Spells (readGgufString serves) fun _ s x => StringSpelled s x := by
  have hbuf (len : UInt64) :
      Spells (do let buf ← readExact .unexpectedEof len.toNat; checkUtf8 buf)
        fun _ s x => x = utf8 s ∧ (utf8 s).length = len.toNat := by
    refine ((Spells.readExact _ len.toNat).bind spells_checkUtf8).congr fun _ s z => ?_
    constructor
    · rintro ⟨_, x, y, rfl, ⟨rfl, hlen⟩, rfl, rfl⟩
      exact ⟨List.append_nil _, hlen⟩
    · rintro ⟨rfl, hlen⟩
      exact ⟨utf8 s, _, [], (List.append_nil _).symm, ⟨rfl, hlen⟩, rfl, rfl⟩
  refine (spells_readU64.bind fun len => (hbuf len).reserve hserves ?_).congr fun _ s z => ?_
  · rintro _ s x ⟨rfl, hlen⟩
    exact hlen.ge
  · constructor
    · rintro ⟨len, x, y, rfl, rfl, rfl, hlen⟩
      exact ⟨by rw [StringFits, hlen]; exact len.toNat_lt, by rw [encodeString, hlen]⟩
    · rintro ⟨hfits, rfl⟩
      have hlen := toNat_ofNat_u64 hfits
      exact ⟨UInt64.ofNat (utf8 s).length, _, utf8 s, rfl, by rw [hlen], rfl, hlen.symm⟩

/-- The reader of each kind reads what spells a value of that kind. -/
theorem spells_readGgufValueByType_kind (k : ElemKind) :
    Spells (readGgufValueByType serves (UInt32.ofNat k.typeId)) fun _ v x =>
      ∃ c : k.Carrier, v = k.value c ∧ k.Spelled c x := by
  cases k with
  | u8 =>
    exact spells_kind .u8 spells_readU8 id id (fun _ => rfl) (fun _ => rfl) fun _ _ =>
      iff_of_eq (true_and _)
  | i8 =>
    exact spells_kind .i8 spells_readU8 UInt8.toInt8 Int8.toUInt8 UInt8.toUInt8_toInt8
      Int8.toInt8_toUInt8 fun _ _ => iff_of_eq (true_and _)
  | u16 =>
    exact spells_kind .u16 spells_readU16 id id (fun _ => rfl) (fun _ => rfl) fun _ _ =>
      iff_of_eq (true_and _)
  | i16 =>
    exact spells_kind .i16 spells_readU16 UInt16.toInt16 Int16.toUInt16 UInt16.toUInt16_toInt16
      Int16.toInt16_toUInt16 fun _ _ => iff_of_eq (true_and _)
  | u32 =>
    exact spells_kind .u32 spells_readU32 id id (fun _ => rfl) (fun _ => rfl) fun _ _ =>
      iff_of_eq (true_and _)
  | i32 =>
    exact spells_kind .i32 spells_readU32 UInt32.toInt32 Int32.toUInt32 UInt32.toUInt32_toInt32
      Int32.toInt32_toUInt32 fun _ _ => iff_of_eq (true_and _)
  | f32 =>
    exact spells_kind .f32 spells_readU32 id id (fun _ => rfl) (fun _ => rfl) fun _ _ =>
      iff_of_eq (true_and _)
  | bool =>
    refine (spells_readU8.map fun b => GgufValue.bool (b != 0)).congr fun _ v x => ?_
    constructor
    · rintro ⟨b, rfl, rfl⟩
      exact ⟨(b != 0 : Bool), rfl, b, rfl, rfl⟩
    · rintro ⟨_, rfl, b, rfl, rfl⟩
      exact ⟨b, rfl, rfl⟩
  | string =>
    exact ((spells_readGgufString hserves).map GgufValue.string).congr fun _ v x => Iff.rfl
  | u64 =>
    exact spells_kind .u64 spells_readU64 id id (fun _ => rfl) (fun _ => rfl) fun _ _ =>
      iff_of_eq (true_and _)
  | i64 =>
    exact spells_kind .i64 spells_readU64 UInt64.toInt64 Int64.toUInt64 UInt64.toUInt64_toInt64
      Int64.toInt64_toUInt64 fun _ _ => iff_of_eq (true_and _)
  | f64 =>
    exact spells_kind .f64 spells_readU64 id id (fun _ => rfl) (fun _ => rfl) fun _ _ =>
      iff_of_eq (true_and _)

theorem spells_readGgufValueByType (typeId : UInt32) :
    Spells (readGgufValueByType serves typeId) fun _ v x => ElemSpelled typeId v x := by
  by_cases h : ∃ k : ElemKind, typeId.toNat = k.typeId
  · obtain ⟨k, hk⟩ := h
    have htype : typeId = UInt32.ofNat k.typeId := by rw [← hk, UInt32.ofNat_toNat]
    rw [htype]
    exact (spells_readGgufValueByType_kind hserves k).congr fun _ v x =>
      (elemSpelled_iff (by rw [← htype, hk])).symm
  · obtain ⟨e, he⟩ := readGgufValueByType_of_unknown serves h
    rw [he]
    refine (Spells.fail e).congr fun _ v x => ?_
    rw [false_iff]
    rintro ⟨k, c, hk, -⟩
    exact h ⟨k, hk⟩

theorem spells_readGgufArray (version : UInt32) :
    Spells (readGgufArray serves version) fun _ v x => ArraySpelled (countWidth version) v x := by
  have helems (elemType : UInt32) (count : UInt64) :
      Spells (do
          reserve serves count.toNat
          let arr ← repeated (readGgufValueByType serves elemType) count.toNat
          return GgufValue.array arr) fun _ v x => ∃ vs, v = .array vs ∧ vs.length = count.toNat ∧
            ∃ xs, x = xs.flatten ∧ List.Forall₂ (ElemSpelled elemType) vs xs := by
    refine Spells.reserve hserves
      (((spells_readGgufValueByType hserves elemType).repeated count.toNat).map GgufValue.array) ?_
    rintro _ _ _ ⟨vs, rfl, hlen, xs, rfl, hall⟩
    rw [← hlen]
    exact length_le_flatten hall fun v x hx => hx.length_pos
  refine (spells_readU32_bind fun elemType => (spells_readCount version).bind
    (helems elemType)).congr fun _ v z => ?_
  constructor
  · rintro ⟨elemType, _, rfl, count, x, y, rfl, ⟨hlt, rfl⟩, vs, rfl, hlen, xs, rfl, hall⟩
    exact ⟨elemType, vs, xs, rfl, hlen ▸ hlt, by rw [hlen], hall⟩
  · rintro ⟨elemType, vs, xs, rfl, hlt, rfl, hall⟩
    have hcount := toNat_ofNat_u64 (hlt.trans_le (Nat.pow_le_pow_right (by decide)
      (countWidth_le version)))
    exact ⟨elemType, _, rfl, UInt64.ofNat vs.length, _, xs.flatten, rfl, ⟨by rwa [hcount],
      by rw [hcount]⟩, vs, rfl, hcount.symm, xs, rfl, hall⟩

theorem spells_readGgufValue (version : UInt32) :
    Spells (readGgufValue serves version) fun _ v x => ValueSpelled (countWidth version) v x := by
  obtain ⟨body, hbody, hkind, harray, hunknown⟩ := readGgufValue_cases serves version
  rw [hbody]
  refine spells_readU32_bind (U := fun t _ v y =>
    t.toNat = 9 ∧ ArraySpelled (countWidth version) v y ∨ ElemSpelled t v y) fun typeId => ?_
  by_cases hnine : typeId.toNat = 9
  · rw [harray typeId hnine]
    refine (spells_readGgufArray hserves version).congr fun _ v x => ?_
    rw [and_iff_right hnine, or_iff_left]
    rintro ⟨k, c, hk, -⟩
    rw [hnine] at hk
    cases k <;> cases hk
  · simp only [hnine, false_and, false_or]
    by_cases hk : ∃ k : ElemKind, typeId.toNat = k.typeId
    · rw [hkind typeId hk]
      exact spells_readGgufValueByType hserves typeId
    · obtain ⟨e, he⟩ := hunknown typeId hnine hk
      rw [he]
      refine (Spells.fail e).congr fun _ v x => ?_
      rw [false_iff]
      rintro ⟨k, c, hc, -⟩
      exact hk ⟨k, hc⟩

/-! ## Pairs and tensors -/

theorem spells_readKeyValue (version : UInt32) :
    Spells (readKeyValue serves version) fun _ kv x =>
      PairSpelled (countWidth version) kv x := by
  refine ((spells_readGgufString hserves).bind fun key =>
    (spells_readGgufValue hserves version).map fun value => (key, value)).congr fun _ kv z => ?_
  constructor
  · rintro ⟨key, x, y, rfl, hkey, value, rfl, hvalue⟩
    exact ⟨x, y, rfl, hkey, hvalue⟩
  · rintro ⟨x, y, rfl, hkey, hvalue⟩
    exact ⟨kv.1, x, y, rfl, hkey, kv.2, rfl, hvalue⟩

theorem spells_readTensorInfo (version : UInt32) :
    Spells (readTensorInfo serves version) fun _ t x =>
      TensorSpelled (countWidth version) t x := by
  have hrest (name : String) (nDims : UInt32) :
      Spells (do
          reserve serves nDims.toNat
          let dims ← repeated (readCount version) nDims.toNat
          let ggmlType ← readU32
          let offset ← readU64
          return ({ name, dims, ggmlType, offset } : TensorInfo)) fun _ t x =>
            t.name = name ∧ t.dims.length = nDims.toNat ∧
              (∀ d ∈ t.dims, d.toNat < 256 ^ countWidth version) ∧
              x = t.dims.flatMap (fun d => leBytes (countWidth version) d.toNat) ++
                (leBytes 4 t.ggmlType.toNat ++ leBytes 8 t.offset.toNat) := by
    refine Spells.reserve hserves (((spells_dims version nDims.toNat).bind fun dims =>
      spells_readU32_bind fun ggmlType => spells_readU64.map fun offset =>
        ({ name, dims, ggmlType, offset } : TensorInfo)).congr fun _ t z => ?_) ?_
    · constructor
      · rintro ⟨dims, _, y, rfl, ⟨hlen, hlt, rfl⟩, ggmlType, _, rfl, offset, rfl, rfl⟩
        exact ⟨rfl, hlen, hlt, rfl⟩
      · rintro ⟨rfl, hlen, hlt, rfl⟩
        exact ⟨t.dims, _, _, rfl, ⟨hlen, hlt, rfl⟩, t.ggmlType, _, rfl, t.offset, rfl, rfl⟩
    · rintro _ t x ⟨-, hlen, -, rfl⟩
      have hdims : t.dims.length ≤
          (t.dims.flatMap fun d => leBytes (countWidth version) d.toNat).length :=
        length_le_flatMap fun d _ => by
          simpa using leBytes_append_ne_nil (countWidth_pos version) d.toNat []
      rw [List.length_append]
      omega
  refine ((spells_readGgufString hserves).bind fun name => spells_readU32_bind
    (hrest name)).congr fun _ t z => ?_
  constructor
  · rintro ⟨_, _, _, rfl, ⟨hname, rfl⟩, nDims, _, rfl, rfl, hlen, hlt, rfl⟩
    exact ⟨hname, hlen ▸ nDims.toNat_lt, hlt, by rw [hlen]⟩
  · rintro ⟨hname, hrank, hlt, rfl⟩
    have hlen := toNat_ofNat_u32 hrank
    exact ⟨t.name, _, _, rfl, ⟨hname, rfl⟩, UInt32.ofNat t.dims.length, _, by rw [hlen], rfl,
      hlen.symm, hlt, rfl⟩

/-! ## The header -/

theorem spells_parseLists (version : UInt32) (nTensors nKv : UInt64) :
    Spells (parseLists serves version nTensors nKv) fun pos out z =>
      ∃ pairs xs ys, pairs.length = nKv.toNat ∧ out.tensors.length = nTensors.toNat ∧
        z = xs.flatten ++ ys.flatten ∧
        List.Forall₂ (PairSpelled (countWidth version)) pairs xs ∧
        List.Forall₂ (TensorSpelled (countWidth version)) out.tensors ys ∧
        ListsMake version nTensors pairs (pos + z.length) out := by
  have htensors (pairs : List (String × GgufValue)) :
      Spells (do
          reserve serves nTensors.toNat
          let tensors ← repeated (readTensorInfo serves version) nTensors.toNat
          let pos ← position
          let alignment := alignmentOf (Dict.empty.insertAll pairs)
          if alignment = 0 then abort
          else
            return { version, nTensors, metadata := Dict.empty.insertAll pairs, tensors,
                     dataOffset := (pos + alignment - 1) / alignment * alignment } :
          Reader GgufError GgufHeader) fun pos out z =>
        ∃ ys, out.tensors.length = nTensors.toNat ∧ z = ys.flatten ∧
          List.Forall₂ (TensorSpelled (countWidth version)) out.tensors ys ∧
          ListsMake version nTensors pairs (pos + z.length) out := by
    refine Spells.reserve hserves ((((spells_readTensorInfo hserves version).repeated _).bind
      fun tensors => spells_finish version nTensors _ tensors).congr fun pos out z => ?_) ?_
    · constructor
      · rintro ⟨tensors, _, _, rfl, ⟨hlen, ys, rfl, hall⟩, rfl, halign, rfl⟩
        rw [List.append_nil]
        exact ⟨ys, hlen, rfl, hall, rfl, rfl, rfl, halign, rfl⟩
      · rintro ⟨ys, hlen, rfl, hall, hversion, hnTensors, hmetadata, halign, hoffset⟩
        refine ⟨out.tensors, _, [], (List.append_nil _).symm, ⟨hlen, ys, rfl, hall⟩, rfl,
          hmetadata ▸ halign, ?_⟩
        rw [hmetadata] at hoffset
        cases out
        simp only [GgufHeader.mk.injEq]
        exact ⟨hversion, hnTensors, hmetadata, trivial, hoffset⟩
    · rintro pos out z ⟨ys, hlen, rfl, hall, -⟩
      rw [← hlen]
      exact length_le_flatten hall fun t y hy => hy.length_pos
  unfold parseLists
  refine Spells.reserve hserves ((((spells_readKeyValue hserves version).repeated _).bind
    htensors).congr fun pos out z => ?_) ?_
  · constructor
    · rintro ⟨pairs, _, _, rfl, ⟨hlen, xs, rfl, hall⟩, ys, hlen', rfl, hall', hmake⟩
      rw [Nat.add_assoc, ← List.length_append] at hmake
      exact ⟨pairs, xs, ys, hlen, hlen', rfl, hall, hall', hmake⟩
    · rintro ⟨pairs, xs, ys, hlen, hlen', rfl, hall, hall', hmake⟩
      rw [List.length_append, ← Nat.add_assoc] at hmake
      exact ⟨pairs, _, _, rfl, ⟨hlen, xs, rfl, hall⟩, ys, hlen', rfl, hall', hmake⟩
  · rintro pos out z ⟨pairs, xs, ys, hlen, -, rfl, hall, -⟩
    have hxs := length_le_flatten hall fun kv x hx => hx.length_pos
    rw [List.length_append]
    omega

/-- The counts, and then the lists. -/
theorem spells_parseBody (version : UInt32) :
    Spells (parseBody serves version) fun pos out z =>
      out.nTensors.toNat = out.tensors.length ∧
        ∃ pairs, ListsSpelled (countWidth version) pairs out.tensors z ∧
          ListsMake version out.nTensors pairs (pos + z.length) out := by
  refine ((spells_readCount version).bind fun nTensors => (spells_readCount version).bind fun nKv =>
    spells_parseLists hserves version nTensors nKv).congr fun pos out z => ?_
  constructor
  · rintro ⟨nTensors, _, _, rfl, ⟨hlt, rfl⟩, nKv, _, _, rfl, ⟨hlt', rfl⟩, pairs, xs, ys,
      hlen, hlen',
      rfl, hall, hall', hmake⟩
    obtain rfl := hmake.nTensors
    refine ⟨hlen'.symm, pairs, ⟨hlen ▸ hlt', hlen' ▸ hlt, xs, ys, ?_, hall, hall'⟩, ?_⟩
    · rw [hlen, hlen']
    · simpa only [List.length_append, Nat.add_assoc] using hmake
  · rintro ⟨hcount, pairs, ⟨hlt, hlt', xs, ys, rfl, hall, hall'⟩, hmake⟩
    have hnKv := toNat_ofNat_u64 (hlt.trans_le (Nat.pow_le_pow_right (by decide)
      (countWidth_le version)))
    refine ⟨out.nTensors, _, _, rfl, ⟨hcount ▸ hlt', by rw [hcount]⟩,
      UInt64.ofNat pairs.length, _, _,
      rfl, ⟨hnKv.symm ▸ hlt, by rw [hnKv]⟩, pairs, xs, ys, hnKv.symm, hcount.symm, rfl, hall, hall',
      ?_⟩
    simpa only [List.length_append, Nat.add_assoc] using hmake

theorem spells_parseHeader : Spells (parseHeader serves) HeaderAt := by
  refine (spells_readU32_bind (U := fun magic pos out y => magic = GGUF_MAGIC ∧
    ∃ version z, y = leBytes 4 version.toNat ++ z ∧ version ∈ SUPPORTED_VERSIONS ∧
      out.nTensors.toNat = out.tensors.length ∧
        ∃ pairs, ListsSpelled (countWidth version) pairs out.tensors z ∧
          ListsMake version out.nTensors pairs (pos + 4 + z.length) out) fun magic => ?_).congr
    fun pos out x => ?_
  · split
    · rename_i hmagic
      exact (Spells.fail _).congr fun _ _ _ => by simp [hmagic]
    · rename_i hmagic
      simp only [not_not.mp hmagic, true_and]
      refine spells_readU32_bind (U := fun version pos out z => version ∈ SUPPORTED_VERSIONS ∧
        out.nTensors.toNat = out.tensors.length ∧
          ∃ pairs, ListsSpelled (countWidth version) pairs out.tensors z ∧
            ListsMake version out.nTensors pairs (pos + z.length) out) fun version => ?_
      split
      · rename_i hversion
        refine (Spells.fail _).congr fun _ _ _ => ?_
        have hunsupported : version ∉ SUPPORTED_VERSIONS := by simpa using hversion
        simp [hunsupported]
      · rename_i hversion
        have hsupported : version ∈ SUPPORTED_VERSIONS := by simpa using hversion
        simp only [hsupported, true_and]
        exact spells_parseBody hserves version
  · constructor
    · rintro ⟨_, _, rfl, rfl, version, z, rfl, hversion, hcount, pairs, hlists, hmake⟩
      obtain rfl := hmake.version
      refine ⟨hversion, hcount, pairs, z, rfl, hlists, ?_⟩
      simpa only [List.length_append, length_leBytes, Nat.add_assoc] using hmake
    · rintro ⟨hversion, hcount, pairs, z, rfl, hlists, hmake⟩
      refine ⟨GGUF_MAGIC, _, rfl, rfl, out.version, z, rfl, hversion, hcount, pairs, hlists, ?_⟩
      simpa only [List.length_append, length_leBytes, Nat.add_assoc] using hmake

end Values

/-- The reader accepts exactly the files that start with the bytes of a header, and returns the
header they spell. -/
theorem parse_eq_ok_iff {serves : ℕ → ℕ → Bool} (hserves : Adequate serves) (file : List UInt8)
    (out : GgufHeader) :
    GgufHeader.parse serves file = .ok out ↔ ∃ x rest, file = x ++ rest ∧ HeaderSpelled out x := by
  have hparse : GgufHeader.parse serves file = .ok out ↔
      ∃ c', parseHeader serves ⟨file, 0⟩ = .ok (out, c') := by
    rw [GgufHeader.parse, Outcome.bind_eq_ok]
    constructor
    · rintro ⟨⟨_, c'⟩, h, ⟨⟩⟩
      exact ⟨c', h⟩
    · rintro ⟨c', h⟩
      exact ⟨_, h, rfl⟩
  rw [hparse]
  constructor
  · rintro ⟨c', h⟩
    obtain ⟨x, hx, hfile, -⟩ := (spells_parseHeader hserves _ out c').mp h
    exact ⟨x, c'.rest, hfile, headerAt_zero_iff.mp hx⟩
  · rintro ⟨x, rest, rfl, hx⟩
    exact ⟨⟨rest, 0 + x.length⟩, (spells_parseHeader hserves _ out _).mpr
      ⟨x, headerAt_zero_iff.mpr hx, rfl, rfl⟩⟩

/-! ## Encoded contents -/

theorem ElemKind.spelled_encode (k : ElemKind) {v : k.Carrier} (h : k.Fits 8 v) :
    k.Spelled v (k.encode 8 v) := by
  cases k with
  | bool => exact ⟨UInt8.ofNat v.toNat, by cases v <;> rfl, by cases v <;> rfl⟩
  | _ => exact ⟨h, rfl⟩

theorem elemSpelled_encode (k : ElemKind) {v : k.Carrier} (h : k.Fits 8 v) :
    ElemSpelled (UInt32.ofNat k.typeId) (k.value v) (k.encode 8 v) :=
  ⟨k, v, toNat_ofNat_u32 (typeId_lt k), rfl, k.spelled_encode h⟩

theorem valueSpelled_encode {v : MetaValue} (h : v.Fits 8) :
    ValueSpelled 8 v.value (v.encode 8) := by
  cases v with
  | single k v =>
    have htype := toNat_ofNat_u32 (typeId_lt k)
    exact ⟨UInt32.ofNat k.typeId, _, by rw [htype]; rfl, Or.inr (elemSpelled_encode k h)⟩
  | array k vs =>
    have htype := toNat_ofNat_u32 (typeId_lt k)
    refine ⟨9, _, rfl, Or.inl ⟨rfl, UInt32.ofNat k.typeId, vs.map k.value, vs.map (k.encode 8), rfl,
      by rw [List.length_map]; exact h.1, by rw [List.length_map, htype, ← List.flatMap_def]; rfl,
      ?_⟩⟩
    refine List.forall₂_map_left_iff.mpr (List.forall₂_map_right_iff.mpr ?_)
    exact List.forall₂_same.mpr fun v hv => elemSpelled_encode k (h.2 v hv)

theorem pairSpelled_encode {kv : String × MetaValue} (hkey : StringFits 8 kv.1)
    (hvalue : kv.2.Fits 8) : PairSpelled 8 (kv.1, kv.2.value) (encodeKeyValue 8 kv) :=
  ⟨_, _, rfl, ⟨hkey, rfl⟩, valueSpelled_encode hvalue⟩

namespace HeaderContent

variable (c : HeaderContent)

/-- The pairs, with the keys that repeat. -/
def pairs : List (String × GgufValue) := c.metadata.map fun kv => (kv.1, kv.2.value)

/-- The header that a content describes. -/
def header : GgufHeader :=
  let metadata := Dict.empty.insertAll c.pairs
  { version := c.version, nTensors := UInt64.ofNat c.tensors.length, metadata, tensors := c.tensors
    dataOffset := (c.encode.length + alignmentOf metadata - 1) / alignmentOf metadata *
      alignmentOf metadata }

/-- The bytes of a content spell its header, unless the alignment is zero. -/
theorem spelled (h : alignmentOf c.header.metadata ≠ 0) : HeaderSpelled c.header c.encode where
  supported := by rcases c.version_eq with hv | hv <;> simp [header, hv, SUPPORTED_VERSIONS]
  nTensors := toNat_ofNat_u64 c.tensors_lt
  alignment := h
  dataOffset := isLeast_roundUp _ (Nat.pos_of_ne_zero h)
  bytes := by
    have hw : countWidth c.header.version = 8 := countWidth_eq c.version_eq
    rw [hw]
    refine ⟨c.pairs, _, rfl, rfl, ?_, c.tensors_lt, c.metadata.map (encodeKeyValue 8),
      c.tensors.map (encodeTensorInfo 8), ?_, ?_, ?_⟩
    · rw [pairs, List.length_map]
      exact c.metadata_lt
    · rw [pairs, List.length_map, ← List.flatMap_def, ← List.flatMap_def]
      rfl
    · refine List.forall₂_map_left_iff.mpr (List.forall₂_map_right_iff.mpr ?_)
      exact List.forall₂_same.mpr fun kv hkv =>
        pairSpelled_encode (c.keys_fit kv hkv) (c.values_fit kv hkv)
    · refine List.forall₂_map_right_iff.mpr (List.forall₂_same.mpr fun t ht => ?_)
      obtain ⟨hname, hrank, hdims⟩ := c.tensors_fit t ht
      exact ⟨hname, hrank, hdims, rfl⟩

end HeaderContent

/-- The tiny layout with a second name for the architecture in front. -/
def renamedContent : HeaderContent :=
  { tinyLayout.content (Or.inr rfl) with
    metadata := ("general.architecture", .single .string ("gpt2" : String)) :: tinyLayout.metadata
    metadata_lt := by decide
    keys_fit := by
      refine List.forall_mem_cons.mpr ⟨?_, (tinyLayout.content (Or.inr rfl)).keys_fit⟩
      simp [StringFits, utf8_eq]
      decide
    values_fit := by
      refine List.forall_mem_cons.mpr ⟨?_, (tinyLayout.content (Or.inr rfl)).values_fit⟩
      simp [MetaValue.Fits, ElemKind.Fits, StringFits, utf8_eq]
      decide }

theorem renamedContent_spelled : HeaderSpelled renamedContent.header renamedContent.encode :=
  renamedContent.spelled (by decide +kernel)

/-- The pair that comes later is kept, next to the arrays and the tensors. -/
theorem parse_eq_ok_renamed :
    GgufHeader.parse strict (renamedContent.encode ++ [0, 1, 2]) = .ok renamedContent.header ∧
      renamedContent.header.architecture = some "llama" ∧
      renamedContent.header.metadata.get "tokenizer.ggml.tokens" =
        some (.array [.string "a", .string "ö"]) ∧
      renamedContent.header.tensors.map TensorInfo.name =
        ["token_embd.weight", "output_norm.weight"] :=
  ⟨(parse_eq_ok_iff adequate_strict _ _).mpr ⟨_, _, rfl, renamedContent_spelled⟩, by decide +kernel,
    rfl, rfl⟩

/-- No header's bytes are the beginning of another header's, and no bytes spell two headers. -/
theorem headerSpelled_prefix_free {out out' : GgufHeader} {x rest : List UInt8}
    (h : HeaderSpelled out x) (h' : HeaderSpelled out' (x ++ rest)) : out = out' ∧ rest = [] :=
  (spells_parseHeader adequate_strict).unique (headerAt_zero_iff.mpr h)
    (headerAt_zero_iff.mpr h') rfl

/-- The same bytes spell one header, and with a byte more they spell none of it. -/
theorem headerSpelled_prefix_free_renamed :
    (renamedContent.header = renamedContent.header ∧ ([] : List UInt8) = []) ∧
      ¬ HeaderSpelled renamedContent.header (renamedContent.encode ++ [0]) := by
  have hwhole : HeaderSpelled renamedContent.header (renamedContent.encode ++ []) := by
    rw [List.append_nil]
    exact renamedContent_spelled
  refine ⟨headerSpelled_prefix_free renamedContent_spelled hwhole, fun hlonger => ?_⟩
  exact absurd (headerSpelled_prefix_free renamedContent_spelled hlonger).2 (List.cons_ne_nil _ _)

end QuantumFlow.Gguf
