import QuantumFlow.Foundation.Packing
import QuantumFlow.Foundation.Region
import QuantumFlow.Loader.Placement

/-!
# Loading what was written

A model file is its header and the data of its tensors, each filled up to the alignment, with the
offset of every tensor in the header. Loaded from any address that the mapping fits at, every
tensor has its type, its dimensions and exactly its own bytes.
-/

namespace QuantumFlow

open Gguf Reader

/-- The type of a descriptor, if it is known. -/
def typeOf (ti : TensorInfo) : GgmlType := (GgmlType.ofU32 ti.ggmlType).getD .f32

/-- The bytes that ggml wants for a descriptor. -/
def bytesOf (ti : TensorInfo) : ℕ :=
  (Tensor.mk (typeOf ti) (shapeOf ti.dims) 0).nbytes.toNat

/-- A file whose tensors have distinct names, known types, no more dimensions than ggml has, and
as much data as these need. -/
structure ModelFile where
  layout : HeaderLayout
  blobs : List (List UInt8)
  version : layout.version = 2 ∨ layout.version = 3
  alignment_ne : alignmentOf layout.metadataMap ≠ 0
  names_nodup : (layout.tensors.map TensorInfo.name).Nodup
  known : ∀ ti ∈ layout.tensors, (GgmlType.ofU32 ti.ggmlType).isSome = true
  rank_le : ∀ ti ∈ layout.tensors, ti.dims.length ≤ 4
  described : ∀ (i : ℕ) (ti : TensorInfo), layout.tensors[i]? = some ti →
    ∃ bs, blobs[i]? = some bs ∧ bs ≠ [] ∧ bs.length = bytesOf ti ∧
      ti.offset.toNat = sectionOffset (alignmentOf layout.metadataMap) blobs i

namespace ModelFile

variable (m : ModelFile)

def align : ℕ := alignmentOf m.layout.metadataMap

/-- The header is the first section, the tensors are the others. -/
def sections : List (List UInt8) := m.layout.encode :: m.blobs

def bytes : List UInt8 := packed 0 m.align m.sections

/-- Its header, as it is parsed. -/
def header : GgufHeader :=
  ⟨m.layout.version, UInt64.ofNat m.layout.tensors.length, m.layout.metadataMap, m.layout.tensors,
    roundUp m.align m.layout.encode.length⟩

variable {m}

theorem align_pos (m : ModelFile) : 0 < m.align := Nat.pos_of_ne_zero m.alignment_ne

theorem parse_bytes {serves : ℕ → ℕ → Bool} (hserves : Adequate serves) :
    GgufHeader.parse serves m.bytes = .ok m.header := by
  have hbytes : m.bytes = m.layout.encode ++ (List.replicate
      (roundUp m.align m.layout.encode.length - m.layout.encode.length) 0 ++
        packed 0 m.align m.blobs) := by
    rw [bytes, sections, packed, List.flatMap_cons, padded, List.append_assoc]
    rfl
  rw [hbytes, parse_encode hserves m.layout m.version, if_neg m.alignment_ne]
  rfl

/-- The data of a tensor is a section of the file. -/
theorem sectionOffset_succ (i : ℕ) :
    sectionOffset m.align m.sections (i + 1) =
      m.header.dataOffset + sectionOffset m.align m.blobs i := rfl

end ModelFile

/-! ## The host -/

/-- A host that maps a file of this size below the end of memory, and creates everything. -/
structure LoadCalls.Succeeds (calls : LoadCalls) (size : ℕ) : Prop where
  mapped : calls.mapped = true
  buffer : calls.buffer = true
  context : calls.context = true
  created : ∀ i, calls.created i = true
  fits : calls.base.toNat + size < 2 ^ 64

theorem LoadCalls.Succeeds.toNat_size {calls : LoadCalls} {size : ℕ} (h : calls.Succeeds size) :
    (UInt64.ofNat size).toNat = size := by
  have hfits := h.fits
  rw [UInt64.toNat_ofNat', Nat.mod_eq_of_lt (by omega)]

/-- What the mapping of a file holds for a tensor. -/
def mappedBytes (calls : LoadCalls) (file : List UInt8) (t : Tensor) : List UInt8 :=
  (file.drop (t.data.toNat - calls.base.toNat)).take t.nbytes.toNat

/-- A loop in which every descriptor passes places them all. -/
theorem placeTensors_eq_insertAll {calls : LoadCalls} {fileSize : UInt64} {header : GgufHeader}
    {i : ℕ} {tis : List TensorInfo} (tensors : Dict String Tensor)
    (h : ∀ ti ∈ tis, ∀ j, PassesChecks calls fileSize header j ti (typeOf ti) ∧
      tensorAlloc calls fileSize (newTensor calls header ti (typeOf ti)) = true) :
    placeTensors calls fileSize header i tis tensors = .ok
      (tensors.insertAll (tis.map fun ti => (ti.name, newTensor calls header ti (typeOf ti)))) := by
  induction tis generalizing i tensors with
  | nil => rfl
  | cons ti tis ih =>
    obtain ⟨hpasses, halloc⟩ := h ti List.mem_cons_self i
    rw [placeTensors_cons hpasses halloc, ih _ fun ti' hti' => h ti' (List.mem_cons_of_mem ti hti')]
    rfl

namespace ModelFile

variable {calls : LoadCalls} {m : ModelFile}

/-- Where the data of a descriptor lies in the file, and where the loader looks for it. -/
structure PlacedAt (calls : LoadCalls) (m : ModelFile) (ti : TensorInfo) (i : ℕ) (t : Tensor) :
    Prop where
  type : GgmlType.ofU32 ti.ggmlType = some t.type
  ne : t.ne = shapeOf ti.dims
  data : t.data.toNat = calls.base.toNat + sectionOffset m.align m.sections (i + 1)
  blob : ∃ bs, m.blobs[i]? = some bs ∧ bs ≠ [] ∧ t.nbytes.toNat = bs.length

theorem placedAt_newTensor (hcalls : calls.Succeeds m.bytes.length) {i : ℕ} {ti : TensorInfo}
    (hi : m.layout.tensors[i]? = some ti) :
    PlacedAt calls m ti i (newTensor calls m.header ti (typeOf ti)) := by
  obtain ⟨bs, hbs, hne, hlen, hoffset⟩ := m.described i ti hi
  have hin : sectionOffset m.align m.sections (i + 1) ≤ m.bytes.length :=
    sectionOffset_le m.align_pos 0 m.sections (i + 1)
  have hfits := hcalls.fits
  refine ⟨?_, rfl, ?_, bs, hbs, hne, hlen.symm⟩
  · obtain ⟨type, htype⟩ := Option.isSome_iff_exists.mp (m.known ti (List.mem_of_getElem? hi))
    simp [newTensor, typeOf, htype]
  · have hsection : fileOffset m.header ti = sectionOffset m.align m.sections (i + 1) := by
      rw [fileOffset, hoffset, sectionOffset_succ]
      refine Nat.mod_eq_of_lt ?_
      rw [sectionOffset_succ] at hin
      exact lt_of_le_of_lt hin (by omega)
    show (tensorAddr calls m.header ti).toNat = _
    rw [toNat_tensorAddr, hsection, Nat.mod_eq_of_lt (by omega)]

namespace PlacedAt

variable {ti : TensorInfo} {i : ℕ} {t : Tensor}

theorem read (h : PlacedAt calls m ti i t) : m.blobs[i]? = some (mappedBytes calls m.bytes t) := by
  obtain ⟨bs, hbs, -, hlen⟩ := h.blob
  have hsection : m.sections[i + 1]? = some bs := hbs
  rw [mappedBytes, h.data, Nat.add_sub_cancel_left, hlen, bytes,
    read_section m.align_pos 0 hsection, hbs]

/-- The data ends before the next section of the file begins. -/
theorem add_le (h : PlacedAt calls m ti i t) :
    t.data.toNat + t.nbytes.toNat ≤
      calls.base.toNat + sectionOffset m.align m.sections (i + 2) := by
  obtain ⟨bs, hbs, -, hlen⟩ := h.blob
  have hsection : m.sections[i + 1]? = some bs := hbs
  rw [h.data, hlen, Nat.add_assoc]
  exact Nat.add_le_add_left (sectionOffset_add_le m.align_pos hsection) _

theorem within (h : PlacedAt calls m ti i t) (hcalls : calls.Succeeds m.bytes.length) :
    WithinFile calls (UInt64.ofNat m.bytes.length) t := by
  have hend : sectionOffset m.align m.sections (i + 2) ≤ m.bytes.length :=
    sectionOffset_le m.align_pos 0 m.sections (i + 2)
  have hnext := h.add_le
  refine ⟨?_, ?_⟩
  · rw [h.data]
    exact Nat.le_add_right _ _
  · rw [hcalls.toNat_size]
    omega

/-- The tensors of two descriptors do not overlap. -/
theorem disjoint {ti' : TensorInfo} {i' : ℕ} {t' : Tensor} (h : PlacedAt calls m ti i t)
    (h' : PlacedAt calls m ti' i' t') (hlt : i < i') :
    Disjoint (region t.data.toNat t.nbytes.toNat) (region t'.data.toNat t'.nbytes.toNat) := by
  have hnext := h.add_le
  have hmono : sectionOffset m.align m.sections (i + 2) ≤
      sectionOffset m.align m.sections (i' + 1) := sectionOffset_mono _ _ (by omega)
  refine region_disjoint ?_
  rw [h'.data]
  omega

end PlacedAt

/-- Every descriptor of a written file passes, and ggml accepts its tensor. -/
theorem passes (hcalls : calls.Succeeds m.bytes.length) {ti : TensorInfo}
    (hti : ti ∈ m.layout.tensors) (j : ℕ) :
    PassesChecks calls (UInt64.ofNat m.bytes.length) m.header j ti (typeOf ti) ∧
      tensorAlloc calls (UInt64.ofNat m.bytes.length) (newTensor calls m.header ti (typeOf ti)) =
        true := by
  obtain ⟨i, hi⟩ := List.mem_iff_getElem?.mp hti
  have hplaced := placedAt_newTensor hcalls hi
  have hwithin := hplaced.within hcalls
  have hfits : calls.base.toNat + (UInt64.ofNat m.bytes.length).toNat < 2 ^ 64 := by
    rw [hcalls.toNat_size]
    exact hcalls.fits
  refine ⟨⟨hplaced.type, ?_, hcalls.created j⟩, tensorAlloc_of_withinFile hfits hwithin⟩
  obtain ⟨bs, -, hne, hlen⟩ := hplaced.blob
  have hpos : 0 < bs.length := List.length_pos_iff.mpr hne
  have hend := hwithin.2
  have haddr : (newTensor calls m.header ti (typeOf ti)).data =
      tensorAddr calls m.header ti := rfl
  rw [haddr] at hend
  rw [UInt64.lt_iff_toNat_lt, UInt64.toNat_add, Nat.mod_eq_of_lt hfits]
  omega

/-- What is loaded from a written file: its metadata and its tensors, each with its own bytes
and no others. -/
structure LoadedAs (calls : LoadCalls) (m : ModelFile) (model : LoadedModel) : Prop where
  content : m.layout.SameContent model.header
  tensor : ∀ (i : ℕ) (ti : TensorInfo), m.layout.tensors[i]? = some ti →
    ∃ t, model.tensors.get ti.name = some t ∧
      GgmlType.ofU32 ti.ggmlType = some t.type ∧ t.ne = shapeOf ti.dims ∧
      WithinFile calls (UInt64.ofNat m.bytes.length) t ∧
      m.align ∣ t.data.toNat - calls.base.toNat ∧
      m.blobs[i]? = some (mappedBytes calls m.bytes t)
  only : ∀ name t, model.tensors.get name = some t → name ∈ m.layout.tensors.map TensorInfo.name
  disjoint : ∀ name name' t t', model.tensors.get name = some t →
    model.tensors.get name' = some t' → name ≠ name' →
    Disjoint (region t.data.toNat t.nbytes.toNat) (region t'.data.toNat t'.nbytes.toNat)

end ModelFile

/-- Loading undoes writing: on a host that can map it, a written file loads as what was written,
wherever it is mapped. -/
theorem load_bytes (m : ModelFile) {serves : ℕ → ℕ → Bool} (hserves : Adequate serves)
    {calls : LoadCalls} (hcalls : calls.Succeeds m.bytes.length) :
    ∃ model, load calls serves m.bytes = .ok model ∧ m.LoadedAs calls model := by
  let placed (ti : TensorInfo) : Tensor := newTensor calls m.header ti (typeOf ti)
  let entries := m.layout.tensors.map fun (ti : TensorInfo) => (ti.name, placed ti)
  have hplace : placeTensors calls (UInt64.ofNat m.bytes.length) m.header 0 m.layout.tensors
      .empty = .ok (Dict.empty.insertAll entries) :=
    placeTensors_eq_insertAll .empty fun ti hti j => m.passes hcalls hti j
  have hload : load calls serves m.bytes = .ok ⟨m.header, Dict.empty.insertAll entries⟩ := by
    rw [load, m.parse_bytes hserves]
    simp only [hcalls.mapped, hcalls.buffer, hcalls.context, not_true_eq_false, if_false]
    rw [show m.header.tensors = m.layout.tensors from rfl, hplace]
    rfl
  have hnodup : (entries.map Prod.fst).Nodup := by
    rw [List.map_map]
    exact m.names_nodup
  have hget : ∀ name t, (Dict.empty.insertAll entries).get name = some t ↔
      ∃ (i : ℕ) (ti : TensorInfo), m.layout.tensors[i]? = some ti ∧ ti.name = name ∧
        placed ti = t := by
    intro name t
    rw [Dict.get_insertAll_iff_mem hnodup, List.mem_map]
    constructor
    · rintro ⟨ti, hti, heq⟩
      obtain ⟨i, hi⟩ := List.mem_iff_getElem?.mp hti
      exact ⟨i, ti, hi, congrArg Prod.fst heq, congrArg Prod.snd heq⟩
    · rintro ⟨i, ti, hi, rfl, rfl⟩
      exact ⟨ti, List.mem_of_getElem? hi, rfl⟩
  refine ⟨_, hload, ⟨m.layout.get_metadataMap, rfl⟩, fun i ti hi => ?_, fun name t ht => ?_, ?_⟩
  · have hat := ModelFile.placedAt_newTensor hcalls hi
    refine ⟨placed ti, (hget _ _).mpr ⟨i, ti, hi, rfl, rfl⟩, hat.type, hat.ne,
      hat.within hcalls, ?_, hat.read⟩
    rw [hat.data, Nat.add_sub_cancel_left]
    exact dvd_sectionOffset m.align m.sections (i + 1)
  · obtain ⟨i, ti, hi, rfl, -⟩ := (hget name t).mp ht
    exact List.mem_map_of_mem (List.mem_of_getElem? hi)
  · intro name name' t t' ht ht' hne
    obtain ⟨i, ti, hi, rfl, rfl⟩ := (hget name t).mp ht
    obtain ⟨i', ti', hi', rfl, rfl⟩ := (hget name' t').mp ht'
    have hat := ModelFile.placedAt_newTensor hcalls hi
    have hat' := ModelFile.placedAt_newTensor hcalls hi'
    rcases Nat.lt_trichotomy i i' with hlt | rfl | hgt
    · exact hat.disjoint hat' hlt
    · cases hi.symm.trans hi'
      exact absurd rfl hne
    · exact (hat'.disjoint hat hgt).symm

/-- A float and a block of 32 quantised weights. -/
def pairLayout : HeaderLayout :=
  { floatsLayout with
    tensors := [{ name := "a", dims := [1], ggmlType := 0, offset := 0 },
      { name := "b", dims := [32], ggmlType := 2, offset := 32 }]
    tensors_lt := by decide
    tensors_fit := by
      simp only [List.mem_cons, List.not_mem_nil, or_false, forall_eq_or_imp, forall_eq]
      refine ⟨TensorInfo.fits_eight ?_ (by decide), TensorInfo.fits_eight ?_ (by decide)⟩ <;>
        (simp [StringFits, utf8_eq]; decide) }

def pairFile : ModelFile where
  layout := pairLayout
  blobs := [[1, 2, 3, 4], List.replicate 18 5]
  version := Or.inr rfl
  alignment_ne := by decide +kernel
  names_nodup := by decide
  known := by decide
  rank_le := by decide
  described := by
    rintro (_ | _ | i) ti hi <;> cases hi
    · exact ⟨_, rfl, by decide, by decide +kernel, by decide +kernel⟩
    · exact ⟨_, rfl, by decide, by decide +kernel, by decide +kernel⟩

/-- The second tensor is loaded with its 18 bytes. -/
theorem load_bytes_pair : ∃ model t, load mapAt4096 (fun _ _ => true) pairFile.bytes = .ok model ∧
    model.tensors.get "b" = some t ∧ mappedBytes mapAt4096 pairFile.bytes t =
      List.replicate 18 5 := by
  have hlen : pairFile.bytes.length = 160 := by decide +kernel
  have hcalls : mapAt4096.Succeeds pairFile.bytes.length :=
    ⟨rfl, rfl, rfl, fun _ => rfl, by rw [hlen]; decide⟩
  obtain ⟨model, hload, hloaded⟩ := load_bytes pairFile (fun _ _ _ => rfl) hcalls
  obtain ⟨t, ht, -, -, -, -, hbytes⟩ := hloaded.tensor 1 _ rfl
  exact ⟨model, t, hload, ht, (Option.some.inj hbytes).symm⟩

end QuantumFlow
