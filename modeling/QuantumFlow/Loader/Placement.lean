import QuantumFlow.Gguf.RoundTrip
import QuantumFlow.Loader.MappedModel

/-!
# Tensors within the file

The loader skips a tensor that begins behind the end of the mapping. It does not look at where
the tensor ends, nor whether its address has wrapped, and ggml aborts on both.
-/

namespace QuantumFlow

open Gguf

section Placement

variable (calls : LoadCalls) (fileSize : UInt64) (header : GgufHeader)

/-- The `i`-th descriptor passes the checks of the loop, as a tensor of this type. -/
def PassesChecks (i : ℕ) (ti : TensorInfo) (type : GgmlType) : Prop :=
  GgmlType.ofU32 ti.ggmlType = some type ∧ tensorAddr calls header ti < calls.base + fileSize ∧
    calls.created i = true

/-- The loop aborts at the `i`-th descriptor. -/
def AbortsAt (i : ℕ) (ti : TensorInfo) : Prop :=
  ∃ type, PassesChecks calls fileSize header i ti type ∧
    tensorAlloc calls fileSize (newTensor calls header ti type) = false

/-- The bytes of the tensor lie within the mapping. -/
def WithinFile (t : Tensor) : Prop :=
  calls.base.toNat ≤ t.data.toNat ∧
    t.data.toNat + t.nbytes.toNat ≤ calls.base.toNat + fileSize.toNat

/-- Every descriptor that passes the checks is placed within the mapping. -/
def PlacesInside : Prop :=
  ∀ i ti type, header.tensors[i]? = some ti → PassesChecks calls fileSize header i ti type →
    WithinFile calls fileSize (newTensor calls header ti type)

/-- Where the tensor begins in the file, as 64 bits hold it. -/
def fileOffset (ti : TensorInfo) : ℕ := (header.dataOffset + ti.offset.toNat) % 2 ^ 64

/-- No address of a known tensor wraps, and a tensor that begins in the file ends in it. -/
def StaysInside : Prop :=
  ∀ i ti type, header.tensors[i]? = some ti → GgmlType.ofU32 ti.ggmlType = some type →
    calls.created i = true →
    calls.base.toNat + fileOffset header ti < 2 ^ 64 ∧
      (fileSize.toNat ≤ fileOffset header ti ∨
        fileOffset header ti + (newTensor calls header ti type).nbytes.toNat ≤ fileSize.toNat)

variable {calls fileSize header}

theorem toNat_tensorAddr (ti : TensorInfo) :
    (tensorAddr calls header ti).toNat =
      (calls.base.toNat + fileOffset header ti) % 2 ^ 64 := by
  simp only [tensorAddr, fileOffset, UInt64.toNat_add, UInt64.toNat_ofNat']
  omega

/-- One descriptor: the skip checks and the placement, in terms of offsets in the file. -/
theorem withinFile_of_passes_iff (hfits : calls.base.toNat + fileSize.toNat < 2 ^ 64) {i : ℕ}
    {ti : TensorInfo} {type : GgmlType} (htype : GgmlType.ofU32 ti.ggmlType = some type)
    (hcreated : calls.created i = true) :
    (PassesChecks calls fileSize header i ti type →
        WithinFile calls fileSize (newTensor calls header ti type)) ↔
      calls.base.toNat + fileOffset header ti < 2 ^ 64 ∧
        (fileSize.toNat ≤ fileOffset header ti ∨
          fileOffset header ti + (newTensor calls header ti type).nbytes.toNat ≤
            fileSize.toNat) := by
  have haddr : (tensorAddr calls header ti).toNat =
      (calls.base.toNat + fileOffset header ti) % 2 ^ 64 := toNat_tensorAddr ti
  have hoffset : fileOffset header ti < 2 ^ 64 := Nat.mod_lt _ (by decide)
  have hbase := calls.base.toNat_lt
  have hend : (calls.base + fileSize).toNat = calls.base.toNat + fileSize.toNat := by
    rw [UInt64.toNat_add, Nat.mod_eq_of_lt hfits]
  have hpasses : PassesChecks calls fileSize header i ti type ↔
      (tensorAddr calls header ti).toNat < calls.base.toNat + fileSize.toNat := by
    simp [PassesChecks, htype, hcreated, UInt64.lt_iff_toNat_lt, hend]
  have hdata : (newTensor calls header ti type).data = tensorAddr calls header ti := rfl
  rw [hpasses, WithinFile, hdata]
  generalize (newTensor calls header ti type).nbytes.toNat = n
  by_cases hwrap : calls.base.toNat + fileOffset header ti < 2 ^ 64
  · rw [Nat.mod_eq_of_lt hwrap] at haddr
    omega
  · have hbelow : (tensorAddr calls header ti).toNat < calls.base.toNat := by omega
    omega

theorem placesInside_iff_staysInside (hfits : calls.base.toNat + fileSize.toNat < 2 ^ 64) :
    PlacesInside calls fileSize header ↔ StaysInside calls fileSize header := by
  constructor
  · intro h i ti type hi htype hcreated
    exact (withinFile_of_passes_iff hfits htype hcreated).mp (h i ti type hi)
  · intro h i ti type hi hpasses
    have hstays := h i ti type hi hpasses.1 hpasses.2.2
    exact (withinFile_of_passes_iff hfits hpasses.1 hpasses.2.2).mpr hstays hpasses

/-! ## The loop -/

/-- Within the mapping nothing wraps, and the assertions hold. -/
theorem tensorAlloc_of_withinFile (hfits : calls.base.toNat + fileSize.toNat < 2 ^ 64) {t : Tensor}
    (h : WithinFile calls fileSize t) : tensorAlloc calls fileSize t = true := by
  obtain ⟨hlow, hhigh⟩ := h
  simp only [tensorAlloc, Bool.and_eq_true, decide_eq_true_eq, UInt64.le_iff_toNat_le,
    UInt64.toNat_add]
  omega

/-- One descriptor of the loop. -/
theorem placeTensors_cons_cases (i : ℕ) (ti : TensorInfo) (rest : List TensorInfo)
    (tensors : Dict String Tensor) :
    (AbortsAt calls fileSize header i ti ∧
        placeTensors calls fileSize header i (ti :: rest) tensors = .panic) ∨
      (¬ AbortsAt calls fileSize header i ti ∧ ∃ tensors',
        placeTensors calls fileSize header i (ti :: rest) tensors =
          placeTensors calls fileSize header (i + 1) rest tensors') := by
  rw [placeTensors]
  cases htype : GgmlType.ofU32 ti.ggmlType with
  | none => exact Or.inr ⟨by simp [AbortsAt, PassesChecks, htype], tensors, rfl⟩
  | some type =>
    by_cases hstarts : calls.base + fileSize ≤ tensorAddr calls header ti
    · have hnot : ¬ AbortsAt calls fileSize header i ti := by
        simp [AbortsAt, PassesChecks, UInt64.not_lt.mpr hstarts]
      exact Or.inr ⟨hnot, tensors, if_pos hstarts⟩
    · have hlt := UInt64.not_le.mp hstarts
      dsimp only
      rw [if_neg hstarts]
      cases hcreated : calls.created i with
      | false => exact Or.inr ⟨by simp [AbortsAt, PassesChecks, hcreated], tensors, rfl⟩
      | true =>
        cases halloc : tensorAlloc calls fileSize (newTensor calls header ti type) with
        | false => exact Or.inl ⟨⟨type, ⟨htype, hlt, hcreated⟩, halloc⟩, rfl⟩
        | true => exact Or.inr ⟨by simp [AbortsAt, PassesChecks, htype, halloc], _, rfl⟩

/-- The loop aborts exactly when there is such a descriptor. -/
theorem placeTensors_eq_panic_iff (i : ℕ) (tis : List TensorInfo) (tensors : Dict String Tensor) :
    placeTensors calls fileSize header i tis tensors = .panic ↔
      ∃ j tj, tis[j]? = some tj ∧ AbortsAt calls fileSize header (i + j) tj := by
  induction tis generalizing i tensors with
  | nil => simp [placeTensors]
  | cons ti rest ih =>
    rcases placeTensors_cons_cases i ti rest tensors with ⟨haborts, hpanic⟩ | ⟨hnot, m, hstep⟩
    · exact ⟨fun _ => ⟨0, ti, rfl, haborts⟩, fun _ => hpanic⟩
    · rw [hstep, ih]
      constructor
      · rintro ⟨j, tj, hj, haborts⟩
        exact ⟨j + 1, tj, hj, by rwa [Nat.add_right_comm, Nat.add_assoc] at haborts⟩
      · rintro ⟨j, tj, hj, haborts⟩
        cases j with
        | zero =>
          cases hj
          exact absurd haborts hnot
        | succ j => exact ⟨j, tj, hj, by rwa [Nat.add_right_comm, Nat.add_assoc]⟩

theorem placeTensors_ne_panic {i : ℕ} {tis : List TensorInfo} {tensors : Dict String Tensor}
    (h : ∀ j ti type, tis[j]? = some ti → PassesChecks calls fileSize header (i + j) ti type →
      tensorAlloc calls fileSize (newTensor calls header ti type) = true) :
    placeTensors calls fileSize header i tis tensors ≠ .panic := by
  rw [ne_eq, placeTensors_eq_panic_iff]
  rintro ⟨j, ti, hj, type, hpasses, hfails⟩
  rw [h j ti type hj hpasses] at hfails
  cases hfails

/-- A descriptor that passes the checks and the assertions is placed. -/
theorem placeTensors_cons {i : ℕ} {ti : TensorInfo} {rest : List TensorInfo}
    {tensors : Dict String Tensor} {type : GgmlType}
    (hpasses : PassesChecks calls fileSize header i ti type)
    (halloc : tensorAlloc calls fileSize (newTensor calls header ti type) = true) :
    placeTensors calls fileSize header i (ti :: rest) tensors =
      placeTensors calls fileSize header (i + 1) rest
        (tensors.insert ti.name (newTensor calls header ti type)) := by
  obtain ⟨htype, hstarts, hcreated⟩ := hpasses
  rw [placeTensors, htype]
  simp [UInt64.not_le.mpr hstarts, hcreated, halloc]

theorem placeTensors_ne_panic_of_placesInside
    (hfits : calls.base.toNat + fileSize.toNat < 2 ^ 64) (h : PlacesInside calls fileSize header) :
    placeTensors calls fileSize header 0 header.tensors .empty ≠ .panic := by
  apply placeTensors_ne_panic
  intro j ti type hj hpasses
  rw [Nat.zero_add] at hpasses
  exact tensorAlloc_of_withinFile hfits (h j ti type hj hpasses)

end Placement

/-- Every tensor that the loop places lies within the mapping, exactly when in the file no
address wraps and every tensor that begins in the file ends in it; and then the loop does not
abort. -/
theorem placesInside_iff {calls : LoadCalls} {fileSize : UInt64} {header : GgufHeader}
    (hfits : calls.base.toNat + fileSize.toNat < 2 ^ 64) :
    (PlacesInside calls fileSize header ↔ StaysInside calls fileSize header) ∧
      (StaysInside calls fileSize header →
        placeTensors calls fileSize header 0 header.tensors .empty ≠ .panic) := by
  have hiff : PlacesInside calls fileSize header ↔ StaysInside calls fileSize header :=
    placesInside_iff_staysInside hfits
  exact ⟨hiff, fun h => placeTensors_ne_panic_of_placesInside hfits (hiff.mpr h)⟩

/-! ## A truncated file -/

/-- One tensor of 1000 floats. -/
def floatsLayout : HeaderLayout where
  version := 3
  metadata := []
  tensors := [{ name := "t", dims := [1000], ggmlType := 0, offset := 0 }]
  keys_nodup := List.nodup_nil
  metadata_lt := by decide
  tensors_lt := by decide
  keys_fit := by simp
  values_fit := by simp
  tensors_fit := by
    simp only [List.mem_singleton, forall_eq]
    exact TensorInfo.fits_eight (by simp [StringFits, utf8_eq]; decide) (by decide)

/-- The header of its file. -/
def floatsHeader : GgufHeader :=
  ⟨3, 1, floatsLayout.metadataMap, floatsLayout.tensors, 64⟩

theorem parse_floats (data : List UInt8) :
    GgufHeader.parse (fun _ _ => true) (floatsLayout.encode ++ data) = .ok floatsHeader := by
  have halign : alignmentOf floatsLayout.metadataMap = 32 := rfl
  have hlen : floatsLayout.encode.length = 57 := by decide +kernel
  rw [parse_encode (fun _ _ _ => rfl) floatsLayout (Or.inr rfl), halign, hlen]
  rfl

/-- A host that maps a file at 4096 and creates everything. -/
def mapAt4096 : LoadCalls :=
  { mapped := true, base := 4096, buffer := true, context := true, created := fun _ => true }

theorem placesInside_iff_floats :
    GgufHeader.parse (fun _ _ => true) (floatsLayout.encode ++ List.replicate 4007 0) =
        .ok floatsHeader ∧
      (PlacesInside mapAt4096 4064 floatsHeader ↔ StaysInside mapAt4096 4064 floatsHeader) ∧
      (StaysInside mapAt4096 4064 floatsHeader →
        placeTensors mapAt4096 4064 floatsHeader 0 floatsHeader.tensors .empty ≠ .panic) :=
  ⟨parse_floats _, placesInside_iff (by decide)⟩

/-- Of a file that ends after one byte of its data, the tensor is placed all the same. -/
theorem not_placesInside :
    ¬ ∀ (serves : ℕ → ℕ → Bool) (calls : LoadCalls) (file : List UInt8) (header : GgufHeader),
      GgufHeader.parse serves file = .ok header →
      calls.base.toNat + file.length < 2 ^ 64 →
      PlacesInside calls (UInt64.ofNat file.length) header := by
  intro h
  have hlen : (floatsLayout.encode ++ List.replicate 8 0).length = 65 := by decide +kernel
  have hplaces := h (fun _ _ => true) mapAt4096 (floatsLayout.encode ++ List.replicate 8 0)
    floatsHeader (parse_floats _) (by rw [hlen]; decide)
  rw [hlen] at hplaces
  have hwithin := hplaces 0 { name := "t", dims := [1000], ggmlType := 0, offset := 0 } .f32 rfl
    ⟨rfl, by decide, rfl⟩
  exact absurd hwithin.2 (by decide +kernel)

end QuantumFlow
