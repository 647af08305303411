import QuantumFlow.Loader.Placement

/-!
# The shapes that ggml is given

`ggml_new_tensor` reads as many dimensions from the array it is passed as it is told there are.
The loader passes an array of four and the number of dimensions in the file, without looking at
the number, the signs or the blocks of a row.
-/

namespace QuantumFlow

open Gguf Reader

/-! ## Calls -/

/-- The arguments of a call, without the context. -/
structure NewTensorCall where
  type : GgmlType
  ndim : Int32
  ne : Fin 4 → Int64

def newTensorCall (ti : TensorInfo) (type : GgmlType) : NewTensorCall :=
  { type, ndim := Int32.ofNat (max ti.dims.length 1), ne := shapeOf ti.dims }

section Calls

variable (calls : LoadCalls) (fileSize : UInt64) (header : GgufHeader)

/-- The calls of the loop from the `i`-th descriptor on, each with its descriptor. No more are
made when the placement of a tensor aborts. -/
def newTensorCalls : ℕ → List TensorInfo → List (TensorInfo × NewTensorCall)
  | _, [] => []
  | i, ti :: rest =>
    match GgmlType.ofU32 ti.ggmlType with
    | none => newTensorCalls (i + 1) rest
    | some type =>
      if calls.base + fileSize ≤ tensorAddr calls header ti then newTensorCalls (i + 1) rest
      else (ti, newTensorCall ti type) ::
        if calls.created i = false then newTensorCalls (i + 1) rest
        else if tensorAlloc calls fileSize (newTensor calls header ti type) then
          newTensorCalls (i + 1) rest
        else []

/-- The calls that are made while a file is loaded. -/
def loadNewTensorCalls (serves : ℕ → ℕ → Bool) (file : List UInt8) :
    List (TensorInfo × NewTensorCall) :=
  match GgufHeader.parse serves file with
  | .ok header =>
    if calls.mapped && calls.buffer && calls.context then
      newTensorCalls calls (UInt64.ofNat file.length) header 0 header.tensors
    else []
  | _ => []

/-! ## Which calls are made -/

/-- A descriptor of this type that begins in the file. -/
def Offered (ti : TensorInfo) (type : GgmlType) : Prop :=
  GgmlType.ofU32 ti.ggmlType = some type ∧ tensorAddr calls header ti < calls.base + fileSize

/-- Of the descriptors `tis`, which are counted from `start` on, the loop comes to the `i`-th and
passes it on. -/
structure Presented (start : ℕ) (tis : List TensorInfo) (i : ℕ) (ti : TensorInfo)
    (type : GgmlType) : Prop where
  get : tis[i]? = some ti
  offered : Offered calls fileSize header ti type
  reached : ∀ j < i, ∀ tj, tis[j]? = some tj → ¬ AbortsAt calls fileSize header (start + j) tj

variable {calls fileSize header}

theorem mem_newTensorCalls_cons {i : ℕ} {ti : TensorInfo} {rest : List TensorInfo}
    {x : TensorInfo × NewTensorCall} :
    x ∈ newTensorCalls calls fileSize header i (ti :: rest) ↔
      (∃ type, Offered calls fileSize header ti type ∧ x = (ti, newTensorCall ti type)) ∨
        (¬ AbortsAt calls fileSize header i ti ∧
          x ∈ newTensorCalls calls fileSize header (i + 1) rest) := by
  rw [newTensorCalls]
  cases htype : GgmlType.ofU32 ti.ggmlType with
  | none => simp [Offered, AbortsAt, PassesChecks, htype]
  | some type =>
    by_cases hstarts : calls.base + fileSize ≤ tensorAddr calls header ti
    · simp [Offered, AbortsAt, PassesChecks, htype, hstarts, UInt64.not_lt.mpr hstarts]
    · have hlt := UInt64.not_le.mp hstarts
      cases hcreated : calls.created i <;>
        cases halloc : tensorAlloc calls fileSize (newTensor calls header ti type) <;>
        simp [Offered, AbortsAt, PassesChecks, htype, hstarts, hlt, hcreated, halloc]

theorem presented_zero_iff {start : ℕ} {ti tj : TensorInfo} {rest : List TensorInfo}
    {type : GgmlType} : Presented calls fileSize header start (ti :: rest) 0 tj type ↔
      tj = ti ∧ Offered calls fileSize header ti type := by
  constructor
  · rintro ⟨hget, hoffered, -⟩
    cases hget
    exact ⟨rfl, hoffered⟩
  · rintro ⟨rfl, hoffered⟩
    exact ⟨rfl, hoffered, fun j hj => absurd hj (Nat.not_lt_zero j)⟩

theorem presented_succ_iff {start i : ℕ} {ti tj : TensorInfo} {rest : List TensorInfo}
    {type : GgmlType} : Presented calls fileSize header start (ti :: rest) (i + 1) tj type ↔
      ¬ AbortsAt calls fileSize header start ti ∧
        Presented calls fileSize header (start + 1) rest i tj type := by
  constructor
  · rintro ⟨hget, hoffered, hreached⟩
    refine ⟨hreached 0 i.succ_pos ti rfl, hget, hoffered, fun j hj tk hk => ?_⟩
    have hnot := hreached (j + 1) (by omega) tk hk
    rwa [Nat.add_right_comm, Nat.add_assoc]
  · rintro ⟨hnot, hget, hoffered, hreached⟩
    refine ⟨hget, hoffered, fun j hj tk hk => ?_⟩
    cases j with
    | zero =>
      cases hk
      exact hnot
    | succ j =>
      have hrest := hreached j (by omega) tk hk
      rwa [Nat.add_right_comm, Nat.add_assoc] at hrest

/-- The calls are those for the descriptors that the loop comes to and passes on. -/
theorem mem_newTensorCalls_iff {start : ℕ} {tis : List TensorInfo}
    {x : TensorInfo × NewTensorCall} :
    x ∈ newTensorCalls calls fileSize header start tis ↔
      ∃ i ti type, Presented calls fileSize header start tis i ti type ∧
        x = (ti, newTensorCall ti type) := by
  induction tis generalizing start with
  | nil =>
    refine ⟨fun h => absurd h List.not_mem_nil, ?_⟩
    rintro ⟨i, ti, type, hpresented, -⟩
    exact absurd hpresented.get (by simp)
  | cons ti rest ih =>
    rw [mem_newTensorCalls_cons, ih]
    constructor
    · rintro (⟨type, hoffered, rfl⟩ | ⟨hnot, i, tj, type, hpresented, rfl⟩)
      · exact ⟨0, ti, type, presented_zero_iff.mpr ⟨rfl, hoffered⟩, rfl⟩
      · exact ⟨i + 1, tj, type, presented_succ_iff.mpr ⟨hnot, hpresented⟩, rfl⟩
    · rintro ⟨i, tj, type, hpresented, rfl⟩
      cases i with
      | zero =>
        obtain ⟨rfl, hoffered⟩ := presented_zero_iff.mp hpresented
        exact Or.inl ⟨type, hoffered, rfl⟩
      | succ i =>
        obtain ⟨hnot, hrest⟩ := presented_succ_iff.mp hpresented
        exact Or.inr ⟨hnot, i, tj, type, hrest, rfl⟩

end Calls

/-! ## Legal arguments -/

/-- What `ggml_new_tensor` may be called with, for a descriptor with these dimensions: no more
dimensions than the array has, the dimensions of the descriptor, and whole blocks in a row. -/
structure NewTensorCall.Legal (dims : List UInt64) (call : NewTensorCall) : Prop where
  one_le_ndim : 1 ≤ call.ndim.toInt
  ndim_le : call.ndim.toInt ≤ 4
  ne_eq : ∀ i : Fin 4, (call.ne i).toInt = (dims.getD i 1).toNat
  ne_nonneg : ∀ i : Fin 4, 0 ≤ (call.ne i).toInt
  blocks : (call.type.blckSize : ℤ) ∣ (call.ne 0).toInt

/-- A shape that ggml can represent. -/
structure LegalShape (type : GgmlType) (dims : List UInt64) : Prop where
  rank : dims.length ≤ 4
  dims_lt : ∀ d ∈ dims, d.toNat < 2 ^ 63
  blocks : type.blckSize ∣ (dims.headD 1).toNat

/-- The cast of a dimension keeps it below 2^63. -/
theorem toInt_toInt64_eq_iff (d : UInt64) : d.toInt64.toInt = d.toNat ↔ d.toNat < 2 ^ 63 := by
  have hcast : d.toInt64.toInt = (d.toNat : ℤ).bmod (2 ^ 64) := by
    rw [← UInt64.ofNat_toNat (x := d), UInt64.toInt64_ofNat', Int64.toInt_ofNat',
      UInt64.ofNat_toNat]
    rfl
  have hlt := d.toNat_lt
  rw [hcast, Int.bmod_def]
  split <;> omega

theorem shapeOf_eq (dims : List UInt64) (i : Fin 4) :
    shapeOf dims i = (dims.getD i 1).toInt64 := by
  rw [shapeOf, List.getD_eq_getElem?_getD]
  cases dims[i.val]? <;> rfl

/-- The cast of the number of dimensions of a file, which is below 2^32. -/
theorem ndim_iff {n : ℕ} (hpos : 1 ≤ n) (hlt : n < 2 ^ 32) :
    (1 ≤ (Int32.ofNat n).toInt ∧ (Int32.ofNat n).toInt ≤ 4) ↔ n ≤ 4 := by
  have hsize : Int32.size = 2 ^ 32 := rfl
  rw [Int32.toInt_ofNat', hsize, Int.bmod_def]
  split <;> omega

theorem legal_newTensorCall_iff {ti : TensorInfo} {type : GgmlType}
    (hlen : ti.dims.length < 2 ^ 32) :
    (newTensorCall ti type).Legal ti.dims ↔ LegalShape type ti.dims := by
  have hne : ∀ i, (newTensorCall ti type).ne i = (ti.dims.getD i 1).toInt64 := shapeOf_eq ti.dims
  have hndim : (1 ≤ (newTensorCall ti type).ndim.toInt ∧ (newTensorCall ti type).ndim.toInt ≤ 4) ↔
      max ti.dims.length 1 ≤ 4 := ndim_iff (Nat.le_max_right _ _) (by omega)
  have hhead : ti.dims.headD 1 = ti.dims.getD 0 1 := by cases ti.dims <;> rfl
  constructor
  · intro h
    have hrank : ti.dims.length ≤ 4 := by
      have hmax := hndim.mp ⟨h.one_le_ndim, h.ndim_le⟩
      omega
    refine ⟨hrank, fun d hd => ?_, ?_⟩
    · obtain ⟨i, hi, rfl⟩ := List.mem_iff_getElem.mp hd
      have heq := h.ne_eq ⟨i, by omega⟩
      rw [hne, toInt_toInt64_eq_iff] at heq
      rwa [List.getD_eq_getElem?_getD, List.getElem?_eq_getElem hi, Option.getD_some] at heq
    · have hblocks := h.blocks
      rw [h.ne_eq 0] at hblocks
      rw [hhead]
      exact Int.natCast_dvd_natCast.mp hblocks
  · intro h
    have hndim' := hndim.mpr (by have hrank := h.rank; omega)
    have hlt : ∀ i : Fin 4, (ti.dims.getD i 1).toNat < 2 ^ 63 := by
      intro i
      rw [List.getD_eq_getElem?_getD]
      cases hi : ti.dims[i.val]? with
      | none => decide
      | some d => exact h.dims_lt d (List.mem_of_getElem? hi)
    have heq : ∀ i : Fin 4, ((newTensorCall ti type).ne i).toInt = (ti.dims.getD i 1).toNat := by
      intro i
      rw [hne, toInt_toInt64_eq_iff]
      exact hlt i
    refine ⟨hndim'.1, hndim'.2, heq, fun i => by rw [heq]; exact Int.natCast_nonneg _, ?_⟩
    rw [heq 0]
    exact Int.natCast_dvd_natCast.mpr (hhead ▸ h.blocks)

/-! ## Parsed descriptors -/

/-- The number of dimensions is read from four bytes. -/
theorem returns_readTensorInfo (serves : ℕ → ℕ → Bool) (version : UInt32) :
    Returns (readTensorInfo serves version) fun ti => ti.dims.length < 2 ^ 32 := by
  refine (Returns.any _).bind fun name _ => (Returns.any _).bind fun nDims _ => ?_
  refine (Returns.any _).bind fun _ _ => ?_
  refine (returns_repeated (Returns.any _) nDims.toNat).bind fun dims hdims => ?_
  refine (Returns.any _).bind fun ggmlType _ => (Returns.any _).bind fun offset _ => Returns.pure ?_
  rw [hdims.1]
  exact nDims.toNat_lt

theorem returns_parseHeader (serves : ℕ → ℕ → Bool) :
    Returns (parseHeader serves) fun header => ∀ ti ∈ header.tensors, ti.dims.length < 2 ^ 32 := by
  refine (Returns.any _).bind fun magic _ => ?_
  split
  · exact returns_fail _ _
  refine (Returns.any _).bind fun version _ => ?_
  split
  · exact returns_fail _ _
  refine (Returns.any _).bind fun nTensors _ => (Returns.any _).bind fun nKv _ => ?_
  refine (Returns.any _).bind fun _ _ => (Returns.any _).bind fun pairs _ => ?_
  refine (Returns.any _).bind fun _ _ => ?_
  refine (returns_repeated (returns_readTensorInfo serves version) _).bind fun tensors hts => ?_
  refine (Returns.any _).bind fun pos _ => ?_
  dsimp only
  split
  · exact returns_abort _
  · exact Returns.pure hts.2

theorem length_dims_lt {serves : ℕ → ℕ → Bool} {file : List UInt8} {header : GgufHeader}
    (h : GgufHeader.parse serves file = .ok header) {ti : TensorInfo} (hti : ti ∈ header.tensors) :
    ti.dims.length < 2 ^ 32 := by
  obtain ⟨⟨_, c⟩, hparse, hheader⟩ := Outcome.bind_eq_ok.mp h
  cases hheader
  exact returns_parseHeader serves _ _ _ hparse ti hti

/-! ## Loading -/

/-- All calls of a load are legal exactly if the descriptors that the loop comes to and passes on
have shapes that ggml can represent. -/
theorem legalCalls_iff (calls : LoadCalls) (serves : ℕ → ℕ → Bool) (file : List UInt8) :
    (∀ x ∈ loadNewTensorCalls calls serves file, x.2.Legal x.1.dims) ↔
      ∀ header, GgufHeader.parse serves file = .ok header →
        (calls.mapped && calls.buffer && calls.context) = true →
        ∀ i ti type,
          Presented calls (UInt64.ofNat file.length) header 0 header.tensors i ti type →
          LegalShape type ti.dims := by
  unfold loadNewTensorCalls
  cases hparse : GgufHeader.parse serves file with
  | panic => simp
  | err e => simp
  | ok header =>
    have hlen : ∀ {ti}, ti ∈ header.tensors → ti.dims.length < 2 ^ 32 := length_dims_lt hparse
    simp only [Outcome.ok.injEq, forall_eq']
    cases hopen : calls.mapped && calls.buffer && calls.context with
    | false => simp
    | true =>
      simp only [forall_true_left, if_true]
      constructor
      · intro h i ti type hpresented
        rw [← legal_newTensorCall_iff (hlen (List.mem_of_getElem? hpresented.get))]
        exact h _ (mem_newTensorCalls_iff.mpr ⟨i, ti, type, hpresented, rfl⟩)
      · intro h x hx
        obtain ⟨i, ti, type, hpresented, rfl⟩ := mem_newTensorCalls_iff.mp hx
        exact (legal_newTensorCall_iff (hlen (List.mem_of_getElem? hpresented.get))).mpr
          (h i ti type hpresented)

/-! ## Five dimensions -/

def fiveDims : TensorInfo :=
  { name := "t", dims := [1, 1, 1, 1, 1], ggmlType := 0, offset := 0 }

theorem fiveDims_lt : [fiveDims].length < 256 ^ countWidth floatsLayout.version := by decide

theorem fits_fiveDims : ∀ t ∈ [fiveDims], t.Fits (countWidth floatsLayout.version) := by
  simp only [List.mem_singleton, forall_eq]
  exact TensorInfo.fits_eight (by simp [fiveDims, StringFits, utf8_eq]; decide) (by decide)

def fiveDimsLayout : HeaderLayout :=
  { floatsLayout with
    tensors := [fiveDims]
    tensors_lt := fiveDims_lt
    tensors_fit := fits_fiveDims }

/-- A single number with five dimensions is announced as such, with an array of four. -/
theorem not_legalCalls : ¬ ∀ (calls : LoadCalls) (serves : ℕ → ℕ → Bool) (file : List UInt8),
    ∀ x ∈ loadNewTensorCalls calls serves file, x.2.Legal x.1.dims := by
  intro h
  have hlen : fiveDimsLayout.encode.length = 89 := by decide +kernel
  have halign : alignmentOf fiveDimsLayout.metadataMap = 32 := rfl
  have hparse := parse_encode (fun _ _ _ => rfl : Adequate fun _ _ => true) fiveDimsLayout
    (Or.inr rfl) (List.replicate 11 0)
  rw [halign, hlen, if_neg (by decide)] at hparse
  have hfile : (fiveDimsLayout.encode ++ List.replicate 11 0).length = 100 := by
    rw [List.length_append, hlen, List.length_replicate]
  have hmem : (fiveDims, newTensorCall fiveDims .f32) ∈
      loadNewTensorCalls mapAt4096 (fun _ _ => true)
        (fiveDimsLayout.encode ++ List.replicate 11 0) := by
    rw [loadNewTensorCalls, hparse, hfile]
    refine mem_newTensorCalls_iff.mpr ⟨0, fiveDims, .f32, ?_, rfl⟩
    exact presented_zero_iff.mpr ⟨rfl, rfl, by decide⟩
  have hlegal := h mapAt4096 (fun _ _ => true) _ _ hmem
  exact absurd hlegal.ndim_le (by decide)

end QuantumFlow
