import Mathlib.Data.List.Forall2
import QuantumFlow.Gguf.RoundTrip
import QuantumFlow.Tokenizer.Vocabulary

/-!
# The vocabulary tables of a model file

`buildTokenizer` takes four arrays out of the metadata and hands them to `fromGgufParts`. An
extractor keeps the elements of one kind and drops the others, so a table survives loading
exactly when all its elements have the kind that is asked for.
-/

namespace QuantumFlow

open Gguf

/-! ## Extraction -/

/-- Errors are the texts that are printed. `absent` is the answer for a missing key. -/
def extractArray {α : Type} (ofValue : GgufValue → Option α) (absent : Except String (List α))
    (kind : String) (metadata : Dict String GgufValue) (key : String) : Except String (List α) :=
  match metadata.get key with
  | some (.array arr) => .ok (arr.filterMap ofValue)
  | none => absent
  | some _ => .error s!"{key} is not {kind}"

def stringOf : GgufValue → Option String
  | .string s => some s
  | _ => none

def f32Of : GgufValue → Option UInt32
  | .f32 bits => some bits
  | _ => none

def extractStringArray (metadata : Dict String GgufValue) (key : String) :
    Except String (List String) :=
  extractArray stringOf (.error s!"missing {key}") "a string array" metadata key

def extractF32Array (metadata : Dict String GgufValue) (key : String) :
    Except String (List UInt32) :=
  extractArray f32Of (.ok []) "an f32 array" metadata key

def extractU32Array (metadata : Dict String GgufValue) (key : String) :
    Except String (List UInt32) :=
  extractArray GgufValue.asU32 (.ok []) "a u32 array" metadata key

def unwrapOrDefault {α : Type} : Except String (List α) → List α
  | .ok xs => xs
  | .error _ => []

def buildTokenizer (header : GgufHeader) : Outcome String Tokenizer :=
  match extractStringArray header.metadata "tokenizer.ggml.tokens" with
  | .error message => .err message
  | .ok tokens =>
    let scores := unwrapOrDefault (extractF32Array header.metadata "tokenizer.ggml.scores")
    let types := unwrapOrDefault (extractU32Array header.metadata "tokenizer.ggml.token_type")
    let merges := unwrapOrDefault (extractStringArray header.metadata "tokenizer.ggml.merges")
    match fromGgufParts tokens scores types merges with
    | .ok T => .ok T
    | .err e => .err e.message
    | .panic => .panic

/-- A tokenizer is built from the strings under the tokens key and the `u32`s under the types
key. -/
theorem exists_fromGgufParts_of_buildTokenizer {header : GgufHeader} {T : Tokenizer}
    (h : buildTokenizer header = .ok T) :
    ∃ tokens scores merges,
      extractStringArray header.metadata "tokenizer.ggml.tokens" = .ok tokens ∧
      fromGgufParts tokens scores
        (unwrapOrDefault (extractU32Array header.metadata "tokenizer.ggml.token_type")) merges =
          .ok T := by
  unfold buildTokenizer at h
  split at h
  · cases h
  · rename_i tokens htokens
    dsimp only at h
    split at h
    · rename_i hparts
      cases h
      exact ⟨tokens, _, _, htokens, hparts⟩
    · cases h
    · cases h

/-! ## What survives -/

/-- The number that an integer value of any width stores. -/
def intOf : GgufValue → Option ℤ
  | .u8 v => some v.toNat
  | .i8 v => some v.toInt
  | .u16 v => some v.toNat
  | .i16 v => some v.toInt
  | .u32 v => some v.toNat
  | .i32 v => some v.toInt
  | .u64 v => some v.toNat
  | .i64 v => some v.toInt
  | _ => none

/-- Whatever is extracted has the stored length, and its entries are the stored ones. -/
def Survives {α : Type} (Stores : α → GgufValue → Prop) (vs : List GgufValue)
    (extracted : Except String (List α)) : Prop :=
  ∀ out, extracted = .ok out → List.Forall₂ Stores out vs

/-- Each entry of the vocabulary has the token type stored for it. -/
def TypesSurvive (T : Tokenizer) (types : List Int32) : Prop :=
  T.vocab.map (fun entry => (entry.tokenType.toNat : ℤ)) = types.map Int32.toInt

theorem forall₂_filterMap_iff {α β : Type} {R : α → β → Prop} {f : β → Option α}
    (hf : ∀ a b, f b = some a → R a b) (bs : List β) :
    List.Forall₂ R (bs.filterMap f) bs ↔ ∀ b ∈ bs, ∃ a, f b = some a := by
  constructor
  · intro h b hb
    exact Option.isSome_iff_exists.mp (List.filterMap_length_eq_length.mp h.length_eq b hb)
  · intro h
    induction bs with
    | nil => exact .nil
    | cons b bs ih =>
      obtain ⟨a, ha⟩ := h b (by simp)
      rw [List.filterMap_cons_some ha]
      exact .cons (hf a b ha) (ih fun b' hb' => h b' (by simp [hb']))

section Extraction

variable {metadata : Dict String GgufValue} {key : String} {vs : List GgufValue}
  (hget : metadata.get key = some (.array vs))
include hget

/-- A stored array survives exactly when the extractor keeps all its elements. -/
theorem survives_extractArray_iff {α : Type} {ofValue : GgufValue → Option α}
    {Stores : α → GgufValue → Prop} (hof : ∀ a v, ofValue v = some a → Stores a v)
    (absent : Except String (List α)) (kind : String) :
    Survives Stores vs (extractArray ofValue absent kind metadata key) ↔
      ∀ v ∈ vs, ∃ a, ofValue v = some a := by
  rw [← forall₂_filterMap_iff hof vs, extractArray, hget]
  constructor
  · intro h
    exact h _ rfl
  · intro h out hout
    cases hout
    exact h

theorem survives_extractStringArray_iff :
    Survives (fun s v => v = .string s) vs (extractStringArray metadata key) ↔
      ∀ v ∈ vs, ∃ s, v = .string s := by
  have hof : ∀ s v, stringOf v = some s ↔ v = .string s := by
    intro s v
    cases v <;> simp [stringOf]
  rw [extractStringArray, survives_extractArray_iff hget fun s v => (hof s v).mp]
  simp only [hof]

theorem survives_extractF32Array_iff :
    Survives (fun x v => v = .f32 x) vs (extractF32Array metadata key) ↔
      ∀ v ∈ vs, ∃ x, v = .f32 x := by
  have hof : ∀ x v, f32Of v = some x ↔ v = .f32 x := by
    intro x v
    cases v <;> simp [f32Of]
  rw [extractF32Array, survives_extractArray_iff hget fun x v => (hof x v).mp]
  simp only [hof]

/-- An entry counts as the stored one if it is the same number, of whatever width. -/
theorem survives_extractU32Array_iff :
    Survives (fun n v => intOf v = some (n.toNat : ℤ)) vs (extractU32Array metadata key) ↔
      ∀ v ∈ vs, ∃ n, v = .u32 n := by
  have hof : ∀ n v, GgufValue.asU32 v = some n ↔ v = .u32 n := by
    intro n v
    cases v <;> simp [GgufValue.asU32]
  rw [extractU32Array, survives_extractArray_iff hget]
  · simp only [hof]
  · intro n v h
    rw [(hof n v).mp h, intOf]

end Extraction

/-! ## Token types stored as `i32` -/

/-- None of them is extracted. -/
theorem extractU32Array_of_i32 {metadata : Dict String GgufValue} {key : String}
    {types : List Int32} (hget : metadata.get key = some (.array (types.map .i32))) :
    extractU32Array metadata key = .ok [] := by
  have hnone : (types.map GgufValue.i32).filterMap GgufValue.asU32 = [] := by
    simp [List.filterMap_eq_nil_iff, GgufValue.asU32]
  rw [extractU32Array, extractArray, hget]
  exact congrArg Except.ok hnone

/-- Without token types every entry is normal. -/
theorem BuiltFrom.tokenTypes_eq_of_nil {tokens : List String} {scores : List UInt32}
    {merges : List String} {T : Tokenizer} (built : BuiltFrom tokens scores [] merges T) :
    T.vocab.map (fun entry => (entry.tokenType.toNat : ℤ)) = List.replicate T.vocab.length 1 := by
  rw [List.eq_replicate_iff]
  refine ⟨List.length_map _, ?_⟩
  intro t ht
  obtain ⟨entry, hentry, rfl⟩ := List.mem_map.mp ht
  rw [built.vocab, buildVocab] at hentry
  obtain ⟨i, -, rfl⟩ := List.mem_mapIdx.mp hentry
  rfl

theorem typesSurvive_iff_of_i32 {header : GgufHeader} {T : Tokenizer} {types : List Int32}
    (hT : buildTokenizer header = .ok T)
    (hget : header.metadata.get "tokenizer.ggml.token_type" = some (.array (types.map .i32)))
    (hlen : types.length = T.vocab.length) : TypesSurvive T types ↔ ∀ t ∈ types, t = 1 := by
  obtain ⟨tokens, scores, merges, -, hparts⟩ := exists_fromGgufParts_of_buildTokenizer hT
  have built := builtFrom_of_eq_ok hparts
  rw [extractU32Array_of_i32 hget] at built
  rw [TypesSurvive, built.tokenTypes_eq_of_nil, ← hlen, eq_comm, List.eq_replicate_iff]
  simp only [List.length_map, List.mem_map, forall_exists_index, and_imp,
    forall_apply_eq_imp_iff₂, true_and]
  have hone : ∀ t : Int32, t.toInt = 1 ↔ t = 1 := fun t => Int32.toInt_inj (y := 1)
  simp only [hone]

/-! ## Exactly when the tables survive -/

/-- An array survives its extractor exactly when it holds nothing but the extractor's kind of
element. Token types stored as `i32` survive exactly when they are all normal. -/
theorem tables_survive_iff (header : GgufHeader) :
    (∀ key vs, header.metadata.get key = some (.array vs) →
      (Survives (fun s v => v = .string s) vs (extractStringArray header.metadata key) ↔
        ∀ v ∈ vs, ∃ s, v = .string s) ∧
      (Survives (fun x v => v = .f32 x) vs (extractF32Array header.metadata key) ↔
        ∀ v ∈ vs, ∃ x, v = .f32 x) ∧
      (Survives (fun n v => intOf v = some (n.toNat : ℤ)) vs
          (extractU32Array header.metadata key) ↔
        ∀ v ∈ vs, ∃ n, v = .u32 n)) ∧
    ∀ T (types : List Int32), buildTokenizer header = .ok T →
      header.metadata.get "tokenizer.ggml.token_type" = some (.array (types.map .i32)) →
      types.length = T.vocab.length →
      (TypesSurvive T types ↔ ∀ t ∈ types, t = 1) :=
  ⟨fun _ _ hget => ⟨survives_extractStringArray_iff hget, survives_extractF32Array_iff hget,
    survives_extractU32Array_iff hget⟩, fun _ _ => typesSurvive_iff_of_i32⟩

theorem stringFits_control : StringFits (countWidth 3) "<s>" := by
  simp [StringFits, utf8_eq, countWidth]
  decide

/-- A file with one control token. -/
def controlToken : HeaderLayout where
  version := 3
  metadata := [("tokenizer.ggml.tokens", .array .string (["<s>"] : List String)),
    ("tokenizer.ggml.token_type", .array .i32 ([3] : List Int32))]
  tensors := []
  keys_nodup := by decide
  metadata_lt := by decide
  tensors_lt := no_tensors_lt
  keys_fit := by simp [StringFits, utf8_eq, countWidth]; decide
  values_fit := by
    simp only [List.mem_cons, List.not_mem_nil, or_false, forall_eq_or_imp, forall_eq]
    refine ⟨⟨by decide, ?_⟩, by decide, fun _ _ => trivial⟩
    intro v hv
    rw [show v = "<s>" from List.mem_singleton.mp hv]
    exact stringFits_control
  tensors_fit := no_tensors_fit

def controlHeader : GgufHeader := ⟨3, 0, controlToken.metadataMap, [], 160⟩

theorem parse_controlToken : GgufHeader.parse (fun _ _ => true) (controlToken.encode ++ []) =
    .ok controlHeader := by
  have halign : alignmentOf controlToken.metadataMap = 32 := by decide +kernel
  have hlen : controlToken.encode.length = 133 := by decide +kernel
  rw [parse_encode (fun _ _ _ => rfl) controlToken (Or.inr rfl), halign, hlen]
  rfl

theorem types_controlHeader : controlHeader.metadata.get "tokenizer.ggml.token_type" =
    some (.array (([3] : List Int32).map .i32)) :=
  (controlToken.get_metadataMap _ _).mpr ⟨_, List.mem_cons_of_mem _ List.mem_cons_self, rfl, rfl⟩

theorem tokens_controlHeader : controlHeader.metadata.get "tokenizer.ggml.tokens" =
    some (.array (["<s>"].map .string)) :=
  (controlToken.get_metadataMap _ _).mpr ⟨_, List.mem_cons_self, rfl, rfl⟩

/-- It is loaded with a vocabulary of one entry. -/
theorem exists_buildTokenizer_controlHeader :
    ∃ T, buildTokenizer controlHeader = .ok T ∧ T.vocab.length = 1 := by
  obtain ⟨T, hT⟩ := exists_fromGgufParts_eq_ok ["<s>"] [] [] [] (fun h => absurd rfl h) (by simp)
  have htokens : extractStringArray controlHeader.metadata "tokenizer.ggml.tokens" =
      .ok ["<s>"] := by
    rw [extractStringArray, extractArray, tokens_controlHeader]
    rfl
  have hscores : unwrapOrDefault
      (extractF32Array controlHeader.metadata "tokenizer.ggml.scores") = [] := by decide +kernel
  have hmerges : unwrapOrDefault
      (extractStringArray controlHeader.metadata "tokenizer.ggml.merges") = [] := by
    decide +kernel
  have htypes : unwrapOrDefault
      (extractU32Array controlHeader.metadata "tokenizer.ggml.token_type") = [] := by
    rw [extractU32Array_of_i32 types_controlHeader]
    rfl
  refine ⟨T, ?_, ?_⟩
  · rw [buildTokenizer, htokens]
    simp only [hscores, hmerges, htypes, hT]
  · rw [(builtFrom_of_eq_ok hT).vocab]
    rfl

theorem tables_survive_iff_control :
    (Survives (fun n v => intOf v = some (n.toNat : ℤ)) [.i32 3]
        (extractU32Array controlHeader.metadata "tokenizer.ggml.token_type") ↔
      ∀ v ∈ [GgufValue.i32 3], ∃ n, v = .u32 n) ∧
    ∃ T, buildTokenizer controlHeader = .ok T ∧
      (TypesSurvive T [3] ↔ ∀ t ∈ ([3] : List Int32), t = 1) := by
  obtain ⟨T, hT, hlen⟩ := exists_buildTokenizer_controlHeader
  have h := tables_survive_iff controlHeader
  exact ⟨(h.1 _ _ types_controlHeader).2.2,
    T, hT, h.2 T [3] hT types_controlHeader (by rw [hlen]; rfl)⟩

/-- The stored type of the control token is dropped, and the token is a normal one. -/
theorem not_tables_survive :
    (¬ ∀ (serves : ℕ → ℕ → Bool) (file : List UInt8) (header : GgufHeader) (vs : List GgufValue),
      GgufHeader.parse serves file = .ok header →
      header.metadata.get "tokenizer.ggml.token_type" = some (.array vs) →
      Survives (fun n v => intOf v = some (n.toNat : ℤ)) vs
        (extractU32Array header.metadata "tokenizer.ggml.token_type")) ∧
    ¬ ∀ (serves : ℕ → ℕ → Bool) (file : List UInt8) (header : GgufHeader) (T : Tokenizer)
        (types : List Int32),
      GgufHeader.parse serves file = .ok header → buildTokenizer header = .ok T →
      header.metadata.get "tokenizer.ggml.token_type" = some (.array (types.map .i32)) →
      types.length = T.vocab.length → TypesSurvive T types := by
  constructor
  · intro h
    obtain ⟨n, hn⟩ := (survives_extractU32Array_iff types_controlHeader).mp
      (h _ _ _ _ parse_controlToken types_controlHeader) (.i32 3) (by simp)
    cases hn
  · intro h
    obtain ⟨T, hT, hlen⟩ := exists_buildTokenizer_controlHeader
    have htypes := h _ _ _ T [3] parse_controlToken hT types_controlHeader (by rw [hlen]; rfl)
    have hone := (typesSurvive_iff_of_i32 hT types_controlHeader (by rw [hlen]; rfl)).mp htypes 3
      (by simp)
    exact absurd hone (by decide)

end QuantumFlow
