import QuantumFlow.Generate.Turn
import QuantumFlow.Graph.Positions
import QuantumFlow.Loader.Placement
import QuantumFlow.Loader.Startup
import QuantumFlow.Tokenizer.Numbering

/-!
# Four vocabulary sizes

The ids that a program feeds to its graph come from the template, the tokenizer and the logits;
the rows they are looked up in come from a tensor. Nothing compares the fixed ids, the token
list, `llama.vocab_size` and the two tensors, so that they agree is left to the file.
-/

namespace QuantumFlow

open Gguf

variable {X W F : Type}

/-! ## What is fed -/

/-- The template's own tokens. -/
def templateIds : List TokenId := [T_BOS, T_START_HEADER, T_END_HEADER, T_EOT, T_NEWLINES]

/-- The ids that a prefill or a decode can be given: the template's own, those of an encoded
text, and the indices of the logits. -/
inductive Feeds (T : Tokenizer) (nVocab : ℕ) : TokenId → Prop
  | fixed {id : TokenId} (h : id ∈ templateIds) : Feeds T nVocab id
  | encoded {text : String} {addBos : Bool} {ids : List TokenId} {id : TokenId}
      (h : T.encode text addBos = some ids) (hid : id ∈ ids) : Feeds T nVocab id
  | sampled {id : TokenId} (h : id.toNat < nVocab) : Feeds T nVocab id

namespace Started

variable (s : Started X F)

/-- No id is looked up past the last row, and no more logits are read than there are. -/
structure WithinRows : Prop where
  ids : ∀ id, Feeds s.tokenizer s.graph.hp.nVocab id → (id.toNat : ℤ) < s.embdRows
  logits : (s.graph.hp.nVocab : ℤ) * 4 ≤ 4 * s.outputRows

/-- No entry past the last row is an id of an encoded text. -/
def EntriesWithin : Prop :=
  ∀ id : TokenId, s.embdRows ≤ id.toNat → id.toNat < s.tokenizer.vocab.length →
    ∀ text ids, s.tokenizer.encodeNoBos text = some ids → id ∉ ids

/-- The embedding has a row for the last fixed id, for every logit and for every entry that a
text is encoded with, and the output has a row for every logit. -/
structure SizesAgree : Prop where
  fixed : (T_EOT.toNat : ℤ) < s.embdRows
  sampled : (s.graph.hp.nVocab : ℤ) ≤ s.embdRows
  entries : s.EntriesWithin
  logits : (s.graph.hp.nVocab : ℤ) ≤ s.outputRows

variable {s}

theorem toNat_le_of_mem_templateIds {id : TokenId} (h : id ∈ templateIds) :
    id.toNat ≤ T_EOT.toNat := by
  simp only [templateIds, List.mem_cons, List.not_mem_nil, or_false] at h
  rcases h with rfl | rfl | rfl | rfl | rfl <;> decide

theorem SizesAgree.withinRows (h : s.SizesAgree) : s.WithinRows := by
  obtain ⟨hfixed, hsampled, hentries, hlogits⟩ := h
  have htemplate : ∀ id ∈ templateIds, (id.toNat : ℤ) < s.embdRows := by
    intro id hid
    have hle := toNat_le_of_mem_templateIds hid
    omega
  refine ⟨?_, by omega⟩
  intro id hfeeds
  cases hfeeds with
  | fixed hid => exact htemplate id hid
  | sampled hlt => omega
  | encoded hids hid =>
    rcases mem_encode_cases hids hid with rfl | ⟨ids, hids, hid⟩
    · exact htemplate TOKEN_BOS (by decide)
    obtain ⟨tokens, scores, merges, -, hT⟩ :=
      exists_fromGgufParts_of_buildTokenizer s.buildTokenizer_eq
    rcases (inTables_of_mem_encodeNoBos hids hid).numbers hT with hlt | rfl
    · by_contra hpast
      exact hentries id (Int.not_lt.mp hpast) hlt _ ids hids hid
    · exact Int.lt_of_le_of_lt (by decide) hfixed

theorem WithinRows.sizesAgree (h : s.WithinRows) : s.SizesAgree where
  fixed := h.ids T_EOT (.fixed (by decide))
  sampled := by
    -- the last logit is an index like any other
    have hlt := s.nVocab_lt
    cases hn : s.graph.hp.nVocab with
    | zero => exact Int.le_of_lt (Int.lt_of_le_of_lt (by decide) (h.ids T_EOT (.fixed (by decide))))
    | succ n =>
      rw [hn] at hlt
      have hnat : (UInt32.ofNat n).toNat = n := UInt32.toNat_ofNat_of_lt' (Nat.lt_of_succ_lt hlt)
      have hlast := h.ids (UInt32.ofNat n) (.sampled (by rw [hnat, hn]; exact Nat.lt_succ_self n))
      rw [hnat] at hlast
      omega
  entries := by
    intro id hpast _ text ids hids hid
    have hlt := h.ids id (.encoded hids hid)
    omega
  logits := by
    have hlogits := h.logits
    omega

/-- A token list that is no longer than the embedding stays within it. -/
theorem entriesWithin_of_length_le (h : (s.tokenizer.vocab.length : ℤ) ≤ s.embdRows) :
    s.EntriesWithin := by
  intro id hpast hlt
  omega

/-- Only ids of the tables are returned. -/
theorem entriesWithin_of_inTables
    (h : ∀ id, s.tokenizer.InTables id → (id.toNat : ℤ) < s.embdRows) : s.EntriesWithin := by
  intro id hpast _ text ids hids hid
  have hlt := h id (inTables_of_mem_encodeNoBos hids hid)
  omega

/-- An entry past the last row that spells a short text is an id of that text. -/
theorem not_entriesWithin {text : String} {id : TokenId}
    (hget : s.tokenizer.tokenToId.get (bytesToGpt2Unicode (utf8 text)) = some id)
    (hne : bytesToGpt2Unicode (utf8 text) ≠ [])
    (hle : (bytesToGpt2Unicode (utf8 text)).length ≤ 64) (hpast : s.embdRows ≤ id.toNat) :
    ¬ s.EntriesWithin := by
  intro hentries
  obtain ⟨tokens, scores, merges, -, hT⟩ :=
      exists_fromGgufParts_of_buildTokenizer s.buildTokenizer_eq
  have hlt := (builtFrom_of_eq_ok hT).toNat_lt_vocab_of_get hget
  exact hentries id hpast hlt text [id] (Tokenizer.encodeNoBos_of_get hget hne hle) (by simp)

end Started

/-! ## What a turn looks up -/

/-- The same operations on an embedding of `rows` rows: a row past the last one is not read. -/
def Ggml.within (rows : ℤ) (G : Ggml X W F) : Ggml X W F :=
  { G with getRows := fun w id => if (id.toNat : ℤ) < rows then G.getRows w id else G.zero }

def Engine.within (rows : ℤ) (E : Engine X W F) : Engine X W F :=
  { E with ggml := E.ggml.within rows }

/-- Sampling draws an index of the logits, and as many logits are read as are asked for. -/
structure Engine.Draws (E : Engine X W F) : Prop where
  sample : ∀ logits recent rng token rng', E.sample logits recent rng = .ok (token, rng') →
    token.toNat < logits.length
  tensorGet : ∀ n x, (E.ggml.tensorGet n x).length = n

section Within

variable {rows : ℤ} {G : Ggml X W F} {hp : LlamaHparams F}

theorem map_getRows_within (w : W) {tokens : List TokenId}
    (h : ∀ id ∈ tokens, (id.toNat : ℤ) < rows) :
    tokens.map ((G.within rows).getRows w) = tokens.map (G.getRows w) :=
  List.map_congr_left fun id hid => if_pos (h id hid)

theorem forwardLayers_within (head : ℕ) (pos : ℤ) (layer : ℕ) (ws : List (LayerWeights W))
    (kvRows : KVRows X) (cur : List X) :
    forwardLayers (G.within rows) hp head pos layer ws kvRows cur =
      forwardLayers G hp head pos layer ws kvRows cur := by
  induction ws generalizing layer kvRows cur with
  | nil => rfl
  | cons w ws ih => exact ih _ _ _

theorem decodeLayers_within (nCtx : ℕ) (mask : List ℤ) (pos : ℤ) (layer : ℕ)
    (ws : List (LayerWeights W)) (kvRows : KVRows X) (cur : X) :
    decodeLayers (G.within rows) hp nCtx mask pos layer ws kvRows cur =
      decodeLayers G hp nCtx mask pos layer ws kvRows cur := by
  induction ws generalizing layer kvRows cur with
  | nil => rfl
  | cons w ws ih =>
    rw [decodeLayers, decodeLayers, ih]
    rfl

namespace LlamaGraph

variable {calls : GgmlCalls X} {model : MappedModel W} {g : LlamaGraph X W F}

theorem prefill_within {tokens : List TokenId} (h : ∀ id ∈ tokens, (id.toNat : ℤ) < rows) :
    prefill (G.within rows) calls model tokens g = prefill G calls model tokens g := by
  have hbatch : ∀ w, batchCache (G.within rows) w g.kv g.hp tokens 0 =
      batchCache G w g.kv g.hp tokens 0 := by
    intro w
    rw [batchCache, batchCache, forwardLayers_within, map_getRows_within _ h]
  have hlogits : ∀ w x, logitsOf (G.within rows) g.hp w x = logitsOf G g.hp w x := fun _ _ => rfl
  simp only [prefill, forward, hbatch, hlogits]

theorem decodeOne_within {token : TokenId} (h : (token.toNat : ℤ) < rows) :
    decodeOne (G.within rows) calls model token g = decodeOne G calls model token g := by
  have hrow : ∀ w, (G.within rows).getRows w token = G.getRows w token := fun _ => if_pos h
  have hcache : ∀ w, tokenCache (G.within rows) w g.kv g.hp token =
      tokenCache G w g.kv g.hp token := by
    intro w
    rw [tokenCache, tokenCache, decodeLayers_within, hrow]
  have hlogits : ∀ w x, logitsOf (G.within rows) g.hp w x = logitsOf G g.hp w x := fun _ _ => rfl
  simp only [decodeOne, executeDecode, hcache, hlogits]

/-- A request that returns logits returns one for each entry that the metadata counts. -/
theorem length_prefill (hget : ∀ n x, (G.tensorGet n x).length = n) {tokens : List TokenId}
    {g' : LlamaGraph X W F} {logits : List F}
    (h : prefill G calls model tokens g = (.ok logits, g')) : logits.length = g.hp.nVocab := by
  obtain ⟨w, -, hlogits, -⟩ := prefill_returns h
  obtain ⟨last, -, rfl⟩ := Option.map_eq_some_iff.mp hlogits
  exact hget _ _

theorem length_decodeOne (hget : ∀ n x, (G.tensorGet n x).length = n) {token : TokenId}
    {g' : LlamaGraph X W F} {logits : List F}
    (h : decodeOne G calls model token g = (.ok logits, g')) : logits.length = g.hp.nVocab := by
  obtain ⟨res, hdecode, hres⟩ := decodeOne_cases h
  obtain rfl := mapErr_eq_ok hres.symm
  obtain ⟨w, -, -, rfl, -⟩ := executeDecode_eq_ok hdecode
  exact hget _ _

end LlamaGraph

namespace Engine

variable {E : Engine X W F} {calls : TurnCalls X}

theorem writePiece_within (generated : ℕ) (token : TokenId) :
    (E.within rows).writePiece calls generated token = E.writePiece calls generated token := rfl

theorem model_within : (E.within rows).model = E.model := rfl

theorem sample_within : (E.within rows).sample = E.sample := rfl

theorem maxNewTokens_within : (E.within rows).maxNewTokens = E.maxNewTokens := rfl

/-- Sampled tokens are looked up within the embedding when it has a row for every logit. -/
theorem decodeLoop_within (draws : E.Draws) {left : ℕ} {reply recent : List TokenId}
    {nextToken : TokenId} {rng : UInt64} {g : LlamaGraph X W F}
    (hrows : (g.hp.nVocab : ℤ) ≤ rows) (hnext : nextToken.toNat < g.hp.nVocab) :
    (E.within rows).decodeLoop calls left reply nextToken recent rng g =
      E.decodeLoop calls left reply nextToken recent rng g := by
  induction left generalizing reply recent nextToken rng g with
  | zero => rfl
  | succ left ih =>
    have hsame : g.decodeOne (E.within rows).ggml (calls.decode reply.length) E.model nextToken =
        g.decodeOne E.ggml (calls.decode reply.length) E.model nextToken :=
      LlamaGraph.decodeOne_within (by omega)
    unfold decodeLoop
    simp only [writePiece_within, model_within, sample_within, hsame]
    split
    · rfl
    split
    · rfl
    split
    · rfl
    rcases hdecode : g.decodeOne E.ggml (calls.decode reply.length) E.model nextToken with
      ⟨logits | e | _, g'⟩
    · obtain ⟨-, hhp, -⟩ := LlamaGraph.decodeOne_eq_ok hdecode
      have hlen := LlamaGraph.length_decodeOne draws.tensorGet hdecode
      dsimp only
      cases hsample : E.sample logits (pushRecent recent nextToken) rng with
      | ok next =>
        have hlt := draws.sample _ _ _ next.1 next.2 hsample
        refine ih ?_ ?_
        · rwa [hhp]
        · rwa [hhp, ← hlen]
      | err e => rfl
      | panic => rfl
    · rfl
    · rfl

/-- So a turn is the same on an embedding of that many rows. -/
theorem runGeneration_within (draws : E.Draws) {turnIds : List TokenId} {g : LlamaGraph X W F}
    (hrows : (g.hp.nVocab : ℤ) ≤ rows) (hids : ∀ id ∈ turnIds, (id.toNat : ℤ) < rows) :
    (E.within rows).runGeneration calls turnIds g = E.runGeneration calls turnIds g := by
  have hsame : g.prefill (E.within rows).ggml calls.prefill E.model turnIds =
      g.prefill E.ggml calls.prefill E.model turnIds := LlamaGraph.prefill_within hids
  unfold runGeneration
  simp only [model_within, sample_within, maxNewTokens_within, hsame]
  split
  · rfl
  split
  · rfl
  rcases hprefill : g.prefill E.ggml calls.prefill E.model turnIds with ⟨logits | e | _, g'⟩
  · obtain ⟨-, -, hhp, -⟩ := LlamaGraph.prefill_eq_ok hprefill
    have hlen := LlamaGraph.length_prefill draws.tensorGet hprefill
    dsimp only
    cases hsample : E.sample logits [] calls.seed with
    | ok next =>
      have hlt := draws.sample _ _ _ next.1 next.2 hsample
      dsimp only
      rw [decodeLoop_within draws (by rwa [hhp]) (by rwa [hhp, ← hlen])]
    | err e => rfl
    | panic => rfl
  · rfl
  · rfl

end Engine

end Within

/-- Everything in the tokens of a turn comes from the template or from an encoded text. -/
theorem feeds_of_mem_turnIds {E : Engine X W F} {message : String} {turnNumber : ℕ}
    {ids : List TokenId} (h : E.turnIds message turnNumber = some ids) (nVocab : ℕ) :
    ∀ id ∈ ids, Feeds E.tokenizer nVocab id := by
  have hfixed : ∀ l ⊆ templateIds, ∀ id ∈ l, Feeds E.tokenizer nVocab id :=
    fun l hl id hid => .fixed (hl hid)
  have hencoded : ∀ {text l}, E.tokenizer.encodeNoBos text = some l →
      ∀ id ∈ l, Feeds E.tokenizer nVocab id := fun htext id hid => .encoded htext hid
  have happend : ∀ {l r : List TokenId}, (∀ id ∈ l, Feeds E.tokenizer nVocab id) →
      (∀ id ∈ r, Feeds E.tokenizer nVocab id) → ∀ id ∈ l ++ r, Feeds E.tokenizer nVocab id :=
    fun hl hr => List.forall_mem_append.mpr ⟨hl, hr⟩
  have hpart : ∀ {role part : List TokenId}, (∀ id ∈ role, Feeds E.tokenizer nVocab id) →
      (∀ id ∈ part, Feeds E.tokenizer nVocab id) →
      ∀ id ∈ [T_START_HEADER] ++ role ++ [T_END_HEADER] ++ part ++ [T_EOT],
        Feeds E.tokenizer nVocab id := fun hrole hpart =>
    happend (happend (happend (happend (hfixed _ (by decide)) hrole) (hfixed _ (by decide))) hpart)
      (hfixed _ (by decide))
  have hlast : ∀ {role : List TokenId}, (∀ id ∈ role, Feeds E.tokenizer nVocab id) →
      ∀ id ∈ [T_START_HEADER] ++ role ++ [T_END_HEADER, T_NEWLINES],
        Feeds E.tokenizer nVocab id := fun hrole =>
    happend (happend (hfixed _ (by decide)) hrole) (hfixed _ (by decide))
  unfold Engine.turnIds at h
  split at h
  · obtain ⟨system, hsystem, h⟩ := Option.bind_eq_some_iff.mp h
    obtain ⟨prompt, hprompt, h⟩ := Option.bind_eq_some_iff.mp h
    obtain ⟨user, huser, h⟩ := Option.bind_eq_some_iff.mp h
    obtain ⟨message, hmessage, h⟩ := Option.bind_eq_some_iff.mp h
    obtain ⟨assistant, hassistant, h⟩ := Option.bind_eq_some_iff.mp h
    cases h
    have hsystem := hpart (hencoded hsystem) (hencoded hprompt)
    have huser := hpart (hencoded huser) (hencoded hmessage)
    exact happend (happend (happend (hfixed _ (by decide)) hsystem) huser)
      (hlast (hencoded hassistant))
  · obtain ⟨user, huser, h⟩ := Option.bind_eq_some_iff.mp h
    obtain ⟨message, hmessage, h⟩ := Option.bind_eq_some_iff.mp h
    obtain ⟨assistant, hassistant, h⟩ := Option.bind_eq_some_iff.mp h
    cases h
    exact happend (hpart (hencoded huser) (hencoded hmessage)) (hlast (hencoded hassistant))

/-- A program with a sampler and a token limit. -/
def Started.engine (s : Started X F) (sample : Sampler F) (maxNewTokens : ℕ) :
    Engine X Tensor F where
  ggml := s.ggml
  model := s.model.mappedModel
  tokenizer := s.tokenizer
  sample := sample
  maxNewTokens := maxNewTokens

/-- Within the rows, a turn is the same as on an embedding that has no others. -/
theorem Started.WithinRows.generateTurn_within {s : Started X F} (h : s.WithinRows)
    {sample : Sampler F} {maxNewTokens : ℕ} (draws : (s.engine sample maxNewTokens).Draws)
    {calls : TurnCalls X} {message : String} {turnNumber : ℕ} {g : LlamaGraph X Tensor F}
    (hg : g.hp = s.graph.hp) :
    ((s.engine sample maxNewTokens).within s.embdRows).generateTurn calls message turnNumber g =
      (s.engine sample maxNewTokens).generateTurn calls message turnNumber g := by
  unfold Engine.generateTurn
  split
  · rfl
  have hturn : ((s.engine sample maxNewTokens).within s.embdRows).turnIds message turnNumber =
      (s.engine sample maxNewTokens).turnIds message turnNumber := rfl
  rw [hturn]
  cases hids : (s.engine sample maxNewTokens).turnIds message turnNumber with
  | none => rfl
  | some ids =>
    refine Engine.runGeneration_within draws ?_ ?_
    · rw [hg]
      exact h.sizesAgree.sampled
    · intro id hid
      exact h.ids id (feeds_of_mem_turnIds hids _ id hid)

/-- The sizes agree exactly when nothing is looked up past the last row; entries that spell a
short text have to have a row, and it is enough if all have one, or all that a table leads to.
Then no turn looks up a row that is not there. -/
theorem withinRows_iff (s : Started X F) :
    (s.WithinRows ↔ s.SizesAgree) ∧
    ((s.tokenizer.vocab.length : ℤ) ≤ s.embdRows → s.EntriesWithin) ∧
    ((∀ id, s.tokenizer.InTables id → (id.toNat : ℤ) < s.embdRows) → s.EntriesWithin) ∧
    (∀ text id, s.tokenizer.tokenToId.get (bytesToGpt2Unicode (utf8 text)) = some id →
      bytesToGpt2Unicode (utf8 text) ≠ [] → (bytesToGpt2Unicode (utf8 text)).length ≤ 64 →
      s.embdRows ≤ id.toNat → ¬ s.EntriesWithin) ∧
    (s.SizesAgree → ∀ sample maxNewTokens, (s.engine sample maxNewTokens).Draws →
      ∀ calls message turnNumber g, g.hp = s.graph.hp →
        ((s.engine sample maxNewTokens).within s.embdRows).generateTurn calls message turnNumber g =
          (s.engine sample maxNewTokens).generateTurn calls message turnNumber g) := by
  refine ⟨⟨fun h => h.sizesAgree, fun h => h.withinRows⟩, Started.entriesWithin_of_length_le,
    Started.entriesWithin_of_inTables, fun text id => Started.not_entriesWithin, ?_⟩
  intro hagree sample maxNewTokens draws calls message turnNumber g hg
  exact hagree.withinRows.generateTurn_within draws hg

/-! ## A small vocabulary -/

def smallEmbd : TensorInfo :=
  { name := "token_embd.weight", dims := [32, 1], ggmlType := 0, offset := 0 }

def smallNorm : TensorInfo :=
  { name := "output_norm.weight", dims := [32], ggmlType := 0, offset := 128 }

def smallOutput : TensorInfo :=
  { name := "output.weight", dims := [32, 1], ggmlType := 0, offset := 256 }

theorem stringFits_token : StringFits (countWidth 3) "a" := by
  simp [StringFits, utf8_eq, countWidth]
  decide

/-- One token, and no layers: the sizes in the file are all 1. -/
def smallModel : HeaderLayout where
  version := 3
  metadata := [("tokenizer.ggml.tokens", .array .string (["a"] : List String)),
    ("llama.vocab_size", .single .u32 (1 : UInt32)),
    ("llama.embedding_length", .single .u32 (32 : UInt32)),
    ("llama.attention.head_count", .single .u32 (1 : UInt32))]
  tensors := [smallEmbd, smallNorm, smallOutput]
  keys_nodup := by decide
  metadata_lt := by decide
  tensors_lt := by decide
  keys_fit := by simp [StringFits, utf8_eq, countWidth]; decide
  values_fit := by
    simp only [List.mem_cons, List.not_mem_nil, or_false, forall_eq_or_imp, forall_eq]
    refine ⟨⟨by decide, ?_⟩, trivial, trivial, trivial⟩
    intro v hv
    rw [show v = "a" from List.mem_singleton.mp hv]
    exact stringFits_token
  tensors_fit := by
    simp only [List.mem_cons, List.not_mem_nil, or_false, forall_eq_or_imp, forall_eq]
    refine ⟨TensorInfo.fits_eight ?_ (by decide), TensorInfo.fits_eight ?_ (by decide),
      TensorInfo.fits_eight ?_ (by decide)⟩ <;>
      (simp [StringFits, utf8_eq]; decide)

/-- Arithmetic without values, on the tensors of a file. -/
def tensorGgml : Ggml Unit Tensor Unit :=
  { unitGgml with getRows := fun _ _ => (), mul := fun _ _ => (), mulMat := fun _ _ => () }

def smallHeader : GgufHeader := ⟨3, 3, smallModel.metadataMap, smallModel.tensors, 352⟩

theorem parse_smallModel (data : List UInt8) :
    GgufHeader.parse (fun _ _ => true) (smallModel.encode ++ data) = .ok smallHeader := by
  have halign : alignmentOf smallModel.metadataMap = 32 := by decide +kernel
  have hlen : smallModel.encode.length = 350 := by decide +kernel
  rw [parse_encode (fun _ _ _ => rfl) smallModel (Or.inr rfl), halign, hlen]
  rfl

/-- The file, with two bytes of padding and 384 of tensor data. -/
def smallFile : List UInt8 := smallModel.encode ++ List.replicate 386 0

/-- Its tensors, placed. -/
def smallTensors : Dict String Tensor :=
  ((Dict.empty.insert "token_embd.weight" (newTensor mapAt4096 smallHeader smallEmbd .f32)).insert
    "output_norm.weight" (newTensor mapAt4096 smallHeader smallNorm .f32)).insert
    "output.weight" (newTensor mapAt4096 smallHeader smallOutput .f32)

theorem placeTensors_smallModel :
    placeTensors mapAt4096 736 smallHeader 0 smallHeader.tensors .empty = .ok smallTensors := by
  have hembd : PassesChecks mapAt4096 736 smallHeader 0 smallEmbd .f32 := ⟨rfl, by decide, rfl⟩
  have hnorm : PassesChecks mapAt4096 736 smallHeader 1 smallNorm .f32 := ⟨rfl, by decide, rfl⟩
  have houtput : PassesChecks mapAt4096 736 smallHeader 2 smallOutput .f32 := ⟨rfl, by decide, rfl⟩
  rw [show smallHeader.tensors = [smallEmbd, smallNorm, smallOutput] from rfl,
    placeTensors_cons hembd (by decide), placeTensors_cons hnorm (by decide),
    placeTensors_cons houtput (by decide)]
  rfl

theorem load_smallFile :
    load mapAt4096 (fun _ _ => true) smallFile = .ok ⟨smallHeader, smallTensors⟩ := by
  have hlen : smallFile.length = 736 := by decide +kernel
  have hparse : GgufHeader.parse (fun _ _ => true) smallFile = .ok smallHeader :=
    parse_smallModel _
  have hplace : placeTensors mapAt4096 (UInt64.ofNat 736) smallHeader 0 smallHeader.tensors .empty =
      .ok smallTensors := placeTensors_smallModel
  rw [load, hparse, hlen]
  dsimp only
  rw [hplace]
  rfl

theorem weights_smallModel : ∃ w,
    (LoadedModel.mappedModel ⟨smallHeader, smallTensors⟩).weights 0 = .ok w ∧
      w.tokenEmbd.ne = shapeOf [32, 1] := by
  simp [MappedModel.weights, MappedModel.require, LoadedModel.mappedModel, MappedModel.layersFrom,
    smallTensors, Dict.get_insert]
  rfl

theorem buildTokenizer_smallHeader : ∃ T, buildTokenizer smallHeader = .ok T := by
  obtain ⟨T, hT⟩ := exists_fromGgufParts_eq_ok ["a"] [] [] [] (fun h => absurd rfl h) (by simp)
  refine ⟨T, ?_⟩
  have htokens : extractStringArray smallHeader.metadata "tokenizer.ggml.tokens" = .ok ["a"] := rfl
  have hscores : unwrapOrDefault
      (extractF32Array smallHeader.metadata "tokenizer.ggml.scores") = [] := rfl
  have htypes : unwrapOrDefault
      (extractU32Array smallHeader.metadata "tokenizer.ggml.token_type") = [] := rfl
  have hmerges : unwrapOrDefault
      (extractStringArray smallHeader.metadata "tokenizer.ggml.merges") = [] := rfl
  rw [buildTokenizer, htokens]
  simp only [hscores, hmerges, htypes, hT]

theorem new_smallHeader (G : Ggml X W F) (ofBits : UInt32 → F) : ∃ g,
    LlamaGraph.new true G (.fromModel ofBits smallHeader) = .ok g ∧ g.hp.nLayer = 0 := ⟨_, rfl, rfl⟩

/-- The template feeds ids for which this embedding has no row. -/
theorem not_withinRows : ¬ ∀ (X F : Type) (s : Started X F), s.WithinRows := by
  intro h
  obtain ⟨w, hweights, hshape⟩ := weights_smallModel
  obtain ⟨T, hT⟩ := buildTokenizer_smallHeader
  obtain ⟨g, hnew, hlayers⟩ := new_smallHeader tensorGgml (fun _ => ())
  let s : Started Unit Unit :=
    { serves := fun _ _ => true, calls := mapAt4096, file := smallFile, backend := true
      ggml := tensorGgml, ofBits := fun _ => (), tokenizer := T, graph := g
      model := ⟨smallHeader, smallTensors⟩
      weights := w
      load_eq := load_smallFile
      buildTokenizer_eq := hT
      new_eq := hnew
      weights_eq := by rwa [hlayers] }
  have hfixed : (T_EOT.toNat : ℤ) < w.tokenEmbd.rows :=
    (h Unit Unit s).ids T_EOT (.fixed (by decide))
  rw [Tensor.rows, hshape] at hfixed
  exact absurd hfixed (by decide)

end QuantumFlow
