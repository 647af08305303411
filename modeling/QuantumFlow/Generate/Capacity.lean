import QuantumFlow.Generate.Capture
import QuantumFlow.Graph.AppendOnly

/-!
# Capacity of the cache

The room in the cache is tested in three places: before the prefill of a turn, in the guard of
the decode loop, and in the two requests themselves. The first two leave nothing for the third
to reject.
-/

namespace QuantumFlow

variable {X W F : Type}

/-- The texts of the two requests for a cache without room. -/
def CacheFullMessage (msg : String) : Prop :=
  ∃ a b : ℕ, msg = s!"[Z.1 Graph] KV cache overflow: {a} > {b}" ∨
    msg = s!"[Z.1 Decode] KV cache full ({a}/{b})"

/-- A request was made without room in the cache. -/
def CacheFull {α : Type} (res : Outcome GenerateError α) : Prop :=
  ∃ msg, CacheFullMessage msg ∧ res = .err (.forward (.allocationFailed msg))

/-! ## The other texts -/

/-- The text begins with these characters. -/
def Begins (l : List Char) (msg : String) : Prop := l <+: msg.toList

theorem begins_ofList (l : List Char) : Begins l (String.ofList l) := by
  simp [Begins]

theorem Begins.append {l : List Char} {a : String} (h : Begins l a) (b : String) :
    Begins l (a ++ b) := by
  rw [Begins, String.toList_append]
  exact h.trans (List.prefix_append _ _)

/-- Two beginnings that part within both cannot be of one text. -/
def Parts (l l' : List Char) : Prop := ¬ l <+: l' ∧ ¬ l' <+: l

theorem Begins.not_of_parts {l l' : List Char} {msg : String} (h : Begins l msg)
    (hparts : Parts l l') : ¬ Begins l' msg := fun h' =>
  (List.prefix_or_prefix_of_prefix h h').elim hparts.1 hparts.2

instance (l l' : List Char) : Decidable (Parts l l') := inferInstanceAs (Decidable (_ ∧ _))

def graphFull : List Char := ['[', 'Z', '.', '1', ' ', 'G', 'r', 'a', 'p', 'h', ']', ' ', 'K', 'V']

def decodeFull : List Char :=
  ['[', 'Z', '.', '1', ' ', 'D', 'e', 'c', 'o', 'd', 'e', ']', ' ', 'K', 'V']

theorem CacheFullMessage.begins {msg : String} (h : CacheFullMessage msg) :
    Begins graphFull msg ∨ Begins decodeFull msg := by
  rcases h with ⟨a, b, rfl | rfl⟩
  · refine Or.inl (List.IsPrefix.trans ?_ ((((begins_ofList _).append _).append _).append _))
    decide
  · refine Or.inr (List.IsPrefix.trans ?_
      (((((begins_ofList _).append _).append _).append _).append _))
    decide

theorem not_cacheFullMessage {l : List Char} {msg : String} (h : Begins l msg)
    (hparts : Parts l graphFull ∧ Parts l decodeFull) : ¬ CacheFullMessage msg := fun hfull =>
  hfull.begins.elim (h.not_of_parts hparts.1) (h.not_of_parts hparts.2)

/-- A call fails with no text of a full cache. -/
def Outcome.Avoids {α : Type} (x : Outcome String α) : Prop :=
  ∀ msg, x = .err msg → ¬ CacheFullMessage msg

theorem Outcome.avoids_ok {α : Type} (a : α) : (ok a : Outcome String α).Avoids :=
  fun msg h => by cases h

theorem Outcome.Avoids.bind {α β : Type} {x : Outcome String α} {f : α → Outcome String β}
    (hx : x.Avoids) (hf : ∀ a, (f a).Avoids) : (x >>= f).Avoids := by
  cases x with
  | ok a => exact hf a
  | err e =>
    intro msg h
    cases h
    exact hx e rfl
  | panic => exact fun msg h => by cases h

theorem avoids_ensure {ok : Bool} {msg : String} (h : ok = true ∨ ¬ CacheFullMessage msg) :
    (ensure ok msg).Avoids := by
  intro msg' hmsg
  cases ok with
  | true => cases hmsg
  | false =>
    cases hmsg
    exact h.resolve_left Bool.false_ne_true

namespace MappedModel

variable {model : MappedModel W}

theorem avoids_require {l : List Char} {name : String} (h : Begins l name)
    (hparts : Parts l graphFull ∧ Parts l decodeFull) : (model.require name).Avoids := by
  intro msg hmsg
  unfold require at hmsg
  split at hmsg <;> cases hmsg
  exact not_cacheFullMessage (h.append _) hparts

theorem avoids_requireLayer (layer : ℕ) (name : String) :
    (model.requireLayer layer name).Avoids := by
  intro msg hmsg
  unfold requireLayer at hmsg
  split at hmsg <;> cases hmsg
  exact not_cacheFullMessage
    (((((begins_ofList _).append _).append _).append _).append _) (by decide)

theorem avoids_layerWeights (layer : ℕ) : (model.layerWeights layer).Avoids := by
  unfold layerWeights
  iterate 9
    apply Outcome.Avoids.bind (avoids_requireLayer layer _)
    intro w
  exact Outcome.avoids_ok _

theorem avoids_layersFrom (count layer : ℕ) : (model.layersFrom count layer).Avoids := by
  induction count generalizing layer with
  | zero => exact Outcome.avoids_ok _
  | succ count ih =>
    apply Outcome.Avoids.bind (avoids_layerWeights layer)
    intro w
    apply Outcome.Avoids.bind (ih (layer + 1))
    exact fun ws => Outcome.avoids_ok _

end MappedModel

namespace LlamaGraph

variable {G : Ggml X W F} {calls : GgmlCalls X} {model : MappedModel W} {g g' : LlamaGraph X W F}

theorem avoids_forwardGraph {n : ℕ} (hfits : g.kv.head + n ≤ g.kv.nCtx) :
    (forwardGraph calls model g n).Avoids := by
  unfold forwardGraph
  refine .bind (avoids_ensure (.inr ?_)) fun _ => .bind (avoids_ensure (.inr ?_)) fun _ =>
    .bind (avoids_ensure (.inr ?_)) fun _ =>
    .bind (MappedModel.avoids_require (begins_ofList _) (by decide)) fun embd =>
    .bind (avoids_ensure (.inl (decide_eq_true hfits))) fun _ =>
    .bind (MappedModel.avoids_layersFrom _ 0) fun layers =>
    .bind (MappedModel.avoids_require (begins_ofList _) (by decide)) fun norm =>
    .bind (MappedModel.avoids_require (begins_ofList _) (by decide)) fun output =>
    .bind (avoids_ensure (.inr ?_)) fun _ => .bind (avoids_ensure (.inr ?_)) fun _ =>
    Outcome.avoids_ok _
  all_goals exact not_cacheFullMessage (begins_ofList _) (by decide)

theorem avoids_buildDecodeGraph : (buildDecodeGraph calls model g).Avoids := by
  unfold buildDecodeGraph
  refine .bind (avoids_ensure (.inr ?_)) fun _ => .bind (avoids_ensure (.inr ?_)) fun _ =>
    .bind (avoids_ensure (.inr ?_)) fun _ =>
    .bind (MappedModel.avoids_require (begins_ofList _) (by decide)) fun embd =>
    .bind (MappedModel.avoids_layersFrom _ 0) fun layers =>
    .bind (MappedModel.avoids_require (begins_ofList _) (by decide)) fun norm =>
    .bind (MappedModel.avoids_require (begins_ofList _) (by decide)) fun output =>
    .bind (avoids_ensure (.inr ?_)) fun _ => .bind (avoids_ensure (.inr ?_)) fun _ =>
    Outcome.avoids_ok _
  all_goals exact not_cacheFullMessage (begins_ofList _) (by decide)

theorem avoids_forward {tokens : List TokenId} (pos : ℤ)
    (hfits : g.kv.head + tokens.length ≤ g.kv.nCtx) :
    (g.forward G calls model tokens pos).1.Avoids := by
  intro msg hmsg
  unfold forward at hmsg
  split at hmsg
  · rename_i hgraph
    cases hmsg
    exact avoids_forwardGraph hfits _ hgraph
  · cases hmsg
  · dsimp only at hmsg
    split at hmsg
    · cases hmsg
      exact not_cacheFullMessage ((begins_ofList _).append _) (by decide)
    · split at hmsg <;> cases hmsg

theorem avoids_executeDecode (token : TokenId) (hfits : g.kv.head < g.kv.nCtx) :
    (g.executeDecode G calls model token).1.Avoids := by
  intro msg hmsg
  unfold executeDecode at hmsg
  dsimp only at hmsg
  split at hmsg
  · rename_i hbuilt
    cases hmsg
    split at hbuilt
    · cases hbuilt
    · exact avoids_buildDecodeGraph _ hbuilt
  · cases hmsg
  · split at hmsg
    · rename_i hfull
      exact absurd hfull (Nat.not_le.mpr hfits)
    split at hmsg <;> cases hmsg
    exact not_cacheFullMessage ((begins_ofList _).append _) (by decide)

theorem not_cacheFull_of_mapErr {α : Type} {res : Outcome String (List F)} (h : res.Avoids)
    {e : ForwardError} (he : mapErr res = .err e) :
    ¬ CacheFull (.err (.forward e) : Outcome GenerateError α) := by
  rintro ⟨msg, hfull, hmsg⟩
  cases hmsg
  cases res <;> cases he
  exact h msg rfl hfull

/-- A batch that fits is not rejected for lack of room. -/
theorem not_cacheFull_of_prefill {α : Type} {tokens : List TokenId} {e : ForwardError}
    (hfits : g.kv.head + tokens.length ≤ g.kv.nCtx)
    (h : g.prefill G calls model tokens = (.err e, g')) :
    ¬ CacheFull (.err (.forward e) : Outcome GenerateError α) := by
  rcases prefill_cases h with ⟨-, -, hres⟩ | ⟨-, res, hforward, hres⟩
  · cases hres
    rintro ⟨msg, hfull, hmsg⟩
    cases hmsg
    exact not_cacheFullMessage (begins_ofList _) (by decide) hfull
  · have havoids : (g.forward G calls model tokens 0).1.Avoids := avoids_forward 0 hfits
    rw [hforward] at havoids
    exact not_cacheFull_of_mapErr havoids hres.symm

/-- A token that fits is not rejected for lack of room. -/
theorem not_cacheFull_of_decodeOne {α : Type} {token : TokenId} {e : ForwardError}
    (hfits : g.kv.head < g.kv.nCtx) (h : g.decodeOne G calls model token = (.err e, g')) :
    ¬ CacheFull (.err (.forward e) : Outcome GenerateError α) := by
  obtain ⟨res, hdecode, hres⟩ := decodeOne_cases h
  have havoids : (g.executeDecode G calls model token).1.Avoids :=
    avoids_executeDecode token hfits
  rw [hdecode] at havoids
  exact not_cacheFull_of_mapErr havoids hres.symm

end LlamaGraph

namespace Engine

variable {E : Engine X W F} {quiet : Bool} {calls : TurnCalls X}

theorem not_cacheFull_ok {α : Type} (a : α) : ¬ CacheFull (.ok a) := by
  rintro ⟨msg, -, hmsg⟩
  cases hmsg

theorem not_cacheFull_panic {α : Type} : ¬ CacheFull (.panic : Outcome GenerateError α) := by
  rintro ⟨msg, -, hmsg⟩
  cases hmsg

theorem not_cacheFull_err {α : Type} {e : GenerateError} (h : ∀ e', e ≠ .forward e') :
    ¬ CacheFull (.err e : Outcome GenerateError α) := by
  rintro ⟨msg, -, hmsg⟩
  cases hmsg
  exact h _ rfl

theorem not_cacheFull_emit (generated : ℕ) (token : TokenId) (out : Output) :
    ¬ CacheFull (E.emit quiet calls generated token out) := by
  unfold emit
  split
  · exact not_cacheFull_ok out
  · split
    · exact not_cacheFull_ok _
    · split
      · exact not_cacheFull_err fun e' h => by cases h
      · exact not_cacheFull_ok _

/-- How the decode loop counts: `reply` grows with the head, by at most `left` tokens. -/
structure LoopFits (left : ℕ) (reply : List TokenId) (g g' : LlamaGraph X W F)
    (res : Outcome GenerateError (List TokenId × TokenId × Output)) : Prop where
  cacheFull : ¬ CacheFull res
  nCtx : g'.kv.nCtx = g.kv.nCtx
  head : g'.kv.head ≤ g.kv.nCtx
  reply : ∀ out, res = .ok out → out.1.length ≤ reply.length + left ∧
    g'.kv.head + reply.length = g.kv.head + out.1.length

theorem LoopFits.stop {left : ℕ} {reply : List TokenId} {g : LlamaGraph X W F}
    (hg : g.kv.head ≤ g.kv.nCtx) (nextToken : TokenId) (out : Output) :
    LoopFits left reply g g (.ok (reply, nextToken, out)) where
  cacheFull := not_cacheFull_ok _
  nCtx := rfl
  head := hg
  reply out' h := by
    cases h
    exact ⟨Nat.le_add_right _ _, rfl⟩

theorem LoopFits.fail {left : ℕ} {reply : List TokenId} {g g' : LlamaGraph X W F}
    {res : Outcome GenerateError (List TokenId × TokenId × Output)} (hres : ∀ out, res ≠ .ok out)
    (hfull : ¬ CacheFull res) (hctx : g'.kv.nCtx = g.kv.nCtx) (hhead : g'.kv.head ≤ g.kv.nCtx) :
    LoopFits left reply g g' res where
  cacheFull := hfull
  nCtx := hctx
  head := hhead
  reply out h := absurd h (hres out)

/-- The guard of the loop leaves room for the token it decodes. -/
theorem loopFits_decodeLoopInner {left : ℕ} {reply recent : List TokenId} {out : Output}
    {nextToken : TokenId} {rng : UInt64} {g g' : LlamaGraph X W F}
    {res : Outcome GenerateError (List TokenId × TokenId × Output)} (hg : g.kv.head ≤ g.kv.nCtx)
    (h : E.decodeLoopInner quiet calls left reply out nextToken recent rng g = (res, g')) :
    LoopFits left reply g g' res := by
  induction left generalizing reply out nextToken recent rng g with
  | zero =>
    unfold decodeLoopInner at h
    split at h <;> cases h <;> exact .stop hg nextToken out
  | succ left ih =>
    unfold decodeLoopInner at h
    split at h
    · cases h
      exact .stop hg nextToken out
    dsimp only at h
    split at h
    · cases h
      exact .stop hg nextToken out
    rename_i hroom
    have hlt := Nat.not_le.mp hroom
    split at h
    · rename_i e hemit
      cases h
      have hfull : ¬ CacheFull
          (.err e : Outcome GenerateError (List TokenId × TokenId × Output)) := by
        rintro ⟨msg, hmsg, hfull⟩
        cases hfull
        exact not_cacheFull_emit _ _ _ ⟨msg, hmsg, hemit⟩
      exact .fail (fun _ hok => by cases hok) hfull rfl hg
    · cases h
      exact .fail (fun _ hok => by cases hok) not_cacheFull_panic rfl hg
    split at h
    · rename_i e g₁ hdecode
      cases h
      have hkv := (LlamaGraph.decodeOne_eq_err hdecode).2
      exact .fail (fun _ hok => by cases hok)
        (LlamaGraph.not_cacheFull_of_decodeOne hlt hdecode) (by rw [hkv]) (by rw [hkv]; exact hg)
    · rename_i g₁ hdecode
      exact absurd (congrArg Prod.fst hdecode) (LlamaGraph.decodeOne_ne_panic nextToken)
    · rename_i logits g₁ hdecode
      obtain ⟨-, -, hctx, hhead, -⟩ := LlamaGraph.decodeOne_eq_ok hdecode
      split at h
      · cases h
        exact .fail (fun _ hok => by cases hok) (not_cacheFull_err fun e' he => by cases he)
          hctx (by omega)
      · cases h
        exact .fail (fun _ hok => by cases hok) not_cacheFull_panic hctx (by omega)
      · obtain ⟨hfull, hctx', hhead', hreply⟩ := ih (by omega) h
        refine ⟨hfull, hctx'.trans hctx, by omega, fun out' hout => ?_⟩
        have hcount := hreply out' hout
        rw [List.length_append, List.length_singleton] at hcount
        omega

/-- The same for a whole turn. -/
theorem runGenerationInner_fits {turnIds : List TokenId} {g g' : LlamaGraph X W F}
    {res : Outcome GenerateError (GenerateStats × Output)}
    (h : E.runGenerationInner quiet calls turnIds g = (res, g')) :
    ¬ CacheFull res ∧ ∀ out, res = .ok out → out.1.generatedTokens ≤ E.maxNewTokens ∧
      g'.kv.head = g.kv.head + turnIds.length + out.1.generatedTokens ∧
      g'.kv.head ≤ g.kv.nCtx := by
  unfold runGenerationInner at h
  split at h
  · cases h
    exact ⟨not_cacheFull_err fun e' he => (by cases he), fun out hout => by cases hout⟩
  split at h
  · cases h
    exact ⟨not_cacheFull_err fun e' he => (by cases he), fun out hout => by cases hout⟩
  rename_i hroom
  split at h
  · rename_i hprefill
    cases h
    exact ⟨LlamaGraph.not_cacheFull_of_prefill (Nat.not_lt.mp hroom) hprefill,
      fun out hout => by cases hout⟩
  · cases h
    exact ⟨not_cacheFull_panic, fun out hout => by cases hout⟩
  rename_i logits g₁ hprefill
  obtain ⟨-, hfits, -, hctx, hhead, -⟩ := LlamaGraph.prefill_eq_ok hprefill
  split at h
  · cases h
    exact ⟨not_cacheFull_err fun e' he => (by cases he), fun out hout => by cases hout⟩
  · cases h
    exact ⟨not_cacheFull_panic, fun out hout => by cases hout⟩
  split at h
  · rename_i e g₂ hloop
    cases h
    have hfull := (loopFits_decodeLoopInner (by omega) hloop).cacheFull
    refine ⟨?_, fun out hout => by cases hout⟩
    rintro ⟨msg, hmsg, herr⟩
    cases herr
    exact hfull ⟨msg, hmsg, rfl⟩
  · cases h
    exact ⟨not_cacheFull_panic, fun out hout => by cases hout⟩
  · rename_i reply endToken text g₂ hloop
    cases h
    obtain ⟨-, hctx', hhead', hreply⟩ := loopFits_decodeLoopInner (by omega) hloop
    refine ⟨not_cacheFull_ok _, fun out hout => ?_⟩
    cases hout
    have hcount := hreply _ rfl
    simp only [List.length_nil] at hcount
    dsimp only
    omega

end Engine

/-- Generation never makes a request without room, from any state of the cache; when it returns,
the cache has grown by the turn and the generated tokens, within the limits. -/
theorem generation_within_capacity (E : Engine X W F) (quiet : Bool) (calls : TurnCalls X)
    (turnIds : List TokenId) (g : LlamaGraph X W F) :
    ¬ CacheFull (E.runGenerationInner quiet calls turnIds g).1 ∧
      ∀ stats out g', E.runGenerationInner quiet calls turnIds g = (.ok (stats, out), g') →
        stats.generatedTokens ≤ E.maxNewTokens ∧
          g'.kv.head = g.kv.head + turnIds.length + stats.generatedTokens ∧
          g'.kv.head ≤ g.kv.nCtx :=
  ⟨(Engine.runGenerationInner_fits rfl).1,
    fun stats out _ h => (Engine.runGenerationInner_fits h).2 (stats, out) rfl⟩

end QuantumFlow
