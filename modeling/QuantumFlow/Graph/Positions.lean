import Mathlib.Data.List.Induction
import QuantumFlow.Graph.WrittenRows

/-!
# Positions of the cached rows

A run is a sequence of successful requests. Decode feeds the head as position, so it keeps the
position of every cached row equal to the row. Prefill feeds positions from 0, so it keeps them
exactly when it starts on an empty cache. The positions recorded are those with which the rows
are computed.
-/

namespace QuantumFlow

variable {X W F : Type}

/-- A request, with how its ggml calls end. -/
inductive Request (X : Type) where
  | prefill (calls : GgmlCalls X) (tokens : List TokenId)
  | decodeOne (calls : GgmlCalls X) (token : TokenId)
  | resetKv

/-- The state of a request that returned. -/
def succeeded {ε α σ : Type} : Outcome ε α × σ → Option σ
  | (.ok _, s) => some s
  | (.err _, _) => none
  | (.panic, _) => none

theorem succeeded_eq_some {ε α σ : Type} {r : Outcome ε α × σ} {s : σ}
    (h : succeeded r = some s) : ∃ a, r = (.ok a, s) := by
  obtain ⟨res, s'⟩ := r
  cases res <;> cases h
  exact ⟨_, rfl⟩

/-- The state that a request leaves, if it succeeds. -/
def Request.run (G : Ggml X W F) (model : MappedModel W) :
    Request X → LlamaGraph X W F → Option (LlamaGraph X W F)
  | prefill calls tokens, g => succeeded (g.prefill G calls model tokens)
  | decodeOne calls token, g => succeeded (g.decodeOne G calls model token)
  | resetKv, g => some g.resetKv

def runAll (G : Ggml X W F) (model : MappedModel W) (reqs : List (Request X))
    (g : LlamaGraph X W F) : Option (LlamaGraph X W F) :=
  reqs.foldlM (fun g req => req.run G model g) g

/-- Every cached row was fed with its own index as position. -/
def PositionLaw (g : LlamaGraph X W F) : Prop :=
  ∀ r < g.kv.head, ∃ tok, g.kv.fed r = some (tok, (r : ℤ))

section Run

variable {G : Ggml X W F} {model : MappedModel W}

theorem runAll_append {pre post : List (Request X)} {g g' : LlamaGraph X W F} :
    runAll G model (pre ++ post) g = some g' ↔
      ∃ g₁, runAll G model pre g = some g₁ ∧ runAll G model post g₁ = some g' := by
  rw [runAll, List.foldlM_append]
  exact Option.bind_eq_some_iff

theorem runAll_singleton (req : Request X) (g : LlamaGraph X W F) :
    runAll G model [req] g = req.run G model g := by
  cases h : req.run G model g <;> simp [runAll, h]

/-- What each request does to the head and to the rows before it. -/
theorem run_cases {req : Request X} {g g' : LlamaGraph X W F} (h : req.run G model g = some g') :
    (∃ calls tokens, req = .prefill calls tokens ∧ tokens ≠ [] ∧
      g'.kv.head = g.kv.head + tokens.length ∧
      ∀ r, g'.kv.fed r = if g.kv.head ≤ r ∧ r < g.kv.head + tokens.length then
        (tokens[r - g.kv.head]?).map fun tok => (tok, ((r - g.kv.head : ℕ) : ℤ))
        else g.kv.fed r) ∨
    (∃ calls token, req = .decodeOne calls token ∧ g'.kv.head = g.kv.head + 1 ∧
      g'.kv.fed = Function.update g.kv.fed g.kv.head (some (token, (g.kv.head : ℤ)))) ∨
    (req = .resetKv ∧ g'.kv.head = 0) := by
  cases req with
  | prefill calls tokens =>
    obtain ⟨logits, hres⟩ := succeeded_eq_some h
    obtain ⟨hne, -, -, -, hhead, hfed⟩ := LlamaGraph.prefill_eq_ok hres
    exact Or.inl ⟨calls, tokens, rfl, hne, hhead, hfed⟩
  | decodeOne calls token =>
    obtain ⟨logits, hres⟩ := succeeded_eq_some h
    obtain ⟨-, -, -, hhead, hfed⟩ := LlamaGraph.decodeOne_eq_ok hres
    exact Or.inr (Or.inl ⟨calls, token, rfl, hhead, hfed⟩)
  | resetKv =>
    cases h
    exact Or.inr (Or.inr ⟨rfl, rfl⟩)

/-- One request keeps the law exactly when it is no prefill behind cached rows. -/
theorem positionLaw_run_iff {req : Request X} {g g' : LlamaGraph X W F} (hlaw : PositionLaw g)
    (h : req.run G model g = some g') :
    PositionLaw g' ↔ ∀ calls tokens, req = .prefill calls tokens → g.kv.head = 0 := by
  rcases run_cases h with ⟨calls, tokens, rfl, hne, hhead, hfed⟩ |
      ⟨calls, token, rfl, hhead, hfed⟩ | ⟨rfl, hhead⟩
  · have hpos : 0 < tokens.length := List.length_pos_iff.mpr hne
    constructor
    · intro hlaw' _ _ _
      obtain ⟨tok, htok⟩ := hlaw' g.kv.head (by omega)
      rw [hfed, if_pos (by omega), Nat.sub_self] at htok
      obtain ⟨tok', -, hpair⟩ := Option.map_eq_some_iff.mp htok
      have hzero := congrArg Prod.snd hpair
      simp only at hzero
      omega
    · intro hempty r hr
      have hzero := hempty calls tokens rfl
      rw [hfed, hzero, if_pos (by omega), Nat.sub_zero,
        List.getElem?_eq_getElem (by omega : r < tokens.length)]
      exact ⟨_, rfl⟩
  · refine iff_of_true ?_ (fun _ _ hreq => by cases hreq)
    intro r hr
    rw [hfed, Function.update_apply]
    split
    · rename_i hrow
      exact ⟨token, by rw [hrow]⟩
    · exact hlaw r (by omega)
  · refine iff_of_true ?_ (fun _ _ hreq => by cases hreq)
    intro r hr
    omega

/-- A request that returns behind rows that are fed leaves such rows. -/
theorem rowsFed_run {req : Request X} {g g' : LlamaGraph X W F}
    (hg : g.Coherent model ∧ RowsFed G model g) (h : req.run G model g = some g') :
    g'.Coherent model ∧ RowsFed G model g' := by
  obtain ⟨hcoherent, hrows⟩ := hg
  cases req with
  | prefill calls tokens =>
    obtain ⟨logits, hres⟩ := succeeded_eq_some h
    obtain ⟨-, -, -, -, hhead, hfed⟩ := LlamaGraph.prefill_eq_ok hres
    obtain ⟨w, hw, -, rfl⟩ := LlamaGraph.prefill_returns hres
    refine ⟨hcoherent, fun w' hw' r hr => ?_⟩
    obtain rfl : w = w' := Outcome.ok.inj (hw.symm.trans hw')
    rw [hfed]
    by_cases hold : r < g.kv.head
    · rw [if_neg (by omega)]
      obtain ⟨tok, pos, hrec, hrow⟩ := hrows w hw r hold
      exact ⟨tok, pos, hrec, hrow.congr fun layer =>
        LlamaGraph.sameOutside_batchCache w g.kv g.hp tokens 0 layer r (Or.inl hold)⟩
    · obtain ⟨i, rfl⟩ := Nat.exists_eq_add_of_le (Nat.not_lt.mp hold)
      have hi : i < tokens.length := by omega
      rw [if_pos (by omega), Nat.add_sub_cancel_left, List.getElem?_eq_getElem hi]
      have hrow := LlamaGraph.rowOf_batchCache (G := G) w g.kv g.hp tokens 0 hi
      rw [Int.zero_add] at hrow
      exact ⟨tokens[i], i, rfl, hrow⟩
  | decodeOne calls token =>
    obtain ⟨logits, hres⟩ := succeeded_eq_some h
    obtain ⟨-, -, -, hhead, hfed⟩ := LlamaGraph.decodeOne_eq_ok hres
    obtain ⟨w, hw, -, rfl⟩ := LlamaGraph.decodeOne_returns hcoherent hres
    refine ⟨LlamaGraph.coherent_of_dGraph_eq hw _, fun w' hw' r hr => ?_⟩
    obtain rfl : w = w' := Outcome.ok.inj (hw.symm.trans hw')
    rw [hfed, Function.update_apply]
    split
    · rename_i hrow
      rw [hrow]
      exact ⟨token, g.kv.head, rfl, LlamaGraph.rowOf_tokenCache w g.kv g.hp token⟩
    · rename_i hne
      obtain ⟨tok, pos, hrec, hrow⟩ := hrows w hw r (by omega)
      refine ⟨tok, pos, hrec, hrow.congr fun layer => ?_⟩
      exact LlamaGraph.sameOutside_tokenCache w g.kv g.hp token layer r (by omega)
  | resetKv =>
    cases h
    exact ⟨hcoherent, fun _ _ r hr => absurd hr (Nat.not_lt_zero r)⟩

/-- In every state that a run from a new graph reaches, the rows are fed. -/
theorem rowsFed_runAll {backend : Bool} {hp : LlamaHparams F} {reqs : List (Request X)}
    {g₀ g : LlamaGraph X W F} (hnew : LlamaGraph.new backend G hp = .ok g₀)
    (hrun : runAll G model reqs g₀ = some g) : g.Coherent model ∧ RowsFed G model g := by
  induction reqs using List.reverseRecOn generalizing g with
  | nil =>
    cases hrun
    refine ⟨(LlamaGraph.coherent_of_new hnew).1, fun _ _ r hr => ?_⟩
    rw [LlamaGraph.head_of_new hnew] at hr
    exact absurd hr (Nat.not_lt_zero r)
  | append_singleton pre req ih =>
    obtain ⟨g₁, hg₁, hstep⟩ := runAll_append.mp hrun
    rw [runAll_singleton] at hstep
    exact rowsFed_run (ih hg₁) hstep

end Run

/-- In every state that a run from a new graph reaches, the recorded positions are those with
which the rows were computed; and the law holds in all of these states exactly when every prefill
of the run is issued on an empty cache. -/
theorem positionLaw_iff {G : Ggml X W F} {model : MappedModel W} {backend : Bool}
    {hp : LlamaHparams F} {reqs : List (Request X)} {g₀ g : LlamaGraph X W F}
    (hnew : LlamaGraph.new backend G hp = .ok g₀) (hrun : runAll G model reqs g₀ = some g) :
    (∀ pre g', pre <+: reqs → runAll G model pre g₀ = some g' → RowsFed G model g') ∧
    ((∀ pre g', pre <+: reqs → runAll G model pre g₀ = some g' → PositionLaw g') ↔
      ∀ pre calls tokens g', pre ++ [.prefill calls tokens] <+: reqs →
        runAll G model pre g₀ = some g' → g'.kv.head = 0) := by
  refine ⟨fun pre g' _ hpre => (rowsFed_runAll hnew hpre).2, ?_⟩
  constructor
  · rintro hlaw pre calls tokens g' ⟨post, rfl⟩ hpre
    obtain ⟨g₂, hg₂, -⟩ := runAll_append.mp hrun
    have hlaw' := hlaw pre g' ⟨[.prefill calls tokens] ++ post, by simp⟩ hpre
    obtain ⟨g₁, hg₁, hstep⟩ := runAll_append.mp hg₂
    rw [hpre] at hg₁
    cases hg₁
    rw [runAll_singleton] at hstep
    have hreq : (Request.prefill calls tokens).run G model g' = some g₂ := hstep
    have hlaw₂ := hlaw _ g₂ ⟨post, rfl⟩ hg₂
    exact (positionLaw_run_iff hlaw' hreq).mp hlaw₂ calls tokens rfl
  · intro hempty pre
    induction pre using List.reverseRecOn with
    | nil =>
      intro g' _ hpre
      cases hpre
      intro r hr
      rw [LlamaGraph.head_of_new hnew] at hr
      exact absurd hr (Nat.not_lt_zero r)
    | append_singleton pre req ih =>
      intro g' hpart hpre
      obtain ⟨g₁, hg₁, hstep⟩ := runAll_append.mp hpre
      rw [runAll_singleton] at hstep
      have hlaw := ih g₁ (List.IsPrefix.trans (List.prefix_append _ _) hpart) hg₁
      refine (positionLaw_run_iff hlaw hstep).mpr ?_
      rintro calls tokens rfl
      exact hempty pre calls tokens g₁ hpart hg₁

/-! ## Two prompts in a row -/

/-- Arithmetic without values. -/
def unitGgml : Ggml Unit Unit Unit where
  zero := ()
  getRows _ _ := ()
  rmsNorm _ _ := ()
  mul _ _ := ()
  mulMat _ _ := ()
  ropeExt _ _ _ _ := ()
  attend _ _ _ := ()
  add _ _ := ()
  silu _ := ()
  mulRows _ _ := ()
  tensorGet _ _ := []

/-- One layer with one head. -/
def unitHparams : LlamaHparams Unit where
  nVocab := 1
  nEmbd := 1
  nHead := 1
  nLayer := 1
  nRot := 1
  freqBase := ()
  rmsNormEps := ()

theorem positionLaw_iff_prompt :
    ∃ g₀ g, LlamaGraph.new true unitGgml unitHparams = .ok g₀ ∧
      runAll unitGgml (.const ())
        [.prefill (.succeed unitGgml) [5, 6], .decodeOne (.succeed unitGgml) 7] g₀ = some g ∧
      (∀ pre g', pre <+: [.prefill (.succeed unitGgml) [5, 6], .decodeOne (.succeed unitGgml) 7] →
        runAll unitGgml (.const ()) pre g₀ = some g' → RowsFed unitGgml (.const ()) g') ∧
      ((∀ pre g', pre <+: [.prefill (.succeed unitGgml) [5, 6], .decodeOne (.succeed unitGgml) 7] →
          runAll unitGgml (.const ()) pre g₀ = some g' → PositionLaw g') ↔
        ∀ pre calls tokens g', pre ++ [.prefill calls tokens] <+:
            [.prefill (.succeed unitGgml) [5, 6], .decodeOne (.succeed unitGgml) 7] →
          runAll unitGgml (.const ()) pre g₀ = some g' → g'.kv.head = 0) := by
  have hnew : LlamaGraph.new true unitGgml unitHparams = .ok _ := rfl
  exact ⟨_, _, rfl, rfl, positionLaw_iff hnew rfl⟩

/-- The row of a second prompt is rotated with position 0. -/
theorem not_positionLaw :
    ¬ ∀ (X W F : Type) (G : Ggml X W F) (model : MappedModel W) (backend : Bool)
      (hp : LlamaHparams F) (reqs : List (Request X)) (g₀ g : LlamaGraph X W F),
      LlamaGraph.new backend G hp = .ok g₀ → runAll G model reqs g₀ = some g → PositionLaw g := by
  intro h
  obtain ⟨tok, htok⟩ := h Unit Unit Unit unitGgml (.const ()) true unitHparams
    [.prefill (.succeed unitGgml) [5], .prefill (.succeed unitGgml) [6]] _ _ rfl rfl 1 (by decide)
  have hfed : (some (6, 0) : Option (TokenId × ℤ)) = some (tok, 1) := htok
  cases hfed

end QuantumFlow
