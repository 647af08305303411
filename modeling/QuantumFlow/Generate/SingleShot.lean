import QuantumFlow.Generate.Isolation

/-!
# Single-shot generation and the benchmark

`generate` resets the cache before its prompt and, when it succeeds, after its reply; the benchmark
does the same between its runs. Each call therefore ends as it would in a program that was just
started, whatever was requested before it, and whether earlier calls failed.
-/

namespace QuantumFlow

variable {X W F : Type}

/-- What `generate` reads of its configuration beyond the engine. -/
structure GenerateConfig where
  contextLen : ℕ := 4096
  addBos : Bool := true
  chatTemplate : Bool := true

/-- The errors of single-shot generation: it has one more. -/
inductive SingleShotError where
  | turn (e : GenerateError)
  | contextLengthExceeded (max : ℕ)

/-- What the benchmark reports: a regression run that failed or did not name Paris, or the results
of the speed runs. -/
inductive BenchReport where
  | failed (e : GenerateError)
  | regressed (text : String)
  | measured (runs : List (Outcome GenerateError (GenerateStats × Output)))

def REGRESSION_PROMPT : String := "The capital of France is"

def SPEED_PROMPT : String := "Explain transformer attention in one paragraph."

def SPEED_RUNS : ℕ := 3

def toAsciiLowercase (c : Char) : Char :=
  if 'A' ≤ c ∧ c ≤ 'Z' then Char.ofNat (c.toNat + 32) else c

def containsParis (text : String) : Bool :=
  (text.toList.map toAsciiLowercase).tails.any ("paris".toList.isPrefixOf ·)

namespace Engine

section SingleShot

variable (E : Engine X W F) (calls : TurnCalls X) (cfg : GenerateConfig)

def promptIds (prompt : String) : Option (List TokenId) :=
  if cfg.chatTemplate then buildChatTokens prompt E.tokenizer
  else E.tokenizer.encode prompt cfg.addBos

/-- The second reset is left out by a generation that fails. -/
def generate (prompt : String) (g : LlamaGraph X W F) :
    Outcome SingleShotError GenerateStats × LlamaGraph X W F :=
  if trim prompt = "" then (.err (.turn .emptyPrompt), g)
  else
    let g := g.resetKv
    match E.promptIds cfg prompt with
    | none => (.panic, g)
    | some ids =>
      if ids = [] then (.err (.turn .emptyPrompt), g)
      else if cfg.contextLen ≤ ids.length then
        (.err (.contextLengthExceeded cfg.contextLen), g)
      else
        match E.runGeneration calls ids g with
        | (.err e, g) => (.err (.turn e), g)
        | (.panic, g) => (.panic, g)
        | (.ok stats, g) => (.ok stats, g.resetKv)

end SingleShot

section Bench

variable (E : Engine X W F) (cfg : GenerateConfig)

/-- The engine of the speed runs. -/
def speedEngine : Engine X W F := { E with maxNewTokens := 32 }

/-- The engine of the regression run, which samples at a low temperature. -/
def regressionEngine (sample : Sampler F) : Engine X W F :=
  { E with maxNewTokens := 5, sample }

/-- One speed run; the cache is reset before it. -/
def speedRun (calls : TurnCalls X) (g : LlamaGraph X W F) :
    Outcome GenerateError (GenerateStats × Output) × LlamaGraph X W F :=
  match E.tokenizer.encode SPEED_PROMPT cfg.addBos with
  | none => (.panic, g.resetKv)
  | some ids => E.speedEngine.runGenerationCaptured calls ids g.resetKv

/-- The speed runs, of which a failed one does not end the benchmark. -/
def speedRuns : List (TurnCalls X) → LlamaGraph X W F →
    Option (List (Outcome GenerateError (GenerateStats × Output))) × LlamaGraph X W F
  | [], g => (some [], g)
  | calls :: rest, g =>
    match E.speedRun cfg calls g with
    | (.panic, g) => (none, g)
    | (.err e, g) =>
      match speedRuns rest g with
      | (none, g) => (none, g)
      | (some runs, g) => (some (.err e :: runs), g)
    | (.ok r, g) =>
      match speedRuns rest g with
      | (none, g) => (none, g)
      | (some runs, g) => (some (.ok r :: runs), g)

/-- The benchmark, with the calls of the regression run and of the speed runs; `none` when it
aborts. -/
def runBench (sample : Sampler F) (regressionCalls : TurnCalls X)
    (speedCalls : ℕ → TurnCalls X) (g : LlamaGraph X W F) :
    Option BenchReport × LlamaGraph X W F :=
  match buildChatTokens REGRESSION_PROMPT E.tokenizer with
  | none => (none, g.resetKv)
  | some ids =>
    match (E.regressionEngine sample).runGenerationCaptured regressionCalls ids g.resetKv with
    | (.panic, g) => (none, g)
    | (.err e, g) => (some (.failed e), g)
    | (.ok (_, out), g) =>
      if containsParis out.text then
        match E.speedRuns cfg ((List.range SPEED_RUNS).map speedCalls) g.resetKv with
        | (none, g) => (none, g)
        | (some runs, g) => (some (.measured runs), g.resetKv)
      else (some (.regressed out.text), g)

end Bench

/-! ## Generations one after the other -/

/-- How a sequence of generations ends; an abort ends it. -/
def generations (E : Engine X W F) (cfg : GenerateConfig) :
    List (TurnCalls X × String) → LlamaGraph X W F → List (Outcome SingleShotError GenerateStats)
  | [], _ => []
  | (calls, prompt) :: shots, g =>
    match E.generate calls cfg prompt g with
    | (.panic, _) => [.panic]
    | (.ok stats, g) => .ok stats :: generations E cfg shots g
    | (.err e, g) => .err e :: generations E cfg shots g

/-- The results up to an abort. -/
def untilPanic {ε α : Type} : List (Outcome ε α) → List (Outcome ε α)
  | [] => []
  | .panic :: _ => [.panic]
  | .ok a :: rs => .ok a :: untilPanic rs
  | .err e :: rs => .err e :: untilPanic rs

variable {E : Engine X W F} {calls : TurnCalls X} {cfg : GenerateConfig} {backend : Bool}
  {hp : LlamaHparams F} {B : Prop} {g₀ g g₁ g₂ : LlamaGraph X W F}

theorem Served.alike_resets (h : Served E g₀ g) (hnew : LlamaGraph.new backend E.ggml hp = .ok g₀) :
    Alike E.model True g₀.resetKv g.resetKv := (h.alike_resetKv hnew).resetKv

theorem served_resetKv (g : LlamaGraph X W F) : Served E g g.resetKv := .single .resetKv g

theorem served_runGeneration (ids : List TokenId) (g : LlamaGraph X W F) :
    Served E g (E.runGeneration calls ids g).2 := by
  rw [runGeneration_eq_dropText, snd_dropText]
  exact served_runGenerationInner false ids g

/-- Graphs that agree once they are reset end a generation alike. -/
theorem generate_alike (hB : B → calls.Builds) (h : Alike E.model B g₁.resetKv g₂.resetKv)
    (prompt : String) :
    (E.generate calls cfg prompt g₂).1 = (E.generate calls cfg prompt g₁).1 := by
  unfold generate
  split
  · rfl
  dsimp only
  cases E.promptIds cfg prompt with
  | none => rfl
  | some ids =>
    dsimp only
    split
    · rfl
    split
    · rfl
    obtain ⟨res, g₁', g₂', hr₁, hr₂, -⟩ := (runGeneration_alike hB ids h).exists_eq
    rw [hr₁, hr₂]
    cases res <;> rfl

theorem served_generate (prompt : String) (g : LlamaGraph X W F) :
    Served E g (E.generate calls cfg prompt g).2 := by
  have hreset : Served E g g.resetKv := served_resetKv g
  unfold generate
  split
  · exact .refl E g
  dsimp only
  split
  · exact hreset
  · rename_i ids _
    split
    · exact hreset
    split
    · exact hreset
    have hrun : Served E g (E.runGeneration calls ids g.resetKv).2 :=
      hreset.trans (served_runGeneration ids g.resetKv)
    split <;> rename_i heq <;> rw [heq] at hrun
    · exact hrun
    · exact hrun
    · exact hrun.trans (served_resetKv _)

/-- Whatever was requested before, each generation of a sequence ends as it would alone in a
program that was just started, if the persistent graph can be built where it is missing. -/
theorem generations_alone (hnew : LlamaGraph.new backend E.ggml hp = .ok g₀) (h : Served E g₀ g)
    {shots : List (TurnCalls X × String)} (hbuilds : ∀ shot ∈ shots, shot.1.Builds) :
    E.generations cfg shots g =
      untilPanic (shots.map fun shot => (E.generate shot.1 cfg shot.2 g₀).1) := by
  induction shots generalizing g with
  | nil => rfl
  | cons shot shots ih =>
    obtain ⟨calls, prompt⟩ := shot
    have halike : Alike E.model True g₀.resetKv g.resetKv := h.alike_resets hnew
    have hfirst : (E.generate calls cfg prompt g).1 = (E.generate calls cfg prompt g₀).1 :=
      generate_alike (fun _ => hbuilds _ List.mem_cons_self) halike prompt
    have hserved : Served E g₀ (E.generate calls cfg prompt g).2 :=
      h.trans (served_generate prompt g)
    have hrest := ih hserved fun shot hmem => hbuilds shot (List.mem_cons_of_mem _ hmem)
    rw [generations, List.map_cons, ← hfirst]
    rcases hrun : E.generate calls cfg prompt g with ⟨stats | e | _, g'⟩ <;>
      rw [hrun] at hrest
    · exact congrArg _ hrest
    · exact congrArg _ hrest
    · rfl

/-- Two generations after a greeting. -/
theorem generations_alone_twice :
    (unitEngine replyOnce).generations { }
        [((enter "").calls, "hello"), ((enter "").calls, "good morning")]
        ((unitEngine replyOnce).generateTurn sayHi.calls "hi" 0 unitGraph).2 =
      untilPanic ([((enter "").calls, "hello"), ((enter "").calls, "good morning")].map fun shot =>
        ((unitEngine replyOnce).generate shot.1 { } shot.2 unitGraph).1) := by
  refine generations_alone new_unitGraph (served_generateTurn "hi" 0 unitGraph) ?_
  intro shot hshot i
  rcases List.mem_pair.mp hshot with rfl | rfl <;> exact builds_succeed unitGgml

/-! ## The benchmark -/

theorem runGenerationCaptured_alike (hB : B → calls.Builds) (ids : List TokenId)
    (h : Alike E.model B g₁ g₂) :
    SameResult (Alike E.model B) (E.runGenerationCaptured calls ids g₁)
      (E.runGenerationCaptured calls ids g₂) := runGenerationInner_alike hB true ids h

theorem speedRun_alike (hB : B → calls.Builds) (h : Alike E.model B g₁.resetKv g₂.resetKv) :
    (E.speedRun cfg calls g₂).1 = (E.speedRun cfg calls g₁).1 := by
  unfold speedRun
  cases E.tokenizer.encode SPEED_PROMPT cfg.addBos with
  | none => rfl
  | some ids => exact (runGenerationCaptured_alike (E := E.speedEngine) hB ids h).result

theorem served_speedRun (g : LlamaGraph X W F) : Served E g (E.speedRun cfg calls g).2 := by
  have hreset : Served E g g.resetKv := served_resetKv g
  unfold speedRun
  split
  · exact hreset
  · exact hreset.trans (served_runGenerationInner (E := E.speedEngine) true _ g.resetKv)

/-- The results of runs of which none aborts. -/
def completed {ε α : Type} (rs : List (Outcome ε α)) : Option (List (Outcome ε α)) :=
  rs.mapM fun r =>
    match r with
    | .panic => none
    | r => some r

theorem eq_of_completed {ε α : Type} {rs runs : List (Outcome ε α)}
    (h : completed rs = some runs) : runs = rs := by
  induction rs generalizing runs with
  | nil =>
    cases h
    rfl
  | cons r rs ih =>
    rw [completed, List.mapM_cons] at h
    obtain ⟨r', hr, h⟩ := Option.bind_eq_some_iff.mp h
    obtain ⟨runs', hruns, h⟩ := Option.bind_eq_some_iff.mp h
    cases h
    rw [ih hruns]
    cases r <;> cases hr <;> rfl

/-- The speed runs do not see each other: each ends as it would alone. -/
theorem speedRuns_eq_completed (hnew : LlamaGraph.new backend E.ggml hp = .ok g₀)
    (h : Served E g₀ g) {speedCalls : List (TurnCalls X)}
    (hbuilds : ∀ calls ∈ speedCalls, calls.Builds) :
    (E.speedRuns cfg speedCalls g).1 =
      completed (speedCalls.map fun calls => (E.speedRun cfg calls g₀).1) := by
  induction speedCalls generalizing g with
  | nil => rfl
  | cons calls speedCalls ih =>
    have hfirst : (E.speedRun cfg calls g).1 = (E.speedRun cfg calls g₀).1 :=
      speedRun_alike (fun _ => hbuilds calls List.mem_cons_self) (h.alike_resets hnew)
    have hserved : Served E g₀ (E.speedRun cfg calls g).2 := h.trans (served_speedRun g)
    have hrest := ih hserved fun calls' hmem => hbuilds calls' (List.mem_cons_of_mem calls hmem)
    rw [speedRuns, List.map_cons, completed, List.mapM_cons, ← completed, ← hfirst]
    rcases hrun : E.speedRun cfg calls g with ⟨r | e | _, g'⟩ <;> rw [hrun] at hrest
    · dsimp only
      rw [← hrest]
      rcases E.speedRuns cfg speedCalls g' with ⟨_ | runs, g''⟩ <;> rfl
    · dsimp only
      rw [← hrest]
      rcases E.speedRuns cfg speedCalls g' with ⟨_ | runs, g''⟩ <;> rfl
    · rfl

section Bench

variable {sample : Sampler F} {regressionCalls : TurnCalls X} {speedCalls : ℕ → TurnCalls X}

/-- The engine of the regression run serves the same requests. -/
theorem served_regression (ids : List TokenId) (g : LlamaGraph X W F) :
    Served E g
      ((E.regressionEngine sample).runGenerationCaptured regressionCalls ids g.resetKv).2 :=
  (served_resetKv g).trans
    (served_runGenerationInner (E := E.regressionEngine sample) true ids g.resetKv)

theorem speedRuns_eq_of_served (hnew : LlamaGraph.new backend E.ggml hp = .ok g₀)
    (h : Served E g₀ g) (hbuilds : ∀ i, (speedCalls i).Builds) :
    (E.speedRuns cfg ((List.range SPEED_RUNS).map speedCalls) g).1 =
      completed ((List.range SPEED_RUNS).map fun i => (E.speedRun cfg (speedCalls i) g₀).1) := by
  have hall : ∀ calls ∈ (List.range SPEED_RUNS).map speedCalls, calls.Builds := by
    intro calls hmem
    obtain ⟨i, -, rfl⟩ := List.mem_map.mp hmem
    exact hbuilds i
  rw [speedRuns_eq_completed hnew h hall, List.map_map]
  rfl

/-- A benchmark that comes to measure. -/
theorem runBench_eq_measured {runs : List (Outcome GenerateError (GenerateStats × Output))}
    {g' : LlamaGraph X W F}
    (h : E.runBench cfg sample regressionCalls speedCalls g = (some (.measured runs), g')) :
    ∃ g₁, Served E g g₁ ∧
      (E.speedRuns cfg ((List.range SPEED_RUNS).map speedCalls) g₁).1 = some runs ∧
      g'.kv.head = 0 := by
  unfold runBench at h
  split at h
  · cases h
  rename_i ids _
  have hserved : Served E g
      ((E.regressionEngine sample).runGenerationCaptured regressionCalls ids g.resetKv).2 :=
    served_regression ids g
  split at h
  · cases h
  · cases h
  rename_i hregression
  rw [hregression] at hserved
  split at h
  · split at h
    · cases h
    · rename_i hspeed
      cases h
      exact ⟨_, hserved.trans (served_resetKv _), congrArg Prod.fst hspeed, rfl⟩
  · cases h

/-- The benchmark reports what it would report in a program that was just started. -/
theorem runBench_congr (hnew : LlamaGraph.new backend E.ggml hp = .ok g₀) (h : Served E g₀ g)
    (hregression : regressionCalls.Builds) (hbuilds : ∀ i, (speedCalls i).Builds) :
    (E.runBench cfg sample regressionCalls speedCalls g).1 =
      (E.runBench cfg sample regressionCalls speedCalls g₀).1 := by
  unfold runBench
  cases buildChatTokens REGRESSION_PROMPT E.tokenizer with
  | none => rfl
  | some ids =>
    dsimp only
    have hserved : Served E g₀
        ((E.regressionEngine sample).runGenerationCaptured regressionCalls ids g.resetKv).2 :=
      h.trans (served_regression ids g)
    have hserved₀ : Served E g₀
        ((E.regressionEngine sample).runGenerationCaptured regressionCalls ids g₀.resetKv).2 :=
      served_regression ids g₀
    obtain ⟨res, g₁, g₂, hr₁, hr₂, -⟩ := (runGenerationCaptured_alike
      (E := E.regressionEngine sample) (fun _ => hregression) ids (h.alike_resets hnew)).exists_eq
    rw [hr₁] at hserved₀ ⊢
    rw [hr₂] at hserved ⊢
    cases res with
    | err e => rfl
    | panic => rfl
    | ok r =>
      dsimp only
      split
      · have hspeed : (E.speedRuns cfg ((List.range SPEED_RUNS).map speedCalls) g₂.resetKv).1 =
            (E.speedRuns cfg ((List.range SPEED_RUNS).map speedCalls) g₁.resetKv).1 := by
          rw [speedRuns_eq_of_served hnew (hserved.trans (served_resetKv g₂)) hbuilds,
            speedRuns_eq_of_served hnew (hserved₀.trans (served_resetKv g₁)) hbuilds]
        generalize E.speedRuns cfg _ g₁.resetKv = s₁ at hspeed ⊢
        generalize E.speedRuns cfg _ g₂.resetKv = s₂ at hspeed ⊢
        obtain ⟨runs, g₁'⟩ := s₁
        obtain ⟨runs', g₂'⟩ := s₂
        cases hspeed
        cases runs <;> rfl
      · rfl

/-- Whatever was requested before, the benchmark reports what it would report in a program that was
just started; every run that it measures ends as it would alone, and the cache is empty after
them. -/
theorem runBench_fresh (hnew : LlamaGraph.new backend E.ggml hp = .ok g₀) (h : Served E g₀ g)
    (hregression : regressionCalls.Builds) (hbuilds : ∀ i, (speedCalls i).Builds) :
    (E.runBench cfg sample regressionCalls speedCalls g).1 =
        (E.runBench cfg sample regressionCalls speedCalls g₀).1 ∧
      ∀ runs g',
        E.runBench cfg sample regressionCalls speedCalls g = (some (.measured runs), g') →
          runs = (List.range SPEED_RUNS).map (fun i => (E.speedRun cfg (speedCalls i) g₀).1) ∧
            g'.kv.head = 0 := by
  refine ⟨runBench_congr hnew h hregression hbuilds, fun runs g' hmeasured => ?_⟩
  obtain ⟨g₁, hserved, hruns, hhead⟩ := runBench_eq_measured hmeasured
  rw [speedRuns_eq_of_served hnew (h.trans hserved) hbuilds] at hruns
  exact ⟨eq_of_completed hruns, hhead⟩

/-- An engine that knows the capital. -/
def parisEngine : Engine Unit Unit Unit where
  ggml := unitGgml
  model := .const ()
  tokenizer :=
    { vocab := [⟨"Paris".toUTF8.toList, 0, 1⟩], tokenToId := .empty, mergeRank := .empty
      byteToToken := fun _ => 0 }
  sample := replyOnce
  maxNewTokens := 512

def measures : Option BenchReport → Bool
  | some (.measured _) => true
  | _ => false

/-- Its benchmark after a turn measures. -/
theorem runBench_fresh_paris :
    ∃ runs g', parisEngine.runBench { } replyOnce sayHi.calls (fun _ => sayHi.calls)
        (parisEngine.generateTurn sayHi.calls "hi" 0 unitGraph).2 = (some (.measured runs), g') ∧
      runs = (List.range SPEED_RUNS).map
        (fun _ => (parisEngine.speedRun { } sayHi.calls unitGraph).1) ∧ g'.kv.head = 0 := by
  have hmeasured : measures (parisEngine.runBench { } replyOnce sayHi.calls (fun _ => sayHi.calls)
      (parisEngine.generateTurn sayHi.calls "hi" 0 unitGraph).2).1 = true := by decide +kernel
  unfold measures at hmeasured
  split at hmeasured
  · rename_i runs hruns
    refine ⟨runs, _, Prod.ext hruns rfl, ?_⟩
    exact (runBench_fresh new_unitGraph (served_generateTurn "hi" 0 unitGraph)
      (fun _ => builds_succeed unitGgml) (fun _ _ => builds_succeed unitGgml)).2 runs _
      (Prod.ext hruns rfl)
  · cases hmeasured

end Bench

end Engine

end QuantumFlow
