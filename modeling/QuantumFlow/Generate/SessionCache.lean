import QuantumFlow.Generate.Chat

/-!
# The session and the cache

The session counts a turn only when it succeeds, and the cache keeps the prompt part of a turn
as soon as its prefill succeeds. The two agree except after a first turn that fails in between;
the turn after it is a first turn again and puts a second system prompt behind the cached rows.
As long as they agree, BOS and the system prompt are put into an empty cache, and behind cached
tokens a turn is its user part alone.
-/

namespace QuantumFlow

variable {X W F : Type}

/-- The session has no turn exactly when nothing is cached, and the system prompt was put into the
cache once, at row 0, or the cache is empty. -/
structure Agreement (s : ChatState X W F) : Prop where
  turnCount : s.session.turnCount = 0 ↔ s.graph.kv.head = 0
  prefixRows : s.prefixRows = if s.graph.kv.head = 0 then [] else [0]

/-- The cached rows from `r` on are those of BOS and the system prompt. -/
def HoldsPrefixAt (T : Tokenizer) (g : LlamaGraph X W F) (r : ℕ) : Prop :=
  ∃ before, systemPrefix T = some before ∧ HoldsAt g r before

theorem HoldsPrefixAt.append {T : Tokenizer} {g g' : LlamaGraph X W F} {r : ℕ}
    {ts : List TokenId} (h : HoldsPrefixAt T g r) (happ : Appends g g' ts) :
    HoldsPrefixAt T g' r := by
  obtain ⟨before, hbefore, hrows⟩ := h
  exact ⟨before, hbefore, hrows.append happ⟩

/-- Only row 0 can begin one, if BOS is cached nowhere else. -/
theorem eq_zero_of_holdsPrefixAt {T : Tokenizer} {g : LlamaGraph X W F} {r : ℕ}
    (h : HoldsPrefixAt T g r)
    (hbos : ∀ r < g.kv.head, (g.kv.fed r).map Prod.fst = some T_BOS → r = 0) : r = 0 := by
  obtain ⟨before, hbefore, hrows⟩ := h
  have hhead := head?_systemPrefix hbefore
  have hpos : 0 < before.length := by
    cases before with
    | nil => cases hhead
    | cons t ts => exact Nat.succ_pos _
  have hwithin := hrows.within
  have hfirst := hrows.rows 0 hpos
  rw [Nat.add_zero, ← List.head?_eq_getElem?, hhead] at hfirst
  exact hbos r (by omega) hfirst

/-- BOS and the system prompt are in the cache at every row of `prefixRows`. -/
def PrefixesCached (T : Tokenizer) (s : ChatState X W F) : Prop :=
  ∀ r ∈ s.prefixRows, HoldsPrefixAt T s.graph r

namespace Engine

/-- A first turn that fails although its prefill succeeded. -/
def LosesFirstTurn (E : Engine X W F) (input : ChatInput X) (s : ChatState X W F) : Prop :=
  s.session.turnCount = 0 ∧ ∃ text, input.line.map readCommand = some (.message text) ∧
    E.PrefillsTurn input.calls text 0 s.graph ∧
    ∃ e g, E.generateTurn input.calls text 0 s.graph = (.err e, g)

/-- A message leaves the cached tokens, or puts the parts of its turn behind them: the system
prompt and the user part into an empty cache, the user part alone behind anything else. -/
def PutsParts (E : Engine X W F) (input : ChatInput X) (s s' : ChatState X W F) : Prop :=
  ∀ text, input.line.map readCommand = some (.message text) →
    Appends s.graph s'.graph [] ∨
      ∃ ids reply, turnParts (s.graph.kv.head == 0) text E.tokenizer = some ids ∧
        E.Caches input.calls ids reply s.graph s'.graph

/-- No message spells BOS, and sampling does not return it. -/
structure SpellsNoBos (E : Engine X W F) (inputs : List (ChatInput X)) : Prop where
  systemPrefix : ∀ ids, systemPrefix E.tokenizer = some ids → T_BOS ∉ ids.tail
  messages : ∀ input ∈ inputs, ∀ text, input.line.map readCommand = some (.message text) →
    ∀ ids, userPart text E.tokenizer = some ids → T_BOS ∉ ids
  sampled : ¬ E.Sampled T_BOS

/-- Every row that holds BOS is row 0. -/
def BosAtZero (s : ChatState X W F) : Prop :=
  ∀ r < s.graph.kv.head, (s.graph.kv.fed r).map Prod.fst = some T_BOS → r = 0

section Run

variable {E : Engine X W F} {contextLen : ℕ}

theorem agreement_start {g : LlamaGraph X W F} (h : g.kv.head = 0) :
    Agreement (ChatState.start contextLen g) :=
  ⟨iff_of_true rfl h, (if_pos h).symm⟩

/-- A completed turn is counted, and cached at least one token. -/
theorem agreement_of_ok {calls : TurnCalls X} {text : String} {s : ChatState X W F}
    {stats : GenerateStats} {g : LlamaGraph X W F} (hs : Agreement s)
    (h : E.generateTurn calls text s.session.turnCount s.graph = (.ok stats, g)) :
    Agreement { afterTurn s g with
      session := s.session.recordTurn, turns := s.turns ++ [stats.turn] } := by
  rcases generateTurn_cases h with hpanic | ⟨⟨e, herr⟩, -⟩ | ⟨-, ids, reply, -, hcaches, -⟩
  · cases hpanic
  · cases herr
  have hhead := hcaches.appends.head
  have hpos : 0 < ids.length := List.length_pos_iff.mpr hcaches.ne_nil
  rw [List.length_append] at hhead
  have hgrow : g.kv.head ≠ s.graph.kv.head := by omega
  have hne' : g.kv.head ≠ 0 := by omega
  refine ⟨iff_of_false (Nat.succ_ne_zero _) hne', ?_⟩
  simp only [afterTurn, hs.prefixRows, hs.turnCount, if_neg hne']
  by_cases hzero : s.graph.kv.head = 0
  · rw [if_pos ⟨hzero, hgrow⟩, if_pos hzero, hzero, List.nil_append]
  · rw [if_neg (fun hboth => hzero hboth.1), if_neg hzero]

/-- A failed turn keeps the agreement unless it was a first turn and its prefill succeeded. -/
theorem agreement_afterTurn_iff {calls : TurnCalls X} {text : String} {s : ChatState X W F}
    {e : GenerateError} {g : LlamaGraph X W F} (hs : Agreement s)
    (h : E.generateTurn calls text s.session.turnCount s.graph = (.err e, g)) :
    Agreement (afterTurn s g) ↔
      ¬ (s.session.turnCount = 0 ∧ E.PrefillsTurn calls text 0 s.graph) := by
  rcases generateTurn_cases h with hpanic | ⟨-, hnot, happ⟩ |
    ⟨hprefills, ids, reply, -, hcaches, -⟩
  · cases hpanic
  · have hhead : g.kv.head = s.graph.kv.head := happ.head
    have hsame : ¬ (s.session.turnCount = 0 ∧ g.kv.head ≠ s.graph.kv.head) :=
      fun hboth => hboth.2 hhead
    refine iff_of_true ⟨?_, ?_⟩ ?_
    · simpa [afterTurn, hhead] using hs.turnCount
    · simpa [afterTurn, hsame, hhead] using hs.prefixRows
    · rintro ⟨hfirst, hprefills⟩
      rw [hfirst] at hnot
      exact hnot hprefills
  · have hhead := hcaches.appends.head
    have hpos : 0 < ids.length := List.length_pos_iff.mpr hcaches.ne_nil
    rw [List.length_append] at hhead
    constructor
    · rintro hagree ⟨hfirst, -⟩
      have hzero : g.kv.head = 0 := hagree.turnCount.mp hfirst
      omega
    · intro hlost
      have hlater : s.session.turnCount ≠ 0 := by
        intro hfirst
        rw [hfirst] at hprefills
        exact hlost ⟨hfirst, hprefills⟩
      have hcached : s.graph.kv.head ≠ 0 := fun hzero => hlater (hs.turnCount.mpr hzero)
      have hne' : g.kv.head ≠ 0 := by omega
      refine ⟨iff_of_false hlater hne', ?_⟩
      simp only [afterTurn, hs.prefixRows, if_neg hne', if_neg hcached]
      rw [if_neg (fun hboth => hlater hboth.1)]

/-- One round keeps the agreement unless it loses a first turn. -/
theorem agreement_chatStep_iff {input : ChatInput X} {s s' : ChatState X W F} (hs : Agreement s)
    (h : E.chatStep contextLen input s = some s') :
    Agreement s' ↔ ¬ E.LosesFirstTurn input s := by
  obtain ⟨line, hline, hcases⟩ := chatStep_cases h
  rcases hcases with ⟨hblank, rfl⟩ | ⟨hreset, rfl⟩ | ⟨text, htext, hturn⟩
  · refine iff_of_true hs ?_
    rintro ⟨-, text, htext, -⟩
    simp [hline, hblank] at htext
  · refine iff_of_true (agreement_start rfl) ?_
    rintro ⟨-, text, htext, -⟩
    simp [hline, hreset] at htext
  · rcases chatTurn_cases hturn with ⟨stats, g, hok, rfl⟩ | ⟨e, g, herr, rfl⟩
    · refine iff_of_true (agreement_of_ok hs hok) ?_
      rintro ⟨hfirst, text', htext', -, e, g', herr⟩
      rw [hline, Option.map_some, htext] at htext'
      cases htext'
      rw [hfirst, herr] at hok
      cases hok
    · rw [agreement_afterTurn_iff hs herr, not_iff_not]
      constructor
      · rintro ⟨hfirst, hprefills⟩
        rw [hfirst] at herr
        exact ⟨hfirst, text, by rw [hline, Option.map_some, htext], hprefills, e, g, herr⟩
      · rintro ⟨hfirst, text', htext', hprefills, -⟩
        rw [hline, Option.map_some, htext] at htext'
        cases htext'
        exact ⟨hfirst, hprefills⟩

/-! ## The rows of the system prompt -/

theorem prefixesCached_afterTurn {calls : TurnCalls X} {text : String} {s : ChatState X W F}
    {res : Outcome GenerateError GenerateStats} {g : LlamaGraph X W F}
    (hs : PrefixesCached E.tokenizer s)
    (h : E.generateTurn calls text s.session.turnCount s.graph = (res, g)) (hres : res ≠ .panic) :
    PrefixesCached E.tokenizer (afterTurn s g) := by
  intro r hr
  unfold afterTurn at hr ⊢
  dsimp only at hr ⊢
  rcases generateTurn_cases h with hpanic | ⟨-, -, happ⟩ | ⟨-, ids, reply, hids, hcaches, -⟩
  · exact absurd hpanic hres
  · have hhead : g.kv.head = s.graph.kv.head := happ.head
    rw [if_neg (fun hboth => hboth.2 hhead)] at hr
    exact (hs r hr).append happ
  · have happ := hcaches.appends
    split at hr
    · rename_i hfirst
      rcases List.mem_append.mp hr with hr | hr
      · exact (hs r hr).append happ
      · obtain rfl := List.mem_singleton.mp hr
        rw [turnIds_eq, hfirst.1] at hids
        obtain ⟨before, user, hbefore, -, rfl⟩ := turnParts_eq_some hids
        rw [List.append_assoc] at happ
        exact ⟨before, hbefore, happ.holdsAt⟩
    · exact (hs r hr).append happ

theorem prefixesCached_chatStep {input : ChatInput X} {s s' : ChatState X W F}
    (hs : PrefixesCached E.tokenizer s) (h : E.chatStep contextLen input s = some s') :
    PrefixesCached E.tokenizer s' := by
  obtain ⟨line, -, hcases⟩ := chatStep_cases h
  rcases hcases with ⟨-, rfl⟩ | ⟨-, rfl⟩ | ⟨text, -, hturn⟩
  · exact hs
  · exact fun r hr => absurd hr List.not_mem_nil
  · rcases chatTurn_cases hturn with ⟨stats, g, hok, rfl⟩ | ⟨e, g, herr, rfl⟩
    · exact prefixesCached_afterTurn hs hok (fun hpanic => by cases hpanic)
    · exact prefixesCached_afterTurn hs herr (fun hpanic => by cases hpanic)

/-- In every state of a run the recorded rows begin a system prompt. -/
theorem prefixesCached_chatRun {inputs : List (ChatInput X)} {g₀ : LlamaGraph X W F}
    {s : ChatState X W F} (hrun : E.chatRun contextLen inputs (.start contextLen g₀) = some s) :
    PrefixesCached E.tokenizer s := by
  refine chatRun_induction (P := PrefixesCached E.tokenizer) ?_ ?_ List.prefix_rfl hrun
  · exact fun r hr => absurd hr List.not_mem_nil
  · intro pre input s₁ s₂ _ _ hstep hs₁
    exact prefixesCached_chatStep hs₁ hstep

/-- Where the session and the cache agree, an empty cache is what makes a turn the first one. -/
theorem putsParts_chatStep {input : ChatInput X} {s s' : ChatState X W F} (hs : Agreement s)
    (h : E.chatStep contextLen input s = some s') : E.PutsParts input s s' := by
  intro text htext
  have hcount : (s.session.turnCount == 0) = (s.graph.kv.head == 0) := by
    rw [Bool.eq_iff_iff, beq_iff_eq, beq_iff_eq]
    exact hs.turnCount
  have hparts : ∀ res g, E.generateTurn input.calls text s.session.turnCount s.graph = (res, g) →
      res ≠ .panic → Appends s.graph g [] ∨
        ∃ ids reply, turnParts (s.graph.kv.head == 0) text E.tokenizer = some ids ∧
          E.Caches input.calls ids reply s.graph g := by
    intro res g hturn hres
    rcases generateTurn_cases hturn with hpanic | ⟨-, -, happ⟩ | ⟨-, ids, reply, hids, hcaches, -⟩
    · exact absurd hpanic hres
    · exact Or.inl happ
    · rw [turnIds_eq, hcount] at hids
      exact Or.inr ⟨ids, reply, hids, hcaches⟩
  obtain ⟨line, hline, hcases⟩ := chatStep_cases h
  rw [hline, Option.map_some, Option.some.injEq] at htext
  rcases hcases with ⟨hblank, rfl⟩ | ⟨hreset, rfl⟩ | ⟨text', htext', hturn⟩
  · exact Or.inl (.of_kv_eq rfl)
  · rw [hreset] at htext
    cases htext
  · rw [htext'] at htext
    cases htext
    rcases chatTurn_cases hturn with ⟨stats, g, hok, rfl⟩ | ⟨e, g, herr, rfl⟩
    · exact hparts _ g hok (fun hpanic => by cases hpanic)
    · exact hparts _ g herr (fun hpanic => by cases hpanic)

/-- A turn that spells no BOS itself begins with it or does not hold it. -/
theorem bos_of_turnParts {first : Bool} {text : String} {ids reply : List TokenId} {i : ℕ}
    (hids : turnParts first text E.tokenizer = some ids)
    (hsystem : ∀ ids, systemPrefix E.tokenizer = some ids → T_BOS ∉ ids.tail)
    (huser : ∀ ids, userPart text E.tokenizer = some ids → T_BOS ∉ ids) (hreply : T_BOS ∉ reply)
    (hbos : (ids ++ reply)[i]? = some T_BOS) : first = true ∧ i = 0 := by
  obtain ⟨before, user, hbefore, huser', rfl⟩ := turnParts_eq_some hids
  have hrest : T_BOS ∉ user ++ reply := by
    rw [List.mem_append]
    rintro (hmem | hmem)
    · exact huser user huser' hmem
    · exact hreply hmem
  rw [List.append_assoc] at hbos
  cases first with
  | false =>
    cases hbefore
    exact absurd (List.mem_of_getElem? hbos) hrest
  | true =>
    have hhead := head?_systemPrefix hbefore
    have htail := hsystem before hbefore
    cases before with
    | nil => cases hhead
    | cons t ts =>
      cases i with
      | zero => exact ⟨rfl, rfl⟩
      | succ i =>
        have hmem : T_BOS ∈ ts ++ (user ++ reply) := List.mem_of_getElem? hbos
        rcases List.mem_append.mp hmem with hts | hts
        · exact absurd hts htail
        · exact absurd hts hrest

/-- So a message leaves BOS at row 0 only. -/
theorem bosAtZero_chatStep {inputs : List (ChatInput X)} {input : ChatInput X}
    {s s' : ChatState X W F} (hspells : E.SpellsNoBos inputs) (hmem : input ∈ inputs)
    (hs : BosAtZero s) (hparts : E.PutsParts input s s')
    (h : E.chatStep contextLen input s = some s') : BosAtZero s' := by
  obtain ⟨line, hline, hcases⟩ := chatStep_cases h
  rcases hcases with ⟨-, rfl⟩ | ⟨-, rfl⟩ | ⟨text, htext, -⟩
  · exact hs
  · exact fun r hr => absurd hr (Nat.not_lt_zero r)
  have hmessage : input.line.map readCommand = some (.message text) := by
    rw [hline, Option.map_some, htext]
  intro r hr hbos
  rcases hparts text hmessage with happ | ⟨ids, reply, hids, hcaches⟩
  · have hhead : s'.graph.kv.head = s.graph.kv.head := happ.head
    rw [hhead] at hr
    rw [happ.before r hr] at hbos
    exact hs r hr hbos
  · have happ := hcaches.appends
    have hhead := happ.head
    by_cases hlt : r < s.graph.kv.head
    · rw [happ.before r hlt] at hbos
      exact hs r hlt hbos
    · obtain ⟨i, rfl⟩ := Nat.exists_eq_add_of_le (Nat.not_lt.mp hlt)
      rw [happ.new i (by omega)] at hbos
      have hreply : T_BOS ∉ reply := fun ht => hspells.sampled (hcaches.sampled _ ht)
      have hfirst := bos_of_turnParts hids hspells.systemPrefix
        (hspells.messages input hmem text hmessage) hreply hbos
      rw [hfirst.2, beq_iff_eq.mp hfirst.1]

end Run

/-- What a run of the chat loop keeps while the session and the cache agree: they do whenever the
loop is back at the prompt, and BOS and the system prompt begin every cache that is not empty; every
turn that is put behind cached tokens is its user part alone; and where nothing else spells BOS, no
later row begins a system prompt. -/
structure KeepsAgreement (E : Engine X W F) (contextLen : ℕ) (g₀ : LlamaGraph X W F)
    (inputs : List (ChatInput X)) : Prop where
  atPrompt : ∀ pre s, pre <+: inputs → E.chatRun contextLen pre (.start contextLen g₀) = some s →
    Agreement s ∧ (s.graph.kv.head ≠ 0 → HoldsPrefixAt E.tokenizer s.graph 0)
  rounds : ∀ pre input s s', pre ++ [input] <+: inputs →
    E.chatRun contextLen pre (.start contextLen g₀) = some s →
    E.chatStep contextLen input s = some s' → E.PutsParts input s s'
  once : E.SpellsNoBos inputs → ∀ pre s, pre <+: inputs →
    E.chatRun contextLen pre (.start contextLen g₀) = some s →
    ∀ r, HoldsPrefixAt E.tokenizer s.graph r → r = 0

/-- A run of the chat loop keeps the agreement exactly when no first turn of the run fails behind
its prefill. -/
theorem agreement_iff {E : Engine X W F} {contextLen : ℕ} {backend : Bool}
    {hp : LlamaHparams F} {g₀ : LlamaGraph X W F} {inputs : List (ChatInput X)}
    {s : ChatState X W F} (hnew : LlamaGraph.new backend E.ggml hp = .ok g₀)
    (hrun : E.chatRun contextLen inputs (.start contextLen g₀) = some s) :
    E.KeepsAgreement contextLen g₀ inputs ↔
      ∀ pre input s', pre ++ [input] <+: inputs →
        E.chatRun contextLen pre (.start contextLen g₀) = some s' →
        ¬ E.LosesFirstTurn input s' := by
  constructor
  · intro hkeeps pre input s₁ hpart hpre
    obtain ⟨s₂, hstep, hnext⟩ := chatStep_of_prefix hrun hpart hpre
    have hpart₁ := List.IsPrefix.trans (List.prefix_append pre [input]) hpart
    have hs₁ := (hkeeps.atPrompt pre s₁ hpart₁ hpre).1
    exact (agreement_chatStep_iff hs₁ hstep).mp (hkeeps.atPrompt _ s₂ hpart hnext).1
  · intro hkeeps
    have hempty := LlamaGraph.head_of_new hnew
    have hagree : ∀ pre s', pre <+: inputs →
        E.chatRun contextLen pre (.start contextLen g₀) = some s' → Agreement s' := by
      intro pre s' hpart hpre
      refine chatRun_induction (agreement_start hempty) ?_ hpart hpre
      intro pre input s₁ s₂ hpart hpre hstep hs₁
      exact (agreement_chatStep_iff hs₁ hstep).mpr (hkeeps pre input s₁ hpart hpre)
    have hparts : ∀ pre input s₁ s₂, pre ++ [input] <+: inputs →
        E.chatRun contextLen pre (.start contextLen g₀) = some s₁ →
        E.chatStep contextLen input s₁ = some s₂ → E.PutsParts input s₁ s₂ := by
      intro pre input s₁ s₂ hpart hpre hstep
      have hs₁ := hagree pre s₁ (List.IsPrefix.trans (List.prefix_append pre [input]) hpart) hpre
      exact putsParts_chatStep hs₁ hstep
    refine ⟨fun pre s' hpart hpre => ⟨hagree pre s' hpart hpre, fun hcached => ?_⟩, hparts, ?_⟩
    · refine prefixesCached_chatRun hpre 0 ?_
      rw [(hagree pre s' hpart hpre).prefixRows, if_neg hcached]
      exact List.mem_singleton_self 0
    · intro hspells pre s' hpart hpre r hr
      refine eq_zero_of_holdsPrefixAt hr ?_
      refine chatRun_induction (P := BosAtZero) (fun r hr => ?_) ?_ hpart hpre
      · have hnone : r < g₀.kv.head := hr
        omega
      · intro pre input s₁ s₂ hpart hpre hstep hs₁
        have hmem : input ∈ inputs := hpart.subset (by simp)
        exact bosAtZero_chatStep hspells hmem hs₁ (hparts pre input s₁ s₂ hpart hpre hstep) hstep

theorem agreement_iff_reset :
    ∃ s, (unitEngine replyOnce).chatRun 512 [sayHi, reset, sayHi] (.start 512 unitGraph) = some s ∧
      ((unitEngine replyOnce).KeepsAgreement 512 unitGraph [sayHi, reset, sayHi] ↔
        ∀ pre input s', pre ++ [input] <+: [sayHi, reset, sayHi] →
          (unitEngine replyOnce).chatRun 512 pre (.start 512 unitGraph) = some s' →
          ¬ (unitEngine replyOnce).LosesFirstTurn input s') := by
  obtain ⟨s, hrun⟩ := Option.isSome_iff_exists.mp (by decide +kernel :
    ((unitEngine replyOnce).chatRun 512 [sayHi, reset, sayHi] (.start 512 unitGraph)).isSome = true)
  exact ⟨s, hrun, agreement_iff new_unitGraph hrun⟩

/-- With a temperature that sampling refuses, the first turn is cached and not counted, and the
second turn caches the system prompt again. -/
theorem not_agreement :
    ∃ s, LlamaGraph.new true unitGgml unitHparams = .ok unitGraph ∧
      (unitEngine refuse).chatRun 512 [sayHi, sayHi] (.start 512 unitGraph) = some s ∧
      s.session.turnCount = 0 ∧ s.graph.kv.head ≠ 0 ∧
      HoldsPrefixAt (unitEngine refuse).tokenizer s.graph 0 ∧
      HoldsPrefixAt (unitEngine refuse).tokenizer s.graph 66 := by
  obtain ⟨before, hbefore⟩ := Option.isSome_iff_exists.mp (by decide +kernel :
    (systemPrefix (unitEngine refuse).tokenizer).isSome = true)
  have hget : (systemPrefix (unitEngine refuse).tokenizer).getD [] = before := by rw [hbefore]; rfl
  obtain ⟨s, hrun, hs⟩ := Option.map_eq_some_iff.mp (by decide +kernel :
    ((unitEngine refuse).chatRun 512 [sayHi, sayHi] (.start 512 unitGraph)).map
      (fun s => (s.session.turnCount, s.graph.kv.head, [0, 66].map fun r =>
        decide (HoldsAt s.graph r ((systemPrefix (unitEngine refuse).tokenizer).getD [])))) =
      some (0, 132, [true, true]))
  simp only [hget, Prod.mk.injEq, List.map_cons, List.map_nil, List.cons.injEq,
    decide_eq_true_eq, and_true] at hs
  obtain ⟨hcount, hhead, hfirst, hsecond⟩ := hs
  exact ⟨s, new_unitGraph, hrun, hcount, by omega, ⟨before, hbefore, hfirst⟩,
    ⟨before, hbefore, hsecond⟩⟩

end Engine

end QuantumFlow
