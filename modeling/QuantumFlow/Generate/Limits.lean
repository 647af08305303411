import QuantumFlow.Generate.Budget
import QuantumFlow.Generate.Capacity
import QuantumFlow.Generate.SingleShot
import QuantumFlow.Generate.Streaming

/-!
# Shorter and silent runs

The token limit cuts a reply off and does nothing else: with a smaller limit a run goes the same
way up to the cut. And a silent run collects what a printing one writes. So a reply that is
measured silently, with a small limit, is the beginning of what would be printed.
-/

namespace QuantumFlow

variable {X W F : Type}

/-- The same engine with another token limit. -/
def Engine.limited (E : Engine X W F) (limit : ℕ) : Engine X W F := { E with maxNewTokens := limit }

namespace Engine

variable {E : Engine X W F} {quiet : Bool} {calls : TurnCalls X}

/-! ## One step of the loop -/

/-- The loop goes no further: the token ends the reply, or there is no room for it. -/
def Stops (nextToken : TokenId) (g : LlamaGraph X W F) : Prop :=
  Tokenizer.isEos nextToken = true ∨ g.kv.nCtx ≤ g.kv.head

section Step

variable {left : ℕ} {reply recent : List TokenId} {nextToken : TokenId} {out : Output}
  {rng : UInt64} {g g' : LlamaGraph X W F}

theorem decodeLoopInner_zero :
    E.decodeLoopInner quiet calls 0 reply out nextToken recent rng g =
      (.ok (reply, nextToken, out), g) := by
  unfold decodeLoopInner
  split <;> rfl

theorem decodeLoopInner_of_stops (h : Stops nextToken g) :
    E.decodeLoopInner quiet calls left reply out nextToken recent rng g =
      (.ok (reply, nextToken, out), g) := by
  cases left with
  | zero => exact decodeLoopInner_zero
  | succ left =>
    unfold decodeLoopInner
    split
    · rfl
    · rename_i heos
      exact if_pos (h.resolve_left heos)

/-- Otherwise it completes by emitting and decoding the token, and completing from there. -/
theorem decodeLoopInner_succ_eq_ok_iff (h : ¬ Stops nextToken g)
    {res : List TokenId × TokenId × Output} :
    E.decodeLoopInner quiet calls (left + 1) reply out nextToken recent rng g = (.ok res, g') ↔
      ∃ out₁ logits g₁ token rng₁,
        E.emit quiet calls reply.length nextToken out = .ok out₁ ∧
        g.decodeOne E.ggml (calls.decode reply.length) E.model nextToken = (.ok logits, g₁) ∧
        E.sample logits (pushRecent recent nextToken) rng = .ok (token, rng₁) ∧
        E.decodeLoopInner quiet calls left (reply ++ [nextToken]) out₁ token
          (pushRecent recent nextToken) rng₁ g₁ = (.ok res, g') := by
  obtain ⟨heos, hroom⟩ := not_or.mp h
  rw [decodeLoopInner.eq_def]
  dsimp only
  rw [if_neg heos, if_neg hroom]
  constructor
  · intro hloop
    split at hloop
    · cases hloop
    · cases hloop
    rename_i out₁ hemit
    split at hloop
    · cases hloop
    · cases hloop
    rename_i logits g₁ hdecode
    split at hloop
    · cases hloop
    · cases hloop
    rename_i token rng₁ hsample
    exact ⟨out₁, logits, g₁, token, rng₁, hemit, hdecode, hsample, hloop⟩
  · rintro ⟨out₁, logits, g₁, token, rng₁, hemit, hdecode, hsample, hloop⟩
    rw [hemit, hdecode]
    dsimp only
    rw [hsample]
    exact hloop

end Step

/-! ## A smaller limit -/

theorem prefix_of_decodeLoopInner {left : ℕ} {reply reply' recent : List TokenId}
    {nextToken endToken : TokenId} {out out' : Output} {rng : UInt64} {g g' : LlamaGraph X W F}
    (h : E.decodeLoopInner quiet calls left reply out nextToken recent rng g =
      (.ok (reply', endToken, out'), g')) : reply <+: reply' := by
  induction left generalizing reply out nextToken recent rng g with
  | zero =>
    rw [decodeLoopInner_zero] at h
    cases h
    exact List.prefix_rfl
  | succ left ih =>
    by_cases hstops : Stops nextToken g
    · rw [decodeLoopInner_of_stops hstops] at h
      cases h
      exact List.prefix_rfl
    · obtain ⟨out₁, logits, g₁, token, rng₁, -, -, -, hrest⟩ :=
        (decodeLoopInner_succ_eq_ok_iff hstops).mp h
      exact (List.prefix_append _ _).trans (ih hrest)

/-- A loop that has decoded nothing has stopped at once. -/
theorem decodeLoopInner_eq_of_length_le {left : ℕ} {reply reply' recent : List TokenId}
    {nextToken endToken : TokenId} {out out' : Output} {rng : UInt64} {g g' : LlamaGraph X W F}
    (h : E.decodeLoopInner quiet calls left reply out nextToken recent rng g =
      (.ok (reply', endToken, out'), g')) (hlen : reply'.length ≤ reply.length) :
    nextToken = endToken ∧ out = out' ∧ g = g' := by
  cases left with
  | zero =>
    rw [decodeLoopInner_zero] at h
    cases h
    exact ⟨rfl, rfl, rfl⟩
  | succ left =>
    by_cases hstops : Stops nextToken g
    · rw [decodeLoopInner_of_stops hstops] at h
      cases h
      exact ⟨rfl, rfl, rfl⟩
    · obtain ⟨out₁, logits, g₁, token, rng₁, -, -, -, hrest⟩ :=
        (decodeLoopInner_succ_eq_ok_iff hstops).mp h
      have hlonger := (prefix_of_decodeLoopInner hrest).length_le
      rw [List.length_append, List.length_singleton] at hlonger
      omega

/-- With less room the loop returns the beginning of the reply, and ends as before if that is all
of it. -/
theorem decodeLoopInner_take {left less : ℕ} (hle : less ≤ left)
    {reply reply' recent : List TokenId} {nextToken endToken : TokenId} {out out' : Output}
    {rng : UInt64} {g g' : LlamaGraph X W F}
    (h : E.decodeLoopInner quiet calls left reply out nextToken recent rng g =
      (.ok (reply', endToken, out'), g')) :
    ∃ endToken₁ out₁ g₁, E.decodeLoopInner quiet calls less reply out nextToken recent rng g =
        (.ok (reply'.take (reply.length + less), endToken₁, out₁), g₁) ∧
      (reply'.length ≤ reply.length + less → endToken₁ = endToken ∧ out₁ = out' ∧ g₁ = g') := by
  induction less generalizing left reply out nextToken recent rng g with
  | zero =>
    have hprefix := prefix_of_decodeLoopInner h
    refine ⟨nextToken, out, g, ?_, decodeLoopInner_eq_of_length_le h⟩
    rw [decodeLoopInner_zero, Nat.add_zero, ← List.prefix_iff_eq_take.mp hprefix]
  | succ less ih =>
    have hne : left ≠ 0 := by omega
    obtain ⟨left, rfl⟩ := Nat.exists_eq_succ_of_ne_zero hne
    by_cases hstops : Stops nextToken g
    · rw [decodeLoopInner_of_stops hstops] at h
      cases h
      refine ⟨_, _, _, ?_, fun _ => ⟨rfl, rfl, rfl⟩⟩
      rw [decodeLoopInner_of_stops hstops, List.take_of_length_le (Nat.le_add_right _ _)]
    · obtain ⟨out₁, logits, g₁, token, rng₁, hemit, hdecode, hsample, hrest⟩ :=
        (decodeLoopInner_succ_eq_ok_iff hstops).mp h
      obtain ⟨endToken₁, out₂, g₂, hcut, hall⟩ := ih (Nat.le_of_succ_le_succ hle) hrest
      rw [List.length_append, List.length_singleton, Nat.add_assoc, Nat.add_comm 1] at hcut hall
      exact ⟨endToken₁, out₂, g₂, (decodeLoopInner_succ_eq_ok_iff hstops).mpr
        ⟨out₁, logits, g₁, token, rng₁, hemit, hdecode, hsample, hcut⟩, hall⟩

/-! ## A silent run -/

theorem emit_silent (E : Engine X W F) (calls : TurnCalls X) (generated : ℕ) (token : TokenId)
    (out : Output) : ∃ out', E.emit true calls generated token out = .ok out' := by
  unfold emit
  cases E.tokenizer.decodeOne token with
  | none => exact ⟨_, rfl⟩
  | some piece => exact ⟨_, rfl⟩

/-- A silent loop goes the way of any loop that completes. -/
theorem decodeLoopInner_silent {left : ℕ} {reply reply' recent : List TokenId}
    {nextToken endToken : TokenId} {out out' : Output} {rng : UInt64} {g g' : LlamaGraph X W F}
    (h : E.decodeLoopInner quiet calls left reply out nextToken recent rng g =
      (.ok (reply', endToken, out'), g')) (out₁ : Output) :
    ∃ out₂, E.decodeLoopInner true calls left reply out₁ nextToken recent rng g =
      (.ok (reply', endToken, out₂), g') := by
  induction left generalizing reply out nextToken recent rng g out₁ with
  | zero =>
    rw [decodeLoopInner_zero] at h
    cases h
    exact ⟨out₁, decodeLoopInner_zero⟩
  | succ left ih =>
    by_cases hstops : Stops nextToken g
    · rw [decodeLoopInner_of_stops hstops] at h
      cases h
      exact ⟨out₁, decodeLoopInner_of_stops hstops⟩
    · obtain ⟨_, logits, g₁, token, rng₁, -, hdecode, hsample, hrest⟩ :=
        (decodeLoopInner_succ_eq_ok_iff hstops).mp h
      obtain ⟨out₂, hemit⟩ := emit_silent E calls reply.length nextToken out₁
      obtain ⟨out₃, hsilent⟩ := ih hrest out₂
      exact ⟨out₃, (decodeLoopInner_succ_eq_ok_iff hstops).mpr
        ⟨out₂, logits, g₁, token, rng₁, hemit, hdecode, hsample, hsilent⟩⟩

/-! ## Whole runs -/

/-- The loop takes its limit as an argument. -/
theorem decodeLoopInner_limited (limit left : ℕ) (reply : List TokenId) (out : Output)
    (nextToken : TokenId) (recent : List TokenId) (rng : UInt64) (g : LlamaGraph X W F) :
    (E.limited limit).decodeLoopInner quiet calls left reply out nextToken recent rng g =
      E.decodeLoopInner quiet calls left reply out nextToken recent rng g := by
  induction left generalizing reply out nextToken recent rng g with
  | zero => rfl
  | succ left ih =>
    unfold decodeLoopInner
    simp only [ih]
    rfl

/-- A run that completes completes in silence and with a smaller limit, on the beginning of its
reply, and exactly as before if that is all of it. -/
theorem runGenerationInner_cut {limit less : ℕ} (hle : less ≤ limit) {turnIds : List TokenId}
    {g g' : LlamaGraph X W F} {stats : GenerateStats} {out : Output}
    (h : (E.limited limit).runGenerationInner quiet calls turnIds g = (.ok (stats, out), g')) :
    ∃ stats₁ out₁ g₁,
      (E.limited less).runGenerationInner true calls turnIds g = (.ok (stats₁, out₁), g₁) ∧
        stats₁.turn.reply = stats.turn.reply.take less ∧
        stats₁.generatedTokens = min less stats.generatedTokens ∧
        (stats.generatedTokens ≤ less → stats₁ = stats ∧ g₁ = g') := by
  unfold runGenerationInner at h ⊢
  split at h
  · cases h
  rename_i hne
  rw [if_neg hne]
  split at h
  · cases h
  rename_i hroom
  rw [if_neg hroom]
  simp only [decodeLoopInner_limited] at h ⊢
  dsimp only [limited] at h ⊢
  split at h
  · cases h
  · cases h
  split at h
  · cases h
  · cases h
  split at h
  · cases h
  · cases h
  rename_i reply endToken out hloop
  cases h
  obtain ⟨endToken₁, out₁, g₁, hcut, hall⟩ := decodeLoopInner_take hle hloop
  obtain ⟨out₂, hsilent⟩ := decodeLoopInner_silent hcut .empty
  rw [List.length_nil, Nat.zero_add] at hsilent hall
  refine ⟨_, out₂, g₁, by rw [hsilent], rfl, List.length_take, fun hlen => ?_⟩
  obtain ⟨hend, -, hgraph⟩ := hall hlen
  refine ⟨?_, hgraph⟩
  rw [hend, List.take_of_length_le hlen]

/-! ## What a run leaves in the cache -/

/-- A loop that completes appends the tokens it adds to the reply. -/
theorem appends_of_decodeLoopInner {left : ℕ} {reply reply' recent : List TokenId}
    {nextToken endToken : TokenId} {out out' : Output} {rng : UInt64} {g g' : LlamaGraph X W F}
    (h : E.decodeLoopInner quiet calls left reply out nextToken recent rng g =
      (.ok (reply', endToken, out'), g')) :
    ∃ new, reply' = reply ++ new ∧ Appends g g' new := by
  induction left generalizing reply out nextToken recent rng g with
  | zero =>
    rw [decodeLoopInner_zero] at h
    cases h
    exact ⟨[], (List.append_nil _).symm, .of_kv_eq rfl⟩
  | succ left ih =>
    by_cases hstops : Stops nextToken g
    · rw [decodeLoopInner_of_stops hstops] at h
      cases h
      exact ⟨[], (List.append_nil _).symm, .of_kv_eq rfl⟩
    · obtain ⟨out₁, logits, g₁, token, rng₁, -, hdecode, -, hrest⟩ :=
        (decodeLoopInner_succ_eq_ok_iff hstops).mp h
      obtain ⟨new, hreply, hnew⟩ := ih hrest
      refine ⟨nextToken :: new, ?_, (appends_of_decodeOne_ok hdecode).trans hnew⟩
      rw [hreply, List.append_assoc, List.singleton_append]

/-- A run that completes appends its prompt and its reply. -/
theorem appends_of_runGenerationInner {turnIds : List TokenId} {g g' : LlamaGraph X W F}
    {stats : GenerateStats} {out : Output}
    (h : E.runGenerationInner quiet calls turnIds g = (.ok (stats, out), g')) :
    Appends g g' (turnIds ++ stats.turn.reply) := by
  unfold runGenerationInner at h
  split at h
  · cases h
  split at h
  · cases h
  split at h
  · cases h
  · cases h
  rename_i hprefill
  split at h
  · cases h
  · cases h
  split at h
  · cases h
  · cases h
  rename_i hloop
  cases h
  obtain ⟨new, hreply, hnew⟩ := appends_of_decodeLoopInner hloop
  rw [List.nil_append] at hreply
  rw [hreply]
  exact (appends_of_prefill_ok hprefill).trans hnew

/-! ## The text -/

/-- The texts of the first ids begin the text. -/
theorem streamed_take (T : Tokenizer) (ids : List TokenId) (n : ℕ) :
    ∃ rest, T.streamed ids = T.streamed (ids.take n) ++ rest := by
  have happend : ∀ (rest : List TokenId) (text : String), ∃ more,
      rest.foldl (fun text id => text ++ (T.decodeOne id).getD "") text = text ++ more := by
    intro rest text
    refine ⟨String.ofList (rest.flatMap fun id => ((T.decodeOne id).getD "").toList), ?_⟩
    rw [← String.toList_inj, Tokenizer.toList_foldl_append, String.toList_append,
      String.toList_ofList]
  rw [Tokenizer.streamed, Tokenizer.streamed]
  nth_rewrite 1 [← List.take_append_drop n ids]
  rw [List.foldl_append]
  exact happend _ _

/-- A captured run with a smaller limit returns the beginning of what a run prints, or captures,
that completes with the larger one. Behind what was cached before, the cache holds the prompt and
the tokens of that beginning. If the reply fits, it is the whole, with the same statistics and the
same cache. -/
theorem captured_is_beginning (E : Engine X W F) (quiet : Bool) (calls : TurnCalls X)
    (turnIds : List TokenId) {limit less : ℕ} (hle : less ≤ limit) {g g' : LlamaGraph X W F}
    {stats : GenerateStats} {out : Output}
    (h : (E.limited limit).runGenerationInner quiet calls turnIds g = (.ok (stats, out), g')) :
    ∃ stats₁ out₁ g₁,
      (E.limited less).runGenerationCaptured calls turnIds g = (.ok (stats₁, out₁), g₁) ∧
        stats₁.turn.reply = stats.turn.reply.take less ∧
        (∃ rest, out.shown quiet = out₁.text ++ rest) ∧
        g₁.kv.head = g.kv.head + turnIds.length + min less stats.generatedTokens ∧
        Appends g g₁ (turnIds ++ stats.turn.reply.take less) ∧
        (stats.generatedTokens ≤ less →
          stats₁ = stats ∧ out₁.text = out.shown quiet ∧ g₁ = g') := by
  obtain ⟨stats₁, out₁, g₁, hcut, hreply, hcount, hall⟩ := runGenerationInner_cut hle h
  have htext : out₁.text = E.tokenizer.streamed stats₁.turn.reply :=
    shown_runGenerationInner (E := E.limited less) hcut
  have hshown : out.shown quiet = E.tokenizer.streamed stats.turn.reply :=
    shown_runGenerationInner (E := E.limited limit) h
  have hhead := ((runGenerationInner_fits hcut).2 _ rfl).2.1
  have happends := appends_of_runGenerationInner hcut
  rw [hreply] at happends
  refine ⟨stats₁, out₁, g₁, hcut, hreply, ?_, by rw [hhead, hcount], happends, fun hlen => ?_⟩
  · rw [htext, hshown, hreply]
    exact streamed_take E.tokenizer stats.turn.reply less
  · obtain ⟨hstats, hgraph⟩ := hall hlen
    exact ⟨hstats, by rw [htext, hshown, hstats], hgraph⟩

/-- An engine that says Paris until it has no room. -/
def chattyParis : Engine Unit Unit Unit := { parisEngine with sample := chatter }

/-- Captured with a limit of two tokens, it says what it prints first with a limit of three. -/
theorem captured_is_beginning_paris : ∃ stats out stats₁ out₁ g₁,
    ((chattyParis.limited 3).runGenerationInner false sayHi.calls [0] unitGraph).1 =
        .ok (stats, out) ∧
      (chattyParis.limited 2).runGenerationCaptured sayHi.calls [0] unitGraph =
        (.ok (stats₁, out₁), g₁) ∧
      stats₁.turn.reply = stats.turn.reply.take 2 ∧ (∃ rest, out.written = out₁.text ++ rest) ∧
      Appends unitGraph g₁ ([0] ++ stats.turn.reply.take 2) := by
  have hcompletes : ∃ r, ((chattyParis.limited 3).runGenerationInner false sayHi.calls [0]
      unitGraph).1 = .ok r := ⟨_, rfl⟩
  obtain ⟨⟨stats, out⟩, hrun⟩ := hcompletes
  obtain ⟨stats₁, out₁, g₁, hcut, hreply, hrest, -, happends, -⟩ :=
    captured_is_beginning chattyParis false sayHi.calls [0] (by decide : 2 ≤ 3) (Prod.ext hrun rfl)
  exact ⟨stats, out, stats₁, out₁, g₁, hrun, hcut, hreply, hrest, happends⟩

end Engine

end QuantumFlow
