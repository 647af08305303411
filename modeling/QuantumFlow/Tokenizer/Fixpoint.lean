import QuantumFlow.Tokenizer.Fallback
import QuantumFlow.Tokenizer.ReferenceBpe

/-!
# Where the merge loop stops

The loop ends when no pair is ranked, and also when the best-ranked pair has no entry for its
text. In the second case another pair may still be mergeable. Whether that can happen to some
list is decided by the tables: a pair without an entry holds up every mergeable pair that is
not ranked before it and that can stand in one list with it.
-/

namespace QuantumFlow

namespace Tokenizer

variable (T : Tokenizer)

/-- A number of an entry. -/
def IsId (id : TokenId) : Prop := id.toNat < T.vocab.length

/-- The pair is in the merge table, and its text is that of an entry. -/
def Mergeable (a b : TokenId) : Prop := (T.mergeRank.get (a, b)).isSome ∧ (T.joinOf a b).isSome

/-- The merge loop returns a list without mergeable pairs. -/
def MergesToFixpoint (ids : List TokenId) : Prop :=
  ∃ out, T.bpeMerge ids = some out ∧ out.IsChain fun a b => ¬ T.Mergeable a b

/-- Ids of the vocabulary in a row, each pair of them related. -/
def Walk (R : TokenId → TokenId → Prop) : TokenId → TokenId → Prop :=
  Relation.ReflTransGen fun a b => T.IsId a ∧ T.IsId b ∧ R a b

/-- What keeps the loop from a mergeable pair `a b`: its rank is the one that never wins, or a
pair `x y` without an entry stands before it or behind it, and nothing on the way between them is
ranked before that pair. -/
inductive Blocked : Prop
  | unseen {a b : TokenId} (rank : T.mergeRank.get (a, b) = some 0xFFFFFFFF)
      (mergeable : T.Mergeable a b)
  | behind {x y a b : TokenId} {k : ℕ} (rank : T.rankOf x y = some k)
      (missing : T.joinOf x y = none) (walk : T.Walk (PairMerge.NotBelow T.rankOf k) y a)
      (later : PairMerge.NotBelow T.rankOf k a b) (mergeable : T.Mergeable a b)
  | before {x y a b : TokenId} {k : ℕ} (rank : T.rankOf x y = some k)
      (missing : T.joinOf x y = none) (walk : T.Walk (PairMerge.Above T.rankOf k) b x)
      (later : PairMerge.Above T.rankOf k a b) (mergeable : T.Mergeable a b)

variable {T}

/-! ## Ranks -/

theorem rankOf_eq_none_iff {a b : TokenId} :
    T.rankOf a b = none ↔ ∀ rank, T.mergeRank.get (a, b) = some rank → rank = 0xFFFFFFFF := by
  rw [rankOf, Option.map_eq_none_iff]
  cases T.mergeRank.get (a, b) with
  | none => simp
  | some rank =>
    have hle := rank.toNat_lt
    simp only [Option.filter_eq_none_iff, Option.some.injEq, decide_eq_true_eq, forall_eq']
    rw [UInt32.lt_iff_toNat_lt, ← UInt32.toNat_inj]
    change ¬ rank.toNat < 4294967295 ↔ rank.toNat = 4294967295
    omega

theorem isSome_get_of_rankOf {a b : TokenId} {k : ℕ} (h : T.rankOf a b = some k) :
    (T.mergeRank.get (a, b)).isSome := by
  obtain ⟨rank, hrank, -⟩ := Option.map_eq_some_iff.mp h
  rw [(Option.filter_eq_some_iff.mp hrank).1, Option.isSome_some]

/-- Only the maximal rank hides a mergeable pair. -/
theorem Mergeable.rankOf_isSome_or {a b : TokenId} (h : T.Mergeable a b) :
    (∃ k, T.rankOf a b = some k) ∨ T.mergeRank.get (a, b) = some 0xFFFFFFFF := by
  cases hrank : T.rankOf a b with
  | some k => exact Or.inl ⟨k, rfl⟩
  | none =>
    obtain ⟨rank, hget⟩ := Option.isSome_iff_exists.mp h.1
    exact Or.inr (rankOf_eq_none_iff.mp hrank rank hget ▸ hget)

/-! ## Along a list -/

theorem isChain_of_walk {S R : TokenId → TokenId → Prop} {y : TokenId} {r : List TokenId}
    (h : (y :: r).IsChain S) (hR : ∀ a b, Relation.ReflTransGen S y a → S a b → R a b) :
    (y :: r).IsChain R := by
  induction r generalizing y with
  | nil => exact List.isChain_singleton y
  | cons z r ih =>
    obtain ⟨hyz, hrest⟩ := List.isChain_cons_cons.mp h
    refine List.isChain_cons_cons.mpr ⟨hR y z .refl hyz, ih hrest fun a b hza hab => ?_⟩
    exact hR a b (.head hyz hza) hab

theorem reflTransGen_of_isChain {S : TokenId → TokenId → Prop} {b x : TokenId}
    {l : List TokenId} (h : (b :: (l ++ [x])).IsChain S) : Relation.ReflTransGen S b x := by
  induction l generalizing b with
  | nil =>
    obtain ⟨hbx, -⟩ := List.isChain_cons_cons.mp h
    exact .single hbx
  | cons c l ih =>
    obtain ⟨hbc, hrest⟩ := List.isChain_cons_cons.mp h
    exact .head hbc (ih hrest)

theorem isChain_of_walk_to {S R : TokenId → TokenId → Prop} {l : List TokenId} {x : TokenId}
    (h : (l ++ [x]).IsChain S) (hR : ∀ a b, S a b → Relation.ReflTransGen S b x → R a b) :
    (l ++ [x]).IsChain R := by
  induction l with
  | nil => exact List.isChain_singleton x
  | cons a l ih =>
    cases l with
    | nil =>
      obtain ⟨hax, -⟩ := List.isChain_cons_cons.mp h
      exact List.isChain_cons_cons.mpr ⟨hR a x hax .refl, List.isChain_singleton x⟩
    | cons b l =>
      obtain ⟨hab, hrest⟩ := List.isChain_cons_cons.mp h
      exact List.isChain_cons_cons.mpr
        ⟨hR a b hab (reflTransGen_of_isChain hrest), ih hrest⟩

/-! ## Stuck lists -/

/-- A list is stuck when one step of the merging does not change it. -/
abbrev step (T : Tokenizer) : List TokenId → Option (List TokenId) :=
  PairMerge.step T.rankOf T.joinOf

/-- Unless the tables block it, a stuck list has no mergeable pair. -/
theorem isChain_of_stuck (hblocked : ¬ T.Blocked) {ids : List TokenId}
    (hids : ∀ id ∈ ids, T.IsId id) (hstuck : T.step ids = none) :
    ids.IsChain fun a b => ¬ T.Mergeable a b := by
  rcases PairMerge.step_eq_none_iff.mp hstuck with
    hnone | ⟨l, x, y, r, k, rfl, hrank, hl, hr, hmissing⟩
  · refine hnone.imp fun a b hab hmergeable => ?_
    rcases hmergeable.rankOf_isSome_or with ⟨k, hk⟩ | hmax
    · rw [hab] at hk
      cases hk
    · exact hblocked (.unseen hmax hmergeable)
  · refine List.isChain_append_cons_cons.mpr ⟨?_, ?_, ?_⟩
    · have hwalk := hl.imp_of_mem_imp (S := fun a b => T.IsId a ∧ T.IsId b ∧
          PairMerge.Above T.rankOf k a b) fun a b ha hb hab =>
        ⟨hids a (by grind), hids b (by grind), hab⟩
      exact isChain_of_walk_to hwalk fun a b hab hwalk hmergeable =>
        hblocked (.before hrank hmissing hwalk hab.2.2 hmergeable)
    · rintro ⟨-, hjoin⟩
      rw [hmissing] at hjoin
      cases hjoin
    · have hwalk := hr.imp_of_mem_imp (S := fun a b => T.IsId a ∧ T.IsId b ∧
          PairMerge.NotBelow T.rankOf k a b) fun a b ha hb hab =>
        ⟨hids a (by grind), hids b (by grind), hab⟩
      exact isChain_of_walk hwalk fun a b hwalk hab hmergeable =>
        hblocked (.behind hrank hmissing hwalk hab.2.2 hmergeable)

/-- The ids of a walk, in a row. -/
theorem Walk.exists_isChain {R : TokenId → TokenId → Prop} {y a : TokenId} (h : T.Walk R y a)
    (ha : T.IsId a) : ∃ l r, l ++ [a] = y :: r ∧ (∀ id ∈ y :: r, T.IsId id) ∧
      (y :: r).IsChain R := by
  induction h using Relation.ReflTransGen.head_induction_on with
  | refl => exact ⟨[], [], rfl, by simpa using ha, List.isChain_singleton a⟩
  | @head y z hyz _ ih =>
    obtain ⟨l, r, hl, hids, hchain⟩ := ih
    refine ⟨y :: l, z :: r, by rw [List.cons_append, hl], ?_, ?_⟩
    · exact List.forall_mem_cons.mpr ⟨hyz.1, hids⟩
    · exact List.isChain_cons_cons.mpr ⟨hyz.2.2, hchain⟩

/-- What blocks a mergeable pair makes a stuck list that contains it. -/
theorem exists_stuck_of_blocked (hblocked : T.Blocked)
    (hid : ∀ a b, (T.mergeRank.get (a, b)).isSome → T.IsId a ∧ T.IsId b) :
    ∃ ids, (∀ id ∈ ids, T.IsId id) ∧ T.step ids = none ∧
      ¬ ids.IsChain fun a b => ¬ T.Mergeable a b := by
  cases hblocked with
  | @unseen a b hmax hmergeable =>
    obtain ⟨ha, hb⟩ := hid a b hmergeable.1
    have hrank : T.rankOf a b = none := by
      rw [rankOf_eq_none_iff, hmax]
      rintro rank ⟨⟩
      rfl
    refine ⟨[a, b], by simp [ha, hb], PairMerge.step_eq_none_iff.mpr (Or.inl ?_), ?_⟩
    · simpa using hrank
    · simpa using hmergeable
  | @behind x y a b k hrank hmissing hwalk hlater hmergeable =>
    obtain ⟨hx, hy⟩ := hid x y (isSome_get_of_rankOf hrank)
    obtain ⟨ha, hb⟩ := hid a b hmergeable.1
    obtain ⟨l, r, hl, hids, hchain⟩ := hwalk.exists_isChain ha
    have hrow : y :: (r ++ [b]) = l ++ a :: b :: [] := by
      rw [← List.cons_append, ← hl, List.append_assoc]
      rfl
    refine ⟨x :: y :: (r ++ [b]), ?_, PairMerge.step_eq_none_iff.mpr (Or.inr ?_), ?_⟩
    · intro id hmem
      have hmem' : id = x ∨ id ∈ y :: r ∨ id = b := by simpa [or_assoc] using hmem
      rcases hmem' with rfl | hmem' | rfl
      · exact hx
      · exact hids id hmem'
      · exact hb
    · refine ⟨[], x, y, r ++ [b], k, rfl, hrank, List.isChain_singleton x, ?_, hmissing⟩
      rw [hrow, List.isChain_append_cons_cons, hl]
      exact ⟨hchain, hlater, List.isChain_singleton b⟩
    · intro hall
      have htail := (List.isChain_cons_cons.mp hall).2
      rw [hrow, List.isChain_append_cons_cons] at htail
      exact htail.2.1 hmergeable
  | @before x y a b k hrank hmissing hwalk hlater hmergeable =>
    obtain ⟨hx, hy⟩ := hid x y (isSome_get_of_rankOf hrank)
    obtain ⟨ha, hb⟩ := hid a b hmergeable.1
    obtain ⟨l, r, hl, hids, hchain⟩ := hwalk.exists_isChain hx
    have hrow : (a :: l) ++ [x] = a :: b :: r := by rw [List.cons_append, hl]
    refine ⟨(a :: l) ++ x :: y :: [], ?_, PairMerge.step_eq_none_iff.mpr (Or.inr ?_), ?_⟩
    · intro id hmem
      have hmem' : id ∈ (a :: l) ++ [x] ∨ id = y := by
        rw [List.append_cons, List.mem_append] at hmem
        simpa using hmem
      rw [hrow] at hmem'
      rcases hmem' with hmem' | rfl
      · exact List.forall_mem_cons.mpr ⟨ha, hids⟩ id hmem'
      · exact hy
    · refine ⟨a :: l, x, y, [], k, rfl, hrank, ?_, List.isChain_singleton y, hmissing⟩
      rw [hrow, List.isChain_cons_cons]
      exact ⟨hlater, hchain⟩
    · intro hall
      have hfront := (List.isChain_append_cons_cons.mp hall).1
      rw [hrow, List.isChain_cons_cons] at hfront
      exact hfront.1 hmergeable

end Tokenizer

/-! ## Built tokenizers -/

section Built

variable {tokens : List String} {scores types : List UInt32} {merges : List String}
  {T : Tokenizer}

theorem BuiltFrom.isId_of_get (built : BuiltFrom tokens scores types merges T) {t : List UInt8}
    {id : TokenId} (h : T.tokenToId.get t = some id) : T.IsId id :=
  built.toNat_lt_vocab_of_get h

/-- The merge table is about ids of the vocabulary. -/
theorem BuiltFrom.isId_of_merge (built : BuiltFrom tokens scores types merges T) (a b : TokenId)
    (h : (T.mergeRank.get (a, b)).isSome) : T.IsId a ∧ T.IsId b := by
  obtain ⟨rank, hget⟩ := Option.isSome_iff_exists.mp h
  rw [built.mergeRank, buildMergeRank] at hget
  obtain ⟨entry, hentry, hsome⟩ := List.mem_filterMap.mp (Dict.mem_of_get_insertAll hget)
  obtain ⟨i, hi, rfl⟩ := List.mem_mapIdx.mp hentry
  obtain ⟨_, _, -, hlid, hrid, -⟩ := mergeEntry_eq_some_iff.mp hsome
  rw [← built.tokenToId] at hlid hrid
  exact ⟨built.isId_of_get hlid, built.isId_of_get hrid⟩

/-- On ids of the vocabulary the loop returns, with a stuck list of ids of the vocabulary. -/
theorem BuiltFrom.bpeMerge_eq (built : BuiltFrom tokens scores types merges T)
    {ids : List TokenId} (hids : ∀ id ∈ ids, T.IsId id) :
    T.bpeMerge ids = some (PairMerge.normalize T.rankOf T.joinOf ids) ∧
      ∀ id ∈ PairMerge.normalize T.rankOf T.joinOf ids, T.IsId id := by
  have htext : ∀ id, T.IsId id → (T.textOf id).isSome := by
    intro id hid
    have hlt : id.toNat < T.vocab.length := hid
    simp [Tokenizer.textOf, hlt]
  constructor
  · obtain ⟨out, hout⟩ := Option.isSome_iff_exists.mp (Tokenizer.isSome_bpeMerge
      (fun t id hget => htext id (built.isId_of_get hget)) fun id hid => htext id (hids id hid))
    rw [hout, Tokenizer.eq_normalize_of_bpeMerge hout]
  · refine PairMerge.forall_mem_normalizeFrom ?_ _ hids
    intro a b c k _ hjoin
    obtain ⟨left, -, hjoin⟩ := Option.bind_eq_some_iff.mp hjoin
    obtain ⟨right, -, hjoin⟩ := Option.bind_eq_some_iff.mp hjoin
    exact built.isId_of_get hjoin

/-- For one list, the loop stops at a fixpoint exactly if no list that it comes to is stuck with
a mergeable pair. -/
theorem BuiltFrom.mergesToFixpoint_iff_stuck (built : BuiltFrom tokens scores types merges T)
    {ids : List TokenId} (hids : ∀ id ∈ ids, T.IsId id) :
    T.MergesToFixpoint ids ↔ ∀ zs, PairMerge.Reduces T.rankOf T.joinOf ids zs →
      T.step zs = none → zs.IsChain fun a b => ¬ T.Mergeable a b := by
  obtain ⟨hmerge, -⟩ := built.bpeMerge_eq hids
  constructor
  · rintro ⟨out, hout, hchain⟩ zs hzs hstuck
    rw [hmerge] at hout
    cases hout
    rwa [PairMerge.normalize_of_reduces hzs, PairMerge.normalize_of_step_eq_none hstuck] at hchain
  · intro h
    exact ⟨_, hmerge, h _ (PairMerge.reduces_normalizeFrom _ ids) (PairMerge.step_normalize ids)⟩

/-! ## What blocks -/

/-- Fewer than `2 ^ 32` merges with an entry for each of them block nothing. -/
theorem BuiltFrom.not_blocked (built : BuiltFrom tokens scores types merges T)
    (hsize : merges.length < 2 ^ 32)
    (hjoins : ∀ a b, (T.mergeRank.get (a, b)).isSome → (T.joinOf a b).isSome) : ¬ T.Blocked := by
  rintro (⟨hmax, -⟩ | ⟨hrank, hmissing, -, -, -⟩ | ⟨hrank, hmissing, -, -, -⟩)
  · rw [built.mergeRank, buildMergeRank] at hmax
    obtain ⟨entry, hentry, hsome⟩ := List.mem_filterMap.mp (Dict.mem_of_get_insertAll hmax)
    obtain ⟨i, hi, rfl⟩ := List.mem_mapIdx.mp hentry
    obtain ⟨_, _, -, -, -, hmerge⟩ := mergeEntry_eq_some_iff.mp hsome
    have hnat := congrArg UInt32.toNat hmerge
    rw [UInt32.toNat_ofNat_of_lt' (Nat.lt_trans hi hsize)] at hnat
    change 4294967295 = i at hnat
    omega
  · have hjoin := hjoins _ _ (Tokenizer.isSome_get_of_rankOf hrank)
    rw [hmissing] at hjoin
    cases hjoin
  · have hjoin := hjoins _ _ (Tokenizer.isSome_get_of_rankOf hrank)
    rw [hmissing] at hjoin
    cases hjoin

/-- With an entry that no merge mentions, any two pairs can stand in one list: a pair without an
entry blocks every mergeable pair that is not ranked before it. -/
theorem BuiltFrom.blocked_iff_of_free (built : BuiltFrom tokens scores types merges T)
    {sep : TokenId} (hsep : T.IsId sep)
    (hfree : ∀ a, T.rankOf a sep = none ∧ T.rankOf sep a = none) :
    T.Blocked ↔ (∃ a b, T.mergeRank.get (a, b) = some 0xFFFFFFFF ∧ T.Mergeable a b) ∨
      ∃ x y a b k, T.rankOf x y = some k ∧ T.joinOf x y = none ∧
        PairMerge.NotBelow T.rankOf k a b ∧ T.Mergeable a b := by
  constructor
  · rintro (⟨hmax, hmergeable⟩ | ⟨hrank, hmissing, -, hlater, hmergeable⟩ |
        ⟨hrank, hmissing, -, hlater, hmergeable⟩)
    · exact Or.inl ⟨_, _, hmax, hmergeable⟩
    · exact Or.inr ⟨_, _, _, _, _, hrank, hmissing, hlater, hmergeable⟩
    · exact Or.inr ⟨_, _, _, _, _, hrank, hmissing,
        fun k hk => Nat.le_of_lt (hlater k hk), hmergeable⟩
  · rintro (⟨a, b, hmax, hmergeable⟩ | ⟨x, y, a, b, k, hrank, hmissing, hlater, hmergeable⟩)
    · exact .unseen hmax hmergeable
    · have hy := (built.isId_of_merge x y (Tokenizer.isSome_get_of_rankOf hrank)).2
      have ha := (built.isId_of_merge a b hmergeable.1).1
      have hto : PairMerge.NotBelow T.rankOf k y sep := by simp [PairMerge.NotBelow, hfree]
      have hfrom : PairMerge.NotBelow T.rankOf k sep a := by simp [PairMerge.NotBelow, hfree]
      refine .behind hrank hmissing ?_ hlater hmergeable
      exact .head ⟨hy, hsep, hto⟩ (.single ⟨hsep, ha, hfrom⟩)

/-! ## Exactly when the loop stops at a fixpoint -/

/-- On one list the loop stops at a fixpoint exactly if it does not get stuck with a mergeable
pair; on every list it does exactly if nothing in the tables blocks a mergeable pair, which with an
entry that no merge mentions is a matter of two pairs. -/
theorem mergesToFixpoint_iff (h : fromGgufParts tokens scores types merges = .ok T) :
    (∀ ids, (∀ id ∈ ids, T.IsId id) → (T.MergesToFixpoint ids ↔
      ∀ zs, PairMerge.Reduces T.rankOf T.joinOf ids zs → T.step zs = none →
        zs.IsChain fun a b => ¬ T.Mergeable a b)) ∧
    ((∀ ids, (∀ id ∈ ids, T.IsId id) → T.MergesToFixpoint ids) ↔ ¬ T.Blocked) ∧
    ∀ sep, T.IsId sep → (∀ a, T.rankOf a sep = none ∧ T.rankOf sep a = none) →
      (T.Blocked ↔ (∃ a b, T.mergeRank.get (a, b) = some 0xFFFFFFFF ∧ T.Mergeable a b) ∨
        ∃ x y a b k, T.rankOf x y = some k ∧ T.joinOf x y = none ∧
          PairMerge.NotBelow T.rankOf k a b ∧ T.Mergeable a b) := by
  have built := builtFrom_of_eq_ok h
  refine ⟨fun ids hids => built.mergesToFixpoint_iff_stuck hids, ?_,
    fun sep hsep hfree => built.blocked_iff_of_free hsep hfree⟩
  constructor
  · intro hall hblocked
    obtain ⟨ids, hids, hstuck, hmergeable⟩ :=
      Tokenizer.exists_stuck_of_blocked hblocked built.isId_of_merge
    exact hmergeable
      ((built.mergesToFixpoint_iff_stuck hids).mp (hall ids hids) ids .refl hstuck)
  · intro hblocked ids hids
    obtain ⟨hmerge, hout⟩ := built.bpeMerge_eq hids
    exact ⟨_, hmerge,
      Tokenizer.isChain_of_stuck hblocked hout (PairMerge.step_normalize ids)⟩

/-- With an entry for its one merge, every list is merged as far as it goes. -/
theorem mergesToFixpoint_iff_letters :
    ∃ T, fromGgufParts ["a", "b", "ab"] [] [] ["a b"] = .ok T ∧
      ∀ ids, (∀ id ∈ ids, T.IsId id) → T.MergesToFixpoint ids := by
  obtain ⟨T, hT, hjoin⟩ : ∃ T, fromGgufParts ["a", "b", "ab"] [] [] ["a b"] = .ok T ∧
      (T.joinOf 0 1).isSome := ⟨_, rfl, by decide +kernel⟩
  have built := builtFrom_of_eq_ok hT
  refine ⟨T, hT, (mergesToFixpoint_iff hT).2.1.mpr (built.not_blocked (by decide) ?_)⟩
  intro a b hranked
  have hentries : (["a b"].mapIdx (mergeEntry (buildTokenToId ["a", "b", "ab"]))).filterMap id =
      [((0, 1), 0)] := by decide +kernel
  obtain ⟨rank, hget⟩ := Option.isSome_iff_exists.mp hranked
  rw [built.mergeRank, buildMergeRank, hentries] at hget
  cases List.mem_singleton.mp (Dict.mem_of_get_insertAll hget)
  exact hjoin

/-- The first merge has no entry, and the loop stops before the second one. -/
theorem not_mergesToFixpoint :
    ¬ ∀ (tokens : List String) (scores types : List UInt32) (merges : List String) (T : Tokenizer),
      fromGgufParts tokens scores types merges = .ok T →
      ∀ ids, (∀ id ∈ ids, T.IsId id) → T.MergesToFixpoint ids := by
  intro h
  obtain ⟨T, hT, hids, hmerge, hranked, hjoin⟩ : ∃ T,
      fromGgufParts ["a", "b", "c", "bc"] [] [] ["a b", "b c"] = .ok T ∧ T.vocab.length = 4 ∧
        T.bpeMerge [0, 1, 2] = some [0, 1, 2] ∧ (T.mergeRank.get (1, 2)).isSome ∧
        (T.joinOf 1 2).isSome :=
    ⟨_, rfl, rfl, by decide +kernel, by decide +kernel, by decide +kernel⟩
  have hid : ∀ id ∈ [0, 1, 2], T.IsId id := by
    intro id hid
    rw [Tokenizer.IsId, hids]
    simp only [List.mem_cons, List.not_mem_nil, or_false] at hid
    rcases hid with rfl | rfl | rfl <;> decide
  obtain ⟨out, hout, hchain⟩ := h _ _ _ _ T hT [0, 1, 2] hid
  rw [hmerge] at hout
  cases hout
  simp only [List.isChain_cons_cons] at hchain
  exact hchain.2.1 ⟨hranked, hjoin⟩

end Built

end QuantumFlow
