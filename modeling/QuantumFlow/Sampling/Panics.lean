import QuantumFlow.Sampling.Penalty

/-!
# When sampling panics

An accepted configuration may still ask for the first 0 candidates, whose last index does not
exist. And logits that are not numbers compare equal to everything, so the comparison that
selects and sorts the candidates may be inconsistent, in which case the library may panic.
Nothing else fails: there is always a candidate, and its index is below the number of logits.
-/

namespace QuantumFlow

variable {F V : Type}

/-- Floats have values in order, except those that are not numbers, which compare false. -/
def FloatOps.Compares [LinearOrder V] (ops : FloatOps F) (value : F → Option V) : Prop :=
  ∀ a b, ops.le a b = true ↔ ∃ x y, value a = some x ∧ value b = some y ∧ x ≤ y

/-- The library sorts by inconsistent comparisons as well, in whatever order. -/
structure SliceOps.NeverPanics {α : Type} (S : SliceOps α) : Prop where
  selectNth : ∀ cmp n xs, n < xs.length → ∃ ys, S.selectNth cmp n xs = some ys
  sortUnstable : ∀ cmp xs, ∃ ys, S.sortUnstable cmp xs = some ys

/-- Sampling returns the index of a logit, and the next random state. -/
def Samples (ops : FloatOps F) (slices : SliceOps ℕ) (cfg : SamplingConfig F) (logits : List F)
    (recent : List TokenId) (rng : UInt64) : Prop :=
  ∃ id, sampleToken ops slices cfg logits recent rng = .ok (id, xorshift64 rng) ∧
    id.toNat < logits.length

variable {ops : FloatOps F}

/-! ## The comparison of logits -/

theorem partialCmp_swap (a b : F) :
    ops.partialCmp b a = (ops.partialCmp a b).map Ordering.swap := by
  unfold FloatOps.partialCmp
  cases ops.le a b <;> cases ops.le b a <;> rfl

theorem descending_swap (logits : List F) (a b : ℕ) :
    descending ops logits b a = (descending ops logits a b).swap := by
  rw [descending, descending, partialCmp_swap]
  cases ops.partialCmp (logits.getD b ops.zero) (logits.getD a ops.zero) <;> rfl

section Values

variable [LinearOrder V] {value : F → Option V}

theorem FloatOps.Compares.le_of_some (h : ops.Compares value) {a b : F} {x y : V}
    (ha : value a = some x) (hb : value b = some y) : ops.le a b = decide (x ≤ y) := by
  rw [Bool.eq_iff_iff, h, decide_eq_true_iff]
  constructor
  · rintro ⟨x', y', ha', hb', hle⟩
    rw [ha] at ha'
    rw [hb] at hb'
    cases ha'
    cases hb'
    exact hle
  · exact fun hle => ⟨x, y, ha, hb, hle⟩

theorem FloatOps.Compares.le_of_none (h : ops.Compares value) {a b : F}
    (hnone : value a = none ∨ value b = none) : ops.le a b = false := by
  rw [Bool.eq_false_iff]
  intro hle
  obtain ⟨x, y, ha, hb, -⟩ := (h a b).mp hle
  rcases hnone with hnone | hnone
  · rw [ha] at hnone
    cases hnone
  · rw [hb] at hnone
    cases hnone

theorem partialCmp_eq_gt_iff (h : ops.Compares value) (a b : F) :
    (ops.partialCmp a b).getD .eq = .gt ↔
      ∃ x y, value b = some x ∧ value a = some y ∧ x < y := by
  rw [FloatOps.partialCmp]
  cases ha : value a with
  | none => simp [h.le_of_none (Or.inl ha), h.le_of_none (Or.inr ha)]
  | some y =>
    cases hb : value b with
    | none => simp [h.le_of_none (Or.inl hb), h.le_of_none (Or.inr hb)]
    | some x =>
      rw [h.le_of_some ha hb, h.le_of_some hb ha]
      rcases lt_trichotomy x y with hlt | rfl | hgt
      · simp [hlt, hlt.le, not_le.mpr hlt]
      · simp
      · simp [hgt.le, not_le.mpr hgt, not_lt.mpr hgt.le]

/-- A logit is behind another one exactly if both are numbers and it is smaller. -/
theorem descending_eq_gt_iff (h : ops.Compares value) (logits : List F) (a b : ℕ) :
    descending ops logits a b = .gt ↔ ∃ x y, value (logits.getD a ops.zero) = some x ∧
      value (logits.getD b ops.zero) = some y ∧ x < y :=
  partialCmp_eq_gt_iff h _ _

/-- Among the logits there is nothing that is not a number, or all numbers are the same. -/
def Comparable (value : F → Option V) (logits : List F) : Prop :=
  (∀ l ∈ logits, value l ≠ none) ∨
    ∀ l ∈ logits, ∀ l' ∈ logits, ∀ x y, value l = some x → value l' = some y → x = y

theorem getD_mem {logits : List F} {i : ℕ} (hi : i ∈ List.range logits.length) (d : F) :
    logits.getD i d ∈ logits := by
  have hlt := List.mem_range.mp hi
  rw [List.getD_eq_getElem?_getD, List.getElem?_eq_getElem hlt, Option.getD_some]
  exact List.getElem_mem hlt

theorem exists_index_of_mem {logits : List F} {l : F} (hl : l ∈ logits) (d : F) :
    ∃ i ∈ List.range logits.length, logits.getD i d = l := by
  obtain ⟨i, hi, rfl⟩ := List.mem_iff_getElem.mp hl
  refine ⟨i, List.mem_range.mpr hi, ?_⟩
  rw [List.getD_eq_getElem?_getD, List.getElem?_eq_getElem hi, Option.getD_some]

/-- The comparison of the logits is consistent exactly if they are comparable. -/
theorem consistent_descending_iff (h : ops.Compares value) (logits : List F) :
    Consistent (descending ops logits) (List.range logits.length) ↔ Comparable value logits := by
  constructor
  · intro hcons
    refine or_iff_not_imp_left.mpr fun hnan => ?_
    push Not at hnan
    obtain ⟨nan, hmem, hnan⟩ := hnan
    obtain ⟨k, hk, hkth⟩ := exists_index_of_mem hmem ops.zero
    -- what is not a number is neither before nor behind anything
    have hnot : ∀ i ∈ List.range logits.length, ∀ j ∈ List.range logits.length,
        descending ops logits i j ≠ .gt := by
      intro i hi j hj
      refine hcons.trans i hi k hk j hj ?_ ?_ <;>
        rw [Ne, descending_eq_gt_iff h, hkth, hnan] <;> simp
    intro l hl l' hl' x y hx hy
    obtain ⟨i, hi, rfl⟩ := exists_index_of_mem hl ops.zero
    obtain ⟨j, hj, rfl⟩ := exists_index_of_mem hl' ops.zero
    rcases lt_trichotomy x y with hlt | heq | hgt
    · exact absurd ((descending_eq_gt_iff h logits i j).mpr ⟨x, y, hx, hy, hlt⟩) (hnot i hi j hj)
    · exact heq
    · exact absurd ((descending_eq_gt_iff h logits j i).mpr ⟨y, x, hy, hx, hgt⟩) (hnot j hj i hi)
  · intro hcomparable
    refine ⟨fun a _ b _ => descending_swap logits a b, fun a ha b hb c hc hab hbc hac => ?_⟩
    obtain ⟨x, z, hx, hz, hlt⟩ := (descending_eq_gt_iff h logits a c).mp hac
    rcases hcomparable with hnumbers | hequal
    · obtain ⟨y, hy⟩ := Option.ne_none_iff_exists'.mp (hnumbers _ (getD_mem hb ops.zero))
      rcases lt_or_ge x y with hxy | hyx
      · exact hab ((descending_eq_gt_iff h logits a b).mpr ⟨x, y, hx, hy, hxy⟩)
      · exact hbc ((descending_eq_gt_iff h logits b c).mpr ⟨y, z, hy, hz, hyx.trans_lt hlt⟩)
    · exact hlt.ne (hequal _ (getD_mem ha ops.zero) _ (getD_mem hc ops.zero) x z hx hz)

end Values

/-! ## Behind the candidates -/

theorem pickFrom_mem {threshold cum : F} {pairs : List (ℕ × F)} {idx : ℕ}
    (h : pickFrom ops threshold cum pairs = some idx) : idx ∈ pairs.map Prod.fst := by
  induction pairs generalizing cum with
  | nil => cases h
  | cons pair pairs ih =>
    simp only [pickFrom] at h
    split at h
    · cases h
      exact List.mem_cons_self
    · exact List.mem_cons_of_mem _ (ih h)

theorem cutoffFrom_pos {topP cum : F} {exps : List F} {n : ℕ}
    (h : cutoffFrom ops topP cum exps = some n) : 0 < n := by
  cases exps with
  | nil => cases h
  | cons p exps =>
    simp only [cutoffFrom] at h
    split at h
    · cases h
      exact Nat.one_pos
    · obtain ⟨m, -, rfl⟩ := Option.map_eq_some_iff.mp h
      exact Nat.succ_pos m

theorem cutoff_pos (topP : F) {exps : List F} (hne : exps ≠ []) : 0 < cutoff ops topP exps := by
  rw [cutoff]
  cases hcut : cutoffFrom ops topP ops.zero exps with
  | none => exact List.length_pos_iff.mpr hne
  | some n => exact cutoffFrom_pos hcut

section Accepted

variable {slices : SliceOps ℕ} {cfg : SamplingConfig F} {logits : List F} {recent : List TokenId}
  {rng : UInt64}

theorem sampleAt_of_accepted (hcfg : cfg.validate ops = .ok ()) (hne : logits ≠ [])
    (threshold : F) : sampleAt ops slices cfg logits recent threshold =
      draw ops slices cfg (scaledLogits ops cfg logits recent) threshold := by
  have hempty : logits.isEmpty = false := List.isEmpty_eq_false_iff.mpr hne
  rw [sampleAt, hcfg, Outcome.ok_bind, hempty]
  rfl

/-- Once there are candidates, one of them is drawn. -/
theorem exists_draw_eq_ok {indices : List ℕ}
    (htop : topIndices ops slices cfg.topK logits = some indices) (hindices : indices ≠ [])
    (threshold : F) :
    ∃ idx ∈ indices, draw ops slices cfg logits threshold = .ok (UInt32.ofNat idx) := by
  obtain ⟨top, rest, rfl⟩ := List.exists_cons_of_ne_nil hindices
  obtain ⟨exps, hexps, hlen⟩ : ∃ exps, softmax ops logits (top :: rest) = some exps ∧
      exps.length = rest.length + 1 :=
    ⟨_, rfl, by rw [FloatOps.length_normalise, List.length_map, List.length_cons]⟩
  have hcut : 0 < cutoff ops cfg.topP exps :=
    cutoff_pos cfg.topP (List.ne_nil_of_length_eq_add_one hlen)
  obtain ⟨n, hn⟩ := Nat.exists_eq_succ_of_ne_zero (Nat.ne_of_gt hcut)
  rw [draw, htop]
  simp only [orPanic, Outcome.ok_bind, hexps]
  generalize hpick : pickFrom ops threshold ops.zero (((top :: rest).take
    (cutoff ops cfg.topP exps)).zip (ops.normalise (exps.take (cutoff ops cfg.topP exps)))) = pick
  cases pick with
  | none => exact ⟨top, List.mem_cons_self, by rw [hn]; rfl⟩
  | some idx =>
    refine ⟨idx, ?_, rfl⟩
    obtain ⟨⟨i, p⟩, hmem, rfl⟩ := List.mem_map.mp (pickFrom_mem hpick)
    exact List.mem_of_mem_take (List.of_mem_zip hmem).1

/-! ## The candidates -/

/-- What is selected and sorted are indices of logits, and as many as asked for. -/
theorem topIndices_eq_some (hS : slices.Lawful) {topK : Option ℕ} {logits : List F}
    {indices : List ℕ} (h : topIndices ops slices topK logits = some indices) :
    indices ≠ [] ∧ ∀ idx ∈ indices, idx < logits.length := by
  rw [topIndices] at h
  split at h
  · cases h
  · rename_i hk
    obtain ⟨zs, hselect, hsort⟩ := Option.bind_eq_some_iff.mp h
    have hzs := hS.selectNth_perm hselect
    have hperm := hS.sortUnstable_perm hsort
    have hlen := hperm.length_eq
    rw [List.length_take, hzs.length_eq, List.length_range] at hlen
    refine ⟨?_, fun idx hidx => ?_⟩
    · rintro rfl
      simp only [List.length_nil] at hlen
      omega
    · exact List.mem_range.mp (hzs.subset (List.mem_of_mem_take (hperm.subset hidx)))

/-- Sampling succeeds exactly if there are candidates. -/
theorem samples_iff (hS : slices.Lawful) (hcfg : cfg.validate ops = .ok ()) (hne : logits ≠ []) :
    Samples ops slices cfg logits recent rng ↔
      ∃ indices, topIndices ops slices cfg.topK (scaledLogits ops cfg logits recent) =
        some indices := by
  constructor
  · rintro ⟨id, hid, -⟩
    by_contra hnone
    push Not at hnone
    have htop : topIndices ops slices cfg.topK (scaledLogits ops cfg logits recent) = none :=
      Option.eq_none_iff_forall_ne_some.mpr hnone
    rw [sampleToken, sampleAt_of_accepted hcfg hne, draw, htop] at hid
    cases hid
  · rintro ⟨indices, htop⟩
    obtain ⟨hindices, hlt⟩ := topIndices_eq_some hS htop
    obtain ⟨idx, hidx, hdraw⟩ :=
      exists_draw_eq_ok htop hindices (threshold ops (xorshift64 rng))
    refine ⟨UInt32.ofNat idx, ?_, ?_⟩
    · rw [sampleToken, sampleAt_of_accepted hcfg hne, hdraw]
      rfl
    · have hidx' := hlt idx hidx
      rw [length_scaledLogits] at hidx'
      rw [UInt32.toNat_ofNat']
      exact Nat.lt_of_le_of_lt (Nat.mod_le _ _) hidx'

theorem topIndices_zero (slices : SliceOps ℕ) (logits : List F) :
    topIndices ops slices (some 0) logits = none := by
  simp [topIndices]

/-- The number of candidates, when there are any. -/
theorem candidates_pos {topK : Option ℕ} (htop : topK ≠ some 0) (hne : logits ≠ []) :
    0 < min (topK.getD logits.length) logits.length := by
  have hlen := List.length_pos_iff.mpr hne
  cases topK with
  | none => simpa using hlen
  | some k =>
    have hk : k ≠ 0 := fun h => htop (congrArg some h)
    rw [Option.getD_some]
    omega

/-- A consistent comparison finds candidates: the first ones in descending order. -/
theorem exists_topIndices (hS : slices.Lawful) {topK : Option ℕ} (htop : topK ≠ some 0)
    (hne : logits ≠ [])
    (hcmp : Consistent (descending ops logits) (List.range logits.length)) :
    ∃ indices, topIndices ops slices topK logits = some indices ∧
      FirstInOrder (descending ops logits) (min (topK.getD logits.length) logits.length)
        (List.range logits.length) indices := by
  have hpos := candidates_pos htop hne
  obtain ⟨zs, ys, hselect, hsort, hfirst⟩ := hS.exists_firstInOrder hcmp hpos
    (by rw [List.length_range]; exact Nat.min_le_right _ _)
  refine ⟨ys, ?_, hfirst⟩
  rw [topIndices, if_neg (Nat.ne_of_gt hpos), hselect]
  exact hsort

/-- A library that never panics finds candidates by any comparison. -/
theorem exists_topIndices_of_neverPanics (hS : slices.NeverPanics) {topK : Option ℕ}
    (htop : topK ≠ some 0) (hne : logits ≠ []) :
    ∃ indices, topIndices ops slices topK logits = some indices := by
  have hpos := candidates_pos htop hne
  obtain ⟨zs, hselect⟩ := hS.selectNth (descending ops logits)
    (min (topK.getD logits.length) logits.length - 1) (List.range logits.length)
    (by rw [List.length_range]; omega)
  obtain ⟨ys, hsort⟩ := hS.sortUnstable (descending ops logits)
    (zs.take (min (topK.getD logits.length) logits.length))
  refine ⟨ys, ?_⟩
  rw [topIndices, if_neg (Nat.ne_of_gt hpos), hselect]
  exact hsort

/-- An accepted configuration samples, however the library behaves within its documentation,
exactly if it does not ask for 0 candidates and the scaled logits are comparable; if the library
does not panic at inconsistent comparisons, only the former matters. -/
theorem alwaysSamples_iff [LinearOrder V] {value : F → Option V} (hops : ops.Compares value)
    (hcfg : cfg.validate ops = .ok ()) (hne : logits ≠ []) :
    ((∀ slices : SliceOps ℕ, slices.Lawful → Samples ops slices cfg logits recent rng) ↔
      cfg.topK ≠ some 0 ∧ Comparable value (scaledLogits ops cfg logits recent)) ∧
    ∀ slices : SliceOps ℕ, slices.Lawful → slices.NeverPanics →
      (Samples ops slices cfg logits recent rng ↔ cfg.topK ≠ some 0) := by
  have hne' : scaledLogits ops cfg logits recent ≠ [] := by
    rwa [← List.length_pos_iff, length_scaledLogits, List.length_pos_iff]
  have hzero : ∀ slices : SliceOps ℕ, slices.Lawful →
      Samples ops slices cfg logits recent rng → cfg.topK ≠ some 0 := by
    intro slices hS hsamples htop
    obtain ⟨indices, hindices⟩ := (samples_iff hS hcfg hne).mp hsamples
    rw [htop, topIndices_zero] at hindices
    cases hindices
  refine ⟨⟨fun hall => ?_, fun ⟨htop, hcomparable⟩ slices hS => ?_⟩, fun slices hS hnever => ?_⟩
  · have hstrict := hall strictOps lawful_strictOps
    refine ⟨hzero _ lawful_strictOps hstrict, ?_⟩
    rw [← consistent_descending_iff hops]
    obtain ⟨indices, hindices⟩ := (samples_iff lawful_strictOps hcfg hne).mp hstrict
    rw [topIndices] at hindices
    split at hindices
    · cases hindices
    · obtain ⟨zs, hselect, -⟩ := Option.bind_eq_some_iff.mp hindices
      simp only [strictOps] at hselect
      split at hselect
      · rename_i hcons
        exact hcons.2
      · cases hselect
  · rw [← consistent_descending_iff hops] at hcomparable
    obtain ⟨indices, hindices, -⟩ := exists_topIndices hS htop hne' hcomparable
    exact (samples_iff hS hcfg hne).mpr ⟨indices, hindices⟩
  · refine ⟨hzero slices hS, fun htop => ?_⟩
    exact (samples_iff hS hcfg hne).mpr (exists_topIndices_of_neverPanics hnever htop hne')

end Accepted

/-! ## No candidates asked for -/

/-- Rational numbers, with a constant for the exponential. -/
def rationalOps : FloatOps ℚ := .exact (fun _ => 1) (fun _ => 0) fun _ => 0

theorem compares_rationalOps : rationalOps.Compares some := by
  intro a b
  simp [rationalOps, FloatOps.exact]

/-- A configuration with this number of candidates, and nothing else that matters. -/
def plainConfig (topK : Option ℕ) : SamplingConfig ℚ where
  temperature := 1
  topP := 1
  topK
  repeatPenalty := 1

theorem validate_plainConfig (topK : Option ℕ) :
    (plainConfig topK).validate rationalOps = .ok () := by
  norm_num [SamplingConfig.validate, plainConfig, rationalOps, FloatOps.exact]

/-- Two candidates of four logits, with a penalised token, and none of them. -/
theorem alwaysSamples_iff_four :
    (∀ slices : SliceOps ℕ, slices.Lawful →
        Samples rationalOps slices (plainConfig (some 2)) [1, 3, -2, 3] [1, 2] 7) ∧
      ∀ slices : SliceOps ℕ, slices.Lawful → slices.NeverPanics →
        ¬ Samples rationalOps slices (plainConfig (some 0)) [1, 3, -2, 3] [1, 2] 7 := by
  constructor
  · refine (alwaysSamples_iff compares_rationalOps (validate_plainConfig (some 2))
      (List.cons_ne_nil 1 _)).1.mpr ⟨by simp [plainConfig], Or.inl fun l _ => ?_⟩
    exact Option.some_ne_none l
  · intro slices hS hpanics hsamples
    exact ((alwaysSamples_iff compares_rationalOps (validate_plainConfig (some 0))
      (List.cons_ne_nil 1 _)).2 slices hS hpanics).mp hsamples rfl

/-- The first 0 candidates of a single logit. -/
theorem not_alwaysSamples :
    ¬ ∀ (F : Type) (ops : FloatOps F) (slices : SliceOps ℕ) (cfg : SamplingConfig F)
      (logits : List F) (recent : List TokenId) (rng : UInt64), slices.Lawful →
      cfg.validate ops = .ok () → logits ≠ [] → Samples ops slices cfg logits recent rng := by
  intro h
  have hne : ([0] : List ℚ) ≠ [] := List.cons_ne_nil 0 []
  have hsamples := h ℚ rationalOps strictOps (plainConfig (some 0)) [0] [] 1 lawful_strictOps
    (validate_plainConfig (some 0)) hne
  obtain ⟨indices, hindices⟩ :=
    (samples_iff lawful_strictOps (validate_plainConfig (some 0)) hne).mp hsamples
  rw [plainConfig, topIndices_zero] at hindices
  cases hindices

end QuantumFlow
