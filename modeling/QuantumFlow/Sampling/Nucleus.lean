import Mathlib.Algebra.BigOperators.Group.List.Basic
import Mathlib.Algebra.BigOperators.Ring.List
import Mathlib.Algebra.Order.BigOperators.Group.List
import QuantumFlow.Sampling.Panics

/-!
# Nucleus sampling over exact arithmetic

Probabilities that are divided by their sum add up to 1, so the nucleus is always reached, and
so is every threshold up to 1: the walk over the renormalised nucleus returns a candidate and
the fallback behind it is dead code. Selecting, cutting and sorting gives the largest logits.
-/

namespace QuantumFlow

variable {F K : Type}

/-! ## Cumulative sums -/

/-- `n` is the least number of leading entries whose sum reaches `t`; at least one is taken. -/
structure FirstReach [AddMonoid K] [LinearOrder K] (t : K) (ps : List K) (n : ℕ) : Prop where
  pos : 0 < n
  le : n ≤ ps.length
  reaches : t ≤ (ps.take n).sum
  before : ∀ m, 0 < m → m < n → (ps.take m).sum < t

/-- The walk over pairs stops where the sum of the probabilities does. -/
theorem pickFrom_zip {ops : FloatOps F} (t cum : F) {xs : List ℕ} {ps : List F}
    (hlen : xs.length = ps.length) : pickFrom ops t cum (xs.zip ps) =
      (cutoffFrom ops t cum ps).bind fun n => xs[n - 1]? := by
  induction xs generalizing ps cum with
  | nil =>
    obtain rfl := List.eq_nil_of_length_eq_zero hlen.symm
    rfl
  | cons x xs ih =>
    obtain ⟨p, ps, rfl⟩ := List.exists_cons_of_length_eq_add_one hlen.symm
    rw [List.zip_cons_cons, pickFrom, cutoffFrom]
    split
    · rfl
    · rw [ih _ (by simpa using hlen)]
      cases hcut : cutoffFrom ops t (ops.add cum p) ps with
      | none => rfl
      | some n =>
        obtain ⟨m, rfl⟩ := Nat.exists_eq_succ_of_ne_zero (Nat.ne_of_gt (cutoffFrom_pos hcut))
        rfl

section Exact

variable [Field K] [LinearOrder K] {exp : K → K} {ofU64 : UInt64 → K} {bits : K → UInt32}

theorem sum_exact (xs : List K) : (FloatOps.exact exp ofU64 bits).sum xs = xs.sum :=
  List.sum_eq_foldl.symm

/-- What is divided by its sum. -/
def normalised (xs : List K) : List K := xs.map (· / xs.sum)

theorem normalise_exact (xs : List K) :
    (FloatOps.exact exp ofU64 bits).normalise xs = normalised xs := by
  rw [FloatOps.normalise, sum_exact]
  rfl

omit [LinearOrder K] in
theorem sum_normalised {xs : List K} (h : xs.sum ≠ 0) : (normalised xs).sum = 1 := by
  have hmap := List.sum_map_mul_right xs (fun x => x) xs.sum⁻¹
  simp only [List.map_id'] at hmap
  simp only [normalised, div_eq_mul_inv, hmap]
  exact mul_inv_cancel₀ h

/-- The scan finds a sum that reaches `t` if the sum of everything does. -/
theorem exists_cutoffFrom (exp : K → K) (ofU64 : UInt64 → K) (bits : K → UInt32) (t cum : K)
    {ps : List K} (hne : ps ≠ []) (h : t ≤ cum + ps.sum) :
    ∃ n, cutoffFrom (.exact exp ofU64 bits) t cum ps = some n ∧ n ≤ ps.length ∧
      t ≤ cum + (ps.take n).sum ∧ ∀ m, 0 < m → m < n → cum + (ps.take m).sum < t := by
  induction ps generalizing cum with
  | nil => exact absurd rfl hne
  | cons p ps ih =>
    by_cases hle : t ≤ cum + p
    · refine ⟨1, ?_, by simp, by simpa using hle, fun m hpos hlt => by omega⟩
      simp [cutoffFrom, FloatOps.exact, hle]
    · have hps : ps ≠ [] := by
        rintro rfl
        exact hle (by simpa using h)
      rw [List.sum_cons, ← add_assoc] at h
      obtain ⟨n, hn, hlen, hreach, hbefore⟩ := ih (cum + p) hps h
      refine ⟨n + 1, ?_, by simpa using hlen, ?_, fun m hpos hlt => ?_⟩
      · have hstep : (cutoffFrom (.exact exp ofU64 bits) t (cum + p) ps).map (· + 1) =
            some (n + 1) := by rw [hn, Option.map_some]
        simpa [cutoffFrom, FloatOps.exact, hle] using hstep
      · rwa [List.take_succ_cons, List.sum_cons, ← add_assoc]
      · obtain ⟨m, rfl⟩ := Nat.exists_eq_succ_of_ne_zero (Nat.ne_of_gt hpos)
        rw [List.take_succ_cons, List.sum_cons, ← add_assoc]
        rcases Nat.eq_zero_or_pos m with rfl | hm
        · simpa using hle
        · exact hbefore m hm (by omega)

theorem exists_firstReach (exp : K → K) (ofU64 : UInt64 → K) (bits : K → UInt32) {t : K}
    {ps : List K} (hne : ps ≠ []) (h : t ≤ ps.sum) :
    ∃ n, cutoffFrom (.exact exp ofU64 bits) t 0 ps = some n ∧ FirstReach t ps n := by
  refine (exists_cutoffFrom exp ofU64 bits t 0 hne (by rwa [zero_add])).imp ?_
  rintro n ⟨hn, hlen, hreach, hbefore⟩
  refine ⟨hn, cutoffFrom_pos hn, hlen, by rwa [zero_add] at hreach, fun m hpos hlt => ?_⟩
  simpa using hbefore m hpos hlt

/-! ## The candidates -/

theorem compares_exact : (FloatOps.exact exp ofU64 bits).Compares some := by
  intro a b
  simp [FloatOps.exact]

theorem consistent_exact (exp : K → K) (ofU64 : UInt64 → K) (bits : K → UInt32)
    (logits : List K) :
    Consistent (descending (.exact exp ofU64 bits) logits) (List.range logits.length) :=
  (consistent_descending_iff compares_exact logits).mpr (Or.inl fun _ _ => Option.some_ne_none _)

theorem descending_exact (logits : List K) (a b : ℕ) :
    descending (.exact exp ofU64 bits) logits a b ≠ .gt ↔ logits.getD b 0 ≤ logits.getD a 0 := by
  rw [Ne, descending_eq_gt_iff compares_exact]
  simp [FloatOps.exact]

/-- `order` are the `k` largest logits, in descending order. -/
structure Largest (logits : List K) (k : ℕ) (order : List ℕ) : Prop where
  length : order.length = k
  nodup : order.Nodup
  inside : ∀ a ∈ order, a < logits.length
  descends : order.Pairwise fun a b => logits.getD b 0 ≤ logits.getD a 0
  others : ∀ b < logits.length, b ∉ order → ∀ a ∈ order, logits.getD b 0 ≤ logits.getD a 0

theorem FirstInOrder.largest {logits : List K} {k : ℕ} {order : List ℕ}
    (h : FirstInOrder (descending (.exact exp ofU64 bits) logits) k (List.range logits.length)
      order) : Largest logits k order := by
  obtain ⟨rest, hperm, hothers⟩ := h.others
  refine ⟨h.length, ?_, fun a ha => List.mem_range.mp (h.subset ha), ?_, fun b hb hnot a ha => ?_⟩
  · exact (List.nodup_append.mp (hperm.nodup_iff.mpr List.nodup_range)).1
  · exact h.ordered.imp fun {a b} hab => (descending_exact logits a b).mp hab
  · have hmem := hperm.mem_iff.mpr (List.mem_range.mpr hb)
    have hrest := (List.mem_append.mp hmem).resolve_left hnot
    exact (descending_exact logits a b).mp (hothers a ha b hrest)

theorem getD_scaledLogits (cfg : SamplingConfig K) (logits : List K) (recent : List TokenId)
    (a : ℕ) : (scaledLogits (.exact exp ofU64 bits) cfg logits recent).getD a 0 =
      (applyRepeatPenalty (.exact exp ofU64 bits) logits recent cfg.repeatPenalty).getD a 0 *
        (1 / cfg.temperature) := by
  rw [scaledLogits, List.getD_eq_getElem?_getD, List.getD_eq_getElem?_getD, List.getElem?_map]
  cases (applyRepeatPenalty (.exact exp ofU64 bits) logits recent cfg.repeatPenalty)[a]? with
  | none => exact (zero_mul _).symm
  | some l => rfl

/-- Scaling keeps the order. -/
theorem Largest.of_scaled [IsStrictOrderedRing K] {cfg : SamplingConfig K}
    (htemp : 0 < cfg.temperature) {logits : List K} {recent : List TokenId} {k : ℕ}
    {order : List ℕ}
    (h : Largest (scaledLogits (.exact exp ofU64 bits) cfg logits recent) k order) :
    Largest (applyRepeatPenalty (.exact exp ofU64 bits) logits recent cfg.repeatPenalty) k
      order := by
  have hle : ∀ a b, (scaledLogits (.exact exp ofU64 bits) cfg logits recent).getD b 0 ≤
      (scaledLogits (.exact exp ofU64 bits) cfg logits recent).getD a 0 ↔
        (applyRepeatPenalty (.exact exp ofU64 bits) logits recent cfg.repeatPenalty).getD b 0 ≤
        (applyRepeatPenalty (.exact exp ofU64 bits) logits recent cfg.repeatPenalty).getD a 0 := by
    intro a b
    rw [getD_scaledLogits, getD_scaledLogits]
    exact mul_le_mul_iff_left₀ (one_div_pos.mpr htemp)
  refine ⟨h.length, h.nodup, fun a ha => ?_, ?_, fun b hb hnot a ha => ?_⟩
  · simpa using h.inside a ha
  · exact h.descends.imp fun {a b} hab => (hle a b).mp hab
  · exact (hle a b).mp (h.others b (by simpa using hb) hnot a ha)

/-! ## The draw -/

/-- The weights of the candidates, relative to the first one. -/
def weights (exp : K → K) (logits : List K) (order : List ℕ) : List K :=
  order.map fun i => exp (logits.getD i 0 - logits.getD (order.headD 0) 0)

/-- What nucleus sampling is to do with candidates in this order: the first `n` of them are the
shortest prefix with a mass of `topP`, and `idx` is the first candidate with which the
renormalised mass of these reaches `t`. -/
structure NucleusDraw (exp : K → K) (logits : List K) (topP t : K) (order : List ℕ) (n idx : ℕ) :
    Prop where
  nucleus : FirstReach topP (normalised (weights exp logits order)) n
  drawn : ∃ i < n, order[i]? = some idx ∧
    FirstReach t (normalised ((normalised (weights exp logits order)).take n)) (i + 1)

/-- The walk ends at `idx`, so that the fallback behind it isn't taken. -/
def WalksTo (ops : FloatOps F) (cfg : SamplingConfig F) (logits : List F) (t : F)
    (order : List ℕ) (idx : ℕ) : Prop :=
  ∃ exps, softmax ops logits order = some exps ∧
    pickFrom ops t ops.zero ((order.take (cutoff ops cfg.topP exps)).zip
      (ops.normalise (exps.take (cutoff ops cfg.topP exps)))) = some idx

theorem draw_of_walksTo {ops : FloatOps F} {slices : SliceOps ℕ} {cfg : SamplingConfig F}
    {logits : List F} {t : F} {order : List ℕ} {idx : ℕ}
    (htop : topIndices ops slices cfg.topK logits = some order)
    (hwalk : WalksTo ops cfg logits t order idx) :
    draw ops slices cfg logits t = .ok (UInt32.ofNat idx) := by
  obtain ⟨exps, hexps, hpick⟩ := hwalk
  rw [draw, htop]
  simp only [orPanic, Outcome.ok_bind, hexps, hpick]
  rfl

theorem softmax_exact (exp : K → K) (ofU64 : UInt64 → K) (bits : K → UInt32) (logits : List K)
    {order : List ℕ} (hne : order ≠ []) : softmax (.exact exp ofU64 bits) logits order =
      some (normalised (weights exp logits order)) := by
  obtain ⟨top, rest, rfl⟩ := List.exists_cons_of_ne_nil hne
  rw [softmax, normalise_exact]
  rfl

variable [IsStrictOrderedRing K]

theorem sum_weights_pos (hexp : ∀ x, 0 < exp x) (logits : List K) {order : List ℕ}
    (hne : order ≠ []) : 0 < (weights exp logits order).sum := by
  apply List.sum_pos
  · intro w hw
    obtain ⟨i, -, rfl⟩ := List.mem_map.mp hw
    exact hexp _
  · exact fun h => hne (List.map_eq_nil_iff.mp h)

theorem sum_probabilities (hexp : ∀ x, 0 < exp x) (logits : List K) {order : List ℕ}
    (hne : order ≠ []) : (normalised (weights exp logits order)).sum = 1 :=
  sum_normalised (sum_weights_pos hexp logits hne).ne'

omit [LinearOrder K] [IsStrictOrderedRing K] in
theorem length_probabilities (exp : K → K) (logits : List K) (order : List ℕ) :
    (normalised (weights exp logits order)).length = order.length := by
  simp [normalised, weights]

/-- The masses add up to 1, before and after the cut, so both scans find what they look for. -/
theorem exists_walksTo (ofU64 : UInt64 → K) (bits : K → UInt32) (hexp : ∀ x, 0 < exp x)
    {cfg : SamplingConfig K} (htopP : 0 < cfg.topP) (htopP' : cfg.topP ≤ 1) (logits : List K)
    {order : List ℕ} (hne : order ≠ []) {t : K} (ht : t ≤ 1) :
    ∃ n idx, NucleusDraw exp logits cfg.topP t order n idx ∧
      WalksTo (.exact exp ofU64 bits) cfg logits t order idx := by
  have hsum := sum_probabilities hexp logits hne
  have hlen := length_probabilities exp logits order
  have hsoftmax := softmax_exact exp ofU64 bits logits hne
  have hprobs : normalised (weights exp logits order) ≠ [] := by
    rwa [← List.length_pos_iff, hlen, List.length_pos_iff]
  obtain ⟨n, hcut, hn⟩ := exists_firstReach exp ofU64 bits hprobs (hsum.symm ▸ htopP')
  have hcutoff : cutoff (.exact exp ofU64 bits) cfg.topP (normalised (weights exp logits order)) =
      n := congrArg (Option.getD · _) hcut
  have hmass : ((normalised (weights exp logits order)).take n).sum ≠ 0 :=
    (htopP.trans_le hn.reaches).ne'
  have hrenorm : (normalised ((normalised (weights exp logits order)).take n)).length = n := by
    rw [normalised, List.length_map, List.length_take, Nat.min_eq_left hn.le]
  have hnucleus : normalised ((normalised (weights exp logits order)).take n) ≠ [] := by
    rw [← List.length_pos_iff, hrenorm]
    exact hn.pos
  obtain ⟨j, hpick, hj⟩ :=
    exists_firstReach exp ofU64 bits hnucleus ((sum_normalised hmass).symm ▸ ht)
  obtain ⟨i, rfl⟩ := Nat.exists_eq_succ_of_ne_zero (Nat.ne_of_gt hj.pos)
  have hin : i < n := hrenorm ▸ hj.le
  have hi : i < order.length := Nat.lt_of_lt_of_le hin (hlen ▸ hn.le)
  refine ⟨n, order[i], ⟨hn, i, hin, List.getElem?_eq_getElem hi, hj⟩, _, hsoftmax, ?_⟩
  have htake : (order.take n).length =
      (normalised ((normalised (weights exp logits order)).take n)).length := by
    rw [hrenorm, List.length_take, Nat.min_eq_left (hlen ▸ hn.le)]
  have hpick' : cutoffFrom (.exact exp ofU64 bits) t (FloatOps.exact exp ofU64 bits).zero
      (normalised ((normalised (weights exp logits order)).take n)) = some (i + 1) := hpick
  rw [hcutoff, normalise_exact, pickFrom_zip _ _ htake, hpick', Option.bind_some,
    Nat.add_sub_cancel, List.getElem?_take_of_lt hin, List.getElem?_eq_getElem hi]

/-- Nucleus sampling is exact: `order` are the largest penalised logits, `n` of them are the
nucleus, the walk ends at `idx`, and `id` is returned. -/
structure SamplesNucleus (exp : K → K) (ofU64 : UInt64 → K) (bits : K → UInt32)
    (slices : SliceOps ℕ) (cfg : SamplingConfig K) (logits : List K) (recent : List TokenId)
    (rng : UInt64) (order : List ℕ) (n idx : ℕ) (id : TokenId) : Prop where
  top : topIndices (.exact exp ofU64 bits) slices cfg.topK
    (scaledLogits (.exact exp ofU64 bits) cfg logits recent) = some order
  largest : Largest (applyRepeatPenalty (.exact exp ofU64 bits) logits recent cfg.repeatPenalty)
    (min (cfg.topK.getD logits.length) logits.length) order
  nucleus : NucleusDraw exp (scaledLogits (.exact exp ofU64 bits) cfg logits recent) cfg.topP
    (threshold (.exact exp ofU64 bits) (xorshift64 rng)) order n idx
  walk : WalksTo (.exact exp ofU64 bits) cfg
    (scaledLogits (.exact exp ofU64 bits) cfg logits recent)
    (threshold (.exact exp ofU64 bits) (xorshift64 rng)) order idx
  returns : sampleToken (.exact exp ofU64 bits) slices cfg logits recent rng =
    .ok (id, xorshift64 rng)

omit [IsStrictOrderedRing K] in
theorem SamplesNucleus.idx_lt {slices : SliceOps ℕ} {cfg : SamplingConfig K} {logits : List K}
    {recent : List TokenId} {rng : UInt64} {order : List ℕ} {n idx : ℕ} {id : TokenId}
    (h : SamplesNucleus exp ofU64 bits slices cfg logits recent rng order n idx id) :
    idx < logits.length := by
  obtain ⟨i, -, hi, -⟩ := h.nucleus.drawn
  simpa using h.largest.inside idx (List.mem_of_getElem? hi)

omit [IsStrictOrderedRing K] in
theorem validate_exact {cfg : SamplingConfig K} (htemp : 0 < cfg.temperature)
    (htopP : 0 < cfg.topP) (htopP' : cfg.topP ≤ 1) :
    cfg.validate (.exact exp ofU64 bits) = .ok () := by
  simp [SamplingConfig.validate, FloatOps.exact, htemp.not_ge, htopP.not_ge, htopP'.not_gt]

theorem samplesNucleus (hexp : ∀ x, 0 < exp x) {slices : SliceOps ℕ} (hS : slices.Lawful)
    {cfg : SamplingConfig K} (htemp : 0 < cfg.temperature) (htopP : 0 < cfg.topP)
    (htopP' : cfg.topP ≤ 1) (htopK : cfg.topK ≠ some 0) {logits : List K} (hne : logits ≠ [])
    (recent : List TokenId) {rng : UInt64}
    (ht : threshold (.exact exp ofU64 bits) (xorshift64 rng) ≤ 1) :
    ∃ order n idx id,
      SamplesNucleus exp ofU64 bits slices cfg logits recent rng order n idx id ∧
      id.toNat = idx % 2 ^ 32 ∧ (logits.length ≤ 2 ^ 32 → id.toNat = idx) := by
  have hscaled : scaledLogits (.exact exp ofU64 bits) cfg logits recent ≠ [] := by
    rwa [← List.length_pos_iff, length_scaledLogits, List.length_pos_iff]
  obtain ⟨order, htop, hfirst⟩ :=
    exists_topIndices hS htopK hscaled (consistent_exact exp ofU64 bits _)
  have horder : order ≠ [] := by
    rw [← List.length_pos_iff, hfirst.length]
    exact candidates_pos htopK hscaled
  obtain ⟨n, idx, hdraw, hwalk⟩ := exists_walksTo ofU64 bits hexp htopP htopP'
    (scaledLogits (.exact exp ofU64 bits) cfg logits recent) horder ht
  have hlargest := hfirst.largest.of_scaled htemp
  rw [length_scaledLogits] at hlargest
  have hsample : SamplesNucleus exp ofU64 bits slices cfg logits recent rng order n idx
      (UInt32.ofNat idx) := by
    refine ⟨htop, hlargest, hdraw, hwalk, ?_⟩
    rw [sampleToken, sampleAt_of_accepted (validate_exact htemp htopP htopP') hne,
      draw_of_walksTo htop hwalk]
    rfl
  refine ⟨order, n, idx, _, hsample, UInt32.toNat_ofNat', fun hlen => ?_⟩
  rw [UInt32.toNat_ofNat', Nat.mod_eq_of_lt (Nat.lt_of_lt_of_le hsample.idx_lt hlen)]

/-- Exact arithmetic that casts words to their values. -/
abbrev FloatOps.exactCast (exp : K → K) (bits : K → UInt32) : FloatOps K :=
  .exact exp (fun r => (r.toNat : K)) bits

/-- The random threshold is a fraction. -/
theorem threshold_exactCast (exp : K → K) (bits : K → UInt32) (r : UInt64) :
    0 ≤ threshold (.exactCast exp bits) r ∧ threshold (.exactCast exp bits) r ≤ 1 := by
  have hle : r.toNat ≤ (0xFFFFFFFFFFFFFFFF : UInt64).toNat := Nat.le_of_lt_succ r.toNat_lt
  exact ⟨div_nonneg (Nat.cast_nonneg _) (Nat.cast_nonneg _),
    div_le_one_of_le₀ (Nat.cast_le.mpr hle) (Nat.cast_nonneg _)⟩

end Exact

/-! ## Over the rationals -/

/-- A positive, increasing function. -/
def growth (x : ℚ) : ℚ := if 0 ≤ x then 1 + x else 1 / (1 - x)

theorem growth_pos (x : ℚ) : 0 < growth x := by
  unfold growth
  split
  · linarith
  · exact one_div_pos.mpr (by linarith)

theorem growth_strictMono : StrictMono growth := by
  intro x y hxy
  unfold growth
  split
  · rw [if_pos (by linarith)]
    linarith
  · split
    · have hlt : 1 / (1 - x) < 1 := (div_lt_one (by linarith)).mpr (by linarith)
      linarith
    · exact one_div_lt_one_div_of_lt (by linarith) (by linarith)

/-- A cooler configuration with a penalty, three candidates and nine tenths of their weight. -/
def nucleusConfig : SamplingConfig ℚ where
  temperature := 4 / 5
  topP := 9 / 10
  topK := some 3
  repeatPenalty := 11 / 10

/-- A draw from the nucleus of four logits, of which one is penalised. -/
theorem samplesNucleus_three : ∃ order n idx id,
    SamplesNucleus growth (fun r => (r.toNat : ℚ)) (fun _ => 0) strictOps nucleusConfig
      [1, 3, 2, -1] [1] 7 order n idx id ∧ id.toNat = idx := by
  have htemp : 0 < nucleusConfig.temperature := by norm_num [nucleusConfig]
  obtain ⟨order, n, idx, id, hsample, -, hid⟩ := samplesNucleus growth_pos lawful_strictOps htemp
    (by norm_num [nucleusConfig]) (by norm_num [nucleusConfig]) (by simp [nucleusConfig])
    (List.cons_ne_nil 1 [3, 2, -1]) [1] (threshold_exactCast growth (fun _ => 0) _).2
  exact ⟨order, n, idx, id, hsample, hid (by norm_num)⟩

/-- The largest logit is found behind any number of zeros. -/
theorem Largest.eq_behind {n : ℕ} {order : List ℕ}
    (h : Largest (List.replicate n (0 : ℚ) ++ [1]) 1 order) : order = [n] := by
  obtain ⟨a, rfl⟩ := List.length_eq_one_iff.mp h.length
  have ha := h.inside a List.mem_cons_self
  rw [List.length_append, List.length_replicate, List.length_singleton] at ha
  by_contra hne
  have hlt : a < n := by
    have hane : a ≠ n := fun heq => hne (by rw [heq])
    omega
  have hle := h.others n (by simp) (by simpa using fun heq : n = a => hlt.ne heq.symm) a
    List.mem_cons_self
  have hbehind : (List.replicate n (0 : ℚ) ++ [1]).getD n 0 = 1 := by simp
  have hzero : (List.replicate n (0 : ℚ) ++ [1]).getD a 0 = 0 := by
    simp [List.getD_eq_getElem?_getD, List.getElem?_append_left, hlt]
  rw [hbehind, hzero] at hle
  exact absurd hle (by norm_num)

/-- Behind 2^32 zeros, the largest logit has an id that is cut off to 0. -/
theorem not_samplesNucleus :
    ¬ ∀ (exp : ℚ → ℚ) (ofU64 : UInt64 → ℚ) (bits : ℚ → UInt32) (slices : SliceOps ℕ)
      (cfg : SamplingConfig ℚ) (logits : List ℚ) (recent : List TokenId) (rng : UInt64),
      (∀ x, 0 < exp x) → StrictMono exp → slices.Lawful → logits ≠ [] → 0 < cfg.temperature →
      0 < cfg.topP → cfg.topP ≤ 1 → 0 < cfg.repeatPenalty → cfg.topK ≠ some 0 →
      0 ≤ threshold (.exact exp ofU64 bits) (xorshift64 rng) →
      threshold (.exact exp ofU64 bits) (xorshift64 rng) ≤ 1 →
      ∃ order n idx id,
        SamplesNucleus exp ofU64 bits slices cfg logits recent rng order n idx id ∧
        id.toNat = idx := by
  intro h
  generalize hN : 2 ^ 32 = zeros at *
  obtain ⟨order, n, idx, id, hsample, hid⟩ := h growth (fun _ => 0) (fun _ => 0) strictOps
    (plainConfig (some 1)) (List.replicate zeros 0 ++ [1]) [] 1 growth_pos growth_strictMono
    lawful_strictOps (by simp) (by norm_num [plainConfig]) (by norm_num [plainConfig])
    (by norm_num [plainConfig]) (by norm_num [plainConfig]) (by simp [plainConfig])
    (by norm_num [threshold, FloatOps.exact]) (by norm_num [threshold, FloatOps.exact])
  have hpenalty : applyRepeatPenalty (.exact growth (fun _ => 0) fun _ => 0)
      (List.replicate zeros (0 : ℚ) ++ [1]) [] (plainConfig (some 1)).repeatPenalty =
      List.replicate zeros 0 ++ [1] := by
    rw [applyRepeatPenalty_exact, List.foldl_nil, ite_self]
  have hone : min ((plainConfig (some 1)).topK.getD (List.replicate zeros (0 : ℚ) ++ [1]).length)
      (List.replicate zeros (0 : ℚ) ++ [1]).length = 1 := by
    simp [plainConfig]
  have hlargest := hsample.largest
  rw [hpenalty, hone] at hlargest
  obtain rfl := hlargest.eq_behind
  obtain ⟨i, -, hi, -⟩ := hsample.nucleus.drawn
  have hidx : idx = zeros := by simpa using List.mem_of_getElem? hi
  have hlt := id.toNat_lt
  omega

end QuantumFlow
