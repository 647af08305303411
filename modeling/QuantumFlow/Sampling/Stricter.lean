import Mathlib.Analysis.Complex.Exponential
import Mathlib.Data.List.Sort
import QuantumFlow.Foundation.Concentration
import QuantumFlow.Sampling.Nucleus

/-!
# Stricter configurations

A lower temperature is to make sampling more deterministic, and fewer candidates or a smaller
nucleus are to do the same. Over exact arithmetic they do: the weights of the candidates fall off
faster, so the cumulative mass reaches every threshold earlier, and the walk ends at a candidate
with at least as large a logit.
-/

namespace QuantumFlow

variable {F K : Type}

/-- No higher temperature, no larger nucleus and no more candidates. -/
structure SamplingConfig.Stricter [LE F] (cfg' cfg : SamplingConfig F) : Prop where
  temperature : cfg'.temperature ≤ cfg.temperature
  topP : cfg'.topP ≤ cfg.topP
  topK : ∀ k, cfg.topK = some k → ∃ k' ≤ k, cfg'.topK = some k'
  repeatPenalty : cfg'.repeatPenalty = cfg.repeatPenalty

theorem SamplingConfig.Stricter.candidates_le [LE F] {cfg cfg' : SamplingConfig F}
    (h : cfg'.Stricter cfg) (n : ℕ) : min (cfg'.topK.getD n) n ≤ min (cfg.topK.getD n) n := by
  cases hk : cfg.topK with
  | none => exact (Nat.min_le_right _ _).trans_eq (Nat.min_self n).symm
  | some k =>
    obtain ⟨k', hle, hk'⟩ := h.topK k hk
    rw [hk']
    exact min_le_min_right n hle

/-- Earlier in a descending list is no less. -/
theorem le_of_getElem?_of_le [Preorder K] {xs : List K} (h : xs.Pairwise (· ≥ ·)) {i j : ℕ}
    (hij : i ≤ j) {x y : K} (hx : xs[i]? = some x) (hy : xs[j]? = some y) : y ≤ x := by
  obtain ⟨hi, rfl⟩ := List.getElem?_eq_some_iff.mp hx
  obtain ⟨hj, rfl⟩ := List.getElem?_eq_some_iff.mp hy
  rcases Nat.eq_or_lt_of_le hij with rfl | hlt
  · exact le_rfl
  · exact List.pairwise_iff_getElem.mp h i j hi hj hlt

section Exact

variable [Field K] [LinearOrder K] {exp : K → K} {ofU64 : UInt64 → K} {bits : K → UInt32}

/-! ## The logits of the candidates -/

/-- The logits of some candidates. -/
def logitsAt (logits : List K) (order : List ℕ) : List K := order.map (logits.getD · 0)

omit [LinearOrder K] in
theorem logitsAt_range (logits : List K) :
    logitsAt logits (List.range logits.length) = logits := by
  apply List.ext_getElem
  · simp [logitsAt]
  · intro i h h'
    simp [logitsAt, h']

/-- The largest logits are the first of the sorted ones, whichever of equal ones was selected. -/
theorem Largest.logitsAt_eq {logits : List K} {k : ℕ} {order : List ℕ}
    (h : Largest logits k order) :
    logitsAt logits order = (logits.insertionSort (· ≥ ·)).take k := by
  let rest := (List.range logits.length).filter (· ∉ order)
  have hperm : (order ++ rest).Perm (List.range logits.length) := by
    refine (List.perm_ext_iff_of_nodup ?_ List.nodup_range).mpr fun a => ?_
    · refine List.nodup_append.mpr ⟨h.nodup, List.nodup_range.filter _, ?_⟩
      rintro a ha b hb rfl
      simp [rest, ha] at hb
    · have hinside := h.inside a
      simp only [rest, List.mem_append, List.mem_filter, List.mem_range, decide_eq_true_eq]
      tauto
  have hvalues : (logitsAt logits order ++ (logitsAt logits rest).insertionSort (· ≥ ·)).Perm
      (logits.insertionSort (· ≥ ·)) := by
    refine ((List.perm_insertionSort _ _).append_left _).trans ?_
    refine List.Perm.trans ?_ (List.perm_insertionSort _ _).symm
    have hmap := hperm.map (logits.getD · 0)
    rwa [List.map_append, ← logitsAt, ← logitsAt, ← logitsAt, logitsAt_range] at hmap
  have hsorted : (logitsAt logits order ++
      (logitsAt logits rest).insertionSort (· ≥ ·)).Pairwise (· ≥ ·) := by
    refine List.pairwise_append.mpr ⟨List.pairwise_map.mpr h.descends,
      List.pairwise_insertionSort _ _, fun x hx y hy => ?_⟩
    obtain ⟨a, ha, rfl⟩ := List.mem_map.mp hx
    obtain ⟨b, hb, rfl⟩ := List.mem_map.mp ((List.mem_insertionSort _).mp hy)
    obtain ⟨hrange, hnot⟩ := List.mem_filter.mp hb
    exact h.others b (List.mem_range.mp hrange) (by simpa using hnot) a ha
  have heq := hvalues.eq_of_pairwise' hsorted (List.pairwise_insertionSort _ _)
  rw [← heq, List.take_left' (by rw [logitsAt, List.length_map, h.length])]

/-! ## Shares of the mass -/

/-- The weight of a logit, relative to the largest one and at the inverse temperature `c`. -/
def tilt (exp : K → K) (top c : K) (l : K) : K := exp (l * c - top * c)

omit [LinearOrder K] in
theorem sum_take_normalised (ws : List K) (n : ℕ) :
    ((normalised ws).take n).sum = (ws.take n).sum / ws.sum := by
  have hmap := List.sum_map_mul_right (ws.take n) (fun x => x) ws.sum⁻¹
  simp only [List.map_id'] at hmap
  simp only [normalised, ← List.map_take, div_eq_mul_inv, hmap]

omit [LinearOrder K] in
/-- What was divided before is divided all the same. -/
theorem normalised_take_normalised {ws : List K} (h : ws.sum ≠ 0) (n : ℕ) :
    normalised ((normalised ws).take n) = normalised (ws.take n) := by
  rw [normalised, sum_take_normalised, normalised, normalised, ← List.map_take, List.map_map]
  exact List.map_congr_left fun x _ => div_div_div_cancel_right₀ h x _

variable [IsStrictOrderedRing K]

theorem shareReached_of_firstReach {w : K → K} (hw : ∀ x, 0 < w x) {xs : List K} {total n : ℕ}
    {t : K} (hne : xs ≠ []) (htotal : 0 < total)
    (h : FirstReach t (normalised ((xs.take total).map w)) n) : ShareReached w xs total t n := by
  have hsum : 0 < prefixWeight w xs total := prefixWeight_pos hw hne htotal
  have hle : n ≤ total := by
    have hlen := h.le
    rw [normalised, List.length_map, List.length_map, List.length_take] at hlen
    exact hlen.trans (Nat.min_le_left _ _)
  have hshare : ∀ m ≤ total, ((normalised ((xs.take total).map w)).take m).sum =
      prefixWeight w xs m / prefixWeight w xs total := by
    intro m hm
    rw [sum_take_normalised, ← List.map_take, List.take_take, Nat.min_eq_left hm]
    rfl
  refine ⟨h.pos, hle, ?_, fun m hpos hlt => ?_⟩
  · have hreach := h.reaches
    rwa [hshare n hle, le_div_iff₀ hsum] at hreach
  · have hbefore := h.before m hpos hlt
    rwa [hshare m (hlt.le.trans hle), div_lt_iff₀ hsum] at hbefore

/-- Over the same logits, a lower temperature gives steeper weights. -/
theorem steeper_tilt (hadd : ∀ x y, exp (x + y) = exp x * exp y) (hmono : Monotone exp)
    {c c' : K} (hc : c ≤ c') (top : K) {xs : List K} (hxs : xs.Pairwise (· ≥ ·)) :
    Steeper (tilt exp top c') (tilt exp top c) xs := by
  refine hxs.imp fun {x y} hxy => ?_
  rw [tilt, tilt, tilt, tilt, ← hadd, ← hadd]
  apply hmono
  have hgain : 0 ≤ (x - y) * (c' - c) := mul_nonneg (sub_nonneg.mpr hxy) (sub_nonneg.mpr hc)
  linarith

/-- What a draw means on the sorted logits: the nucleus and the walk each reach a share. -/
theorem NucleusDraw.shareReached (hexp : ∀ x, 0 < exp x) {scaled logits xs : List K} {c topP t : K}
    (hscaled : ∀ a, scaled.getD a 0 = logits.getD a 0 * c) {order : List ℕ} {k n idx : ℕ}
    (hk : 0 < k) (hxs : xs ≠ []) (horder : logitsAt logits order = xs.take k)
    (h : NucleusDraw exp scaled topP t order n idx) :
    ∃ i, xs[i]? = some (logits.getD idx 0) ∧
      ShareReached (tilt exp (xs.headD 0) c) xs k topP n ∧
      ShareReached (tilt exp (xs.headD 0) c) xs n t (i + 1) := by
  obtain ⟨x, xs, rfl⟩ := List.exists_cons_of_ne_nil hxs
  have htop : logits.getD (order.headD 0) 0 = x := by
    obtain ⟨k, rfl⟩ := Nat.exists_eq_succ_of_ne_zero hk.ne'
    cases order with
    | nil => simp [logitsAt] at horder
    | cons top rest => exact (List.cons.inj horder).1
  have hweights : weights exp scaled order = ((x :: xs).take k).map (tilt exp x c) := by
    rw [← horder, logitsAt, List.map_map, weights]
    refine List.map_congr_left fun a _ => ?_
    rw [hscaled, hscaled, htop]
    rfl
  have hw : ∀ l, 0 < tilt exp x c l := fun l => hexp _
  obtain ⟨hnucleus, i, hi, hidx, hdrawn⟩ := h
  rw [hweights] at hnucleus hdrawn
  have hreached := shareReached_of_firstReach hw hxs hk hnucleus
  have hsum : ((x :: xs).take k |>.map (tilt exp x c)).sum ≠ 0 := (prefixWeight_pos hw hxs hk).ne'
  rw [normalised_take_normalised hsum, ← List.map_take, List.take_take,
    Nat.min_eq_left hreached.le] at hdrawn
  refine ⟨i, ?_, hreached, shareReached_of_firstReach hw hxs hnucleus.pos hdrawn⟩
  have hvalue : (logitsAt logits order)[i]? = some (logits.getD idx 0) := by
    rw [logitsAt, List.getElem?_map, hidx, Option.map_some]
  rwa [horder, List.getElem?_take_of_lt (hi.trans_le hreached.le)] at hvalue

variable {slices : SliceOps ℕ} {cfg cfg' : SamplingConfig K}

omit [IsStrictOrderedRing K] in
theorem bounds_of_validate (h : cfg.validate (.exact exp ofU64 bits) = .ok ()) :
    0 < cfg.temperature ∧ 0 < cfg.topP ∧ cfg.topP ≤ 1 := by
  unfold SamplingConfig.validate at h
  split at h
  · cases h
  rename_i htemp
  split at h
  · cases h
  rename_i htopP
  simpa [FloatOps.exact] using And.intro htemp htopP

/-- What sampling returns, on the sorted logits. -/
theorem exists_shareReached (hS : slices.Lawful) (hexp : ∀ x, 0 < exp x)
    (hcfg : cfg.validate (.exact exp ofU64 bits) = .ok ()) (htopK : cfg.topK ≠ some 0)
    {logits : List K} (hne : logits ≠ []) (recent : List TokenId) {rng : UInt64} {t : K}
    (ht : threshold (.exact exp ofU64 bits) (xorshift64 rng) = t) (hle : t ≤ 1) {pen xs : List K}
    (hpen : applyRepeatPenalty (.exact exp ofU64 bits) logits recent cfg.repeatPenalty = pen)
    (hxs : pen.insertionSort (· ≥ ·) = xs) :
    ∃ i n, ∃ top < logits.length,
      sampleToken (.exact exp ofU64 bits) slices cfg logits recent rng =
        .ok (UInt32.ofNat top, xorshift64 rng) ∧
      xs[i]? = some (pen.getD top 0) ∧
      ShareReached (tilt exp (xs.headD 0) (1 / cfg.temperature)) xs
        (min (cfg.topK.getD logits.length) logits.length) cfg.topP n ∧
      ShareReached (tilt exp (xs.headD 0) (1 / cfg.temperature)) xs n t (i + 1) := by
  subst ht hpen hxs
  obtain ⟨htemp, htopP, htopP'⟩ := bounds_of_validate hcfg
  obtain ⟨order, n, top, id, hsample, hid, -⟩ :=
    samplesNucleus hexp hS htemp htopP htopP' htopK hne recent hle
  have hk : 0 < min (cfg.topK.getD logits.length) logits.length := candidates_pos htopK hne
  have hsorted : (applyRepeatPenalty (.exact exp ofU64 bits) logits recent
      cfg.repeatPenalty).insertionSort (· ≥ ·) ≠ [] := by
    rw [← List.length_pos_iff, List.length_insertionSort, length_applyRepeatPenalty]
    exact List.length_pos_iff.mpr hne
  obtain ⟨i, hvalue, hnucleus, hdrawn⟩ :=
    hsample.nucleus.shareReached hexp (getD_scaledLogits cfg logits recent) hk hsorted
      hsample.largest.logitsAt_eq
  have hreturn : id = UInt32.ofNat top := by
    rw [← UInt32.toNat_inj, hid, UInt32.toNat_ofNat']
  exact ⟨i, n, top, hsample.idx_lt, hreturn ▸ hsample.returns, hvalue, hnucleus, hdrawn⟩

/-- A stricter configuration never draws a token with a smaller penalised logit from the same
random state. -/
theorem stricter_draws_no_less (bits : K → UInt32) (hS : slices.Lawful) (hexp : ∀ x, 0 < exp x)
    (hadd : ∀ x y, exp (x + y) = exp x * exp y) (hmono : Monotone exp)
    (hstricter : cfg'.Stricter cfg) (hcfg : cfg.validate (.exactCast exp bits) = .ok ())
    (hcfg' : cfg'.validate (.exactCast exp bits) = .ok ()) (htopK : cfg'.topK ≠ some 0)
    {logits : List K} (hne : logits ≠ []) (recent : List TokenId) (rng : UInt64) :
    ∃ top < logits.length, ∃ top' < logits.length,
      sampleToken (.exactCast exp bits) slices cfg logits recent rng =
        .ok (UInt32.ofNat top, xorshift64 rng) ∧
      sampleToken (.exactCast exp bits) slices cfg' logits recent rng =
        .ok (UInt32.ofNat top', xorshift64 rng) ∧
      (applyRepeatPenalty (.exactCast exp bits) logits recent cfg.repeatPenalty).getD top 0 ≤
        (applyRepeatPenalty (.exactCast exp bits) logits recent cfg.repeatPenalty).getD top'
          0 := by
  have htop : cfg.topK ≠ some 0 := by
    intro hzero
    obtain ⟨k', hle, hk'⟩ := hstricter.topK 0 hzero
    exact htopK (hk'.trans (congrArg some (Nat.le_zero.mp hle)))
  obtain ⟨hzero, hone⟩ := threshold_exactCast exp bits (xorshift64 rng)
  generalize hpen : applyRepeatPenalty (.exactCast exp bits) logits recent cfg.repeatPenalty = pen
  generalize hxs : pen.insertionSort (· ≥ ·) = xs
  have hpen' : applyRepeatPenalty (.exactCast exp bits) logits recent cfg'.repeatPenalty = pen := by
    rw [hstricter.repeatPenalty, hpen]
  obtain ⟨i, n, top, hlt, hreturn, hvalue, hn, hi⟩ :=
    exists_shareReached hS hexp hcfg htop hne recent rfl hone hpen hxs
  obtain ⟨i', n', top', hlt', hreturn', hvalue', hn', hi'⟩ :=
    exists_shareReached hS hexp hcfg' htopK hne recent rfl hone hpen' hxs
  refine ⟨top, hlt, top', hlt', hreturn, hreturn', ?_⟩
  have hsorted : xs.Pairwise (· ≥ ·) := hxs ▸ List.pairwise_insertionSort _ _
  have hxsne : xs ≠ [] := by
    rintro rfl
    simp at hvalue
  have hcooler : 1 / cfg.temperature ≤ 1 / cfg'.temperature :=
    one_div_le_one_div_of_le (bounds_of_validate hcfg').1 hstricter.temperature
  have hsteeper := steeper_tilt hadd hmono hcooler (xs.headD 0) hsorted
  -- the nucleus is no larger, and the threshold is reached no later within it
  have hnucleus : n' ≤ n :=
    hsteeper.reached_le (fun _ => hexp _) (fun _ => hexp _) hxsne (hstricter.candidates_le _)
      (bounds_of_validate hcfg).2.1.le hstricter.topP hn hn'
  have hdrawn : i' + 1 ≤ i + 1 :=
    hsteeper.reached_le (fun _ => hexp _) (fun _ => hexp _) hxsne hnucleus hzero le_rfl hi hi'
  exact le_of_getElem?_of_le hsorted (Nat.le_of_succ_le_succ hdrawn) hvalue' hvalue

end Exact

/-- The defaults but for the temperature. -/
def samplingAt [Field K] (temperature : K) : SamplingConfig K where
  temperature
  topP := 9 / 10
  topK := some 40
  repeatPenalty := 11 / 10

/-- The temperature of the regression run against the default, with the real exponential. -/
theorem stricter_draws_no_less_regression :
    ∃ top < 3, ∃ top' < 3,
      sampleToken (.exactCast Real.exp fun _ => 0) strictOps (samplingAt (7 / 10)) [1, 3, 2] []
        7 = .ok (UInt32.ofNat top, xorshift64 7) ∧
      sampleToken (.exactCast Real.exp fun _ => 0) strictOps (samplingAt (1 / 100)) [1, 3, 2] []
        7 = .ok (UInt32.ofNat top', xorshift64 7) ∧
      ([1, 3, 2] : List ℝ).getD top 0 ≤ ([1, 3, 2] : List ℝ).getD top' 0 := by
  have hvalid : ∀ temperature : ℝ, 0 < temperature →
      (samplingAt temperature).validate (.exactCast Real.exp fun _ => 0) = .ok () := by
    intro temperature htemp
    exact validate_exact htemp (by norm_num [samplingAt]) (by norm_num [samplingAt])
  have hstricter : (samplingAt (1 / 100 : ℝ)).Stricter (samplingAt (7 / 10)) :=
    ⟨by norm_num [samplingAt], le_rfl, fun k hk => ⟨k, le_rfl, hk⟩, rfl⟩
  have hpenalty : applyRepeatPenalty (.exactCast Real.exp fun _ => 0) ([1, 3, 2] : List ℝ) []
      (samplingAt (7 / 10 : ℝ)).repeatPenalty = [1, 3, 2] := by
    rw [applyRepeatPenalty_exact, List.foldl_nil, ite_self]
  obtain ⟨top, hlt, top', hlt', hreturn, hreturn', hle⟩ :=
    stricter_draws_no_less (fun _ => 0) lawful_strictOps Real.exp_pos Real.exp_add
      Real.exp_monotone hstricter (hvalid _ (by norm_num)) (hvalid _ (by norm_num))
      (by simp [samplingAt]) (by simp : ([1, 3, 2] : List ℝ) ≠ []) [] 7
  rw [hpenalty] at hle
  exact ⟨top, hlt, top', hlt', hreturn, hreturn', hle⟩

end QuantumFlow
