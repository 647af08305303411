import Mathlib.Algebra.Order.Group.Nat
import Mathlib.Algebra.Order.Interval.Set.Monoid
import QuantumFlow.Foundation.Windows

/-!
# Evicting and prefetching windows of the model file

The file is mapped whole. `madvise` is called on windows of 500 MiB: to evict one, to prefetch one,
and by the prefetch thread on those after the current one. The window of an index is found by a
product that wraps, and only some of the callers compare the index with the number of windows.
-/

namespace QuantumFlow

def LAYER_SIZE_BYTES : UInt64 := 500 * 1024 * 1024

def PREFETCH_DEPTH : ℕ := 2

def numLayers (total : UInt64) : UInt64 := (total + LAYER_SIZE_BYTES - 1) / LAYER_SIZE_BYTES

inductive Advice where
  | willNeed
  | dontNeed

/-- A call of `madvise`. -/
structure Madvise where
  addr : UInt64
  len : UInt64
  advice : Advice

/-- A file that is mapped whole. It is not empty, and its size can be rounded up to whole
windows. -/
structure FileMapper where
  ptr : UInt64
  totalSize : UInt64
  pos : 0 < totalSize.toNat
  room : totalSize.toNat ≤ 2 ^ 64 - LAYER_SIZE_BYTES.toNat
  fits : ptr.toNat + totalSize.toNat ≤ 2 ^ 64

namespace FileMapper

variable (m : FileMapper)

/-- The call for the part of the file from `offset` on. -/
def madviseAt (offset : UInt64) (advice : Advice) : Madvise :=
  { addr := m.ptr + offset
    len := min LAYER_SIZE_BYTES (m.totalSize - offset)
    advice }

/-- Eviction and prefetch compare the offset with the size of the file. -/
def adviseLayer (advice : Advice) (idx : UInt64) : Option Madvise :=
  let offset := idx * LAYER_SIZE_BYTES
  if m.totalSize ≤ offset then none else some (m.madviseAt offset advice)

def evictLayer (idx : UInt64) : Option Madvise := m.adviseLayer .dontNeed idx

def prefetchLayer (idx : UInt64) : Option Madvise := m.adviseLayer .willNeed idx

/-- The engine's eviction compares the index with the number of windows first. -/
def activateLayer (evictIdx : UInt64) : Option Madvise :=
  if numLayers m.totalSize ≤ evictIdx then none else m.evictLayer evictIdx

/-- The loop of the prefetch thread from `i` on, with `left` rounds to go. -/
def prefetchFrom (cur : UInt64) : ℕ → UInt64 → List Madvise
  | 0, _ => []
  | left + 1, i =>
    let t := cur + i
    if numLayers m.totalSize ≤ t then []
    else m.madviseAt (t * LAYER_SIZE_BYTES) .willNeed :: prefetchFrom cur left (i + 1)

/-- What the prefetch thread calls when it wakes up. -/
def prefetchAhead (cur : UInt64) : List Madvise := m.prefetchFrom cur PREFETCH_DEPTH 1

end FileMapper

/-! ## The range of a call -/

/-- The addresses of a call. -/
def Madvise.range (c : Madvise) : Set ℕ := Set.Ico c.addr.toNat (c.addr.toNat + c.len.toNat)

/-- A call says something about a range. -/
def Madvise.On (c : Madvise) (advice : Advice) (range : Set ℕ) : Prop :=
  c.advice = advice ∧ c.range = range

theorem toNat_LAYER_SIZE_BYTES : LAYER_SIZE_BYTES.toNat = 524288000 := rfl

theorem LAYER_SIZE_BYTES_pos : 0 < LAYER_SIZE_BYTES.toNat := by
  rw [toNat_LAYER_SIZE_BYTES]
  omega

namespace FileMapper

variable (m : FileMapper)

/-- A window of the file, as offsets. -/
def windowOf (i : ℕ) : Set ℕ := window LAYER_SIZE_BYTES.toNat m.totalSize.toNat i

/-- The same as addresses. -/
def mappedWindow (i : ℕ) : Set ℕ := (m.ptr.toNat + ·) '' m.windowOf i

/-- The rounded sum does not wrap, or wraps back. -/
theorem toNat_numLayers :
    (numLayers m.totalSize).toNat = windowCount LAYER_SIZE_BYTES.toNat m.totalSize.toNat := by
  have hpos := m.pos
  have hroom := m.room
  have hone : (1 : UInt64).toNat = 1 := rfl
  have hsum : (m.totalSize + LAYER_SIZE_BYTES - 1).toNat =
      m.totalSize.toNat + LAYER_SIZE_BYTES.toNat - 1 := by
    rw [toNat_LAYER_SIZE_BYTES] at hroom
    rw [UInt64.toNat_sub, UInt64.toNat_add, hone, toNat_LAYER_SIZE_BYTES]
    omega
  rw [numLayers, windowCount, UInt64.toNat_div, hsum]

theorem lt_numLayers_iff {i : ℕ} :
    i < (numLayers m.totalSize).toNat ↔ i * LAYER_SIZE_BYTES.toNat < m.totalSize.toNat := by
  rw [m.toNat_numLayers]
  exact lt_windowCount_iff LAYER_SIZE_BYTES_pos

/-- The offset of a window that exists does not wrap. -/
theorem toNat_offset {idx : UInt64} (hidx : idx < numLayers m.totalSize) :
    (idx * LAYER_SIZE_BYTES).toNat = idx.toNat * LAYER_SIZE_BYTES.toNat := by
  have hlt := m.lt_numLayers_iff.mp (UInt64.lt_iff_toNat_lt.mp hidx)
  rw [UInt64.toNat_mul, Nat.mod_eq_of_lt (hlt.trans m.totalSize.toNat_lt)]

/-- The call at the offset of a window that exists is on that window. -/
theorem madviseAt_on {idx : UInt64} (hidx : idx < numLayers m.totalSize) (advice : Advice) :
    (m.madviseAt (idx * LAYER_SIZE_BYTES) advice).On advice (m.mappedWindow idx.toNat) := by
  have hlt := m.lt_numLayers_iff.mp (UInt64.lt_iff_toNat_lt.mp hidx)
  have hoffset := m.toNat_offset hidx
  have hfits := m.fits
  refine ⟨rfl, ?_⟩
  have hlen : (min LAYER_SIZE_BYTES (m.totalSize - idx * LAYER_SIZE_BYTES)).toNat =
      min LAYER_SIZE_BYTES.toNat (m.totalSize.toNat - idx.toNat * LAYER_SIZE_BYTES.toNat) := by
    rw [UInt64.toNat_min, UInt64.toNat_sub_of_le _ _ (UInt64.le_iff_toNat_le.mpr (by omega)),
      hoffset]
  have haddr : (m.ptr + idx * LAYER_SIZE_BYTES).toNat =
      m.ptr.toNat + idx.toNat * LAYER_SIZE_BYTES.toNat := by
    rw [UInt64.toNat_add, hoffset]
    omega
  rw [mappedWindow, windowOf, window, Set.image_const_add_Ico, Madvise.range, madviseAt]
  dsimp only
  rw [haddr, hlen, Nat.add_mul, Nat.one_mul]
  congr 1
  omega

/-! ## One window -/

/-- The calls for an index are on its window if it exists, and there are none otherwise. -/
def AdvisesWindow (call : Option Madvise) (advice : Advice) (idx : UInt64) : Prop :=
  (idx < numLayers m.totalSize →
      ∃ c, call = some c ∧ c.On advice (m.mappedWindow idx.toNat)) ∧
    (numLayers m.totalSize ≤ idx → call = none)

theorem adviseLayer_of_lt {idx : UInt64} (hidx : idx < numLayers m.totalSize) (advice : Advice) :
    m.adviseLayer advice idx = some (m.madviseAt (idx * LAYER_SIZE_BYTES) advice) := by
  have hlt := m.lt_numLayers_iff.mp (UInt64.lt_iff_toNat_lt.mp hidx)
  rw [← m.toNat_offset hidx] at hlt
  exact if_neg (UInt64.not_le.mpr (UInt64.lt_iff_toNat_lt.mpr hlt))

/-- An index without a window is advised on exactly when its product wraps into the file. -/
theorem adviseLayer_eq_none_iff (advice : Advice) (idx : UInt64) :
    m.adviseLayer advice idx = none ↔ m.totalSize ≤ idx * LAYER_SIZE_BYTES := by
  simp [adviseLayer]

theorem advisesWindow_adviseLayer_iff (advice : Advice) (idx : UInt64) :
    m.AdvisesWindow (m.adviseLayer advice idx) advice idx ↔
      idx < numLayers m.totalSize ∨ m.totalSize ≤ idx * LAYER_SIZE_BYTES := by
  by_cases hidx : idx < numLayers m.totalSize
  · refine iff_of_true ⟨fun _ => ⟨_, m.adviseLayer_of_lt hidx advice, m.madviseAt_on hidx advice⟩,
      fun hle => absurd hidx (UInt64.not_lt.mpr hle)⟩ (Or.inl hidx)
  · rw [or_iff_right hidx, ← m.adviseLayer_eq_none_iff advice]
    exact ⟨fun h => h.2 (UInt64.not_lt.mp hidx), fun h => ⟨fun hlt => absurd hlt hidx, fun _ => h⟩⟩

/-- Comparing the index first makes the eviction right for every index. -/
theorem advisesWindow_activateLayer (idx : UInt64) :
    m.AdvisesWindow (m.activateLayer idx) .dontNeed idx := by
  unfold activateLayer
  split
  · rename_i hle
    exact ⟨fun hlt => absurd hle (UInt64.not_le.mpr hlt), fun _ => rfl⟩
  · rename_i hlt
    exact (m.advisesWindow_adviseLayer_iff .dontNeed idx).mpr (Or.inl (UInt64.not_le.mp hlt))

/-! ## The prefetch thread -/

/-- The windows that exist among the `n` from `first` on. -/
def windowsFrom (first n : ℕ) : List ℕ :=
  (List.range' first n).filter (· < (numLayers m.totalSize).toNat)

/-- Calls are on windows, in order. -/
def PrefetchesWindows (calls : List Madvise) (windows : List ℕ) : Prop :=
  List.Forall₂ (fun c i => c.On .willNeed (m.mappedWindow i)) calls windows

theorem windowsFrom_succ_of_lt {first : ℕ} (h : first < (numLayers m.totalSize).toNat) (n : ℕ) :
    m.windowsFrom first (n + 1) = first :: m.windowsFrom (first + 1) n := by
  rw [windowsFrom, List.range'_succ, List.filter_cons_of_pos (by simpa using h)]
  rfl

theorem windowsFrom_of_le {first : ℕ} (h : (numLayers m.totalSize).toNat ≤ first) (n : ℕ) :
    m.windowsFrom first n = [] := by
  refine List.filter_eq_nil_iff.mpr fun i hi => ?_
  have hfirst := (List.mem_range'_1.mp hi).1
  simp
  omega

/-- As long as the sum does not wrap, the loop is on the windows that exist. -/
theorem prefetchFrom_prefetches {cur i : UInt64} (left : ℕ)
    (hsum : cur.toNat + i.toNat < 2 ^ 64) :
    m.PrefetchesWindows (m.prefetchFrom cur left i) (m.windowsFrom (cur.toNat + i.toNat) left) := by
  induction left generalizing i with
  | zero => exact List.Forall₂.nil
  | succ left ih =>
    have ht : (cur + i).toNat = cur.toNat + i.toNat := by
      rw [UInt64.toNat_add, Nat.mod_eq_of_lt hsum]
    unfold prefetchFrom
    dsimp only
    split
    · rename_i hle
      rw [m.windowsFrom_of_le (by rw [← ht]; exact UInt64.le_iff_toNat_le.mp hle)]
      exact List.Forall₂.nil
    · rename_i hlt
      have hexists := UInt64.not_le.mp hlt
      have hnat : cur.toNat + i.toNat < (numLayers m.totalSize).toNat := by
        rw [← ht]
        exact UInt64.lt_iff_toNat_lt.mp hexists
      have hnext : (i + 1).toNat = i.toNat + 1 := by
        have hbound := (numLayers m.totalSize).toNat_lt
        have hone : (1 : UInt64).toNat = 1 := rfl
        rw [UInt64.toNat_add, hone]
        omega
      have hrest := ih (i := i + 1) (by
        have hbound := (numLayers m.totalSize).toNat_lt
        omega)
      rw [hnext, ← Nat.add_assoc] at hrest
      rw [m.windowsFrom_succ_of_lt hnat]
      refine List.Forall₂.cons ?_ hrest
      rw [← ht]
      exact m.madviseAt_on hexists .willNeed

theorem numLayers_pos : 0 < (numLayers m.totalSize).toNat := by
  rw [m.lt_numLayers_iff, Nat.zero_mul]
  exact m.pos

/-- After the last index the sum wraps to the first window. -/
theorem prefetchAhead_ne_nil {cur : UInt64} (hcur : cur.toNat + 1 = 2 ^ 64) :
    m.prefetchAhead cur ≠ [] := by
  have hzero : cur + 1 = 0 := by
    apply UInt64.toNat_inj.mp
    rw [UInt64.toNat_add]
    change (cur.toNat + 1) % 2 ^ 64 = 0
    rw [hcur, Nat.mod_self]
  have hexists : ¬ numLayers m.totalSize ≤ (0 : UInt64) :=
    UInt64.not_le.mpr (UInt64.lt_iff_toNat_lt.mpr m.numLayers_pos)
  rw [prefetchAhead, PREFETCH_DEPTH, prefetchFrom, hzero, if_neg hexists]
  exact List.cons_ne_nil _ _

theorem prefetchAhead_iff (cur : UInt64) :
    m.PrefetchesWindows (m.prefetchAhead cur) (m.windowsFrom (cur.toNat + 1) PREFETCH_DEPTH) ↔
      cur.toNat + 1 ≠ 2 ^ 64 := by
  constructor
  · intro h hcur
    have hlt := (numLayers m.totalSize).toNat_lt
    rw [m.windowsFrom_of_le (by omega)] at h
    exact m.prefetchAhead_ne_nil hcur (List.forall₂_nil_right_iff.mp h)
  · intro hcur
    have hlt := cur.toNat_lt
    exact m.prefetchFrom_prefetches PREFETCH_DEPTH (i := 1) (by
      change cur.toNat + 1 < 2 ^ 64
      omega)

/-! ## Exactly when every call is on its window -/

/-- The windows are not empty, disjoint, and together the file. -/
theorem windows_partition :
    (∀ i < (numLayers m.totalSize).toNat, (m.windowOf i).Nonempty) ∧
      (∀ i j, i ≠ j → Disjoint (m.windowOf i) (m.windowOf j)) ∧
      ⋃ i < (numLayers m.totalSize).toNat, m.windowOf i = Set.Ico 0 m.totalSize.toNat := by
  rw [m.toNat_numLayers]
  exact ⟨fun i hi => window_nonempty LAYER_SIZE_BYTES_pos hi,
    fun i j hij => window_disjoint LAYER_SIZE_BYTES_pos hij, iUnion_window LAYER_SIZE_BYTES_pos⟩

/-- The windows partition the file, and the engine's eviction keeps to them. Eviction and prefetch
of an index keep to them exactly when it is the index of a window or its wrapped offset is outside
the file; the prefetch thread does exactly when the current index is not the last one. -/
theorem madvise_windows_iff (m : FileMapper) :
    ((∀ i < (numLayers m.totalSize).toNat, (m.windowOf i).Nonempty) ∧
      (∀ i j, i ≠ j → Disjoint (m.windowOf i) (m.windowOf j)) ∧
      ⋃ i < (numLayers m.totalSize).toNat, m.windowOf i = Set.Ico 0 m.totalSize.toNat) ∧
    (∀ idx, m.AdvisesWindow (m.evictLayer idx) .dontNeed idx ↔
      idx < numLayers m.totalSize ∨ m.totalSize ≤ idx * LAYER_SIZE_BYTES) ∧
    (∀ idx, m.AdvisesWindow (m.prefetchLayer idx) .willNeed idx ↔
      idx < numLayers m.totalSize ∨ m.totalSize ≤ idx * LAYER_SIZE_BYTES) ∧
    (∀ idx, m.AdvisesWindow (m.activateLayer idx) .dontNeed idx) ∧
    ∀ cur, m.PrefetchesWindows (m.prefetchAhead cur)
      (m.windowsFrom (cur.toNat + 1) PREFETCH_DEPTH) ↔ cur.toNat + 1 ≠ 2 ^ 64 := by
  refine ⟨m.windows_partition, ?_, ?_, m.advisesWindow_activateLayer, m.prefetchAhead_iff⟩
  · exact m.advisesWindow_adviseLayer_iff .dontNeed
  · exact m.advisesWindow_adviseLayer_iff .willNeed

theorem one_le_room : (1 : UInt64).toNat ≤ 2 ^ 64 - LAYER_SIZE_BYTES.toNat := by
  rw [toNat_LAYER_SIZE_BYTES]
  decide

/-- A file of one byte, and so of one window. -/
def oneByte : FileMapper where
  ptr := 4096
  totalSize := 1
  pos := Nat.one_pos
  room := one_le_room
  fits := by decide

/-- The offset of window `2 ^ 42` wraps to 0, and the index after the last one to window 0: both
call `madvise` on the one window of the file. -/
theorem madvise_not_windows :
    ¬ oneByte.AdvisesWindow (oneByte.evictLayer 4398046511104) .dontNeed 4398046511104 ∧
      oneByte.evictLayer 4398046511104 = some { addr := 4096, len := 1, advice := .dontNeed } ∧
      ¬ oneByte.PrefetchesWindows (oneByte.prefetchAhead 0xFFFFFFFFFFFFFFFF)
        (oneByte.windowsFrom (0xFFFFFFFFFFFFFFFF + 1) PREFETCH_DEPTH) ∧
      oneByte.prefetchAhead 0xFFFFFFFFFFFFFFFF =
        [{ addr := 4096, len := 1, advice := .willNeed }] := by
  have hevict : oneByte.evictLayer 4398046511104 =
      some { addr := 4096, len := 1, advice := .dontNeed } := by rfl
  have hprefetch : oneByte.prefetchAhead 0xFFFFFFFFFFFFFFFF =
      [{ addr := 4096, len := 1, advice := .willNeed }] := by rfl
  have hwindows : oneByte.windowsFrom (0xFFFFFFFFFFFFFFFF + 1) PREFETCH_DEPTH = [] :=
    oneByte.windowsFrom_of_le (by decide) _
  refine ⟨fun h => ?_, hevict, fun h => ?_, hprefetch⟩
  · have hnone := h.2 (by decide)
    rw [hevict] at hnone
    cases hnone
  · rw [hprefetch, hwindows] at h
    cases h

end FileMapper

end QuantumFlow
