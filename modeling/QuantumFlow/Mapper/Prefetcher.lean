import QuantumFlow.Foundation.Transition
import QuantumFlow.Mapper.Windows

/-!
# The prefetch thread and the owner of the mapping

The owner of an `InferenceMapper` maps the file, starts the thread, calls into the mapper and drops
it, which stops the thread and releases the mapping. The thread waits, looks whether it has to stop,
and prefetches the windows after the layer it sees. The two take their steps in any order. Their
only lock is the thread's own, a wait ends at any time, and a load may see an older store: what
orders the two is that the owner joins the thread.
-/

namespace QuantumFlow

/-- What the owner does between two steps of the thread. Notifying changes nothing, as a wait also
ends by itself. -/
inductive Op where
  | spawn
  | madvise (c : Madvise)
  | storeCurrent (layer : UInt64)
  | storeStop
  | notify
  | join

/-- A call into the mapper. The last two consume it. -/
inductive MapperCall where
  | advance (layer : UInt64)
  | evictLayer (idx : UInt64)
  | prefetchLayer (idx : UInt64)
  | activateLayer (idx : UInt64)
  | shutdownPrefetcher
  | shutdown
  | drop

/-- Where the owner is in the life of the mapping. -/
inductive Owner where
  | holds
  | dropping
  | unmapped
  | closed

/-- Where the thread is in its loop. In a round it has `left` windows to go, the next of which is
the `i`th after `cur`. -/
inductive Worker where
  | unspawned
  | unlocked
  | waiting
  | awake
  | running
  | round (cur : UInt64) (left : ℕ) (i : UInt64)
  | exited

structure Threads where
  owner : Owner
  ops : List Op
  worker : Worker
  /-- Whether the owner still has the handle of the thread. -/
  handle : Bool
  stop : Bool
  /-- What was stored in `current_layer`, the latest first. -/
  layers : List UInt64

inductive MapperEvent where
  | call (c : MapperCall)
  | op (o : Op)
  | munmap
  | close
  | lock
  | wake
  | seeStop
  | missStop
  | seeLayer (cur : UInt64)
  | prefetch (c : Madvise)
  | endRound

namespace Prefetcher

def advance (layer : UInt64) : List Op := [.storeCurrent layer, .notify]

def shutdown : List Op := [.storeStop, .notify, .join]

end Prefetcher

namespace InferenceMapper

variable (m : FileMapper)

/-- The first windows are prefetched beside the thread that was just started. -/
def new : List Op :=
  .spawn :: (List.range (min PREFETCH_DEPTH (numLayers m.totalSize).toNat)).flatMap
    fun i => (m.prefetchLayer (UInt64.ofNat i)).toList.map .madvise

/-- The body of `Drop`; the fields are dropped after it. -/
def drop : List Op := Prefetcher.shutdown

/-- The mapper is dropped when this returns. -/
def shutdown : List Op := Prefetcher.shutdown ++ drop

end InferenceMapper

namespace MapperCall

variable (m : FileMapper)

def ops : MapperCall → List Op
  | advance layer => Prefetcher.advance layer
  | evictLayer idx => (m.evictLayer idx).toList.map .madvise
  | prefetchLayer idx => (m.prefetchLayer idx).toList.map .madvise
  | activateLayer idx => (m.activateLayer idx).toList.map .madvise
  | shutdownPrefetcher => Prefetcher.shutdown
  | shutdown => InferenceMapper.shutdown
  | drop => InferenceMapper.drop

def after : MapperCall → Owner
  | shutdown => .dropping
  | drop => .dropping
  | _ => .holds

end MapperCall

namespace Op

/-- Joining waits for the thread, if the handle was not taken before. -/
def Ready : Op → Threads → Prop
  | join, s => s.handle = true → s.worker = .exited
  | _, _ => True

def effect : Op → Threads → Threads
  | spawn, s => { s with worker := .unlocked, handle := true }
  | madvise _, s => s
  | storeCurrent layer, s => { s with layers := layer :: s.layers }
  | storeStop, s => { s with stop := true }
  | notify, s => s
  | join, s => { s with handle := false }

end Op

/-- The file is mapped and nothing else was done. -/
def opened (m : FileMapper) : Threads where
  owner := .holds
  ops := InferenceMapper.new m
  worker := .unspawned
  handle := false
  stop := false
  layers := [0]

/-- One step of the owner or of the thread. -/
inductive MapperStep (m : FileMapper) : Threads → MapperEvent → Threads → Prop where
  | call {s : Threads} {c : MapperCall} (idle : s.ops = []) (holds : s.owner = .holds) :
      MapperStep m s (.call c) { s with owner := c.after, ops := c.ops m }
  | op {s : Threads} {o : Op} {ops : List Op} (next : s.ops = o :: ops) (ready : o.Ready s) :
      MapperStep m s (.op o) (o.effect { s with ops })
  | munmap {s : Threads} (idle : s.ops = []) (dropping : s.owner = .dropping) :
      MapperStep m s .munmap { s with owner := .unmapped }
  | close {s : Threads} (unmapped : s.owner = .unmapped) :
      MapperStep m s .close { s with owner := .closed }
  | lock {s : Threads} (here : s.worker = .unlocked) :
      MapperStep m s .lock { s with worker := .waiting }
  | wake {s : Threads} (here : s.worker = .waiting) :
      MapperStep m s .wake { s with worker := .awake }
  | seeStop {s : Threads} (here : s.worker = .awake) (stored : s.stop = true) :
      MapperStep m s .seeStop { s with worker := .exited }
  | missStop {s : Threads} (here : s.worker = .awake) :
      MapperStep m s .missStop { s with worker := .running }
  | seeLayer {s : Threads} {cur : UInt64} (here : s.worker = .running) (stored : cur ∈ s.layers) :
      MapperStep m s (.seeLayer cur) { s with worker := .round cur PREFETCH_DEPTH 1 }
  | prefetch {s : Threads} {cur i : UInt64} {left : ℕ} (here : s.worker = .round cur (left + 1) i)
      (inside : ¬ numLayers m.totalSize ≤ cur + i) :
      MapperStep m s (.prefetch (m.madviseAt ((cur + i) * LAYER_SIZE_BYTES) .willNeed))
        { s with worker := .round cur left (i + 1) }
  | endRound {s : Threads} {cur i : UInt64} {left : ℕ} (here : s.worker = .round cur left i)
      (ends : left = 0 ∨ numLayers m.totalSize ≤ cur + i) :
      MapperStep m s .endRound { s with worker := .unlocked }

namespace MapperEvent

/-- The steps of the thread. -/
def ofWorker : MapperEvent → Bool
  | lock => true
  | wake => true
  | seeStop => true
  | missStop => true
  | seeLayer _ => true
  | prefetch _ => true
  | endRound => true
  | _ => false

/-- The windows the thread asked for. -/
def prefetched : MapperEvent → Option Madvise
  | prefetch c => some c
  | _ => none

/-- The layers the thread saw. -/
def seen : MapperEvent → Option UInt64
  | seeLayer cur => some cur
  | _ => none

/-- The thread went on although it was told to stop, or before. -/
def missed : MapperEvent → Bool
  | missStop => true
  | _ => false

end MapperEvent

/-! ## A run -/

/-- A file of 2 GiB, and so of five windows. -/
def FileMapper.twoGib : FileMapper where
  ptr := 0x7F0000000000
  totalSize := 0x80000000
  pos := by decide
  room := by decide
  fits := by decide

/-- The prefetch of one of its windows. -/
def prefetchCall (i : UInt64) : Madvise :=
  FileMapper.twoGib.madviseAt (i * LAYER_SIZE_BYTES) .willNeed

theorem new_twoGib : InferenceMapper.new FileMapper.twoGib =
    [.spawn, .madvise (prefetchCall 0), .madvise (prefetchCall 1)] := by
  rfl

/-- A layer is stored in the middle of the first round. -/
def twoGibAdvanced : Threads where
  owner := .holds
  ops := [.notify]
  worker := .round 0 1 (1 + 1)
  handle := true
  stop := false
  layers := [3, 0]

/-- The mapper is dropped at the beginning of the round on the last window. -/
def twoGibStopping : Threads where
  owner := .dropping
  ops := [.notify, .join]
  worker := .round 3 2 1
  handle := true
  stop := true
  layers := [3, 0]

/-- The thread has missed the stop. -/
def twoGibMissed : Threads where
  owner := .dropping
  ops := [.join]
  worker := .running
  handle := true
  stop := true
  layers := [3, 0]

def twoGibClosed : Threads where
  owner := .closed
  ops := []
  worker := .exited
  handle := false
  stop := true
  layers := [3, 0]

def untilAdvance : List MapperEvent :=
  [.op .spawn, .op (.madvise (prefetchCall 0)), .op (.madvise (prefetchCall 1)), .lock, .wake,
    .missStop, .seeLayer 0, .prefetch (prefetchCall (0 + 1)), .call (.advance 3),
    .op (.storeCurrent 3)]

def untilStop : List MapperEvent :=
  untilAdvance ++ [.prefetch (prefetchCall (0 + (1 + 1))), .op .notify, .endRound, .lock, .wake,
    .missStop, .seeLayer 3, .call .drop, .op .storeStop]

def untilMiss : List MapperEvent :=
  [.op .notify, .prefetch (prefetchCall (3 + 1)), .endRound, .lock, .wake, .missStop]

/-- The thread goes one more round, on the layer that was stored first. -/
def untilJoin : List MapperEvent :=
  untilMiss ++ [.seeLayer 0, .prefetch (prefetchCall (0 + 1)),
    .prefetch (prefetchCall (0 + (1 + 1))), .endRound, .lock, .wake, .seeStop, .op .join]

def untilClose : List MapperEvent := untilJoin ++ [.munmap, .close]

theorem runs_untilAdvance :
    Runs (MapperStep FileMapper.twoGib) (opened FileMapper.twoGib) untilAdvance twoGibAdvanced :=
  .cons (.op new_twoGib trivial) <| .cons (.op rfl trivial) <| .cons (.op rfl trivial) <|
    .cons (.lock rfl) <| .cons (.wake rfl) <| .cons (.missStop rfl) <|
    .cons (.seeLayer rfl (List.mem_singleton.mpr rfl)) <| .cons (.prefetch rfl (by decide)) <|
    .cons (.call rfl rfl) <| .single (.op rfl trivial)

theorem runs_untilStop :
    Runs (MapperStep FileMapper.twoGib) (opened FileMapper.twoGib) untilStop twoGibStopping :=
  runs_untilAdvance.append <| .cons (.prefetch rfl (by decide)) <| .cons (.op rfl trivial) <|
    .cons (.endRound rfl (Or.inl rfl)) <| .cons (.lock rfl) <| .cons (.wake rfl) <|
    .cons (.missStop rfl) <| .cons (.seeLayer rfl List.mem_cons_self) <|
    .cons (.call rfl rfl) <| .single (.op rfl trivial)

theorem runs_untilMiss :
    Runs (MapperStep FileMapper.twoGib) twoGibStopping untilMiss twoGibMissed :=
  .cons (.op rfl trivial) <| .cons (.prefetch rfl (by decide)) <|
    .cons (.endRound rfl (Or.inr (by decide))) <| .cons (.lock rfl) <| .cons (.wake rfl) <|
    .single (.missStop rfl)

theorem runs_untilClose :
    Runs (MapperStep FileMapper.twoGib) twoGibStopping untilClose twoGibClosed :=
  runs_untilMiss.append <| .cons (.seeLayer rfl (by decide)) <|
    .cons (.prefetch rfl (by decide)) <| .cons (.prefetch rfl (by decide)) <|
    .cons (.endRound rfl (Or.inl rfl)) <| .cons (.lock rfl) <| .cons (.wake rfl) <|
    .cons (.seeStop rfl rfl) <| .cons (.op rfl fun _ => rfl) <| .cons (.munmap rfl rfl) <|
    .single (.close rfl)

/-! ## What every step keeps -/

/-- The thread was started and did not end. -/
def Worker.Live : Worker → Prop
  | .unspawned => False
  | .exited => False
  | _ => True

/-- A live thread can be joined, and is before the mapping is released. -/
structure Threads.Sound (s : Threads) : Prop where
  live : s.worker.Live → s.handle = true
  unspawned : s.worker = .unspawned → .spawn ∈ s.ops ∧ s.handle = false
  spawn : .spawn ∈ s.ops → s.owner = .holds ∧ s.worker = .unspawned
  once : .spawn ∉ s.ops.tail
  dropping : s.owner = .dropping → s.handle = true → .join ∈ s.ops
  released : s.owner = .unmapped ∨ s.owner = .closed → s.handle = false ∧ s.ops = []

variable {m : FileMapper} {s t : Threads} {e : MapperEvent} {es : List MapperEvent}

theorem spawn_notMem_ops (m : FileMapper) (c : MapperCall) : Op.spawn ∉ c.ops m := by
  cases c <;>
    simp [MapperCall.ops, Prefetcher.advance, Prefetcher.shutdown, InferenceMapper.shutdown,
      InferenceMapper.drop]

theorem join_mem_ops {c : MapperCall} (h : c.after = .dropping) : Op.join ∈ c.ops m := by
  cases c with
  | shutdown => simp [MapperCall.ops, InferenceMapper.shutdown, Prefetcher.shutdown]
  | drop => simp [MapperCall.ops, InferenceMapper.drop, Prefetcher.shutdown]
  | _ => cases h

theorem after_eq (c : MapperCall) : c.after = .holds ∨ c.after = .dropping := by
  cases c <;> simp [MapperCall.after]

theorem spawn_notMem_tail_new (m : FileMapper) : Op.spawn ∉ (InferenceMapper.new m).tail := by
  rw [InferenceMapper.new, List.tail_cons]
  intro h
  obtain ⟨i, -, hi⟩ := List.mem_flatMap.mp h
  obtain ⟨c, -, hc⟩ := List.mem_map.mp hi
  cases hc

theorem sound_opened (m : FileMapper) : (opened m).Sound where
  live h := h.elim
  unspawned _ := ⟨List.mem_cons_self, rfl⟩
  spawn _ := ⟨rfl, rfl⟩
  once := spawn_notMem_tail_new m
  dropping h := by cases h
  released h := by rcases h with h | h <;> cases h

/-- The thread moves on; the rest stays. -/
theorem Threads.Sound.of_worker (hs : s.Sound) {w : Worker} (hlive : s.worker.Live)
    (hw : w ≠ .unspawned) : ({ s with worker := w } : Threads).Sound where
  live _ := hs.live hlive
  unspawned h := absurd h hw
  spawn hmem := by
    rw [(hs.spawn hmem).2] at hlive
    exact hlive.elim
  once := hs.once
  dropping := hs.dropping
  released := hs.released

/-- What the owner does next comes off its list. -/
theorem Threads.Sound.op (hs : s.Sound) {o : Op} {ops : List Op} (hnext : s.ops = o :: ops)
    (hready : o.Ready s) : (o.effect { s with ops }).Sound := by
  have hunspawned : s.worker = .unspawned → (o = .spawn ∨ .spawn ∈ ops) ∧ s.handle = false := by
    intro hw
    obtain ⟨hmem, hhandle⟩ := hs.unspawned hw
    rw [hnext] at hmem
    exact ⟨(List.mem_cons.mp hmem).imp_left Eq.symm, hhandle⟩
  have honce : .spawn ∉ ops := by
    have htail := hs.once
    rwa [hnext] at htail
  have hspawn (w : Worker) : .spawn ∈ ops → s.owner = .holds ∧ w = .unspawned := fun hmem =>
    absurd hmem honce
  have htail : .spawn ∉ ops.tail := fun hmem => honce (List.mem_of_mem_tail hmem)
  have hdropping : s.owner = .dropping → s.handle = true → o = .join ∨ .join ∈ ops := by
    intro hdrop hhandle
    have hmem := hs.dropping hdrop hhandle
    rw [hnext] at hmem
    exact (List.mem_cons.mp hmem).imp_left Eq.symm
  have hreleased : ¬ (s.owner = .unmapped ∨ s.owner = .closed) := fun hgone => by
    have hnil := (hs.released hgone).2
    rw [hnext] at hnil
    cases hnil
  cases o with
  | spawn =>
    have hholds := (hs.spawn (hnext ▸ List.mem_cons_self)).1
    refine ⟨fun _ => rfl, fun h => ?_, hspawn _, htail, fun h => ?_, fun h => absurd h hreleased⟩
    · cases h
    · cases hholds.symm.trans h
  | join =>
    refine ⟨fun hlive => ?_, fun hw => ⟨(hunspawned hw).1.resolve_left (by simp), rfl⟩, hspawn _,
      htail, fun _ h => ?_, fun h => absurd h hreleased⟩
    · have hexited : s.worker = .exited := hready (hs.live hlive)
      change s.worker.Live at hlive
      rw [hexited] at hlive
      exact hlive.elim
    · cases h
  | madvise _ | storeCurrent _ | storeStop | notify =>
    exact ⟨hs.live, fun hw => (hunspawned hw).imp_left (·.resolve_left (by simp)), hspawn _, htail,
      fun hdrop hhandle => (hdropping hdrop hhandle).resolve_left (by simp),
      fun h => absurd h hreleased⟩

theorem Threads.Sound.call (hs : s.Sound) {c : MapperCall} (hidle : s.ops = []) :
    ({ s with owner := c.after, ops := c.ops m } : Threads).Sound where
  live := hs.live
  unspawned hw := by
    have hmem := (hs.unspawned hw).1
    rw [hidle] at hmem
    cases hmem
  spawn hmem := absurd hmem (spawn_notMem_ops m c)
  once hmem := spawn_notMem_ops m c (List.mem_of_mem_tail hmem)
  dropping hdrop _ := join_mem_ops hdrop
  released hgone := by
    rcases after_eq c with heq | heq <;> rw [heq] at hgone <;> rcases hgone with h | h <;> cases h

/-- The owner that has nothing left to do before it releases the mapping took the handle. -/
theorem Threads.Sound.handle_of_idle (hs : s.Sound) (hidle : s.ops = [])
    (hdropping : s.owner = .dropping) : s.handle = false := by
  by_contra htrue
  have hjoin := hs.dropping hdropping (by simpa using htrue)
  rw [hidle] at hjoin
  cases hjoin

/-- The mapping or the file is released. -/
theorem Threads.Sound.of_owner (hs : s.Sound) {o : Owner} (ho : o = .unmapped ∨ o = .closed)
    (hreleased : s.handle = false ∧ s.ops = []) : ({ s with owner := o } : Threads).Sound where
  live := hs.live
  unspawned := hs.unspawned
  spawn hmem := by
    rw [hreleased.2] at hmem
    cases hmem
  once := hs.once
  dropping hdrop := by
    rcases ho with rfl | rfl <;> cases hdrop
  released _ := hreleased

theorem Threads.Sound.step (hs : s.Sound) (h : MapperStep m s e t) : t.Sound := by
  cases h with
  | call idle _ => exact hs.call idle
  | op next ready => exact hs.op next ready
  | munmap idle dropping =>
    exact hs.of_owner (Or.inl rfl) ⟨hs.handle_of_idle idle dropping, idle⟩
  | close unmapped => exact hs.of_owner (Or.inr rfl) (hs.released (Or.inl unmapped))
  | lock here => exact hs.of_worker (here ▸ trivial) (by simp)
  | wake here => exact hs.of_worker (here ▸ trivial) (by simp)
  | seeStop here _ => exact hs.of_worker (here ▸ trivial) (by simp)
  | missStop here => exact hs.of_worker (here ▸ trivial) (by simp)
  | seeLayer here _ => exact hs.of_worker (here ▸ trivial) (by simp)
  | prefetch here _ => exact hs.of_worker (here ▸ trivial) (by simp)
  | endRound here _ => exact hs.of_worker (here ▸ trivial) (by simp)

theorem sound_of_runs (h : Runs (MapperStep m) (opened m) es s) : s.Sound :=
  h.invariant Threads.Sound Threads.Sound.step (sound_opened m)

/-! ## The mapping is released last -/

/-- When the thread ended, the trace says where: it did nothing afterwards, and it was joined if the
handle is taken. -/
def Ended (es : List MapperEvent) (s : Threads) : Prop :=
  s.worker = .exited → ∃ early late, es = early ++ .seeStop :: late ∧
    (∀ e ∈ late, e.ofWorker = false) ∧ (s.handle = false → .op .join ∈ late)

theorem Ended.of_owner (h : Ended es s) (hworker : t.worker = .exited → s.worker = .exited)
    (he : e.ofWorker = false) (hhandle : t.handle = false → s.handle = false ∨ e = .op .join) :
    Ended (es ++ [e]) t := by
  intro hexited
  obtain ⟨early, late, rfl, hlate, hjoin⟩ := h (hworker hexited)
  refine ⟨early, late ++ [e], by simp, fun e' he' => ?_, fun hfalse => ?_⟩
  · rcases List.mem_append.mp he' with hmem | hmem
    · exact hlate e' hmem
    · rw [List.mem_singleton.mp hmem, he]
  · rcases hhandle hfalse with hold | rfl
    · exact List.mem_append_left _ (hjoin hold)
    · exact List.mem_append_right _ (List.mem_singleton.mpr rfl)

theorem Ended.step (hs : s.Sound) (h : Ended es s) (hstep : MapperStep m s e t) :
    Ended (es ++ [e]) t := by
  cases hstep with
  | call idle holds => exact h.of_owner id rfl Or.inl
  | @op o ops next ready =>
    cases o with
    | spawn => intro hexited; cases hexited
    | join => exact h.of_owner id rfl fun _ => Or.inr rfl
    | madvise _ | storeCurrent _ | storeStop | notify => exact h.of_owner id rfl Or.inl
  | munmap _ _ => exact h.of_owner id rfl Or.inl
  | close _ => exact h.of_owner id rfl Or.inl
  | seeStop here _ =>
    have hhandle : s.handle = true := hs.live (here ▸ trivial)
    exact fun _ => ⟨es, [], rfl, by simp, fun hfalse => by cases hhandle.symm.trans hfalse⟩
  | lock _ | wake _ | missStop _ | seeLayer _ _ | prefetch _ _ | endRound _ _ =>
    intro hexited
    cases hexited

theorem ended_of_runs (h : Runs (MapperStep m) (opened m) es s) : Ended es s := by
  have hopened : Ended [] (opened m) := fun hexited => by cases hexited
  exact h.history (P := Threads.Sound) Ended Threads.Sound.step Ended.step (sound_opened m) hopened

/-- Without a handle no thread is live. -/
theorem Threads.Sound.not_live (hs : s.Sound) (hhandle : s.handle = false) :
    ¬ s.worker.Live := fun hlive => by cases hhandle.symm.trans (hs.live hlive)

/-- All that is left to do is to close the file. -/
theorem Threads.Sound.close_of_step (hs : s.Sound)
    (hreleased : s.owner = .unmapped ∨ s.owner = .closed) (h : MapperStep m s e t) :
    e = .close ∧ s.owner = .unmapped ∧ t.owner = .closed := by
  obtain ⟨hhandle, hidle⟩ := hs.released hreleased
  have hdead := hs.not_live hhandle
  cases h with
  | call _ holds => rcases hreleased with h | h <;> cases holds.symm.trans h
  | op next _ => cases hidle.symm.trans next
  | munmap _ dropping => rcases hreleased with h | h <;> cases dropping.symm.trans h
  | close unmapped => exact ⟨rfl, unmapped, rfl⟩
  | lock here | wake here | missStop here => exact absurd (here ▸ trivial) hdead
  | seeStop here _ | seeLayer here _ | prefetch here _ | endRound here _ =>
    exact absurd (here ▸ trivial) hdead

theorem Threads.Sound.trace_of_unmapped (hs : s.Sound) (howner : s.owner = .unmapped)
    (h : Runs (MapperStep m) s es t) : es = [] ∨ es = [.close] := by
  cases es with
  | nil => exact Or.inl rfl
  | cons e es =>
    obtain ⟨u, hfirst, hrest⟩ := h.exists_of_cons
    obtain ⟨rfl, -, hclosed⟩ := hs.close_of_step (Or.inl howner) hfirst
    cases es with
    | nil => exact Or.inr rfl
    | cons e' es' =>
      obtain ⟨_, hsecond, -⟩ := hrest.exists_of_cons
      have hunmapped := ((hs.step hfirst).close_of_step (Or.inr hclosed) hsecond).2.1
      cases hclosed.symm.trans hunmapped

/-- In every interleaving the mapping is released after the thread has ended and was joined, and
after that the file is closed and nothing else happens. -/
theorem unmapped_last (m : FileMapper) (before after : List MapperEvent) {s : Threads}
    (h : Runs (MapperStep m) (opened m) (before ++ .munmap :: after) s) :
    (after = [] ∨ after = [.close]) ∧
      ∃ early late, before = early ++ .seeStop :: late ∧ .op .join ∈ late ∧
        ∀ e ∈ late, e.ofWorker = false := by
  obtain ⟨t, hbefore, hrest⟩ := h.exists_of_append
  obtain ⟨u, hmunmap, hafter⟩ := hrest.exists_of_cons
  have hsound := sound_of_runs hbefore
  refine ⟨?_, ?_⟩
  · have howner : u.owner = .unmapped := by
      cases hmunmap with
      | munmap _ _ => rfl
    exact (hsound.step hmunmap).trace_of_unmapped howner hafter
  · cases hmunmap with
    | munmap idle dropping =>
      have hhandle := hsound.handle_of_idle idle dropping
      have hexited : t.worker = .exited := by
        cases hw : t.worker with
        | exited => rfl
        | unspawned =>
          have hmem := (hsound.unspawned hw).1
          rw [idle] at hmem
          cases hmem
        | _ => exact absurd (hw ▸ trivial) (hsound.not_live hhandle)
      obtain ⟨early, late, hcut, hlate, hjoin⟩ := ended_of_runs hbefore hexited
      exact ⟨early, late, hcut, hjoin hhandle, hlate⟩

theorem unmapped_last_twoGib :
    ([.close] = ([] : List MapperEvent) ∨ [MapperEvent.close] = [.close]) ∧
      ∃ early late, untilStop ++ untilJoin = early ++ .seeStop :: late ∧ .op .join ∈ late ∧
        ∀ e ∈ late, e.ofWorker = false :=
  unmapped_last FileMapper.twoGib (untilStop ++ untilJoin) [.close]
    (runs_untilStop.append runs_untilClose)

/-! ## The windows the thread asks for -/

def prefetchedIn (es : List MapperEvent) : List Madvise := es.filterMap MapperEvent.prefetched

def seenIn (es : List MapperEvent) : List UInt64 := es.filterMap MapperEvent.seen

/-- What is left of the round. -/
def Worker.pending (m : FileMapper) : Worker → List Madvise
  | round cur left i => m.prefetchFrom cur left i
  | _ => []

/-- Round by round the thread asks for what follows the layers it saw, and it sees what was
stored. -/
structure Rounds (m : FileMapper) (es : List MapperEvent) (s : Threads) : Prop where
  calls : prefetchedIn es ++ s.worker.pending m = (seenIn es).flatMap m.prefetchAhead
  seen : ∀ cur ∈ seenIn es, cur ∈ s.layers
  stored : ∀ layer ∈ s.layers, layer = 0 ∨ .op (.storeCurrent layer) ∈ es

/-- A step that neither starts nor continues a round. -/
theorem Rounds.of_quiet (h : Rounds m es s) (hprefetched : e.prefetched = none)
    (hseen : e.seen = none) (hpending : t.worker.pending m = s.worker.pending m)
    (hlayers : ∀ layer ∈ t.layers, layer ∈ s.layers ∨ e = .op (.storeCurrent layer))
    (hkept : ∀ layer ∈ s.layers, layer ∈ t.layers) : Rounds m (es ++ [e]) t where
  calls := by
    simpa [prefetchedIn, seenIn, hprefetched, hseen, hpending] using h.calls
  seen cur hcur := by
    refine hkept cur (h.seen cur ?_)
    simpa [seenIn, hseen] using hcur
  stored layer hlayer := by
    rcases hlayers layer hlayer with hold | rfl
    · exact (h.stored layer hold).imp_right (List.mem_append_left _)
    · exact Or.inr (List.mem_append_right _ (List.mem_singleton.mpr rfl))

theorem Rounds.op (h : Rounds m es s) (hs : s.Sound) {o : Op} {ops : List Op}
    (hnext : s.ops = o :: ops) : Rounds m (es ++ [.op o]) (o.effect { s with ops }) := by
  cases o with
  | spawn =>
    have hunspawned := (hs.spawn (hnext ▸ List.mem_cons_self)).2
    have hpending : s.worker.pending m = [] := by rw [hunspawned]; rfl
    exact h.of_quiet rfl rfl hpending.symm (fun _ hmem => Or.inl hmem) fun _ hmem => hmem
  | storeCurrent layer =>
    refine h.of_quiet rfl rfl rfl (fun layer' hmem => ?_) fun _ hmem => List.mem_cons_of_mem _ hmem
    rcases List.mem_cons.mp hmem with rfl | hold
    · exact Or.inr rfl
    · exact Or.inl hold
  | madvise _ | storeStop | notify | join =>
    exact h.of_quiet rfl rfl rfl (fun _ hmem => Or.inl hmem) fun _ hmem => hmem

/-- A round starts with all the windows after the layer. -/
theorem Rounds.seeLayer (h : Rounds m es s) {cur : UInt64} (here : s.worker = .running)
    (hstored : cur ∈ s.layers) :
    Rounds m (es ++ [.seeLayer cur]) { s with worker := .round cur PREFETCH_DEPTH 1 } where
  calls := by
    have hpending : s.worker.pending m = [] := by rw [here]; rfl
    have hcalls := h.calls
    rw [hpending, List.append_nil] at hcalls
    rw [prefetchedIn, seenIn, List.filterMap_append, List.filterMap_append, List.flatMap_append,
      ← seenIn, ← hcalls, prefetchedIn]
    simp [MapperEvent.prefetched, MapperEvent.seen, Worker.pending, FileMapper.prefetchAhead]
  seen cur' hcur := by
    rw [seenIn, List.filterMap_append] at hcur
    rcases List.mem_append.mp hcur with hold | hnew
    · exact h.seen cur' hold
    · rw [List.mem_singleton.mp hnew]
      exact hstored
  stored layer hlayer := (h.stored layer hlayer).imp_right (List.mem_append_left _)

theorem Rounds.prefetch (h : Rounds m es s) {cur i : UInt64} {left : ℕ}
    (here : s.worker = .round cur (left + 1) i) (inside : ¬ numLayers m.totalSize ≤ cur + i) :
    Rounds m (es ++ [.prefetch (m.madviseAt ((cur + i) * LAYER_SIZE_BYTES) .willNeed)])
      { s with worker := .round cur left (i + 1) } where
  calls := by
    have hcalls := h.calls
    rw [here, Worker.pending, FileMapper.prefetchFrom, if_neg inside] at hcalls
    have hseen (c : Madvise) : (MapperEvent.prefetch c).seen = none := rfl
    simpa [prefetchedIn, seenIn, MapperEvent.prefetched, hseen, Worker.pending] using hcalls
  seen cur' hcur := by
    refine h.seen cur' ?_
    simpa [seenIn, MapperEvent.seen] using hcur
  stored layer hlayer := (h.stored layer hlayer).imp_right (List.mem_append_left _)

theorem prefetchFrom_of_ends {cur i : UInt64} {left : ℕ}
    (h : left = 0 ∨ numLayers m.totalSize ≤ cur + i) : m.prefetchFrom cur left i = [] := by
  cases left with
  | zero => rfl
  | succ left => exact if_pos (h.resolve_left (Nat.succ_ne_zero left))

theorem Rounds.step (hs : s.Sound) (h : Rounds m es s) (hstep : MapperStep m s e t) :
    Rounds m (es ++ [e]) t := by
  cases hstep with
  | op next _ => exact h.op hs next
  | seeLayer here stored => exact h.seeLayer here stored
  | prefetch here inside => exact h.prefetch here inside
  | call _ _ | munmap _ _ | close _ =>
    exact h.of_quiet rfl rfl rfl (fun _ hmem => Or.inl hmem) fun _ hmem => hmem
  | lock here | wake here | missStop here | seeStop here _ =>
    exact h.of_quiet rfl rfl (by rw [here]; rfl) (fun _ hmem => Or.inl hmem) fun _ hmem => hmem
  | endRound here ends =>
    have hpending : s.worker.pending m = [] := by
      rw [here]
      exact prefetchFrom_of_ends ends
    exact h.of_quiet rfl rfl hpending.symm (fun _ hmem => Or.inl hmem) fun _ hmem => hmem

theorem rounds_of_runs (h : Runs (MapperStep m) (opened m) es s) : Rounds m es s := by
  have hopened : Rounds m [] (opened m) :=
    ⟨rfl, by simp [seenIn], fun layer hlayer => Or.inl (by simpa [opened] using hlayer)⟩
  exact h.history (P := Threads.Sound) (Rounds m) Threads.Sound.step Rounds.step (sound_opened m)
    hopened

/-- Rounds on the windows after layers that are not the last index. -/
theorem prefetchesWindows_flatMap {layers : List UInt64}
    (h : ∀ cur ∈ layers, cur.toNat + 1 ≠ 2 ^ 64) :
    m.PrefetchesWindows (layers.flatMap m.prefetchAhead)
      (layers.flatMap fun cur => m.windowsFrom (cur.toNat + 1) PREFETCH_DEPTH) := by
  induction layers with
  | nil => exact List.Forall₂.nil
  | cons cur layers ih =>
    have hfirst := (m.prefetchAhead_iff cur).mpr (h cur List.mem_cons_self)
    have hrest := ih fun cur' hcur => h cur' (List.mem_cons_of_mem cur hcur)
    rw [List.flatMap_cons, List.flatMap_cons]
    exact List.rel_append hfirst hrest

/-- In every interleaving the thread sees layers that were stored and asks, one after the other, for
what follows each of them, but for the rest of its last round; and these are the windows after the
layers, if the last index was never stored. -/
theorem prefetches_in_rounds (m : FileMapper) {es : List MapperEvent} {s : Threads}
    (h : Runs (MapperStep m) (opened m) es s) :
    prefetchedIn es ++ s.worker.pending m = (seenIn es).flatMap m.prefetchAhead ∧
      (∀ cur ∈ seenIn es, cur = 0 ∨ .op (.storeCurrent cur) ∈ es) ∧
      ((∀ layer, .op (.storeCurrent layer) ∈ es → layer.toNat + 1 ≠ 2 ^ 64) →
        m.PrefetchesWindows (prefetchedIn es ++ s.worker.pending m)
          ((seenIn es).flatMap fun cur => m.windowsFrom (cur.toNat + 1) PREFETCH_DEPTH)) := by
  have hrounds := rounds_of_runs h
  have hseen : ∀ cur ∈ seenIn es, cur = 0 ∨ .op (.storeCurrent cur) ∈ es := fun cur hcur =>
    hrounds.stored cur (hrounds.seen cur hcur)
  refine ⟨hrounds.calls, hseen, fun hlast => ?_⟩
  rw [hrounds.calls]
  refine prefetchesWindows_flatMap fun cur hcur => ?_
  rcases hseen cur hcur with rfl | hstored
  · decide
  · exact hlast cur hstored

/-- Rounds on the windows after 0, after the stored layer 3, where one is left, and after 0 once
more. -/
theorem prefetches_in_rounds_twoGib :
    prefetchedIn (untilStop ++ untilClose) = [1, 2, 4, 1, 2].map prefetchCall ∧
      seenIn (untilStop ++ untilClose) = [0, 3, 0] ∧
      MapperEvent.op (.storeCurrent 3) ∈ untilStop ++ untilClose ∧
      FileMapper.twoGib.PrefetchesWindows ([1, 2, 4, 1, 2].map prefetchCall) [1, 2, 4, 1, 2] := by
  obtain ⟨hcalls, hstored, hwindows⟩ :=
    prefetches_in_rounds FileMapper.twoGib (runs_untilStop.append runs_untilClose)
  have hlast : ∀ layer, .op (.storeCurrent layer) ∈ untilStop ++ untilClose →
      layer.toNat + 1 ≠ 2 ^ 64 := by
    intro layer hmem
    have hthree : layer = 3 := by
      simpa [untilStop, untilAdvance, untilClose, untilJoin, untilMiss] using hmem
    rw [hthree]
    decide
  have hseen : seenIn (untilStop ++ untilClose) = [0, 3, 0] := rfl
  have hpending : twoGibClosed.worker.pending FileMapper.twoGib = [] := rfl
  rw [hpending, List.append_nil] at hcalls hwindows
  have hlist : prefetchedIn (untilStop ++ untilClose) = [1, 2, 4, 1, 2].map prefetchCall := by
    rw [hcalls, hseen]
    rfl
  refine ⟨hlist, hseen, (hstored 3 (by rw [hseen]; decide)).resolve_left (by decide), ?_⟩
  have hforall := hwindows hlast
  rw [hlist, hseen] at hforall
  exact hforall

end QuantumFlow
