import QuantumFlow.Mapper.Prefetcher

/-!
# Stopping the prefetch thread

The flag that stops the thread is read once in a round. A thread that sees it ends; one that misses
it pays for one more round. Dropping the mapper stores the flag, joins the thread, and releases the
mapping, and so it comes to an end.
-/

namespace QuantumFlow

variable {m : FileMapper} {s t : Threads} {e : MapperEvent} {es : List MapperEvent}

/-- The windows the thread asks for before it looks again whether to stop. -/
def Worker.callsLeft : Worker → ℕ
  | running => PREFETCH_DEPTH
  | round _ left _ => left
  | _ => 0

/-- The steps to the end of a thread that sees the stop the next time it looks. -/
def Worker.stepsLeft : Worker → ℕ
  | unspawned => 3
  | unlocked => 3
  | waiting => 2
  | awake => 1
  | running => PREFETCH_DEPTH + 5
  | round _ left _ => left + 4
  | exited => 0

theorem callsLeft_le (h : Runs (MapperStep m) (opened m) es s) :
    s.worker.callsLeft ≤ PREFETCH_DEPTH := by
  refine h.invariant (fun s => s.worker.callsLeft ≤ PREFETCH_DEPTH) (fun {t e u} ht hstep => ?_)
    (Nat.zero_le _)
  cases hstep with
  | @op o _ _ _ => cases o <;> first | exact ht | exact Nat.zero_le _
  | call _ _ | munmap _ _ | close _ => exact ht
  | lock _ | wake _ | seeStop _ _ | endRound _ _ => exact Nat.zero_le _
  | missStop _ | seeLayer _ _ => exact le_rfl
  | prefetch here _ =>
    rw [here] at ht
    exact (Nat.le_succ _).trans ht

theorem stepsLeft_le (h : s.worker.callsLeft ≤ PREFETCH_DEPTH) :
    s.worker.stepsLeft ≤ PREFETCH_DEPTH + 5 := by
  cases hw : s.worker with
  | round _ left _ =>
    rw [hw, Worker.callsLeft] at h
    rw [Worker.stepsLeft]
    omega
  | _ => simp [Worker.stepsLeft]

/-- A look at the flag that misses the stop pays for one round. -/
theorem callsLeft_paid (h : MapperStep m s e t) :
    t.worker.callsLeft + e.prefetched.isSome.toNat ≤
      s.worker.callsLeft + PREFETCH_DEPTH * e.missed.toNat := by
  cases h with
  | @op o _ _ _ => cases o <;> first | exact Nat.le_add_right _ _ | exact Nat.zero_le _
  | call _ _ | munmap _ _ | close _ => exact Nat.le_add_right _ _
  | lock _ | wake _ | seeStop _ _ | endRound _ _ => exact Nat.zero_le _
  | missStop _ => exact Nat.le_add_left _ _
  | seeLayer here _ | prefetch here _ =>
    rw [here]
    exact Nat.le_refl _

theorem stepsLeft_paid (hs : s.Sound) (h : MapperStep m s e t) :
    t.worker.stepsLeft + e.ofWorker.toNat ≤
      s.worker.stepsLeft + (PREFETCH_DEPTH + 5) * e.missed.toNat := by
  cases h with
  | @op o _ next _ =>
    cases o with
    | spawn =>
      rw [(hs.spawn (next ▸ List.mem_cons_self)).2]
      exact Nat.le_refl _
    | _ => exact Nat.le_add_right _ _
  | call _ _ | munmap _ _ | close _ => exact Nat.le_add_right _ _
  | missStop here =>
    rw [here]
    exact Nat.le_add_left _ _
  | lock here | wake here | seeStop here _ | seeLayer here _ | prefetch here _ =>
    rw [here]
    exact Nat.le_refl _
  | endRound here _ =>
    rw [here]
    exact Nat.add_le_add_right (Nat.le_add_left 3 _) 1

def missesIn (es : List MapperEvent) : ℕ := es.countP MapperEvent.missed

/-- A live thread that was told to stop can always move without missing it. -/
theorem exists_step_of_live (hlive : s.worker.Live) (hstop : s.stop = true)
    (hlayers : s.layers ≠ []) :
    ∃ e t, e.ofWorker = true ∧ e.missed = false ∧ MapperStep m s e t := by
  cases hw : s.worker with
  | unspawned | exited =>
    rw [hw] at hlive
    exact hlive.elim
  | unlocked => exact ⟨_, _, rfl, rfl, .lock hw⟩
  | waiting => exact ⟨_, _, rfl, rfl, .wake hw⟩
  | awake => exact ⟨_, _, rfl, rfl, .seeStop hw hstop⟩
  | running =>
    obtain ⟨cur, hcur⟩ := List.exists_mem_of_ne_nil _ hlayers
    exact ⟨_, _, rfl, rfl, .seeLayer hw hcur⟩
  | round cur left i =>
    by_cases hends : left = 0 ∨ numLayers m.totalSize ≤ cur + i
    · exact ⟨_, _, rfl, rfl, .endRound hw hends⟩
    · obtain ⟨hleft, hinside⟩ := not_or.mp hends
      obtain ⟨left', rfl⟩ := Nat.exists_eq_succ_of_ne_zero hleft
      exact ⟨_, _, rfl, rfl, .prefetch hw hinside⟩

/-- What was stored is not taken back. -/
structure Threads.Kept (s t : Threads) : Prop where
  stop : s.stop = true → t.stop = true
  layers : s.layers ≠ [] → t.layers ≠ []

theorem kept_of_step (h : MapperStep m s e t) : s.Kept t := by
  cases h with
  | @op o _ _ _ =>
    cases o with
    | storeStop => exact ⟨fun _ => rfl, id⟩
    | storeCurrent layer => exact ⟨id, fun _ => List.cons_ne_nil _ _⟩
    | _ => exact ⟨id, id⟩
  | _ => exact ⟨id, id⟩

theorem kept_of_runs (h : Runs (MapperStep m) s es t) : s.Kept t :=
  h.invariant s.Kept
    (fun ht hstep => ⟨(kept_of_step hstep).stop ∘ ht.stop, (kept_of_step hstep).layers ∘ ht.layers⟩)
    ⟨id, id⟩

theorem layers_ne_nil (h : Runs (MapperStep m) (opened m) es s) : s.layers ≠ [] :=
  (kept_of_runs h).layers (List.cons_ne_nil _ _)

/-- Once told to stop, the thread asks for at most one more round of windows and takes at most seven
steps, and as many again for each time it looks and misses the stop; until it ends it can always
take a step that does not. -/
theorem stops_soon (m : FileMapper) {es es' : List MapperEvent} {s t : Threads}
    (h : Runs (MapperStep m) (opened m) es s) (hstop : s.stop = true)
    (h' : Runs (MapperStep m) s es' t) :
    (prefetchedIn es').length ≤ PREFETCH_DEPTH * (missesIn es' + 1) ∧
      es'.countP MapperEvent.ofWorker ≤ 7 * (missesIn es' + 1) ∧
      (t.worker.Live → ∃ e u, e.ofWorker = true ∧ e.missed = false ∧ MapperStep m t e u) := by
  have hcalls := callsLeft_le h
  have hsteps := stepsLeft_le hcalls
  have hsound := sound_of_runs h
  have hkept := kept_of_runs h'
  refine ⟨?_, ?_, fun hlive =>
    exists_step_of_live hlive (hkept.stop hstop) (hkept.layers (layers_ne_nil h))⟩
  · have hpaid := h'.countP_le (P := fun _ => True) (fun s => s.worker.callsLeft)
      (fun e => e.prefetched.isSome) MapperEvent.missed PREFETCH_DEPTH (fun _ _ => trivial)
      (fun _ hstep => callsLeft_paid hstep) trivial
    rw [prefetchedIn, List.length_filterMap_eq_countP, missesIn, Nat.mul_add]
    omega
  · have hpaid := h'.countP_le (P := Threads.Sound) (fun s => s.worker.stepsLeft)
      MapperEvent.ofWorker MapperEvent.missed (PREFETCH_DEPTH + 5) Threads.Sound.step
      stepsLeft_paid hsound
    rw [PREFETCH_DEPTH] at hpaid hsteps
    rw [missesIn]
    omega

/-- Stopped in the middle of a round, the thread asks for the rest of it and for one more round. -/
theorem stops_soon_twoGib :
    (prefetchedIn untilClose).length ≤ PREFETCH_DEPTH * (missesIn untilClose + 1) ∧
      untilClose.countP MapperEvent.ofWorker ≤ 7 * (missesIn untilClose + 1) ∧
      prefetchedIn untilClose = [4, 1, 2].map prefetchCall ∧ missesIn untilClose = 1 :=
  have h := stops_soon FileMapper.twoGib runs_untilStop rfl runs_untilClose
  ⟨h.1, h.2.1, rfl, rfl⟩

/-! ## Dropping the mapper -/

/-- The steps of the mapper's fields being dropped. -/
def Owner.stepsLeft : Owner → ℕ
  | holds => 0
  | dropping => 2
  | unmapped => 1
  | closed => 0

def Threads.stepsLeft (s : Threads) : ℕ :=
  s.worker.stepsLeft + s.ops.length + s.owner.stepsLeft

/-- The mapper was consumed. -/
structure Threads.Dropped (s : Threads) : Prop where
  sound : s.Sound
  owner : s.owner ≠ .holds

theorem Threads.Dropped.step (hs : s.Dropped) (h : MapperStep m s e t) : t.Dropped := by
  refine ⟨hs.sound.step h, ?_⟩
  cases h with
  | call _ holds => exact absurd holds hs.owner
  | @op o _ _ _ => cases o <;> exact hs.owner
  | munmap _ _ | close _ => simp
  | lock _ | wake _ | seeStop _ _ | missStop _ | seeLayer _ _ | prefetch _ _ | endRound _ _ =>
    exact hs.owner

theorem dropped_paid (hs : s.Dropped) (h : MapperStep m s e t) :
    t.stepsLeft + 1 ≤ s.stepsLeft + (PREFETCH_DEPTH + 5) * e.missed.toNat := by
  have hworker := stepsLeft_paid hs.sound h
  rw [Threads.stepsLeft, Threads.stepsLeft]
  cases h with
  | call _ holds => exact absurd holds hs.owner
  | @op o ops next _ =>
    have hops : (o.effect { s with ops }).ops = ops := by cases o <;> rfl
    have howner : (o.effect { s with ops }).owner = s.owner := by cases o <;> rfl
    rw [hops, howner, next, List.length_cons]
    omega
  | munmap _ dropping =>
    rw [dropping]
    simp only [Owner.stepsLeft]
    omega
  | close unmapped =>
    rw [unmapped]
    simp only [Owner.stepsLeft]
    omega
  | lock _ | wake _ | seeStop _ _ | missStop _ | seeLayer _ _ | prefetch _ _ | endRound _ _ =>
    simp only [MapperEvent.ofWorker, Bool.toNat_true] at hworker ⊢
    omega

theorem ops_length_le (h : Runs (MapperStep m) (opened m) es s) (hdropped : s.owner ≠ .holds) :
    s.ops.length ≤ 6 := by
  refine h.invariant (fun s => s.owner ≠ .holds → s.ops.length ≤ 6) (fun {t e u} ht hstep => ?_)
    (fun hne => absurd rfl hne) hdropped
  intro hu
  cases hstep with
  | @call c _ _ =>
    cases c with
    | shutdown => exact Nat.le_refl 6
    | drop => exact Nat.le_add_right 3 3
    | _ => exact absurd rfl hu
  | @op o ops next _ =>
    have hops : (o.effect { t with ops }).ops = ops := by cases o <;> rfl
    have howner : (o.effect { t with ops }).owner = t.owner := by cases o <;> rfl
    rw [howner] at hu
    have hlength := ht hu
    rw [next, List.length_cons] at hlength
    rw [hops]
    omega
  | munmap _ dropping => exact ht (by simp [dropping])
  | close unmapped => exact ht (by simp [unmapped])
  | lock _ | wake _ | seeStop _ _ | missStop _ | seeLayer _ _ | prefetch _ _ | endRound _ _ =>
    exact ht hu

/-- The owner can move when no thread is live, until the file is closed. -/
theorem Threads.Dropped.exists_step (hs : s.Dropped) (hdead : ¬ s.worker.Live) :
    (s.owner = .closed ∧ s.worker = .exited) ∨ ∃ e t, e.missed = false ∧ MapperStep m s e t := by
  have hended : s.handle = true ∨ s.ops = [] → s.worker = .exited := by
    intro h
    cases hw : s.worker with
    | exited => rfl
    | unspawned =>
      obtain ⟨hmem, hhandle⟩ := hs.sound.unspawned hw
      rcases h with htrue | hnil
      · cases hhandle.symm.trans htrue
      · rw [hnil] at hmem
        cases hmem
    | _ => exact absurd (hw ▸ trivial) hdead
  cases hops : s.ops with
  | cons o ops =>
    have hready : o.Ready s := by
      cases o with
      | join => exact fun htrue => hended (Or.inl htrue)
      | _ => trivial
    exact Or.inr ⟨_, _, rfl, .op hops hready⟩
  | nil =>
    cases howner : s.owner with
    | holds => exact absurd howner hs.owner
    | dropping => exact Or.inr ⟨_, _, rfl, .munmap hops howner⟩
    | unmapped => exact Or.inr ⟨_, _, rfl, .close howner⟩
    | closed => exact Or.inl ⟨rfl, hended (Or.inr hops)⟩

/-- Once the mapper is being dropped and told the thread to stop, owner and thread together take at
most 15 steps, and seven more for each time the thread misses the stop; and there is always one that
does not, until the thread has ended and the file is closed. -/
theorem drop_terminates (m : FileMapper) {es es' : List MapperEvent} {s t : Threads}
    (h : Runs (MapperStep m) (opened m) es s) (hstop : s.stop = true) (howner : s.owner ≠ .holds)
    (h' : Runs (MapperStep m) s es' t) :
    es'.length ≤ 15 + 7 * missesIn es' ∧
      ((t.owner = .closed ∧ t.worker = .exited) ∨
        ∃ e u, e.missed = false ∧ MapperStep m t e u) := by
  have hdropped : s.Dropped := ⟨sound_of_runs h, howner⟩
  have hops := ops_length_le h howner
  have hsteps := stepsLeft_le (callsLeft_le h)
  have hkept := kept_of_runs h'
  constructor
  · have hpaid := h'.countP_le (P := Threads.Dropped) Threads.stepsLeft (fun _ => true)
      MapperEvent.missed (PREFETCH_DEPTH + 5) Threads.Dropped.step dropped_paid hdropped
    have howners : s.owner.stepsLeft ≤ 2 := by
      cases s.owner <;> simp [Owner.stepsLeft]
    rw [List.countP_true, Threads.stepsLeft, Threads.stepsLeft, PREFETCH_DEPTH] at hpaid
    rw [PREFETCH_DEPTH] at hsteps
    rw [missesIn]
    omega
  · by_cases hlive : t.worker.Live
    · obtain ⟨e, u, -, hmissed, hstep⟩ :=
        exists_step_of_live hlive (hkept.stop hstop) (hkept.layers (layers_ne_nil h))
      exact Or.inr ⟨e, u, hmissed, hstep⟩
    · have ht : t.Dropped := h'.invariant Threads.Dropped Threads.Dropped.step hdropped
      exact ht.exists_step hlive

theorem drop_terminates_twoGib :
    untilClose.length ≤ 15 + 7 * missesIn untilClose :=
  (drop_terminates FileMapper.twoGib runs_untilStop rfl (by simp [twoGibStopping])
    runs_untilClose).1

end QuantumFlow
