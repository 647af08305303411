import Mathlib.Data.Finset.Basic
import Mathlib.Data.Finset.Dedup
import Mathlib.Data.Finset.Lattice.Lemmas

/-!
# Handles and who holds them

A ledger records the handles that are live. Acquiring hands out a handle that was never live;
freeing one that is not live has no result, so a program that has a result frees no handle twice.
What a program holds is what it acquired and has not freed; freeing all of it, in any order, leaves
the handles that were live before.
-/

namespace QuantumFlow

variable {κ α : Type}

/-- A kind of resource, with a number that is handed out once. -/
abbrev Handle (κ : Type) : Type := κ × ℕ

structure Ledger (κ : Type) where
  live : Finset (Handle κ)
  next : ℕ
  fresh : ∀ h ∈ live, h.2 < next

variable [DecidableEq κ]

namespace Ledger

/-- Nothing was handed out. -/
def empty : Ledger κ := ⟨∅, 0, fun _ h => absurd h (Finset.notMem_empty _)⟩

theorem fresh_insert (l : Ledger κ) (kind : κ) :
    ∀ h ∈ insert (kind, l.next) l.live, h.2 < l.next + 1 := by
  intro h hh
  rcases Finset.mem_insert.mp hh with rfl | hlive
  · exact Nat.lt_succ_self _
  · exact (l.fresh h hlive).trans (Nat.lt_succ_self _)

theorem fresh_erase (l : Ledger κ) (h : Handle κ) : ∀ h' ∈ l.live.erase h, h'.2 < l.next :=
  fun h' hh => l.fresh h' (Finset.mem_of_mem_erase hh)

def add (l : Ledger κ) (kind : κ) : Ledger κ :=
  ⟨insert (kind, l.next) l.live, l.next + 1, l.fresh_insert kind⟩

@[simp] theorem live_add (l : Ledger κ) (kind : κ) :
    (l.add kind).live = insert (kind, l.next) l.live := rfl

def remove (l : Ledger κ) (h : Handle κ) : Ledger κ := ⟨l.live.erase h, l.next, l.fresh_erase h⟩

end Ledger

/-- A program that acquires and frees handles. -/
abbrev Handled (κ : Type) : Type → Type := StateT (Ledger κ) Option

def acquire (kind : κ) : Handled κ (Handle κ) := fun l => some ((kind, l.next), l.add kind)

def free (h : Handle κ) : Handled κ Unit :=
  fun l => if h ∈ l.live then some ((), l.remove h) else none

def freeAll : List (Handle κ) → Handled κ Unit
  | [] => pure ()
  | h :: hs => do
    free h
    freeAll hs

theorem freeAll_append (hs hs' : List (Handle κ)) :
    freeAll (hs ++ hs') = freeAll hs >>= fun _ => freeAll hs' := by
  induction hs with
  | nil => rfl
  | cons h hs ih =>
    rw [List.cons_append, freeAll, freeAll, ih, bind_assoc]

@[simp] theorem run_acquire (kind : κ) (l : Ledger κ) :
    (acquire kind).run l = some ((kind, l.next), l.add kind) := rfl

/-- Different live handles can be freed one after the other. -/
theorem exists_run_freeAll {hs : List (Handle κ)} {l : Ledger κ} (hnodup : hs.Nodup)
    (hlive : ∀ h ∈ hs, h ∈ l.live) :
    ∃ l', (freeAll hs).run l = some ((), l') ∧ l'.live = l.live \ hs.toFinset := by
  induction hs generalizing l with
  | nil => exact ⟨l, rfl, by simp⟩
  | cons h hs ih =>
    obtain ⟨hnotin, hnodup'⟩ := List.nodup_cons.mp hnodup
    have hfree : (free h).run l = some ((), l.remove h) := if_pos (hlive h List.mem_cons_self)
    have hrest : ∀ h' ∈ hs, h' ∈ (l.remove h).live := fun h' hh' =>
      Finset.mem_erase.mpr ⟨fun heq => hnotin (heq ▸ hh'), hlive h' (List.mem_cons_of_mem h hh')⟩
    obtain ⟨l', hrun, hleft⟩ := ih hnodup' hrest
    refine ⟨l', ?_, ?_⟩
    · rw [freeAll, StateT.run_bind, hfree]
      exact hrun
    · rw [hleft, List.toFinset_cons, Finset.sdiff_insert, ← Finset.erase_sdiff_comm]
      rfl

/-! ## What a program holds -/

/-- Between the two ledgers, exactly `hs` were acquired and not freed. -/
structure Ledger.Holds (l l' : Ledger κ) (hs : List (Handle κ)) : Prop where
  live : l'.live = l.live ∪ hs.toFinset
  disjoint : ∀ h ∈ hs, h ∉ l.live
  nodup : hs.Nodup

namespace Ledger.Holds

variable {l l' : Ledger κ} {hs : List (Handle κ)}

theorem refl (l : Ledger κ) : Holds l l [] where
  live := by simp
  disjoint := by simp
  nodup := List.nodup_nil

theorem next_notMem (h : Holds l l' hs) (kind : κ) :
    (kind, l'.next) ∉ l.live ∧ (kind, l'.next) ∉ hs := by
  have hnew : (kind, l'.next) ∉ l'.live := fun hmem => Nat.lt_irrefl _ (l'.fresh _ hmem)
  rw [h.live, Finset.mem_union, List.mem_toFinset, not_or] at hnew
  exact hnew

theorem acquire (h : Holds l l' hs) (kind : κ) :
    Holds l (l'.add kind) ((kind, l'.next) :: hs) where
  live := by
    rw [Ledger.live_add, h.live, List.toFinset_cons, Finset.union_insert]
  disjoint := by
    intro h' hh'
    rcases List.mem_cons.mp hh' with rfl | hold
    · exact (h.next_notMem kind).1
    · exact h.disjoint h' hold
  nodup := List.nodup_cons.mpr ⟨(h.next_notMem kind).2, h.nodup⟩

/-- Freeing what is held, in any order, leaves what was live before. -/
theorem exists_run_freeAll (h : Holds l l' hs) {hs' : List (Handle κ)} (hperm : hs'.Perm hs) :
    ∃ l'', (freeAll hs').run l' = some ((), l'') ∧ l''.live = l.live := by
  have hlive : ∀ h' ∈ hs', h' ∈ l'.live := fun h' hh' => by
    rw [h.live]
    exact Finset.mem_union_right _ (List.mem_toFinset.mpr (hperm.mem_iff.mp hh'))
  obtain ⟨l'', hrun, hleft⟩ := QuantumFlow.exists_run_freeAll (hperm.nodup_iff.mpr h.nodup) hlive
  refine ⟨l'', hrun, ?_⟩
  have hdisjoint : Disjoint l.live hs.toFinset :=
    Finset.disjoint_right.mpr fun h' hh' => h.disjoint h' (List.mem_toFinset.mp hh')
  rw [hleft, h.live, List.toFinset_eq_of_perm _ _ hperm, Finset.union_sdiff_cancel_right hdisjoint]

/-- The same at the end of a program. -/
theorem exists_run_freeAll_pure (h : Holds l l' hs) {hs' : List (Handle κ)} (hperm : hs'.Perm hs)
    (a : α) :
    ∃ l'', (do freeAll hs'; pure a : Handled κ α).run l' = some (a, l'') ∧ l''.live = l.live := by
  obtain ⟨l'', hrun, hlive⟩ := h.exists_run_freeAll hperm
  refine ⟨l'', ?_, hlive⟩
  rw [StateT.run_bind, hrun]
  rfl

/-- Holding something is not holding nothing. -/
theorem live_ne (h : Holds l l' hs) (hne : hs ≠ []) : l'.live ≠ l.live := by
  intro heq
  obtain ⟨h', hh'⟩ := List.exists_mem_of_ne_nil hs hne
  have hmem : h' ∈ l'.live := by
    rw [h.live]
    exact Finset.mem_union_right _ (List.mem_toFinset.mpr hh')
  exact h.disjoint h' hh' (heq ▸ hmem)

/-- What is held is so in any order, and whatever became of the numbers. -/
theorem of_perm (h : Holds l l' hs) {hs' : List (Handle κ)} {l'' : Ledger κ} (hperm : hs'.Perm hs)
    (hlive : l''.live = l'.live) : Holds l l'' hs' where
  live := by rw [hlive, h.live, List.toFinset_eq_of_perm _ _ hperm]
  disjoint := fun h' hh' => h.disjoint h' (hperm.mem_iff.mp hh')
  nodup := hperm.nodup_iff.mpr h.nodup

theorem trans (h : Holds l l' hs) {l'' : Ledger κ} {hs' : List (Handle κ)}
    (h' : Holds l' l'' hs') : Holds l l'' (hs' ++ hs) where
  live := by
    rw [h'.live, h.live, List.toFinset_append, Finset.union_assoc, Finset.union_comm hs.toFinset]
  disjoint := by
    intro handle hmem
    rcases List.mem_append.mp hmem with hnew | hold
    · intro hlive
      exact h'.disjoint handle hnew (by rw [h.live]; exact Finset.mem_union_left _ hlive)
    · exact h.disjoint handle hold
  nodup := by
    refine List.nodup_append'.mpr ⟨h'.nodup, h.nodup, ?_⟩
    intro handle hnew hold
    refine h'.disjoint handle hnew ?_
    rw [h.live]
    exact Finset.mem_union_right _ (List.mem_toFinset.mpr hold)

/-- Freeing a part of what is held leaves the rest. -/
theorem exists_run_freeAll_left {hs₁ hs₂ : List (Handle κ)} (h : Holds l l' (hs₁ ++ hs₂)) :
    ∃ l'', (freeAll hs₁).run l' = some ((), l'') ∧ Holds l l'' hs₂ := by
  have hnodup := List.nodup_append'.mp h.nodup
  have hlive : ∀ handle ∈ hs₁, handle ∈ l'.live := fun handle hmem => by
    rw [h.live]
    exact Finset.mem_union_right _ (List.mem_toFinset.mpr (List.mem_append_left hs₂ hmem))
  obtain ⟨l'', hrun, hleft⟩ := QuantumFlow.exists_run_freeAll hnodup.1 hlive
  refine ⟨l'', hrun, ?_, fun handle hmem => ?_, hnodup.2.1⟩
  · have hdisjoint : Disjoint (l.live ∪ hs₂.toFinset) hs₁.toFinset := by
      refine Finset.disjoint_right.mpr fun handle hmem hin => ?_
      have hmem₁ : handle ∈ hs₁ := List.mem_toFinset.mp hmem
      rcases Finset.mem_union.mp hin with hold | hmem₂
      · exact h.disjoint handle (List.mem_append_left hs₂ hmem₁) hold
      · exact hnodup.2.2 hmem₁ (List.mem_toFinset.mp hmem₂)
    rw [hleft, h.live, List.toFinset_append, Finset.union_comm hs₁.toFinset, ← Finset.union_assoc,
      Finset.union_sdiff_cancel_right hdisjoint]
  · exact h.disjoint handle (List.mem_append_right hs₁ hmem)

end Ledger.Holds

end QuantumFlow
