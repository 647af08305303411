import Mathlib.Algebra.Order.Group.Nat
import Mathlib.Data.List.Induction

/-!
# Runs of a labelled transition system

A run goes from a state to a state and leaves a trace of labels. What every step keeps, every run
keeps; a trace can be cut anywhere; and where some labels are paid for by a potential of the states,
a run has no more of them than its first state and its other labels pay.
-/

namespace QuantumFlow

variable {σ ε : Type}

/-- The steps from one state to another, with their labels in order. -/
inductive Runs (step : σ → ε → σ → Prop) : σ → List ε → σ → Prop where
  | nil (s : σ) : Runs step s [] s
  | snoc {s t u : σ} {es : List ε} {e : ε} (run : Runs step s es t) (last : step t e u) :
      Runs step s (es ++ [e]) u

namespace Runs

variable {step : σ → ε → σ → Prop} {s t u : σ} {es fs : List ε} {e : ε}

theorem single (h : step s e t) : Runs step s [e] t := snoc (nil s) h

theorem append (h : Runs step s es t) (h' : Runs step t fs u) : Runs step s (es ++ fs) u := by
  induction h' with
  | nil => rwa [List.append_nil]
  | snoc _ last ih =>
    rw [← List.append_assoc]
    exact snoc ih last

theorem cons (h : step s e t) (h' : Runs step t es u) : Runs step s (e :: es) u :=
  (single h).append h'

theorem eq_of_nil (h : Runs step s [] t) : s = t := by
  generalize hes : ([] : List ε) = es at h
  cases h with
  | nil => rfl
  | snoc _ _ => simp at hes

theorem exists_of_snoc (h : Runs step s (es ++ [e]) u) :
    ∃ t, Runs step s es t ∧ step t e u := by
  generalize hfs : es ++ [e] = fs at h
  cases h with
  | nil => simp at hfs
  | snoc run last =>
    obtain ⟨rfl, heq⟩ := List.append_inj' hfs rfl
    obtain rfl := List.singleton_inj.mp heq
    exact ⟨_, run, last⟩

/-- A trace can be cut anywhere. -/
theorem exists_of_append (h : Runs step s (es ++ fs) u) :
    ∃ t, Runs step s es t ∧ Runs step t fs u := by
  induction fs using List.reverseRecOn generalizing u with
  | nil => exact ⟨u, by rwa [List.append_nil] at h, nil u⟩
  | append_singleton fs e ih =>
    rw [← List.append_assoc] at h
    obtain ⟨v, hrun, hlast⟩ := h.exists_of_snoc
    obtain ⟨t, hes, hfs⟩ := ih hrun
    exact ⟨t, hes, snoc hfs hlast⟩

theorem exists_of_cons (h : Runs step s (e :: es) u) :
    ∃ t, step s e t ∧ Runs step t es u := by
  have hcut : Runs step s ([e] ++ es) u := h
  obtain ⟨t, hfirst, hrest⟩ := hcut.exists_of_append
  have hsnoc : Runs step s ([] ++ [e]) t := hfirst
  obtain ⟨v, hnil, hstep⟩ := hsnoc.exists_of_snoc
  exact ⟨t, hnil.eq_of_nil ▸ hstep, hrest⟩

/-- What every step keeps. -/
theorem invariant (P : σ → Prop) (hstep : ∀ {t e u}, P t → step t e u → P u)
    (h : Runs step s es t) (hs : P s) : P t := by
  induction h with
  | nil => exact hs
  | snoc _ last ih => exact hstep ih last

/-- The same for what is said of the trace and the state together, in the presence of an
invariant. -/
theorem history {P : σ → Prop} (Q : List ε → σ → Prop)
    (hP : ∀ {t e u}, P t → step t e u → P u)
    (hQ : ∀ {es t e u}, P t → Q es t → step t e u → Q (es ++ [e]) u)
    (h : Runs step s es t) (hs : P s) (hnil : Q [] s) : Q es t := by
  induction h with
  | nil => exact hnil
  | snoc run last ih => exact hQ (run.invariant P hP hs) ih last

/-- Amortised cost: where each counted label is paid by the potential, and the potential is only
filled up by labels of one kind, a run has no more counted labels than its first state pays. -/
theorem countP_le {P : σ → Prop} (potential : σ → ℕ) (p q : ε → Bool) (k : ℕ)
    (hP : ∀ {t e u}, P t → step t e u → P u)
    (hpaid : ∀ {t e u}, P t → step t e u →
      potential u + (p e).toNat ≤ potential t + k * (q e).toNat)
    (h : Runs step s es t) (hs : P s) :
    potential t + es.countP p ≤ potential s + k * es.countP q := by
  induction h with
  | nil => simp
  | @snoc t u es e run last ih =>
    have hlast := hpaid (run.invariant P hP hs) last
    have hcount (r : ε → Bool) : (es ++ [e]).countP r = es.countP r + (r e).toNat := by
      rw [List.countP_append, List.countP_singleton]
      cases r e <;> rfl
    rw [hcount, hcount, Nat.mul_add]
    omega

end Runs

end QuantumFlow
