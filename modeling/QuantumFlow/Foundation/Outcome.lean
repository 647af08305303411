import Mathlib.Logic.Basic

/-!
# Calls that return, report or abort

A call ends in one of three ways: with a value, with an error that the caller can
inspect, or by aborting the process. Sequencing stops at the first call that does
not return a value.
-/

namespace QuantumFlow

/-- How a call ends. `panic` has no value to inspect: nothing runs after it. -/
inductive Outcome (ε α : Type) where
  | ok (a : α)
  | err (e : ε)
  | panic

namespace Outcome

variable {ε α β : Type}

def bind (x : Outcome ε α) (f : α → Outcome ε β) : Outcome ε β :=
  match x with
  | ok a => f a
  | err e => err e
  | panic => panic

instance : Monad (Outcome ε) where
  pure := ok
  bind := bind

@[simp] theorem pure_eq (a : α) : (pure a : Outcome ε α) = ok a := rfl
@[simp] theorem ok_bind (a : α) (f : α → Outcome ε β) : (ok a >>= f) = f a := rfl
@[simp] theorem err_bind (e : ε) (f : α → Outcome ε β) : (err e >>= f) = err e := rfl
@[simp] theorem panic_bind (f : α → Outcome ε β) : ((panic : Outcome ε α) >>= f) = panic := rfl

/-- A sequence returns a value only through a value of its first part. -/
theorem bind_eq_ok {x : Outcome ε α} {f : α → Outcome ε β} {b : β} :
    (x >>= f) = ok b ↔ ∃ a, x = ok a ∧ f a = ok b := by
  cases x <;> simp

/-- The same where the second part ends well or not, whatever the first part returns. -/
theorem exists_bind_ok_iff {x : Outcome ε α} {f : α → Outcome ε β} {P : Prop}
    (h : ∀ a, (∃ b, f a = ok b) ↔ P) : (∃ b, (x >>= f) = ok b) ↔ (∃ a, x = ok a) ∧ P := by
  cases x with
  | ok a => simp [h a]
  | err e => simp
  | panic => simp

theorem exists_pure_iff (a : α) : (∃ b, (pure a : Outcome ε α) = ok b) ↔ True := by
  simp

end Outcome

end QuantumFlow
