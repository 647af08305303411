import Mathlib.Algebra.Order.Ring.Nat
import Mathlib.Data.List.Basic
import QuantumFlow.Foundation.Outcome

/-!
# Reading a byte stream

A reader consumes bytes from the front of a stream. `Reads p bs a` says that `p`
consumes exactly `bs` and returns `a`, whatever follows on the stream: this is the
round-trip relation between a reader and an encoding, and it composes along
sequencing and counted repetition. `Consumes p Q` is the converse: whenever `p` returns
a value, `Q` relates it to the number of bytes that were consumed.
-/

namespace QuantumFlow

/-- What is left of a stream, and how many bytes have been consumed. -/
structure Cursor where
  rest : List UInt8
  pos : ℕ
  deriving DecidableEq

def Reader (ε α : Type) : Type := Cursor → Outcome ε (α × Cursor)

namespace Reader

variable {ε α β : Type}

instance : Monad (Reader ε) where
  pure a := fun c => .ok (a, c)
  bind p f := fun c => p c >>= fun r => f r.1 r.2

/-- Stop with an error. -/
def fail (e : ε) : Reader ε α := fun _ => .err e

/-- Abort the process. -/
def abort : Reader ε α := fun _ => .panic

/-- The next `n` bytes, or the error `eof` when fewer are left. -/
def readExact (eof : ε) (n : ℕ) : Reader ε (List UInt8) := fun c =>
  if n ≤ c.rest.length then .ok (c.rest.take n, ⟨c.rest.drop n, c.pos + n⟩) else .err eof

/-- Ask the host for room for `n` elements before reading them. The host sees the
request and the number of bytes left, and the process aborts when it refuses. -/
def reserve (serves : ℕ → ℕ → Bool) (n : ℕ) : Reader ε Unit := fun c =>
  if serves n c.rest.length then .ok ((), c) else .panic

/-- The number of bytes consumed so far. -/
def position : Reader ε ℕ := fun c => .ok (c.pos, c)

/-- Run `p` `n` times and collect the values. -/
def repeated (p : Reader ε α) : ℕ → Reader ε (List α)
  | 0 => pure []
  | n + 1 => do
    let a ← p
    let as ← repeated p n
    return a :: as

theorem pure_run (a : α) (c : Cursor) : (pure a : Reader ε α) c = .ok (a, c) := rfl

theorem bind_run (p : Reader ε α) (f : α → Reader ε β) (c : Cursor) :
    (p >>= f) c = p c >>= fun r => f r.1 r.2 := rfl

instance : LawfulMonad (Reader ε) := by
  refine LawfulMonad.mk' _ ?_ ?_ ?_
  · intro α p
    funext c
    show (p c >>= fun r => Outcome.ok (r.1, r.2)) = p c
    cases p c <;> rfl
  · intro α β a f
    rfl
  · intro α β γ p f g
    funext c
    simp only [bind_run]
    cases p c <;> rfl

/-! ## Reading back an encoding -/

/-- `p` consumes exactly `bs` and returns `a`, whatever follows. -/
def Reads (p : Reader ε α) (bs : List UInt8) (a : α) : Prop :=
  ∀ rest pos, p ⟨bs ++ rest, pos⟩ = .ok (a, ⟨rest, pos + bs.length⟩)

theorem Reads.pure (a : α) : Reads (pure a : Reader ε α) [] a := fun _ _ => rfl

theorem Reads.bind {p : Reader ε α} {f : α → Reader ε β} {bs cs : List UInt8} {a : α} {b : β}
    (hp : Reads p bs a) (hf : Reads (f a) cs b) : Reads (p >>= f) (bs ++ cs) b := by
  intro rest pos
  rw [bind_run, List.append_assoc, hp, Outcome.ok_bind, hf]
  simp [Nat.add_assoc]

/-- The same without a claim about what comes after `p`. -/
theorem Reads.bind_run {p : Reader ε α} {bs : List UInt8} {a : α} (hp : Reads p bs a)
    (f : α → Reader ε β) (rest : List UInt8) (pos : ℕ) :
    (p >>= f) ⟨bs ++ rest, pos⟩ = f a ⟨rest, pos + bs.length⟩ := by
  rw [Reader.bind_run, hp, Outcome.ok_bind]

/-- A final `return` consumes nothing. -/
theorem Reads.map {p : Reader ε α} {bs : List UInt8} {a : α} (hp : Reads p bs a) (f : α → β) :
    Reads (do let x ← p; Pure.pure (f x)) bs (f a) := by
  have h := hp.bind (f := fun x => Pure.pure (f x)) (Reads.pure (f a))
  rwa [List.append_nil] at h

theorem reads_readExact (eof : ε) (bs : List UInt8) : Reads (readExact eof bs.length) bs bs := by
  intro rest pos
  simp [readExact]

/-- A host that serves every request for no more elements than there are bytes left. -/
def Adequate (serves : ℕ → ℕ → Bool) : Prop :=
  ∀ asked left, asked ≤ left → serves asked left = true

theorem reserve_bind_run {serves : ℕ → ℕ → Bool} (hserves : Adequate serves) {n : ℕ}
    {c : Cursor} (hn : n ≤ c.rest.length) (f : Unit → Reader ε β) :
    (reserve serves n >>= f) c = f () c := by
  rw [bind_run, reserve, if_pos (hserves n _ hn), Outcome.ok_bind]

/-- A request is harmless in front of an encoding that is at least as long. -/
theorem Reads.reserve {serves : ℕ → ℕ → Bool} (hserves : Adequate serves) {p : Reader ε α}
    {bs : List UInt8} {a : α} (hp : Reads p bs a) {n : ℕ} (hn : n ≤ bs.length) :
    Reads (do Reader.reserve serves n; p) bs a := by
  intro rest pos
  rw [reserve_bind_run hserves (Nat.le_trans hn (by simp))]
  exact hp rest pos

/-- Reading `n` encodings in a row. -/
theorem reads_repeated {p : Reader ε α} {γ : Type} (enc : γ → List UInt8) (val : γ → α)
    (xs : List γ) (hp : ∀ x ∈ xs, Reads p (enc x) (val x)) :
    Reads (repeated p xs.length) (xs.flatMap enc) (xs.map val) := by
  induction xs with
  | nil => exact Reads.pure []
  | cons x xs ih =>
    have htail := ih fun y hy => hp y (List.mem_cons_of_mem x hy)
    exact (hp x List.mem_cons_self).bind (htail.map (val x :: ·))

/-- A count never exceeds the bytes of what it counts, when no encoding is empty. -/
theorem length_le_flatMap {γ : Type} {enc : γ → List UInt8} {xs : List γ}
    (h : ∀ x ∈ xs, enc x ≠ []) : xs.length ≤ (xs.flatMap enc).length := by
  induction xs with
  | nil => simp
  | cons x xs ih =>
    have hx := List.length_pos_iff.mpr (h x List.mem_cons_self)
    have hxs := ih fun y hy => h y (List.mem_cons_of_mem x hy)
    simp only [List.length_cons, List.flatMap_cons, List.length_append]
    omega

/-- A bound with some slack on every encoding, summed over a list. -/
theorem length_flatMap_add_le {γ : Type} {enc : γ → List UInt8} {size : γ → ℕ} {slack : ℕ}
    (xs : List γ) (h : ∀ x ∈ xs, (enc x).length + slack ≤ size x) :
    (xs.flatMap enc).length + slack * xs.length ≤ (xs.map size).sum := by
  induction xs with
  | nil => simp
  | cons x xs ih =>
    have hx := h x List.mem_cons_self
    have hxs := ih fun y hy => h y (List.mem_cons_of_mem x hy)
    simp only [List.flatMap_cons, List.length_append, List.length_cons, List.map_cons,
      List.sum_cons, Nat.mul_succ]
    omega

/-! ## What a returning reader has consumed -/

/-- Whenever `p` returns `a`, it has consumed `n` bytes with `Q a n`. -/
def Consumes (p : Reader ε α) (Q : α → ℕ → Prop) : Prop :=
  ∀ c a c', p c = .ok (a, c') → ∃ n, c.rest.length = n + c'.rest.length ∧ Q a n

theorem Consumes.mono {p : Reader ε α} {Q R : α → ℕ → Prop} (h : Consumes p Q)
    (hQR : ∀ a n, Q a n → R a n) : Consumes p R := by
  intro c a c' hp
  obtain ⟨n, hn, hQ⟩ := h c a c' hp
  exact ⟨n, hn, hQR a n hQ⟩

theorem Consumes.pure {a : α} {Q : α → ℕ → Prop} (h : Q a 0) :
    Consumes (pure a : Reader ε α) Q := by
  rintro c _ _ ⟨⟩
  exact ⟨0, by simp, h⟩

theorem Consumes.bind {p : Reader ε α} {f : α → Reader ε β} {Q : α → ℕ → Prop}
    {R : β → ℕ → Prop} (hp : Consumes p Q)
    (hf : ∀ a n, Q a n → Consumes (f a) fun b m => R b (n + m)) : Consumes (p >>= f) R := by
  intro c b c'' h
  rw [bind_run, Outcome.bind_eq_ok] at h
  obtain ⟨⟨a, c'⟩, hpa, hfa⟩ := h
  obtain ⟨n, hn, hQ⟩ := hp c a c' hpa
  obtain ⟨m, hm, hR⟩ := hf a n hQ c' b c'' hfa
  exact ⟨n + m, by omega, hR⟩

theorem consumes_fail (e : ε) (Q : α → ℕ → Prop) : Consumes (fail e : Reader ε α) Q := by
  rintro _ _ _ ⟨⟩

theorem consumes_abort (Q : α → ℕ → Prop) : Consumes (abort : Reader ε α) Q := by
  rintro _ _ _ ⟨⟩

theorem consumes_position : Consumes (position : Reader ε ℕ) fun _ n => n = 0 := by
  rintro c _ _ ⟨⟩
  exact ⟨0, by simp, rfl⟩

theorem consumes_readExact (eof : ε) (n : ℕ) :
    Consumes (readExact eof n) fun bs m => m = n ∧ bs.length = n := by
  intro c bs c' h
  unfold readExact at h
  split at h
  · rename_i hn
    cases h
    exact ⟨n, by simp; omega, rfl, by simp [hn]⟩
  · cases h

theorem consumes_reserve (serves : ℕ → ℕ → Bool) (n : ℕ) :
    Consumes (reserve serves n : Reader ε Unit) fun _ m => m = 0 := by
  intro c u c' h
  unfold reserve at h
  split at h
  · cases h
    exact ⟨0, by simp, rfl⟩
  · cases h

/-- Counted repetition consumes what its values consume. -/
theorem consumes_repeated {p : Reader ε α} (size : α → ℕ) (hp : Consumes p fun a n => n = size a)
    (k : ℕ) : Consumes (repeated p k) fun as n => as.length = k ∧ n = (as.map size).sum := by
  induction k with
  | zero => exact Consumes.pure ⟨rfl, rfl⟩
  | succ k ih =>
    refine hp.bind fun a n hn => ih.bind fun as m hm => Consumes.pure ?_
    simp [hm.1, hm.2, hn]

/-! ## What is returned -/

/-- Whatever the stream, `p` returns only values with `P`. -/
def Returns (p : Reader ε α) (P : α → Prop) : Prop := ∀ c a c', p c = .ok (a, c') → P a

theorem Returns.any (p : Reader ε α) : Returns p fun _ => True := fun _ _ _ _ => trivial

theorem Returns.pure {a : α} {P : α → Prop} (h : P a) : Returns (pure a : Reader ε α) P := by
  rintro _ _ _ ⟨⟩
  exact h

theorem Returns.bind {p : Reader ε α} {f : α → Reader ε β} {P : α → Prop} {R : β → Prop}
    (hp : Returns p P) (hf : ∀ a, P a → Returns (f a) R) : Returns (p >>= f) R := by
  intro c b c'' h
  rw [bind_run, Outcome.bind_eq_ok] at h
  obtain ⟨⟨a, c'⟩, hpa, hfa⟩ := h
  exact hf a (hp c a c' hpa) c' b c'' hfa

theorem returns_fail (e : ε) (P : α → Prop) : Returns (fail e : Reader ε α) P := by
  rintro _ _ _ ⟨⟩

theorem returns_abort (P : α → Prop) : Returns (abort : Reader ε α) P := by
  rintro _ _ _ ⟨⟩

theorem returns_repeated {p : Reader ε α} {P : α → Prop} (hp : Returns p P) (k : ℕ) :
    Returns (repeated p k) fun as => as.length = k ∧ ∀ a ∈ as, P a := by
  induction k with
  | zero => exact Returns.pure ⟨rfl, by simp⟩
  | succ k ih =>
    refine hp.bind fun a ha => ih.bind fun as has => Returns.pure ⟨by simp [has.1], ?_⟩
    exact List.forall_mem_cons.mpr ⟨ha, has.2⟩

end Reader

end QuantumFlow
