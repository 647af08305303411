import Mathlib.Data.List.Forall2
import QuantumFlow.Foundation.Reader

/-!
# What a reader accepts

`Spells p S` says that the reader `p`, started at the position `pos`, returns the value `a` after
consuming the bytes `x` exactly when `S pos a x`. It is both directions at once: nothing else is
accepted, and all of it is. One rule for each way to build a reader; a reader's relation can be
replaced by an equivalent one before it is used in the next.
-/

namespace QuantumFlow

open Reader

variable {ε α β : Type}

def Spells (p : Reader ε α) (S : ℕ → α → List UInt8 → Prop) : Prop :=
  ∀ c a c', p c = .ok (a, c') ↔
    ∃ x, S c.pos a x ∧ c.rest = x ++ c'.rest ∧ c'.pos = c.pos + x.length

namespace Spells

variable {p : Reader ε α} {S T : ℕ → α → List UInt8 → Prop}

theorem congr (h : Spells p S) (hST : ∀ pos a x, S pos a x ↔ T pos a x) : Spells p T := by
  intro c a c'
  rw [h c a c']
  simp only [hST]

theorem pure (a : α) : Spells (Pure.pure a : Reader ε α) fun _ b x => b = a ∧ x = [] := by
  intro c b c'
  rw [pure_run]
  constructor
  · rintro ⟨⟩
    exact ⟨[], ⟨rfl, rfl⟩, rfl, rfl⟩
  · rintro ⟨x, ⟨rfl, rfl⟩, hrest, hpos⟩
    obtain ⟨rest, pos⟩ := c
    obtain ⟨rest', pos'⟩ := c'
    cases hrest
    cases hpos
    rfl

theorem fail (e : ε) : Spells (Reader.fail e : Reader ε α) fun _ _ _ => False := by
  intro c a c'
  simp [Reader.fail]

theorem abort : Spells (Reader.abort : Reader ε α) fun _ _ _ => False := by
  intro c a c'
  simp [Reader.abort]

theorem position : Spells (Reader.position : Reader ε ℕ) fun pos n x => n = pos ∧ x = [] := by
  intro c n c'
  rw [Reader.position]
  constructor
  · rintro ⟨⟩
    exact ⟨[], ⟨rfl, rfl⟩, rfl, rfl⟩
  · rintro ⟨x, ⟨rfl, rfl⟩, hrest, hpos⟩
    obtain ⟨rest, pos⟩ := c
    obtain ⟨rest', pos'⟩ := c'
    cases hrest
    cases hpos
    rfl

theorem readExact (eof : ε) (n : ℕ) :
    Spells (Reader.readExact eof n) fun _ bs x => x = bs ∧ bs.length = n := by
  intro c bs c'
  constructor
  · intro h
    unfold Reader.readExact at h
    split at h
    · rename_i hn
      cases h
      have hlen : (c.rest.take n).length = n := by simp [hn]
      exact ⟨_, ⟨rfl, hlen⟩, (List.take_append_drop n c.rest).symm, by rw [hlen]⟩
    · cases h
  · rintro ⟨x, ⟨rfl, rfl⟩, hrest, hpos⟩
    obtain ⟨rest, pos⟩ := c
    obtain ⟨rest', pos'⟩ := c'
    obtain rfl : rest = x ++ rest' := hrest
    obtain rfl : pos' = pos + x.length := hpos
    exact reads_readExact eof x rest' pos

/-- The bytes of both parts, one after the other. -/
theorem bind {f : α → Reader ε β} {U : α → ℕ → β → List UInt8 → Prop} (hp : Spells p S)
    (hf : ∀ a, Spells (f a) (U a)) :
    Spells (p >>= f) fun pos b z =>
      ∃ a x y, z = x ++ y ∧ S pos a x ∧ U a (pos + x.length) b y := by
  intro c b c''
  rw [bind_run, Outcome.bind_eq_ok]
  constructor
  · rintro ⟨⟨a, c'⟩, ha, hb⟩
    obtain ⟨x, hS, hrest, hpos⟩ := (hp c a c').mp ha
    obtain ⟨y, hU, hrest', hpos'⟩ := (hf a c' b c'').mp hb
    refine ⟨x ++ y, ⟨a, x, y, rfl, hS, hpos ▸ hU⟩, ?_, ?_⟩
    · rw [hrest, hrest', List.append_assoc]
    · rw [hpos', hpos, List.length_append, Nat.add_assoc]
  · rintro ⟨_, ⟨a, x, y, rfl, hS, hU⟩, hrest, hpos⟩
    refine ⟨(a, ⟨y ++ c''.rest, c.pos + x.length⟩), ?_, ?_⟩
    · exact (hp _ _ _).mpr ⟨x, hS, by rw [hrest, List.append_assoc], rfl⟩
    · exact (hf _ _ _ _).mpr ⟨y, hU, rfl, by rw [hpos, List.length_append, Nat.add_assoc]⟩

theorem map (hp : Spells p S) (f : α → β) :
    Spells (do let a ← p; Pure.pure (f a)) fun pos b x => ∃ a, b = f a ∧ S pos a x := by
  refine (hp.bind fun a => pure (f a)).congr fun pos b z => ?_
  constructor
  · rintro ⟨a, x, y, rfl, hS, rfl, rfl⟩
    exact ⟨a, rfl, by rwa [List.append_nil]⟩
  · rintro ⟨a, rfl, hS⟩
    exact ⟨a, z, [], by rw [List.append_nil], hS, rfl, rfl⟩

/-- A request for room in front of bytes that are at least as many. -/
theorem reserve {serves : ℕ → ℕ → Bool} (hserves : Adequate serves) {n : ℕ} (hp : Spells p S)
    (hn : ∀ pos a x, S pos a x → n ≤ x.length) :
    Spells (do Reader.reserve serves n; p) S := by
  intro c a c'
  constructor
  · intro h
    rw [bind_run, Reader.reserve] at h
    split at h
    · exact (hp c a c').mp h
    · cases h
  · rintro ⟨x, hS, hrest, hpos⟩
    have hle : n ≤ c.rest.length := by
      have hlen := hn c.pos a x hS
      rw [hrest, List.length_append]
      omega
    rw [reserve_bind_run hserves hle]
    exact (hp c a c').mpr ⟨x, hS, hrest, hpos⟩

/-- Counted repetition of a reader that does not look at its position. -/
theorem repeated {R : α → List UInt8 → Prop} (hp : Spells p fun _ => R) (n : ℕ) :
    Spells (Reader.repeated p n) fun _ as z =>
      as.length = n ∧ ∃ xs, z = xs.flatten ∧ List.Forall₂ R as xs := by
  induction n with
  | zero =>
    refine (pure []).congr fun _ as z => ?_
    constructor
    · rintro ⟨rfl, rfl⟩
      exact ⟨rfl, [], rfl, .nil⟩
    · rintro ⟨hlen, xs, rfl, hall⟩
      obtain rfl := List.length_eq_zero_iff.mp hlen
      obtain rfl := List.forall₂_nil_left_iff.mp hall
      exact ⟨rfl, rfl⟩
  | succ n ih =>
    refine (hp.bind fun a => ih.map (a :: ·)).congr fun _ as z => ?_
    constructor
    · rintro ⟨a, x, y, rfl, hR, as', rfl, hlen, xs, rfl, hall⟩
      exact ⟨by rw [List.length_cons, hlen], x :: xs, rfl, .cons hR hall⟩
    · rintro ⟨hlen, xs, rfl, hall⟩
      cases hall with
      | nil => cases hlen
      | @cons a x as' xs' hR hall =>
        exact ⟨a, x, xs'.flatten, rfl, hR, as', rfl, Nat.succ.inj hlen, xs', rfl, hall⟩

/-- What is accepted is accepted whatever follows, and nothing else is returned for it. -/
theorem unique (h : Spells p S) {pos : ℕ} {a b : α} {x y rest : List UInt8} (hx : S pos a x)
    (hy : S pos b y) (hxy : y = x ++ rest) : a = b ∧ rest = [] := by
  have hrun := (h ⟨y, pos⟩ b ⟨[], pos + y.length⟩).mpr ⟨y, hy, by simp, rfl⟩
  have hrun' := (h ⟨y, pos⟩ a ⟨rest, pos + x.length⟩).mpr ⟨x, hx, hxy, rfl⟩
  obtain ⟨hvalue, hcursor⟩ := Prod.mk.inj (Outcome.ok.inj (hrun'.symm.trans hrun))
  exact ⟨hvalue, congrArg Cursor.rest hcursor⟩

end Spells

/-- Items whose bytes are determined by their values. -/
theorem forall₂_eq_iff {P : α → Prop} {enc : α → List UInt8} {as : List α}
    {xs : List (List UInt8)} :
    List.Forall₂ (fun a x => P a ∧ x = enc a) as xs ↔ (∀ a ∈ as, P a) ∧ xs = as.map enc := by
  constructor
  · intro h
    induction h with
    | nil => simp
    | cons hfirst _ ih =>
      obtain ⟨hP, rfl⟩ := hfirst
      obtain ⟨hall, rfl⟩ := ih
      exact ⟨List.forall_mem_cons.mpr ⟨hP, hall⟩, rfl⟩
  · rintro ⟨hall, rfl⟩
    induction as with
    | nil => exact .nil
    | cons a as ih =>
      obtain ⟨hP, hrest⟩ := List.forall_mem_cons.mp hall
      exact .cons ⟨hP, rfl⟩ (ih hrest)

/-- No item is empty, so there are no more of them than bytes. -/
theorem length_le_flatten {R : α → List UInt8 → Prop} {as : List α} {xs : List (List UInt8)}
    (h : List.Forall₂ R as xs) (hR : ∀ a x, R a x → 0 < x.length) :
    as.length ≤ xs.flatten.length := by
  induction h with
  | nil => exact Nat.le_refl _
  | cons hfirst _ ih =>
    have hpos := hR _ _ hfirst
    rw [List.length_cons, List.flatten_cons, List.length_append]
    omega

end QuantumFlow
