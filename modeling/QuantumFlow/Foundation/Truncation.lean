import QuantumFlow.Foundation.Reader

/-!
# Truncated encodings

An encoding keeps, next to its bytes, where its reader asks the host for room and for how many
elements. `Parses serves p e a` says what the reader `p` of `e` does on every stream that agrees
with `e` as far as both of them go: it aborts if the host refuses a request that it comes to;
otherwise it returns `a` if `e` is there as a whole, and reports an error if `e` is cut off.
-/

namespace QuantumFlow

/-- A request is the offset at which it is made, and the number of elements. -/
structure Encoding where
  bytes : List UInt8
  requests : List (ℕ × ℕ)

namespace Encoding

/-- Bytes that are read without a request. -/
def raw (bs : List UInt8) : Encoding := ⟨bs, []⟩

/-- A request for `n` elements. -/
def ask (n : ℕ) : Encoding := ⟨[], [(0, n)]⟩

instance : Append Encoding where
  append e f := ⟨e.bytes ++ f.bytes, e.requests ++ f.requests.map fun r =>
    (e.bytes.length + r.1, r.2)⟩

def concat : List Encoding → Encoding
  | [] => raw []
  | e :: es => e ++ concat es

@[simp] theorem bytes_raw (bs : List UInt8) : (raw bs).bytes = bs := rfl

@[simp] theorem bytes_ask (n : ℕ) : (ask n).bytes = [] := rfl

@[simp] theorem bytes_append (e f : Encoding) : (e ++ f).bytes = e.bytes ++ f.bytes := rfl

theorem bytes_concat_map {γ : Type} (enc : γ → Encoding) (xs : List γ) :
    (concat (xs.map enc)).bytes = xs.flatMap fun x => (enc x).bytes := by
  induction xs with
  | nil => rfl
  | cons x xs ih => rw [List.map_cons, concat, bytes_append, ih, List.flatMap_cons]

theorem append_raw_nil (e : Encoding) : e ++ raw [] = e := by
  change Encoding.mk (e.bytes ++ []) (e.requests ++ []) = e
  rw [List.append_nil, List.append_nil]

/-- The host serves every request that is made on a stream of `len` bytes. -/
def Served (serves : ℕ → ℕ → Bool) (e : Encoding) (len : ℕ) : Prop :=
  ∀ r ∈ e.requests, r.1 ≤ len → serves r.2 (len - r.1) = true

variable {serves : ℕ → ℕ → Bool}

theorem served_raw (bs : List UInt8) (len : ℕ) : (raw bs).Served serves len := by
  simp [Served, raw]

theorem served_ask {n len : ℕ} : (ask n).Served serves len ↔ serves n len = true := by
  simp [Served, ask]

theorem served_append {e f : Encoding} {len : ℕ} :
    (e ++ f).Served serves len ↔ e.Served serves len ∧
      (e.bytes.length ≤ len → f.Served serves (len - e.bytes.length)) := by
  have hsplit : (e ++ f).requests = e.requests ++ f.requests.map fun r =>
      (e.bytes.length + r.1, r.2) := rfl
  rw [Served, hsplit, List.forall_mem_append, List.forall_mem_map]
  refine and_congr_right fun _ => ⟨fun h hlen r hr hle => ?_, fun h r hr hle => ?_⟩
  · rw [Nat.sub_sub]
    exact h r hr (by omega)
  · rw [← Nat.sub_sub]
    exact h (by omega) r hr (by omega)

end Encoding

open Encoding Reader

/-- A prefix of two parts ends in the first one, or takes it whole. -/
theorem prefix_append_cases {α : Type} {s as bs : List α} (h : s <+: as ++ bs) :
    (s <+: as ∧ s.length < as.length) ∨ ∃ t, s = as ++ t ∧ t <+: bs := by
  rcases Nat.lt_or_ge s.length as.length with hlt | hge
  · exact Or.inl ⟨List.prefix_of_prefix_length_le h (List.prefix_append as bs) hlt.le, hlt⟩
  · obtain ⟨t, rfl⟩ := List.prefix_of_prefix_length_le (List.prefix_append as bs) h hge
    exact Or.inr ⟨t, rfl, (List.prefix_append_right_inj as).mp h⟩

variable {ε α β : Type} {serves : ℕ → ℕ → Bool}

/-- The behaviour on what is left of an encoding when its end is cut off. -/
structure Cuts (serves : ℕ → ℕ → Bool) (p : Reader ε α) (e : Encoding) : Prop where
  reports : ∀ s pos, s <+: e.bytes → s.length < e.bytes.length → e.Served serves s.length →
    ∃ err, p ⟨s, pos⟩ = .err err
  aborts : ∀ s pos, s <+: e.bytes → s.length < e.bytes.length → ¬ e.Served serves s.length →
    p ⟨s, pos⟩ = .panic

/-- The behaviour on an encoding, whole or cut off. -/
structure Parses (serves : ℕ → ℕ → Bool) (p : Reader ε α) (e : Encoding) (a : α) : Prop
    extends Cuts serves p e where
  returns : ∀ rest pos, e.Served serves (e.bytes ++ rest).length →
    p ⟨e.bytes ++ rest, pos⟩ = .ok (a, ⟨rest, pos + e.bytes.length⟩)
  refused : ∀ rest pos, ¬ e.Served serves (e.bytes ++ rest).length →
    p ⟨e.bytes ++ rest, pos⟩ = .panic

/-- Nothing can be cut off an empty encoding. -/
theorem Cuts.of_empty (p : Reader ε α) : Cuts serves p (raw []) where
  reports _ _ _ hlt := absurd hlt (Nat.not_lt_zero _)
  aborts _ _ _ hlt := absurd hlt (Nat.not_lt_zero _)

/-- A cut is in the first part, or behind it. -/
theorem Cuts.bind {p : Reader ε α} {f : α → Reader ε β} {e g : Encoding} {a : α}
    (hp : Parses serves p e a) (hf : Cuts serves (f a) g) : Cuts serves (p >>= f) (e ++ g) where
  reports := by
    intro s pos hs hlt hserved
    obtain ⟨hserved₁, hserved₂⟩ := served_append.mp hserved
    rcases prefix_append_cases hs with ⟨hs, hlt⟩ | ⟨t, rfl, ht⟩
    · obtain ⟨err, herr⟩ := hp.reports s pos hs hlt hserved₁
      exact ⟨err, by rw [bind_run, herr, Outcome.err_bind]⟩
    · rw [List.length_append, Nat.add_sub_cancel_left] at hserved₂
      rw [bind_run, hp.returns t pos hserved₁, Outcome.ok_bind]
      exact hf.reports t _ ht (by simpa using hlt) (hserved₂ (Nat.le_add_right _ _))
  aborts := by
    intro s pos hs hlt hserved
    rw [served_append, not_and_or] at hserved
    rw [bind_run]
    rcases prefix_append_cases hs with ⟨hs, hlt⟩ | ⟨t, rfl, ht⟩
    · have hserved₁ := hserved.resolve_right fun h => h fun hle => absurd hle (by omega)
      rw [hp.aborts s pos hs hlt hserved₁, Outcome.panic_bind]
    · by_cases hserved₁ : e.Served serves (e.bytes ++ t).length
      · have hserved₂ := hserved.resolve_left (not_not_intro hserved₁)
        rw [List.length_append, Nat.add_sub_cancel_left] at hserved₂
        rw [hp.returns t pos hserved₁, Outcome.ok_bind]
        exact hf.aborts t _ ht (by simpa using hlt) fun h => hserved₂ fun _ => h
      · rw [hp.refused t pos hserved₁, Outcome.panic_bind]

namespace Parses

theorem pure (a : α) : Parses serves (Pure.pure a : Reader ε α) (raw []) a where
  toCuts := Cuts.of_empty _
  returns _ _ _ := rfl
  refused rest _ h := absurd (served_raw [] rest.length) h

theorem bind {p : Reader ε α} {f : α → Reader ε β} {e g : Encoding} {a : α} {b : β}
    (hp : Parses serves p e a) (hf : Parses serves (f a) g b) :
    Parses serves (p >>= f) (e ++ g) b where
  toCuts := Cuts.bind hp hf.toCuts
  returns := by
    intro rest pos hserved
    obtain ⟨hserved₁, hserved₂⟩ := served_append.mp hserved
    rw [bytes_append, List.append_assoc] at hserved₁ hserved₂ ⊢
    rw [List.length_append, Nat.add_sub_cancel_left] at hserved₂
    rw [bind_run, hp.returns _ pos hserved₁, Outcome.ok_bind,
      hf.returns rest _ (hserved₂ (Nat.le_add_right _ _)), List.length_append, Nat.add_assoc]
  refused := by
    intro rest pos hserved
    rw [served_append, not_and_or, bytes_append, List.append_assoc] at hserved
    rw [bytes_append, List.append_assoc, bind_run]
    by_cases hserved₁ : e.Served serves (e.bytes ++ (g.bytes ++ rest)).length
    · have hserved₂ := hserved.resolve_left (not_not_intro hserved₁)
      rw [List.length_append, Nat.add_sub_cancel_left] at hserved₂
      rw [hp.returns _ pos hserved₁, Outcome.ok_bind]
      exact hf.refused rest _ fun h => hserved₂ fun _ => h
    · rw [hp.refused _ pos hserved₁, Outcome.panic_bind]

/-- What comes next reads nothing. -/
theorem bind_empty {p : Reader ε α} {f : α → Reader ε β} {e : Encoding} {a : α} {b : β}
    (hp : Parses serves p e a) (hf : Parses serves (f a) (raw []) b) :
    Parses serves (p >>= f) e b := by
  have h := hp.bind hf
  rwa [append_raw_nil] at h

theorem map {p : Reader ε α} {e : Encoding} {a : α} (hp : Parses serves p e a) (f : α → β) :
    Parses serves (do let x ← p; Pure.pure (f x)) e (f a) :=
  hp.bind_empty (Parses.pure (f a))

theorem reserve (n : ℕ) : Parses serves (Reader.reserve serves n : Reader ε Unit) (ask n) () where
  reports _ _ _ hlt := absurd hlt (Nat.not_lt_zero _)
  aborts _ _ _ hlt := absurd hlt (Nat.not_lt_zero _)
  returns _ _ h := if_pos (served_ask.mp h)
  refused _ _ h := if_neg fun hserves => h (served_ask.mpr hserves)

/-- `n` encodings in a row. -/
theorem repeated {p : Reader ε α} {γ : Type} (enc : γ → Encoding) (val : γ → α) (xs : List γ)
    (hp : ∀ x ∈ xs, Parses serves p (enc x) (val x)) :
    Parses serves (Reader.repeated p xs.length) (concat (xs.map enc)) (xs.map val) := by
  induction xs with
  | nil => exact Parses.pure []
  | cons x xs ih =>
    have htail := ih fun y hy => hp y (List.mem_cons_of_mem x hy)
    exact (hp x List.mem_cons_self).bind (htail.map (val x :: ·))

end Parses

/-! ## Readers of a fixed width -/

/-- Fewer than `w` bytes are an error. -/
def Short (p : Reader ε α) (w : ℕ) : Prop := ∀ c, c.rest.length < w → ∃ err, p c = .err err

theorem short_readExact (eof : ε) (w : ℕ) : Short (readExact eof w) w :=
  fun _ hlt => ⟨eof, if_neg (Nat.not_le.mpr hlt)⟩

theorem Short.bind {p : Reader ε α} {w : ℕ} (hp : Short p w) (f : α → Reader ε β) :
    Short (p >>= f) w := by
  intro c hlt
  obtain ⟨err, herr⟩ := hp c hlt
  exact ⟨err, by rw [bind_run, herr, Outcome.err_bind]⟩

/-- A reader of a fixed width makes no request. -/
theorem Short.parses {p : Reader ε α} {bs : List UInt8} {a : α} (hp : Short p bs.length)
    (hreads : Reads p bs a) : Parses serves p (raw bs) a where
  reports s pos _ hlt _ := hp ⟨s, pos⟩ hlt
  aborts s _ _ _ h := absurd (served_raw bs s.length) h
  returns rest pos _ := hreads rest pos
  refused rest _ h := absurd (served_raw bs (bs ++ rest).length) h

end QuantumFlow
