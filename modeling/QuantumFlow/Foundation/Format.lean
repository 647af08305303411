import Mathlib.Data.List.Forall2
import QuantumFlow.Foundation.LittleEndian
import QuantumFlow.Foundation.Reader

/-!
# Formats with counts

A format says which byte strings are one item, and what a reader of an item comes to on a stream:
`Asks bs n l` says that on the stream `bs` it meets the count `n` with `l` bytes after it, and
`Stops bs` that it has to give up for another reason. `Follows p F` says that the reader `p`
returns on exactly the items of `F` and, when the host serves no request for more elements than
there are bytes left, aborts exactly when it has to give up or a count is more than the bytes
after it.
-/

namespace QuantumFlow

structure Format where
  Item : List UInt8 → Prop
  Asks : List UInt8 → ℕ → ℕ → Prop
  Stops : List UInt8 → Prop

namespace Format

/-- No byte string is an item. -/
def none : Format := ⟨fun _ => False, fun _ _ _ => False, fun _ => False⟩

/-- `w` bytes. -/
def bytes (w : ℕ) : Format := ⟨fun bs => bs.length = w, fun _ _ _ => False, fun _ => False⟩

/-- Nothing, as long as `P` holds. -/
def given (P : Prop) : Format := ⟨fun bs => P ∧ bs = [], fun _ _ _ => False, fun _ => False⟩

/-- Nothing, and no way on if `P` holds. -/
def stopIf (P : Prop) : Format := ⟨fun bs => ¬ P ∧ bs = [], fun _ _ _ => False, fun _ => P⟩

/-- An item `x` of `F`, then one of `G x`. -/
def andThen (F : Format) (G : List UInt8 → Format) : Format where
  Item bs := ∃ x y, bs = x ++ y ∧ F.Item x ∧ (G x).Item y
  Asks bs n l := F.Asks bs n l ∨ ∃ x y, bs = x ++ y ∧ F.Item x ∧ (G x).Asks y n l
  Stops bs := F.Stops bs ∨ ∃ x y, bs = x ++ y ∧ F.Item x ∧ (G x).Stops y

/-- An item of `F`, then one of `G`. -/
def seq (F G : Format) : Format := F.andThen fun _ => G

/-- A little-endian number of `w` bytes, and what it says is next. -/
def num (w : ℕ) (F : ℕ → Format) : Format := (bytes w).andThen fun x => F (leNat x)

/-- An item of `F`, after the count `n`. -/
def count (n : ℕ) (F : Format) : Format where
  Item := F.Item
  Asks bs m l := (m = n ∧ l = bs.length) ∨ F.Asks bs m l
  Stops := F.Stops

/-- `n` items of `F` in a row, and what they say is next. -/
def collect (F : Format) : ℕ → (List (List UInt8) → Format) → Format
  | 0, G => G []
  | n + 1, G => F.andThen fun x => collect F n fun xs => G (x :: xs)

/-- Items in a row take at least as many bytes as there are of them, when none is empty. -/
theorem le_length_of_collect {F : Format} (hF : ∀ x, F.Item x → 0 < x.length) {n : ℕ}
    {G : List (List UInt8) → Format} {bs : List UInt8} (h : (F.collect n G).Item bs) :
    n ≤ bs.length := by
  induction n generalizing G bs with
  | zero => exact Nat.zero_le _
  | succ n ih =>
    obtain ⟨x, y, rfl, hx, hy⟩ := h
    have hpos := hF x hx
    have hle := ih hy
    rw [List.length_append]
    omega

end Format

open Reader

/-- A host that serves no request for more elements than there are bytes left. -/
def strict (asked left : ℕ) : Bool := asked ≤ left

theorem adequate_strict : Adequate strict := fun _ _ h => decide_eq_true h

variable {ε α β : Type}

/-- On the stream `bs` a count is more than the bytes after it, or there is no way on. -/
def Format.Breaks (F : Format) (bs : List UInt8) : Prop :=
  (∃ n l, F.Asks bs n l ∧ l < n) ∨ F.Stops bs

structure Follows (p : Reader ε α) (F : Format) : Prop where
  ok : ∀ c a c', p c = .ok (a, c') → ∃ x, c.rest = x ++ c'.rest ∧ F.Item x
  item : ∀ c x rest, c.rest = x ++ rest → F.Item x → ∃ a c', p c = .ok (a, c') ∧ c'.rest = rest
  panic : ∀ c, p c = .panic ↔ F.Breaks c.rest

theorem Format.breaks_andThen {F : Format} {G : List UInt8 → Format} {bs : List UInt8} :
    (F.andThen G).Breaks bs ↔
      F.Breaks bs ∨ ∃ x y, bs = x ++ y ∧ F.Item x ∧ (G x).Breaks y := by
  constructor
  · rintro (⟨n, l, hasks | ⟨x, y, hbs, hx, hasks⟩, hlt⟩ | hstops | ⟨x, y, hbs, hx, hstops⟩)
    · exact Or.inl (Or.inl ⟨n, l, hasks, hlt⟩)
    · exact Or.inr ⟨x, y, hbs, hx, Or.inl ⟨n, l, hasks, hlt⟩⟩
    · exact Or.inl (Or.inr hstops)
    · exact Or.inr ⟨x, y, hbs, hx, Or.inr hstops⟩
  · rintro ((⟨n, l, hasks, hlt⟩ | hstops) | ⟨x, y, hbs, hx, ⟨n, l, hasks, hlt⟩ | hstops⟩)
    · exact Or.inl ⟨n, l, Or.inl hasks, hlt⟩
    · exact Or.inr (Or.inl hstops)
    · exact Or.inl ⟨n, l, Or.inr ⟨x, y, hbs, hx, hasks⟩, hlt⟩
    · exact Or.inr (Or.inr ⟨x, y, hbs, hx, hstops⟩)

theorem Format.breaks_count {n : ℕ} {F : Format} {bs : List UInt8} :
    (F.count n).Breaks bs ↔ bs.length < n ∨ F.Breaks bs := by
  constructor
  · rintro (⟨m, l, ⟨rfl, rfl⟩ | hasks, hlt⟩ | hstops)
    · exact Or.inl hlt
    · exact Or.inr (Or.inl ⟨m, l, hasks, hlt⟩)
    · exact Or.inr (Or.inr hstops)
  · rintro (hlt | ⟨m, l, hasks, hlt⟩ | hstops)
    · exact Or.inl ⟨n, bs.length, Or.inl ⟨rfl, rfl⟩, hlt⟩
    · exact Or.inl ⟨m, l, Or.inr hasks, hlt⟩
    · exact Or.inr hstops

namespace Follows

theorem fail (e : ε) : Follows (Reader.fail e : Reader ε α) .none where
  ok := by
    rintro c a c' ⟨⟩
  item := by
    rintro c x rest - ⟨⟩
  panic c := by simp [Reader.fail, Format.none, Format.Breaks]

/-- A reader that returns without reading. -/
theorem pure (a : α) : Follows (Pure.pure a : Reader ε α) (.bytes 0) where
  ok := by
    rintro c _ _ ⟨⟩
    exact ⟨[], rfl, rfl⟩
  item := by
    intro c x rest hrest hx
    refine ⟨a, c, rfl, ?_⟩
    rw [hrest, List.length_eq_zero_iff.mp hx, List.nil_append]
  panic c := by simp [pure_run, Format.bytes, Format.Breaks]

theorem given_true {p : Reader ε α} (hp : Follows p (.bytes 0)) {P : Prop} (hP : P) :
    Follows p (.given P) where
  ok := by
    intro c a c' h
    obtain ⟨x, hx, hitem⟩ := hp.ok c a c' h
    exact ⟨x, hx, hP, List.length_eq_zero_iff.mp hitem⟩
  item := by
    rintro c x rest hrest ⟨-, rfl⟩
    exact hp.item c [] rest hrest rfl
  panic := hp.panic

theorem given_false (e : ε) {P : Prop} (hP : ¬ P) :
    Follows (Reader.fail e : Reader ε α) (.given P) where
  ok := by
    rintro c a c' ⟨⟩
  item := by
    rintro c x rest - ⟨h, -⟩
    exact absurd h hP
  panic := (fail e).panic

/-- Give up, or return without reading. -/
theorem stopIf {P Q : Prop} [Decidable Q] (hPQ : Q ↔ P) (a : α) :
    Follows (if Q then abort else Pure.pure a : Reader ε α) (.stopIf P) where
  ok := by
    intro c a' c' h
    by_cases hQ : Q
    · rw [if_pos hQ] at h
      cases h
    · rw [if_neg hQ] at h
      cases h
      exact ⟨[], rfl, fun hP => hQ (hPQ.mpr hP), rfl⟩
  item := by
    rintro c x rest hrest ⟨hP, rfl⟩
    exact ⟨a, c, by rw [if_neg fun hQ => hP (hPQ.mp hQ), pure_run], hrest⟩
  panic c := by
    by_cases hQ : Q
    · simp [hQ, hPQ.mp hQ, abort, Format.Breaks, Format.stopIf]
    · have hP : ¬ P := fun hP => hQ (hPQ.mpr hP)
      simp [hQ, hP, pure_run, Format.Breaks, Format.stopIf]

theorem readExact (eof : ε) (w : ℕ) : Follows (Reader.readExact eof w) (.bytes w) where
  ok := by
    intro c bs c' h
    unfold Reader.readExact at h
    split at h
    · rename_i hw
      cases h
      exact ⟨c.rest.take w, (List.take_append_drop w c.rest).symm, by simp [Format.bytes, hw]⟩
    · cases h
  item := by
    intro c x rest hrest hx
    have hw : w ≤ c.rest.length := by
      rw [hrest, List.length_append, hx]
      omega
    refine ⟨_, _, if_pos hw, ?_⟩
    rw [hrest, ← hx, List.drop_left]
  panic c := by
    unfold Reader.readExact
    split <;> simp [Format.bytes, Format.Breaks]

/-- Sequencing: what is read next goes by the bytes of what was read. -/
theorem andThen {p : Reader ε α} {f : α → Reader ε β} {F : Format} {G : List UInt8 → Format}
    (hp : Follows p F)
    (hf : ∀ c a c' x, p c = .ok (a, c') → c.rest = x ++ c'.rest → Follows (f a) (G x)) :
    Follows (p >>= f) (F.andThen G) where
  ok := by
    intro c b c'' h
    rw [bind_run, Outcome.bind_eq_ok] at h
    obtain ⟨⟨a, c'⟩, ha, hb⟩ := h
    obtain ⟨x, hx, hF⟩ := hp.ok c a c' ha
    obtain ⟨y, hy, hG⟩ := (hf c a c' x ha hx).ok c' b c'' hb
    exact ⟨x ++ y, by rw [hx, hy, List.append_assoc], x, y, rfl, hF, hG⟩
  item := by
    rintro c _ rest hrest ⟨x, y, rfl, hF, hG⟩
    rw [List.append_assoc] at hrest
    obtain ⟨a, c', ha, hc'⟩ := hp.item c x _ hrest hF
    obtain ⟨b, c'', hb, hc''⟩ := (hf c a c' x ha (hc' ▸ hrest)).item c' y rest hc' hG
    exact ⟨b, c'', by rw [bind_run, ha, Outcome.ok_bind, hb], hc''⟩
  panic c := by
    rw [bind_run, Format.breaks_andThen]
    constructor
    · intro h
      cases hpc : p c with
      | panic => exact Or.inl ((hp.panic c).mp hpc)
      | err e =>
        rw [hpc] at h
        cases h
      | ok r =>
        rw [hpc, Outcome.ok_bind] at h
        obtain ⟨x, hx, hF⟩ := hp.ok c r.1 r.2 hpc
        exact Or.inr ⟨x, r.2.rest, hx, hF, ((hf c r.1 r.2 x hpc hx).panic r.2).mp h⟩
    · rintro (hbreaks | ⟨x, y, hrest, hF, hbreaks⟩)
      · rw [(hp.panic c).mpr hbreaks, Outcome.panic_bind]
      · obtain ⟨a, c', ha, rfl⟩ := hp.item c x y hrest hF
        rw [ha, Outcome.ok_bind, ((hf c a c' x ha hrest).panic c').mpr hbreaks]

theorem seq {p : Reader ε α} {f : α → Reader ε β} {F G : Format} (hp : Follows p F)
    (hf : ∀ a, Follows (f a) G) : Follows (p >>= f) (F.seq G) :=
  hp.andThen fun _ a _ _ _ _ => hf a

/-- What is returned does not matter. -/
theorem map {p : Reader ε α} {F : Format} (hp : Follows p F) (f : α → β) :
    Follows (do let a ← p; Pure.pure (f a)) F where
  ok := by
    intro c b c' h
    rw [bind_run, Outcome.bind_eq_ok] at h
    obtain ⟨⟨a, c₁⟩, ha, hb⟩ := h
    cases hb
    exact hp.ok c a c₁ ha
  item := by
    intro c x rest hrest hx
    obtain ⟨a, c', ha, hc'⟩ := hp.item c x rest hrest hx
    exact ⟨f a, c', by rw [bind_run, ha, Outcome.ok_bind, pure_run], hc'⟩
  panic c := by
    rw [← hp.panic c, bind_run]
    cases p c <;> simp [pure_run]

theorem position {f : ℕ → Reader ε β} {F : Format} (hf : ∀ pos, Follows (f pos) F) :
    Follows (Reader.position >>= f) F where
  ok c := (hf c.pos).ok c
  item c := (hf c.pos).item c
  panic c := (hf c.pos).panic c

/-- The bytes that are read decide what is read next. -/
theorem readExact_bind {eof : ε} {w : ℕ} {f : List UInt8 → Reader ε β}
    {G : List UInt8 → Format} (hf : ∀ x, x.length = w → Follows (f x) (G x)) :
    Follows (Reader.readExact eof w >>= f) ((Format.bytes w).andThen G) := by
  refine (readExact eof w).andThen fun c bs c' x hbs hx => ?_
  unfold Reader.readExact at hbs
  split at hbs
  · rename_i hw
    cases hbs
    have hlen : (c.rest.take w).length = w := by simp [hw]
    have htake : c.rest.take w ++ c.rest.drop w = x ++ c.rest.drop w :=
      (List.take_append_drop w c.rest).trans hx
    rw [← List.append_cancel_right htake]
    exact hf _ hlen
  · cases hbs

/-- The host is asked for room before an item is read that takes at least as many bytes. -/
theorem count {p : Reader ε α} {F : Format} {n : ℕ} (hp : Follows p F)
    (hn : ∀ x, F.Item x → n ≤ x.length) :
    Follows (do reserve strict n; p) (F.count n) where
  ok := by
    intro c a c' h
    rw [bind_run, reserve] at h
    split at h
    · exact hp.ok c a c' h
    · cases h
  item := by
    intro c x rest hrest hx
    obtain ⟨a, c', ha, hc'⟩ := hp.item c x rest hrest hx
    have hle : n ≤ c.rest.length := by
      rw [hrest, List.length_append]
      have hlen := hn x hx
      omega
    exact ⟨a, c', (reserve_bind_run adequate_strict hle _).trans ha, hc'⟩
  panic c := by
    rw [Format.breaks_count]
    by_cases hle : n ≤ c.rest.length
    · have hlt : ¬ c.rest.length < n := by omega
      rw [reserve_bind_run adequate_strict hle, hp.panic c]
      simp [hlt]
    · have hstrict : ¬ strict n c.rest.length = true := by simpa [strict] using hle
      have hrefused : (do reserve strict n; p : Reader ε α) c = .panic := by
        rw [bind_run, reserve, if_neg hstrict, Outcome.panic_bind]
      simp only [hrefused, true_iff]
      exact Or.inl (by omega)

/-- The elements that are read decide what is read next. -/
theorem repeated_bind {p : Reader ε α} {f : List α → Reader ε β} {F : Format} {n : ℕ}
    {G : List (List UInt8) → Format} (hp : Follows p F)
    (hf : ∀ as xs, List.Forall₂
      (fun a x => ∃ c c', p c = .ok (a, c') ∧ c.rest = x ++ c'.rest) as xs →
      Follows (f as) (G xs)) :
    Follows (Reader.repeated p n >>= f) (F.collect n G) := by
  induction n generalizing f G with
  | zero => exact hf [] [] .nil
  | succ n ih =>
    have hassoc : (Reader.repeated p (n + 1) >>= f) =
        p >>= fun a => Reader.repeated p n >>= fun as => f (a :: as) := by
      simp only [Reader.repeated, bind_assoc, pure_bind]
    rw [hassoc]
    exact hp.andThen fun c a c' x ha hx => ih fun as xs h => hf _ _ (.cons ⟨c, c', ha, hx⟩ h)

end Follows

/-! ## Every other host -/

/-- Wherever `q` does not abort, `p` does the same. -/
def Within (p q : Reader ε α) : Prop := ∀ c, q c ≠ .panic → p c = q c

namespace Within

theorem refl (p : Reader ε α) : Within p p := fun _ _ => rfl

theorem bind {p q : Reader ε α} {f g : α → Reader ε β} (hp : Within p q)
    (hf : ∀ a, Within (f a) (g a)) : Within (p >>= f) (q >>= g) := by
  intro c hc
  rw [bind_run] at hc ⊢
  have hq : q c ≠ .panic := by
    intro hq
    rw [hq] at hc
    exact hc rfl
  rw [bind_run, hp c hq]
  cases hqc : q c with
  | err e => rfl
  | panic => exact absurd hqc hq
  | ok r =>
    rw [hqc] at hc
    exact hf r.1 r.2 hc

theorem reserve {serves : ℕ → ℕ → Bool} (h : Adequate serves) (n : ℕ) :
    Within (Reader.reserve serves n : Reader ε Unit) (Reader.reserve strict n) := by
  intro c hc
  unfold Reader.reserve at hc ⊢
  by_cases hle : n ≤ c.rest.length
  · rw [if_pos (h n _ hle), if_pos (adequate_strict n _ hle)]
  · rw [if_neg (by simpa [strict] using hle)] at hc
    exact absurd rfl hc

theorem repeated {p q : Reader ε α} (h : Within p q) (n : ℕ) :
    Within (Reader.repeated p n) (Reader.repeated q n) := by
  induction n with
  | zero => exact refl _
  | succ n ih => exact h.bind fun a => ih.bind fun as => refl _

end Within

end QuantumFlow
