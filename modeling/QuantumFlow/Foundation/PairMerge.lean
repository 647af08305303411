import Mathlib.Data.List.Chain
import Mathlib.Data.List.Forall2
import Mathlib.Logic.Relation

/-!
# Merging adjacent pairs by rank

A list is rewritten by replacing one adjacent pair at a time: always the pair of lowest
rank, the leftmost one among equals. `join` builds the replacement and may refuse, which
ends the rewriting. Every step shortens the list, so the length bounds the number of steps,
and the result does not depend on where on the way one starts.
-/

namespace QuantumFlow.PairMerge

variable {α β : Type}

/-- Lowest rank and leftmost position of a ranked pair. -/
def best (rank : α → α → Option ℕ) : List α → Option (ℕ × ℕ)
  | a :: b :: rest =>
    match rank a b, best rank (b :: rest) with
    | none, none => none
    | none, some (k, p) => some (k, p + 1)
    | some k, none => some (k, 0)
    | some k, some (k', p) => if k' < k then some (k', p + 1) else some (k, 0)
  | _ => none

/-- Replace the pair at a position. -/
def contract (join : α → α → Option α) : ℕ → List α → Option (List α)
  | 0, a :: b :: rest => (join a b).map (· :: rest)
  | p + 1, a :: rest => (contract join p rest).map (a :: ·)
  | _, _ => none

def step (rank : α → α → Option ℕ) (join : α → α → Option α) (xs : List α) : Option (List α) :=
  (best rank xs).bind fun kp => contract join kp.2 xs

/-- At most `fuel` steps. -/
def normalizeFrom (rank : α → α → Option ℕ) (join : α → α → Option α) : ℕ → List α → List α
  | 0, xs => xs
  | fuel + 1, xs =>
    match step rank join xs with
    | none => xs
    | some ys => normalizeFrom rank join fuel ys

def normalize (rank : α → α → Option ℕ) (join : α → α → Option α) (xs : List α) : List α :=
  normalizeFrom rank join xs.length xs

/-! ## One step -/

section Step

variable {rank : α → α → Option ℕ} {join : α → α → Option α}

/-- The better of a pair at the front and the best later one. -/
def earlier (k : ℕ) : Option (ℕ × ℕ) → ℕ × ℕ
  | some (k', p) => if k' < k then (k', p + 1) else (k, 0)
  | none => (k, 0)

theorem best_of_none {a b : α} (h : rank a b = none) (rest : List α) :
    best rank (a :: b :: rest) = (best rank (b :: rest)).map fun kp => (kp.1, kp.2 + 1) := by
  rw [best, h]
  cases best rank (b :: rest) <;> rfl

theorem best_of_some {a b : α} {k : ℕ} (h : rank a b = some k) (rest : List α) :
    best rank (a :: b :: rest) = some (earlier k (best rank (b :: rest))) := by
  rw [best, h]
  cases best rank (b :: rest) with
  | none => rfl
  | some kp =>
    simp only [earlier]
    split <;> rfl

theorem best_eq_none_iff {xs : List α} :
    best rank xs = none ↔ xs.IsChain fun a b => rank a b = none := by
  induction xs with
  | nil => simp [best]
  | cons a xs ih =>
    cases xs with
    | nil => simp [best]
    | cons b rest =>
      rw [List.isChain_cons_cons, ← ih]
      cases hrank : rank a b with
      | none => simp [best_of_none hrank]
      | some k => simp [best_of_some hrank]

/-- A pair that is not ranked below `k`. -/
def NotBelow (rank : α → α → Option ℕ) (k : ℕ) (a b : α) : Prop := ∀ k', rank a b = some k' → k ≤ k'

/-- A pair that is only ranked above `k`. -/
def Above (rank : α → α → Option ℕ) (k : ℕ) (a b : α) : Prop := ∀ k', rank a b = some k' → k < k'

/-- The best pair, and how the pairs on both sides are ranked. -/
theorem exists_of_best {xs : List α} {k p : ℕ} (h : best rank xs = some (k, p)) :
    ∃ l x y r, xs = l ++ x :: y :: r ∧ l.length = p ∧ rank x y = some k ∧
      (l ++ [x]).IsChain (Above rank k) ∧ (y :: r).IsChain (NotBelow rank k) := by
  induction xs generalizing k p with
  | nil => cases h
  | cons a xs ih =>
    cases xs with
    | nil => cases h
    | cons b rest =>
      have hlater : ∀ {k p}, best rank (b :: rest) = some (k, p) → Above rank k a b →
          ∃ l x y r, a :: b :: rest = l ++ x :: y :: r ∧ l.length = p + 1 ∧ rank x y = some k ∧
            (l ++ [x]).IsChain (Above rank k) ∧ (y :: r).IsChain (NotBelow rank k) := by
        intro k p hbest hab
        obtain ⟨l, x, y, r, hxs, hlen, hrank, hl, hr⟩ := ih hbest
        refine ⟨a :: l, x, y, r, by rw [hxs]; rfl, by rw [List.length_cons, hlen], hrank, ?_, hr⟩
        refine hl.cons fun c hc => ?_
        have hhead : (l ++ [x]).head? = (b :: rest).head? := by
          rw [hxs]
          cases l <;> rfl
        rw [hhead] at hc
        obtain rfl : b = c := by simpa using hc
        exact hab
      cases hab : rank a b with
      | none =>
        rw [best_of_none hab] at h
        obtain ⟨kp, hbest, hkp⟩ := Option.map_eq_some_iff.mp h
        cases hkp
        exact hlater hbest fun k' hk' => by rw [hab] at hk'; cases hk'
      | some k₀ =>
        rw [best_of_some hab] at h
        cases hbest : best rank (b :: rest) with
        | none =>
          rw [hbest] at h
          cases h
          refine ⟨[], a, b, rest, rfl, rfl, hab, List.isChain_singleton a, ?_⟩
          exact (best_eq_none_iff.mp hbest).imp fun c d hcd k' hk' => by rw [hcd] at hk'; cases hk'
        | some kp =>
          rw [hbest, earlier] at h
          split at h
          · rename_i hlt
            cases h
            exact hlater hbest fun k' hk' => by rw [hab] at hk'; cases hk'; exact hlt
          · rename_i hle
            cases h
            refine ⟨[], a, b, rest, rfl, rfl, hab, List.isChain_singleton a, ?_⟩
            obtain ⟨l, x, y, r, hxs, -, hrank, hl, hr⟩ := ih (k := kp.1) (p := kp.2) hbest
            rw [hxs]
            refine List.isChain_append_cons_cons.mpr ⟨?_, ?_, ?_⟩
            · exact hl.imp fun c d hcd k' hk' => by have := hcd k' hk'; omega
            · intro k' hk'
              rw [hrank] at hk'
              cases hk'
              omega
            · exact hr.imp fun c d hcd k' hk' => by have := hcd k' hk'; omega

/-- The best pair is a ranked pair at its position. -/
theorem best_eq_some {xs : List α} {k p : ℕ} (h : best rank xs = some (k, p)) :
    ∃ l a b r, xs = l ++ a :: b :: r ∧ l.length = p ∧ rank a b = some k := by
  obtain ⟨l, a, b, r, hxs, hlen, hrank, -, -⟩ := exists_of_best h
  exact ⟨l, a, b, r, hxs, hlen, hrank⟩

theorem contract_append (l r : List α) (a b : α) :
    contract join l.length (l ++ a :: b :: r) = (join a b).map fun c => l ++ c :: r := by
  induction l with
  | nil => rfl
  | cons x l ih => simp [contract, ih, Option.map_map, Function.comp_def]

/-- A step replaces one ranked pair by its join. -/
theorem step_cases {xs ys : List α} (h : step rank join xs = some ys) :
    ∃ l a b c r, xs = l ++ a :: b :: r ∧ ys = l ++ c :: r ∧ (∃ k, rank a b = some k) ∧
      join a b = some c := by
  obtain ⟨⟨k, p⟩, hbest, hcontract⟩ := Option.bind_eq_some_iff.mp h
  obtain ⟨l, a, b, r, rfl, rfl, hrank⟩ := best_eq_some hbest
  rw [contract_append] at hcontract
  obtain ⟨c, hjoin, rfl⟩ := Option.map_eq_some_iff.mp hcontract
  exact ⟨l, a, b, c, r, rfl, rfl, ⟨k, hrank⟩, hjoin⟩

theorem length_step {xs ys : List α} (h : step rank join xs = some ys) :
    ys.length + 1 = xs.length := by
  obtain ⟨l, a, b, c, r, rfl, rfl, -, -⟩ := step_cases h
  simp
  omega

end Step

/-! ## Whole runs -/

section Runs

variable {rank : α → α → Option ℕ} {join : α → α → Option α}

/-- Any number of steps. -/
def Reduces (rank : α → α → Option ℕ) (join : α → α → Option α) : List α → List α → Prop :=
  Relation.ReflTransGen fun xs ys => step rank join xs = some ys

theorem normalize_of_step {xs ys : List α} (h : step rank join xs = some ys) :
    normalize rank join xs = normalize rank join ys := by
  have hlen := length_step h
  rw [normalize, ← hlen, normalizeFrom, h]
  rfl

/-- Lists on one run have one result. -/
theorem normalize_of_reduces {xs ys : List α} (h : Reduces rank join xs ys) :
    normalize rank join xs = normalize rank join ys := by
  induction h with
  | refl => rfl
  | tail _ hstep ih => rw [ih, normalize_of_step hstep]

/-- The result is on the run. -/
theorem reduces_normalizeFrom (fuel : ℕ) (xs : List α) :
    Reduces rank join xs (normalizeFrom rank join fuel xs) := by
  induction fuel generalizing xs with
  | zero => exact .refl
  | succ fuel ih =>
    unfold normalizeFrom
    split
    · exact .refl
    · rename_i ys hys
      exact .head hys (ih ys)

/-- What every step preserves holds of the result. -/
theorem normalizeFrom_induction {P : List α → Prop}
    (hstep : ∀ xs ys, step rank join xs = some ys → P xs → P ys) (fuel : ℕ) {xs : List α}
    (h : P xs) : P (normalizeFrom rank join fuel xs) := by
  induction fuel generalizing xs with
  | zero => exact h
  | succ fuel ih =>
    unfold normalizeFrom
    split
    · exact h
    · rename_i ys hys
      exact ih (hstep xs ys hys h)

theorem length_normalizeFrom_le (fuel : ℕ) (xs : List α) :
    (normalizeFrom rank join fuel xs).length ≤ xs.length := by
  refine normalizeFrom_induction (P := fun ys => ys.length ≤ xs.length) ?_ fuel le_rfl
  intro ys zs hstep hle
  have hlen := length_step hstep
  omega

/-- What holds of all elements and of every join holds of all elements of the result. -/
theorem forall_mem_normalizeFrom {P : α → Prop}
    (hjoin : ∀ a b c k, rank a b = some k → join a b = some c → P c) (fuel : ℕ) {xs : List α}
    (h : ∀ x ∈ xs, P x) : ∀ x ∈ normalizeFrom rank join fuel xs, P x := by
  refine normalizeFrom_induction (P := fun xs => ∀ x ∈ xs, P x) ?_ fuel h
  intro xs ys hstep hxs
  obtain ⟨l, a, b, c, r, rfl, rfl, ⟨k, hk⟩, hc⟩ := step_cases hstep
  intro x hx
  rcases List.mem_append.mp hx with hx | hx
  · exact hxs x (by simp [hx])
  · rcases List.mem_cons.mp hx with rfl | hx
    · exact hjoin a b x k hk hc
    · exact hxs x (by simp [hx])

end Runs

/-! ## Where a run ends -/

section Stuck

variable {rank : α → α → Option ℕ} {join : α → α → Option α}

/-- The rank of the best pair is the rank of a pair. -/
theorem le_of_best {xs : List α} {k k' p : ℕ} (h : xs.IsChain (NotBelow rank k))
    (hbest : best rank xs = some (k', p)) : k ≤ k' := by
  obtain ⟨l, a, b, r, rfl, -, hrank⟩ := best_eq_some hbest
  exact (List.isChain_append_cons_cons.mp h).2.1 k' hrank

/-- A ranked pair with higher ranks before it and no lower ones behind it is the best pair. -/
theorem best_append {l r : List α} {x y : α} {k : ℕ} (hrank : rank x y = some k)
    (hl : (l ++ [x]).IsChain (Above rank k)) (hr : (y :: r).IsChain (NotBelow rank k)) :
    best rank (l ++ x :: y :: r) = some (k, l.length) := by
  induction l with
  | nil =>
    rw [List.nil_append, best_of_some hrank]
    cases hbest : best rank (y :: r) with
    | none => rfl
    | some kp =>
      obtain ⟨k', p⟩ := kp
      have hle := le_of_best hr hbest
      simp only [earlier, if_neg (Nat.not_lt.mpr hle), List.length_nil]
  | cons c l ih =>
    obtain ⟨d, ds, hds⟩ : ∃ d ds, l ++ [x] = d :: ds := List.exists_cons_of_ne_nil (by simp)
    have htail : l ++ x :: y :: r = d :: (ds ++ y :: r) := by
      rw [List.append_cons, hds, List.cons_append]
    rw [List.cons_append, hds, List.isChain_cons_cons] at hl
    have hrest := ih (hds ▸ hl.2)
    rw [htail] at hrest
    rw [List.cons_append, htail]
    cases hcd : rank c d with
    | none => rw [best_of_none hcd, hrest, Option.map_some, List.length_cons]
    | some k' =>
      have hlt := hl.1 k' hcd
      rw [best_of_some hcd, hrest, earlier, if_pos hlt, List.length_cons]

/-- A list is stuck when nothing is ranked, or when the best pair cannot be joined. -/
theorem step_eq_none_iff {xs : List α} :
    step rank join xs = none ↔ (xs.IsChain fun a b => rank a b = none) ∨
      ∃ l x y r k, xs = l ++ x :: y :: r ∧ rank x y = some k ∧
        (l ++ [x]).IsChain (Above rank k) ∧ (y :: r).IsChain (NotBelow rank k) ∧
        join x y = none := by
  rw [← best_eq_none_iff, step]
  cases hbest : best rank xs with
  | none => simp
  | some kp =>
    obtain ⟨l, x, y, r, rfl, hlen, hrank, hl, hr⟩ := exists_of_best (k := kp.1) (p := kp.2) hbest
    rw [Option.bind_some, ← hlen, contract_append]
    simp only [Option.map_eq_none_iff, reduceCtorEq, false_or]
    constructor
    · exact fun hjoin => ⟨l, x, y, r, kp.1, rfl, hrank, hl, hr, hjoin⟩
    · rintro ⟨l', x', y', r', k', hxs, hrank', hl', hr', hjoin⟩
      -- there is one best pair
      have hbest' := best_append hrank' hl' hr'
      rw [← hxs, best_append hrank hl hr] at hbest'
      obtain ⟨-, hlength⟩ := Prod.mk.inj (Option.some.inj hbest')
      obtain ⟨rfl, htail⟩ := List.append_inj hxs hlength
      cases htail
      exact hjoin

/-- The fuel of a run is enough to get stuck. -/
theorem step_normalizeFrom {fuel : ℕ} {xs : List α} (h : xs.length ≤ fuel) :
    step rank join (normalizeFrom rank join fuel xs) = none := by
  induction fuel generalizing xs with
  | zero =>
    obtain rfl := List.eq_nil_of_length_eq_zero (Nat.le_zero.mp h)
    rfl
  | succ fuel ih =>
    unfold normalizeFrom
    cases hstep : step rank join xs with
    | none => exact hstep
    | some ys =>
      have hlen := length_step hstep
      exact ih (by omega)

theorem step_normalize (xs : List α) : step rank join (normalize rank join xs) = none :=
  step_normalizeFrom (Nat.le_refl _)

/-- A stuck list is its own result. -/
theorem normalize_of_step_eq_none {xs : List α} (h : step rank join xs = none) :
    normalize rank join xs = xs := by
  rw [normalize]
  cases xs with
  | nil => rfl
  | cons x xs => rw [List.length_cons, normalizeFrom, h]

end Stuck

/-! ## Comparing two systems -/

theorem forall₂_append_left {R : α → β → Prop} {l r : List α} {ys : List β}
    (h : List.Forall₂ R (l ++ r) ys) :
    ∃ l' r', List.Forall₂ R l l' ∧ List.Forall₂ R r r' ∧ ys = l' ++ r' := by
  refine ⟨ys.take l.length, ys.drop l.length, ?_, ?_, (List.take_append_drop _ _).symm⟩
  · simpa using List.forall₂_take l.length h
  · simpa using List.forall₂_drop l.length h

/-- Two systems that rank alike on related elements find the same best pair. -/
theorem best_congr {rank : α → α → Option ℕ} {rank' : β → β → Option ℕ} {R : α → β → Prop}
    (hrank : ∀ a b x y, R a x → R b y → rank a b = rank' x y) {as : List α} {xs : List β}
    (h : List.Forall₂ R as xs) : best rank as = best rank' xs := by
  induction h with
  | nil => rfl
  | cons hax htail ih =>
    cases htail with
    | nil => rfl
    | cons hby hrest =>
      unfold best
      rw [hrank _ _ _ _ hax hby, ih]

/-- Systems that rank alike and join alike on related elements keep related lists related. -/
theorem normalizeFrom_forall₂ {rank : α → α → Option ℕ} {join : α → α → Option α}
    {rank' : β → β → Option ℕ} {join' : β → β → Option β} {R : α → β → Prop}
    (hrank : ∀ a b x y, R a x → R b y → rank a b = rank' x y)
    (hjoin : ∀ a b x y k, R a x → R b y → rank a b = some k →
      Option.Rel R (join a b) (join' x y))
    (fuel : ℕ) {as : List α} {xs : List β} (h : List.Forall₂ R as xs) :
    List.Forall₂ R (normalizeFrom rank join fuel as) (normalizeFrom rank' join' fuel xs) := by
  induction fuel generalizing as xs with
  | zero => exact h
  | succ fuel ih =>
    unfold normalizeFrom step
    rw [← best_congr hrank h]
    cases hbest : best rank as with
    | none => exact h
    | some kp =>
      obtain ⟨l, a, b, r, rfl, hlen, hk⟩ := best_eq_some (k := kp.1) (p := kp.2) hbest
      obtain ⟨l', r₁, hl, hr₁, rfl⟩ := forall₂_append_left h
      cases hr₁ with
      | @cons _ x _ r₂ hx hr₂ =>
        cases hr₂ with
        | @cons _ y _ r' hy hr =>
          have hlen' : l'.length = kp.2 := by rw [← hl.length_eq, hlen]
          rw [Option.bind_some, Option.bind_some]
          nth_rewrite 1 [← hlen]
          rw [← hlen', contract_append, contract_append]
          have hab := hjoin a b x y kp.1 hx hy hk
          revert hab
          generalize join a b = c
          generalize join' x y = z
          intro hcz
          cases hcz with
          | none => exact h
          | some hc => exact ih (List.rel_append hl (.cons hc hr))

/-! ## What a run makes of the parts of a list -/

section Derives

variable {rank : α → α → Option ℕ} {join : α → α → Option α}

/-- Joining ranked pairs, in some order, can turn the list into one element. -/
inductive Derives (rank : α → α → Option ℕ) (join : α → α → Option α) : List α → α → Prop
  | leaf (a : α) : Derives rank join [a] a
  | node {xs ys : List α} {a b c : α} {k : ℕ} (left : Derives rank join xs a)
      (right : Derives rank join ys b) (ranked : rank a b = some k) (joined : join a b = some c) :
      Derives rank join (xs ++ ys) c

/-- The parts of a list from which the elements of another are derived. -/
def Parts (rank : α → α → Option ℕ) (join : α → α → Option α) (xs ys : List α)
    (groups : List (List α)) : Prop :=
  xs = groups.flatten ∧ List.Forall₂ (fun c group => Derives rank join group c) ys groups

/-- The elements themselves are parts. -/
theorem exists_parts_self (xs : List α) : ∃ groups, Parts rank join xs xs groups := by
  refine ⟨xs.map fun x => [x], by simp [← List.flatMap_def], ?_⟩
  rw [List.forall₂_map_right_iff]
  exact List.forall₂_same.mpr fun x _ => .leaf x

/-- A step joins two neighbouring parts. -/
theorem Parts.step {xs ys zs : List α} {groups : List (List α)}
    (h : Parts rank join xs ys groups) (hstep : step rank join ys = some zs) :
    ∃ l a b c r ga gb, ys = l ++ a :: b :: r ∧ zs = l ++ c :: r ∧ ga ++ gb <:+: xs ∧
      Derives rank join ga a ∧ Derives rank join gb b ∧ (∃ k, rank a b = some k) ∧
      join a b = some c ∧ ∃ groups', Parts rank join xs zs groups' := by
  obtain ⟨rfl, hgroups⟩ := h
  obtain ⟨l, a, b, c, r, rfl, rfl, ⟨k, hk⟩, hc⟩ := step_cases hstep
  obtain ⟨gl, g₁, hgl, hg₁, rfl⟩ := forall₂_append_left hgroups
  cases hg₁ with
  | @cons _ ga _ g₂ ha hg₂ =>
    cases hg₂ with
    | @cons _ gb _ gr hb hgr =>
      refine ⟨l, a, b, c, r, ga, gb, rfl, rfl, ?_, ha, hb, ⟨k, hk⟩, hc, gl ++ (ga ++ gb) :: gr, ?_,
        List.rel_append hgl (.cons (.node ha hb hk hc) hgr)⟩
      · exact ⟨gl.flatten, gr.flatten, by simp⟩
      · simp

variable (rank join) in
/-- Every element of the result is derived from its own part of the list. -/
theorem exists_parts_normalizeFrom (fuel : ℕ) (xs : List α) :
    ∃ groups, Parts rank join xs (normalizeFrom rank join fuel xs) groups := by
  refine normalizeFrom_induction (P := fun ys => ∃ groups, Parts rank join xs ys groups) ?_ fuel
    (exists_parts_self xs)
  rintro ys zs hstep ⟨groups, hgroups⟩
  obtain ⟨-, -, -, -, -, -, -, -, -, -, -, -, -, -, hparts⟩ := hgroups.step hstep
  exact hparts

theorem exists_derives_of_mem {fuel : ℕ} {xs : List α} {c : α}
    (h : c ∈ normalizeFrom rank join fuel xs) :
    ∃ group, group <:+: xs ∧ Derives rank join group c := by
  obtain ⟨groups, hxs, hgroups⟩ := exists_parts_normalizeFrom rank join fuel xs
  rw [hxs]
  generalize normalizeFrom rank join fuel xs = ys at h hgroups
  clear hxs
  induction hgroups with
  | nil => cases h
  | @cons c' group ys groups hc _ ih =>
    rcases List.mem_cons.mp h with rfl | h
    · exact ⟨group, (List.prefix_append group groups.flatten).isInfix, hc⟩
    · obtain ⟨group', hpart, hc'⟩ := ih h
      exact ⟨group', hpart.trans (List.suffix_append group groups.flatten).isInfix, hc'⟩

/-- Where no ranked neighbours can be joined, nothing is merged. -/
theorem step_eq_none_of_neighbours {xs : List α}
    (h : ∀ l a b r k, xs = l ++ a :: b :: r → rank a b = some k → join a b = none) :
    step rank join xs = none := by
  cases hstep : step rank join xs with
  | none => rfl
  | some ys =>
    obtain ⟨l, a, b, c, r, hxs, -, ⟨k, hk⟩, hc⟩ := step_cases hstep
    rw [h l a b r k hxs hk] at hc
    cases hc

end Derives

/-! ## Merging by concatenation -/

section Concat

variable {γ : Type} {rank : List γ → List γ → Option ℕ}
  {join : List γ → List γ → Option (List γ)}

/-- `ys` cuts the same text as `xs`, at some of the places where `xs` cuts it. -/
def Coarsens (ys xs : List (List γ)) : Prop :=
  ∃ groups : List (List (List γ)), xs = groups.flatten ∧ ys = groups.map List.flatten

theorem Coarsens.flatten_eq {xs ys : List (List γ)} (h : Coarsens ys xs) :
    ys.flatten = xs.flatten := by
  obtain ⟨groups, rfl, rfl⟩ := h
  rw [List.flatten_flatten]

/-- When `join` concatenates, what is derived from a part is its text. -/
theorem Derives.flatten_eq (hjoin : ∀ a b c, join a b = some c → c = a ++ b)
    {xs : List (List γ)} {t : List γ} (h : Derives rank join xs t) : xs.flatten = t := by
  induction h with
  | leaf t => rw [List.flatten_cons, List.flatten_nil, List.append_nil]
  | node _ _ _ joined ihl ihr => rw [List.flatten_append, ihl, ihr, hjoin _ _ _ joined]

/-- So the result of a run cuts the text more coarsely. -/
theorem coarsens_normalizeFrom (hjoin : ∀ a b c, join a b = some c → c = a ++ b) (fuel : ℕ)
    (xs : List (List γ)) : Coarsens (normalizeFrom rank join fuel xs) xs := by
  obtain ⟨groups, hxs, hgroups⟩ := exists_parts_normalizeFrom rank join fuel xs
  refine ⟨groups, hxs, ?_⟩
  generalize normalizeFrom rank join fuel xs = ys at hgroups
  clear hxs
  induction hgroups with
  | nil => rfl
  | cons hc _ ih => rw [List.map_cons, hc.flatten_eq hjoin, ih]

end Concat

end QuantumFlow.PairMerge
