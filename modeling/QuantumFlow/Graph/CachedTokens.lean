import QuantumFlow.Graph.LlamaGraph

/-!
# The tokens in the cache

`Appends g g' tokens` says that `g'` has exactly `tokens` behind what `g` had cached. It
composes along a sequence of requests, and a failed request appends nothing.
-/

namespace QuantumFlow

variable {X W F : Type}

/-- The cache of `g'` holds what the cache of `g` holds, then `tokens`. -/
structure Appends (g g' : LlamaGraph X W F) (tokens : List TokenId) : Prop where
  head : g'.kv.head = g.kv.head + tokens.length
  before : ∀ r < g.kv.head, (g'.kv.fed r).map Prod.fst = (g.kv.fed r).map Prod.fst
  new : ∀ i < tokens.length, (g'.kv.fed (g.kv.head + i)).map Prod.fst = tokens[i]?

/-- The cached rows were computed from exactly these tokens. -/
structure Holds (g : LlamaGraph X W F) (tokens : List TokenId) : Prop where
  head : g.kv.head = tokens.length
  rows : ∀ r < g.kv.head, (g.kv.fed r).map Prod.fst = tokens[r]?

theorem Appends.of_kv_eq {g g' : LlamaGraph X W F} (h : g'.kv = g.kv) : Appends g g' [] :=
  ⟨by rw [h]; rfl, fun _ _ => by rw [h], fun _ hi => absurd hi (Nat.not_lt_zero _)⟩

theorem Appends.trans {g₁ g₂ g₃ : LlamaGraph X W F} {ts us : List TokenId}
    (h : Appends g₁ g₂ ts) (h' : Appends g₂ g₃ us) : Appends g₁ g₃ (ts ++ us) where
  head := by rw [h'.head, h.head, List.length_append, Nat.add_assoc]
  before r hr := by
    have hhead := h.head
    rw [h'.before r (by omega), h.before r hr]
  new i hi := by
    have hhead := h.head
    rw [List.length_append] at hi
    by_cases hlt : i < ts.length
    · rw [h'.before _ (by omega), h.new i hlt, List.getElem?_append_left hlt]
    · have hnew := h'.new (i - ts.length) (by omega)
      rw [List.getElem?_append_right (by omega), ← hnew, hhead]
      congr 2
      omega

theorem Holds.append {g g' : LlamaGraph X W F} {ts us : List TokenId} (h : Holds g ts)
    (h' : Appends g g' us) : Holds g' (ts ++ us) where
  head := by rw [h'.head, h.head, List.length_append]
  rows r hr := by
    have hhead := h.head
    have hhead' := h'.head
    by_cases hlt : r < ts.length
    · rw [h'.before r (by omega), h.rows r (by omega), List.getElem?_append_left hlt]
    · have hnew := h'.new (r - ts.length) (by omega)
      rw [List.getElem?_append_right (by omega), ← hnew, hhead]
      congr 2
      omega

/-- The cache holds one list of tokens. -/
theorem Holds.unique {g : LlamaGraph X W F} {ts us : List TokenId} (h : Holds g ts)
    (h' : Holds g us) : ts = us := by
  have hlen : ts.length = us.length := h.head.symm.trans h'.head
  refine List.ext_getElem? fun i => ?_
  by_cases hi : i < g.kv.head
  · rw [← h.rows i hi, h'.rows i hi]
  · have hts := h.head
    rw [List.getElem?_eq_none (by omega), List.getElem?_eq_none (by omega)]

theorem Holds.iff_eq {g : LlamaGraph X W F} {ts us : List TokenId} (h : Holds g ts) :
    Holds g us ↔ us = ts := by
  refine ⟨fun h' => h'.unique h, ?_⟩
  rintro rfl
  exact h

/-- The cached rows from `r` on were computed from these tokens. -/
structure HoldsAt (g : LlamaGraph X W F) (r : ℕ) (tokens : List TokenId) : Prop where
  within : r + tokens.length ≤ g.kv.head
  rows : ∀ i < tokens.length, (g.kv.fed (r + i)).map Prod.fst = tokens[i]?

instance (g : LlamaGraph X W F) (r : ℕ) (tokens : List TokenId) : Decidable (HoldsAt g r tokens) :=
  decidable_of_iff (r + tokens.length ≤ g.kv.head ∧
    ∀ i < tokens.length, (g.kv.fed (r + i)).map Prod.fst = tokens[i]?)
    ⟨fun h => ⟨h.1, h.2⟩, fun h => ⟨h.within, h.rows⟩⟩

/-- Rows behind the head leave them. -/
theorem HoldsAt.append {g g' : LlamaGraph X W F} {r : ℕ} {ts us : List TokenId}
    (h : HoldsAt g r ts) (h' : Appends g g' us) : HoldsAt g' r ts where
  within := by
    have hhead := h'.head
    have hwithin := h.within
    omega
  rows i hi := by
    have hwithin := h.within
    rw [h'.before _ (by omega), h.rows i hi]

/-- What is appended begins at the old head. -/
theorem Appends.holdsAt {g g' : LlamaGraph X W F} {ts us : List TokenId}
    (h : Appends g g' (ts ++ us)) : HoldsAt g' g.kv.head ts where
  within := by
    have hhead := h.head
    rw [List.length_append] at hhead
    omega
  rows i hi := by
    rw [h.new i (by rw [List.length_append]; omega), List.getElem?_append_left hi]

/-- An empty cache holds nothing. -/
theorem holds_nil {g : LlamaGraph X W F} (h : g.kv.head = 0) : Holds g [] :=
  ⟨h, fun r hr => by omega⟩

section Requests

variable {G : Ggml X W F} {calls : GgmlCalls X} {model : MappedModel W} {g g' : LlamaGraph X W F}

theorem appends_of_prefill_ok {tokens : List TokenId} {logits : List F}
    (h : g.prefill G calls model tokens = (.ok logits, g')) : Appends g g' tokens := by
  obtain ⟨-, -, -, -, hhead, hfed⟩ := LlamaGraph.prefill_eq_ok h
  refine ⟨hhead, fun r hr => ?_, fun i hi => ?_⟩
  · rw [hfed, if_neg (by omega)]
  · rw [hfed, if_pos (by omega), Nat.add_sub_cancel_left, List.getElem?_eq_getElem hi]
    rfl

theorem appends_of_prefill_err {tokens : List TokenId} {e : ForwardError}
    (h : g.prefill G calls model tokens = (.err e, g')) : Appends g g' [] := by
  obtain ⟨-, -, hhead, hrows⟩ := LlamaGraph.prefill_eq_err h
  exact ⟨hhead, fun r hr => by rw [(hrows r hr).1], fun _ hi => absurd hi (Nat.not_lt_zero _)⟩

theorem appends_of_decodeOne_ok {token : TokenId} {logits : List F}
    (h : g.decodeOne G calls model token = (.ok logits, g')) : Appends g g' [token] := by
  obtain ⟨-, -, -, hhead, hfed⟩ := LlamaGraph.decodeOne_eq_ok h
  refine ⟨hhead, fun r hr => ?_, fun i hi => ?_⟩
  · rw [hfed, Function.update_of_ne (by omega)]
  · obtain rfl : i = 0 := by simpa using hi
    rw [hfed, Nat.add_zero, Function.update_self]
    rfl

theorem appends_of_decodeOne_err {token : TokenId} {e : ForwardError}
    (h : g.decodeOne G calls model token = (.err e, g')) : Appends g g' [] :=
  .of_kv_eq (LlamaGraph.decodeOne_eq_err h).2

end Requests

end QuantumFlow
