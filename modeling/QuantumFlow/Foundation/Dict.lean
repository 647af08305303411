import Mathlib.Data.List.Perm.Subperm
import Mathlib.Data.List.Nodup
import Mathlib.Logic.Function.Basic

/-!
# Dictionaries

A hash map that is only ever looked up by key is a partial function. `insertAll` inserts
a list of pairs in order, so a later pair replaces an earlier one with the same key. For
pairs with distinct keys the dictionary and the list hold the same information, up to the
order of the list.
-/

namespace QuantumFlow

def Dict (K V : Type) : Type := K → Option V

namespace Dict

variable {K V : Type}

def empty : Dict K V := fun _ => none

def get (m : Dict K V) (k : K) : Option V := m k

@[ext] theorem ext {m n : Dict K V} (h : ∀ k, m.get k = n.get k) : m = n := funext h

@[simp] theorem get_empty (k : K) : (empty : Dict K V).get k = none := rfl

variable [DecidableEq K]

def insert (m : Dict K V) (k : K) (v : V) : Dict K V := Function.update m k (some v)

def insertAll (m : Dict K V) (kvs : List (K × V)) : Dict K V :=
  kvs.foldl (fun m kv => m.insert kv.1 kv.2) m

theorem get_insert (m : Dict K V) (k : K) (v : V) (k' : K) :
    (m.insert k v).get k' = if k' = k then some v else m.get k' := by
  exact Function.update_apply m k (some v) k'

@[simp] theorem insertAll_nil (m : Dict K V) : m.insertAll [] = m := rfl

@[simp] theorem insertAll_cons (m : Dict K V) (kv : K × V) (kvs : List (K × V)) :
    m.insertAll (kv :: kvs) = (m.insert kv.1 kv.2).insertAll kvs := rfl

/-- A value that is found was inserted, or was there before. -/
theorem get_insertAll {m : Dict K V} {kvs : List (K × V)} {k : K} {v : V}
    (h : (m.insertAll kvs).get k = some v) : (k, v) ∈ kvs ∨ m.get k = some v := by
  induction kvs generalizing m with
  | nil => exact Or.inr h
  | cons kv kvs ih =>
    rcases ih h with hmem | hget
    · exact Or.inl (List.mem_cons_of_mem kv hmem)
    · rw [get_insert] at hget
      split at hget
      · rename_i hk
        cases hget
        exact Or.inl (by simp [hk])
      · exact Or.inr hget

theorem mem_of_get_insertAll {kvs : List (K × V)} {k : K} {v : V}
    (h : (empty.insertAll kvs).get k = some v) : (k, v) ∈ kvs := by
  simpa using get_insertAll h

/-- Keys that are not inserted keep their value. -/
theorem get_insertAll_of_notMem {m : Dict K V} {kvs : List (K × V)} {k : K}
    (h : k ∉ kvs.map Prod.fst) : (m.insertAll kvs).get k = m.get k := by
  induction kvs generalizing m with
  | nil => rfl
  | cons kv kvs ih =>
    simp only [List.map_cons, List.mem_cons, not_or] at h
    rw [insertAll_cons, ih h.2, get_insert, if_neg h.1]

/-- A key that is inserted is found. -/
theorem get_insertAll_of_mem {m : Dict K V} {kvs : List (K × V)} {k : K}
    (h : k ∈ kvs.map Prod.fst) : ∃ v, (m.insertAll kvs).get k = some v := by
  induction kvs generalizing m with
  | nil => simp at h
  | cons kv kvs ih =>
    by_cases hk : k ∈ kvs.map Prod.fst
    · exact ih hk
    · have hkv : k = kv.1 := by simpa [hk] using h
      exact ⟨kv.2, by rw [insertAll_cons, get_insertAll_of_notMem hk, get_insert, if_pos hkv]⟩

/-- With distinct keys, lookup is membership. -/
theorem get_insertAll_iff_mem {kvs : List (K × V)} (hnd : (kvs.map Prod.fst).Nodup) {k : K}
    {v : V} : (empty.insertAll kvs).get k = some v ↔ (k, v) ∈ kvs := by
  refine ⟨mem_of_get_insertAll, fun h => ?_⟩
  obtain ⟨w, hw⟩ := get_insertAll_of_mem (m := empty) (List.mem_map_of_mem (f := Prod.fst) h)
  have hmem := mem_of_get_insertAll hw
  have hpair := List.inj_on_of_nodup_map hnd hmem h rfl
  rw [hw, show w = v from congrArg Prod.snd hpair]

/-- A list that is no longer than a list with distinct keys, and builds the same dictionary,
is a reordering of it. -/
theorem perm_of_insertAll_eq {kvs kvs' : List (K × V)} (hnd : (kvs.map Prod.fst).Nodup)
    (hlen : kvs'.length ≤ kvs.length)
    (h : (empty : Dict K V).insertAll kvs' = empty.insertAll kvs) : kvs.Perm kvs' := by
  have hsub : kvs ⊆ kvs' := by
    rintro ⟨k, v⟩ hkv
    apply mem_of_get_insertAll
    rw [h]
    exact (get_insertAll_iff_mem hnd).mpr hkv
  exact ((List.Nodup.of_map _ hnd).subperm hsub).perm_of_length_le hlen

end Dict

end QuantumFlow
