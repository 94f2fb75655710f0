import Mathlib.Data.List.AList
import Mathlib.Logic.Function.Basic

/-!
# Hash tables

A hash table is an association list without duplicate keys; its order stands for the unspecified order
in which a hash table is visited. The list is Mathlib's `AList`. What is added is the lookup of a table
as a function of the key, which makes `insert` and `erase` updates of a function, and the removal of
all entries that fail a test.
-/

universe u v

/-- A hash table. -/
abbrev Hash (K : Type u) (V : Type v) : Type (max u v) := AList fun _ : K => V

namespace Hash

variable {K : Type u} {V : Type v} [DecidableEq K]

/-- The value under a key. -/
def get (h : Hash K V) (k : K) : Option V := h.lookup k

/-- The entries that pass a test. -/
def filter (h : Hash K V) (p : K → V → Bool) : Hash K V where
  entries := h.entries.filter fun e => p e.1 e.2
  nodupKeys := h.nodupKeys.sublist List.filter_sublist

@[simp] theorem get_empty (k : K) : get (∅ : Hash K V) k = none := AList.lookup_empty k

theorem get_insert (h : Hash K V) (k : K) (v : V) :
    get (AList.insert k v h) = Function.update (get h) k (some v) := by
  funext k'
  rcases eq_or_ne k' k with rfl | hne
  · rw [Function.update_self]
    exact AList.lookup_insert h
  · rw [Function.update_of_ne hne]
    exact AList.lookup_insert_ne hne

theorem get_erase (h : Hash K V) (k : K) :
    get (AList.erase k h) = Function.update (get h) k none := by
  funext k'
  rcases eq_or_ne k' k with rfl | hne
  · rw [Function.update_self]
    exact AList.lookup_erase k' h
  · rw [Function.update_of_ne hne]
    exact AList.lookup_erase_ne hne

theorem mem_entries {h : Hash K V} {k : K} {v : V} : ⟨k, v⟩ ∈ h.entries ↔ get h k = some v :=
  (List.mem_dlookup_iff h.nodupKeys).symm

theorem get_filter (h : Hash K V) (p : K → V → Bool) (k : K) :
    get (filter h p) k = (get h k).filter (p k) := by
  apply Option.ext
  intro v
  rw [← mem_entries, filter, Option.filter_eq_some_iff, ← mem_entries]
  exact List.mem_filter

end Hash
