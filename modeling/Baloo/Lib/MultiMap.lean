import Mathlib.Data.List.Basic
import Mathlib.Data.List.TakeWhile
import Mathlib.Order.Lattice

/-!
# Multimaps

A multimap keeps its pairs in ascending order of their keys, and a pair is inserted in front of the pairs that
have its key. So the values of a key come in the opposite order of their insertion (`values_insertAll`). The
pairs are enumerated key by key: the first pair belongs to a range of pairs with its key, which are all there
are (`values_range`, `values_after`).
-/

universe u v

/-- A multimap. -/
structure MultiMap (K : Type u) (V : Type v) [LinearOrder K] : Type (max u v) where
  /-- the pairs -/
  entries : List (K × V)
  /-- they are in order -/
  sorted : entries.Pairwise fun a b => a.1 ≤ b.1

namespace MultiMap

variable {K : Type u} {V : Type v} [LinearOrder K]

/-- A pair is put in front of the first pair whose key is not smaller. -/
def insertEntry (k : K) (v : V) : List (K × V) → List (K × V)
  | [] => [(k, v)]
  | e :: entries => if k ≤ e.1 then (k, v) :: e :: entries else e :: insertEntry k v entries

/-- The values of a key among the pairs. -/
def valuesOf (k : K) (entries : List (K × V)) : List V := (entries.filter fun e => e.1 = k).map Prod.snd

/-- The pairs behind those that have the key of the first one, or a smaller one. -/
def upperBound (k : K) (entries : List (K × V)) : List (K × V) := entries.dropWhile fun e => e.1 ≤ k

/-- The pairs in front of them. -/
def range (k : K) (entries : List (K × V)) : List (K × V) := entries.takeWhile fun e => e.1 ≤ k

variable {k a : K} {v w : V} {entries : List (K × V)}

theorem mem_insertEntry {e : K × V} : e ∈ insertEntry k v entries ↔ e = (k, v) ∨ e ∈ entries := by
  induction entries with
  | nil => simp [insertEntry]
  | cons b entries ih =>
    rw [insertEntry]
    split
    · exact List.mem_cons
    · rw [List.mem_cons, ih, List.mem_cons]
      exact or_left_comm

theorem sorted_insertEntry (h : entries.Pairwise fun a b => a.1 ≤ b.1) (k : K) (v : V) :
    (insertEntry k v entries).Pairwise fun a b => a.1 ≤ b.1 := by
  induction entries with
  | nil => exact List.pairwise_singleton _ _
  | cons b entries ih =>
    obtain ⟨hb, hentries⟩ := List.pairwise_cons.mp h
    rw [insertEntry]
    split
    · next hle =>
      refine List.pairwise_cons.mpr ⟨fun e he => ?_, h⟩
      rcases List.mem_cons.mp he with rfl | he
      · exact hle
      · exact hle.trans (hb e he)
    · next hlt =>
      refine List.pairwise_cons.mpr ⟨fun e he => ?_, ih hentries⟩
      rcases mem_insertEntry.mp he with rfl | he
      · exact (not_le.mp hlt).le
      · exact hb e he

theorem valuesOf_cons (e : K × V) (entries : List (K × V)) :
    valuesOf k (e :: entries) = if e.1 = k then e.2 :: valuesOf k entries else valuesOf k entries := by
  by_cases he : e.1 = k
  · rw [valuesOf, List.filter_cons_of_pos (by simpa using he), List.map_cons, if_pos he, valuesOf]
  · rw [valuesOf, List.filter_cons_of_neg (by simpa using he), if_neg he, valuesOf]

/-- A key that all keys exceed has no values. -/
theorem valuesOf_eq_nil (h : ∀ e ∈ entries, e.1 ≠ k) : valuesOf k entries = [] := by
  refine List.map_eq_nil_iff.mpr (List.filter_eq_nil_iff.mpr fun e he => ?_)
  simpa using h e he

/-- The new value is the first one of its key. -/
theorem valuesOf_insertEntry (h : entries.Pairwise fun a b => a.1 ≤ b.1) :
    valuesOf a (insertEntry k v entries) = if k = a then v :: valuesOf a entries else valuesOf a entries := by
  induction entries with
  | nil => exact valuesOf_cons _ _
  | cons b entries ih =>
    obtain ⟨hb, hentries⟩ := List.pairwise_cons.mp h
    rw [insertEntry]
    split
    · exact valuesOf_cons _ _
    · next hlt =>
      rw [valuesOf_cons, valuesOf_cons, ih hentries]
      by_cases hk : k = a
      · subst hk
        have hne : b.1 ≠ k := (not_le.mp hlt).ne
        rw [if_neg hne, if_neg hne]
      · rw [if_neg hk, if_neg hk]

/-! ## The range of the first key -/

/-- Behind the range all keys are greater. -/
theorem lt_of_mem_upperBound (h : entries.Pairwise fun a b => a.1 ≤ b.1) {e : K × V}
    (he : e ∈ upperBound k entries) : k < e.1 := by
  induction entries with
  | nil => exact absurd he List.not_mem_nil
  | cons b entries ih =>
    obtain ⟨hb, hentries⟩ := List.pairwise_cons.mp h
    rw [upperBound] at he
    by_cases hle : b.1 ≤ k
    · rw [List.dropWhile_cons_of_pos (by simpa using hle)] at he
      exact ih hentries he
    · rw [List.dropWhile_cons_of_neg (by simpa using hle)] at he
      rcases List.mem_cons.mp he with rfl | he
      · exact not_le.mp hle
      · exact (not_le.mp hle).trans_le (hb e he)

/-- In the range there is only the first key. -/
theorem eq_of_mem_range (h : ((k, v) :: entries).Pairwise fun a b => a.1 ≤ b.1) {e : K × V}
    (he : e ∈ range k entries) : e.1 = k :=
  le_antisymm (by simpa using List.mem_takeWhile_imp he)
    ((List.pairwise_cons.mp h).1 e ((List.takeWhile_sublist _).mem he))

/-- **The values of the first key are those of its range.** -/
theorem values_range (h : ((k, v) :: entries).Pairwise fun a b => a.1 ≤ b.1) :
    valuesOf k ((k, v) :: entries) = v :: (range k entries).map Prod.snd := by
  have hsplit : entries = range k entries ++ upperBound k entries := (List.takeWhile_append_dropWhile).symm
  have hafter : valuesOf k (upperBound k entries) = [] :=
    valuesOf_eq_nil fun e he => (lt_of_mem_upperBound (List.pairwise_cons.mp h).2 he).ne'
  have hrange : (range k entries).filter (fun e => e.1 = k) = range k entries :=
    List.filter_eq_self.mpr fun e he => by simpa using eq_of_mem_range h he
  rw [valuesOf_cons, if_pos rfl]
  conv_lhs => rw [hsplit]
  rw [valuesOf, List.filter_append, List.map_append, hrange]
  rw [valuesOf] at hafter
  rw [hafter, List.append_nil]

/-- The values of other keys are behind the range. -/
theorem values_after (h : ((k, v) :: entries).Pairwise fun a b => a.1 ≤ b.1) (hne : a ≠ k) :
    valuesOf a ((k, v) :: entries) = valuesOf a (upperBound k entries) := by
  have hsplit : entries = range k entries ++ upperBound k entries := (List.takeWhile_append_dropWhile).symm
  have hrange : (range k entries).filter (fun e => e.1 = a) = [] :=
    List.filter_eq_nil_iff.mpr fun e he => by simpa [eq_of_mem_range h he] using hne.symm
  rw [valuesOf_cons, if_neg hne.symm]
  conv_lhs => rw [hsplit]
  rw [valuesOf, List.filter_append, List.map_append, hrange]
  rfl

theorem sorted_upperBound (h : ((k, v) :: entries).Pairwise fun a b => a.1 ≤ b.1) :
    (upperBound k entries).Pairwise fun a b => a.1 ≤ b.1 :=
  (List.pairwise_cons.mp h).2.sublist (List.dropWhile_sublist _)

theorem length_upperBound_le (k : K) (entries : List (K × V)) : (upperBound k entries).length ≤ entries.length :=
  (List.dropWhile_sublist _).length_le

/-! ## The multimap -/

/-- The multimap without pairs. -/
instance : EmptyCollection (MultiMap K V) := ⟨⟨[], .nil⟩⟩

/-- Insert a pair. -/
def insert (m : MultiMap K V) (k : K) (v : V) : MultiMap K V where
  entries := insertEntry k v m.entries
  sorted := sorted_insertEntry m.sorted k v

/-- Insert values under one key, one after the other. -/
def insertAll (m : MultiMap K V) (k : K) (vs : List V) : MultiMap K V := vs.foldl (fun m v => m.insert k v) m

/-- The values of a key, the last one first. -/
def values (m : MultiMap K V) (k : K) : List V := valuesOf k m.entries

@[simp] theorem values_empty (k : K) : (∅ : MultiMap K V).values k = [] := rfl

theorem values_insert (m : MultiMap K V) (k : K) (v : V) :
    (m.insert k v).values a = if k = a then v :: m.values a else m.values a :=
  valuesOf_insertEntry m.sorted

/-- Of values that are inserted the last one comes first. -/
theorem values_insertAll (m : MultiMap K V) (k : K) (vs : List V) :
    (m.insertAll k vs).values a = if k = a then vs.reverse ++ m.values a else m.values a := by
  induction vs generalizing m with
  | nil => exact (ite_self _).symm
  | cons v vs ih =>
    refine (ih (m.insert k v)).trans ?_
    rw [values_insert]
    by_cases hk : k = a
    · simp [hk]
    · simp [hk]

end MultiMap
