import Baloo.PostingAlgebra

/-!
# Reading iterators to the end

The results of a query are read with `while (it->next())`. On an iterator over a bounded set this
yields the elements of the set, ascending and each once; a null pointer stands for the empty set
(`Answers`).
-/

namespace Baloo

open Fuel (Returns)

namespace PostingIterator

/-- The loop `while (it->next())` over an iterator, collecting `docId`. -/
def enumerate : ℕ → PostingIterator → Option (List DocId)
  | 0, _ => none
  | fuel + 1, it =>
    (it.next fuel).bind fun r =>
      if r.2 = 0 then some [] else (enumerate fuel r.1).map (r.1.docId :: ·)

/-- The elements behind a position. -/
def rest (S : Set ℕ) (p : Cursor.Position) : Set ℕ := {x | x ∈ S ∧ p.doc < x}

theorem enumerate_eq (fuel : ℕ) (it : PostingIterator) : enumerate fuel it = Cursor.enumerate methods fuel it := by
  induction fuel generalizing it with
  | zero => rfl
  | succ fuel ih => simp only [enumerate, Cursor.enumerate, methods, ih]

/-- A cursor over a bounded set enumerates the elements behind its position. -/
theorem exists_enumerate {S : Set ℕ} {B : ℕ} (hB : ∀ x ∈ S, x ≤ B) {it : PostingIterator}
    {p : Cursor.Position} (his : Is it S p) (hp : p ≠ .exhausted) :
    ∃ ids, Returns (fun n => enumerate n it) ids ∧ ids.Pairwise (· < ·) ∧
      ∀ x, x ∈ ids ↔ x ∈ rest S p := by
  simp only [enumerate_eq]
  exact (Cursor.reads_implements methods S).enumerate hB ⟨p, hp, his, rfl⟩

/-- What a query returns answers `S`: a null pointer stands for the empty set, an iterator yields
the ids of `S`, ascending and each once. -/
def Answers : Option PostingIterator → Set ℕ → Prop
  | none, S => S = ∅
  | some it, S => ∃ ids, Returns (fun n => enumerate n it) ids ∧ ids.Pairwise (· < ·) ∧
      ∀ x, x ∈ ids ↔ x ∈ S

/-- An iterator at the start of a bounded set enumerates it. -/
theorem answers_of_is {S : Set ℕ} {B : ℕ} (hB : ∀ x ∈ S, x ≤ B) {it : PostingIterator}
    (his : Is it S .start) (hzero : 0 ∉ S) : Answers (some it) S := by
  obtain ⟨ids, hids, hsorted, hmem⟩ := exists_enumerate hB his (by simp)
  refine ⟨ids, hids, hsorted, fun x => ?_⟩
  rw [hmem x]
  refine ⟨fun hx => hx.1, fun hx => ⟨hx, Nat.pos_of_ne_zero ?_⟩⟩
  rintro rfl
  exact hzero hx

/-- A vector answers its ids. -/
theorem answers_vector {values : List DocId} (hsorted : values.Pairwise (· < ·)) (hzero : 0 ∉ values) :
    Answers (some (.vector values (-1))) {x | x ∈ values} := by
  refine answers_of_is (B := values.max?.getD 0) (fun x hx => ?_)
    ⟨_, simulation_vector, .start hsorted hzero⟩ hzero
  exact List.le_max?_getD_of_mem hx

end PostingIterator

namespace PostingTree

theorem Proper.zero_notMem {t : PostingTree} (h : t.Proper) : 0 ∉ t.ids := by
  induction t using induct with
  | null => exact fun h => nomatch h
  | vector values =>
    rintro ⟨hmem⟩
    cases h with
    | vector _ hzero => exact hzero hmem
  | and children ih =>
    rintro (_ | ⟨hne, hall⟩ | _)
    cases h with
    | and hproper =>
      obtain ⟨t, ht⟩ := List.exists_mem_of_ne_nil children hne
      exact ih t ht (hproper t ht) (hall t ht)
  | or children ih =>
    rintro (_ | _ | ⟨ht, hmem⟩)
    cases h with
    | or hproper => exact ih _ ht (hproper _ ht) hmem

/-- The iterator of a tree answers the ids the tree denotes. -/
theorem Proper.answers {t : PostingTree} (h : t.Proper) :
    ∃ it, Returns (fun n => t.build n) it ∧ PostingIterator.Answers it t.ids := by
  obtain ⟨⟨B, hB⟩, it, hreturns, hbuilt⟩ := t.exists_built h
  refine ⟨it, hreturns, ?_⟩
  cases it with
  | none =>
    obtain rfl : t = .null := hbuilt
    exact ids_null
  | some it => exact PostingIterator.answers_of_is hB hbuilt h.zero_notMem

end PostingTree

end Baloo
