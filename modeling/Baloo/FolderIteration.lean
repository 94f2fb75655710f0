import Baloo.FolderQuery
import Baloo.Lib.WorkList

/-!
# Iterating over a folder of any table

`IdTreePostingIterator::next` expands the ids by a work list that remembers nothing. On a table that is not a
forest an id listed by two directories is expanded and returned twice, and with a cycle the loop never ends; a `0`
in a list ends the iteration at its beginning. With one way from the directory to each id below it, every
call returns and the ids come in order, each once (`folder_iteration`).
-/

namespace Baloo

open Cursor (Position)
open Forest (Reaches OneWay drain)
open Fuel (Returns)
open IdTreePostingIterator (methods)

/-- `IdTreeDB::iter`. -/
def IdTreeDB.iter (db : IdTreeDB) (docId : DocId) : IdTreePostingIterator := { db := db, idList := [docId] }

namespace IdTreePostingIterator

variable {db : IdTreeDB} {id : DocId} {pre rest ids out : List DocId} {e : DocId} {n : ℕ}

/-- The iterator behind its first call, at a place of the result list. -/
def listing (db : IdTreeDB) (list : List DocId) (k : ℕ) : IdTreePostingIterator :=
  { db := db, pos := k, idList := [], resultList := list }

theorem value_listing (list : List DocId) (k : ℕ) :
    (if (k : ℤ) < list.length then list.getD (k : ℤ).toNat 0 else 0) = list.getD k 0 := by
  rw [Int.toNat_natCast]
  split
  · rfl
  · next h =>
    rw [List.getD_eq_getElem?_getD, List.getElem?_eq_none (by omega)]
    rfl

theorem docId_listing (db : IdTreeDB) (list : List DocId) (k : ℕ) : (listing db list k).docId = list.getD k 0 := by
  simp only [listing, docId, Int.natCast_nonneg, true_and, value_listing]

/-- The first call expands the id, and goes to the first result. -/
theorem next_iter (db : IdTreeDB) (id : DocId) (n : ℕ) : (db.iter id).next n =
    (drain db.get n [id] []).map fun out =>
      (listing db (out.insertionSort (· ≤ ·)) 0, (out.insertionSort (· ≤ ·)).getD 0 0) := by
  have hvalue : ∀ list : List DocId,
      (if (0 : ℤ) < list.length then list.getD (0 : ℤ).toNat 0 else 0) = list.getD 0 0 :=
    fun list => value_listing list 0
  simp only [IdTreeDB.iter, next, List.cons_ne_nil, and_false, if_false, if_true, Option.map_map, Function.comp_def,
    hvalue]
  rfl

/-- Every other call goes to the next result. -/
theorem next_listing {list : List DocId} {k : ℕ} (hk : k < list.length) (n : ℕ) :
    (listing db list k).next n = some (listing db list (k + 1), list.getD (k + 1) 0) := by
  have hne : list ≠ [] := List.ne_nil_of_length_pos (Nat.zero_lt_of_lt hk)
  have hpos : (k : ℤ) < list.length := Int.ofNat_lt.mpr hk
  have hvalue : (if (k : ℤ) + 1 < list.length then list.getD ((k : ℤ) + 1).toNat 0 else 0) = list.getD (k + 1) 0 :=
    value_listing list (k + 1)
  rw [listing]
  simp only [next, hne, false_and, if_false, if_pos hpos, Option.map_some, hvalue]
  rfl

/-- Behind an element of the result list, what is left of the list is enumerated. -/
theorem enumerate_listing (hzero : 0 ∉ pre ++ e :: rest) :
    Returns (fun n => Cursor.enumerate methods n (listing db (pre ++ e :: rest) pre.length)) rest := by
  have hk : pre.length < (pre ++ e :: rest).length := by simp
  refine Returns.succ ?_
  simp only [Cursor.enumerate, methods, next_listing hk, Option.bind_some]
  induction rest generalizing pre e with
  | nil =>
    have hvalue : (pre ++ [e]).getD (pre.length + 1) 0 = 0 := by simp
    rw [hvalue]
    exact Returns.pure []
  | cons e' rest ih =>
    have hsplit : pre ++ e :: e' :: rest = (pre ++ [e]) ++ e' :: rest := by simp
    have hlength : pre.length + 1 = (pre ++ [e]).length := by simp
    have hvalue : ((pre ++ [e]) ++ e' :: rest).getD (pre ++ [e]).length 0 = e' := by simp
    have hk' : (pre ++ [e]).length < ((pre ++ [e]) ++ e' :: rest).length := by simp
    have he' : e' ≠ 0 := by
      rintro rfl
      exact hzero (by simp)
    rw [hsplit] at hzero ⊢
    rw [hlength, docId_listing]
    simp only [hvalue, if_neg he']
    refine Returns.map ?_ (e' :: ·)
    refine Returns.succ ?_
    simp only [Cursor.enumerate, next_listing hk', Option.bind_some]
    exact ih hzero hk'

/-- What the iterator enumerates, if the first call returns. -/
theorem enumerate_iter (h : Returns (fun n => drain db.get n [id] []) out) :
    Returns (fun n => Cursor.enumerate methods n (db.iter id))
      (if 0 ∈ out then [] else out.insertionSort (· ≤ ·)) := by
  have hperm := List.perm_insertionSort (· ≤ ·) out
  refine Returns.succ ?_
  simp only [Cursor.enumerate, methods, next_iter]
  refine (h.map fun out =>
    (listing db (out.insertionSort (· ≤ ·)) 0, (out.insertionSort (· ≤ ·)).getD 0 0)).bind ?_
  cases hlist : out.insertionSort (· ≤ ·) with
  | nil =>
    rw [ite_self]
    exact Returns.pure []
  | cons e rest =>
    rw [hlist] at hperm
    by_cases he : e = 0
    · have hzero : 0 ∈ out := hperm.mem_iff.mp (he ▸ List.mem_cons_self)
      rw [if_pos hzero]
      simp only [List.getD_cons_zero, if_pos he]
      exact Returns.pure []
    · -- the first result is the least
      have hsorted := List.pairwise_insertionSort (· ≤ ·) out
      rw [hlist] at hsorted
      have hzero : 0 ∉ e :: rest := by
        intro hmem
        rcases List.mem_cons.mp hmem with heq | hrest
        · exact he heq.symm
        · exact he (Nat.le_zero.mp (List.rel_of_pairwise_cons hsorted hrest))
      rw [if_neg fun h => hzero (hperm.mem_iff.mpr h)]
      simp only [List.getD_cons_zero, if_neg he, docId_listing]
      exact ((show 0 ∉ [] ++ e :: rest from hzero) |> enumerate_listing).map (e :: ·)

/-- If something is enumerated, the first call returns. -/
theorem exists_drain_of_enumerate (h : Returns (fun n => Cursor.enumerate methods n (db.iter id)) ids) :
    ∃ n out, drain db.get n [id] [] = some out := by
  obtain ⟨n, hn⟩ := h
  have hsome := hn (n + 1) (Nat.le_succ n)
  simp only [Cursor.enumerate, methods, next_iter] at hsome
  cases hdrain : drain db.get n [id] [] with
  | none =>
    rw [hdrain] at hsome
    cases hsome
  | some out => exact ⟨n, out, hdrain⟩

end IdTreePostingIterator

namespace IdTreeDB

variable {db : IdTreeDB} {id : DocId} {sub ids : List DocId}

/-- The ids that are listed anywhere. -/
theorem exists_listed (db : IdTreeDB) : ∃ nodes : List DocId, ∀ p, ∀ c ∈ db.get p, c ∈ nodes := by
  refine ⟨db.keys.flatMap db.get, fun p c hc => List.mem_flatMap.mpr ⟨p, ?_, hc⟩⟩
  rw [get, OrdMap.values] at hc
  cases hget : OrdMap.get db p with
  | none =>
    rw [hget] at hc
    cases hc
  | some list => exact OrdMap.mem_keys.mpr ⟨list, hget⟩

/-- With one way to each id, the iterator is a cursor over what is below the id. -/
theorem implements_iter (hzero : ¬ Reaches db.get id 0) (hway : OneWay db.get id) :
    Cursor.Implements methods (db.iter id) {i | Reaches db.get id i} .start ∧
      ∃ B, ∀ i, Reaches db.get id i → i ≤ B := by
  obtain ⟨nodes, hnodes⟩ := db.exists_listed
  obtain ⟨sub, ⟨n, hn⟩, hnodup⟩ := (Forest.exists_drain_iff hnodes).mpr hway
  obtain ⟨hdrains, hmem, -⟩ := Forest.drain_spec (hn n (Nat.le_refl n))
  have hset : {i | Reaches db.get id i} = {i | i ∈ sub} := by
    ext i
    exact (hmem i).symm
  refine ⟨?_, sub.max?.getD 0, fun i hi => List.le_max?_getD_of_mem ((hmem i).mpr hi)⟩
  rw [hset]
  exact ⟨_, IdTreePostingIterator.simulation_at db, .start hdrains hnodup fun h => hzero ((hmem 0).mp h)⟩

end IdTreeDB

/-- The iterator returns from every call, and enumerates the ids that can be reached, in order and each once, if and
only if `0` cannot be reached and there is one way to each id that can. -/
theorem folder_iteration (db : IdTreeDB) (id : DocId) :
    ((∀ calls, ∃ out, Returns (fun n => Cursor.run methods n (db.iter id) calls) out) ∧
      ∃ ids, Returns (fun n => Cursor.enumerate methods n (db.iter id)) ids ∧ ids.Pairwise (· < ·) ∧
        ∀ i, i ∈ ids ↔ Reaches db.get id i) ↔
      ¬ Reaches db.get id 0 ∧ OneWay db.get id := by
  constructor
  · rintro ⟨-, ids, hids, hsorted, hmem⟩
    obtain ⟨n, out, hn⟩ := IdTreePostingIterator.exists_drain_of_enumerate hids
    obtain ⟨hdrains, hreaches, hperm⟩ := Forest.drain_spec hn
    have heq := hids.unique (IdTreePostingIterator.enumerate_iter hdrains.returns)
    have hzero : 0 ∉ out := by
      intro hzero
      rw [if_pos hzero] at heq
      have hid := (hmem id).mpr .refl
      rw [heq] at hid
      cases hid
    rw [if_neg hzero] at heq
    have hnodup : out.Nodup := by
      refine (List.perm_insertionSort (· ≤ ·) out).nodup_iff.mp ?_
      rw [← heq]
      exact hsorted.imp Nat.ne_of_lt
    exact ⟨fun h => hzero ((hreaches 0).mpr h), Forest.oneWay_of_nodup hreaches hperm hnodup⟩
  · rintro ⟨hzero, hway⟩
    obtain ⟨himp, B, hB⟩ := IdTreeDB.implements_iter hzero hway
    refine ⟨fun calls => (himp.run methods calls).imp fun out h => h.1, ?_⟩
    obtain ⟨ids, hids, hsorted, hmem⟩ := himp.enumerate hB
    refine ⟨ids, hids, hsorted, fun i => (hmem i).trans (and_iff_left_of_imp fun hi => ?_)⟩
    refine Nat.pos_of_ne_zero ?_
    rintro rfl
    exact hzero hi

/-- Two directories list each other. -/
def twoDirectories : IdTreeDB := ((∅ : IdTreeDB).put 1 [2]).put 2 [1]

/-- Of two directories that list each other, the iterator of the first does not return from its first call. -/
theorem iteration_hangs : ¬ ∃ r, Returns (fun n => (twoDirectories.iter 1).next n) r := by
  rintro ⟨r, n, hn⟩
  have hchild : ∀ p, p = 1 ∨ p = 2 → ∃ c ∈ twoDirectories.get p, c = 1 ∨ c = 2 := by
    rintro p (rfl | rfl)
    · exact ⟨2, by simp [twoDirectories, IdTreeDB.get, OrdMap.values], .inr rfl⟩
    · exact ⟨1, by simp [twoDirectories, IdTreeDB.get, OrdMap.values], .inl rfl⟩
  have hnone : (twoDirectories.iter 1).next n = none := by
    rw [IdTreePostingIterator.next_iter,
      Forest.drain_eq_none hchild n ⟨1, List.mem_singleton_self 1, .inl rfl⟩, Option.map_none]
  exact absurd (hnone.symm.trans (hn n (Nat.le_refl n))) (Option.some_ne_none r).symm

end Baloo
