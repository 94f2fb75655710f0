import Baloo.DateSearch
import Mathlib.Data.Set.Card

/-!
# Pages of results

`SearchStore::exec` returns the results of a query from an offset on, and no more than a limit. With `SortAuto` it
reads all ids, sorts them by the time of the last modification and cuts the page out of the list. With `SortNone` it
skips and takes on the iterator itself, which may be asked once more when it is at its end already.

The largest limit stands for no limit. The sorting branch takes it so; the other one counts it down like any other
limit, and loses results when there are `2 ^ 32` or more (`results_paged`).
-/

namespace Baloo.Search

open Fuel (Returns)
open Cursor (HasLeft)

/-- `Query::SortingOption`. -/
inductive SortingOption
  /-- in the order of the index -/
  | sortNone
  /-- by the time of the last modification -/
  | sortAuto
  deriving DecidableEq

/-- What the query says about the results to return. -/
structure PagedQuery extends Query where
  /-- `sortingOption` -/
  sortingOption : SortingOption
  /-- `limit` -/
  limit : UInt32
  /-- `offset` -/
  offset : UInt32

/-- `std::numeric_limits<uint>::max()`. -/
def unlimited : UInt32 := 0xffffffff

/-- `Result`. -/
structure SearchResult where
  /-- `filePath` -/
  filePath : QByteArray
  /-- `documentId` -/
  documentId : DocId

/-- What a transaction knows about documents. -/
structure Documents where
  /-- `documentTimeInfo`, its `mTime` -/
  mTime : DocId → UInt32
  /-- `documentUrl` -/
  documentUrl : DocId → QByteArray

/-- The comparison of two results: the later comes first. -/
def compFunc (lhs rhs : DocId × UInt32) : Bool := rhs.2 < lhs.2

/-- `std::sort` with this comparison; which of the sorted permutations it gives is left open. -/
structure Sorting where
  /-- the sorted list -/
  sort : List (DocId × UInt32) → List (DocId × UInt32)
  /-- it has the same elements -/
  perm : ∀ l, (sort l).Perm l
  /-- no element comes before a previous one -/
  sorted : ∀ l, (sort l).Pairwise fun a b => compFunc b a = false

section

variable {Date Double : Type} (qt : Platform Date Double) (tr : Lookups Double) (docs : Documents)

/-- The result of a document. -/
def resultOf (id : DocId) : SearchResult := { filePath := docs.documentUrl id, documentId := id }

/-- `while (offset && it->next())`. -/
def skipLoop : ℕ → UInt32 → PostingIterator → Option PostingIterator
  | 0, _, _ => none
  | n + 1, offset, it =>
    if offset = 0 then some it
    else (it.next n).bind fun r => if r.2 = 0 then some r.1 else skipLoop n (offset - 1) r.1

/-- `while (ulimit && it->next())`. -/
def takeLoop : ℕ → UInt32 → PostingIterator → Option (List SearchResult)
  | 0, _, _ => none
  | n + 1, ulimit, it =>
    if ulimit = 0 then some []
    else (it.next n).bind fun r =>
      if r.2 = 0 then some []
      else (takeLoop n (ulimit - 1) r.1).map (resultOf docs r.1.docId :: ·)

/-- The results of the sorted list. -/
def sortedPage (s : Sorting) (ids : List DocId) (query : PagedQuery) : List SearchResult :=
  let resultIds := ids.map fun id => (id, docs.mTime id)
  let offset := query.offset.toNat
  -- not enough results within range, no need to sort
  if resultIds.length ≤ offset then []
  else
    let count := resultIds.length
    let last := if query.limit = unlimited then count else min ((offset + query.limit.toNat) % 2 ^ 64) count
    (((s.sort resultIds).drop offset).take (last - offset)).map fun r => resultOf docs r.1

/-- `SearchStore::exec`, when the database is open. -/
def exec (s : Sorting) (fuel : ℕ) (query : PagedQuery) : Option (List SearchResult) :=
  (constructFromQuery qt tr fuel query.toQuery).bind fun it =>
    match it with
    | none => some []
    | some it =>
      if query.sortingOption = .sortAuto then
        (it.enumerate fuel).map fun ids => sortedPage docs s ids query
      else (skipLoop fuel query.offset it).bind fun it => takeLoop docs fuel query.limit it

end

/-! ## What is returned -/

section

variable {Date Double : Type} {qt : Platform Date Double} {tr : Lookups Double} {docs : Documents} {s : Sorting}
  {it : PostingIterator} {ids : List DocId} {query : PagedQuery}

theorem toNat_sub_one {a : UInt32} (h : a ≠ 0) : (a - 1).toNat + 1 = a.toNat := by
  have hpos : 1 ≤ a.toNat := Nat.pos_of_ne_zero fun h0 => h (UInt32.toNat_inj.mp h0)
  have hle : (1 : UInt32) ≤ a := UInt32.le_iff_toNat_le.mpr hpos
  rw [UInt32.toNat_sub_of_le a 1 hle]
  exact Nat.sub_add_cancel hpos

/-- Skipping leaves what is behind the offset. -/
theorem skipLoop_returns (h : HasLeft PostingIterator.methods it ids) (offset : UInt32) :
    ∃ it', Returns (fun n => skipLoop n offset it) it' ∧
      HasLeft PostingIterator.methods it' (ids.drop offset.toNat) := by
  induction ids generalizing it offset with
  | nil =>
    rw [List.drop_nil]
    by_cases hoffset : offset = 0
    · refine ⟨it, Returns.succ ?_, h⟩
      simp only [skipLoop, if_pos hoffset]
      exact Returns.pure _
    · obtain ⟨it', hnext, hleft⟩ := h.next_nil
      refine ⟨it', Returns.succ ?_, hleft⟩
      simp only [skipLoop, if_neg hoffset]
      exact Returns.bind hnext (Returns.pure _)
  | cons id ids ih =>
    by_cases hoffset : offset = 0
    · subst hoffset
      refine ⟨it, Returns.succ ?_, h⟩
      simp only [skipLoop, if_pos]
      exact Returns.pure _
    · obtain ⟨it', hnext, -, hid, hleft⟩ := h.next_cons
      obtain ⟨it'', hskip, hleft'⟩ := ih hleft (offset - 1)
      rw [← toNat_sub_one hoffset, List.drop_succ_cons]
      refine ⟨it'', Returns.succ ?_, hleft'⟩
      simp only [skipLoop, if_neg hoffset]
      refine Returns.bind hnext ?_
      simp only [if_neg hid]
      exact hskip

/-- What is left is taken up to the limit. -/
theorem takeLoop_returns (h : HasLeft PostingIterator.methods it ids) (ulimit : UInt32) :
    Returns (fun n => takeLoop docs n ulimit it) ((ids.take ulimit.toNat).map (resultOf docs)) := by
  induction ids generalizing it ulimit with
  | nil =>
    rw [List.take_nil, List.map_nil]
    by_cases hlimit : ulimit = 0
    · refine Returns.succ ?_
      simp only [takeLoop, if_pos hlimit]
      exact Returns.pure _
    · obtain ⟨it', hnext, -⟩ := h.next_nil
      refine Returns.succ ?_
      simp only [takeLoop, if_neg hlimit]
      exact Returns.bind hnext (Returns.pure _)
  | cons id ids ih =>
    by_cases hlimit : ulimit = 0
    · subst hlimit
      refine Returns.succ ?_
      simp only [takeLoop, if_pos]
      exact Returns.pure _
    · obtain ⟨it', hnext, hdoc, hid, hleft⟩ := h.next_cons
      have hdocId : it'.docId = id := hdoc
      rw [← toNat_sub_one hlimit, List.take_succ_cons, List.map_cons]
      refine Returns.succ ?_
      simp only [takeLoop, if_neg hlimit]
      refine Returns.bind hnext ?_
      simp only [if_neg hid, hdocId]
      exact (ih hleft (ulimit - 1)).map (resultOf docs id :: ·)

/-- The page of the results, in the order of the option. -/
def page (docs : Documents) (s : Sorting) (ids : List DocId) (query : PagedQuery) : List SearchResult :=
  match query.sortingOption with
  | .sortAuto => sortedPage docs s ids query
  | .sortNone => ((ids.drop query.offset.toNat).take query.limit.toNat).map (resultOf docs)

theorem sortedPage_nil (query : PagedQuery) : sortedPage docs s [] query = [] := by
  rw [sortedPage]
  exact if_pos (Nat.zero_le query.offset.toNat)

/-- The matching ids, ascending. -/
def Matching (qt : Platform Date Double) (tr : Lookups Double) (q : Query) : Set DocId :=
  selected qt tr (if q.searchString.isEmpty then none else some (parse q.searchString.chars)) q

/-- **A page is returned**, cut out of the matching ids. -/
theorem exists_exec (qt : Platform Date Double) (tr : Lookups Double) (docs : Documents) (s : Sorting) (q : Query) :
    ∃ ids : List DocId, ids.Pairwise (· < ·) ∧ (∀ id, id ∈ ids ↔ id ∈ Matching qt tr q) ∧
      ∀ query : PagedQuery, query.toQuery = q →
        Returns (fun n => exec qt tr docs s n query) (page docs s ids query) := by
  obtain ⟨t, hconstruct, hproper, hids⟩ := exists_constructFromTerm qt tr
    (if q.searchString.isEmpty then none else some (parse q.searchString.chars)) q
  obtain ⟨⟨B, hB⟩, built, hbuild, hbuilt⟩ := t.exists_built hproper
  have hreturns : Returns (fun n => constructFromQuery qt tr n q) built := hconstruct.bind hbuild
  have hmatching : t.ids = Matching qt tr q := hids
  cases built with
  | none =>
    obtain rfl : t = .null := hbuilt
    refine ⟨[], .nil, fun id => ?_, fun query hquery => ?_⟩
    · rw [← hmatching, PostingTree.ids_null]
      exact iff_of_false List.not_mem_nil (Set.notMem_empty id)
    · have hpage : page docs s [] query = [] := by
        rw [page]
        split
        · exact sortedPage_nil query
        · rw [List.drop_nil, List.take_nil, List.map_nil]
      subst hquery
      rw [hpage]
      exact hreturns.bind (Returns.pure ([] : List SearchResult))
  | some it =>
    obtain ⟨ids, henumerate, hsorted, hmem⟩ := PostingIterator.answers_of_is hB hbuilt hproper.zero_notMem
    refine ⟨ids, hsorted, fun id => (hmem id).trans (by rw [hmatching]), fun query hquery => ?_⟩
    have hleft : HasLeft PostingIterator.methods it ids :=
      Cursor.Implements.hasLeft hbuilt hproper.zero_notMem hsorted hmem
    subst hquery
    refine hreturns.bind ?_
    dsimp only
    rw [page]
    cases hoption : query.sortingOption with
    | sortAuto =>
      simp only [if_true]
      exact henumerate.map fun ids => sortedPage docs s ids query
    | sortNone =>
      simp only [reduceCtorEq, if_false]
      obtain ⟨it', hskip, hleft'⟩ := skipLoop_returns hleft query.offset
      exact hskip.bind (takeLoop_returns hleft' query.limit)

/-- The results of the sorting branch without limit. -/
def sortedResults (docs : Documents) (s : Sorting) (ids : List DocId) : List SearchResult :=
  (s.sort (ids.map fun id => (id, docs.mTime id))).map fun r => resultOf docs r.1

theorem length_sortedResults : (sortedResults docs s ids).length = ids.length := by
  rw [sortedResults, List.length_map, (s.perm _).length_eq, List.length_map]

/-- The sorting branch cuts the page out; the sum of the offset and the limit does not overflow. -/
theorem sortedPage_eq : sortedPage docs s ids query = if query.limit = unlimited then
    (sortedResults docs s ids).drop query.offset.toNat
    else ((sortedResults docs s ids).drop query.offset.toNat).take query.limit.toNat := by
  have hlength := @length_sortedResults docs s ids
  have hoffset := query.offset.toNat_lt
  have hlimit := query.limit.toNat_lt
  rw [sortedPage, List.length_map]
  dsimp only
  rw [List.map_take, List.map_drop, ← sortedResults, Nat.mod_eq_of_lt (by omega)]
  split
  · next hle =>
    have hnil : (sortedResults docs s ids).drop query.offset.toNat = [] :=
      List.drop_eq_nil_of_le (by omega)
    rw [hnil, List.take_nil, ite_self]
  · split
    · exact List.take_of_length_le (by rw [List.length_drop]; omega)
    · rcases Nat.le_total (query.offset.toNat + query.limit.toNat) ids.length with hle | hle
      · rw [min_eq_left hle, Nat.add_sub_cancel_left]
      · rw [min_eq_right hle, List.take_of_length_le (by rw [List.length_drop]; omega),
          List.take_of_length_le (by rw [List.length_drop]; omega)]

/-- The order that an option promises. -/
def SortingOption.Ordered (docs : Documents) : SortingOption → DocId → DocId → Prop
  | .sortAuto, a, b => docs.mTime b ≤ docs.mTime a
  | .sortNone, a, b => a < b

/-- The results for all offsets and limits are pages of one list, in which every match is once. -/
structure Paged (docs : Documents) (matching : Set DocId) (option : SortingOption)
    (results : UInt32 → UInt32 → List SearchResult) : Prop where
  /-- a page is cut out of the list without offset and limit -/
  pages : ∀ offset limit, results offset limit = if limit = unlimited then (results 0 unlimited).drop offset.toNat
    else ((results 0 unlimited).drop offset.toNat).take limit.toNat
  /-- consecutive pages make up the list -/
  consecutive : ∀ (limit : UInt32) (k : ℕ), limit ≠ unlimited → k * limit.toNat < 2 ^ 32 →
    (List.range (k + 1)).flatMap (fun i => results (UInt32.ofNat (i * limit.toNat)) limit) =
      (results 0 unlimited).take ((k + 1) * limit.toNat)
  /-- no match is there twice -/
  once : ((results 0 unlimited).map SearchResult.documentId).Nodup
  /-- every match is there, and nothing else -/
  complete : ∀ id, id ∈ (results 0 unlimited).map SearchResult.documentId ↔ id ∈ matching
  /-- the path of a result is that of its document -/
  described : ∀ r ∈ results 0 unlimited, r = resultOf docs r.documentId
  /-- the list is in order -/
  ordered : ((results 0 unlimited).map SearchResult.documentId).Pairwise (option.Ordered docs)

/-- Consecutive parts of a list. -/
theorem flatMap_take_drop {α : Type} (full : List α) (limit k : ℕ) :
    (List.range k).flatMap (fun i => (full.drop (i * limit)).take limit) = full.take (k * limit) := by
  induction k with
  | zero => simp
  | succ k ih =>
    rw [List.range_succ, List.flatMap_append, ih, List.flatMap_singleton, Nat.succ_mul, List.take_add]

/-- If all pages are cut out of one list, then so are consecutive ones. -/
theorem consecutive_of_pages {results : UInt32 → UInt32 → List SearchResult} {full : List SearchResult}
    (hpages : ∀ offset limit, results offset limit = if limit = unlimited then full.drop offset.toNat
      else (full.drop offset.toNat).take limit.toNat)
    {limit : UInt32} (hlimit : limit ≠ unlimited) {k : ℕ} (hk : k * limit.toNat < 2 ^ 32) :
    (List.range (k + 1)).flatMap (fun i => results (UInt32.ofNat (i * limit.toNat)) limit) =
      full.take ((k + 1) * limit.toNat) := by
  rw [← flatMap_take_drop]
  refine List.flatMap_congr fun i hi => ?_
  have hle : i * limit.toNat ≤ k * limit.toNat :=
    Nat.mul_le_mul_right _ (Nat.le_of_lt_succ (List.mem_range.mp hi))
  rw [hpages, if_neg hlimit, UInt32.toNat_ofNat_of_lt' (hle.trans_lt hk)]

/-- A list of results with the matching ids, from which all pages are cut out. -/
theorem Paged.of_full {matching : Set DocId} {option : SortingOption}
    {results : UInt32 → UInt32 → List SearchResult} {sorted : List DocId}
    (hpages : ∀ offset limit, results offset limit = if limit = unlimited then
      (sorted.map (resultOf docs)).drop offset.toNat
      else ((sorted.map (resultOf docs)).drop offset.toNat).take limit.toNat)
    (hnodup : sorted.Nodup) (hmem : ∀ id, id ∈ sorted ↔ id ∈ matching)
    (hordered : sorted.Pairwise (option.Ordered docs)) : Paged docs matching option results := by
  have hfull : results 0 unlimited = sorted.map (resultOf docs) := by
    rw [hpages, if_pos rfl]
    rfl
  have hids : (results 0 unlimited).map SearchResult.documentId = sorted := by
    rw [hfull, List.map_map]
    exact List.map_id sorted
  refine ⟨fun offset limit => by rw [hfull, hpages], fun limit k hlimit hk => ?_, ?_, fun id => ?_, fun r hr => ?_, ?_⟩
  · rw [hfull]
    exact consecutive_of_pages hpages hlimit hk
  · rwa [hids]
  · rw [hids, hmem]
  · rw [hfull] at hr
    obtain ⟨id, -, rfl⟩ := List.mem_map.mp hr
    rfl
  · rwa [hids]

theorem ncard_matching {matching : Set DocId} (hids : ids.Pairwise (· < ·)) (hmem : ∀ id, id ∈ ids ↔ id ∈ matching) :
    matching.ncard = ids.length := by
  have hset : matching = (ids.toFinset : Set DocId) := by
    ext id
    rw [List.coe_toFinset]
    exact (hmem id).symm
  rw [hset, Set.ncard_coe_finset, List.toFinset_card_of_nodup (hids.imp ne_of_lt)]

/-- When the results are pages of one list. -/
theorem paged_page_iff {matching : Set DocId} (hids : ids.Pairwise (· < ·)) (hmem : ∀ id, id ∈ ids ↔ id ∈ matching)
    (s : Sorting) (q : Query) (option : SortingOption) :
    Paged docs matching option (fun offset limit =>
        page docs s ids { toQuery := q, sortingOption := option, limit := limit, offset := offset }) ↔
      option = .sortAuto ∨ matching.ncard < 2 ^ 32 := by
  rw [ncard_matching hids hmem]
  have hnodup : ids.Nodup := hids.imp ne_of_lt
  cases option with
  | sortAuto =>
    refine iff_of_true ?_ (.inl rfl)
    have hperm := s.perm (ids.map fun id => (id, docs.mTime id))
    have hfst : (ids.map fun id => (id, docs.mTime id)).map Prod.fst = ids := by
      rw [List.map_map]
      exact List.map_id ids
    have hsorted : ((s.sort (ids.map fun id => (id, docs.mTime id))).map Prod.fst).Perm ids :=
      (hperm.map Prod.fst).trans (.of_eq hfst)
    refine @Paged.of_full docs matching .sortAuto _ ((s.sort (ids.map fun id => (id, docs.mTime id))).map Prod.fst)
      (fun offset limit => ?_) (hsorted.nodup_iff.mpr hnodup) (fun id => (hsorted.mem_iff).trans (hmem id)) ?_
    · rw [List.map_map]
      exact sortedPage_eq
    · refine List.pairwise_map.mpr ((s.sorted _).imp_of_mem fun {a b} ha hb hle => ?_)
      obtain ⟨i, -, rfl⟩ := List.mem_map.mp (hperm.mem_iff.mp ha)
      obtain ⟨j, -, rfl⟩ := List.mem_map.mp (hperm.mem_iff.mp hb)
      exact UInt32.not_lt.mp (of_decide_eq_false hle)
  | sortNone =>
    rw [or_iff_right (by simp)]
    constructor
    · intro hpaged
      have hsame : ((ids.take unlimited.toNat).map (resultOf docs)).map SearchResult.documentId =
          ids.take unlimited.toNat := by
        rw [List.map_map]
        exact List.map_id _
      have hperm : (ids.take unlimited.toNat).Perm ids := by
        refine (List.perm_ext_iff_of_nodup (hnodup.sublist (List.take_sublist _ _)) hnodup).mpr fun id => ?_
        rw [hmem, ← hpaged.complete, ← hsame]
        rfl
      have hlength := hperm.length_eq
      rw [List.length_take] at hlength
      have hmax : unlimited.toNat = 2 ^ 32 - 1 := rfl
      omega
    · intro hlt
      refine Paged.of_full (fun offset limit => ?_) hnodup hmem hids
      rw [page]
      dsimp only
      rw [List.map_take, List.map_drop]
      split
      · next hlimit =>
        subst hlimit
        have hmax : unlimited.toNat = 2 ^ 32 - 1 := rfl
        exact List.take_of_length_le (by rw [List.length_drop, List.length_map]; omega)
      · rfl

end

/-! ### More results than the limit counts -/

/-- A stable sort by time. -/
def byTime : Sorting where
  sort l := l.mergeSort fun a b => !compFunc b a
  perm l := List.mergeSort_perm l _
  sorted l := by
    refine (List.pairwise_mergeSort ?_ ?_ l).imp fun h => by rwa [Bool.not_eq_true'] at h
    · intro a b c hab hbc
      simp only [compFunc, Bool.not_eq_true', decide_eq_false_iff_not, UInt32.not_lt] at hab hbc ⊢
      exact UInt32.le_trans hbc hab
    · intro a b
      simp only [compFunc, Bool.or_eq_true, Bool.not_eq_true', decide_eq_false_iff_not, UInt32.not_lt]
      exact UInt32.le_total b.2 a.2

/-- The ids from `1` on. -/
def firstIds (n : ℕ) : AscendingIds where
  values := List.range' 1 n
  ascending := List.pairwise_lt_range'
  zero_notMem h := absurd (List.mem_range'_1.mp h).1 (Nat.not_succ_le_zero 0)

/-- The index knows the times of `n` documents. -/
def manyDocuments (n : ℕ) : Lookups Unit := onlyTimes Unit fun _ _ => some (firstIds n)

/-- All times are the same, and there are no paths. -/
def sameTimes : Documents where
  mTime _ := 0
  documentUrl _ := []

/-- All documents are of February 2014. -/
theorem matching_manyDocuments (n : ℕ) :
    Matching utc (manyDocuments n) (inMonth 2014 2) = {id | id ∈ (firstIds n).values} := by
  have hfilters : filters utc (manyDocuments n) (inMonth 2014 2) = [some (firstIds n)] := rfl
  have hterm : (if (inMonth 2014 2).searchString.isEmpty then none
      else some (parse (inMonth 2014 2).searchString.chars)) = none := rfl
  rw [Matching, hterm, selected, hfilters]
  exact inter_singleton _

end Baloo.Search
