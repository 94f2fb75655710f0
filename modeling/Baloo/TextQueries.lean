import Baloo.Commit
import Baloo.Lib.Places
import Baloo.PhraseIterator
import Baloo.PostingEnumeration
import Baloo.TermGenerator
import Baloo.UrlTree
import Mathlib.Data.List.Infix

/-!
# Queries for stored texts

`FilenameQuery`, `MimetypeQuery` and `PropertyPhraseQuery` look for a text in the name, the mimetype or
a property of a file. One term is looked up among the postings, with the terms that start with it if the
query says so. Several terms are looked up one after another, which leaves the documents that have all of
them; then the stored text is split again, and the documents whose text has the terms side by side stay.

Old entries keep their mimetype as positions only. They are found by a phrase iterator over what the
position lists say about them.
-/

namespace Baloo

open Fuel (Returns)
open SortedSeq (Ascending)

/-! ## Reading the posting table -/

namespace PostingDB

/-- `PostingDB::iter` of a term. -/
def iter (t : PostingDB) (term : Term) : PostingTree :=
  match OrdMap.get t term with
  | none => .null
  | some values => .vector values

/-- `PostingDB::prefixIter`. -/
def prefixIter (t : PostingDB) (pre : QByteArray) : PostingTree :=
  match (t.startingWith pre).map fun e => PostingTree.vector e.2 with
  | [] => .null
  | termIterators => .or termIterators

/-- `PostingDB::iter` of a prefix and a validator, which looks at what stands behind the prefix. -/
def validIter (t : PostingDB) (pre : QByteArray) (validate : QByteArray → Bool) : PostingTree :=
  match ((t.startingWith pre).filter fun e => validate (e.1.drop pre.length)).map fun e =>
    PostingTree.vector e.2 with
  | [] => .null
  | termIterators => .or termIterators

end PostingDB

/-- `std::ranges::set_intersection` on vectors of ids: of the heads the lower one is dropped, and equal
heads are copied. -/
def setIntersection : List DocId → List DocId → List DocId
  | [], _ => []
  | a :: vec1, vec2 =>
    match vec2.dropWhile fun b => decide (b < a) with
    | [] => []
    | b :: vec2 => if a < b then setIntersection vec1 (b :: vec2) else a :: setIntersection vec1 vec2

/-- The loop over `terms.sliced(1)`; `none` means that no id is left, and a null pointer is returned. -/
def intersectTerms (t : PostingDB) (pre : QByteArray) : List DocId → List Term → Option (List DocId)
  | out, [] => some out
  | out, term :: terms =>
    match setIntersection out (t.get (pre ++ term)) with
    | [] => none
    | out => intersectTerms t pre out terms

/-! ## The queries -/

/-- `m_terms` and `m_expandLast`, which the three queries have. -/
structure TextQuery where
  /-- `m_terms` -/
  terms : List Term
  /-- `m_expandLast` -/
  expandLast : Bool

section

variable (termList : List QChar → List Term)

/-- The constructor: terms of one or two bytes are not expanded. -/
def TextQuery.make (text : List QChar) (expandLast : Bool) : TextQuery where
  terms := termList text
  expandLast := match (termList text).getLast? with
    | none => false
    | some term => expandLast && decide (2 < term.length)

/-- `match`: the text has the terms of the query side by side. -/
def TextQuery.matches (q : TextQuery) (text : List QChar) : Bool :=
  -- what `std::ranges::search` finds of an empty sequence is empty
  decide (q.terms ≠ [] ∧ q.terms <:+: termList text)

/-- `FilenameQuery`. -/
abbrev FilenameQuery : Type := TextQuery

/-- `MimetypeQuery`. -/
abbrev MimetypeQuery : Type := TextQuery

/-- `PropertyPhraseQuery`. -/
structure PropertyPhraseQuery extends TextQuery where
  /-- `m_property` -/
  property : QByteArray

/-- The part that the three lookups share: the iterator that is returned, or the ids that have all of
several terms. -/
def candidates (t : PostingDB) (pre : QByteArray) (q : TextQuery) : Except PostingTree (List DocId) :=
  match q.terms with
  | [] => .error .null
  | [term] => .error (if q.expandLast then t.prefixIter (pre ++ term) else t.iter (pre ++ term))
  | term :: terms =>
    match t.get (pre ++ term) with
    | [] => .error .null
    | out =>
      match intersectTerms t pre out terms with
      | none => .error .null
      | some out => .ok out

/-- The end of the lookups for names and properties: the ids that match stay. -/
def matching (keep : DocId → Bool) : Except PostingTree (List DocId) → PostingTree
  | .error it => it
  | .ok out => .vector (out.filter keep)

/-- `DocumentDataDB::get`. -/
def DocumentDataDB.get (t : OrdMap DocId QByteArray) (id : DocId) : QByteArray := (OrdMap.get t id).getD []

/-- The string under `key` in the data of a document, as the lookups for mimetypes and properties read it;
`jsonString data key` is `QJsonDocument::fromJson(data)[key].toString()`. -/
def storedText (jsonString : QByteArray → List QChar → List QChar) (db : Database) (key : List QChar)
    (id : DocId) : List QChar :=
  let data := DocumentDataDB.get db.docDataDb id
  if data = [] then [] else jsonString data key

/-- The loop `while (const auto id = phraseIter.next())`, which appends the ids. -/
def PhraseAndIterator.readAll : ℕ → PhraseAndIterator → Option (List DocId)
  | 0, _ => none
  | fuel + 1, it =>
    (it.next fuel).bind fun r => if r.2 = 0 then some [] else (readAll fuel r.1).map (r.2 :: ·)

namespace Transaction

variable (jsonString : QByteArray → List QChar → List QChar)

/-- `Transaction::postingIterator` of a `FilenameQuery`; `decodeName` is `QString::fromUtf8`. -/
def filenameIterator (decodeName : QByteArray → List QChar) (db : Database) (q : FilenameQuery) : PostingTree :=
  matching (fun id => q.matches termList (decodeName (db.docUrlDb.filePath id).name))
    (candidates db.postingDb TermGenerator.fileNamePrefix q)

/-- The key of the mimetype in the data of a document. -/
def mimetypeKey : List QChar := [77]

/-- `Transaction::postingIterator` of a `MimetypeQuery`. The documents without a stored mimetype are
deferred. -/
def mimetypeIterator (fuel : ℕ) (db : Database) (q : MimetypeQuery) : Option PostingTree :=
  match candidates db.postingDb TermGenerator.mimetypePrefix q with
  | .error it => some it
  | .ok out =>
    let type := storedText jsonString db mimetypeKey
    let deferred := out.filter fun id => type id = []
    let out := out.filter fun id => type id ≠ [] ∧ q.matches termList (type id)
    if deferred = [] then some (.vector out)
    else
      let vec := q.terms.map fun term =>
        (db.positionDb.get (TermGenerator.mimetypePrefix ++ term)).filter fun info => info.docId ∈ deferred
      let phraseIter := PhraseAndIterator.make (vec.map fun positionInfos => some { vector := positionInfos })
      (phraseIter.readAll fuel).map fun ids => .vector ((out ++ ids).mergeSort (· ≤ ·))

/-- `Transaction::postingIterator` of a `PropertyPhraseQuery`; `decodeKey` is `QString::fromUtf8`. -/
def propertyIterator (decodeKey : QByteArray → List QChar) (db : Database) (q : PropertyPhraseQuery) :
    PostingTree :=
  let type := storedText jsonString db (decodeKey q.property)
  matching (fun id => type id ≠ [] ∧ q.matches termList (type id))
    (candidates db.postingDb (88 :: q.property ++ [45]) q.toTextQuery)

end Transaction

end

/-! ## Ids that have all terms -/

section Candidates

variable {vec1 vec2 : List DocId} {x : DocId}

theorem setIntersection_sublist (vec1 vec2 : List DocId) : (setIntersection vec1 vec2).Sublist vec1 := by
  induction vec1 generalizing vec2 with
  | nil => exact List.Sublist.slnil
  | cons a vec1 ih =>
    rw [setIntersection]
    split
    · exact List.nil_sublist _
    · split
      · exact (ih _).cons a
      · exact (ih _).cons_cons a

/-- The intersection of ascending vectors. -/
theorem mem_setIntersection (h₁ : Ascending id vec1) (h₂ : Ascending id vec2) :
    x ∈ setIntersection vec1 vec2 ↔ x ∈ vec1 ∧ x ∈ vec2 := by
  induction vec1 generalizing vec2 with
  | nil => simp [setIntersection]
  | cons a vec1 ih =>
    have ha : ∀ y ∈ vec1, a < y := fun y hy => h₁.lt_of_mem_tail hy
    have hdrop : ∀ y, y ∈ vec2.dropWhile (fun b => decide (b < a)) ↔ y ∈ vec2 ∧ a ≤ y :=
      fun y => SortedSeq.mem_dropWhile h₂
    have hrest := h₂.dropWhile fun b => decide (b < a)
    have hge : x ∈ a :: vec1 → a ≤ x := by
      intro hx
      rcases List.mem_cons.mp hx with rfl | hx
      · exact le_refl x
      · exact (ha x hx).le
    have hiff : x ∈ a :: vec1 ∧ x ∈ vec2 ↔
        x ∈ a :: vec1 ∧ x ∈ vec2.dropWhile fun b => decide (b < a) := by
      rw [hdrop]
      exact ⟨fun ⟨hx, hx₂⟩ => ⟨hx, hx₂, hge hx⟩, fun ⟨hx, hx₂, _⟩ => ⟨hx, hx₂⟩⟩
    rw [hiff, setIntersection]
    generalize hvec : vec2.dropWhile (fun b => decide (b < a)) = rest at hdrop hrest
    rcases rest with _ | ⟨b, rest⟩
    · simp
    · have hab : a ≤ b := ((hdrop b).mp List.mem_cons_self).2
      have hlt : ∀ y ∈ rest, b < y := fun y hy => hrest.lt_of_mem_tail hy
      dsimp only
      split
      · next hne =>
        rw [ih h₁.of_cons hrest, List.mem_cons (b := a)]
        refine and_congr_left fun hx => (or_iff_right ?_).symm
        rintro rfl
        rcases List.mem_cons.mp hx with rfl | hx
        · exact lt_irrefl x hne
        · exact lt_asymm hne (hlt x hx)
      · next hne =>
        obtain rfl : a = b := le_antisymm hab (not_lt.mp hne)
        rw [List.mem_cons, ih h₁.of_cons hrest.of_cons, List.mem_cons, List.mem_cons]
        constructor
        · rintro (rfl | ⟨hx, hx'⟩)
          · exact ⟨.inl rfl, .inl rfl⟩
          · exact ⟨.inr hx, .inr hx'⟩
        · rintro ⟨rfl | hx, hx'⟩
          · exact .inl rfl
          · exact hx'.imp_right fun hx' => ⟨hx, hx'⟩

/-- The posting lists are ascending, and `0` is in none of them. -/
structure PostingDB.Listed (t : PostingDB) : Prop where
  /-- the lists -/
  ascending : ∀ term, Ascending id (t.get term)
  /-- `0` is no document -/
  zero_notMem : ∀ term, 0 ∉ t.get term

variable {t : PostingDB} {pre : QByteArray} {q : TextQuery}

/-- **The ids that are left have all terms.** -/
theorem intersectTerms_spec (ht : t.Listed) {out : List DocId} (hout : Ascending id out) (terms : List Term) :
    ((intersectTerms t pre out terms).getD []).Sublist out ∧
      ∀ x, x ∈ (intersectTerms t pre out terms).getD [] ↔ x ∈ out ∧ ∀ term ∈ terms, x ∈ t.get (pre ++ term) := by
  induction terms generalizing out with
  | nil => simp [intersectTerms]
  | cons term terms ih =>
    have hsub := setIntersection_sublist out (t.get (pre ++ term))
    have hmem : ∀ x, x ∈ setIntersection out (t.get (pre ++ term)) ↔ x ∈ out ∧ x ∈ t.get (pre ++ term) :=
      fun x => mem_setIntersection hout (ht.ascending (pre ++ term))
    rw [intersectTerms]
    generalize setIntersection out (t.get (pre ++ term)) = left at hsub hmem
    rcases left with _ | ⟨a, left⟩
    · -- nothing is left
      refine ⟨List.nil_sublist out, fun x => ⟨fun hx => absurd hx List.not_mem_nil, fun ⟨hx, hall⟩ => ?_⟩⟩
      exact absurd ((hmem x).mpr ⟨hx, hall term List.mem_cons_self⟩) List.not_mem_nil
    · obtain ⟨hsub', hmem'⟩ := ih (hout.sublist hsub)
      refine ⟨hsub'.trans hsub, fun x => ?_⟩
      rw [hmem', hmem, List.forall_mem_cons, and_assoc]

/-- What several terms leave to be looked at. -/
theorem candidates_several (ht : t.Listed) (hlen : 2 ≤ q.terms.length) : ∃ out : List DocId,
    Ascending id out ∧ 0 ∉ out ∧ (∀ x, x ∈ out ↔ ∀ term ∈ q.terms, x ∈ t.get (pre ++ term)) ∧
      (candidates t pre q = .ok out ∨ candidates t pre q = .error .null ∧ out = []) := by
  obtain ⟨terms, expandLast⟩ := q
  obtain ⟨first, second, rest, rfl⟩ : ∃ first second rest, terms = first :: second :: rest := by
    rcases terms with _ | ⟨first, _ | ⟨second, rest⟩⟩
    · exact absurd hlen (by simp)
    · exact absurd hlen (by simp)
    · exact ⟨first, second, rest, rfl⟩
  have hfirst := ht.ascending (pre ++ first)
  have hspec := @intersectTerms_spec t pre ht _ hfirst (second :: rest)
  obtain ⟨hsub, hmem⟩ := hspec
  refine ⟨(intersectTerms t pre (t.get (pre ++ first)) (second :: rest)).getD [], hfirst.sublist hsub,
    fun hzero => ht.zero_notMem _ (hsub.subset hzero), fun x => ?_, ?_⟩
  · rw [hmem, List.forall_mem_cons (a := first)]
  · simp only [candidates]
    rcases hget : t.get (pre ++ first) with _ | ⟨a, out⟩
    · rw [hget] at hsub
      exact .inr ⟨rfl, List.eq_nil_of_subset_nil hsub.subset⟩
    · rcases hleft : intersectTerms t pre (a :: out) (second :: rest) with _ | left
      · exact .inr ⟨by simp only [hleft], rfl⟩
      · exact .inl (by simp only [hleft, Option.getD_some])

theorem get_eq_of_get {term : Term} {values : List DocId} (h : OrdMap.get t term = some values) :
    t.get term = values := by
  rw [PostingDB.get, OrdMap.values, h, Option.getD_some]

/-- Looking up one term. -/
theorem PostingDB.ids_iter (t : PostingDB) (term : Term) : (t.iter term).ids = {x | x ∈ t.get term} := by
  rw [PostingDB.iter]
  rcases hget : OrdMap.get t term with _ | values
  · rw [PostingTree.ids_null, PostingDB.get, OrdMap.values, hget]
    exact (Set.eq_empty_of_forall_notMem fun x => List.not_mem_nil).symm
  · obtain rfl := get_eq_of_get hget
    exact PostingTree.ids_vector _

theorem PostingDB.Listed.iter (ht : t.Listed) (term : Term) :
    (t.iter term).Proper ∧ (t.iter term).ids = {x | x ∈ t.get term} := by
  refine ⟨?_, t.ids_iter term⟩
  rw [PostingDB.iter]
  rcases hget : OrdMap.get t term with _ | values
  · exact .null
  · obtain rfl := get_eq_of_get hget
    exact .vector (ht.ascending term) (ht.zero_notMem term)

/-- A prefix iterator validates every term. -/
theorem PostingDB.prefixIter_eq (t : PostingDB) (pre : QByteArray) :
    t.prefixIter pre = t.validIter pre fun _ => true := by
  rw [validIter, List.filter_true, prefixIter]

/-- The ids of the terms with a prefix that are valid. -/
theorem PostingDB.mem_valid {t : PostingDB} {pre : QByteArray} {validate : QByteArray → Bool} {x : DocId} :
    (∃ e ∈ (t.startingWith pre).filter fun e => validate (e.1.drop pre.length), x ∈ e.2) ↔
      ∃ rest, validate rest = true ∧ x ∈ t.get (pre ++ rest) := by
  constructor
  · rintro ⟨⟨term, values⟩, hmem, hx⟩
    obtain ⟨hmem, hvalid⟩ := List.mem_filter.mp hmem
    obtain ⟨hget, rest, rfl⟩ := OrdMap.mem_startingWith.mp hmem
    obtain rfl := get_eq_of_get hget
    rw [List.drop_left] at hvalid
    exact ⟨rest, hvalid, hx⟩
  · rintro ⟨rest, hvalid, hx⟩
    rcases hget : OrdMap.get t (pre ++ rest) with _ | values
    · rw [PostingDB.get, OrdMap.values, hget] at hx
      exact absurd hx List.not_mem_nil
    · obtain rfl := get_eq_of_get hget
      have hmem := OrdMap.mem_startingWith.mpr ⟨hget, List.prefix_append pre rest⟩
      refine ⟨(pre ++ rest, _), List.mem_filter.mpr ⟨hmem, ?_⟩, hx⟩
      rwa [List.drop_left]

theorem PostingDB.ids_validIter (t : PostingDB) (pre : QByteArray) (validate : QByteArray → Bool) :
    (t.validIter pre validate).ids = {x | ∃ rest, validate rest = true ∧ x ∈ t.get (pre ++ rest)} := by
  have hids : ∀ l : List (Term × List DocId),
      PostingTree.ids (.or (l.map fun e => PostingTree.vector e.2)) = {x | ∃ e ∈ l, x ∈ e.2} := by
    intro l
    rw [PostingTree.ids_or, List.map_map]
    ext x
    constructor
    · rintro ⟨S, hS, hx⟩
      obtain ⟨e, he, rfl⟩ := List.mem_map.mp hS
      rw [Function.comp_apply, PostingTree.ids_vector] at hx
      exact ⟨e, he, hx⟩
    · rintro ⟨e, he, hx⟩
      refine ⟨_, List.mem_map_of_mem he, ?_⟩
      rwa [Function.comp_apply, PostingTree.ids_vector]
  have hvalid := hids ((t.startingWith pre).filter fun e => validate (e.1.drop pre.length))
  simp only [mem_valid] at hvalid
  rw [← hvalid, PostingDB.validIter]
  generalize ((t.startingWith pre).filter _).map (fun e => PostingTree.vector e.2) = children
  rcases children with _ | ⟨child, children⟩
  · rw [PostingTree.ids_null, PostingTree.ids_or]
    refine (Set.eq_empty_of_forall_notMem ?_).symm
    rintro x ⟨S, hS, -⟩
    exact absurd hS List.not_mem_nil
  · rfl

/-- Looking up the terms with a prefix. -/
theorem PostingDB.Listed.prefixIter (ht : t.Listed) (pre : QByteArray) :
    (t.prefixIter pre).Proper ∧ (t.prefixIter pre).ids = {x | ∃ term, pre <+: term ∧ x ∈ t.get term} := by
  have hproper : ∀ child ∈ (t.startingWith pre).map fun e => PostingTree.vector e.2, child.Proper := by
    intro child hchild
    obtain ⟨⟨term, values⟩, hmem, rfl⟩ := List.mem_map.mp hchild
    obtain rfl := get_eq_of_get (OrdMap.mem_startingWith.mp hmem).1
    exact .vector (ht.ascending term) (ht.zero_notMem term)
  constructor
  · rw [PostingDB.prefixIter]
    generalize (t.startingWith pre).map (fun e => PostingTree.vector e.2) = children at hproper
    rcases children with _ | ⟨child, children⟩
    · exact .null
    · exact .or hproper
  · rw [PostingDB.prefixIter_eq, PostingDB.ids_validIter]
    ext x
    constructor
    · rintro ⟨rest, -, hx⟩
      exact ⟨pre ++ rest, List.prefix_append pre rest, hx⟩
    · rintro ⟨_, ⟨rest, rfl⟩, hx⟩
      exact ⟨rest, rfl, hx⟩

end Candidates

/-! ## Terms side by side -/

namespace PhraseAndIterator

open Places

variable {lists : List (List UInt32)} {terms stored : List Term} {p : ℕ}

theorem aligned_iff {N i : ℕ} : Aligned N i lists ↔
    ∀ (k : ℕ) (positions : List UInt32), lists[k]? = some positions → ∃ pos ∈ positions, pos.toNat = N + (i + k) := by
  induction lists generalizing i with
  | nil => simp [Aligned]
  | cons positions lists ih =>
    rw [Aligned, ih]
    constructor
    · rintro ⟨hfirst, hrest⟩ k positions' hk
      cases k with
      | zero =>
        obtain rfl := Option.some.inj hk
        exact hfirst
      | succ k =>
        have hpos := hrest k positions' hk
        rwa [Nat.add_assoc i, Nat.add_comm 1] at hpos
    · intro h
      refine ⟨h 0 positions rfl, fun k positions' hk => ?_⟩
      have hpos := h (k + 1) positions' hk
      rwa [Nat.add_comm k, ← Nat.add_assoc i] at hpos

/-- The positions of a term of a text whose terms are numbered from `p` on. -/
def positionsFrom (p : ℕ) (stored : List Term) (term : Term) : List UInt32 :=
  ((List.range stored.length).filter fun j => stored[j]? = some term).map fun j => UInt32.ofNat (p + j)

/-- The positions are the places, as numbers of 32 bits. -/
theorem positionsFrom_eq (p : ℕ) (stored : List Term) (term : Term) :
    positionsFrom p stored term = (places p term stored).map UInt32.ofNat := by
  have hplaces : places p term stored =
      ((List.range stored.length).filter fun j => stored[j]? = some term).map (p + ·) := by
    refine (places_ascending p term stored).eq_of_mem_iff ?_ fun n => ?_
    · exact List.pairwise_map.mpr ((List.pairwise_lt_range.filter _).imp fun hlt => Nat.add_lt_add_left hlt p)
    · simp only [mem_places, List.mem_map, List.mem_filter, List.mem_range, decide_eq_true_iff]
      constructor
      · rintro ⟨j, hj, rfl⟩
        exact ⟨j, ⟨(List.getElem?_eq_some_iff.mp hj).1, hj⟩, rfl⟩
      · rintro ⟨j, ⟨-, hj⟩, rfl⟩
        exact ⟨j, hj, rfl⟩
  rw [positionsFrom, hplaces, List.map_map]
  rfl

section Slots

variable {α β : Type} [DecidableEq α] {slot : β → α} {slots : List α} {pattern : List β} {a : α}

theorem toNat_place (hp : p + slots.length ≤ 2 ^ 32) {n : ℕ} (hn : n ∈ places p a slots) :
    (UInt32.ofNat n).toNat = n := by
  rw [UInt32.toNat_ofNat', Nat.mod_eq_of_lt]
  exact (le_of_mem_places hn).2.trans_le hp

theorem ascending_places (hp : p + slots.length ≤ 2 ^ 32) (a : α) :
    Ascending UInt32.toNat ((places p a slots).map UInt32.ofNat) := by
  refine List.pairwise_map.mpr ((places_ascending p a slots).imp_of_mem fun hm hn hlt => ?_)
  rwa [toNat_place hp hm, toNat_place hp hn]

/-- A pattern occurs side by side exactly if the positions of its elements are aligned. -/
theorem exists_aligned_places (hp : p + slots.length ≤ 2 ^ 32) (hne : pattern ≠ []) :
    (∃ N, Aligned N 0 (pattern.map fun b => (places p (slot b) slots).map UInt32.ofNat)) ↔
      pattern.map slot <:+: slots := by
  have haligned : ∀ N, Aligned N 0 (pattern.map fun b => (places p (slot b) slots).map UInt32.ofNat) ↔
      ∀ k a, (pattern.map slot)[k]? = some a → N + k ∈ places p a slots := by
    intro N
    rw [aligned_iff]
    simp only [List.getElem?_map, Option.map_eq_some_iff, Nat.zero_add]
    constructor
    · rintro h k _ ⟨b, hk, rfl⟩
      obtain ⟨pos, hpos, heq⟩ := h k _ ⟨b, hk, rfl⟩
      obtain ⟨n, hn, rfl⟩ := List.mem_map.mp hpos
      rw [toNat_place hp hn] at heq
      exact heq ▸ hn
    · rintro h k _ ⟨b, hk, rfl⟩
      have hn := h k _ ⟨b, hk, rfl⟩
      exact ⟨_, List.mem_map_of_mem hn, toNat_place hp hn⟩
  simp only [haligned]
  exact exists_places_iff (by simpa using hne)

end Slots

theorem positionsFrom_ascending (hp : p + stored.length ≤ 2 ^ 32) (term : Term) :
    Ascending UInt32.toNat (positionsFrom p stored term) := by
  rw [positionsFrom_eq]
  exact ascending_places hp term

/-- A text has the terms of a phrase side by side exactly if their positions are aligned. -/
theorem exists_aligned_iff (hp : p + stored.length ≤ 2 ^ 32) (hne : terms ≠ []) :
    (∃ N, Aligned N 0 (terms.map (positionsFrom p stored))) ↔ terms <:+: stored := by
  have hpositions : positionsFrom p stored = fun term => (places p (id term) stored).map UInt32.ofNat :=
    funext (positionsFrom_eq p stored)
  rw [hpositions, exists_aligned_places hp hne, List.map_id]

/-- Reading a phrase iterator to the end. -/
theorem readAll_eq (fuel : ℕ) (it : PhraseAndIterator) (r : ℕ) :
    it.readAll fuel = Cursor.enumerate methods.returned fuel (it, r) := by
  induction fuel generalizing it r with
  | zero => rfl
  | succ fuel ih =>
    simp only [readAll, Cursor.enumerate, Cursor.Methods.returned, methods, Option.bind_map]
    congr 1
    funext r'
    rw [ih r'.1 r'.2]
    rfl

/-- **Reading a phrase iterator to the end** yields the documents that contain the phrase, ascending and
each once. -/
theorem readAll_returns {ls : List (List PositionInfo)} (hls : ∀ l ∈ ls, Listed l) (hne : ls ≠ []) :
    ∃ ids, Returns (fun n => (make (ls.map fun l => some { vector := l })).readAll n) ids ∧
      ids.Pairwise (· < ·) ∧ ∀ x, x ∈ ids ↔ Hit ls x := by
  have hmake : make (ls.map fun l => some { vector := l }) = { iterators := ls.map fun l => { vector := l } } := by
    simp [make, List.filterMap_map, Function.comp_def]
  have hB : ∀ l ∈ ls, ∀ info ∈ l, info.docId ≤ (ls.flatten.map PositionInfo.docId).max?.getD 0 :=
    fun l hl info hinfo => List.le_max?_getD_of_mem (List.mem_map_of_mem (List.mem_flatten_of_mem hl hinfo))
  have hbound : ∀ d, Hit ls d → d ≠ 0 ∧ d ≤ (ls.flatten.map PositionInfo.docId).max?.getD 0 := by
    intro d hd
    obtain ⟨l, hl⟩ := List.exists_mem_of_ne_nil ls hne
    obtain ⟨info, hinfo, rfl⟩ := hd.exists_mem hl
    exact ⟨(hls l hl).ids info hinfo, hB l hl info hinfo⟩
  obtain ⟨ids, hids, hsorted, hmem⟩ := (reads hls hne hB).returned.enumerate (fun x hx => (hbound x hx).2)
    (o := (_, 0)) .start
  refine ⟨ids, ?_, hsorted, fun x => (hmem x).trans (and_iff_left_of_imp fun hx => ?_)⟩
  · simp only [hmake, fun n => readAll_eq n { iterators := ls.map fun l => { vector := l } } 0]
    exact hids
  · exact Nat.pos_of_ne_zero (hbound x hx).1

end PhraseAndIterator

/-! ## What the queries find -/

section Queries

variable {termList : List QChar → List Term} {text : DocId → Option (List QChar)} {t : PostingDB}
  {pre : QByteArray} {q : TextQuery} {term : Term} {stored : List Term}

/-- The query finds a text with these terms: one term that is to be expanded is the beginning of one of
them; otherwise they have the terms of the query side by side. -/
def TextQuery.Selects (q : TextQuery) (stored : List Term) : Prop :=
  match q.terms, q.expandLast with
  | [term], true => ∃ t ∈ stored, term <+: t
  | terms, _ => terms <:+: stored

theorem selects_of_not (h : ¬ (q.terms.length = 1 ∧ q.expandLast = true)) :
    q.Selects stored ↔ q.terms <:+: stored := by
  obtain ⟨terms, expandLast⟩ := q
  rcases terms with _ | ⟨term, _ | ⟨second, rest⟩⟩
  · rfl
  · cases expandLast with
    | false => rfl
    | true => exact absurd ⟨rfl, rfl⟩ h
  · rfl

/-- The documents are posted under the terms of their texts. -/
def TermsPosted (termList : List QChar → List Term) (t : PostingDB) (pre : QByteArray)
    (text : DocId → Option (List QChar)) : Prop :=
  ∀ term i, i ∈ t.get (pre ++ term) ↔ ∃ s, text i = some s ∧ term ∈ termList s

/-- The documents whose text the query finds. -/
def selected (termList : List QChar → List Term) (text : DocId → Option (List QChar)) (q : TextQuery) : Set ℕ :=
  {i | ∃ s, text i = some s ∧ q.Selects (termList s)}

/-- **One term** is looked up among the postings. -/
theorem candidates_one (ht : t.Listed) (hposted : TermsPosted termList t pre text) (hq : q.terms = [term]) :
    ∃ it, candidates t pre q = .error it ∧ it.Proper ∧ it.ids = selected termList text q := by
  obtain ⟨_, expandLast⟩ := q
  obtain rfl := hq
  cases expandLast with
  | false =>
    obtain ⟨hproper, hids⟩ := ht.iter (pre ++ term)
    refine ⟨_, rfl, hproper, hids.trans (Set.ext fun i => (hposted term i).trans ?_)⟩
    refine exists_congr fun s => and_congr_right fun _ => ?_
    rw [selects_of_not (by simp)]
    exact (List.singleton_infix_iff term (termList s)).symm
  | true =>
    obtain ⟨hproper, hids⟩ := ht.prefixIter (pre ++ term)
    refine ⟨_, rfl, hproper, hids.trans (Set.ext fun i => ?_)⟩
    constructor
    · rintro ⟨_, ⟨rest, rfl⟩, hi⟩
      rw [List.append_assoc] at hi
      obtain ⟨s, hs, hmem⟩ := (hposted _ i).mp hi
      exact ⟨s, hs, _, hmem, List.prefix_append term rest⟩
    · rintro ⟨s, hs, u, hu, hpre⟩
      exact ⟨pre ++ u, (List.prefix_append_right_inj pre).mpr hpre, (hposted u i).mpr ⟨s, hs, hu⟩⟩

/-- **Several terms** are looked up one after another; the documents that have all of them are left. -/
theorem candidates_posted (ht : t.Listed) (hposted : TermsPosted termList t pre text)
    (hlen : 2 ≤ q.terms.length) : ∃ out : List DocId, Ascending id out ∧ 0 ∉ out ∧
      (∀ i, i ∈ out ↔ ∃ s, text i = some s ∧ q.terms ⊆ termList s) ∧
      (candidates t pre q = .ok out ∨ candidates t pre q = .error .null ∧ out = []) := by
  obtain ⟨out, hout, hzero, hmem, hcases⟩ := @candidates_several t pre q ht hlen
  refine ⟨out, hout, hzero, fun i => ?_, hcases⟩
  obtain ⟨first, hfirst⟩ := List.exists_mem_of_length_pos (Nat.zero_lt_of_lt hlen)
  rw [hmem]
  constructor
  · intro h
    obtain ⟨s, hs, -⟩ := (hposted first i).mp (h first hfirst)
    refine ⟨s, hs, fun term hterm => ?_⟩
    obtain ⟨s', hs', hmem'⟩ := (hposted term i).mp (h term hterm)
    obtain rfl := Option.some.inj (hs.symm.trans hs')
    exact hmem'
  · exact fun ⟨s, hs, hsub⟩ term hterm => (hposted term i).mpr ⟨s, hs, hsub hterm⟩

/-- A lookup that splits the stored text of what is left finds what the query selects. -/
theorem matching_selected (ht : t.Listed) (hposted : TermsPosted termList t pre text) (hne : q.terms ≠ [])
    {keep : DocId → Bool} (hkeep : ∀ i s, text i = some s → (keep i = true ↔ q.terms <:+: termList s)) :
    (matching keep (candidates t pre q)).Proper ∧
      (matching keep (candidates t pre q)).ids = selected termList text q := by
  rcases Nat.lt_or_ge q.terms.length 2 with hlen | hlen
  · obtain ⟨term, hq⟩ := List.length_eq_one_iff.mp
      (le_antisymm (Nat.le_of_lt_succ hlen) (List.length_pos_of_ne_nil hne))
    obtain ⟨it, hit, hproper, hids⟩ := candidates_one ht hposted hq
    rw [hit]
    exact ⟨hproper, hids⟩
  · obtain ⟨out, hout, hzero, hmem, hcases⟩ := candidates_posted ht hposted hlen
    have hselects : ∀ i, i ∈ out.filter keep ↔ i ∈ selected termList text q := by
      intro i
      rw [List.mem_filter, hmem]
      constructor
      · rintro ⟨⟨s, hs, -⟩, hi⟩
        exact ⟨s, hs, (selects_of_not fun h => by omega).mpr ((hkeep i s hs).mp hi)⟩
      · rintro ⟨s, hs, hselects⟩
        rw [selects_of_not fun h => by omega] at hselects
        exact ⟨⟨s, hs, hselects.subset⟩, (hkeep i s hs).mpr hselects⟩
    rcases hcases with hok | ⟨hnull, rfl⟩
    · rw [hok]
      refine ⟨.vector (hout.sublist List.filter_sublist) fun h => hzero (List.mem_of_mem_filter h), ?_⟩
      exact (PostingTree.ids_vector _).trans (Set.ext hselects)
    · rw [hnull]
      refine ⟨.null, PostingTree.ids_null.trans (Set.ext fun i => ?_)⟩
      rw [← hselects]
      exact ⟨fun h => h.elim, fun h => absurd h List.not_mem_nil⟩

theorem matches_iff (hne : q.terms ≠ []) (s : List QChar) :
    q.matches termList s = true ↔ q.terms <:+: termList s := by
  rw [TextQuery.matches, decide_eq_true_iff]
  exact and_iff_right hne

/-! ## Names and mimetypes -/

variable {jsonString : QByteArray → List QChar → List QChar} {decodeName : QByteArray → List QChar}
  {db : Database} {deferred : List DocId} {i : DocId}

/-- The stored name of a document. -/
def storedName (decodeName : QByteArray → List QChar) (db : Database) (i : DocId) : Option (List QChar) :=
  (OrdMap.get db.docUrlDb.idFilenameDb i).map fun path => decodeName path.name

/-- The index keeps a mimetype in the data of the document or, for old entries, as consecutive positions. -/
inductive KeepsMimetype (termList : List QChar → List Term) (jsonString : QByteArray → List QChar → List QChar)
    (db : Database) (i : DocId) (type : List QChar) : Prop
  /-- in the data -/
  | data (hne : type ≠ []) (hdata : storedText jsonString db Transaction.mimetypeKey i = type)
  /-- as positions -/
  | positions (hdata : storedText jsonString db Transaction.mimetypeKey i = []) (p : ℕ)
    (hp : p + (termList type).length ≤ 2 ^ 32)
    (hpositions : ∀ term, PhraseAndIterator.positionsAt i
      (db.positionDb.get (TermGenerator.mimetypePrefix ++ term)) =
        PhraseAndIterator.positionsFrom p (termList type) term)

theorem positionsAt_filter {l : List PositionInfo} (hi : i ∈ deferred) :
    PhraseAndIterator.positionsAt i (l.filter fun info => info.docId ∈ deferred) =
      PhraseAndIterator.positionsAt i l := by
  have hfind : SortedSeq.find PositionInfo.docId i (l.filter fun info => info.docId ∈ deferred) =
      SortedSeq.find PositionInfo.docId i l := by
    rw [SortedSeq.find, SortedSeq.find, List.find?_filter]
    congr 1
    funext info
    by_cases heq : info.docId = i
    · simp [heq, hi]
    · simp [heq]
  rw [PhraseAndIterator.positionsAt, PhraseAndIterator.positionsAt, hfind]

/-- **The deferred documents** that are found have the terms of the query side by side. -/
theorem exists_deferred (hsorted : db.ListsSorted) (hne : q.terms ≠ []) (hzero : 0 ∉ deferred)
    (hkeeps : ∀ i ∈ deferred, ∃ type p, text i = some type ∧ p + (termList type).length ≤ 2 ^ 32 ∧
      ∀ term, PhraseAndIterator.positionsAt i (db.positionDb.get (pre ++ term)) =
        PhraseAndIterator.positionsFrom p (termList type) term) :
    ∃ ids, Returns (fun n => (PhraseAndIterator.make ((q.terms.map fun term =>
        (db.positionDb.get (pre ++ term)).filter fun info => info.docId ∈ deferred).map fun positionInfos =>
          some { vector := positionInfos })).readAll n) ids ∧
      ids.Pairwise (· < ·) ∧ ∀ i, i ∈ ids ↔ i ∈ deferred ∧ ∃ s, text i = some s ∧ q.terms <:+: termList s := by
  have hlisted : ∀ l ∈ q.terms.map fun term =>
      (db.positionDb.get (pre ++ term)).filter fun info => info.docId ∈ deferred, PhraseAndIterator.Listed l := by
    intro l hl
    obtain ⟨term, -, rfl⟩ := List.mem_map.mp hl
    have hascending := (hsorted.position_get (pre ++ term)).1
    have hdeferred : ∀ info ∈ (db.positionDb.get (pre ++ term)).filter fun info => info.docId ∈ deferred,
        info ∈ db.positionDb.get (pre ++ term) ∧ info.docId ∈ deferred := fun info hinfo => by
      simpa using List.mem_filter.mp hinfo
    refine ⟨hascending.sublist List.filter_sublist, fun info hinfo heq => ?_, fun info hinfo => ?_⟩
    · exact hzero (heq ▸ (hdeferred info hinfo).2)
    · obtain ⟨hmem, hid⟩ := hdeferred info hinfo
      obtain ⟨type, p, -, hp, hpositions⟩ := hkeeps info.docId hid
      have hfound : PhraseAndIterator.positionsAt info.docId (db.positionDb.get (pre ++ term)) = info.positions := by
        rw [PhraseAndIterator.positionsAt, SortedSeq.find_of_mem hascending hmem]
        rfl
      rw [← hfound, hpositions]
      exact PhraseAndIterator.positionsFrom_ascending hp term
  obtain ⟨ids, hids, hpairwise, hmem⟩ := PhraseAndIterator.readAll_returns hlisted (by simpa using hne)
  refine ⟨ids, hids, hpairwise, fun i => (hmem i).trans ?_⟩
  have hhit : ∀ i ∈ deferred, PhraseAndIterator.Hit (q.terms.map fun term =>
      (db.positionDb.get (pre ++ term)).filter fun info => info.docId ∈ deferred) i ↔
        ∃ s, text i = some s ∧ q.terms <:+: termList s := by
    intro i hi
    obtain ⟨type, p, htype, hp, hpositions⟩ := hkeeps i hi
    have hmap : (q.terms.map fun term => (db.positionDb.get (pre ++ term)).filter fun info =>
        info.docId ∈ deferred).map (PhraseAndIterator.positionsAt i) =
          q.terms.map (PhraseAndIterator.positionsFrom p (termList type)) := by
      rw [List.map_map]
      refine List.map_congr_left fun term _ => ?_
      rw [Function.comp_apply, positionsAt_filter hi, hpositions]
    rw [PhraseAndIterator.Hit, hmap, PhraseAndIterator.exists_aligned_iff hp hne]
    constructor
    · exact fun h => ⟨type, htype, h⟩
    · rintro ⟨s, hs, h⟩
      obtain rfl := Option.some.inj (htype.symm.trans hs)
      exact h
  constructor
  · intro h
    obtain ⟨term, hterm⟩ := List.exists_mem_of_ne_nil _ hne
    obtain ⟨info, hinfo, rfl⟩ := h.exists_mem (List.mem_map_of_mem hterm)
    have hi : info.docId ∈ deferred := by simpa using (List.mem_filter.mp hinfo).2
    exact ⟨hi, (hhit _ hi).mp h⟩
  · rintro ⟨hi, h⟩
    exact (hhit i hi).mpr h

/-- Two ascending lists without a common id are merged by sorting. -/
theorem pairwise_mergeSort_append {xs ys : List DocId} (hxs : xs.Pairwise (· < ·)) (hys : ys.Pairwise (· < ·))
    (hdisjoint : ∀ a ∈ xs, a ∉ ys) : ((xs ++ ys).mergeSort (· ≤ ·)).Pairwise (· < ·) := by
  have hnodup : (xs ++ ys).Nodup := by
    refine List.nodup_append.mpr ⟨hxs.imp fun hlt => hlt.ne, hys.imp fun hlt => hlt.ne, ?_⟩
    rintro a ha b hb rfl
    exact hdisjoint a ha hb
  have hle : ((xs ++ ys).mergeSort (· ≤ ·)).Pairwise (· ≤ ·) := List.pairwise_mergeSort' _ _
  have hne : ((xs ++ ys).mergeSort (· ≤ ·)).Nodup := (List.mergeSort_perm _ _).nodup_iff.mpr hnodup
  exact (hle.and hne).imp fun ⟨hle, hne⟩ => lt_of_le_of_ne hle hne

section

variable {out : List DocId} {type : DocId → List QChar}

/-- Documents with a stored mimetype are selected if it matches. -/
theorem mem_stored_iff (htype : type = storedText jsonString db Transaction.mimetypeKey)
    (hmem : ∀ i, i ∈ out ↔ ∃ s, text i = some s ∧ q.terms ⊆ termList s)
    (hselects : ∀ s, q.Selects (termList s) ↔ q.terms <:+: termList s)
    (hkeeps : ∀ i type, text i = some type → KeepsMimetype termList jsonString db i type) (hne : q.terms ≠ []) :
    i ∈ (out.filter fun id => type id ≠ [] ∧ q.matches termList (type id)) ↔
      type i ≠ [] ∧ i ∈ selected termList text q := by
  rw [List.mem_filter, decide_eq_true_iff, matches_iff hne, hmem]
  constructor
  · rintro ⟨⟨s, hs, -⟩, htypene, hmatch⟩
    refine ⟨htypene, s, hs, (hselects s).mpr ?_⟩
    cases hkeeps i s hs with
    | data _ hdata => rwa [htype, hdata] at hmatch
    | positions hdata => exact absurd (congrFun htype i ▸ hdata) htypene
  · rintro ⟨htypene, s, hs, hsel⟩
    rw [hselects] at hsel
    refine ⟨⟨s, hs, hsel.subset⟩, htypene, ?_⟩
    cases hkeeps i s hs with
    | data _ hdata => rwa [htype, hdata]
    | positions hdata => exact absurd (congrFun htype i ▸ hdata) htypene

theorem mem_unstored_iff : i ∈ (out.filter fun id => type id = []) ↔ type i = [] ∧ i ∈ out := by
  rw [List.mem_filter, decide_eq_true_iff, and_comm]

/-- The other documents have the terms of their mimetype as positions. -/
theorem exists_positions_of_unstored (htype : type = storedText jsonString db Transaction.mimetypeKey)
    (hmem : ∀ i, i ∈ out ↔ ∃ s, text i = some s ∧ q.terms ⊆ termList s)
    (hkeeps : ∀ i type, text i = some type → KeepsMimetype termList jsonString db i type)
    (hi : i ∈ out.filter fun id => type id = []) : ∃ s p, text i = some s ∧ p + (termList s).length ≤ 2 ^ 32 ∧
      ∀ term, PhraseAndIterator.positionsAt i (db.positionDb.get (TermGenerator.mimetypePrefix ++ term)) =
        PhraseAndIterator.positionsFrom p (termList s) term := by
  obtain ⟨htypei, hi⟩ := mem_unstored_iff.mp hi
  obtain ⟨s, hs, -⟩ := (hmem i).mp hi
  cases hkeeps i s hs with
  | data hs' hdata => exact absurd (hdata.symm.trans (congrFun htype i ▸ htypei)) hs'
  | positions _ p hp hpositions => exact ⟨s, p, hs, hp, hpositions⟩

end

/-- The lookup for mimetypes finds what the query selects, wherever the index keeps the mimetypes. -/
theorem mimetypeIterator_selected (ht : db.postingDb.Listed) (hsorted : db.ListsSorted)
    (hposted : TermsPosted termList db.postingDb TermGenerator.mimetypePrefix text)
    (hkeeps : ∀ i type, text i = some type → KeepsMimetype termList jsonString db i type)
    (hne : q.terms ≠ []) : ∃ tree, Returns (fun n => Transaction.mimetypeIterator termList jsonString n db q) tree ∧
      tree.Proper ∧ tree.ids = selected termList text q := by
  rcases Nat.lt_or_ge q.terms.length 2 with hlen | hlen
  · obtain ⟨term, hq⟩ := List.length_eq_one_iff.mp
      (le_antisymm (Nat.le_of_lt_succ hlen) (List.length_pos_of_ne_nil hne))
    obtain ⟨it, hit, hproper, hids⟩ := candidates_one ht hposted hq
    refine ⟨it, ?_, hproper, hids⟩
    simp only [Transaction.mimetypeIterator, hit]
    exact Returns.pure _
  obtain ⟨out, hout, hzero, hmem, hcases⟩ := candidates_posted ht hposted hlen
  have hselects : ∀ s, q.Selects (termList s) ↔ q.terms <:+: termList s := fun s => selects_of_not fun h => by omega
  rcases hcases with hok | ⟨hnull, rfl⟩
  swap
  · refine ⟨.null, ?_, .null, PostingTree.ids_null.trans (Set.ext fun i => ?_)⟩
    · simp only [Transaction.mimetypeIterator, hnull]
      exact Returns.pure _
    · refine ⟨fun h => h.elim, fun ⟨s, hs, h⟩ => ?_⟩
      exact absurd ((hmem i).mpr ⟨s, hs, ((hselects s).mp h).subset⟩) List.not_mem_nil
  -- the documents with a stored mimetype, and the others
  obtain ⟨type, htype⟩ : ∃ type, type = storedText jsonString db Transaction.mimetypeKey := ⟨_, rfl⟩
  have hstored : ∀ i, i ∈ (out.filter fun id => type id ≠ [] ∧ q.matches termList (type id)) ↔
      type i ≠ [] ∧ i ∈ selected termList text q := fun i => mem_stored_iff htype hmem hselects hkeeps hne
  have hsub : ∀ f : DocId → Bool, Ascending id (out.filter f) ∧ 0 ∉ out.filter f := fun f =>
    ⟨hout.sublist List.filter_sublist, fun h => hzero (List.mem_of_mem_filter h)⟩
  obtain ⟨ids, hids, hpairwise, hmemIds⟩ := exists_deferred hsorted hne (hsub _).2 fun i hi =>
    exists_positions_of_unstored htype hmem hkeeps hi
  have hfound : ∀ i, i ∈ ids ↔ type i = [] ∧ i ∈ selected termList text q := by
    intro i
    rw [hmemIds, mem_unstored_iff, and_assoc]
    refine and_congr_right fun _ => ?_
    constructor
    · exact fun ⟨_, s, hs, h⟩ => ⟨s, hs, (hselects s).mpr h⟩
    · rintro ⟨s, hs, h⟩
      rw [hselects] at h
      exact ⟨(hmem i).mpr ⟨s, hs, h.subset⟩, s, hs, h⟩
  by_cases hnil : (out.filter fun id => type id = []) = []
  · refine ⟨.vector (out.filter fun id => type id ≠ [] ∧ q.matches termList (type id)), ?_,
      .vector (hsub _).1 (hsub _).2, (PostingTree.ids_vector _).trans (Set.ext fun i => ?_)⟩
    · simp only [Transaction.mimetypeIterator, hok, ← htype, if_pos hnil]
      exact Returns.pure _
    · refine (hstored i).trans (and_iff_right_of_imp ?_)
      rintro ⟨s, hs, h⟩ htypei
      rw [hselects] at h
      have hi := (@mem_unstored_iff i out type).mpr ⟨htypei, (hmem i).mpr ⟨s, hs, h.subset⟩⟩
      rw [hnil] at hi
      exact absurd hi List.not_mem_nil
  · obtain ⟨values, hvalues⟩ : ∃ values, values = ((out.filter fun id => type id ≠ [] ∧
        q.matches termList (type id)) ++ ids).mergeSort (· ≤ ·) := ⟨_, rfl⟩
    have hmemValues : ∀ i, i ∈ values ↔ i ∈ selected termList text q := by
      intro i
      rw [hvalues, List.mem_mergeSort, List.mem_append, hstored, hfound, ← or_and_right]
      exact and_iff_right (or_iff_not_imp_left.mpr not_not.mp)
    have hascending : values.Pairwise (· < ·) := hvalues ▸ pairwise_mergeSort_append (hsub _).1 hpairwise
      fun a ha hb => ((hstored a).mp ha).1 ((hfound a).mp hb).1
    refine ⟨.vector values, ?_, .vector hascending fun h => ?_, (PostingTree.ids_vector _).trans (Set.ext hmemValues)⟩
    · simp only [Transaction.mimetypeIterator, hok, ← htype, if_neg hnil, hvalues]
      exact hids.map _
    · obtain ⟨s, hs, h⟩ := (hmemValues 0).mp h
      rw [hselects] at h
      exact hzero ((hmem 0).mpr ⟨s, hs, h.subset⟩)

/-- **Names and mimetypes are found by their terms.** In an index that posts every document under exactly
the terms of its stored name and of its stored mimetype, a query for names and a query for mimetypes yield
the documents whose text has the terms of the query side by side, or a term that starts with the one that
is expanded: ascending, each once, and wherever the mimetypes are kept. -/
theorem names_and_mimetypes_found (ht : db.postingDb.Listed) (hsorted : db.ListsSorted)
    (hnames : TermsPosted termList db.postingDb TermGenerator.fileNamePrefix (storedName decodeName db))
    (hmimetypes : TermsPosted termList db.postingDb TermGenerator.mimetypePrefix text)
    (hkeeps : ∀ i type, text i = some type → KeepsMimetype termList jsonString db i type) (hne : q.terms ≠ []) :
    (∃ it, Returns (fun n => (Transaction.filenameIterator termList decodeName db q).build n) it ∧
        PostingIterator.Answers it (selected termList (storedName decodeName db) q)) ∧
      ∃ it, Returns (fun n => (Transaction.mimetypeIterator termList jsonString n db q).bind (PostingTree.build n))
        it ∧ PostingIterator.Answers it (selected termList text q) := by
  constructor
  · have hkeep : ∀ i s, storedName decodeName db i = some s →
        (q.matches termList (decodeName (db.docUrlDb.filePath i).name) = true ↔ q.terms <:+: termList s) := by
      intro i s hs
      obtain ⟨path, hpath, rfl⟩ := Option.map_eq_some_iff.mp hs
      rw [DocumentUrlDB.filePath, hpath, Option.getD_some, matches_iff hne]
    obtain ⟨hproper, hids⟩ := matching_selected ht hnames hne hkeep
    obtain ⟨it, hit, hanswers⟩ := hproper.answers
    rw [hids] at hanswers
    exact ⟨it, hit, hanswers⟩
  · obtain ⟨tree, htree, hproper, hids⟩ := mimetypeIterator_selected ht hsorted hmimetypes hkeeps hne
    obtain ⟨it, hit, hanswers⟩ := hproper.answers
    rw [hids] at hanswers
    exact ⟨it, htree.bind hit, hanswers⟩

end Queries

/-- Words between spaces. -/
def words (s : List QChar) : List Term := (s.splitOn 32).map fun word => word.map fun c => UInt8.ofNat c.toNat

/-- The name `a b` with the mimetype `m n` of an old entry. -/
def oldEntry : Database where
  postingDb := (((∅ : PostingDB).put [70, 97] [1]).put [70, 98] [1]).put [77, 109] [1] |>.put [77, 110] [1]
  positionDb := ((∅ : PositionDB).put [77, 109] [⟨1, [5]⟩]).put [77, 110] [⟨1, [6]⟩]
  docUrlDb := { idFilenameDb := (∅ : IdFilenameDB).put 1 ⟨0, [97, 32, 98]⟩, idTreeDb := (∅ : IdTreeDB).put 0 [1] }

theorem oldEntry_posting (term : Term) : oldEntry.postingDb.get term =
    if term ∈ [[70, 97], [70, 98], [77, 109], [77, 110]] then [1] else [] := by
  rw [PostingDB.get, OrdMap.values, oldEntry]
  simp only [OrdMap.get_put, OrdMap.get_empty]
  split_ifs <;> simp_all

theorem oldEntry_position (term : Term) : oldEntry.positionDb.get term =
    if term = [77, 110] then [⟨1, [6]⟩] else if term = [77, 109] then [⟨1, [5]⟩] else [] := by
  rw [PositionDB.get, OrdMap.values, oldEntry]
  simp only [OrdMap.get_put, OrdMap.get_empty]
  split_ifs <;> rfl

/-- What the entry stands for. -/
def oldMimetype (i : DocId) : Option (List QChar) := if i = 1 then some [109, 32, 110] else none

theorem oldEntry_listed : oldEntry.postingDb.Listed := by
  constructor <;> intro term <;> rw [oldEntry_posting] <;> split
  · exact List.pairwise_singleton _ _
  · exact SortedSeq.ascending_nil
  · decide
  · exact List.not_mem_nil

theorem oldEntry_sorted : oldEntry.ListsSorted := by
  constructor
  · intro term list h
    simp only [oldEntry, OrdMap.get_put, OrdMap.get_empty] at h
    split_ifs at h <;> obtain rfl := Option.some.inj h
    all_goals exact ⟨List.pairwise_singleton _ _, List.cons_ne_nil _ _⟩
  · intro term list h
    simp only [oldEntry, OrdMap.get_put, OrdMap.get_empty] at h
    split_ifs at h <;> obtain rfl := Option.some.inj h
    all_goals exact ⟨List.pairwise_singleton _ _, List.cons_ne_nil _ _, by simp⟩

theorem oldEntry_posted {pre : QByteArray} {text : DocId → Option (List QChar)} {s : List QChar}
    (htext : ∀ i, text i = if i = 1 then some s else none)
    (hpre : ∀ term, pre ++ term ∈ [[70, 97], [70, 98], [77, 109], [77, 110]] ↔ term ∈ words s) :
    TermsPosted words oldEntry.postingDb pre text := by
  intro term i
  rw [oldEntry_posting]
  simp only [hpre, htext]
  by_cases hi : i = 1 <;> by_cases hterm : term ∈ words s <;> simp [hi, hterm]

theorem oldEntry_names : TermsPosted words oldEntry.postingDb TermGenerator.fileNamePrefix
    (storedName (fun name => name.map fun b => UInt16.ofNat b.toNat) oldEntry) := by
  refine oldEntry_posted (s := [97, 32, 98]) (fun i => ?_) fun term => ?_
  · rw [storedName, oldEntry]
    simp only [OrdMap.get_put, OrdMap.get_empty]
    split <;> rfl
  · have hwords : words [97, 32, 98] = [[97], [98]] := by decide
    simp [TermGenerator.fileNamePrefix, hwords]

theorem oldEntry_mimetypes : TermsPosted words oldEntry.postingDb TermGenerator.mimetypePrefix oldMimetype := by
  refine oldEntry_posted (s := [109, 32, 110]) (fun i => rfl) fun term => ?_
  have hwords : words [109, 32, 110] = [[109], [110]] := by decide
  simp [TermGenerator.mimetypePrefix, hwords]

theorem oldEntry_keeps (i : DocId) (type : List QChar) (h : oldMimetype i = some type) :
    KeepsMimetype words (fun _ _ => []) oldEntry i type := by
  rw [oldMimetype] at h
  split at h
  · next hi =>
    obtain rfl := hi
    obtain rfl := Option.some.inj h
    have hwords : words [109, 32, 110] = [[109], [110]] := by decide
    refine .positions ?_ 5 ?_ fun term => ?_
    · rw [storedText, ite_self]
    · rw [hwords]
      decide
    · rw [hwords, oldEntry_position]
      by_cases hn : term = [110]
      · subst hn
        decide
      by_cases hm : term = [109]
      · subst hm
        decide
      · have hn' : TermGenerator.mimetypePrefix ++ term ≠ [77, 110] := by simpa [TermGenerator.mimetypePrefix] using hn
        have hm' : TermGenerator.mimetypePrefix ++ term ≠ [77, 109] := by simpa [TermGenerator.mimetypePrefix] using hm
        rw [if_neg hn', if_neg hm']
        simp [PhraseAndIterator.positionsFrom, List.range_succ, PhraseAndIterator.positionsAt, SortedSeq.find,
          Ne.symm hm, Ne.symm hn]
  · cases h
theorem names_and_mimetypes_found_oldEntry :
    (∃ it, Returns (fun n => (Transaction.filenameIterator words (fun name => name.map fun b => UInt16.ofNat b.toNat)
        oldEntry { terms := [[97], [98]], expandLast := false }).build n) it ∧
      PostingIterator.Answers it (selected words (storedName (fun name => name.map fun b => UInt16.ofNat b.toNat)
        oldEntry) { terms := [[97], [98]], expandLast := false })) ∧
      ∃ it, Returns (fun n => (Transaction.mimetypeIterator words (fun _ _ => []) n oldEntry
          { terms := [[97], [98]], expandLast := false }).bind (PostingTree.build n)) it ∧
        PostingIterator.Answers it (selected words oldMimetype { terms := [[97], [98]], expandLast := false }) :=
  names_and_mimetypes_found oldEntry_listed oldEntry_sorted oldEntry_names oldEntry_mimetypes oldEntry_keeps (by simp)

end Baloo
