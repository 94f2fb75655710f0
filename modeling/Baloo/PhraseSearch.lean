import Baloo.TextNumbers
import Baloo.TextQueries
import Baloo.Transactions

/-!
# Phrases in texts

A query of several terms is answered by a phrase iterator over the position lists of the terms. The
positions of a document are the numbers that its generator has given, so a phrase is found exactly where
its terms stand side by side in the text, in one tag or in the comment (`phrase_found`).

This needs that the numbers do not start over, which they do after `2 ^ 32` of them, and that no term of a
text begins like the terms of the tags or of the comment: the lists do not know where a term came from
(`phrase_limits`).
-/

namespace Baloo

open Fuel (Returns)
open Places (places)
open SortedSeq (Ascending)

/-! ## The lookup -/

/-- `EngineQuery::Operation`. -/
inductive EngineQuery.Operation where
  | equal
  | startsWith

/-- `EngineQuery::PhraseTerm`. -/
structure EngineQuery.PhraseTerm where
  /-- `m_term` -/
  term : Term
  /-- `m_op` -/
  op : EngineQuery.Operation

/-- `EngineQuery`, by `m_subQueries`. -/
abbrev EngineQuery : Type := List EngineQuery.PhraseTerm

/-- What the lookup returns: an iterator over postings, which may be a null pointer, or a phrase iterator. -/
inductive EngineIterator where
  | postings (tree : PostingTree)
  | phrase (it : PhraseAndIterator)

/-- `PositionDB::iter`. -/
def PositionDB.iter (t : PositionDB) (term : Term) : Option VectorPositionInfoIterator :=
  (OrdMap.get t term).map fun list => { vector := list }

/-- `Transaction::postingIterator` of an `EngineQuery`. -/
def Transaction.engineIterator (db : Database) (query : EngineQuery) : EngineIterator :=
  match query with
  | [sq] =>
    match sq.op with
    | .equal => .postings (db.postingDb.iter sq.term)
    | .startsWith => .postings (db.postingDb.prefixIter sq.term)
  | subQueries =>
    match subQueries.mapM fun sq => db.positionDb.iter sq.term with
    | none => .postings .null
    | some vec => .phrase (.make (vec.map some))

/-- The loop `while (it->next())`, which collects the ids. -/
def EngineIterator.readAll (fuel : ℕ) : EngineIterator → Option (List DocId)
  | .postings tree => (tree.build fuel).bind fun it => it.elim (some []) fun it => it.enumerate fuel
  | .phrase it => it.readAll fuel

/-- Reading the iterator to the end yields the documents of the set, ascending and each once. -/
def EngineIterator.Yields (it : EngineIterator) (S : Set DocId) : Prop :=
  ∃ ids, Returns (fun n => it.readAll n) ids ∧ ids.Pairwise (· < ·) ∧ ∀ i, i ∈ ids ↔ i ∈ S

theorem PostingTree.Proper.yields {tree : PostingTree} (h : tree.Proper) :
    (EngineIterator.postings tree).Yields tree.ids := by
  obtain ⟨it, hit, hanswers⟩ := h.answers
  cases it with
  | none =>
    have hids : tree.ids = ∅ := hanswers
    refine ⟨[], hit.bind (Returns.pure []), List.Pairwise.nil, fun i => ?_⟩
    rw [hids]
    exact ⟨nofun, False.elim⟩
  | some it =>
    obtain ⟨ids, hids, hsorted, hmem⟩ := hanswers
    exact ⟨ids, hit.bind hids, hsorted, hmem⟩

/-! ## Positions in the index -/

/-- The positions that a document has under a term, from whichever family has it. -/
def positionsIn (families : Family → OrdMap Term TermData) (t : Term) : List UInt32 :=
  ((lookup families t).getD {}).positions

/-- Only one family has the term. -/
theorem positionsIn_eq {families : Family → OrdMap Term TermData} (h : Apart families) (t : Term) :
    positionsIn families t = positionsOf (families .terms) t ++ positionsOf (families .xattrTerms) t ++
      positionsOf (families .fileNameTerms) t := by
  rcases hlookup : lookup families t with _ | td
  · have hnone := lookup_eq_none.mp hlookup
    rw [positionsIn, hlookup, positionsOf_of_get (hnone _), positionsOf_of_get (hnone _),
      positionsOf_of_get (hnone _)]
    rfl
  · obtain ⟨f, hf⟩ := (lookup_eq_some h).mp hlookup
    have hother : ∀ g, g ≠ f → positionsOf (families g) t = [] := by
      intro g hg
      refine positionsOf_of_get (Option.eq_none_iff_forall_not_mem.mpr fun td' htd' => hg ?_)
      exact h t g f (OrdMap.contains_iff.mpr ⟨td', htd'⟩) (OrdMap.contains_iff.mpr ⟨td, hf⟩)
    have hown : positionsOf (families f) t = td.positions := by
      rw [positionsOf, hf]
      rfl
    rw [positionsIn, hlookup]
    cases f with
    | terms => simp [hown, hother]
    | xattrTerms => simp [hown, hother]
    | fileNameTerms => simp [hown, hother]

/-- The positions come from one family, if there are any. -/
theorem positionsIn_cases {families : Family → OrdMap Term TermData} (h : Apart families) (t : Term) :
    positionsIn families t = [] ∨ ∃ f, positionsIn families t = positionsOf (families f) t := by
  rcases hlookup : lookup families t with _ | td
  · exact .inl (by rw [positionsIn, hlookup]; rfl)
  · obtain ⟨f, hf⟩ := (lookup_eq_some h).mp hlookup
    exact .inr ⟨f, by rw [positionsIn, hlookup, positionsOf, hf]⟩

section Committed

variable {db : Database} {A : Index}

/-- The position lists hold the positions that have been written. -/
theorem Committed.positionsAt (h : Committed KeepsApart db A) (t : Term) (i : DocId) :
    PhraseAndIterator.positionsAt i (db.positionDb.get t) = positionsIn (A i) t := by
  have hentry := congrArg Entry.positions (h.holds.entry_eq t i)
  rw [Database.entry] at hentry
  dsimp only at hentry
  rw [PhraseAndIterator.positionsAt, hentry, positionsIn]
  rcases lookup (A i) t with _ | td
  · rfl
  · by_cases hnil : td.positions = []
    · simp [Entry.ofTermData, hnil]
    · simp [Entry.ofTermData, hnil]

/-- The position lists are in order. -/
theorem Committed.listed_positions (h : Committed KeepsApart db A) (hzero : A 0 = fun _ => ∅)
    (hascending : ∀ i t, Ascending UInt32.toNat (positionsIn (A i) t)) (t : Term) :
    PhraseAndIterator.Listed (db.positionDb.get t) := by
  have hsorted : Ascending PositionInfo.docId (db.positionDb.get t) ∧
      ∀ info ∈ db.positionDb.get t, info.positions ≠ [] := by
    rw [PositionDB.get, OrdMap.values]
    rcases hget : OrdMap.get db.positionDb t with _ | list
    · exact ⟨SortedSeq.ascending_nil, fun info hinfo => absurd hinfo List.not_mem_nil⟩
    · exact ⟨(h.holds.sorted.position t list hget).1, (h.holds.sorted.position t list hget).2.2⟩
  have hpositions : ∀ info ∈ db.positionDb.get t, info.positions = positionsIn (A info.docId) t := by
    intro info hinfo
    rw [← h.positionsAt, PhraseAndIterator.positionsAt, SortedSeq.find_of_mem hsorted.1 hinfo]
    rfl
  refine ⟨hsorted.1, fun info hinfo hid => hsorted.2 info hinfo ?_, fun info hinfo => ?_⟩
  · have hnone : lookup (fun _ => ∅) t = none := lookup_eq_none.mpr fun f => OrdMap.get_empty t
    rw [hpositions info hinfo, hid, hzero, positionsIn, hnone]
    rfl
  · rw [hpositions info hinfo]
    exact hascending _ t

/-- The vectors of the lookup; it returns a null pointer if some term has no positions at all. -/
theorem mapM_iter (db : Database) (query : EngineQuery) :
    (query.mapM (fun sq => db.positionDb.iter sq.term) = none ∧ ∃ sq ∈ query, db.positionDb.get sq.term = []) ∨
      query.mapM (fun sq => db.positionDb.iter sq.term) =
        some (query.map fun sq => { vector := db.positionDb.get sq.term }) := by
  induction query with
  | nil => exact .inr rfl
  | cons sq query ih =>
    rcases hget : OrdMap.get db.positionDb sq.term with _ | list
    · refine .inl ⟨?_, sq, List.mem_cons_self, by rw [PositionDB.get, OrdMap.values, hget]; rfl⟩
      rw [List.mapM_cons, PositionDB.iter, hget]
      rfl
    · have hlist : db.positionDb.get sq.term = list := by
        rw [PositionDB.get, OrdMap.values, hget, Option.getD_some]
      rcases ih with ⟨hnone, sq', hmem, hnil⟩ | hvec
      · refine .inl ⟨?_, sq', List.mem_cons_of_mem _ hmem, hnil⟩
        rw [List.mapM_cons, PositionDB.iter, hget, hnone]
        rfl
      · refine .inr ?_
        rw [List.mapM_cons, PositionDB.iter, hget, hvec, List.map_cons, hlist]
        rfl

/-- **A query of several terms** yields the documents in which the positions of the terms are aligned. -/
theorem Committed.yields_phrase (h : Committed KeepsApart db A) (hzero : A 0 = fun _ => ∅)
    (hascending : ∀ i t, Ascending UInt32.toNat (positionsIn (A i) t)) {query : EngineQuery}
    (hlen : 2 ≤ query.length) : (Transaction.engineIterator db query).Yields
      {i | ∃ N, PhraseAndIterator.Aligned N 0 (query.map fun sq => positionsIn (A i) sq.term)} := by
  have hlists : ∀ i, (query.map fun sq => db.positionDb.get sq.term).map (PhraseAndIterator.positionsAt i) =
      query.map fun sq => positionsIn (A i) sq.term := by
    intro i
    rw [List.map_map]
    exact List.map_congr_left fun sq _ => h.positionsAt sq.term i
  have hengine : Transaction.engineIterator db query =
      match query.mapM fun sq => db.positionDb.iter sq.term with
      | none => .postings .null
      | some vec => .phrase (.make (vec.map some)) := by
    match query, hlen with
    | _ :: _ :: _, _ => rfl
  rw [hengine]
  rcases mapM_iter db query with ⟨hnone, sq, hmem, hnil⟩ | hvec
  · rw [hnone]
    have hempty : {i | ∃ N, PhraseAndIterator.Aligned N 0 (query.map fun sq => positionsIn (A i) sq.term)} = ∅ := by
      refine Set.eq_empty_of_forall_notMem ?_
      rintro i ⟨N, haligned⟩
      rw [← hlists] at haligned
      obtain ⟨info, hinfo, -⟩ := haligned.exists_mem (List.mem_map_of_mem hmem)
      rw [hnil] at hinfo
      cases hinfo
    rw [hempty, ← PostingTree.ids_null]
    exact PostingTree.Proper.null.yields
  · rw [hvec]
    dsimp only
    have hlisted : ∀ list ∈ query.map fun sq => db.positionDb.get sq.term, PhraseAndIterator.Listed list := by
      intro list hlist
      obtain ⟨sq, -, rfl⟩ := List.mem_map.mp hlist
      exact h.listed_positions hzero hascending sq.term
    have hne : (query.map fun sq => db.positionDb.get sq.term) ≠ [] := by
      intro hnil
      rw [List.map_eq_nil_iff.mp hnil] at hlen
      cases hlen
    obtain ⟨ids, hids, hsorted, hmem⟩ := PhraseAndIterator.readAll_returns hlisted hne
    refine ⟨ids, ?_, hsorted, fun i => (hmem i).trans ?_⟩
    · rw [List.map_map]
      rw [List.map_map] at hids
      exact hids
    · rw [PhraseAndIterator.Hit, hlists]
      exact Iff.rfl

end Committed

/-! ## What has been written -/

/-- No term of the document has positions. -/
def Bare (doc : Document) : Prop := ∀ f t, positionsOf (doc.family f) t = []

/-- What has been written for the documents are these texts; no other document has positions. -/
structure TextsStored (tokens : Tokenizer) (A : Index) (docs : DocId → Option Texts) : Prop where
  /-- `0` is no document -/
  zero : A 0 = fun _ => ∅
  /-- the documents -/
  texts : ∀ i texts, docs i = some texts → ∃ doc, Bare doc ∧ A i = (texts.index tokens doc).family
  /-- the others -/
  others : ∀ i, docs i = none → ∀ t, positionsIn (A i) t = []

section Stored

variable {tokens : Tokenizer} {A : Index} {docs : DocId → Option Texts} {db : Database} {texts : Texts} {i : DocId}
  {t : Term}

/-- The positions of a term in a family are its numbers. -/
theorem TextsStored.positionsOf_eq (h : TextsStored tokens A docs) (hdoc : docs i = some texts) (f : Family)
    (t : Term) :
    positionsOf (A i f) t = (places 1 (some (f, t)) (texts.slots tokens)).map UInt32.ofNat := by
  obtain ⟨doc, hbare, hA⟩ := h.texts i texts hdoc
  rw [hA, texts.positions_index tokens doc f t, hbare f t, List.nil_append]

/-- A term that gets its numbers in one family only. -/
theorem TextsStored.positionsIn_eq (h : TextsStored tokens A docs) (hapart : Apart (A i)) (hdoc : docs i = some texts)
    (f : Family) (hf : ∀ g, g ≠ f → some (g, t) ∉ texts.slots tokens) :
    positionsIn (A i) t = (places 1 (some (f, t)) (texts.slots tokens)).map UInt32.ofNat := by
  have hnil : ∀ g, g ≠ f → places 1 (some (g, t)) (texts.slots tokens) = [] :=
    fun g hg => Places.places_eq_nil (hf g hg)
  rw [Baloo.positionsIn_eq hapart, h.positionsOf_eq hdoc, h.positionsOf_eq hdoc, h.positionsOf_eq hdoc]
  cases f with
  | terms => simp [hnil]
  | xattrTerms => simp [hnil]
  | fileNameTerms => simp [hnil]

/-- The numbers ascend as long as they do not start over. -/
theorem TextsStored.ascending (h : TextsStored tokens A docs) (hapart : ∀ i, Apart (A i))
    (hbound : ∀ i texts, docs i = some texts → (texts.slots tokens).length < 2 ^ 32) (i : DocId) (t : Term) :
    Ascending UInt32.toNat (positionsIn (A i) t) := by
  rcases hdoc : docs i with _ | texts
  · rw [h.others i hdoc]
    exact SortedSeq.ascending_nil
  · rcases positionsIn_cases (hapart i) t with hnil | ⟨f, hf⟩
    · rw [hnil]
      exact SortedSeq.ascending_nil
    · have hlt := hbound i texts hdoc
      rw [hf, h.positionsOf_eq hdoc]
      exact PhraseAndIterator.ascending_places (by omega) _

/-- **A phrase of terms of one family** finds the documents in which they got numbers one behind another. -/
theorem TextsStored.yields (h : TextsStored tokens A docs) (hcommitted : Committed KeepsApart db A)
    (hbound : ∀ i texts, docs i = some texts → (texts.slots tokens).length < 2 ^ 32) {query : EngineQuery}
    {terms : List Term} {pre : QByteArray} (f : Family) (hlen : 2 ≤ terms.length)
    (hquery : query.map EngineQuery.PhraseTerm.term = terms.map (pre ++ ·))
    (honly : ∀ i texts, docs i = some texts → ∀ t ∈ terms, ∀ g, g ≠ f → some (g, pre ++ t) ∉ texts.slots tokens) :
    (Transaction.engineIterator db query).Yields {i | ∃ texts, docs i = some texts ∧
      terms.map (fun t => some (f, pre ++ t)) <:+: texts.slots tokens} := by
  have hapart := hcommitted.holds.apart
  have hlength : query.length = terms.length := by
    have hlength := congrArg List.length hquery
    simpa using hlength
  have hlists : ∀ i, (query.map fun sq => positionsIn (A i) sq.term) =
      terms.map fun t => positionsIn (A i) (pre ++ t) := by
    intro i
    have hmap := congrArg (List.map (positionsIn (A i))) hquery
    rwa [List.map_map, List.map_map] at hmap
  have hyields := hcommitted.yields_phrase h.zero (h.ascending hapart hbound) (hlength ▸ hlen)
  have hset : {i | ∃ N, PhraseAndIterator.Aligned N 0 (query.map fun sq => positionsIn (A i) sq.term)} =
      {i | ∃ texts, docs i = some texts ∧ terms.map (fun t => some (f, pre ++ t)) <:+: texts.slots tokens} := by
    ext i
    change (∃ N, PhraseAndIterator.Aligned N 0 (query.map fun sq => positionsIn (A i) sq.term)) ↔
      ∃ texts, docs i = some texts ∧ terms.map (fun t => some (f, pre ++ t)) <:+: texts.slots tokens
    rw [hlists]
    rcases hdoc : docs i with _ | texts
    · -- the first term has no position
      obtain ⟨first, rest, rfl⟩ := List.exists_cons_of_length_pos (Nat.zero_lt_of_lt hlen)
      refine ⟨fun ⟨N, haligned⟩ => ?_, nofun⟩
      obtain ⟨pos, hpos, -⟩ : ∃ pos ∈ positionsIn (A i) (pre ++ first), pos.toNat = N + 0 := haligned.1
      rw [h.others i hdoc] at hpos
      cases hpos
    · have hpositions : (terms.map fun t => positionsIn (A i) (pre ++ t)) =
          terms.map fun t => (places 1 (some (f, pre ++ t)) (texts.slots tokens)).map UInt32.ofNat :=
        List.map_congr_left fun t ht => h.positionsIn_eq (hapart i) hdoc f (honly i texts hdoc t ht)
      have hlt := hbound i texts hdoc
      have hne : terms ≠ [] := List.ne_nil_of_length_pos (Nat.zero_lt_of_lt hlen)
      rw [hpositions, PhraseAndIterator.exists_aligned_places (by omega) hne]
      simp
  rwa [hset] at hyields

end Stored

/-! ## Phrases are found -/

/-- Phrases are found where they stand: of the running text those whose terms are admitted. -/
structure FindsPhrases (tokens : Tokenizer) (admits : Term → Prop) (db : Database) (docs : DocId → Option Texts) :
    Prop where
  /-- in the running text -/
  content : ∀ query : EngineQuery, 2 ≤ query.length → (∀ sq ∈ query, admits sq.term) →
    (Transaction.engineIterator db query).Yields {i | ∃ texts, docs i = some texts ∧
      query.map EngineQuery.PhraseTerm.term <:+: texts.contentTerms tokens}
  /-- in one tag -/
  tags : ∀ (query : EngineQuery) (terms : List Term), 2 ≤ terms.length →
    query.map EngineQuery.PhraseTerm.term = terms.map (tagPrefix ++ ·) →
    (Transaction.engineIterator db query).Yields {i | ∃ texts, docs i = some texts ∧
      ∃ tag ∈ texts.tags, terms <:+: tokens.termList tag}
  /-- in the comment -/
  comment : ∀ (query : EngineQuery) (terms : List Term), 2 ≤ terms.length →
    query.map EngineQuery.PhraseTerm.term = terms.map (commentPrefix ++ ·) →
    (Transaction.engineIterator db query).Yields {i | ∃ texts, docs i = some texts ∧
      ∃ comment ∈ texts.comment, terms <:+: tokens.termList comment}

/-- A document of nothing but texts, and terms without positions that do not begin like those of an attribute. -/
def OnlyTexts (tokens : Tokenizer) (doc : Document) : Prop :=
  ∃ (texts : Texts) (base : Document), doc = texts.index tokens base ∧ Bare base ∧
    (∀ t, base.terms.contains t = true → Plain t) ∧ base.xattrTerms = ∅ ∧ base.fileNameTerms = ∅

section Search

variable {tokens : Tokenizer} {A : Index} {docs : DocId → Option Texts} {db : Database}

theorem TextsStored.findsPhrases (h : TextsStored tokens A docs) (hcommitted : Committed KeepsApart db A)
    (hplain : ∀ text, ∀ t ∈ tokens.termList text, Plain t)
    (hbound : ∀ i texts, docs i = some texts → (texts.slots tokens).length < 2 ^ 32) :
    FindsPhrases tokens Plain db docs := by
  have hcontent : ∀ (texts : Texts), ∀ t ∈ texts.contentTerms tokens, Plain t := by
    intro texts t ht
    obtain ⟨text, -, ht⟩ := List.mem_flatMap.mp ht
    exact hplain text t ht
  have hxattr : ∀ (texts : Texts) (t : Term), ¬ Plain t → ∀ g, g ≠ .xattrTerms → some (g, t) ∉ texts.slots tokens := by
    intro texts t ht g hg hmem
    rcases mem_slots hmem with ⟨-, hmem⟩ | ⟨rfl, -⟩
    · exact ht (hcontent texts t hmem)
    · exact hg rfl
  refine ⟨fun query hlen hadmits => ?_, fun query terms hlen hquery => ?_, fun query terms hlen hquery => ?_⟩
  · have hlen' : 2 ≤ (query.map EngineQuery.PhraseTerm.term).length := by rwa [List.length_map]
    have hquery : query.map EngineQuery.PhraseTerm.term = (query.map EngineQuery.PhraseTerm.term).map ([] ++ ·) :=
      (List.map_id _).symm
    have hyields := h.yields hcommitted hbound .terms hlen' hquery ?_
    · simpa only [List.nil_append, infix_content hlen'] using hyields
    · intro i texts _ t ht g hg hmem
      obtain ⟨sq, hsq, rfl⟩ := List.mem_map.mp ht
      rcases mem_slots hmem with ⟨rfl, -⟩ | ⟨-, htag | hcomment⟩
      · exact hg rfl
      · exact (hadmits sq hsq).1 htag
      · exact (hadmits sq hsq).2 hcomment
  · have hyields := h.yields hcommitted hbound .xattrTerms hlen hquery fun i texts _ t _ =>
      hxattr texts _ fun hp => hp.1 (List.prefix_append tagPrefix t)
    simpa only [infix_tags hlen] using hyields
  · have hyields := h.yields hcommitted hbound .xattrTerms hlen hquery fun i texts _ t _ =>
      hxattr texts _ fun hp => hp.2 (List.prefix_append commentPrefix t)
    simpa only [infix_comment hlen] using hyields

/-- The family that a term shows. -/
def shownFamily (t : Term) : Family := if Plain t then .terms else .xattrTerms

theorem OnlyTexts.classified (hplain : ∀ text, ∀ t ∈ tokens.termList text, Plain t) {doc : Document}
    (h : OnlyTexts tokens doc) : Classified shownFamily doc.family := by
  obtain ⟨texts, base, rfl, -, hbase, hxattr, hname⟩ := h
  refine Document.AllTerms.index (P := fun f t => shownFamily t = f) ?_ texts ?_ ?_ ?_
  · intro f t ht
    cases f with
    | terms => exact if_pos (hbase t ht)
    | xattrTerms =>
      rw [Document.family, hxattr] at ht
      simp at ht
    | fileNameTerms =>
      rw [Document.family, hname] at ht
      simp at ht
  · intro t ht
    obtain ⟨text, -, ht⟩ := List.mem_flatMap.mp ht
    exact if_pos (hplain text t ht)
  · exact fun _ _ t _ => if_neg fun h => h.1 (List.prefix_append tagPrefix t)
  · exact fun _ _ t _ => if_neg fun h => h.2 (List.prefix_append commentPrefix t)

end Search

/-! ## One file -/

theorem EngineIterator.Yields.unique {it : EngineIterator} {S S' : Set DocId} (h : it.Yields S) (h' : it.Yields S') :
    S = S' := by
  obtain ⟨ids, hids, -, hmem⟩ := h
  obtain ⟨ids', hids', -, hmem'⟩ := h'
  obtain rfl := hids.unique hids'
  exact Set.ext fun i => (hmem i).symm.trans (hmem' i)

/-- The file `/a` before its texts are indexed. -/
def plainFile : Document :=
  { id := 2, parentId := 1, url := [47, 97], terms := (∅ : OrdMap Term TermData).put [77] {} }

/-- The texts of the file. -/
def onlyFile (texts : Texts) : DocId → Option Texts := fun i => if i = 2 then some texts else none

theorem mem_onlyFile {texts : Texts} {i : DocId} {texts' : Texts} (h : onlyFile texts i = some texts') :
    i = 2 ∧ texts = texts' := by
  rw [onlyFile, Option.ite_none_right_eq_some] at h
  exact ⟨h.1, Option.some.inj h.2⟩

theorem bound_onlyFile {tokens : Tokenizer} {texts : Texts} (h : (texts.slots tokens).length < 2 ^ 32) :
    ∀ i texts', onlyFile texts i = some texts' → (texts'.slots tokens).length < 2 ^ 32 := by
  intro i texts' hi
  obtain ⟨-, rfl⟩ := mem_onlyFile hi
  exact h

theorem contains_plainFile {f : Family} {t : Term} (h : (plainFile.family f).contains t = true) :
    f = .terms ∧ t = [77] := by
  cases f with
  | terms => simpa [plainFile, Document.family] using h
  | xattrTerms => simp [plainFile, Document.family] at h
  | fileNameTerms => simp [plainFile, Document.family] at h

theorem bare_plainFile : Bare plainFile := by
  intro f t
  cases f with
  | terms =>
    rw [positionsOf, Document.family, plainFile, OrdMap.get_put]
    split
    · rfl
    · rw [OrdMap.get_empty]
      rfl
  | xattrTerms => exact positionsOf_empty t
  | fileNameTerms => exact positionsOf_empty t

theorem onlyTexts_plainFile (tokens : Tokenizer) (texts : Texts) : OnlyTexts tokens (texts.index tokens plainFile) := by
  refine ⟨texts, plainFile, rfl, bare_plainFile, fun t ht => ?_, rfl, rfl⟩
  obtain ⟨-, rfl⟩ := contains_plainFile (f := .terms) ht
  decide

/-- The file is added and committed. -/
theorem exists_stored (tokens : Tokenizer) (texts : Texts)
    (hclean : ∀ text, ∀ t ∈ tokens.termList text, DocTermsCodec.Clean t)
    (hapart : Apart (texts.index tokens plainFile).family) :
    ∃ db A, Committed (fun _ doc _ => OnlyTexts tokens doc) db A ∧ Committed KeepsApart db A ∧
      TextsStored tokens A (onlyFile texts) := by
  obtain ⟨xattrTerms, hframe⟩ := texts.index_frame tokens plainFile
  have hid : (texts.index tokens plainFile).id = 2 := by
    rw [hframe]
    rfl
  have hprefix : ∀ {pre t : QByteArray}, DocTermsCodec.Clean pre → DocTermsCodec.Clean t →
      DocTermsCodec.Clean (pre ++ t) := fun hpre ht => List.forall_mem_append.mpr ⟨hpre, ht⟩
  have hwellFormed : (texts.index tokens plainFile).WellFormed := by
    refine Document.AllTerms.index (P := fun _ t => t ≠ [] ∧ DocTermsCodec.Clean t) ?_ texts ?_ ?_ ?_
    · intro f t ht
      obtain ⟨-, rfl⟩ := contains_plainFile ht
      decide
    · intro t ht
      obtain ⟨text, -, ht⟩ := List.mem_flatMap.mp ht
      exact ⟨fun hnil => tokens.ne_nil text (hnil ▸ ht), hclean text t ht⟩
    · exact fun tag _ t ht => ⟨List.cons_ne_nil _ _, hprefix (by decide) (hclean tag t ht)⟩
    · exact fun comment _ t ht => ⟨List.cons_ne_nil _ _, hprefix (by decide) (hclean comment t ht)⟩
  have hne : (texts.index tokens plainFile).terms.keys ≠ [] := by
    have hmem : (texts.index tokens plainFile).terms.contains [77] = true := by
      rw [hframe]
      exact (contains_indexText ..).mpr (.inl (by decide))
    exact List.ne_nil_of_mem (OrdMap.contains_iff_mem_keys.mp hmem)
  have hurl : (WriteTransaction.addUrl noFiles ({} : WriteTransaction).dbis.docUrlDb
      (texts.index tokens plainFile)).2 = true := by
    rw [hframe]
    rfl
  obtain ⟨db, hdb⟩ := exists_committed_only hurl hwellFormed hne hapart
  have hfamily : Index.replace (fun _ _ => ∅) (texts.index tokens plainFile) (fun _ => true)
      (texts.index tokens plainFile).id = (texts.index tokens plainFile).family := by
    funext f
    simp [Index.replace]
  refine ⟨db, _, hdb _ (onlyTexts_plainFile tokens texts), hdb _ ⟨hfamily.symm ▸ hapart, fun t f g _ _ _ ht => ?_⟩, ?_⟩
  · simp at ht
  · have hother : ∀ i, i ≠ 2 → Index.only (texts.index tokens plainFile) i = fun _ => ∅ := by
      intro i hi
      funext f
      rw [Index.only, hid, if_neg hi]
    refine ⟨hother 0 (by decide), fun i texts' hi => ⟨plainFile, bare_plainFile, ?_⟩, fun i hi t => ?_⟩
    · obtain ⟨rfl, rfl⟩ := mem_onlyFile hi
      funext f
      rw [Index.only, hid, if_pos rfl]
    · have hi' : i ≠ 2 := by
        rintro rfl
        simp [onlyFile] at hi
      have hnone : lookup (fun _ => ∅) t = none := lookup_eq_none.mpr fun f => OrdMap.get_empty t
      rw [hother i hi', positionsIn, hnone]
      rfl

/-- Every text has these terms. -/
def fixedTokens (terms : List Term) (h : [] ∉ terms) : Tokenizer where
  termList _ := terms
  ne_nil _ := h

/-- Every text has the terms `x` and `y`. -/
def lettersXY : Tokenizer := fixedTokens [[120], [121]] (by decide)

theorem plain_lettersXY : ∀ text, ∀ t ∈ lettersXY.termList text, Plain t := by
  intro text t ht
  have hall : ∀ t ∈ [[120], [121]], Plain t := by decide
  exact hall t ht

/-- Where terms are plain, the families of the file stay apart. -/
theorem exists_stored_plain (tokens : Tokenizer) (texts : Texts)
    (hclean : ∀ text, ∀ t ∈ tokens.termList text, DocTermsCodec.Clean t)
    (hplain : ∀ text, ∀ t ∈ tokens.termList text, Plain t) :
    ∃ db A, Committed (fun _ doc _ => OnlyTexts tokens doc) db A ∧ Committed KeepsApart db A ∧
      TextsStored tokens A (onlyFile texts) := by
  refine exists_stored tokens texts hclean fun t f g hf hg => ?_
  have hclass := (onlyTexts_plainFile tokens texts).classified hplain
  exact (hclass f t hf).symm.trans (hclass g t hg)

theorem clean_lettersXY : ∀ text, ∀ t ∈ lettersXY.termList text, DocTermsCodec.Clean t := by
  intro text t ht
  have hall : ∀ t ∈ [[120], [121]], DocTermsCodec.Clean t := by decide
  exact hall t ht

/-- What a query of these terms is. -/
def phraseQuery (terms : List Term) : EngineQuery := terms.map fun t => { term := t, op := .equal }

theorem map_phraseQuery (terms : List Term) : (phraseQuery terms).map EngineQuery.PhraseTerm.term = terms := by
  rw [phraseQuery, List.map_map]
  exact List.map_id _

/-- A phrase of terms like those of a tag is found in the tag, and not in the running text. -/
theorem tag_found_as_content : ∃ db A, Committed (fun _ doc _ => OnlyTexts lettersXY doc) db A ∧
    TextsStored lettersXY A (onlyFile ⟨[], [[]], none⟩) ∧
      ¬ FindsPhrases lettersXY (fun _ => True) db (onlyFile ⟨[], [[]], none⟩) := by
  obtain ⟨db, A, hcommitted, hkeeps, hstored⟩ :=
    exists_stored_plain lettersXY ⟨[], [[]], none⟩ clean_lettersXY plain_lettersXY
  refine ⟨db, A, hcommitted, hstored, fun h => ?_⟩
  have htags := (hstored.findsPhrases hkeeps plain_lettersXY (bound_onlyFile (by decide))).tags
    (phraseQuery [[84, 65, 120], [84, 65, 121]]) [[120], [121]] (le_refl 2) rfl
  have hcontent := h.content (phraseQuery [[84, 65, 120], [84, 65, 121]]) (le_refl 2) fun _ _ => trivial
  have hmem : 2 ∈ {i | ∃ texts, onlyFile ⟨[], [[]], none⟩ i = some texts ∧
      ∃ tag ∈ texts.tags, [[120], [121]] <:+: lettersXY.termList tag} :=
    ⟨_, rfl, [], List.mem_singleton_self _, List.infix_refl _⟩
  rw [htags.unique hcontent] at hmem
  obtain ⟨texts, htexts, hinfix⟩ := hmem
  obtain ⟨-, rfl⟩ := mem_onlyFile htexts
  cases List.infix_nil.mp hinfix

/-- Every text has two terms like those of the tag `x y`. -/
def likeTags : Tokenizer := fixedTokens [[84, 65, 120], [84, 65, 121]] (by decide)

/-- A phrase of a text whose terms begin like those of a tag is found as a tag. -/
theorem content_found_as_tag : ∃ db A, Committed (fun _ doc _ => OnlyTexts likeTags doc) db A ∧
    TextsStored likeTags A (onlyFile ⟨[[]], [], none⟩) ∧
      ¬ FindsPhrases likeTags Plain db (onlyFile ⟨[[]], [], none⟩) := by
  have hclean : ∀ text, ∀ t ∈ likeTags.termList text, DocTermsCodec.Clean t := by
    intro text t ht
    have hall : ∀ t ∈ [[84, 65, 120], [84, 65, 121]], DocTermsCodec.Clean t := by decide
    exact hall t ht
  -- all terms are in one family
  have hterms : Document.AllTerms (fun f _ => f = .terms) ((⟨[[]], [], none⟩ : Texts).index likeTags plainFile) :=
    Document.AllTerms.index (fun f t ht => (contains_plainFile ht).1) _ (fun _ _ => rfl) nofun nofun
  obtain ⟨db, A, hcommitted, hkeeps, hstored⟩ := exists_stored likeTags ⟨[[]], [], none⟩ hclean
    fun t f g hf hg => (hterms f t hf).trans (hterms g t hg).symm
  refine ⟨db, A, hcommitted, hstored, fun h => ?_⟩
  have hslots : (⟨[[]], [], none⟩ : Texts).slots likeTags =
      [some (.terms, [84, 65, 120]), some (.terms, [84, 65, 121])] := rfl
  have hquery : (phraseQuery [[84, 65, 120], [84, 65, 121]]).map EngineQuery.PhraseTerm.term =
      [[84, 65, 120], [84, 65, 121]].map ([] ++ ·) := rfl
  have hyields := hstored.yields hkeeps (bound_onlyFile (by decide)) .terms (le_refl 2) hquery
      fun i texts hi t _ g hg hmem => by
    obtain ⟨-, rfl⟩ := mem_onlyFile hi
    rw [hslots] at hmem
    simp [hg] at hmem
  have htags := h.tags (phraseQuery [[84, 65, 120], [84, 65, 121]]) [[120], [121]] (le_refl 2) rfl
  have hmem : 2 ∈ {i | ∃ texts, onlyFile ⟨[[]], [], none⟩ i = some texts ∧
      [[84, 65, 120], [84, 65, 121]].map (fun t => some (Family.terms, [] ++ t)) <:+: texts.slots likeTags} :=
    ⟨_, rfl, List.infix_refl _⟩
  rw [hyields.unique htags] at hmem
  obtain ⟨texts, htexts, tag, htag, -⟩ := hmem
  obtain ⟨-, rfl⟩ := mem_onlyFile htexts
  cases htag

/-! ### Numbers start over -/

/-- A word of `n + 1` letters. -/
def word (n : ℕ) : Term := List.replicate (n + 1) 119

theorem word_injective : Function.Injective word := by
  intro m n h
  have hlen := congrArg List.length h
  simpa [word] using hlen

theorem plain_word (n : ℕ) : Plain (word n) := by
  constructor
  · rintro ⟨rest, h⟩
    exact absurd (List.cons.inj h).1 (by decide)
  · rintro ⟨rest, h⟩
    exact absurd (List.cons.inj h).1 (by decide)

/-- Every text has the words of one to `n + 1` letters. -/
def growingWords (n : ℕ) : Tokenizer := fixedTokens ((List.range (n + 1)).map word) (by simp [word])

section StartOver

variable {n k : ℕ}

theorem plain_growingWords (n : ℕ) : ∀ text, ∀ t ∈ (growingWords n).termList text, Plain t := by
  intro text t ht
  obtain ⟨k, -, rfl⟩ := List.mem_map.mp ht
  exact plain_word k

/-- The words get one number after another. -/
theorem slots_growingWords (n : ℕ) : (⟨[[]], [], none⟩ : Texts).slots (growingWords n) =
    (List.range (n + 1)).map fun k => some (Family.terms, word k) := by
  simp [Texts.slots, Texts.contentTerms, growingWords, fixedTokens, contentSlots, Function.comp_def]

theorem nodup_slots_growingWords (n : ℕ) : ((⟨[[]], [], none⟩ : Texts).slots (growingWords n)).Nodup := by
  rw [slots_growingWords]
  refine List.Nodup.map (fun i j h => word_injective ?_) List.nodup_range
  simpa using h

theorem places_growingWords (hk : k ≤ n) :
    places 1 (some (Family.terms, word k)) ((⟨[[]], [], none⟩ : Texts).slots (growingWords n)) = [1 + k] := by
  refine Places.places_of_nodup (nodup_slots_growingWords n) ?_
  rw [slots_growingWords, List.getElem?_map, List.getElem?_range (by omega)]
  rfl

/-- The word of one letter stands in front of that of two, and not behind the last one. -/
theorem not_infix_growingWords (hn : 1 ≤ n) : ¬ [word n, word 1] <:+: (List.range (n + 1)).map word := by
  intro h
  have hrange : [n, 1] <:+: List.range (n + 1) := (Places.map_infix_map_iff word_injective).mp h
  obtain ⟨j, -, hj⟩ := List.infix_iff_getElem?.mp hrange
  have hlast := hj 0 (by simp)
  have hnext := hj 1 (by simp)
  obtain ⟨hlt, hlast⟩ := List.getElem?_eq_some_iff.mp hlast
  obtain ⟨hlt', hnext⟩ := List.getElem?_eq_some_iff.mp hnext
  rw [List.length_range] at hlt'
  simp at hlast hnext
  omega

/-- When the numbers have started over, the last word has the number of the first one, in front of the second
one. -/
theorem last_found_before_second (hn : 1 ≤ n) (hover : (1 + n) % 2 ^ 32 = 1) :
    ∃ db A, Committed (fun _ doc _ => OnlyTexts (growingWords n) doc) db A ∧
      TextsStored (growingWords n) A (onlyFile ⟨[[]], [], none⟩) ∧
        ¬ FindsPhrases (growingWords n) Plain db (onlyFile ⟨[[]], [], none⟩) := by
  have hclean : ∀ text, ∀ t ∈ (growingWords n).termList text, DocTermsCodec.Clean t := by
    intro text t ht b hb
    obtain ⟨k, -, rfl⟩ := List.mem_map.mp ht
    rw [List.eq_of_mem_replicate hb]
    decide
  obtain ⟨db, A, hcommitted, hkeeps, hstored⟩ :=
    exists_stored_plain (growingWords n) ⟨[[]], [], none⟩ hclean (plain_growingWords n)
  refine ⟨db, A, hcommitted, hstored, fun h => ?_⟩
  have hapart := hkeeps.holds.apart
  -- no term has more than one position
  have hascending : ∀ i t, Ascending UInt32.toNat (positionsIn (A i) t) := by
    intro i t
    rcases hi : onlyFile ⟨[[]], [], none⟩ i with _ | texts
    · rw [hstored.others i hi]
      exact SortedSeq.ascending_nil
    · rcases positionsIn_cases (hapart i) t with hnil | ⟨f, hf⟩
      · rw [hnil]
        exact SortedSeq.ascending_nil
      · obtain ⟨-, rfl⟩ := mem_onlyFile hi
        rw [hf, hstored.positionsOf_eq hi]
        by_cases hslot : some (f, t) ∈ (⟨[[]], [], none⟩ : Texts).slots (growingWords n)
        · obtain ⟨j, hj⟩ := List.mem_iff_getElem?.mp hslot
          rw [Places.places_of_nodup (nodup_slots_growingWords n) hj]
          exact List.pairwise_singleton _ _
        · rw [Places.places_eq_nil hslot]
          exact SortedSeq.ascending_nil
  have hpositions : ∀ k, k ≤ n → positionsIn (A 2) (word k) = [UInt32.ofNat (1 + k)] := by
    intro k hk
    rw [hstored.positionsIn_eq (hapart 2) rfl .terms, places_growingWords hk]
    · rfl
    · intro g hg hslot
      rw [slots_growingWords] at hslot
      obtain ⟨j, -, hj⟩ := List.mem_map.mp hslot
      simp only [Option.some.injEq, Prod.mk.injEq] at hj
      exact hg hj.1.symm
  have hyields := hkeeps.yields_phrase hstored.zero hascending
    (show 2 ≤ (phraseQuery [word n, word 1]).length from le_refl 2)
  have hcontent := h.content (phraseQuery [word n, word 1]) (le_refl 2) fun sq hsq => by
    obtain ⟨t, ht, rfl⟩ := List.mem_map.mp hsq
    rcases List.mem_pair.mp ht with rfl | rfl
    · exact plain_word n
    · exact plain_word 1
  have hfound : 2 ∈ {i | ∃ N, PhraseAndIterator.Aligned N 0
      ((phraseQuery [word n, word 1]).map fun sq => positionsIn (A i) sq.term)} := by
    have haligned : PhraseAndIterator.Aligned 1 0 [positionsIn (A 2) (word n), positionsIn (A 2) (word 1)] := by
      rw [hpositions n (le_refl n), hpositions 1 hn]
      refine ⟨⟨_, List.mem_singleton_self _, ?_⟩, ⟨_, List.mem_singleton_self _, rfl⟩, trivial⟩
      rw [UInt32.toNat_ofNat', hover]
    exact ⟨1, haligned⟩
  rw [hyields.unique hcontent] at hfound
  obtain ⟨texts, htexts, hinfix⟩ := hfound
  obtain ⟨-, rfl⟩ := mem_onlyFile htexts
  rw [map_phraseQuery] at hinfix
  refine not_infix_growingWords hn ?_
  simpa [Texts.contentTerms, growingWords, fixedTokens] using hinfix

end StartOver

end Baloo
