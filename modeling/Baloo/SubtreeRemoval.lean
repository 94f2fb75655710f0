import Baloo.MTimeIndex
import Baloo.TermGenerator

/-!
# What the removal of a directory leaves

Most tables of the index have one value for a document: together these values are its record. A removal
empties the records of the document and of everything below it, exactly; the records of other documents
stay, and so do their postings and the times they are listed under (`UrlForest.forgets`).

The posting tables and the table of modification times are keyed the other way round. They do not mention a
document without a record, as long as they say no more than the records do (`Agrees`, `PairsRecorded`);
this, too, a removal preserves. So the removed documents are in no table (`absent_of_record`).
-/

namespace Baloo

open Forest (Above)
open SortedSeq (Ascending)

/-! ## Records -/

/-- What the tables hold for one document. -/
structure Record where
  /-- its directory and its name -/
  place : Option FilePath := none
  /-- its encoded terms -/
  terms : Family → Option QByteArray := fun _ => none
  /-- its times -/
  times : Option TimeInfo := none
  /-- its properties -/
  data : Option QByteArray := none
  /-- does its content wait to be indexed? -/
  contentIndexing : Bool := false
  /-- could its content not be indexed? -/
  failed : Bool := false

/-- The record of a document. -/
def Database.record (db : Database) (i : DocId) : Record where
  place := db.docUrlDb.idFilenameDb.get i
  terms f := OrdMap.get (db.termsDb f) i
  times := OrdMap.get db.docTimeDb i
  data := OrdMap.get db.docDataDb i
  contentIndexing := db.contentIndexingDb.contains i
  failed := db.failedIdDb.contains i

section Records

variable {w w' : WriteTransaction} {id i : DocId}

theorem termsDb_removeDocument (w : WriteTransaction) (id : DocId) (f : Family) :
    (w.removeDocument id).dbis.termsDb f = (w.dbis.termsDb f).del id := by
  cases f <;> rfl

theorem record_removeDocument (hid : id ≠ 0) (i : DocId) :
    (w.removeDocument id).dbis.record i = if i = id then {} else w.dbis.record i := by
  have hplace : (w.removeDocument id).dbis.docUrlDb = w.dbis.docUrlDb.del id := rfl
  simp only [Database.record, termsDb_removeDocument, hplace, DocumentUrlDB.idFilenameDb_del]
  by_cases hi : i = id
  · simp [hi, hid, WriteTransaction.removeDocument]
  · simp [hi, WriteTransaction.removeDocument]

theorem record_commit (w : WriteTransaction) (order : List Term) (i : DocId) :
    (w.commit order).record i = w.dbis.record i := by
  simp only [Database.record, termsDb_commit]
  rw [w.commit_eq order]

theorem Database.parent_eq_place (db : Database) (i : DocId) :
    db.docUrlDb.parent i = (db.record i).place.map FilePath.parentId := rfl

end Records

/-! ## Documents are forgotten -/

/-- The documents in `S` lose their records, the others keep what they have. -/
structure Forgets (S : Set DocId) (w w' : WriteTransaction) : Prop where
  /-- their records are empty -/
  gone : ∀ i ∈ S, w'.dbis.record i = {}
  /-- other records stay -/
  record : ∀ i, i ∉ S → w'.dbis.record i = w.dbis.record i
  /-- other documents keep their postings and positions -/
  entry : ∀ i, i ∉ S → ∀ t, w'.entry t i = w.entry t i
  /-- other documents stay listed under their times -/
  listed : ∀ i, i ∉ S → ∀ m, i ∈ OrdMap.values w'.dbis.mtimeDb m ↔ i ∈ OrdMap.values w.dbis.mtimeDb m

section Forgets

variable {S S' : Set DocId} {w w' w'' : WriteTransaction} {id : DocId}

theorem Forgets.refl (w : WriteTransaction) : Forgets ∅ w w :=
  ⟨fun _ hi => absurd hi (Set.notMem_empty _), fun _ _ => rfl, fun _ _ _ => rfl, fun _ _ _ => Iff.rfl⟩

theorem Forgets.trans (h : Forgets S w w') (h' : Forgets S' w' w'') : Forgets (S ∪ S') w w'' := by
  have hnot : ∀ {i}, i ∉ S ∪ S' → i ∉ S ∧ i ∉ S' := fun hi => not_or.mp hi
  refine ⟨fun i hi => ?_, fun i hi => ?_, fun i hi t => ?_, fun i hi m => ?_⟩
  · by_cases hS' : i ∈ S'
    · exact h'.gone i hS'
    · rw [h'.record i hS']
      exact h.gone i (hi.resolve_right hS')
  · exact (h'.record i (hnot hi).2).trans (h.record i (hnot hi).1)
  · exact (h'.entry i (hnot hi).2 t).trans (h.entry i (hnot hi).1 t)
  · exact (h'.listed i (hnot hi).2 m).trans (h.listed i (hnot hi).1 m)

theorem forgets_removeDocument (w : WriteTransaction) (hid : id ≠ 0) :
    Forgets {id} w (w.removeDocument id) := by
  refine ⟨fun i hi => ?_, fun i hi => ?_, fun i hi t => ?_, fun i hi m => ?_⟩
  · rw [record_removeDocument hid]
    exact if_pos hi
  · rw [record_removeDocument hid]
    exact if_neg hi
  · rw [entry_removeDocument, if_neg fun h => hi h.1]
  · change i ∈ OrdMap.values (w.dbis.mtimeDb.del _ id) m ↔ _
    rw [MTimeDB.values_del]
    split
    · next hm =>
      rw [hm, sortedIdRemove, SortedSeq.erase]
      apply List.mem_eraseP_of_neg
      simpa using hi
    · exact Iff.rfl

theorem Forgets.shrinks (h : Forgets S w w') : Shrinks w w' := by
  intro i p hp
  by_cases hi : i ∈ S
  · rw [Database.parent_eq_place, h.gone i hi] at hp
    cases hp
  · rwa [Database.parent_eq_place, h.record i hi] at hp

/-- Some documents at and below `id` are forgotten, and nothing else. -/
def ForgetsBelow (id : DocId) (w w' : WriteTransaction) : Prop :=
  ∃ S, (∀ i ∈ S, Above w.dbis.docUrlDb.parent id i) ∧ Forgets S w w'

theorem ForgetsBelow.refl (id : DocId) (w : WriteTransaction) : ForgetsBelow id w w :=
  ⟨∅, fun _ hi => absurd hi (Set.notMem_empty _), Forgets.refl w⟩

/-- What is below an entry of the directory is below the directory. -/
theorem ForgetsBelow.child {c : DocId} (h : ForgetsBelow id w w') (hc : w.dbis.docUrlDb.parent c = some id)
    (h' : ForgetsBelow c w' w'') : ForgetsBelow id w w'' := by
  obtain ⟨S, hbelow, hS⟩ := h
  obtain ⟨S', hbelow', hS'⟩ := h'
  refine ⟨S ∪ S', fun i hi => ?_, hS.trans hS'⟩
  rcases hi with hi | hi
  · exact hbelow i hi
  · have hchild : Above w.dbis.docUrlDb.parent c i :=
      Relation.ReflTransGen.mono (fun x p hx => hS.shrinks x p hx) _ _ (hbelow' i hi)
    exact Forest.Above.trans (.single hc) hchild

/-- The directory itself. -/
theorem ForgetsBelow.self (h : ForgetsBelow id w w') (hid : id ≠ 0) : ∃ S, id ∈ S ∧
    (∀ i ∈ S, Above w.dbis.docUrlDb.parent id i) ∧ Forgets S w (w'.removeDocument id) := by
  obtain ⟨S, hbelow, hS⟩ := h
  refine ⟨S ∪ {id}, .inr rfl, fun i hi => ?_, hS.trans (forgets_removeDocument w' hid)⟩
  rcases hi with hi | rfl
  · exact hbelow i hi
  · exact .refl

/-- A removal forgets documents at and below the directory, the directory among them. -/
theorem UrlForest.exists_forgets {fuel : ℕ} (h : UrlForest w) (hid : id ≠ 0)
    (hr : w.removeRecursively fuel id = some w') :
    ∃ S, id ∈ S ∧ (∀ i ∈ S, Above w.dbis.docUrlDb.parent id i) ∧ Forgets S w w' := by
  induction fuel generalizing w w' id with
  | zero => cases hr
  | succ fuel ih =>
    rw [WriteTransaction.removeRecursively, Option.bind_eq_bind, Option.bind_eq_some_iff] at hr
    obtain ⟨v, hchildren, hr⟩ := hr
    obtain rfl := Option.some.inj hr
    obtain ⟨-, hv⟩ : UrlForest v ∧ ForgetsBelow id w v := Induction.foldlM_preserves
      (P := fun v => UrlForest v ∧ ForgetsBelow id w v)
      (fun v c v' hc hv hstep => by
        have hparent := (h.listed c id).mp hc
        rw [if_pos (h.ne_zero hparent)] at hstep
        obtain ⟨S, -, hS⟩ := ih hv.1 (h.ne_zero hparent) hstep
        exact ⟨(hv.1.removeRecursively hstep).1, hv.2.child hparent ⟨S, hS⟩⟩)
      ⟨h, ForgetsBelow.refl id w⟩ hchildren
    exact hv.self hid

/-- **A removal forgets the directory and everything below it, and nothing else.** -/
theorem UrlForest.forgets {fuel : ℕ} (h : UrlForest w) (hid : id ≠ 0)
    (hr : w.removeRecursively fuel id = some w') :
    Forgets {i | Above w.dbis.docUrlDb.parent id i} w w' := by
  obtain ⟨S, hself, hbelow, hS⟩ := h.exists_forgets hid hr
  obtain ⟨hw', -, -⟩ := h.removeRecursively hr
  -- an entry that stayed would still be below the directory
  have hall : ∀ i, Above w.dbis.docUrlDb.parent id i → i ∈ S := by
    intro i habove
    induction habove using Relation.ReflTransGen.head_induction_on with
    | refl => exact hself
    | @head i p hp habove ih =>
      by_contra hi
      have hparent : w'.dbis.docUrlDb.parent i = some p := by
        rw [Database.parent_eq_place, hS.record i hi]
        exact hp
      have hnone : w'.dbis.docUrlDb.parent p = none := by rw [Database.parent_eq_place, hS.gone p ih, Option.map_none]
      rcases (hw'.rooted i p hparent).above (.single hparent) hw'.zero with hzero | ⟨q, hq⟩
      · rw [hzero] at habove
        rcases Relation.ReflTransGen.cases_head habove with heq | ⟨q, hq, -⟩
        · exact hid heq.symm
        · rw [h.zero] at hq
          cases hq
      · rw [hnone] at hq
        cases hq
  have heq : {i | Above w.dbis.docUrlDb.parent id i} = S := Set.ext fun i => ⟨hall i, hbelow i⟩
  rw [heq]
  exact hS

end Forgets

/-! ## Tables that are keyed the other way round -/

/-- A commit would leave documents posted under exactly their terms, and positions of posted terms only. -/
structure Agrees (w : WriteTransaction) : Prop where
  /-- a document is posted under its terms -/
  posted : ∀ t i, (w.entry t i).posted = true ↔ ∃ f, t ∈ (w.dbis.termsDb f).get i
  /-- there are no other positions -/
  positions : ∀ t i, (w.entry t i).posted = false → (w.entry t i).positions = none
  /-- the stored lists are in order -/
  sorted : w.dbis.ListsSorted

/-- A commit would leave documents posted under exactly their terms, and positions of posted terms only.
The prefix of a term tells whether it is a term of a file name. -/
structure TermsAgree (w : WriteTransaction) : Prop where
  /-- a document is posted under its terms -/
  posted : ∀ t i, (w.entry t i).posted = true ↔ ∃ f, t ∈ (w.dbis.termsDb f).get i
  /-- there are no other positions -/
  positions : ∀ t i, (w.entry t i).posted = false → (w.entry t i).positions = none
  /-- the prefix is that of the family -/
  fileName : ∀ t i f, t ∈ (w.dbis.termsDb f).get i →
    (f = .fileNameTerms ↔ TermGenerator.fileNamePrefix <+: t)
  /-- the stored lists are in order -/
  sorted : w.dbis.ListsSorted

/-- The pairs of `MTimeDB` are those of records. -/
structure PairsRecorded (w : WriteTransaction) : Prop where
  /-- a document is listed under the time of its record -/
  pair : ∀ m i, i ∈ OrdMap.values w.dbis.mtimeDb m →
    ∃ info, OrdMap.get w.dbis.docTimeDb i = some info ∧ info.mTime = m
  /-- the lists are ascending -/
  sorted : w.dbis.mtimeDb.Sorted

/-- The postings agree with the documents. -/
def PostingsAgree (db : Database) : Prop :=
  (∀ t i, i ∈ db.postingDb.get t ↔ ∃ f, t ∈ (db.termsDb f).get i) ∧ db.ListsSorted

section Agreement

variable {w w' : WriteTransaction} {id : DocId}

theorem Agrees.postingsAgree {db : Database} (h : Agrees { dbis := db }) : PostingsAgree db :=
  ⟨fun t i => decide_eq_true_iff.symm.trans (h.posted t i), h.sorted⟩

/-- Only the queue and the tables of terms, postings and positions matter. -/
theorem Agrees.congr (h : Agrees w) (hqueue : w'.pendingOperations = w.pendingOperations)
    (hterms : w'.dbis.termsDb = w.dbis.termsDb) (hposting : w'.dbis.postingDb = w.dbis.postingDb)
    (hposition : w'.dbis.positionDb = w.dbis.positionDb) : Agrees w' := by
  have hentry : w'.entry = w.entry := by
    funext t i
    rw [WriteTransaction.entry, WriteTransaction.entry, hqueue, Database.entry, Database.entry, hposting,
      hposition]
  refine ⟨fun t i => ?_, fun t i => ?_, ?_⟩
  · rw [hentry, hterms]
    exact h.posted t i
  · rw [hentry]
    exact h.positions t i
  · exact ⟨hposting ▸ h.sorted.posting, hposition ▸ h.sorted.position⟩

theorem get_termsDb_removeDocument (w : WriteTransaction) (id : DocId) (f : Family) (i : DocId) :
    ((w.removeDocument id).dbis.termsDb f).get i = if i = id then [] else (w.dbis.termsDb f).get i := by
  rw [termsDb_removeDocument, DocumentDB.get, OrdMap.get_del]
  by_cases hi : i = id
  · rw [if_pos hi, if_pos hi]
  · rw [if_neg hi, if_neg hi, DocumentDB.get]

/-- A removed document is posted nowhere. -/
theorem Agrees.entry_removeDocument_self (h : Agrees w) (id : DocId) (t : Term) :
    (w.removeDocument id).entry t id = { posted := false, positions := none } := by
  rw [entry_removeDocument]
  split
  · rfl
  · next hno =>
    -- under other terms there was nothing
    have hposted : (w.entry t id).posted = false := by
      rw [Bool.eq_false_iff]
      intro hposted
      obtain ⟨f, hf⟩ := (h.posted t id).mp hposted
      apply hno
      cases f with
      | terms => exact ⟨rfl, .inl hf⟩
      | xattrTerms => exact ⟨rfl, .inr (.inr hf)⟩
      | fileNameTerms => exact ⟨rfl, .inr (.inl hf)⟩
    exact congrArg₂ Entry.mk hposted (h.positions t id hposted)

theorem entry_removeDocument_of_ne (w : WriteTransaction) {i : DocId} (hi : i ≠ id) (t : Term) :
    (w.removeDocument id).entry t i = w.entry t i := by
  rw [entry_removeDocument, if_neg fun hid => hi hid.1]

theorem Agrees.removeDocument (w : WriteTransaction) (id : DocId) (h : Agrees w) :
    Agrees (w.removeDocument id) := by
  refine ⟨fun t i => ?_, fun t i hposted => ?_, ⟨h.sorted.posting, h.sorted.position⟩⟩
  · simp only [get_termsDb_removeDocument]
    by_cases hi : i = id
    · simp [hi, h.entry_removeDocument_self]
    · simp only [entry_removeDocument_of_ne w hi, hi, if_false]
      exact h.posted t i
  · by_cases hi : i = id
    · rw [hi, h.entry_removeDocument_self]
    · rw [entry_removeDocument_of_ne w hi] at hposted ⊢
      exact h.positions t i hposted

/-- A commit writes the entries into the tables. -/
theorem Agrees.commit (h : Agrees w) {order : List Term} (horder : order.Perm w.pendingOperations.keys) :
    Agrees { dbis := w.commit order } := by
  have hentry : ∀ t i, WriteTransaction.entry { dbis := w.commit order } t i = w.entry t i :=
    WriteTransaction.entry_commit h.sorted horder
  refine ⟨fun t i => ?_, fun t i => ?_, WriteTransaction.listsSorted_commit h.sorted horder⟩
  · rw [hentry, termsDb_commit]
    exact h.posted t i
  · rw [hentry]
    exact h.positions t i

theorem TermsAgree.agrees (h : TermsAgree w) : Agrees w := ⟨h.posted, h.positions, h.sorted⟩

theorem Agrees.termsAgree (h : Agrees w) (hname : ∀ t i f, t ∈ (w.dbis.termsDb f).get i →
    (f = .fileNameTerms ↔ TermGenerator.fileNamePrefix <+: t)) : TermsAgree w :=
  ⟨h.posted, h.positions, hname, h.sorted⟩

theorem TermsAgree.congr (h : TermsAgree w) (hqueue : w'.pendingOperations = w.pendingOperations)
    (hterms : w'.dbis.termsDb = w.dbis.termsDb) (hposting : w'.dbis.postingDb = w.dbis.postingDb)
    (hposition : w'.dbis.positionDb = w.dbis.positionDb) : TermsAgree w' :=
  (h.agrees.congr hqueue hterms hposting hposition).termsAgree fun t i f => by
    rw [hterms]
    exact h.fileName t i f

theorem TermsAgree.removeDocument (w : WriteTransaction) (id : DocId) (h : TermsAgree w) :
    TermsAgree (w.removeDocument id) := by
  apply (h.agrees.removeDocument w id).termsAgree
  intro t i f ht
  rw [get_termsDb_removeDocument] at ht
  split at ht
  · exact absurd ht List.not_mem_nil
  · exact h.fileName t i f ht

theorem TermsAgree.commit (h : TermsAgree w) {order : List Term} (horder : order.Perm w.pendingOperations.keys) :
    TermsAgree { dbis := w.commit order } := by
  apply (h.agrees.commit horder).termsAgree
  intro t i f
  rw [termsDb_commit]
  exact h.fileName t i f

theorem PairsRecorded.removeDocument (w : WriteTransaction) (id : DocId) (h : PairsRecorded w) :
    PairsRecorded (w.removeDocument id) := by
  refine ⟨fun m i hi => ?_, h.sorted.del _ _⟩
  obtain ⟨hnot, hmem⟩ := (MTimeDB.mem_del h.sorted).mp hi
  obtain ⟨info, hinfo, rfl⟩ := h.pair m i hmem
  refine ⟨info, ?_, rfl⟩
  change OrdMap.get (w.dbis.docTimeDb.del id) i = some info
  rw [OrdMap.get_del, if_neg ?_]
  · exact hinfo
  · rintro rfl
    exact hnot ⟨by rw [DocumentTimeDB.get, hinfo, Option.getD_some], rfl⟩

end Agreement

/-! ## In no table -/

/-- No table mentions the document. -/
structure Absent (db : Database) (i : DocId) : Prop where
  /-- it has no record -/
  record : db.record i = {}
  /-- it is in no directory -/
  listed : ∀ p, i ∉ db.docUrlDb.idTreeDb.get p
  /-- it is no directory -/
  directory : OrdMap.get db.docUrlDb.idTreeDb i = none
  /-- it is not posted -/
  posting : ∀ t, i ∉ db.postingDb.get t
  /-- it has no positions -/
  position : ∀ t, ∀ info ∈ db.positionDb.get t, info.docId ≠ i
  /-- it is listed under no time -/
  mtime : ∀ m, i ∉ OrdMap.values db.mtimeDb m

/-- A document without a record is in no table. -/
theorem absent_of_record {db : Database} {i : DocId} (hforest : db.docUrlDb.IsForest)
    (hterms : Agrees { dbis := db }) (htimes : PairsRecorded { dbis := db }) (hi : i ≠ 0)
    (hrecord : db.record i = {}) : Absent db i := by
  have hparent : db.docUrlDb.parent i = none := by rw [Database.parent_eq_place, hrecord, Option.map_none]
  have hposted : ∀ t, i ∉ db.postingDb.get t := by
    intro t ht
    obtain ⟨f, hf⟩ := (hterms.postingsAgree.1 t i).mp ht
    have hnone : OrdMap.get (db.termsDb f) i = none := congrArg (fun r => r.terms f) hrecord
    rw [DocumentDB.get, hnone] at hf
    exact absurd hf List.not_mem_nil
  refine ⟨hrecord, fun p hp => ?_, ?_, hposted, fun t info hinfo heq => ?_, fun m hm => ?_⟩
  · have hlisted := (hforest.listed i p).mp hp
    rw [hparent] at hlisted
    cases hlisted
  · rcases hget : OrdMap.get db.docUrlDb.idTreeDb i with _ | list
    · rfl
    · -- a document in the list would be rooted, and then so would be its directory
      rcases list with _ | ⟨c, list⟩
      · exact absurd hget (hforest.nonempty i)
      · have hc : c ∈ db.docUrlDb.idTreeDb.get i := by
          rw [IdTreeDB.get, OrdMap.values, hget]
          exact List.mem_cons_self
        have hclimb := (hforest.listed c i).mp hc
        rcases (hforest.rooted c i hclimb).above (.single hclimb) hforest.zero with hzero | ⟨q, hq⟩
        · exact absurd hzero hi
        · rw [hparent] at hq
          cases hq
  · have hfind := SortedSeq.find_of_mem (hterms.sorted.position_get t).1 hinfo
    have hnone := hterms.positions t i (decide_eq_false (hposted t))
    change Option.map _ (SortedSeq.find PositionInfo.docId i (db.positionDb.get t)) = none at hnone
    rw [← heq, hfind] at hnone
    cases hnone
  · obtain ⟨info, hinfo, -⟩ := htimes.pair m i hm
    have hnone : OrdMap.get db.docTimeDb i = none := congrArg Record.times hrecord
    exact absurd (hinfo.symm.trans hnone) (Option.some_ne_none info)

end Baloo
