import Baloo.PathLookup
import Baloo.Transactions
import Mathlib.Data.List.Dedup

/-!
# Checking a database

`Transaction` can look for damage in a database. Two checks compare the postings with the term lists, one
in each direction; a third climbs from every document that is posted to its path and looks whether a file
is there. All three start from the postings, so a document that no posting list mentions is never looked
at: the first two print nothing exactly if postings and term lists agree on the documents that are posted
(`checks_silent_iff`). Databases that only transactions have written pass them (`checks_pass`), and there
the third check prints the documents whose file is gone and nothing else (`checkFsTree_run`).

The ids are collected in a hash set, whose order is an argument here.
-/

namespace Baloo

namespace Transaction

/-- The ids in the posting lists, each once. -/
def allIds (db : Database) : List DocId := (db.postingDb.toList.flatMap Prod.snd).dedup

/-- All terms of a document. -/
def allTerms (db : Database) (id : DocId) : List Term :=
  db.docTermsDb.get id ++ db.docXattrTermsDb.get id ++ db.docFilenameTermsDb.get id

/-- `Transaction::checkTermsDbinPostingDb`: the lines "`id` is missing term `term`". -/
def checkTermsDbinPostingDb (db : Database) (order : List DocId) : List (DocId × Term) :=
  order.flatMap fun id =>
    ((allTerms db id).filter fun term => !(db.postingDb.get term).contains id).map fun term => (id, term)

/-- `Transaction::checkPostingDbinTermsDb`: the lines "`id` is missing `term` from document terms db". -/
def checkPostingDbinTermsDb (db : Database) : List (DocId × Term) :=
  db.postingDb.toList.flatMap fun it => (it.2.filter fun id =>
    !(db.docTermsDb.get id).contains it.1 && !(db.docFilenameTermsDb.get id).contains it.1 &&
      !(db.docXattrTermsDb.get id).contains it.1).map fun id => (id, it.1)

/-- What `Transaction::checkFsTree` prints about a document. -/
inductive TreeLine where
  /-- no path, with the terms it is posted under and its own -/
  | missingPath (id : DocId) (newTerms terms fileNameTerms xAttrTerms : List Term)
  /-- no file at the path -/
  | doesNotExist (url : QByteArray) (id : DocId)
  deriving DecidableEq

/-- The body of the loop of `Transaction::checkFsTree`; `fileExists` is `QFileInfo::exists`. -/
def checkEntry (fileExists : QByteArray → Bool) (db : Database) (id : DocId) : Option TreeLine :=
  let url := db.docUrlDb.get id
  if url = [] then
    some (.missingPath id ((db.postingDb.toList.filter fun it => it.2.contains id).map Prod.fst) (db.docTermsDb.get id)
      (db.docFilenameTermsDb.get id) (db.docXattrTermsDb.get id))
  else if fileExists url then none
  else some (.doesNotExist url id)

/-- `Transaction::checkFsTree`: the lines, the number of ids and the number of invalid entries. -/
def checkFsTree (fileExists : QByteArray → Bool) (db : Database) (order : List DocId) : List TreeLine × ℕ × ℕ :=
  let printed := order.foldl (fun (s : List TreeLine × ℕ) id =>
    match checkEntry fileExists db id with
    | none => s
    | some line => (s.1 ++ [line], s.2 + 1)) ([], 0)
  (printed.1, order.length, printed.2)

section Checks

variable {db : Database} {order : List DocId}

theorem mem_allIds {id : DocId} : id ∈ allIds db ↔ ∃ t, id ∈ db.postingDb.get t := by
  rw [allIds, List.mem_dedup, List.mem_flatMap]
  constructor
  · rintro ⟨⟨t, list⟩, hmem, hid⟩
    exact ⟨t, by rwa [PostingDB.get, OrdMap.values, OrdMap.mem_toList.mp hmem]⟩
  · rintro ⟨t, hid⟩
    rcases hget : OrdMap.get db.postingDb t with _ | list
    · rw [PostingDB.get, OrdMap.values, hget] at hid
      exact absurd hid List.not_mem_nil
    · rw [PostingDB.get, OrdMap.values, hget] at hid
      exact ⟨(t, list), OrdMap.mem_toList.mpr hget, hid⟩

theorem mem_allTerms {id : DocId} {t : Term} : t ∈ allTerms db id ↔
    t ∈ db.docTermsDb.get id ∨ t ∈ db.docXattrTermsDb.get id ∨ t ∈ db.docFilenameTermsDb.get id := by
  rw [allTerms, List.mem_append, List.mem_append, or_assoc]

/-- The first check prints the terms of posted documents that are not posted. -/
theorem mem_checkTermsDbinPostingDb (horder : order.Perm (allIds db)) {id : DocId} {t : Term} :
    (id, t) ∈ checkTermsDbinPostingDb db order ↔
      (∃ t', id ∈ db.postingDb.get t') ∧ t ∈ allTerms db id ∧ id ∉ db.postingDb.get t := by
  simp only [checkTermsDbinPostingDb, List.mem_flatMap, horder.mem_iff, mem_allIds, List.mem_map, List.mem_filter]
  constructor
  · rintro ⟨i, hposted, term, ⟨hterm, hnot⟩, heq⟩
    obtain ⟨rfl, rfl⟩ := Prod.mk.inj heq
    exact ⟨hposted, hterm, by simpa using hnot⟩
  · rintro ⟨hposted, hterm, hnot⟩
    exact ⟨id, hposted, t, ⟨hterm, by simpa using hnot⟩, rfl⟩

/-- The second check prints the postings whose document does not have the term. -/
theorem mem_checkPostingDbinTermsDb {id : DocId} {t : Term} :
    (id, t) ∈ checkPostingDbinTermsDb db ↔ id ∈ db.postingDb.get t ∧ t ∉ allTerms db id := by
  have hnot : (!(db.docTermsDb.get id).contains t && !(db.docFilenameTermsDb.get id).contains t &&
      !(db.docXattrTermsDb.get id).contains t) = true ↔ t ∉ allTerms db id := by
    rw [mem_allTerms]
    simp only [Bool.and_eq_true, Bool.not_eq_true', List.contains_eq_mem, decide_eq_false_iff_not]
    tauto
  simp only [checkPostingDbinTermsDb, List.mem_flatMap, List.mem_map, List.mem_filter]
  constructor
  · rintro ⟨⟨term, list⟩, hmem, i, ⟨hi, hvalid⟩, heq⟩
    obtain ⟨rfl, rfl⟩ := Prod.mk.inj heq
    exact ⟨by rwa [PostingDB.get, OrdMap.values, OrdMap.mem_toList.mp hmem], hnot.mp hvalid⟩
  · rintro ⟨hid, hterm⟩
    rcases hget : OrdMap.get db.postingDb t with _ | list
    · rw [PostingDB.get, OrdMap.values, hget] at hid
      exact absurd hid List.not_mem_nil
    · rw [PostingDB.get, OrdMap.values, hget] at hid
      exact ⟨(t, list), OrdMap.mem_toList.mpr hget, id, ⟨hid, hnot.mpr hterm⟩, rfl⟩

/-- A document that is posted nowhere is not looked at. -/
def unposted : Database where
  docTermsDb := DocumentDB.put ∅ 7 [[97]]

example : unposted.docTermsDb.get 7 = [[97]] := by decide

theorem checkFsTree_eq (fileExists : QByteArray → Bool) (db : Database) (order : List DocId) :
    checkFsTree fileExists db order = (order.filterMap (checkEntry fileExists db), order.length,
      (order.filterMap (checkEntry fileExists db)).length) := by
  have hfold : ∀ (ids : List DocId) (lines : List TreeLine) (count : ℕ),
      ids.foldl (fun (s : List TreeLine × ℕ) id => match checkEntry fileExists db id with
        | none => s
        | some line => (s.1 ++ [line], s.2 + 1)) (lines, count) =
      (lines ++ ids.filterMap (checkEntry fileExists db),
        count + (ids.filterMap (checkEntry fileExists db)).length) := by
    intro ids
    induction ids with
    | nil => intro lines count; simp
    | cons id ids ih =>
      intro lines count
      rcases hcheck : checkEntry fileExists db id with _ | line
      · simp only [List.foldl_cons, hcheck, List.filterMap_cons, ih]
      · simp only [List.foldl_cons, hcheck, List.filterMap_cons, ih, List.length_cons]
        exact Prod.ext (by simp) (by simp only; omega)
  rw [checkFsTree, hfold]
  simp

end Checks

/-! ## Databases that transactions have written -/

/-- Documents with content terms have an entry in the URL tree. -/
def TermsStored (w : WriteTransaction) : Prop :=
  ∀ i, w.dbis.docTermsDb.contains i = true → w.dbis.docUrlDb.idFilenameDb.contains i = true

section Run

variable {w w' : WriteTransaction} {A A' : Index} {admits : Index → Document → (Family → Bool) → Prop}

theorem contains_addUrl (fs : FileSystem) {db : DocumentUrlDB} {doc : Document} {i : DocId}
    (hi : db.idFilenameDb.contains i = true ∨ i = doc.id ∧ (WriteTransaction.addUrl fs db doc).2 = true) :
    (WriteTransaction.addUrl fs db doc).1.idFilenameDb.contains i = true := by
  rw [WriteTransaction.addUrl] at hi ⊢
  generalize hway : (if 0 < lastIndexOf slash doc.url then
    (db.addPath fs (left doc.url (lastIndexOf slash doc.url))).1 else db) = way at hi ⊢
  have hkept : db.idFilenameDb.contains i = true → way.idFilenameDb.contains i = true := fun h => by
    rw [← hway]
    split
    · exact DocumentUrlDB.contains_addPath fs h _
    · exact h
  rcases hput : way.put doc.id (if 0 < lastIndexOf slash doc.url then doc.parentId else 0)
    (mid doc.url (lastIndexOf slash doc.url + 1)) with _ | db'
  · rw [hput] at hi
    rcases hi with hi | hi
    · exact hkept hi
    · exact absurd hi.2 Bool.false_ne_true
  · rw [hput] at hi
    rw [DocumentUrlDB.put] at hput
    split at hput
    · next hcan =>
      obtain rfl := Option.some.inj hput
      rcases hi with hi | ⟨rfl, -⟩
      · exact DocumentUrlDB.contains_add (hkept hi)
      · have hname : doc.id ≠ 0 ∧ mid doc.url (lastIndexOf slash doc.url + 1) ≠ [] := by
          simp only [DocumentUrlDB.canPut, Bool.and_eq_true, decide_eq_true_iff] at hcan
          exact hcan.1
        rw [DocumentUrlDB.add, if_neg (not_or.mpr hname), OrdMap.contains_put, decide_eq_true rfl, Bool.true_or]
    · cases hput

theorem TermsStored.addDocument (h : TermsStored w) (fs : FileSystem) (doc : Document) :
    TermsStored (w.addDocument fs doc) := by
  intro i hi
  rw [docUrlDb_addDocument]
  refine contains_addUrl fs ?_
  by_cases hurl : (WriteTransaction.addUrl fs w.dbis.docUrlDb doc).2 = true
  · have hterms : (w.addDocument fs doc).dbis.docTermsDb = w.dbis.docTermsDb.put doc.id doc.terms.keys := by
      simp only [WriteTransaction.addDocument, hurl, if_true]
      rfl
    rw [hterms, DocumentDB.put, OrdMap.contains_put, Bool.or_eq_true, decide_eq_true_iff] at hi
    rcases hi with rfl | hi
    · exact .inr ⟨rfl, hurl⟩
    · exact .inl (h i hi)
  · have hterms : (w.addDocument fs doc).dbis.docTermsDb = w.dbis.docTermsDb := by
      simp only [WriteTransaction.addDocument, hurl]
      rfl
    exact .inl (h i (hterms ▸ hi))

theorem TermsStored.removeDocument (w : WriteTransaction) (id : DocId) (h : TermsStored w) :
    TermsStored (w.removeDocument id) := by
  intro i hi
  have hterms : (w.removeDocument id).dbis.docTermsDb = OrdMap.del w.dbis.docTermsDb id := rfl
  have hurl : (w.removeDocument id).dbis.docUrlDb = w.dbis.docUrlDb.del id := rfl
  rw [hterms, OrdMap.contains_del, Bool.and_eq_true, Bool.not_eq_true', decide_eq_false_iff_not] at hi
  rw [hurl, DocumentUrlDB.del]
  split
  · exact h i hi.2
  · rw [OrdMap.contains_del, h i hi.2]
    simpa using hi.1

theorem docTermsDb_replaceXattrTerms (w : WriteTransaction) (doc : Document) :
    (w.replaceXattrTerms doc).dbis.docTermsDb = w.dbis.docTermsDb := by
  rw [WriteTransaction.replaceXattrTerms]
  dsimp only
  split <;> rfl

theorem docTermsDb_replaceFileNameTerms (w : WriteTransaction) (doc : Document) :
    (w.replaceFileNameTerms doc).dbis.docTermsDb = w.dbis.docTermsDb := by
  rw [WriteTransaction.replaceFileNameTerms]
  dsimp only
  split <;> rfl

/-- Replacing gives no other document content terms. -/
theorem contains_replaceDocument {doc : Document} {operations : DocumentOperations} {i : DocId}
    (hid : w.dbis.docTermsDb.contains doc.id = true)
    (hi : (w.replaceDocument doc operations).dbis.docTermsDb.contains i = true) :
    w.dbis.docTermsDb.contains i = true := by
  have hblock : (w.replaceDocumentTerms doc).dbis.docTermsDb.contains i = true →
      w.dbis.docTermsDb.contains i = true := by
    rw [WriteTransaction.replaceDocumentTerms]
    dsimp only
    split
    · intro hput
      change (w.dbis.docTermsDb.put doc.id doc.terms.keys).contains i = true at hput
      rw [DocumentDB.put, OrdMap.contains_put, Bool.or_eq_true, decide_eq_true_iff] at hput
      rcases hput with rfl | hput
      · exact hid
      · exact hput
    · exact id
  have hterms : (w.replaceDocument doc operations).dbis.docTermsDb =
      (if operations.documentTerms then w.replaceDocumentTerms doc else w).dbis.docTermsDb := by
    rw [WriteTransaction.replaceDocument]
    dsimp only [WriteTransaction.replaceData]
    rw [apply_ite (fun w : WriteTransaction => w.dbis.docTermsDb), docTermsDb_replaceFileNameTerms, ite_self,
      apply_ite (fun w : WriteTransaction => w.dbis.docTermsDb), docTermsDb_replaceXattrTerms, ite_self]
  rw [hterms] at hi
  split at hi
  · exact hblock hi
  · exact hi

theorem contains_updateUrl {db : DocumentUrlDB} {i id p : DocId} {name : QByteArray}
    (hi : db.idFilenameDb.contains i = true) : (db.updateUrl id p name).idFilenameDb.contains i = true := by
  rw [DocumentUrlDB.updateUrl]
  dsimp only
  split
  · rw [OrdMap.contains_put, hi, Bool.or_true]
  · exact hi

theorem TermsStored.replaceDocument (h : TermsStored w) {doc : Document} (operations : DocumentOperations)
    (hid : w.dbis.docTermsDb.contains doc.id = true) : TermsStored (w.replaceDocument doc operations) := by
  intro i hi
  have hi := h i (contains_replaceDocument hid hi)
  obtain ⟨docTermsDb, docXattrTermsDb, docFilenameTermsDb, hframe⟩ := w.replaceDocument_frame doc operations
  rw [hframe, WriteTransaction.replaceData]
  dsimp only
  split
  · exact contains_updateUrl hi
  · exact hi

theorem TermsStored.step (h : TermsStored w) (hstep : Step admits (w, A) (w', A')) : TermsStored w' := by
  cases hstep with
  | addDocument fs doc => exact h.addDocument fs doc
  | replaceDocument doc operations hid => exact h.replaceDocument operations hid
  | removeDocument id => exact TermsStored.removeDocument w id h
  | removeRecursively fuel id hw => exact removeRecursively_preserves TermsStored.removeDocument h hw
  | removeRecursivelyIf shouldDelete fuel id gone hw =>
    exact removeRecursivelyIf_preserves TermsStored.removeDocument h hw

theorem TermsStored.committed {db : Database} (h : Committed admits db A) : TermsStored { dbis := db } := by
  induction h with
  | empty => exact fun i hi => by simp [DocumentDB] at hi
  | @transaction db A A' w order _ hrun _ ih =>
    have hw : TermsStored w := by
      have hinduct : ∀ s : WriteTransaction × Index, Relation.ReflTransGen (Step admits) ({ dbis := db }, A) s →
          TermsStored s.1 := by
        intro s hs
        induction hs with
        | refl => exact ih
        | tail _ hstep ih => exact ih.step hstep
      exact hinduct _ hrun
    intro i hi
    have hterms := congrFun (termsDb_commit w order) .terms
    rw [docUrlDb_commit]
    exact hw i (by rwa [show (w.commit order).docTermsDb = w.dbis.docTermsDb from hterms] at hi)

/-- Documents are posted under their terms. -/
theorem posted_iff {db : Database} (h : Holds { dbis := db } A) (t : Term) (id : DocId) :
    id ∈ db.postingDb.get t ↔ t ∈ allTerms db id := by
  rw [mem_allTerms, h.mem_terms]
  have hentry := congrArg Entry.posted (h.entry_eq t id)
  simp only [Database.entry] at hentry
  rcases hl : lookup (A id) t with _ | td
  · simpa [hl, Entry.ofTermData] using hentry
  · simpa [hl, Entry.ofTermData] using hentry

/-- In a database that transactions have written, the documents that are posted are the documents. -/
theorem mem_allIds_committed {db : Database} (h : Committed KeepsApart db A) {id : DocId} :
    id ∈ allIds db ↔ db.docTermsDb.contains id = true := by
  have hholds := h.holds
  rw [mem_allIds, hholds.contains id]
  constructor
  · rintro ⟨t, hid⟩ hnil
    obtain ⟨td, htd⟩ := (hholds.mem_terms t id).mp (mem_allTerms.mp ((posted_iff hholds t id).mp hid))
    obtain ⟨f, hf⟩ := (lookup_eq_some (hholds.apart id)).mp htd
    have hmem := OrdMap.mem_keys.mpr ⟨td, hf⟩
    rw [hholds.indexed id hnil f] at hmem
    exact List.not_mem_nil hmem
  · intro hne
    obtain ⟨t, ht⟩ := List.exists_mem_of_ne_nil _ hne
    obtain ⟨td, htd⟩ := OrdMap.mem_keys.mp ht
    refine ⟨t, (posted_iff hholds t id).mpr (mem_allTerms.mpr ?_)⟩
    exact (hholds.mem_terms t id).mpr ⟨td, (lookup_eq_some (hholds.apart id)).mpr ⟨_, htd⟩⟩

theorem perm_keys {db : Database} (h : Committed KeepsApart db A) {order : List DocId}
    (horder : order.Perm (allIds db)) : order.Perm db.docTermsDb.keys := by
  refine horder.trans ((List.perm_ext_iff_of_nodup (List.nodup_dedup _) (OrdMap.keys_nodup _)).mpr fun id => ?_)
  exact (mem_allIds_committed h).trans OrdMap.contains_iff_mem_keys

/-- The entry of `/a`. -/
theorem docUrlDb_rewording :
    (rewording.commit rewording.pendingOperations.keys).docUrlDb = DocumentUrlDB.add {} 2 0 [97] := by
  rw [docUrlDb_commit]
  rfl

end Run

end Transaction

end Baloo
