import Baloo.UrlTree

/-!
# Write transactions

`WriteTransaction` edits the document tables of the index at once and queues what has to happen to
the postings: per term a list of operations "add this document" and "remove this document", replayed
by `commit`. The functions are those of the source, in its order; a `Q_ASSERT` of the source is a
precondition of the function and is not part of the body.

Two features of the source need a word. The queue is a hash table, so `commit` visits the terms in an
order that is not specified: it is an argument here. And `removeRecursively` recurses along the URL
tree as it stands in the database, which may be corrupted, so the recursion is cut off by fuel;
`none` means that the fuel did not suffice.
-/

namespace Baloo

/-- The tables of the index. -/
structure Database where
  /-- the documents of a term -/
  postingDb : PostingDB := ∅
  /-- the positions of a term -/
  positionDb : PositionDB := ∅
  /-- the content terms of a document -/
  docTermsDb : DocumentDB := ∅
  /-- the file name terms of a document -/
  docFilenameTermsDb : DocumentDB := ∅
  /-- the xattr terms of a document -/
  docXattrTermsDb : DocumentDB := ∅
  /-- the URL tree -/
  docUrlDb : DocumentUrlDB := {}
  /-- the times of a document -/
  docTimeDb : DocumentTimeDB := ∅
  /-- the serialized properties of a document -/
  docDataDb : OrdMap DocId QByteArray := ∅
  /-- the documents whose content waits to be indexed -/
  contentIndexingDb : DocumentIdDB := ∅
  /-- the documents whose content could not be indexed -/
  failedIdDb : DocumentIdDB := ∅
  /-- the documents of a modification time -/
  mtimeDb : MTimeDB := ∅

/-- `WriteTransaction::OperationType`. -/
inductive OperationType where
  /-- add the document to the postings of the term -/
  | AddId
  /-- remove the document from the postings of the term -/
  | RemoveId
  deriving DecidableEq

/-- `WriteTransaction::Operation`. -/
structure Operation where
  /-- add or remove -/
  type : OperationType
  /-- the document and, for an addition, its positions -/
  data : PositionInfo
  deriving DecidableEq

/-- `WriteTransaction`: the tables as the transaction sees them, and the queue. -/
structure WriteTransaction where
  /-- the tables -/
  dbis : Database := {}
  /-- the queued operations of every term, oldest first -/
  pendingOperations : OrdMap Term (List Operation) := ∅

namespace WriteTransaction

/-- `WriteTransaction::addTerms`: queue an addition for every term and return the terms. -/
def addTerms (w : WriteTransaction) (id : DocId) (terms : OrdMap Term TermData) :
    WriteTransaction × List Term :=
  ({ w with
      pendingOperations := w.pendingOperations.appendAll <| terms.toList.map fun it =>
        (it.1, { type := .AddId, data := { docId := id, positions := it.2.positions } }) },
    terms.keys)

/-- `WriteTransaction::removeTerms`: queue a removal for every term. -/
def removeTerms (w : WriteTransaction) (id : DocId) (terms : List Term) : WriteTransaction :=
  { w with
    pendingOperations := w.pendingOperations.appendAll <| terms.map fun term =>
      (term, { type := .RemoveId, data := { docId := id } }) }

/-- `WriteTransaction::replaceTerms`: queue removals of the old terms, then additions of the new. -/
def replaceTerms (w : WriteTransaction) (id : DocId) (prevTerms : List Term)
    (terms : OrdMap Term TermData) : WriteTransaction × List Term :=
  (w.removeTerms id prevTerms).addTerms id terms

/-- The first block of `WriteTransaction::addDocument`: enter the path of the document. The flag is
`false` when the function returns early. -/
def addUrl (fs : FileSystem) (db : DocumentUrlDB) (doc : Document) : DocumentUrlDB × Bool :=
  let pos := lastIndexOf slash doc.url
  let filename := mid doc.url (pos + 1)
  let db' := if 0 < pos then (db.addPath fs (left doc.url pos)).1 else db
  let parentId := if 0 < pos then doc.parentId else 0
  match db'.put doc.id parentId filename with
  | none => (db', false)
  | some db'' => (db'', true)

/-- `WriteTransaction::addDocument`. -/
def addDocument (fs : FileSystem) (w : WriteTransaction) (doc : Document) : WriteTransaction :=
  let id := doc.id
  let url := addUrl fs w.dbis.docUrlDb doc
  let w := { w with dbis := { w.dbis with docUrlDb := url.1 } }
  if url.2 then
    let (w, docTerms) := w.addTerms id doc.terms
    let (w, docXattrTerms) := w.addTerms id doc.xattrTerms
    let (w, docFileNameTerms) := w.addTerms id doc.fileNameTerms
    { w with
      dbis := { w.dbis with
        docTermsDb := w.dbis.docTermsDb.put id docTerms
        docXattrTermsDb :=
          if docXattrTerms ≠ [] then w.dbis.docXattrTermsDb.put id docXattrTerms
          else w.dbis.docXattrTermsDb
        docFilenameTermsDb :=
          if docFileNameTerms ≠ [] then w.dbis.docFilenameTermsDb.put id docFileNameTerms
          else w.dbis.docFilenameTermsDb
        contentIndexingDb :=
          if doc.contentIndexing then w.dbis.contentIndexingDb.put id
          else w.dbis.contentIndexingDb
        docTimeDb := w.dbis.docTimeDb.put id { mTime := doc.mTime, cTime := doc.cTime }
        mtimeDb := w.dbis.mtimeDb.put doc.mTime id
        docDataDb :=
          if doc.data ≠ [] then w.dbis.docDataDb.put id doc.data else w.dbis.docDataDb } }
  else w

/-- `WriteTransaction::removeDocument`. -/
def removeDocument (w : WriteTransaction) (id : DocId) : WriteTransaction :=
  let db := w.dbis
  let w := w.removeTerms id (db.docTermsDb.get id)
  let w := w.removeTerms id (db.docFilenameTermsDb.get id)
  let w :=
    if db.docXattrTermsDb.contains id then w.removeTerms id (db.docXattrTermsDb.get id) else w
  let info := db.docTimeDb.get id
  { w with
    dbis := { db with
      docTermsDb := db.docTermsDb.del id
      docXattrTermsDb := db.docXattrTermsDb.del id
      docFilenameTermsDb := db.docFilenameTermsDb.del id
      docUrlDb := db.docUrlDb.del id
      contentIndexingDb := db.contentIndexingDb.del id
      failedIdDb := db.failedIdDb.del id
      docTimeDb := db.docTimeDb.del id
      mtimeDb := db.mtimeDb.del info.mTime id
      docDataDb := db.docDataDb.del id } }

/-- `WriteTransaction::removeRecursively`, the document and everything below it. -/
def removeRecursively : ℕ → WriteTransaction → DocId → Option WriteTransaction
  | 0, _, _ => none
  | fuel + 1, w, parentId => do
    let children := w.dbis.docUrlDb.getChildren parentId
    let w ← children.foldlM
      (fun w id => if id ≠ 0 then removeRecursively fuel w id else some w) w
    some (w.removeDocument parentId)

/-- `WriteTransaction::removeRecursively` with a predicate on paths; the flag tells whether the
document itself is gone. -/
def removeRecursivelyIf (shouldDelete : QByteArray → Bool) :
    ℕ → WriteTransaction → DocId → Option (WriteTransaction × Bool)
  | 0, _, _ => none
  | fuel + 1, w, parentId =>
    if parentId ≠ 0 ∧ shouldDelete (w.dbis.docUrlDb.get parentId) = false then some (w, false)
    else do
      let children := w.dbis.docUrlDb.getChildren parentId
      let (w, isEmpty) ← children.foldlM
        (fun (s : WriteTransaction × Bool) id =>
          if id ≠ 0 then
            (removeRecursivelyIf shouldDelete fuel s.1 id).map fun r => (r.1, s.2 && r.2)
          else some s)
        (w, true)
      -- refetch
      if isEmpty ∧ w.dbis.docUrlDb.getChildren parentId = [] then
        some (w.removeDocument parentId, true)
      else some (w, false)

/-- The `DocumentTerms` block of `WriteTransaction::replaceDocument`. -/
def replaceDocumentTerms (w : WriteTransaction) (doc : Document) : WriteTransaction :=
  let prevTerms := w.dbis.docTermsDb.get doc.id
  let (w, docTerms) := w.replaceTerms doc.id prevTerms doc.terms
  if docTerms ≠ prevTerms then
    { w with dbis := { w.dbis with docTermsDb := w.dbis.docTermsDb.put doc.id docTerms } }
  else w

/-- The `XAttrTerms` block of `WriteTransaction::replaceDocument`. -/
def replaceXattrTerms (w : WriteTransaction) (doc : Document) : WriteTransaction :=
  let prevTerms := w.dbis.docXattrTermsDb.get doc.id
  let (w, docXattrTerms) := w.replaceTerms doc.id prevTerms doc.xattrTerms
  if docXattrTerms ≠ prevTerms then
    { w with
      dbis := { w.dbis with
        docXattrTermsDb :=
          if docXattrTerms ≠ [] then w.dbis.docXattrTermsDb.put doc.id docXattrTerms
          else w.dbis.docXattrTermsDb.del doc.id } }
  else w

/-- The `FileNameTerms` block of `WriteTransaction::replaceDocument`. -/
def replaceFileNameTerms (w : WriteTransaction) (doc : Document) : WriteTransaction :=
  let prevTerms := w.dbis.docFilenameTermsDb.get doc.id
  let (w, docFileNameTerms) := w.replaceTerms doc.id prevTerms doc.fileNameTerms
  if docFileNameTerms ≠ prevTerms then
    { w with
      dbis := { w.dbis with
        docFilenameTermsDb :=
          if docFileNameTerms ≠ [] then w.dbis.docFilenameTermsDb.put doc.id docFileNameTerms
          else w.dbis.docFilenameTermsDb.del doc.id } }
  else w

/-- What `WriteTransaction::replaceDocument` does to the tables that hold no terms. -/
def replaceData (db : Database) (doc : Document) (operations : DocumentOperations) : Database :=
  let id := doc.id
  let info := db.docTimeDb.get id
  { db with
    contentIndexingDb :=
      if doc.contentIndexing then db.contentIndexingDb.put id else db.contentIndexingDb
    mtimeDb :=
      if operations.documentTime ∧ info.mTime ≠ doc.mTime then
        (db.mtimeDb.del info.mTime id).put doc.mTime id
      else db.mtimeDb
    docTimeDb :=
      if operations.documentTime then
        db.docTimeDb.put id { mTime := doc.mTime, cTime := doc.cTime }
      else db.docTimeDb
    docDataDb :=
      if operations.documentData ∧ doc.data ≠ [] then db.docDataDb.put id doc.data
      else db.docDataDb
    docUrlDb :=
      if operations.documentUrl then
        let newname := mid doc.url (lastIndexOf slash doc.url + 1)
        db.docUrlDb.updateUrl id doc.parentId newname
      else db.docUrlDb }

/-- `WriteTransaction::replaceDocument`. -/
def replaceDocument (w : WriteTransaction) (doc : Document) (operations : DocumentOperations) :
    WriteTransaction :=
  let w := if operations.documentTerms then w.replaceDocumentTerms doc else w
  let w := if operations.xattrTerms then w.replaceXattrTerms doc else w
  let w := if operations.fileNameTerms then w.replaceFileNameTerms doc else w
  { w with dbis := replaceData w.dbis doc operations }

/-- The term blocks of `replaceDocument` change the three term tables only. -/
theorem replaceDocument_frame (w : WriteTransaction) (doc : Document)
    (operations : DocumentOperations) : ∃ docTermsDb docXattrTermsDb docFilenameTermsDb,
    (w.replaceDocument doc operations).dbis = replaceData
      { w.dbis with
        docTermsDb := docTermsDb, docXattrTermsDb := docXattrTermsDb
        docFilenameTermsDb := docFilenameTermsDb } doc operations := by
  have hterms : ∀ w : WriteTransaction, ∃ t, (w.replaceDocumentTerms doc).dbis =
      { w.dbis with docTermsDb := t } := fun w => by
    rw [replaceDocumentTerms]
    dsimp only
    split
    · exact ⟨_, rfl⟩
    · exact ⟨w.dbis.docTermsDb, rfl⟩
  have hxattrs : ∀ w : WriteTransaction, ∃ t, (w.replaceXattrTerms doc).dbis =
      { w.dbis with docXattrTermsDb := t } := fun w => by
    rw [replaceXattrTerms]
    dsimp only
    split
    · exact ⟨_, rfl⟩
    · exact ⟨w.dbis.docXattrTermsDb, rfl⟩
  have hnames : ∀ w : WriteTransaction, ∃ t, (w.replaceFileNameTerms doc).dbis =
      { w.dbis with docFilenameTermsDb := t } := fun w => by
    rw [replaceFileNameTerms]
    dsimp only
    split
    · exact ⟨_, rfl⟩
    · exact ⟨w.dbis.docFilenameTermsDb, rfl⟩
  -- a block that is left out changes its table to itself
  obtain ⟨t, ht⟩ : ∃ t, (if operations.documentTerms then w.replaceDocumentTerms doc else w).dbis =
      { w.dbis with docTermsDb := t } := by
    split
    · exact hterms w
    · exact ⟨w.dbis.docTermsDb, rfl⟩
  rw [replaceDocument]
  dsimp only
  generalize (if operations.documentTerms then w.replaceDocumentTerms doc else w) = w₁ at ht ⊢
  obtain ⟨x, hx⟩ : ∃ x, (if operations.xattrTerms then w₁.replaceXattrTerms doc else w₁).dbis =
      { w₁.dbis with docXattrTermsDb := x } := by
    split
    · exact hxattrs w₁
    · exact ⟨w₁.dbis.docXattrTermsDb, rfl⟩
  generalize (if operations.xattrTerms then w₁.replaceXattrTerms doc else w₁) = w₂ at hx ⊢
  obtain ⟨f, hf⟩ : ∃ f, (if operations.fileNameTerms then w₂.replaceFileNameTerms doc else w₂).dbis =
      { w₂.dbis with docFilenameTermsDb := f } := by
    split
    · exact hnames w₂
    · exact ⟨w₂.dbis.docFilenameTermsDb, rfl⟩
  exact ⟨t, x, f, by rw [hf, hx, ht]⟩

/-! ## Commit -/

/-- The local variables of the loop over the operations of one term. -/
structure CommitState where
  /-- the posting list being edited -/
  list : List DocId
  /-- has the position list been read? -/
  fetchedPositionList : Bool := false
  /-- the position list being edited -/
  positionList : List PositionInfo := []

/-- Read the position list unless that has been done; `stored` is what the table holds. -/
def CommitState.fetch (st : CommitState) (stored : List PositionInfo) : CommitState :=
  if st.fetchedPositionList then st
  else { st with fetchedPositionList := true, positionList := stored }

/-- One round of the loop over the operations of one term. -/
def commitOperation (stored : List PositionInfo) (st : CommitState) (op : Operation) :
    CommitState :=
  let id := op.data.docId
  match op.type with
  | .AddId =>
    let st := { st with list := sortedIdInsert st.list id }
    if op.data.positions ≠ [] then
      let st := st.fetch stored
      { st with positionList := sortedPositionInsert st.positionList op.data }
    else st
  | .RemoveId =>
    let st := { st with list := sortedIdRemove st.list id }
    let st := st.fetch stored
    { st with positionList := sortedPositionRemove st.positionList { docId := id } }

/-- One round of the loop over the terms. -/
def commitTerm (db : Database) (term : Term) (operations : List Operation) : Database :=
  let st := operations.foldl (commitOperation (db.positionDb.get term))
    { list := db.postingDb.get term }
  { db with
    postingDb :=
      if st.list ≠ [] then db.postingDb.put term st.list else db.postingDb.del term
    positionDb :=
      if st.fetchedPositionList then
        if st.positionList ≠ [] then db.positionDb.put term st.positionList
        else db.positionDb.del term
      else db.positionDb }

/-- `WriteTransaction::commit`, visiting the terms in the given order. -/
def commit (w : WriteTransaction) (order : List Term) : Database :=
  order.foldl (fun db term => commitTerm db term (w.pendingOperations.values term)) w.dbis

end WriteTransaction

end Baloo
