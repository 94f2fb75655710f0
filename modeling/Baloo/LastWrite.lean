import Baloo.ExtractorRuns
import Baloo.Lib.Transition
import Baloo.RecursiveRemoval
import Baloo.Settling

/-!
# The last write is indexed

A file is written, and every write is followed by an event. At some time the event leads to a check by
`ModifiedFileIndexer`, which compares the times of the file with the record and puts the file into the content
queue if they differ. At some time the extractor reads a file of the queue, and later it writes what it has
read into the index and takes the file out of the queue.

The record has whole seconds, so a write in a second that is recorded already is not seen, unless the file
still waits to be read (`second_write_not_seen`). A check that finds a change while the extractor holds an
older result marks a file that is marked already, and the extractor will drop the mark. Without these two, and
as long as the file has contents that are extracted, the last write is the one that is indexed
(`last_write_indexed`).
-/

namespace Baloo

/-- The file has been written at a time in nanoseconds. -/
def Snapshot.write (fs : Snapshot) (path : QByteArray) (size : ℕ) (time : ℤ) : Snapshot :=
  { fs with
    stat := Function.update fs.stat path
      { fs.stat path with size := size, mTime := time / 10 ^ 9, cTime := time / 10 ^ 9 } }

/-- The entry that the extractor is going to look at. -/
def App.next (app : App) : Option BatchInfo :=
  match app.scheduled with
  | .processNextFile => app.batch.find? fun info => info.state.isPending
  | _ => none

/-- What a call of the extractor reads of the document `id`. -/
def App.reads (env : Surroundings) (app : App) (id : DocId) : List Document :=
  match app.next with
  | none => []
  | some info =>
    match (App.index env info).1.state with
    | .succeeded result => if info.id = id then [result] else []
    | _ => []

/-- The terms stored for the document are those of the result. -/
def ShowsTerms (db : Database) (id : DocId) (result : Document) : Prop :=
  OrdMap.get db.docTermsDb id = some (DocTermsCodec.encode result.terms.keys) ∨
    db.docTermsDb.get id = result.terms.keys

/-- A file, the index and the extractor. -/
structure WatchedFile where
  /-- the file system -/
  disk : Snapshot
  /-- the index -/
  db : Database
  /-- the extractor -/
  app : App
  /-- how often the file has been written -/
  writes : ℕ := 0
  /-- the events and list entries for the file that `ModifiedFileIndexer` has not processed -/
  waiting : ℕ := 0
  /-- what the extractor has read of the file, and how often it had been written then -/
  reads : List (ℕ × Document) := []

/-- What happens. -/
inductive FileEvent where
  /-- the file is written, and there is an event for it -/
  | write (size : ℕ) (time : ℤ)
  /-- `ModifiedFileIndexer` processes the file; `left` events have come too late for it -/
  | check (left : ℕ) (order : List Term)
  /-- the extractor is given a batch -/
  | batch (ids : List DocId)
  /-- the extractor runs -/
  | extract (c : Call)

namespace WatchedFile

variable (lib : Libraries) (config : FileIndexerConfig) (path : QByteArray) (id : DocId)

/-- One event. -/
def step (s : WatchedFile) : FileEvent → WatchedFile
  | .write size time =>
    { s with disk := s.disk.write path size time, writes := s.writes + 1, waiting := s.waiting + 1 }
  | .check left order =>
    { s with
      db := (ModifiedFileIndexer.visit lib config false s.disk { dbis := s.db } path).commit order
      waiting := left }
  | .batch ids => { s with app := { s.app with scheduled := .slotNewBatch ids } }
  | .extract c =>
    { s with
      app := (s.app.run c s.db).1
      db := (s.app.run c s.db).2.1
      reads := s.reads ++ (s.app.reads c.env id).map fun result => (s.writes, result) }

/-- When an event can happen: a check has something to process, a batch is sent to an extractor that has
done the last one, and the extractor sees the file as it is. -/
def Possible (s : WatchedFile) : FileEvent → Prop
  | .write _ _ => True
  | .check left _ => left < s.waiting
  | .batch _ => s.app.scheduled = .nothing
  | .extract c => c.env.fs = s.disk ∧ c.onlyBasicIndexing = false

/-- The result has been read since the last write. -/
def Current (s : WatchedFile) (result : Document) : Prop := (s.writes, result) ∈ s.reads

/-- The extractor holds no result for the file, or only such that have been read since the last write. -/
def HoldsCurrent (s : WatchedFile) : Prop :=
  ∀ info ∈ s.app.batch, info.id = id → ∀ result, info.state = .succeeded result → s.Current result

/-- The file waits in the content queue. -/
def Queued (s : WatchedFile) : Prop := s.db.contentIndexingDb.contains id = true

/-- What is asked of an event. A write leaves something in the file, and it does not fall into the second
that is recorded, unless the file waits in the queue and has not been read. A check finds no change while the
extractor holds an older result. The extractor finds something to extract. -/
def Noticed (s : WatchedFile) : FileEvent → Prop
  | .write size time => 0 < size ∧ (¬ UpToDate s.db ((s.disk.write path size time).stat path) id ∨
      s.Queued id ∧ ∀ info ∈ s.app.batch, info.id = id → info.state.isSucceeded = false)
  | .check _ _ => UpToDate s.db (s.disk.stat path) id ∨ s.HoldsCurrent id
  | .batch _ => True
  | .extract c => ∀ info, s.app.next = some info → info.id = id →
      (App.index c.env info).1.state.isSucceeded = true

end WatchedFile

/-- The file is indexed: it is a file with a name that the configuration wants, in a directory other than the
root. -/
structure IndexedFile (lib : Libraries) (config : FileIndexerConfig) (path : QByteArray) (id : DocId)
    (fs : Snapshot) : Prop where
  lstat : fs.lstat path = some id
  isDir : (fs.stat path).isDir = false
  isSymLink : (fs.stat path).isSymLink = false
  accepts : config.shouldFileBeIndexed (decodedName lib path) = true
  directory : HasDirectory fs path

variable {lib : Libraries} {config : FileIndexerConfig} {path : QByteArray} {id : DocId}

theorem IndexedFile.write {fs : Snapshot} (h : IndexedFile lib config path id fs) (size : ℕ) (time : ℤ) :
    IndexedFile lib config path id (fs.write path size time) where
  lstat := h.lstat
  isDir := by simpa [Snapshot.write] using h.isDir
  isSymLink := by simpa [Snapshot.write] using h.isSymLink
  accepts := h.accepts
  directory := h.directory

/-! ## The check -/

/-- The basic indexer marks a file that is not empty. -/
theorem BasicIndexingJob.contentIndexing_index {fs : Snapshot} {mimetype : List QChar} {doc : Document}
    (h : index lib fs path mimetype .MarkForContentIndexing = some doc)
    (hfile : (fs.stat (chop path)).isDir = false) (hsize : 0 < (fs.stat (chop path)).size) :
    doc.contentIndexing = true := by
  rw [index] at h
  dsimp only at h
  split at h
  · cases h
  · split at h
    · cases h
    · simp only [Option.some.injEq] at h
      obtain ⟨xattrTerms, hxattr⟩ := indexXAttr_frame lib (fs.stat (chop path)).userMetaData _
      rw [hxattr] at h
      rw [← h]
      simp [indexType, hfile, hsize, foldl_addTerm]

theorem queued_replaceDocument {w : WriteTransaction} {doc : Document} (operations : DocumentOperations)
    (hmark : doc.contentIndexing = true) :
    (w.replaceDocument doc operations).dbis.contentIndexingDb.contains doc.id = true := by
  obtain ⟨docTermsDb, docXattrTermsDb, docFilenameTermsDb, hframe⟩ := w.replaceDocument_frame doc operations
  simp [hframe, WriteTransaction.replaceData, hmark, DocumentIdDB.put]

theorem queued_addDocument {fs : Snapshot} {w : WriteTransaction} {mimetype : List QChar} {doc : Document}
    (h : BasicIndexingJob.Describes lib fs path mimetype doc) (hmark : doc.contentIndexing = true) :
    (w.addDocument fs.toFileSystem doc).dbis.contentIndexingDb.contains doc.id = true := by
  obtain ⟨dir, name, -, hurl, hname, hslash, hdir, hid, -⟩ := h.split
  have hadd := addUrl_eq fs.toFileSystem w.dbis.docUrlDb hurl hdir hname hslash hid
  simp [WriteTransaction.addDocument, hadd, hmark, DocumentIdDB.put, WriteTransaction.addTerms]

/-- What `ModifiedFileIndexer` does with the file: nothing if it is up to date, otherwise it is marked. -/
theorem visit_cases {fs : Snapshot} {w : WriteTransaction} (h : IndexedFile lib config path id fs) :
    UpToDate w.dbis (fs.stat path) id ∧ ModifiedFileIndexer.visit lib config false fs w path = w ∨
      ¬ UpToDate w.dbis (fs.stat path) id ∧ (0 < (fs.stat path).size →
        (ModifiedFileIndexer.visit lib config false fs w path).dbis.contentIndexingDb.contains id = true) := by
  have hchop : chop path = path := chop_of_isPath (fs.isPath _ _ h.lstat)
  have hcases := @decide_cases lib config false fs w.dbis path id
  rw [hchop] at hcases
  rw [ModifiedFileIndexer.visit, hchop]
  rcases hcases h.lstat h.isSymLink h.accepts with
    ⟨hdate, hskip⟩ | ⟨hchanged, ⟨-, hdefer⟩ | ⟨mimetype, hindex⟩⟩
  · rw [hskip]
    exact .inl ⟨hdate, rfl⟩
  · rw [hdefer]
    exact .inr ⟨hchanged, fun _ => queued_replaceDocument _ rfl⟩
  · refine .inr ⟨hchanged, fun hsize => ?_⟩
    rw [hindex]
    dsimp only
    split
    · next hnone =>
      rcases BasicIndexingJob.index_eq_none.mp hnone with hdirectory | hpath
      · exact absurd hdirectory h.directory
      · rw [hchop, h.lstat] at hpath
        cases hpath
    · next doc hdoc =>
      have hdescribes := BasicIndexingJob.index_describes hdoc
      have hid := hdescribes.id
      rw [hchop, h.lstat] at hid
      obtain rfl := Option.some.inj hid
      have hmark : doc.contentIndexing = true :=
        BasicIndexingJob.contentIndexing_index hdoc (by rw [hchop]; exact h.isDir) (by rw [hchop]; exact hsize)
      split
      · exact queued_replaceDocument _ hmark
      · exact queued_addDocument hdescribes hmark

/-! ## The extractor -/

/-- An entry of a batch, as far as it is about the file: what was found can be extracted. -/
structure Extractable (id : DocId) (info : BatchInfo) : Prop where
  result : ∀ result, info.state = .succeeded result → result.id = info.id
  state : info.id = id → info.state = .pending ∨ info.state.isSucceeded = true ∨ info.state = .committed

/-- What writing an entry does to the file in the index. -/
structure WritesFile (id : DocId) (info : BatchInfo) (tr tr' : WriteTransaction) : Prop where
  /-- the record of its times stays -/
  times : tr'.dbis.docTimeDb.get id = tr.dbis.docTimeDb.get id
  /-- it stays stored -/
  stored : tr'.dbis.docUrlDb.contains id = tr.dbis.docUrlDb.contains id
  /-- its terms and its mark stay, or a result is written and it is taken out of the queue -/
  content : tr'.dbis.contentIndexingDb.contains id = tr.dbis.contentIndexingDb.contains id ∧
      OrdMap.get tr'.dbis.docTermsDb id = OrdMap.get tr.dbis.docTermsDb id ∨
    ∃ result, info.id = id ∧ info.state = .succeeded result ∧ tr.dbis.contentIndexingDb.contains id = true ∧
      tr'.dbis.contentIndexingDb.contains id = false ∧ ShowsTerms tr'.dbis id result

theorem WritesFile.refl (info : BatchInfo) (tr : WriteTransaction) : WritesFile id info tr tr :=
  ⟨rfl, rfl, .inl ⟨rfl, rfl⟩⟩

theorem writesFile_removeDocument {info : BatchInfo} {tr : WriteTransaction} (h : info.id ≠ id) :
    WritesFile id info tr (tr.removeDocument info.id) := by
  have hne : id ≠ info.id := h.symm
  refine ⟨?_, ?_, .inl ⟨?_, ?_⟩⟩
  · change DocumentTimeDB.get (tr.dbis.docTimeDb.del info.id) id = _
    simp [DocumentTimeDB.get, hne]
  · change (tr.dbis.docUrlDb.del info.id).contains id = _
    rw [DocumentUrlDB.del]
    split
    · rfl
    · simp [DocumentUrlDB.contains, hne]
  · change (tr.dbis.contentIndexingDb.del info.id).contains id = _
    simp [hne]
  · change OrdMap.get (tr.dbis.docTermsDb.del info.id) id = _
    simp [hne]

/-- What a result changes: the terms, the data, and the mark if the result has one. -/
theorem dbis_replaceResult (tr : WriteTransaction) (result : Document) :
    (tr.replaceDocument result { documentTerms := true, documentData := true }).dbis =
      { tr.dbis with
        docTermsDb :=
          if result.terms.keys ≠ tr.dbis.docTermsDb.get result.id then
            tr.dbis.docTermsDb.put result.id result.terms.keys
          else tr.dbis.docTermsDb
        contentIndexingDb :=
          if result.contentIndexing then tr.dbis.contentIndexingDb.put result.id
          else tr.dbis.contentIndexingDb
        docDataDb :=
          if result.data ≠ [] then tr.dbis.docDataDb.put result.id result.data else tr.dbis.docDataDb } := by
  have hterms : (tr.replaceDocumentTerms result).dbis =
      { tr.dbis with
        docTermsDb :=
          if result.terms.keys ≠ tr.dbis.docTermsDb.get result.id then
            tr.dbis.docTermsDb.put result.id result.terms.keys
          else tr.dbis.docTermsDb } := by
    rw [WriteTransaction.replaceDocumentTerms]
    dsimp only [WriteTransaction.replaceTerms, WriteTransaction.addTerms, WriteTransaction.removeTerms]
    split <;> rfl
  simp [WriteTransaction.replaceDocument, hterms, WriteTransaction.replaceData]

/-- Writing a result. -/
theorem writesFile_replaceResult {info : BatchInfo} {tr : WriteTransaction} {result : Document}
    (hstate : info.state = .succeeded result) (hresult : result.id = info.id)
    (hqueued : tr.inPhaseOne info.id = true) : WritesFile id info tr
      (((tr.replaceDocument result { documentTerms := true, documentData := true }).removePhaseOne
        info.id).removeFailed info.id) := by
  simp only [WriteTransaction.removeFailed, WriteTransaction.removePhaseOne, dbis_replaceResult, hresult]
  refine ⟨rfl, rfl, ?_⟩
  by_cases hid : info.id = id
  · subst hid
    refine .inr ⟨result, rfl, hstate, hqueued, by simp, ?_⟩
    rw [ShowsTerms]
    by_cases hsame : result.terms.keys = tr.dbis.docTermsDb.get info.id
    · right
      simp [← hsame]
    · left
      simp [hsame, DocumentDB.put]
  · have hne : id ≠ info.id := Ne.symm hid
    refine .inl ⟨?_, ?_⟩
    · dsimp only
      split <;> simp [hne, DocumentIdDB.put]
    · dsimp only
      split <;> simp [hne, DocumentDB.put]

theorem writesFile_removePhaseOne {info : BatchInfo} {tr : WriteTransaction} (h : info.id ≠ id) :
    WritesFile id info tr (tr.removePhaseOne info.id) := by
  have hne : id ≠ info.id := h.symm
  refine ⟨rfl, rfl, .inl ⟨?_, rfl⟩⟩
  simp [WriteTransaction.removePhaseOne, hne]

/-- A state that is neither a result nor open or committed is that of another document. -/
theorem Extractable.ne {info : BatchInfo} (h : Extractable id info) (hpending : info.state ≠ .pending)
    (hsucceeded : info.state.isSucceeded = false) (hcommitted : info.state ≠ .committed) : info.id ≠ id := by
  intro hid
  rcases h.state hid with hstate | hstate | hstate
  · exact hpending hstate
  · exact Bool.false_ne_true (hsucceeded.symm.trans hstate)
  · exact hcommitted hstate

theorem write_writesFile {info : BatchInfo} (tr : WriteTransaction) (h : Extractable id info) :
    WritesFile id info tr (App.write tr info).1 := by
  rcases hstate : info.state with _ | _ | _ | _ | result | _
  · rw [App.write, hstate]
    exact .refl info tr
  · rw [App.write, hstate]
    exact writesFile_removeDocument (h.ne (by simp [hstate]) (by rw [hstate]; rfl) (by simp [hstate]))
  · rw [App.write, hstate]
    exact writesFile_removeDocument (h.ne (by simp [hstate]) (by rw [hstate]; rfl) (by simp [hstate]))
  · rw [App.write, hstate]
    exact writesFile_removePhaseOne (h.ne (by simp [hstate]) (by rw [hstate]; rfl) (by simp [hstate]))
  · rw [App.write, hstate]
    dsimp only
    split
    · exact .refl info tr
    · next hqueued =>
      split
      · exact .refl info tr
      · split
        · exact .refl info tr
        · exact writesFile_replaceResult hstate (h.result result hstate) (by simpa using hqueued)
  · rw [App.write, hstate]
    exact .refl info tr

/-- The index shows a result with the property `C`, or the file waits. -/
def ShowsOrWaits (C : Document → Prop) (id : DocId) (db : Database) : Prop :=
  db.contentIndexingDb.contains id = true ∨
    db.contentIndexingDb.contains id = false ∧ ∃ result, C result ∧ ShowsTerms db id result

theorem ShowsTerms.congr {db db' : Database} {result : Document} (h : ShowsTerms db id result)
    (hsame : OrdMap.get db'.docTermsDb id = OrdMap.get db.docTermsDb id) : ShowsTerms db' id result := by
  rw [ShowsTerms, DocumentDB.get] at h ⊢
  rwa [hsame]

theorem ShowsOrWaits.write {C : Document → Prop} {info : BatchInfo} {tr tr' : WriteTransaction}
    (h : ShowsOrWaits C id tr.dbis) (hwrites : WritesFile id info tr tr')
    (hcurrent : info.id = id → ∀ result, info.state = .succeeded result →
      tr.dbis.contentIndexingDb.contains id = true → C result) : ShowsOrWaits C id tr'.dbis := by
  rcases hwrites.content with ⟨hqueued, hterms⟩ | ⟨result, hid, hstate, hqueued, hgone, hshows⟩
  · rw [ShowsOrWaits, hqueued]
    exact h.imp_right fun ⟨hgone, result, hresult, hshows⟩ => ⟨hgone, result, hresult, hshows.congr hterms⟩
  · exact .inr ⟨hgone, result, hcurrent hid result hstate hqueued, hshows⟩

/-- All entries of a batch are written. -/
theorem writeAll_file {C : Document → Prop} {batch : List BatchInfo} {tr : WriteTransaction}
    (h : ∀ info ∈ batch, Extractable id info) :
    (App.writeAll tr batch).1.dbis.docTimeDb.get id = tr.dbis.docTimeDb.get id ∧
    (App.writeAll tr batch).1.dbis.docUrlDb.contains id = tr.dbis.docUrlDb.contains id ∧
    (ShowsOrWaits C id tr.dbis → (tr.dbis.contentIndexingDb.contains id = true →
        ∀ info ∈ batch, info.id = id → ∀ result, info.state = .succeeded result → C result) →
      ShowsOrWaits C id (App.writeAll tr batch).1.dbis) := by
  induction batch generalizing tr with
  | nil => exact ⟨rfl, rfl, fun hshows _ => hshows⟩
  | cons info batch ih =>
    have hwrites := write_writesFile tr (h info List.mem_cons_self)
    obtain ⟨htimes, hstored, hrest⟩ := @ih (App.write tr info).1
      fun info hinfo => h info (List.mem_cons_of_mem _ hinfo)
    refine ⟨htimes.trans hwrites.times, hstored.trans hwrites.stored, fun hshows hcurrent => ?_⟩
    refine hrest (hshows.write hwrites fun hid result hstate hqueued =>
      hcurrent hqueued info List.mem_cons_self hid result hstate) fun hqueued info' hinfo' => ?_
    refine hcurrent ?_ info' (List.mem_cons_of_mem _ hinfo')
    -- the file has waited before, too
    rcases hwrites.content with ⟨hsame, -⟩ | ⟨_, -, -, hbefore, -⟩
    · rw [← hsame]
      exact hqueued
    · exact hbefore

/-- The results that a batch holds for the file have the property `C`. -/
def Held (C : Document → Prop) (id : DocId) (batch : List BatchInfo) : Prop :=
  ∀ info ∈ batch, info.id = id → ∀ result, info.state = .succeeded result → C result

/-- An entry after looking at the next one. -/
theorem mem_indexNext {env : Surroundings} {batch : List BatchInfo} {info' : BatchInfo}
    (h : info' ∈ (App.indexNext env batch).1) : info' ∈ batch ∨
      ∃ info ∈ batch, (batch.find? fun info => info.state.isPending) = some info ∧
        info' = (App.index env info).1 := by
  rcases App.indexNext_cases env batch with ⟨-, heq⟩ | ⟨pre, info, post, rfl, hpre, hinfo, heq⟩
  · rw [heq] at h
    exact .inl h
  · rw [heq] at h
    rcases List.mem_append.mp h with h | h
    · exact .inl (List.mem_append_left _ h)
    · rcases List.mem_cons.mp h with rfl | h
      · refine .inr ⟨info, by simp, ?_, rfl⟩
        have hnone : (pre.find? fun info => info.state.isPending) = none :=
          List.find?_eq_none.mpr fun info hmem => by simp [hpre info hmem]
        rw [List.find?_append, hnone, Option.none_or]
        simp [hinfo]
      · exact .inl (List.mem_append_right _ (List.mem_cons_of_mem _ h))

/-- Looking at the next entry keeps the entries extractable, and what is found of the file has been read. -/
theorem extractable_indexNext {env : Surroundings} {app : App} (happ : app.scheduled = .processNextFile)
    (h : ∀ info ∈ app.batch, Extractable id info) (hfound : ∀ info, app.next = some info → info.id = id →
      (App.index env info).1.state.isSucceeded = true) :
    (∀ info ∈ (App.indexNext env app.batch).1, Extractable id info) ∧
      ∀ C : Document → Prop, Held C id app.batch → (∀ result ∈ app.reads env id, C result) →
        Held C id (App.indexNext env app.batch).1 := by
  have hnext : app.next = app.batch.find? fun info => info.state.isPending := by rw [App.next, happ]
  constructor
  · intro info' hinfo'
    rcases mem_indexNext hinfo' with hmem | ⟨info, hmem, hfind, rfl⟩
    · exact h info' hmem
    · have hindexed := App.index_indexed env info
      refine ⟨fun result hresult => ?_, fun hid => .inr (.inl ?_)⟩
      · rw [(hindexed.succeeded result hresult).1, hindexed.id]
      · exact hfound info (hnext.trans hfind) (hindexed.id.symm.trans hid)
  · intro C hheld hreads info' hinfo' hid result hresult
    rcases mem_indexNext hinfo' with hmem | ⟨info, hmem, hfind, rfl⟩
    · exact hheld info' hmem hid result hresult
    · refine hreads result ?_
      have hid' : info.id = id := (App.index_indexed env info).id.symm.trans hid
      simp [App.reads, hnext, hfind, hresult, hid']

/-- After a commit a batch holds no results. -/
theorem held_writeAll {C : Document → Prop} {tr : WriteTransaction} {batch : List BatchInfo}
    (h : ∀ info ∈ batch, Extractable id info) :
    (∀ info ∈ (App.writeAll tr batch).2.1, Extractable id info) ∧ Held C id (App.writeAll tr batch).2.1 := by
  have hstate : ∀ info' ∈ (App.writeAll tr batch).2.1, info'.state = .committed ∨
      info' ∈ batch ∧ info'.state.isDone = false := by
    intro info' hinfo'
    rw [App.writeAll_entries] at hinfo'
    obtain ⟨info, hinfo, rfl⟩ := List.mem_map.mp hinfo'
    split
    · exact .inl rfl
    · next hdone => exact .inr ⟨hinfo, by simpa using hdone⟩
  constructor
  · intro info' hinfo'
    rcases hstate info' hinfo' with hcommitted | ⟨hmem, -⟩
    · refine ⟨fun result hresult => ?_, fun _ => .inr (.inr hcommitted)⟩
      rw [hcommitted] at hresult
      cases hresult
    · exact h info' hmem
  · intro info' hinfo' _ result hresult
    rcases hstate info' hinfo' with hcommitted | ⟨-, hdone⟩
    · rw [hcommitted] at hresult
      cases hresult
    · rw [hresult] at hdone
      cases hdone

/-! ## Runs -/

theorem upToDate_congr {db db' : Database} {stat : Stat} (htimes : db'.docTimeDb.get id = db.docTimeDb.get id)
    (hstored : db'.docUrlDb.contains id = db.docUrlDb.contains id) :
    UpToDate db' stat id ↔ UpToDate db stat id := by
  constructor
  · rintro ⟨hs, hc, hm⟩
    exact ⟨hstored ▸ hs, htimes ▸ hc, htimes ▸ hm⟩
  · rintro ⟨hs, hc, hm⟩
    exact ⟨hstored.symm ▸ hs, htimes.symm ▸ hc, htimes.symm ▸ hm⟩

theorem ShowsOrWaits.imp {C C' : Document → Prop} {db db' : Database} (h : ShowsOrWaits C id db)
    (hC : ∀ result, C result → C' result)
    (hqueued : db'.contentIndexingDb.contains id = db.contentIndexingDb.contains id)
    (hterms : OrdMap.get db'.docTermsDb id = OrdMap.get db.docTermsDb id) : ShowsOrWaits C' id db' := by
  rw [ShowsOrWaits, hqueued]
  exact h.imp_right fun ⟨hgone, result, hresult, hshows⟩ =>
    ⟨hgone, result, hC result hresult, hshows.congr hterms⟩

namespace WatchedFile

variable {s : WatchedFile}

/-- What holds in every state, if every event is noticed. -/
structure Tracked (lib : Libraries) (config : FileIndexerConfig) (path : QByteArray) (id : DocId)
    (s : WatchedFile) : Prop where
  /-- the file stays one that is indexed -/
  file : IndexedFile lib config path id s.disk
  /-- it is not empty once it has been written -/
  size : s.writes = 0 ∨ 0 < (s.disk.stat path).size
  /-- the entries of the batch can be extracted -/
  batch : ∀ info ∈ s.app.batch, Extractable id info
  /-- the last write is indexed, or it will be read, or a check will see it -/
  noticed : s.writes = 0 ∨ ShowsOrWaits s.Current id s.db ∧ (s.Queued id → s.HoldsCurrent id) ∨
    0 < s.waiting ∧ ¬ UpToDate s.db (s.disk.stat path) id

/-- A write: a check will see it, or the file will be read. -/
theorem Tracked.write (h : Tracked lib config path id s) {size : ℕ} {time : ℤ}
    (hnoticed : s.Noticed path id (.write size time)) :
    Tracked lib config path id (s.step lib config path id (.write size time)) := by
  obtain ⟨hsize, hseen⟩ := hnoticed
  refine ⟨h.file.write size time, .inr ?_, h.batch, .inr ?_⟩
  · simpa [step, Snapshot.write] using hsize
  · rcases hseen with hchanged | ⟨hqueued, hheld⟩
    · exact .inr ⟨Nat.succ_pos _, hchanged⟩
    · refine .inl ⟨.inl hqueued, fun _ info hinfo hid result hresult => ?_⟩
      have hnot := hheld info hinfo hid
      rw [hresult] at hnot
      cases hnot

/-- A check: a change is marked, and what the extractor holds is not older. -/
theorem Tracked.check (h : Tracked lib config path id s) {left : ℕ} {order : List Term}
    (hnoticed : s.Noticed path id (.check left order)) :
    Tracked lib config path id (s.step lib config path id (.check left order)) := by
  refine ⟨h.file, h.size, h.batch, ?_⟩
  rcases h.size with hzero | hsize
  · exact .inl hzero
  · refine h.noticed.imp_right fun hnoted => .inl ?_
    have hcommit := WriteTransaction.commit_eq
      (ModifiedFileIndexer.visit lib config false s.disk { dbis := s.db } path) order
    rcases visit_cases h.file (w := { dbis := s.db }) with ⟨hdate, hsame⟩ | ⟨hchanged, hmarked⟩
    · obtain ⟨hshows, hheld⟩ := hnoted.resolve_right fun hawaited => hawaited.2 hdate
      rw [hsame] at hcommit
      have hdb : (s.step lib config path id (.check left order)).db =
          WriteTransaction.commit { dbis := s.db } order := by
        rw [step, hsame]
      rw [Queued, hdb, hcommit]
      exact ⟨hshows.imp (fun _ hresult => hresult) rfl rfl, hheld⟩
    · refine ⟨.inl ?_, fun _ => hnoticed.resolve_left hchanged⟩
      rw [step, hcommit]
      exact hmarked hsize

/-- A call of the extractor in which it reads or waits. -/
theorem Tracked.reads (h : Tracked lib config path id s) {app : App} {reads : List (ℕ × Document)}
    (hbatch : ∀ info ∈ app.batch, Extractable id info) (hheld : s.HoldsCurrent id →
      Held (fun result => (s.writes, result) ∈ s.reads ++ reads) id app.batch) :
    Tracked lib config path id { s with app := app, reads := s.reads ++ reads } where
  file := h.file
  size := h.size
  batch := hbatch
  noticed := h.noticed.imp_right fun hnoted => hnoted.imp_left fun ⟨hshows, hcurrent⟩ =>
    ⟨hshows.imp (fun _ hresult => List.mem_append_left _ hresult) rfl rfl, fun hqueued => hheld (hcurrent hqueued)⟩

/-- A call of the extractor in which it writes what it holds. -/
theorem Tracked.writes (h : Tracked lib config path id s) {app : App} (order : List Term)
    (hafter : ∀ info ∈ app.batch, info ∈ (App.writeAll { dbis := s.db } s.app.batch).2.1) :
    Tracked lib config path id
      { s with app := app, db := (App.writeAll { dbis := s.db } s.app.batch).1.commit order } := by
  have hcommit := WriteTransaction.commit_eq (App.writeAll { dbis := s.db } s.app.batch).1 order
  obtain ⟨htimes, hstored, hcontent⟩ := @writeAll_file id s.Current s.app.batch { dbis := s.db } h.batch
  obtain ⟨hextractable, hnone⟩ := @held_writeAll id s.Current { dbis := s.db } s.app.batch h.batch
  refine ⟨h.file, h.size, fun info hinfo => hextractable info (hafter info hinfo), ?_⟩
  refine h.noticed.imp_right fun hnoted => hnoted.imp ?_ ?_
  · rintro ⟨hshows, hheld⟩
    refine ⟨?_, fun _ info hinfo => hnone info (hafter info hinfo)⟩
    rw [hcommit]
    exact (hcontent hshows hheld).imp (fun _ hresult => hresult) rfl rfl
  · rintro ⟨hwaiting, hchanged⟩
    refine ⟨hwaiting, fun hdate => hchanged ((upToDate_congr ?_ ?_).mp hdate)⟩
    · rw [docTimeDb_commit]
      exact htimes
    · rw [docUrlDb_commit]
      exact hstored

theorem Tracked.extract (h : Tracked lib config path id s) {c : Call}
    (hpossible : s.Possible (.extract c)) (hnoticed : s.Noticed path id (.extract c)) :
    Tracked lib config path id (s.step lib config path id (.extract c)) := by
  have hkept : ∀ reads, s.HoldsCurrent id →
      Held (fun result => (s.writes, result) ∈ s.reads ++ reads) id s.app.batch :=
    fun reads hheld info hinfo hid result hresult =>
      List.mem_append_left _ (hheld info hinfo hid result hresult)
  rw [WatchedFile.step]
  rcases hscheduled : s.app.scheduled with _ | ids | _ | code
  · -- nothing runs
    rw [App.run, hscheduled]
    exact h.reads h.batch (hkept _)
  · -- a batch is read
    have hpending : ∀ info ∈ (s.app.slotNewBatch c s.db ids).batch, info ∈ s.app.batch ∨ info.state = .pending := by
      intro info hinfo
      simp only [App.slotNewBatch, hpossible.2, Bool.false_eq_true, if_false] at hinfo
      split_ifs at hinfo
      · exact .inl hinfo
      · rcases List.mem_append.mp hinfo with hinfo | hinfo
        · exact .inl hinfo
        · obtain ⟨i, -, rfl⟩ := List.mem_map.mp hinfo
          exact .inr rfl
      · exact .inl hinfo
      · exact .inl hinfo
    rw [App.run, hscheduled]
    refine h.reads (fun info hinfo => ?_) fun hheld info hinfo hid result hresult => ?_
    · rcases hpending info hinfo with hmem | hstate
      · exact h.batch info hmem
      · refine ⟨fun result hresult => ?_, fun _ => .inl hstate⟩
        rw [hstate] at hresult
        cases hresult
    · rcases hpending info hinfo with hmem | hstate
      · exact hkept _ hheld info hmem hid result hresult
      · rw [hstate] at hresult
        cases hresult
  · -- a file is looked at, and perhaps results are written
    obtain ⟨hextractable, hfound⟩ := extractable_indexNext hscheduled h.batch hnoticed
    have hlooked : ∀ app : App, app.batch = (App.indexNext c.env s.app.batch).1 → Tracked lib config path id
        { s with app := app
                 reads := s.reads ++ (s.app.reads c.env id).map fun result => (s.writes, result) } := by
      intro app happ
      refine h.reads (happ ▸ hextractable) fun hcurrent => ?_
      rw [happ]
      exact hfound _ (hkept _ hcurrent) fun result hresult =>
        List.mem_append_right _ (List.mem_map_of_mem hresult)
    have hcases := App.processNextFile_cases c s.app s.db
    rw [App.run, hscheduled]
    dsimp only at hcases ⊢
    generalize s.app.processNextFile c s.db = r at hcases
    rcases hcases with ⟨-, rfl⟩ | ⟨-, rfl⟩ | ⟨code, rfl⟩ | ⟨-, rfl⟩ | ⟨-, rfl⟩
    · exact hlooked _ rfl
    · exact hlooked _ rfl
    · exact h.reads h.batch (hkept _)
    · exact (hlooked { s.app with batch := (App.indexNext c.env s.app.batch).1 } rfl).writes c.order
        fun info hinfo => hinfo
    · exact (hlooked { s.app with batch := (App.indexNext c.env s.app.batch).1 } rfl).writes c.order
        fun info hinfo => absurd hinfo List.not_mem_nil
  · rw [App.run, hscheduled]
    exact h.reads h.batch (hkept _)

theorem Tracked.step (h : Tracked lib config path id s) {event : FileEvent} (hpossible : s.Possible event)
    (hnoticed : s.Noticed path id event) :
    Tracked lib config path id (s.step lib config path id event) := by
  cases event with
  | write size time => exact h.write hnoticed
  | check left order => exact h.check hnoticed
  | batch ids => exact ⟨h.file, h.size, h.batch, h.noticed⟩
  | extract c => exact h.extract hpossible hnoticed

/-- A run of events that are possible and noticed. -/
def NoticedStep (lib : Libraries) (config : FileIndexerConfig) (path : QByteArray) (id : DocId)
    (s s' : WatchedFile) : Prop :=
  ∃ event, s.Possible event ∧ s.Noticed path id event ∧ s' = s.step lib config path id event

/-- **The last write is the one that is indexed**, in every run of noticed events: when no event is left and
the file does not wait in the content queue, the terms in the index are those of a result that has been read
after the last write. -/
theorem last_write_indexed {s' : WatchedFile} (hfile : IndexedFile lib config path id s.disk)
    (hwrites : s.writes = 0) (hbatch : s.app.batch = [])
    (hrun : Relation.ReflTransGen (NoticedStep lib config path id) s s') (hwaiting : s'.waiting = 0)
    (hqueue : s'.db.contentIndexingDb.contains id = false) (hwritten : s'.writes ≠ 0) :
    ∃ result, (s'.writes, result) ∈ s'.reads ∧ ShowsTerms s'.db id result := by
  have hstart : Tracked lib config path id s := by
    refine ⟨hfile, .inl hwrites, fun info hinfo => ?_, .inl hwrites⟩
    rw [hbatch] at hinfo
    exact absurd hinfo List.not_mem_nil
  have hend : Tracked lib config path id s' := by
    refine Transition.invariant (fun a b ha hab => ?_) hstart hrun
    obtain ⟨event, hpossible, hnoticed, rfl⟩ := hab
    exact ha.step hpossible hnoticed
  rcases hend.noticed with hzero | ⟨hshows, -⟩ | ⟨hmore, -⟩
  · exact absurd hzero hwritten
  · rcases hshows with hqueued | ⟨-, hshown⟩
    · exact absurd (hqueued.symm.trans hqueue) (by simp)
    · exact hshown
  · omega

end WatchedFile

/-! ## Two writes within one second -/

namespace TwoWrites

/-- An event for `/p/d`. -/
def next (s : WatchedFile) (event : FileEvent) : WatchedFile :=
  s.step asciiLibraries folderP [47, 112, 47, 100] 7 event

/-- A check that leaves no event. -/
def check (s : WatchedFile) : FileEvent :=
  .check 0 (ModifiedFileIndexer.visit asciiLibraries folderP false s.disk { dbis := s.db }
    [47, 112, 47, 100]).pendingOperations.keys

/-- A call of the extractor. -/
def extract (s : WatchedFile) : FileEvent :=
  .extract { env := plainFiles s.disk, timeout := false
             order := (App.writeAll { dbis := s.db } s.app.batch).1.pendingOperations.keys }

/-- The index is empty. -/
def start : WatchedFile := { disk := fileModifiedAt 9, db := {}, app := { scheduled := .nothing } }

/-- The file is written after 10.2 seconds. -/
def written : WatchedFile := next start (.write 1 10200000000)

/-- The check enters it and marks it. -/
def marked : WatchedFile := next written (check written)

/-- The extractor gets the file. -/
def given : WatchedFile := next marked (.batch [7])

/-- It has looked up the path. -/
def opened : WatchedFile := next given (extract given)

/-- It has read the file. -/
def extracted : WatchedFile := next opened (extract opened)

/-- It has written the result. -/
def indexed : WatchedFile := next extracted (extract extracted)

/-- The file is written after 10.8 seconds. -/
def writtenAgain : WatchedFile := next indexed (.write 1 10800000000)

/-- The check finds the times of the first write. -/
def checkedAgain : WatchedFile := next writtenAgain (check writtenAgain)

theorem indexedFile : IndexedFile asciiLibraries folderP [47, 112, 47, 100] 7 start.disk where
  lstat := by decide
  isDir := by decide
  isSymLink := by decide
  accepts := by decide +kernel
  directory := by
    intro hnone
    exact absurd hnone (by decide)

theorem noticed_indexed : Relation.ReflTransGen
    (WatchedFile.NoticedStep asciiLibraries folderP [47, 112, 47, 100] 7) start indexed := by
  have hnothing : ∀ {s : WatchedFile}, s.app.next.isSome = false →
      s.Noticed [47, 112, 47, 100] 7 (extract s) := by
    intro s hnone info hinfo
    rw [hinfo] at hnone
    cases hnone
  have hread : (opened.app.next.map fun info =>
      (App.index (plainFiles opened.disk) info).1.state.isSucceeded) = some true := by decide +kernel
  refine .tail (b := extracted) (.tail (b := opened) (.tail (b := given) (.tail (b := marked)
    (.tail (b := written) (.tail .refl ?_) ?_) ?_) ?_) ?_) ?_
  · refine ⟨.write 1 10200000000, trivial, ⟨by decide, .inl fun hdate => ?_⟩, rfl⟩
    exact absurd hdate.stored (by decide)
  · refine ⟨check written, Nat.zero_lt_one, .inr fun info hinfo => ?_, rfl⟩
    exact absurd hinfo List.not_mem_nil
  · exact ⟨.batch [7], rfl, trivial, rfl⟩
  · exact ⟨extract given, ⟨rfl, rfl⟩, hnothing (by decide +kernel), rfl⟩
  · refine ⟨extract opened, ⟨rfl, rfl⟩, fun info hinfo _ => ?_, rfl⟩
    rw [hinfo] at hread
    exact Option.some.inj hread
  · exact ⟨extract extracted, ⟨rfl, rfl⟩, hnothing (by decide +kernel), rfl⟩

end TwoWrites

open TwoWrites in
theorem last_write_indexed_once : ∃ result, (indexed.writes, result) ∈ indexed.reads ∧
    ShowsTerms indexed.db 7 result :=
  WatchedFile.last_write_indexed indexedFile rfl rfl noticed_indexed (by decide +kernel) (by decide +kernel)
    (by decide +kernel)

open TwoWrites in
/-- A second write within the second that is recorded is not seen once the file has been read. -/
theorem second_write_not_seen : ¬ ∀ s s' : WatchedFile,
    IndexedFile asciiLibraries folderP [47, 112, 47, 100] 7 s.disk → s.writes = 0 → s.app.batch = [] →
    Relation.ReflTransGen (fun s s' => ∃ event, s.Possible event ∧
      s' = s.step asciiLibraries folderP [47, 112, 47, 100] 7 event) s s' →
    s'.waiting = 0 → s'.db.contentIndexingDb.contains 7 = false → s'.writes ≠ 0 →
    ∃ result, (s'.writes, result) ∈ s'.reads ∧ ShowsTerms s'.db 7 result := by
  intro h
  have hindexed := Relation.ReflTransGen.mono (fun a b hab => by
    obtain ⟨event, hpossible, -, heq⟩ := hab
    exact (⟨event, hpossible, heq⟩ : ∃ event, a.Possible event ∧
      b = a.step asciiLibraries folderP [47, 112, 47, 100] 7 event)) _ _ noticed_indexed
  have hrun : Relation.ReflTransGen (fun s s' => ∃ event, s.Possible event ∧
      s' = s.step asciiLibraries folderP [47, 112, 47, 100] 7 event) start checkedAgain := by
    refine .tail (b := writtenAgain) (.tail (b := indexed) hindexed ?_) ?_
    · exact ⟨.write 1 10800000000, trivial, rfl⟩
    · exact ⟨check writtenAgain, Nat.succ_pos indexed.waiting, rfl⟩
  -- nothing has been read since the second write
  have hnone : ∀ s : WatchedFile, s.writes = 2 → s.reads.map Prod.fst = [1] →
      ∀ result, (s.writes, result) ∉ s.reads := by
    intro s hwrites hreads result hread
    have hmem := List.mem_map_of_mem (f := Prod.fst) hread
    rw [hreads, hwrites, List.mem_singleton] at hmem
    cases hmem
  obtain ⟨result, hread, -⟩ := h start checkedAgain indexedFile rfl rfl hrun (by decide +kernel)
    (by decide +kernel) (by decide +kernel)
  exact hnone checkedAgain (by decide +kernel) (by decide +kernel) result hread

end Baloo
