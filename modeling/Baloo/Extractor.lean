import Baloo.CommandPipe
import Baloo.Commit
import Baloo.Indexers

/-!
# The extractor process

`App` gets a batch of ids from the file content indexer. It reads their urls from the index, looks at
one file after the other, and writes what has come of it at the end of the batch, or earlier if that
takes more than two seconds. Each step runs from a timer of its own, and the daemon may change the index
between any two of them. A write transaction that cannot be created is tried again later, with the next
file; after too many failures in a row the process exits.

A call here takes what it finds outside of the process as an argument (`Call`), and tells what it did as
a list of effects. The delays of the timers are left out.
-/

namespace Baloo

/-- `IndexState`; the result of an extraction is there as long as it has not been written. -/
inductive IndexState where
  | pending
  | doesNotExist
  | removeIndex
  | skipIndex
  | succeeded (result : Document)
  | committed

namespace IndexState

/-- The file is still to be looked at. -/
def isPending : IndexState → Bool
  | pending => true
  | _ => false

/-- What has come of the file is still to be written. -/
def isDone : IndexState → Bool
  | pending => false
  | committed => false
  | _ => true

/-- The document will be removed. -/
def removes : IndexState → Bool
  | doesNotExist => true
  | removeIndex => true
  | _ => false

/-- The file has been extracted. -/
def isSucceeded : IndexState → Bool
  | succeeded _ => true
  | _ => false

end IndexState

/-- `App::BatchInfo` -/
structure BatchInfo where
  id : DocId
  path : QByteArray
  state : IndexState := .pending

/-- What `App::index` finds outside of the process. -/
structure Surroundings where
  /-- Qt and KFileMetaData -/
  lib : Libraries
  /-- the file system -/
  fs : Snapshot
  /-- `QFile::exists` -/
  fileExists : QByteArray → Bool
  /-- `QFileInfo::isDir` -/
  isDir : List QChar → Bool
  /-- `QFileInfo::size` -/
  size : QByteArray → ℕ
  /-- `m_config` -/
  config : FileIndexerConfig
  /-- `m_config.excludeMimetypes` -/
  excludeMimetypes : List (List QChar)
  /-- `KFileMetaData::MimeUtils::strictMimeType` -/
  strictMimeType : QByteArray → List QChar
  /-- the extractors for a mimetype, and `Result::finish` -/
  extract : List QChar → Document → Document
  /-- a result has other terms and data than the document it has been given, and nothing else -/
  extract_frame : ∀ mimetype doc, ∃ terms data, extract mimetype doc = { doc with terms, data }

/-- What a step of the extractor does to a document in the index. -/
inductive ExtractorAction where
  /-- it is removed -/
  | remove
  /-- it is taken out of the queue -/
  | skip
  /-- the result is written -/
  | replace
  /-- it is left as it is, since it is not what has been extracted -/
  | leave
  deriving DecidableEq

/-- What a call does. -/
inductive ExtractorEffect where
  /-- a message: `m_workerPipe.urlStarted` -/
  | urlStarted (url : QByteArray)
  /-- a message: `m_workerPipe.urlProcessed` -/
  | urlProcessed (url : QByteArray) (updated : Bool) (status : FileStatus)
  /-- a message: `m_workerPipe.batchFinished` -/
  | batchFinished
  /-- the extractors have been run -/
  | extracted (id : DocId)
  /-- an entry has been acted on, in a transaction that has been committed -/
  | acted (info : BatchInfo) (action : ExtractorAction)

/-- What is going to run. -/
inductive Scheduled where
  /-- nothing: the batch is done -/
  | nothing
  /-- `slotNewBatch` -/
  | slotNewBatch (ids : List DocId)
  /-- `processNextFile` -/
  | processNextFile
  /-- the process is gone -/
  | exited (code : ℕ)
  deriving DecidableEq

/-- `App` -/
structure App where
  batch : List BatchInfo := []
  consecutiveErrors : ℕ := 0
  scheduled : Scheduled

/-- What a call finds outside of the process. -/
structure Call where
  /-- the files -/
  env : Surroundings
  /-- two seconds have passed since the last commit -/
  timeout : Bool
  /-- the index can be opened -/
  opens : Bool := true
  /-- the transaction can be created -/
  isValid : Bool := true
  /-- the transaction can be committed -/
  commits : Bool := true
  /-- `m_config.onlyBasicIndexing` -/
  onlyBasicIndexing : Bool := false
  /-- the order in which the terms are committed -/
  order : List Term := []

namespace WriteTransaction

/-- `Transaction::inPhaseOne` -/
def inPhaseOne (tr : WriteTransaction) (id : DocId) : Bool := tr.dbis.contentIndexingDb.contains id

/-- `Transaction::hasDocument` -/
def hasDocument (tr : WriteTransaction) (id : DocId) : Bool := tr.dbis.docUrlDb.contains id

/-- `Transaction::documentUrl` -/
def documentUrl (tr : WriteTransaction) (id : DocId) : QByteArray := tr.dbis.docUrlDb.get id

/-- `Transaction::removePhaseOne` -/
def removePhaseOne (tr : WriteTransaction) (id : DocId) : WriteTransaction :=
  { tr with dbis := { tr.dbis with contentIndexingDb := tr.dbis.contentIndexingDb.del id } }

/-- `Transaction::removeFailed` -/
def removeFailed (tr : WriteTransaction) (id : DocId) : WriteTransaction :=
  { tr with dbis := { tr.dbis with failedIdDb := tr.dbis.failedIdDb.del id } }

end WriteTransaction

namespace App

/-- The files that are not extracted if they are large. -/
def isText (mimetype : List QChar) : Bool :=
  (latin1String "text/".toList).isPrefixOf mimetype || mimetype = latin1String "application/mbox".toList

/-- `App::index` -/
def index (env : Surroundings) (info : BatchInfo) : BatchInfo × List ExtractorEffect :=
  let url := info.path
  if url = [] then ({ info with state := .doesNotExist }, [])
  else if !env.fileExists url then
    ({ info with state := .doesNotExist }, [.urlProcessed url false .errorFileNotFound])
  else if !env.config.shouldBeIndexed env.isDir (env.lib.decodeName url) then
    ({ info with state := .removeIndex }, [.urlProcessed url false .ignoredFilename])
  else
    let mimetype := env.strictMimeType url
    if mimetype ∈ env.excludeMimetypes then
      ({ info with state := .skipIndex }, [.urlProcessed url false .ignoredMimetype])
    else if isText mimetype ∧ 10 * 1024 * 1024 ≤ env.size url then
      ({ info with state := .skipIndex }, [.urlProcessed url false .ignoredTooLarge])
    else
      match BasicIndexingJob.index env.lib env.fs url mimetype .NoLevel with
      | none =>
        ({ info with state := .doesNotExist },
          [.urlStarted url, .urlProcessed url false .errorFileNotFound])
      | some doc =>
        if doc.id ≠ info.id then
          ({ info with state := .removeIndex },
            [.urlStarted url, .urlProcessed url false .errorFileNotFound])
        else
          ({ info with state := .succeeded (env.extract mimetype doc) },
            [.urlStarted url, .extracted info.id, .urlProcessed url true .successful])

/-- The first block of `App::processNextFile`: the first entry that is pending is looked at. -/
def indexNext (env : Surroundings) : List BatchInfo → List BatchInfo × List ExtractorEffect
  | [] => ([], [])
  | info :: batch =>
    if info.state.isPending then ((index env info).1 :: batch, (index env info).2)
    else (info :: (indexNext env batch).1, (indexNext env batch).2)

/-- The body of the loop of `App::processNextFile`: what has come of an entry is written. -/
def write (tr : WriteTransaction) (info : BatchInfo) :
    WriteTransaction × BatchInfo × List ExtractorEffect :=
  match info.state with
  | .doesNotExist => (tr.removeDocument info.id, { info with state := .committed }, [.acted info .remove])
  | .removeIndex => (tr.removeDocument info.id, { info with state := .committed }, [.acted info .remove])
  | .skipIndex => (tr.removePhaseOne info.id, { info with state := .committed }, [.acted info .skip])
  | .succeeded result =>
    if !tr.inPhaseOne info.id then
      -- the document was replaced by one that is not to be indexed
      (tr, { info with state := .committed }, [.acted info .leave])
    else if !tr.hasDocument info.id then
      -- the document was removed
      (tr, { info with state := .committed }, [.acted info .leave])
    else if tr.documentUrl info.id ≠ info.path then
      -- the document was renamed, or the id is that of another file now
      (tr, { info with state := .committed }, [.acted info .leave])
    else
      (((tr.replaceDocument result { documentTerms := true, documentData := true }).removePhaseOne
          info.id).removeFailed info.id,
        { info with state := .committed }, [.acted info .replace])
  | .pending => (tr, info, [])
  | .committed => (tr, info, [])

/-- The loop of `App::processNextFile`. -/
def writeAll (tr : WriteTransaction) : List BatchInfo → WriteTransaction × List BatchInfo × List ExtractorEffect
  | [] => (tr, [], [])
  | info :: batch =>
    let r := write tr info
    let rest := writeAll r.1 batch
    (rest.1, r.2.1 :: rest.2.1, r.2.2 ++ rest.2.2)

/-- `App::slotNewBatch` -/
def slotNewBatch (c : Call) (app : App) (db : Database) (ids : List DocId) : App :=
  if !c.opens then { app with scheduled := .exited 1 }
  else if c.onlyBasicIndexing then
    { app with
      batch := app.batch ++ ids.map fun id => { id := id, path := [], state := .skipIndex }
      scheduled := .processNextFile }
  else if c.isValid then
    { batch := app.batch ++ ids.map fun id => { id := id, path := db.docUrlDb.get id }
      consecutiveErrors := 0
      scheduled := .processNextFile }
  else if 10 < app.consecutiveErrors then { app with scheduled := .exited 3 }
  else
    { app with consecutiveErrors := app.consecutiveErrors + 1, scheduled := .slotNewBatch ids }

/-- `App::processNextFile` -/
def processNextFile (c : Call) (app : App) (db : Database) : App × Database × List ExtractorEffect :=
  let next := indexNext c.env app.batch
  if (app.batch.any fun info => info.state.isPending) ∧ !c.timeout then
    ({ app with batch := next.1 }, db, next.2)
  else if c.isValid then
    let r := writeAll { dbis := db } next.1
    if !c.commits then ({ app with scheduled := .exited 2 }, db, next.2)
    else if r.2.1.any fun info => info.state.isPending then
      ({ app with batch := r.2.1, consecutiveErrors := 0 }, r.1.commit c.order, next.2 ++ r.2.2)
    else
      ({ batch := [], consecutiveErrors := 0, scheduled := .nothing }, r.1.commit c.order,
        next.2 ++ r.2.2 ++ [.batchFinished])
  else if 10 < app.consecutiveErrors then ({ app with scheduled := .exited 3 }, db, next.2)
  else ({ app with batch := next.1, consecutiveErrors := app.consecutiveErrors + 1 }, db, next.2)

/-- What is scheduled runs. -/
def run (c : Call) (app : App) (db : Database) : App × Database × List ExtractorEffect :=
  match app.scheduled with
  | .slotNewBatch ids => (app.slotNewBatch c db ids, db, [])
  | .processNextFile => app.processNextFile c db
  | .nothing => (app, db, [])
  | .exited _ => (app, db, [])

/-! ### Looking at a file -/

/-- What `index` may find: the entry is not pending any more, and an extraction is that of its document. -/
structure Indexed (info info' : BatchInfo) : Prop where
  id : info'.id = info.id
  path : info'.path = info.path
  isDone : info'.state.isDone = true
  succeeded : ∀ result, info'.state = .succeeded result → result.id = info.id ∧ info.path ≠ []

theorem indexed_of {info : BatchInfo} {state : IndexState} (hdone : state.isDone = true)
    (hsucceeded : state.isSucceeded = false) : Indexed info { info with state } where
  id := rfl
  path := rfl
  isDone := hdone
  succeeded result h := by
    obtain rfl : state = .succeeded result := h
    cases hsucceeded

theorem index_indexed (env : Surroundings) (info : BatchInfo) : Indexed info (index env info).1 := by
  rw [index]
  dsimp only
  split
  · exact indexed_of rfl rfl
  · next hurl =>
    split
    · exact indexed_of rfl rfl
    · split
      · exact indexed_of rfl rfl
      · split
        · exact indexed_of rfl rfl
        · split
          · exact indexed_of rfl rfl
          · split
            · exact indexed_of rfl rfl
            · next doc _ =>
              split
              · exact indexed_of rfl rfl
              · next hid =>
                refine ⟨rfl, rfl, rfl, fun result h => ⟨?_, hurl⟩⟩
                obtain ⟨terms, data, hframe⟩ := env.extract_frame (env.strictMimeType info.path) doc
                cases h
                rw [hframe]
                exact not_not.mp hid

end App

namespace ExtractorEffect

/-- The extractors have been run for the id. -/
def extracts (id : DocId) : ExtractorEffect → Bool
  | extracted id' => id' = id
  | _ => false

/-- An entry for the id has been acted on. -/
def acts (id : DocId) : ExtractorEffect → Bool
  | acted info _ => info.id = id
  | _ => false

/-- The batch is reported as finished. -/
def finishes : ExtractorEffect → Bool
  | batchFinished => true
  | _ => false

end ExtractorEffect

namespace App

open ExtractorEffect

/-- An entry is extracted once, nothing is acted on, and nothing is reported as finished. -/
theorem index_effects (env : Surroundings) (info : BatchInfo) (id : DocId) :
    (index env info).2.countP (extracts id) ≤ (if info.id = id then 1 else 0) ∧
      (index env info).2.countP (acts id) = 0 ∧ (index env info).2.countP finishes = 0 := by
  rw [index]
  dsimp only
  split_ifs <;> (try split) <;> (try split_ifs) <;> simp_all [extracts, acts, finishes]

end App

/-- What happens: the extractor runs, or another process changes the index. -/
inductive ExtractorEvent where
  | run (c : Call)
  | other (db : Database)

/-- The extractor, the index, and what has been done so far. -/
structure ExtractorState where
  app : App
  db : Database
  effects : List ExtractorEffect := []

namespace ExtractorState

/-- One event. -/
def step (s : ExtractorState) : ExtractorEvent → ExtractorState
  | .run c =>
    let r := s.app.run c s.db
    { app := r.1, db := r.2.1, effects := s.effects ++ r.2.2 }
  | .other db => { s with db := db }

/-- Several events. -/
def steps (s : ExtractorState) (events : List ExtractorEvent) : ExtractorState := events.foldl step s

end ExtractorState

/-! ## Files in `/p` -/

/-- The configuration with the folder `/p` and without filters. -/
def folderP : FileIndexerConfig :=
  .load id { folders := [latin1String "/p".toList], excludedFolders := [], indexHiddenFolders := false } []
    fun _ => false

/-- The extractor finds these files, and extracts nothing but what the basic indexer finds. -/
def plainFiles (fs : Snapshot) : Surroundings where
  lib := asciiLibraries
  fs := fs
  fileExists path := (fs.lstat path).isSome
  isDir path := (fs.stat (path.map fun c => UInt8.ofNat c.toNat)).isDir
  size path := (fs.stat path).size
  config := folderP
  excludeMimetypes := []
  strictMimeType _ := latin1String "application/octet-stream".toList
  extract _ doc := doc
  extract_frame _ doc := ⟨doc.terms, doc.data, rfl⟩

end Baloo
