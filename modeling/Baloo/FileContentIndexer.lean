import Baloo.WriteTransaction
import Mathlib.Data.Int.DivMod

/-!
# The content indexer

`FileContentIndexer::run` takes the documents that wait for content indexing, a batch at a time,
hands each batch to an extractor process and waits for it to commit or to fail. It runs in a thread
of its own. Another thread may call `quit` at any time, so `run` is cut into steps between which the
stop flag can change: one step for every access to the flag, the database or the process.

What the extractor does with a batch, and whether a commit succeeds, is up to an `Environment`.
-/

namespace Baloo

/-! ## The documents that wait -/

/-- `DocumentIdDB::fetchItems`: the first ids of the table. -/
def DocumentIdDB.fetchItems (t : DocumentIdDB) (size : ℤ) : List DocId :=
  (OrdMap.keys t).take size.toNat

/-- `DocumentIdDB::size`. -/
def DocumentIdDB.size (t : DocumentIdDB) : ℕ := (OrdMap.keys t).length

namespace FileContentIndexerProvider

/-- `FileContentIndexerProvider::fetch`. The size, a `uint`, becomes the `int` that
`Transaction::fetchPhaseOneIds` takes. -/
def fetch (db : Database) (size : ℕ) : List DocId :=
  db.contentIndexingDb.fetchItems ((size : ℤ).bmod (2 ^ 32))

/-- `FileContentIndexerProvider::size`. -/
def size (db : Database) : ℕ := db.contentIndexingDb.size

/-- `FileContentIndexerProvider::markFailed`, when the commit succeeds. -/
def markFailed (db : Database) (id : DocId) : Database :=
  { db with
    failedIdDb := if db.failedIdDb.contains id then db.failedIdDb else db.failedIdDb.put id
    contentIndexingDb := db.contentIndexingDb.del id }

end FileContentIndexerProvider

/-! ## The thread -/

/-- Where a thread is in `FileContentIndexer::run`. -/
inductive Pc where
  /-- the job has not been started -/
  | idle
  /-- the job is in the thread pool, and `run` has not begun -/
  | queued
  /-- at the head of the loop -/
  | fetching (batchSize : ℕ)
  /-- the batch is fetched, and the stop flag is to be read -/
  | checking (idList : List DocId)
  /-- the batch is to be given to the extractor -/
  | indexing (idList : List DocId)
  /-- in the event loop, until the extractor is done with the batch -/
  | waiting (idList : List DocId)
  /-- the extractor is done with the batch or has failed -/
  | finished (idList : List DocId) (hadErrors : Bool)
  /-- `run` has ended, and the signal `done` is on its way -/
  | done
  /-- the program has ended: marking a document as failed did not work -/
  | exited

/-- `FileContentIndexer`. -/
structure FileContentIndexer where
  /-- how many documents are given to the extractor at once -/
  batchSize : ℕ
  /-- `m_stop`: `run` has been asked to end -/
  stop : Bool := false
  /-- the thread -/
  pc : Pc := .idle

/-- `FileContentIndexer::quit`. -/
def FileContentIndexer.quit (indexer : FileContentIndexer) : FileContentIndexer :=
  { indexer with stop := true }

/-- What an observer of the content indexer sees. -/
inductive Activity where
  /-- the scheduler starts the job -/
  | start
  /-- the scheduler calls `quit` -/
  | quit
  /-- a batch is fetched -/
  | fetch (size : ℕ)
  /-- a batch is given to the extractor -/
  | index (idList : List DocId)
  /-- the extractor has committed documents -/
  | committed (ids : List DocId)
  /-- a document is marked as failed -/
  | markFailed (id : DocId)
  deriving DecidableEq

/-- What the content indexer depends on. -/
structure Environment where
  /-- the extractor is given a batch: it commits documents, with some database as the result, and
  reports whether it failed -/
  extracts : Database → List DocId → List DocId → Database → Bool → Prop
  /-- a commit may succeed, or fail -/
  commits : Bool → Prop

/-- The steps of `FileContentIndexer::run`, with what is seen of them. -/
inductive WorkerStep (env : Environment) :
    FileContentIndexer × Database → List Activity → FileContentIndexer × Database → Prop
  /-- `m_stop.storeRelaxed(false); auto batchSize = m_batchSize;` -/
  | begin {indexer : FileContentIndexer} {db : Database} :
    indexer.pc = .queued →
    WorkerStep env (indexer, db) []
      ({ indexer with stop := false, pc := .fetching indexer.batchSize }, db)
  /-- `idList = m_provider->fetch(batchSize)` -/
  | fetch {indexer : FileContentIndexer} {db : Database} (size : ℕ) :
    indexer.pc = .fetching size →
    WorkerStep env (indexer, db) [.fetch size]
      ({ indexer with pc := .checking (FileContentIndexerProvider.fetch db size) }, db)
  /-- `if (idList.isEmpty() || m_stop.loadRelaxed()) break;` -/
  | check {indexer : FileContentIndexer} {db : Database} (idList : List DocId) :
    indexer.pc = .checking idList →
    WorkerStep env (indexer, db) []
      ({ indexer with pc := if idList = [] ∨ indexer.stop = true then .done else .indexing idList },
        db)
  /-- `process.index(idList)` -/
  | index {indexer : FileContentIndexer} {db : Database} (idList : List DocId) :
    indexer.pc = .indexing idList →
    WorkerStep env (indexer, db) [.index idList] ({ indexer with pc := .waiting idList }, db)
  /-- `loop.exec()` returns -/
  | extracted {indexer : FileContentIndexer} {db db' : Database} (idList ids : List DocId)
    (hadErrors : Bool) :
    indexer.pc = .waiting idList → env.extracts db idList ids db' hadErrors →
    WorkerStep env (indexer, db) [.committed ids]
      ({ indexer with pc := .finished idList hadErrors }, db')
  /-- no errors, or the errors do not matter any more; `batchSize` is the size of the last batch -/
  | proceed {indexer : FileContentIndexer} {db : Database} (idList : List DocId)
    (hadErrors : Bool) :
    indexer.pc = .finished idList hadErrors → ¬ (hadErrors = true ∧ indexer.stop = false) →
    WorkerStep env (indexer, db) [] ({ indexer with pc := .fetching idList.length }, db)
  /-- errors in a batch of several documents: `batchSize /= 2` -/
  | halve {indexer : FileContentIndexer} {db : Database} (idList : List DocId) :
    indexer.pc = .finished idList true → indexer.stop = false → idList.length ≠ 1 →
    WorkerStep env (indexer, db) [] ({ indexer with pc := .fetching (idList.length / 2) }, db)
  /-- errors in a single document: `m_provider->markFailed(failedId)`, and back to `m_batchSize` -/
  | markFailed {indexer : FileContentIndexer} {db : Database} (failedId : DocId) :
    indexer.pc = .finished [failedId] true → indexer.stop = false → env.commits true →
    WorkerStep env (indexer, db) [.markFailed failedId]
      ({ indexer with pc := .fetching indexer.batchSize },
        FileContentIndexerProvider.markFailed db failedId)
  /-- the document cannot be marked: `exit(1)` -/
  | exit {indexer : FileContentIndexer} {db : Database} (failedId : DocId) :
    indexer.pc = .finished [failedId] true → indexer.stop = false → env.commits false →
    WorkerStep env (indexer, db) [] ({ indexer with pc := .exited }, db)

end Baloo
