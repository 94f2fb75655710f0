import Baloo.Store

/-!
# The scheduler

`FileIndexScheduler` collects paths in three lists and starts one job at a time: first for the
lists, then, outside startup and on mains power, the housekeeping and the content indexer. Its
slots run in one thread; jobs run in another one and report back with a signal.

A slot returns the scheduler as it stands afterwards and what it has done to the outside. The jobs
in the thread pool and the pending single-shot calls of `scheduleIndexing` are fields of the
scheduler. The number of documents that wait for the content indexer is an argument: it is read from
the database.
-/

namespace Baloo

/-- `IndexerState`. -/
inductive IndexerState where
  | idle
  | suspended
  | firstRun
  | newFiles
  | modifiedFiles
  | xattrFiles
  | contentIndexing
  | unindexedFileCheck
  | staleIndexEntriesClean
  | lowPowerIdle
  | unavailable
  | startup
  deriving DecidableEq

/-- The jobs of the scheduler, with the files they were given. -/
inductive Runnable where
  /-- `FirstRunIndexer` -/
  | firstRunIndexer
  /-- `NewFileIndexer` -/
  | newFileIndexer (files : List QByteArray)
  /-- `ModifiedFileIndexer` -/
  | modifiedFileIndexer (files : List QByteArray)
  /-- `XAttrIndexer` -/
  | xattrIndexer (files : List QByteArray)
  /-- `IndexCleaner` -/
  | indexCleaner
  /-- `FileContentIndexer` -/
  | fileContentIndexer
  /-- `UnindexedFileIndexer` -/
  | unindexedFileIndexer
  deriving DecidableEq

/-- What a slot does to the outside. -/
inductive Effect where
  /-- the signal `stateChanged` -/
  | stateChanged (state : IndexerState)
  /-- `m_threadPool.start` -/
  | start (runnable : Runnable)
  /-- `m_contentIndexer->quit` -/
  | quit
  deriving DecidableEq

/-- The three lists. -/
inductive FileList where
  | newFiles
  | modifiedFiles
  | xattrFiles
  deriving DecidableEq

/-- `FileIndexScheduler`, as its constructor leaves it. -/
structure FileIndexScheduler where
  /-- files that are new -/
  newFiles : List QByteArray := []
  /-- files that were modified -/
  modifiedFiles : List QByteArray := []
  /-- files whose attributes changed -/
  xattrFiles : List QByteArray := []
  /-- jobs that were started and have not reported back -/
  threadPool : List Runnable := []
  /-- pending calls of `scheduleIndexing` -/
  singleShots : ℕ := 0
  /-- `PowerStateMonitor` assumes the battery until it knows better -/
  isOnBattery : Bool := true
  /-- what the scheduler is doing -/
  indexerState : IndexerState := .startup
  /-- look for files that are not in the index -/
  checkUnindexedFiles : Bool := true
  /-- look for entries without files -/
  checkStaleIndexEntries : Bool := true
  /-- a job has reported back, and the next one has not been looked for -/
  isGoingIdle : Bool := false
  /-- indexing is suspended -/
  isSuspended : Bool := false
  /-- there has been no index before -/
  isFirstRun : Bool
  /-- the session is still starting -/
  inStartup : Bool := true

namespace FileIndexScheduler

/-- `FileIndexScheduler::isIndexerIdle`. -/
def isIndexerIdle (s : FileIndexScheduler) : Bool :=
  s.isGoingIdle || s.indexerState = .suspended || s.indexerState = .startup ||
    s.indexerState = .idle || s.indexerState = .lowPowerIdle

/-- `QTimer::singleShot(0, this, &FileIndexScheduler::scheduleIndexing)`. -/
def singleShot (s : FileIndexScheduler) : FileIndexScheduler :=
  { s with singleShots := s.singleShots + 1 }

/-! ## Starting jobs -/

/-- Start a job and say so. -/
def startRunnable (s : FileIndexScheduler) (runnable : Runnable) (state : IndexerState) :
    FileIndexScheduler × List Effect :=
  ({ s with threadPool := s.threadPool ++ [runnable], indexerState := state },
    [.start runnable, .stateChanged state])

/-- Start nothing, and say so unless it is known. -/
def rest (s : FileIndexScheduler) (state : IndexerState) : FileIndexScheduler × List Effect :=
  if s.indexerState ≠ state then ({ s with indexerState := state }, [.stateChanged state])
  else (s, [])

/-- The part of `FileIndexScheduler::scheduleIndexing` that looks for the next job; `providerSize`
documents wait for the content indexer. -/
def startNext (s : FileIndexScheduler) (providerSize : ℕ) : FileIndexScheduler × List Effect :=
  if s.isSuspended then s.rest .suspended
  else if s.isFirstRun then
    if s.inStartup then (s, [])
    else
      { s with
        isFirstRun := false
        -- not necessary immediately after the initial run
        checkStaleIndexEntries := false
        checkUnindexedFiles := false }.startRunnable .firstRunIndexer .firstRun
  else if s.newFiles ≠ [] then
    { s with newFiles := [] }.startRunnable (.newFileIndexer s.newFiles) .newFiles
  else if s.modifiedFiles ≠ [] then
    { s with modifiedFiles := [] }.startRunnable (.modifiedFileIndexer s.modifiedFiles)
      .modifiedFiles
  else if s.xattrFiles ≠ [] then
    { s with xattrFiles := [] }.startRunnable (.xattrIndexer s.xattrFiles) .xattrFiles
  else if s.inStartup then s.rest .startup
  -- no housekeeping, no content indexing
  else if s.isOnBattery then s.rest .lowPowerIdle
  else if s.checkStaleIndexEntries then
    { s with checkStaleIndexEntries := false }.startRunnable .indexCleaner .staleIndexEntriesClean
  else if 0 < providerSize then s.startRunnable .fileContentIndexer .contentIndexing
  else if s.checkUnindexedFiles then
    { s with checkUnindexedFiles := false }.startRunnable .unindexedFileIndexer .unindexedFileCheck
  else s.rest .idle

/-- `FileIndexScheduler::scheduleIndexing`. -/
def scheduleIndexing (s : FileIndexScheduler) (providerSize : ℕ) :
    FileIndexScheduler × List Effect :=
  if s.isIndexerIdle = false then (s, [])
  else { s with isGoingIdle := false }.startNext providerSize

/-! ## The slots -/

/-- One of the three lists. -/
def files (s : FileIndexScheduler) : FileList → List QByteArray
  | .newFiles => s.newFiles
  | .modifiedFiles => s.modifiedFiles
  | .xattrFiles => s.xattrFiles

/-- Replace one of the three lists. -/
def setFiles (s : FileIndexScheduler) (files : List QByteArray) : FileList → FileIndexScheduler
  | .newFiles => { s with newFiles := files }
  | .modifiedFiles => { s with modifiedFiles := files }
  | .xattrFiles => { s with xattrFiles := files }

/-- The slots that put a path into a list. -/
def indexFile (s : FileIndexScheduler) (list : FileList) (file : QByteArray) :
    FileIndexScheduler :=
  if file ∈ s.files list then s
  else
    let s := s.setFiles (s.files list ++ [file]) list
    if s.isIndexerIdle then s.singleShot else s

/-- `FileIndexScheduler::indexNewFile`. -/
def indexNewFile (s : FileIndexScheduler) (file : QByteArray) : FileIndexScheduler :=
  s.indexFile .newFiles file

/-- `FileIndexScheduler::indexModifiedFile`. -/
def indexModifiedFile (s : FileIndexScheduler) (file : QByteArray) : FileIndexScheduler :=
  s.indexFile .modifiedFiles file

/-- `FileIndexScheduler::indexXAttrFile`. -/
def indexXAttrFile (s : FileIndexScheduler) (file : QByteArray) : FileIndexScheduler :=
  s.indexFile .xattrFiles file

/-- `FileIndexScheduler::runnerFinished`. -/
def runnerFinished (s : FileIndexScheduler) : FileIndexScheduler :=
  { s with isGoingIdle := true }.singleShot

/-- `FileIndexScheduler::startupFinished`. -/
def startupFinished (s : FileIndexScheduler) : FileIndexScheduler :=
  { s with inStartup := false }.singleShot

/-- `removeStartsWith`. -/
def removeStartsWith (list : List QByteArray) (dir : QByteArray) : List QByteArray :=
  list.filter fun file => !dir.isPrefixOf file

/-- `removeShouldNotIndex`. -/
def removeShouldNotIndex (list : List QByteArray) (shouldBeIndexed : QByteArray → Bool) :
    List QByteArray :=
  list.filter shouldBeIndexed

/-- `FileIndexScheduler::handleFileRemoved`. -/
def handleFileRemoved (s : FileIndexScheduler) (file : QByteArray) : FileIndexScheduler :=
  if file.getLast? ≠ some slash then
    { s with
      newFiles := s.newFiles.erase file
      modifiedFiles := s.modifiedFiles.erase file
      xattrFiles := s.xattrFiles.erase file }
  else
    { s with
      newFiles := removeStartsWith s.newFiles file
      modifiedFiles := removeStartsWith s.modifiedFiles file
      xattrFiles := removeStartsWith s.xattrFiles file }

/-- `m_contentIndexer->quit()` if it is the content indexer that is at work. -/
def quitContentIndexer (s : FileIndexScheduler) : List Effect :=
  if s.indexerState = .contentIndexing then [.quit] else []

/-- `FileIndexScheduler::updateConfig`; `shouldBeIndexed` is what the new configuration says. -/
def updateConfig (s : FileIndexScheduler) (shouldBeIndexed : QByteArray → Bool)
    (providerSize : ℕ) : FileIndexScheduler × List Effect :=
  -- interrupt the content indexer, to avoid indexing files that should not be indexed
  let effects := s.quitContentIndexer
  let s := { s with
    newFiles := removeShouldNotIndex s.newFiles shouldBeIndexed
    modifiedFiles := removeShouldNotIndex s.modifiedFiles shouldBeIndexed
    xattrFiles := removeShouldNotIndex s.xattrFiles shouldBeIndexed
    checkStaleIndexEntries := true
    checkUnindexedFiles := true }
  let (s, more) := s.scheduleIndexing providerSize
  (s, effects ++ more)

/-- `FileIndexScheduler::powerManagementStatusChanged`. -/
def powerManagementStatusChanged (s : FileIndexScheduler) (isOnBattery : Bool)
    (providerSize : ℕ) : FileIndexScheduler × List Effect :=
  if isOnBattery && s.indexerState = .contentIndexing then (s, [.quit])
  else s.scheduleIndexing providerSize

/-- `PowerStateMonitor::slotPowerManagementStatusChanged`. -/
def slotPowerManagementStatusChanged (s : FileIndexScheduler) (conserveResources : Bool)
    (providerSize : ℕ) : FileIndexScheduler × List Effect :=
  if s.isOnBattery ≠ conserveResources then
    { s with isOnBattery := conserveResources }.powerManagementStatusChanged conserveResources
      providerSize
  else (s, [])

/-- `FileIndexScheduler::setSuspend`. -/
def setSuspend (s : FileIndexScheduler) (suspend : Bool) (providerSize : ℕ) :
    FileIndexScheduler × List Effect :=
  let s := { s with isSuspended := suspend }
  if suspend then
    if s.indexerState = .contentIndexing then (s, [.quit]) else s.scheduleIndexing providerSize
  else s.scheduleIndexing providerSize

/-- The slot `FileIndexScheduler::checkUnindexedFiles`. -/
def requestUnindexedFilesCheck (s : FileIndexScheduler) (providerSize : ℕ) :
    FileIndexScheduler × List Effect :=
  { s with checkUnindexedFiles := true }.scheduleIndexing providerSize

/-- The slot `FileIndexScheduler::checkStaleIndexEntries`. -/
def requestStaleIndexEntriesCheck (s : FileIndexScheduler) (providerSize : ℕ) :
    FileIndexScheduler × List Effect :=
  { s with checkStaleIndexEntries := true }.scheduleIndexing providerSize

/-! ## Events -/

end FileIndexScheduler

/-- What the event loop delivers to the scheduler. -/
inductive SchedulerEvent where
  /-- `FileWatch::indexNewFile` -/
  | indexNewFile (file : QByteArray)
  /-- `FileWatch::indexModifiedFile` -/
  | indexModifiedFile (file : QByteArray)
  /-- `FileWatch::indexXAttr` -/
  | indexXAttrFile (file : QByteArray)
  /-- `FileWatch::fileRemoved` -/
  | fileRemoved (file : QByteArray)
  /-- the signal `done` of a job -/
  | done (runnable : Runnable)
  /-- the power management reports a change -/
  | powerSaveStatusChanged (conserveResources : Bool)
  /-- `suspend` -/
  | suspend
  /-- `resume` -/
  | resume
  /-- the configuration was changed -/
  | updateConfig (shouldBeIndexed : QByteArray → Bool)
  /-- `checkUnindexedFiles` -/
  | checkUnindexedFiles
  /-- `checkStaleIndexEntries` -/
  | checkStaleIndexEntries
  /-- `startupFinished` -/
  | startupFinished
  /-- a single-shot timer calls `scheduleIndexing` -/
  | timeout
  /-- `FileWatch::installedWatches` calls `scheduleIndexing` -/
  | installedWatches

namespace FileIndexScheduler

/-- Can the event occur? A job reports back if it was started, a timer fires if it was set. -/
def Enabled (s : FileIndexScheduler) : SchedulerEvent → Prop
  | .done runnable => runnable ∈ s.threadPool
  | .timeout => 0 < s.singleShots
  | _ => True

/-- Run the slot that is connected to the event. -/
def deliver (s : FileIndexScheduler) (providerSize : ℕ) :
    SchedulerEvent → FileIndexScheduler × List Effect
  | .indexNewFile file => (s.indexNewFile file, [])
  | .indexModifiedFile file => (s.indexModifiedFile file, [])
  | .indexXAttrFile file => (s.indexXAttrFile file, [])
  | .fileRemoved file => (s.handleFileRemoved file, [])
  | .done runnable => ({ s with threadPool := s.threadPool.erase runnable }.runnerFinished, [])
  | .powerSaveStatusChanged conserveResources =>
    s.slotPowerManagementStatusChanged conserveResources providerSize
  | .suspend => s.setSuspend true providerSize
  | .resume => s.setSuspend false providerSize
  | .updateConfig shouldBeIndexed => s.updateConfig shouldBeIndexed providerSize
  | .checkUnindexedFiles => s.requestUnindexedFilesCheck providerSize
  | .checkStaleIndexEntries => s.requestStaleIndexEntriesCheck providerSize
  | .startupFinished => (s.startupFinished, [])
  | .timeout => { s with singleShots := s.singleShots - 1 }.scheduleIndexing providerSize
  | .installedWatches => s.scheduleIndexing providerSize

end FileIndexScheduler

end Baloo
