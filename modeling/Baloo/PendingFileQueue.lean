import Baloo.Store

/-!
# The queue of pending files

`PendingFileQueue` stands between the file watcher and the indexer. An event waits in a cache for ten
milliseconds; then it is signalled, or, when the path was signalled a short time ago, it waits in the
table of pending files, for longer and longer if events keep coming. Each of the three tables is
emptied by a single-shot timer.

A method returns the queue as it stands afterwards and the signals it has emitted. Two features of
the source are arguments here, because the source leaves them open: the order in which a hash table
is visited, and the order in which `std::partition` leaves the files that are kept. Times of day are
read from the clock and are arguments as well.
-/

namespace Baloo

/-- `QTime`: milliseconds since midnight. -/
abbrev QTime : Type := ℕ

/-- `QTime::msecsTo`. -/
def QTime.msecsTo (t u : QTime) : ℤ := u - t

/-- `QTime::addMSecs` wraps at midnight. -/
def QTime.addMSecs (t : QTime) (ms : ℤ) : QTime := ((t + ms) % 86400000).toNat

/-- `QTimer`, a single-shot one. -/
structure QTimer where
  /-- milliseconds until the timer fires -/
  interval : ℤ
  /-- is the timer running? -/
  active : Bool := false

/-- `QTimer::start`. -/
def QTimer.start (timer : QTimer) : QTimer := { timer with active := true }

/-- `QTimer::setInterval`. -/
def QTimer.setInterval (timer : QTimer) (ms : ℤ) : QTimer := { timer with interval := ms }

/-- `PendingFile`. -/
structure PendingFile where
  /-- the path -/
  path : QByteArray
  /-- the file was created -/
  created : Bool := false
  /-- the file was closed after writing -/
  closedOnWrite : Bool := false
  /-- extended attributes changed -/
  attributesChanged : Bool := false
  /-- the file was deleted -/
  deleted : Bool := false
  /-- the file was modified -/
  modified : Bool := false
  deriving DecidableEq

namespace PendingFile

/-- `PendingFile::isNewFile`. -/
def isNewFile (file : PendingFile) : Bool := file.created

/-- `PendingFile::shouldIndexContents`. -/
def shouldIndexContents (file : PendingFile) : Bool :=
  file.created || file.closedOnWrite || file.modified

/-- `PendingFile::shouldIndexXAttrOnly`. -/
def shouldIndexXAttrOnly (file : PendingFile) : Bool :=
  file.attributesChanged && !file.shouldIndexContents

/-- `PendingFile::shouldRemoveIndex`. -/
def shouldRemoveIndex (file : PendingFile) : Bool := file.deleted

/-- `PendingFile::merge`: the flags of `file`, except the one for deletion, are added. -/
def merge (self file : PendingFile) : PendingFile :=
  { self with
    attributesChanged := self.attributesChanged || file.attributesChanged
    closedOnWrite := self.closedOnWrite || file.closedOnWrite
    created := self.created || file.created
    modified := self.modified || file.modified }

end PendingFile

/-- The signals of the queue. -/
inductive Signal where
  /-- `indexNewFile` -/
  | indexNewFile (path : QByteArray)
  /-- `indexModifiedFile` -/
  | indexModifiedFile (path : QByteArray)
  /-- `indexXAttr` -/
  | indexXAttr (path : QByteArray)
  /-- `removeFileIndex` -/
  | removeFileIndex (path : QByteArray)
  deriving DecidableEq

/-- `PendingFileQueue`. -/
structure PendingFileQueue where
  /-- events of the last milliseconds, one for each path -/
  cache : List PendingFile := []
  /-- empties the cache -/
  cacheTimer : QTimer := { interval := 10 }
  /-- drops old entries of `recentlyEmitted` -/
  clearRecentlyEmittedTimer : QTimer := { interval := 120 * 1000 }
  /-- signals pending files whose time has come -/
  pendingFilesTimer : QTimer := { interval := 5 * 1000 }
  /-- when a path was last signalled -/
  recentlyEmitted : OrdMap QByteArray QTime := ∅
  /-- when a path is to be signalled -/
  pendingFiles : OrdMap QByteArray QTime := ∅
  /-- how long a pending file waits at least -/
  minTimeout : ℤ := 5 * 1000
  /-- how long a pending file waits at most -/
  maxTimeout : ℤ := 60 * 1000
  /-- how long a path counts as signalled recently -/
  trackingTime : ℤ := 120 * 1000

namespace PendingFileQueue

/-- The path is that of a directory: it ends with a slash. -/
def isDirectory (path : QByteArray) : Bool := path.getLast? = some slash

/-- `m_cache.removeOne(file)`. -/
def removeOne (cache : List PendingFile) (file : PendingFile) : List PendingFile :=
  cache.eraseP fun pending => pending.path = file.path

/-- Add an event to the cache, merging it with an event for the same path. -/
def addToCache (file : PendingFile) : List PendingFile → List PendingFile
  | [] => [file]
  | pending :: cache =>
    if pending.path = file.path then pending.merge file :: cache
    else pending :: addToCache file cache

/-- The first block of `PendingFileQueue::enqueue`: forget the events below a directory that was
removed. `kept` are the other events in the order `std::partition` gives them. -/
def dropBelow (q : PendingFileQueue) (path : QByteArray) (kept : List PendingFile) :
    PendingFileQueue :=
  let dropped := (q.cache.filter fun pending => path.isPrefixOf pending.path).map PendingFile.path
  { q with
    cache := kept
    pendingFiles := dropped.foldl (fun t path => t.del path) q.pendingFiles
    recentlyEmitted := dropped.foldl (fun t path => t.del path) q.recentlyEmitted }

/-- The events that stay when a directory is removed. -/
def keepFile (path : QByteArray) (pending : PendingFile) : Bool := !path.isPrefixOf pending.path

/-- `PendingFileQueue::enqueue`. -/
def enqueue (q : PendingFileQueue) (file : PendingFile) (kept : List PendingFile) :
    PendingFileQueue × List Signal :=
  let q :=
    if file.shouldRemoveIndex && isDirectory file.path then q.dropBelow file.path kept else q
  if file.shouldRemoveIndex then
    ({ q with
        cache := removeOne q.cache file
        pendingFiles := q.pendingFiles.del file.path },
      [.removeFileIndex file.path])
  else ({ q with cache := addToCache file q.cache, cacheTimer := q.cacheTimer.start }, [])

/-- `qBound`. -/
def qBound (min val max : ℤ) : ℤ := Max.max min (Min.min max val)

/-- One round of the loop of `PendingFileQueue::processCache`. -/
def processFile (currentTime : QTime) (s : PendingFileQueue × List Signal) (file : PendingFile) :
    PendingFileQueue × List Signal :=
  let q := s.1
  if file.shouldIndexXAttrOnly then (q, s.2 ++ [.indexXAttr file.path])
  else if file.shouldIndexContents then
    match q.pendingFiles.get file.path with
    | some time =>
      let msecondsLeft := qBound q.minTimeout (currentTime.msecsTo time * 2) q.maxTimeout
      ({ q with
          pendingFiles := q.pendingFiles.put file.path (currentTime.addMSecs msecondsLeft) },
        s.2)
    | none =>
      if q.recentlyEmitted.contains file.path then
        ({ q with
            pendingFiles := q.pendingFiles.put file.path (currentTime.addMSecs q.minTimeout) },
          s.2)
      else
        ({ q with recentlyEmitted := q.recentlyEmitted.put file.path currentTime },
          s.2 ++ [if file.isNewFile then .indexNewFile file.path else .indexModifiedFile file.path])
  else s

/-- Start the timer for pending files unless it is running. -/
def startPendingFilesTimer (q : PendingFileQueue) : PendingFileQueue :=
  if q.pendingFiles.keys ≠ [] ∧ q.pendingFilesTimer.active = false then
    { q with pendingFilesTimer := (q.pendingFilesTimer.setInterval q.minTimeout).start }
  else q

/-- Start the timer for recently signalled paths unless it is running. -/
def startClearRecentlyEmittedTimer (q : PendingFileQueue) : PendingFileQueue :=
  if q.recentlyEmitted.keys ≠ [] ∧ q.clearRecentlyEmittedTimer.active = false then
    { q with
      clearRecentlyEmittedTimer := (q.clearRecentlyEmittedTimer.setInterval q.trackingTime).start }
  else q

/-- `PendingFileQueue::processCache`. -/
def processCache (q : PendingFileQueue) (currentTime : QTime) : PendingFileQueue × List Signal :=
  let s := q.cache.foldl (processFile currentTime) (q, [])
  ({ s.1 with cache := [] }.startPendingFilesTimer.startClearRecentlyEmittedTimer, s.2)

/-- `PendingFileQueue::clearRecentlyEmitted`, visiting the table in the given order. -/
def clearRecentlyEmitted (q : PendingFileQueue) (time : QTime) (order : List (QByteArray × QTime)) :
    PendingFileQueue :=
  let s := order.foldl
    (fun (s : OrdMap QByteArray QTime × ℤ) it =>
      let msecondsSinceEmitted := QTime.msecsTo it.2 time
      if q.trackingTime ≤ msecondsSinceEmitted then (s.1.del it.1, s.2)
      else (s.1, min s.2 (q.trackingTime - msecondsSinceEmitted)))
    (q.recentlyEmitted, q.trackingTime)
  let q := { q with recentlyEmitted := s.1 }
  if q.recentlyEmitted.keys ≠ [] then
    { q with clearRecentlyEmittedTimer := (q.clearRecentlyEmittedTimer.setInterval s.2).start }
  else q

/-- One round of the loop of `PendingFileQueue::processPendingFiles`: the queue, `nextUpdate` and the
signals so far. -/
def processPendingFile (currentTime : QTime) (s : PendingFileQueue × ℤ × List Signal)
    (it : QByteArray × QTime) : PendingFileQueue × ℤ × List Signal :=
  let mSecondsLeft := currentTime.msecsTo it.2
  if mSecondsLeft ≤ 0 then
    ({ s.1 with
        recentlyEmitted := s.1.recentlyEmitted.put it.1 currentTime
        pendingFiles := s.1.pendingFiles.del it.1 },
      s.2.1, s.2.2 ++ [.indexModifiedFile it.1])
  else (s.1, min mSecondsLeft s.2.1, s.2.2)

/-- `PendingFileQueue::processPendingFiles`, visiting the table in the given order. -/
def processPendingFiles (q : PendingFileQueue) (currentTime : QTime)
    (order : List (QByteArray × QTime)) : PendingFileQueue × List Signal :=
  let s := order.foldl (processPendingFile currentTime) (q, q.maxTimeout, [])
  let q := s.1
  let q :=
    if q.pendingFiles.keys ≠ [] then
      { q with pendingFilesTimer := (q.pendingFilesTimer.setInterval s.2.1).start }
    else q
  (q.startClearRecentlyEmittedTimer, s.2.2)

end PendingFileQueue

end Baloo
