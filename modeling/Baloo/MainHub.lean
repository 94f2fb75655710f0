import Baloo.MovePairing
import Baloo.SchedulerRuns
import Baloo.WatchUpdate

/-!
# The wiring of the daemon

`KInotify` signals what happens to files; `FileWatch` turns most of the signals into events of its
queue or into changes of the index, and signals the paths that are to be indexed; `MainHub` connects
these signals to the scheduler. All of this runs in one thread: a slot runs when its signal is emitted.

The signal for an overflow of the kernel's queue is connected to nothing. An overflow is followed by a
check for unindexed files exactly if one was due anyway, or if it is requested for another reason
(`overflow_rescanned_iff`).
-/

namespace Baloo

/-- The signals of `FileWatch`. -/
inductive FileWatchSignal where
  /-- `indexNewFile` -/
  | indexNewFile (path : QByteArray)
  /-- `indexModifiedFile` -/
  | indexModifiedFile (path : QByteArray)
  /-- `indexXAttr` -/
  | indexXAttr (path : QByteArray)
  /-- `fileRemoved` -/
  | fileRemoved (path : QByteArray)
  /-- `installedWatches` -/
  | installedWatches

/-! ## `FileWatch` -/

/-- What the slots of `FileWatch` ask. -/
structure FileWatch.Outside where
  /-- `QFile::encodeName` -/
  encodeName : List QChar → QByteArray
  /-- `QFileInfo::isDir` -/
  isDir : List QChar → Bool
  /-- the file or its directory was modified a short time ago -/
  recentlyModified : List QChar → Bool
  /-- the path is in the index, once the target of a move has been removed from it -/
  known : QByteArray → Bool
  /-- the order in which `std::partition` leaves the events that are kept -/
  kept : QByteArray → List PendingFile → List PendingFile

namespace MetadataMover

/-- A path without the slash at its end. -/
def chopSlash (path : QByteArray) : QByteArray := if path.getLast? = some slash then path.dropLast else path

/-- The signals of `moveFileMetadata`. -/
def moveFileMetadata (known : QByteArray → Bool) (source target : QByteArray) : List FileWatchSignal :=
  let toPath := chopSlash target
  let parentPath := (toPath.reverse.dropWhile (· ≠ slash)).reverse
  .fileRemoved target ::
    if !known (chopSlash source) then [.indexNewFile toPath]
    else if !known parentPath then [.indexNewFile parentPath]
    else []

/-- The signals of `removeFileMetadata`. -/
def removeFileMetadata (url : QByteArray) : List FileWatchSignal := [.fileRemoved url]

end MetadataMover

namespace FileWatch

/-- What `FileWatch` does when its queue signals. -/
def ofQueue : Signal → List FileWatchSignal
  | .indexNewFile path => [.indexNewFile path]
  | .indexModifiedFile path => [.indexModifiedFile path]
  | .indexXAttr path => [.indexXAttr path]
  | .removeFileIndex path => MetadataMover.removeFileMetadata path

variable (outside : Outside) (config : FileIndexerConfig) (q : PendingFileQueue)

/-- `m_pendingFileQueue->enqueue`. -/
def enqueue (file : PendingFile) : PendingFileQueue × List FileWatchSignal :=
  let (q, signals) := q.enqueue file (outside.kept file.path q.cache)
  (q, signals.flatMap ofQueue)

/-- The url of a directory ends with a slash. -/
def dirUrl (url : List QChar) (isDir : Bool) : List QChar := if isDir then normalizeTrailingSlash url else url

/-- `slotFileMoved`. -/
def slotFileMoved (urlFrom urlTo : List QChar) : PendingFileQueue × List FileWatchSignal :=
  if config.shouldBeIndexed outside.isDir urlTo then
    (q, MetadataMover.moveFileMetadata outside.known (outside.encodeName urlFrom) (outside.encodeName urlTo))
  else
    enqueue outside q
      { path := outside.encodeName (dirUrl urlFrom (outside.isDir urlFrom)), deleted := true }

/-- `slotFileDeleted`. -/
def slotFileDeleted (url : List QChar) (isDir : Bool) : PendingFileQueue × List FileWatchSignal :=
  enqueue outside q { path := outside.encodeName (dirUrl url isDir), deleted := true }

/-- `slotFileCreated`. -/
def slotFileCreated (path : List QChar) : PendingFileQueue × List FileWatchSignal :=
  enqueue outside q { path := outside.encodeName path, created := true }

/-- `slotFileModified`. -/
def slotFileModified (path : List QChar) : PendingFileQueue × List FileWatchSignal :=
  enqueue outside q { path := outside.encodeName path, modified := true }

/-- `slotFileClosedAfterWrite`. -/
def slotFileClosedAfterWrite (path : List QChar) : PendingFileQueue × List FileWatchSignal :=
  if outside.recentlyModified path then
    enqueue outside q { path := outside.encodeName path, closedOnWrite := true }
  else (q, [])

/-- `slotAttributeChanged`. -/
def slotAttributeChanged (path : List QChar) : PendingFileQueue × List FileWatchSignal :=
  enqueue outside q { path := outside.encodeName path, attributesChanged := true }

/-- The connections of the constructor: a signal of `KInotify` runs the slot that is connected to it. -/
def receive : KInotify.Signal → PendingFileQueue × List FileWatchSignal
  | .moved urlFrom urlTo => slotFileMoved outside config q urlFrom urlTo
  | .deleted url isDir => slotFileDeleted outside q url isDir
  | .created path _ => slotFileCreated outside q path
  | .modified path => slotFileModified outside q path
  | .closedWrite path => slotFileClosedAfterWrite outside q path
  | .attributeChanged path => slotAttributeChanged outside q path
  -- `slotInotifyWatchUserLimitReached`
  | .watchUserLimitReached _ => (q, [.installedWatches])
  | .installedWatches => (q, [.installedWatches])
  -- these are not connected
  | .accessed _ => (q, [])
  | .closedRead _ => (q, [])
  | .opened _ => (q, [])
  | .unmounted _ => (q, [])
  | .eventQueueOverflowed => (q, [])

/-- The signals are emitted one after the other. -/
def receiveAll : PendingFileQueue → List KInotify.Signal → PendingFileQueue × List FileWatchSignal
  | q, [] => (q, [])
  | q, signal :: signals =>
    let (q, out) := receive outside config q signal
    let (q, out') := receiveAll q signals
    (q, out ++ out')

end FileWatch

/-! ## `MainHub` -/

/-- `MainHub`. -/
structure MainHub (σ : Type) where
  /-- `m_fileWatcher` -/
  fileWatcher : FileWatch σ
  /-- the watcher of `m_fileWatcher` has been deleted, because there were too many watches -/
  dirWatchDeleted : Bool := false
  /-- the queue of `m_fileWatcher` -/
  pendingFileQueue : PendingFileQueue := {}
  /-- `m_fileIndexScheduler` -/
  fileIndexScheduler : FileIndexScheduler
  /-- the constructor has posted a call of `updateIndexedFoldersWatches` -/
  watchesPosted : Bool := true

namespace MainHub

/-- The connections of the constructor. -/
def connect : FileWatchSignal → SchedulerEvent
  | .indexNewFile path => .indexNewFile path
  | .indexModifiedFile path => .indexModifiedFile path
  | .indexXAttr path => .indexXAttrFile path
  | .fileRemoved path => .fileRemoved path
  | .installedWatches => .installedWatches

/-- The slots of the scheduler run one after the other. -/
inductive Delivers : FileIndexScheduler → List SchedulerEvent → FileIndexScheduler → List Effect → Prop
  | nil {s : FileIndexScheduler} : Delivers s [] s []
  | cons {s s' : FileIndexScheduler} {event : SchedulerEvent} {events : List SchedulerEvent}
      {effects : List Effect} (providerSize : ℕ) (henabled : s.Enabled event)
      (hrest : Delivers (s.deliver providerSize event).1 events s' effects) :
      Delivers s (event :: events) s' ((s.deliver providerSize event).2 ++ effects)

/-- What happens to the daemon. -/
inductive HubEvent where
  /-- events of the kernel are read -/
  | read (packets : List KInotify.Packet)
  /-- the timer for cookies fires -/
  | cookieTimeout
  /-- a posted call of `_k_addWatches` -/
  | addWatches
  /-- the call of `updateIndexedFoldersWatches` that was posted by the constructor -/
  | updateIndexedFoldersWatches
  /-- a timer of the queue fires -/
  | queueTimeout
  /-- the configuration was changed -/
  | updateConfig (config : FileIndexerConfig)
  /-- something else happens to the scheduler -/
  | scheduler (event : SchedulerEvent)

/-- Events that come to the scheduler from elsewhere than the watcher and `updateConfig`. -/
def fromElsewhere : SchedulerEvent → Bool
  | .done _ | .powerSaveStatusChanged _ | .suspend | .resume | .checkUnindexedFiles
  | .checkStaleIndexEntries | .startupFinished | .timeout => true
  | _ => false

section

variable {σ : Type} [Inotify σ]

/-- `FileWatch::updateIndexedFoldersWatches` needs the watcher. -/
def updateWatches (dirWatchDeleted : Bool) (fw : FileWatch σ) : FileWatch σ :=
  if dirWatchDeleted then fw else fw.updateIndexedFoldersWatches

/-- A round of the event loop: the events that are delivered to the scheduler, and what it does. -/
inductive Step : MainHub σ → HubEvent → List SchedulerEvent → List Effect → MainHub σ → Prop
  /-- `KInotify::slotEvent` -/
  | read {hub : MainHub σ} {env : KInotify.Surroundings} {now : ℕ} {packets : List KInotify.Packet}
      {dirWatch : KInotify σ} {trace : List KInotify.Handled} {outside : FileWatch.Outside} {q : PendingFileQueue}
      {out : List FileWatchSignal} {scheduler : FileIndexScheduler} {effects : List Effect}
      (hwatch : hub.dirWatchDeleted = false) (hpackets : ∀ packet ∈ packets, packet.WellFormed)
      (hreturns : Fuel.Returns (fun n => KInotify.processEventBuffer env n now hub.fileWatcher.dirWatch
        (packets.flatMap KInotify.Packet.bytes)) (dirWatch, trace))
      (hreceive : FileWatch.receiveAll outside hub.fileWatcher.config hub.pendingFileQueue
        (trace.flatMap KInotify.Handled.signals) = (q, out))
      (hdelivers : Delivers hub.fileIndexScheduler (out.map connect) scheduler effects) :
      Step hub (.read packets) (out.map connect) effects
        { hub with
          fileWatcher := { hub.fileWatcher with dirWatch := dirWatch }
          dirWatchDeleted :=
            (trace.flatMap KInotify.Handled.signals).any fun signal => signal matches .watchUserLimitReached _
          pendingFileQueue := q, fileIndexScheduler := scheduler }
  /-- `KInotify::slotClearCookies` -/
  | cookieTimeout {hub : MainHub σ} {now : ℕ} {outside : FileWatch.Outside} {q : PendingFileQueue}
      {out : List FileWatchSignal} {scheduler : FileIndexScheduler} {effects : List Effect}
      (hwatch : hub.dirWatchDeleted = false)
      (hactive : hub.fileWatcher.dirWatch.cookieExpireTimer.active = true)
      (hreceive : FileWatch.receiveAll outside hub.fileWatcher.config hub.pendingFileQueue
        ((KInotify.slotClearCookies now hub.fileWatcher.dirWatch).2.flatMap Prod.snd) = (q, out))
      (hdelivers : Delivers hub.fileIndexScheduler (out.map connect) scheduler effects) :
      Step hub .cookieTimeout (out.map connect) effects
        { hub with
          fileWatcher := { hub.fileWatcher with
            dirWatch := (KInotify.slotClearCookies now hub.fileWatcher.dirWatch).1 }
          pendingFileQueue := q, fileIndexScheduler := scheduler }
  /-- `KInotify::Private::_k_addWatches` -/
  | addWatches {hub : MainHub σ} {listing : FilteredDirIterator.Listing} {dirWatch : KInotify σ}
      {signals : List KInotify.Signal} {outside : FileWatch.Outside} {q : PendingFileQueue}
      {out : List FileWatchSignal} {scheduler : FileIndexScheduler} {effects : List Effect}
      (hwatch : hub.dirWatchDeleted = false) (hposted : 0 < hub.fileWatcher.dirWatch.posted)
      (hadd : KInotify.Private.addWatches listing
        { hub.fileWatcher.dirWatch with posted := hub.fileWatcher.dirWatch.posted - 1 } = (dirWatch, signals))
      (hreceive : FileWatch.receiveAll outside hub.fileWatcher.config hub.pendingFileQueue signals = (q, out))
      (hdelivers : Delivers hub.fileIndexScheduler (out.map connect) scheduler effects) :
      Step hub .addWatches (out.map connect) effects
        { hub with
          fileWatcher := { hub.fileWatcher with dirWatch := dirWatch }
          dirWatchDeleted := signals.any fun signal => signal matches .watchUserLimitReached _
          pendingFileQueue := q, fileIndexScheduler := scheduler }
  /-- `FileWatch::updateIndexedFoldersWatches` -/
  | updateIndexedFoldersWatches {hub : MainHub σ} (hposted : hub.watchesPosted = true) :
      Step hub .updateIndexedFoldersWatches [] []
        { hub with fileWatcher := updateWatches hub.dirWatchDeleted hub.fileWatcher, watchesPosted := false }
  /-- `processCache`, `processPendingFiles` or `clearRecentlyEmitted` -/
  | queueTimeout {hub : MainHub σ} {q : PendingFileQueue} {signals : List Signal}
      {scheduler : FileIndexScheduler} {effects : List Effect} (currentTime : QTime)
      (order : List (QByteArray × QTime))
      (htimeout : (q, signals) = hub.pendingFileQueue.processCache currentTime ∨
        (q, signals) = hub.pendingFileQueue.processPendingFiles currentTime order ∨
          (q, signals) = (hub.pendingFileQueue.clearRecentlyEmitted currentTime order, []))
      (hdelivers :
        Delivers hub.fileIndexScheduler ((signals.flatMap FileWatch.ofQueue).map connect) scheduler effects) :
      Step hub .queueTimeout ((signals.flatMap FileWatch.ofQueue).map connect) effects
        { hub with pendingFileQueue := q, fileIndexScheduler := scheduler }
  /-- `MainHub::updateConfig` -/
  | updateConfig {hub : MainHub σ} {config : FileIndexerConfig} {scheduler : FileIndexScheduler}
      {effects : List Effect} (shouldBeIndexed : QByteArray → Bool)
      (hdelivers : Delivers hub.fileIndexScheduler [.updateConfig shouldBeIndexed] scheduler effects) :
      Step hub (.updateConfig config) [.updateConfig shouldBeIndexed] effects
        { hub with
          fileWatcher := updateWatches hub.dirWatchDeleted (hub.fileWatcher.setConfig config)
          fileIndexScheduler := scheduler }
  /-- the scheduler by itself -/
  | scheduler {hub : MainHub σ} {event : SchedulerEvent} {scheduler : FileIndexScheduler}
      {effects : List Effect} (hevent : fromElsewhere event = true)
      (hdelivers : Delivers hub.fileIndexScheduler [event] scheduler effects) :
      Step hub (.scheduler event) [event] effects { hub with fileIndexScheduler := scheduler }

end

end MainHub

/-! ## Checks for unindexed files -/

/-- The event asks for a check for unindexed files. -/
def SchedulerEvent.requests : SchedulerEvent → Bool
  | .updateConfig _ | .checkUnindexedFiles => true
  | _ => false

namespace FileIndexScheduler

/-- A check for unindexed files is due, or runs. -/
def Rescans (s : FileIndexScheduler) : Prop :=
  s.checkUnindexedFiles = true ∨ .unindexedFileIndexer ∈ s.threadPool

/-- The next call of `scheduleIndexing` starts the first run. -/
def FirstRunDue (s : FileIndexScheduler) : Prop :=
  s.isFirstRun = true ∧ s.inStartup = false ∧ s.isSuspended = false

/-- What holds of the request for a check at any time. -/
structure CheckInvariant (s : FileIndexScheduler) : Prop where
  /-- the scheduler is idle only when nothing is requested -/
  idle : s.indexerState = .idle → s.checkUnindexedFiles = false ∧ s.isFirstRun = false
  /-- before the first run a check is requested, and no job has been started -/
  firstRun : s.isFirstRun = true → s.checkUnindexedFiles = true ∧ s.indexerState.rests = true

/-- What becomes of a request when the scheduler looks for the next job. -/
inductive Scheduled (s : FileIndexScheduler) (s' : FileIndexScheduler) (effects : List Effect) : Prop
  /-- it stays -/
  | stays (hdue : ¬ s.FirstRunDue) (hflag : s'.checkUnindexedFiles = s.checkUnindexedFiles)
      (hcheck : .unindexedFileIndexer ∉ started effects) (hfirst : .firstRunIndexer ∉ started effects)
      (hdue' : ¬ s'.FirstRunDue)
  /-- the check is started -/
  | check (hdue : ¬ s.FirstRunDue) (hflag : s.checkUnindexedFiles = true) (hflag' : s'.checkUnindexedFiles = false)
      (hcheck : .unindexedFileIndexer ∈ started effects) (hfirst : .firstRunIndexer ∉ started effects)
      (hdue' : ¬ s'.FirstRunDue)
  /-- the first run is started -/
  | firstRun (hdue : s.FirstRunDue) (hflag' : s'.checkUnindexedFiles = false)
      (hcheck : .unindexedFileIndexer ∉ started effects) (hfirst : .firstRunIndexer ∈ started effects)
      (hdue' : ¬ s'.FirstRunDue)

variable {s s' : FileIndexScheduler} {n : ℕ} {event : SchedulerEvent} {events : List SchedulerEvent}
  {effects : List Effect}

theorem scheduled_rest {state : IndexerState} (hdue : ¬ s.FirstRunDue)
    (hstate : state = .idle → s.checkUnindexedFiles = false ∧ s.isFirstRun = false)
    (hrests : state.rests = true) (hfirst : s.isFirstRun = true → s.checkUnindexedFiles = true) :
    CheckInvariant (s.rest state).1 ∧ Scheduled s (s.rest state).1 (s.rest state).2 := by
  rw [rest]
  split
  · exact ⟨⟨hstate, fun h => ⟨hfirst h, hrests⟩⟩, .stays hdue rfl List.not_mem_nil List.not_mem_nil hdue⟩
  · next heq =>
    rw [← not_not.mp heq] at hstate hrests
    exact ⟨⟨hstate, fun h => ⟨hfirst h, hrests⟩⟩, .stays hdue rfl List.not_mem_nil List.not_mem_nil hdue⟩

/-- Starting a job that is neither a check nor the first run. -/
theorem scheduled_startRunnable {t : FileIndexScheduler} {runnable : Runnable} {state : IndexerState}
    (hdue : ¬ s.FirstRunDue) (hfirst : s.isFirstRun = false) (hstate : state ≠ .idle)
    (hflag : t.checkUnindexedFiles = s.checkUnindexedFiles) (hfirst' : t.isFirstRun = s.isFirstRun)
    (hrunnable : runnable ≠ .unindexedFileIndexer ∧ runnable ≠ .firstRunIndexer) :
    CheckInvariant (t.startRunnable runnable state).1 ∧
      Scheduled s (t.startRunnable runnable state).1 (t.startRunnable runnable state).2 := by
  have hstarted : started (t.startRunnable runnable state).2 = [runnable] := rfl
  have hfalse : t.isFirstRun ≠ true := fun h => absurd ((hfirst'.trans hfirst).symm.trans h) Bool.false_ne_true
  refine ⟨⟨fun h => absurd h hstate, fun h => absurd h hfalse⟩, .stays hdue hflag ?_ ?_ fun h => hfalse h.1⟩
  · rw [hstarted, List.mem_singleton]
    exact hrunnable.1.symm
  · rw [hstarted, List.mem_singleton]
    exact hrunnable.2.symm

/-- The search for the next job, as far as checks are concerned. -/
theorem startNext_scheduled (hidle : s.indexerState = .idle → s.isFirstRun = false)
    (hfirst : s.isFirstRun = true → s.checkUnindexedFiles = true ∧ s.indexerState.rests = true) :
    CheckInvariant (s.startNext n).1 ∧ Scheduled s (s.startNext n).1 (s.startNext n).2 := by
  refine @startNext_rule s n (fun r => CheckInvariant r.1 ∧ Scheduled s r.1 r.2) ?_ ?_ ?_ ?_ ?_
  · exact fun state hrests hdue hstate => scheduled_rest hdue hstate hrests fun h => (hfirst h).1
  · intro hfirstRun hstartup
    have hdue : ¬ s.FirstRunDue := fun h => absurd (h.2.1.symm.trans hstartup) Bool.false_ne_true
    refine ⟨⟨fun h => ?_, hfirst⟩, .stays hdue rfl List.not_mem_nil List.not_mem_nil hdue⟩
    exact absurd ((hidle h).symm.trans hfirstRun) Bool.false_ne_true
  · intro hdue
    refine ⟨⟨nofun, nofun⟩, .firstRun hdue rfl ?_ ?_ ?_⟩
    · exact fun h => nomatch List.mem_singleton.mp h
    · exact List.mem_singleton.mpr rfl
    · exact fun h => nomatch h.1
  · intro t runnable state hfalse hstate hflag hfirstRun hrunnable
    have hdue : ¬ s.FirstRunDue := fun h => absurd (hfalse.symm.trans h.1) Bool.false_ne_true
    exact scheduled_startRunnable hdue hfalse hstate hflag hfirstRun hrunnable
  · intro hfalse hcheck
    have hdue : ¬ s.FirstRunDue := fun h => absurd (hfalse.symm.trans h.1) Bool.false_ne_true
    refine ⟨⟨nofun, fun h => ?_⟩, .check hdue hcheck rfl (List.mem_singleton.mpr rfl) ?_ hdue⟩
    · exact absurd (hfalse.symm.trans h) Bool.false_ne_true
    · exact fun h => nomatch List.mem_singleton.mp h

theorem scheduleIndexing_scheduled (hidle : s.indexerState = .idle → s.isFirstRun = false)
    (hfirst : s.isFirstRun = true → s.checkUnindexedFiles = true ∧ s.indexerState.rests = true) :
    CheckInvariant (s.scheduleIndexing n).1 ∧
      Scheduled s (s.scheduleIndexing n).1 (s.scheduleIndexing n).2 := by
  rw [scheduleIndexing]
  split
  · next hbusy =>
    have hrests : s.indexerState.rests = false := by
      rw [isIndexerIdle_eq, Bool.or_eq_false_iff] at hbusy
      exact hbusy.2
    have hfalse : s.isFirstRun ≠ true := fun h => absurd (hrests.symm.trans (hfirst h).2) Bool.false_ne_true
    have hdue : ¬ s.FirstRunDue := fun h => hfalse h.1
    refine ⟨⟨fun h => ?_, hfirst⟩, .stays hdue rfl List.not_mem_nil List.not_mem_nil hdue⟩
    rw [h] at hrests
    cases hrests
  · obtain ⟨hinvariant, hscheduled⟩ := startNext_scheduled (s := { s with isGoingIdle := false }) (n := n) hidle hfirst
    refine ⟨hinvariant, ?_⟩
    cases hscheduled with
    | stays hdue hflag hcheck hrun hdue' => exact .stays hdue hflag hcheck hrun hdue'
    | check hdue hflag hflag' hcheck hrun hdue' => exact .check hdue hflag hflag' hcheck hrun hdue'
    | firstRun hdue hflag' hcheck hrun hdue' => exact .firstRun hdue hflag' hcheck hrun hdue'

/-- What becomes of a request for a check when an event is delivered. -/
structure Checks (s : FileIndexScheduler) (requested : Bool) (s' : FileIndexScheduler) (effects : List Effect) :
    Prop where
  /-- the invariant -/
  invariant : CheckInvariant s'
  /-- a request stays until the check or the first run is started -/
  kept : s.checkUnindexedFiles = true ∨ requested = true → s'.checkUnindexedFiles = true ∨
    .unindexedFileIndexer ∈ started effects ∨ .firstRunIndexer ∈ started effects
  /-- and nothing is requested otherwise -/
  asked : s'.checkUnindexedFiles = true ∨ .unindexedFileIndexer ∈ started effects →
    s.checkUnindexedFiles = true ∨ requested = true
  /-- what is started runs -/
  runs : ∀ runnable ∈ started effects, runnable ∈ s'.threadPool
  /-- and nothing else comes to run -/
  pool : ∀ runnable ∈ s'.threadPool, runnable ∈ s.threadPool ∨ runnable ∈ started effects
  /-- the first run is started once -/
  first : .firstRunIndexer ∈ started effects → s.isFirstRun = true

/-- Nothing that concerns checks happens. -/
theorem Checks.quiet (h : CheckInvariant s) (hflag : s'.checkUnindexedFiles = s.checkUnindexedFiles)
    (hfirst : s'.isFirstRun = s.isFirstRun) (hstate : s'.indexerState = s.indexerState)
    (hpool : s'.threadPool ⊆ s.threadPool) (heffects : started effects = []) : Checks s false s' effects := by
  refine ⟨⟨?_, ?_⟩, ?_, ?_, ?_, fun runnable hmem => Or.inl (hpool hmem), ?_⟩
  · rw [hstate, hflag, hfirst]
    exact h.idle
  · rw [hstate, hflag, hfirst]
    exact h.firstRun
  · rintro (hs | hs)
    · exact Or.inl (hflag.trans hs)
    · cases hs
  · rw [heffects, hflag]
    rintro (hs | hs)
    · exact Or.inl hs
    · exact absurd hs List.not_mem_nil
  · rw [heffects]
    exact fun _ hmem => absurd hmem List.not_mem_nil
  · rw [heffects]
    exact fun hmem => absurd hmem List.not_mem_nil

theorem Checks.of_started {requested : Bool} {effects' : List Effect} (h : Checks s requested s' effects)
    (heffects : started effects' = started effects) : Checks s requested s' effects' := by
  refine ⟨h.invariant, ?_, ?_, ?_, ?_, ?_⟩
  all_goals rw [heffects]
  · exact h.kept
  · exact h.asked
  · exact h.runs
  · exact h.pool
  · exact h.first

theorem Scheduled.checks {t : FileIndexScheduler} {requested : Bool} (hinvariant : CheckInvariant s')
    (h : Scheduled t s' effects) (ht : t.checkUnindexedFiles = true ↔ s.checkUnindexedFiles = true ∨ requested = true)
    (hfirst : t.isFirstRun = s.isFirstRun) (hpool : s'.threadPool = s.threadPool ++ started effects) :
    Checks s requested s' effects := by
  refine ⟨hinvariant, fun hs => ?_, fun hs => ?_, fun runnable hmem => ?_, fun runnable hmem => ?_, fun hrun => ?_⟩
  · have hs := ht.mpr hs
    cases h with
    | stays _ hflag => exact Or.inl (hflag.trans hs)
    | check _ _ _ hcheck => exact Or.inr (Or.inl hcheck)
    | firstRun _ _ _ hrun => exact Or.inr (Or.inr hrun)
  · refine ht.mp ?_
    cases h with
    | stays _ hflag hcheck => exact hflag.symm.trans (hs.resolve_right hcheck)
    | check _ hflag => exact hflag
    | firstRun _ hflag' hcheck =>
      rcases hs with hs | hs
      · exact absurd (hflag'.symm.trans hs) Bool.false_ne_true
      · exact absurd hs hcheck
  · rw [hpool]
    exact List.mem_append_right _ hmem
  · rw [hpool] at hmem
    exact List.mem_append.mp hmem
  · rw [← hfirst]
    cases h with
    | stays _ _ _ hnot => exact absurd hrun hnot
    | check _ _ _ _ hnot => exact absurd hrun hnot
    | firstRun hdue => exact hdue.1

/-- **An event and the request for a check.** -/
theorem CheckInvariant.deliver (h : CheckInvariant s) (n : ℕ) (event : SchedulerEvent) :
    Checks s event.requests (s.deliver n event).1 (s.deliver n event).2 := by
  have hschedule : ∀ t : FileIndexScheduler, t.checkUnindexedFiles = s.checkUnindexedFiles →
      t.isFirstRun = s.isFirstRun → t.indexerState = s.indexerState → t.threadPool = s.threadPool →
      Checks s false (t.scheduleIndexing n).1 (t.scheduleIndexing n).2 := by
    intro t hflag hfirst hstate hpool
    obtain ⟨hinvariant, hscheduled⟩ := scheduleIndexing_scheduled (s := t) (n := n)
      (by rw [hstate, hfirst]; exact fun hidle => (h.idle hidle).2)
      (by rw [hstate, hfirst, hflag]; exact h.firstRun)
    exact hscheduled.checks hinvariant (by simp [hflag]) hfirst (hpool ▸ threadPool_scheduleIndexing)
  have hrequest : ∀ t : FileIndexScheduler, t.checkUnindexedFiles = true →
      t.isFirstRun = s.isFirstRun → t.indexerState = s.indexerState → t.threadPool = s.threadPool →
      Checks s true (t.scheduleIndexing n).1 (t.scheduleIndexing n).2 := by
    intro t hflag hfirst hstate hpool
    obtain ⟨hinvariant, hscheduled⟩ := scheduleIndexing_scheduled (s := t) (n := n)
      (by rw [hstate, hfirst]; exact fun hidle => (h.idle hidle).2)
      (by rw [hstate, hfirst]; exact fun hrun => ⟨hflag, (h.firstRun hrun).2⟩)
    exact hscheduled.checks hinvariant ⟨fun _ => Or.inr rfl, fun _ => hflag⟩ hfirst
      (hpool ▸ threadPool_scheduleIndexing)
  have hindex : ∀ list file, Checks s false (s.indexFile list file) [] := by
    intro list file
    rw [indexFile]
    split
    · exact .quiet h rfl rfl rfl (List.Subset.refl _) rfl
    · cases list <;> dsimp only <;> split <;> exact .quiet h rfl rfl rfl (List.Subset.refl _) rfl
  cases event with
  | indexNewFile file => exact hindex .newFiles file
  | indexModifiedFile file => exact hindex .modifiedFiles file
  | indexXAttrFile file => exact hindex .xattrFiles file
  | fileRemoved file =>
    have hremoved : Checks s false (s.handleFileRemoved file) [] := by
      rw [handleFileRemoved]
      split <;> exact .quiet h rfl rfl rfl (List.Subset.refl _) rfl
    exact hremoved
  | done runnable => exact .quiet h rfl rfl rfl List.erase_subset rfl
  | powerSaveStatusChanged conserveResources =>
    rw [FileIndexScheduler.deliver, slotPowerManagementStatusChanged]
    split
    · rw [powerManagementStatusChanged]
      split
      · exact .quiet h rfl rfl rfl (List.Subset.refl _) rfl
      · exact hschedule _ rfl rfl rfl rfl
    · exact .quiet h rfl rfl rfl (List.Subset.refl _) rfl
  | suspend =>
    rw [FileIndexScheduler.deliver, setSuspend]
    dsimp only
    rw [if_pos rfl]
    split
    · exact .quiet h rfl rfl rfl (List.Subset.refl _) rfl
    · exact hschedule _ rfl rfl rfl rfl
  | resume => exact hschedule { s with isSuspended := false } rfl rfl rfl rfl
  | updateConfig shouldBeIndexed =>
    rw [FileIndexScheduler.deliver, FileIndexScheduler.updateConfig]
    have hquit : started s.quitContentIndexer = [] := by
      rw [quitContentIndexer]
      split <;> rfl
    refine .of_started (hrequest _ rfl rfl rfl rfl) ?_
    exact List.filterMap_append.trans (congrArg (· ++ _) hquit)
  | checkUnindexedFiles => exact hrequest { s with checkUnindexedFiles := true } rfl rfl rfl rfl
  | checkStaleIndexEntries => exact hschedule { s with checkStaleIndexEntries := true } rfl rfl rfl rfl
  | startupFinished => exact .quiet h rfl rfl rfl (List.Subset.refl _) rfl
  | timeout => exact hschedule { s with singleShots := s.singleShots - 1 } rfl rfl rfl rfl
  | installedWatches => exact hschedule s rfl rfl rfl rfl

end FileIndexScheduler

namespace MainHub

open FileIndexScheduler

variable {s s' : FileIndexScheduler} {events : List SchedulerEvent} {effects : List Effect}

theorem Delivers.invariant (h : Delivers s events s' effects) (hs : CheckInvariant s) : CheckInvariant s' := by
  induction h with
  | nil => exact hs
  | cons _ _ _ ih => exact ih (hs.deliver _ _).invariant

/-- What is due or runs afterwards was due or ran before, or has been asked for. -/
theorem Delivers.asked (h : Delivers s events s' effects) (hs : CheckInvariant s) (hrescans : s'.Rescans) :
    s.Rescans ∨ ∃ event ∈ events, event.requests = true := by
  induction h with
  | nil => exact Or.inl hrescans
  | @cons s s' event events effects n _ _ ih =>
    have hevent := hs.deliver n event
    rcases ih hevent.invariant hrescans with hdue | ⟨event', hmem, hrequests⟩
    · have hasked : s.checkUnindexedFiles = true ∨ event.requests = true ∨ .unindexedFileIndexer ∈ s.threadPool := by
        rcases hdue with hflag | hpool
        · exact (hevent.asked (Or.inl hflag)).imp_right Or.inl
        · rcases hevent.pool _ hpool with hpool | hstarted
          · exact Or.inr (Or.inr hpool)
          · exact (hevent.asked (Or.inr hstarted)).imp_right Or.inl
      rcases hasked with hflag | hrequests | hpool
      · exact Or.inl (Or.inl hflag)
      · exact Or.inr ⟨event, List.mem_cons_self .., hrequests⟩
      · exact Or.inl (Or.inr hpool)
    · exact Or.inr ⟨event', List.mem_cons_of_mem _ hmem, hrequests⟩

theorem started_append (effects effects' : List Effect) :
    started (effects ++ effects') = started effects ++ started effects' := List.filterMap_append

/-- A check or the first run is started. -/
def StartsScan (effects : List Effect) : Prop :=
  .unindexedFileIndexer ∈ started effects ∨ .firstRunIndexer ∈ started effects

theorem StartsScan.append {effects' : List Effect} (h : StartsScan effects ∨ StartsScan effects') :
    StartsScan (effects ++ effects') := by
  rw [StartsScan, started_append, List.mem_append, List.mem_append]
  rcases h with h | h
  · exact h.imp Or.inl Or.inl
  · exact h.imp Or.inr Or.inr

/-- A request stays until it is satisfied. -/
theorem Delivers.kept (h : Delivers s events s' effects) (hs : CheckInvariant s)
    (hflag : s.checkUnindexedFiles = true ∨ ∃ event ∈ events, event.requests = true) :
    s'.checkUnindexedFiles = true ∨ StartsScan effects := by
  induction h with
  | nil =>
    rcases hflag with hflag | ⟨_, hmem, _⟩
    · exact Or.inl hflag
    · cases hmem
  | @cons s s' event events effects n _ _ ih =>
    have hevent := hs.deliver n event
    have hcase : (s.checkUnindexedFiles = true ∨ event.requests = true) ∨
        ∃ event ∈ events, event.requests = true := by
      rcases hflag with hflag | ⟨event', hmem, hrequests⟩
      · exact Or.inl (Or.inl hflag)
      · rcases List.mem_cons.mp hmem with rfl | hmem
        · exact Or.inl (Or.inr hrequests)
        · exact Or.inr ⟨event', hmem, hrequests⟩
    rcases hcase with hnow | hlater
    · rcases hevent.kept hnow with hkept | hstarted
      · exact (ih hevent.invariant (Or.inl hkept)).imp_right fun h => StartsScan.append (Or.inr h)
      · exact Or.inr (StartsScan.append (Or.inl hstarted))
    · exact (ih hevent.invariant (Or.inr hlater)).imp_right fun h => StartsScan.append (Or.inr h)

/-- One request: afterwards the check is due or runs, unless the first run has been started. -/
theorem Delivers.request {event : SchedulerEvent} (h : Delivers s [event] s' effects) (hs : CheckInvariant s)
    (hrequests : event.requests = true) : s'.Rescans ∨ s.checkUnindexedFiles = true := by
  cases h with
  | cons n _ hrest =>
    cases hrest with
    | nil =>
      have hevent := hs.deliver n event
      rcases hevent.kept (Or.inr hrequests) with hflag | hcheck | hrun
      · exact Or.inl (Or.inl hflag)
      · exact Or.inl (Or.inr (hevent.runs _ hcheck))
      · exact Or.inr (hs.firstRun (hevent.first hrun)).1

/-! ### The signals of the watcher -/

/-- The event is a signal of `FileWatch`. -/
def IsSignal (event : SchedulerEvent) : Prop := ∃ signal, connect signal = event

/-- What is due or runs before some signals of the watcher are delivered, and still is then. -/
def RescanRemains (s : FileIndexScheduler) (events : List SchedulerEvent) : Prop :=
  .unindexedFileIndexer ∈ s.threadPool ∨
    s.checkUnindexedFiles = true ∧ ¬ (s.FirstRunDue ∧ .installedWatches ∈ events)

/-- Signals for files do not concern checks. -/
theorem deliver_file (n : ℕ) {event : SchedulerEvent} (hsignal : IsSignal event)
    (hfile : event ≠ .installedWatches) :
    (s.deliver n event).1 = { s with
      newFiles := (s.deliver n event).1.newFiles
      modifiedFiles := (s.deliver n event).1.modifiedFiles
      xattrFiles := (s.deliver n event).1.xattrFiles
      singleShots := (s.deliver n event).1.singleShots } := by
  have hindex : ∀ list file, s.indexFile list file = { s with
      newFiles := (s.indexFile list file).newFiles
      modifiedFiles := (s.indexFile list file).modifiedFiles
      xattrFiles := (s.indexFile list file).xattrFiles
      singleShots := (s.indexFile list file).singleShots } := by
    intro list file
    rw [indexFile]
    split
    · rfl
    · cases list <;> dsimp only <;> split <;> rfl
  obtain ⟨signal, rfl⟩ := hsignal
  cases signal with
  | indexNewFile path => exact hindex .newFiles path
  | indexModifiedFile path => exact hindex .modifiedFiles path
  | indexXAttr path => exact hindex .xattrFiles path
  | fileRemoved path =>
    have hremoved : s.handleFileRemoved path = { s with
        newFiles := (s.handleFileRemoved path).newFiles
        modifiedFiles := (s.handleFileRemoved path).modifiedFiles
        xattrFiles := (s.handleFileRemoved path).xattrFiles
        singleShots := (s.handleFileRemoved path).singleShots } := by
      rw [handleFileRemoved]
      split <;> rfl
    exact hremoved
  | installedWatches => exact absurd rfl hfile

/-- **Signals of the watcher request nothing.** -/
theorem Delivers.remains (h : Delivers s events s' effects) (hs : CheckInvariant s)
    (hsignals : ∀ event ∈ events, IsSignal event) : s'.Rescans ↔ RescanRemains s events := by
  induction h with
  | nil => simp [Rescans, RescanRemains, or_comm]
  | @cons s s' event events effects n _ _ ih =>
    have hevent := hs.deliver n event
    rw [ih hevent.invariant fun event hmem => hsignals event (List.mem_cons_of_mem _ hmem)]
    rcases Classical.em (event = .installedWatches) with rfl | hfile
    · obtain ⟨-, hscheduled⟩ := scheduleIndexing_scheduled (s := s) (n := n) (fun h => (hs.idle h).2) hs.firstRun
      have hpool : (s.scheduleIndexing n).1.threadPool = _ := threadPool_scheduleIndexing
      change RescanRemains (s.scheduleIndexing n).1 events ↔ _
      rw [RescanRemains, RescanRemains, hpool, List.mem_append]
      cases hscheduled with
      | stays hdue hflag hcheck _ hdue' => simp [hflag, hcheck, hdue, hdue']
      | check hdue hflag hflag' hcheck _ hdue' => simp [hflag, hcheck, hdue]
      | firstRun hdue hflag' hcheck _ _ => simp [hflag', hcheck, hdue]
    · rw [RescanRemains, deliver_file n (hsignals event (List.mem_cons_self ..)) hfile, RescanRemains, List.mem_cons]
      simp [FirstRunDue, Ne.symm hfile]

theorem IsSignal.requests {event : SchedulerEvent} (h : IsSignal event) : event.requests = false := by
  obtain ⟨signal, rfl⟩ := h
  cases signal <;> rfl

/-! ### Runs -/

section

variable {σ : Type} [Inotify σ]

/-- A round of the event loop, and the daemon afterwards. -/
structure Round (σ : Type) where
  /-- what happens -/
  event : HubEvent
  /-- what is delivered to the scheduler -/
  delivered : List SchedulerEvent
  /-- what the scheduler does -/
  effects : List Effect
  /-- the daemon afterwards -/
  hub : MainHub σ

/-- The rounds of a run. -/
def Run : MainHub σ → List (Round σ) → Prop
  | _, [] => True
  | hub, round :: rounds => Step hub round.event round.delivered round.effects round.hub ∧ Run round.hub rounds

/-- The daemon at the end of a run. -/
def last : MainHub σ → List (Round σ) → MainHub σ
  | hub, [] => hub
  | _, round :: rounds => last round.hub rounds

/-- What the daemon can come to, from the state that the constructor leaves. -/
inductive Reachable : MainHub σ → Prop
  | constructor {config : FileIndexerConfig} {inotify : σ} {isFirstRun : Bool} :
      Reachable {
        fileWatcher := { config := config, dirWatch := { config := some config, inotify := inotify } }
        fileIndexScheduler := { isFirstRun := isFirstRun } }
  | step {hub hub' : MainHub σ} {event : HubEvent} {delivered : List SchedulerEvent} {effects : List Effect}
      (h : Reachable hub) (hstep : Step hub event delivered effects hub') : Reachable hub'

/-- The kernel has lost events. -/
def Overflows (packets : List KInotify.Packet) : Prop :=
  ∃ packet ∈ packets, packet.event.wd < 0 ∧ packet.event.mask = KInotify.EventQueueOverflow

/-- A check is asked for during the run. -/
def Asked (rounds : List (Round σ)) : Prop :=
  ∃ round ∈ rounds, ∃ event ∈ round.delivered, event.requests = true

variable {hub hub' : MainHub σ} {event : HubEvent} {delivered : List SchedulerEvent} {rounds : List (Round σ)}

theorem Step.delivers (h : Step hub event delivered effects hub') :
    Delivers hub.fileIndexScheduler delivered hub'.fileIndexScheduler effects := by
  cases h with
  | read _ _ _ _ hdelivers => exact hdelivers
  | cookieTimeout _ _ _ hdelivers => exact hdelivers
  | addWatches _ _ _ _ hdelivers => exact hdelivers
  | updateIndexedFoldersWatches _ => exact .nil
  | queueTimeout _ _ _ hdelivers => exact hdelivers
  | updateConfig _ hdelivers => exact hdelivers
  | scheduler _ hdelivers => exact hdelivers

theorem isSignal_map (signals : List FileWatchSignal) : ∀ event ∈ signals.map connect, IsSignal event := by
  intro event hmem
  obtain ⟨signal, -, rfl⟩ := List.mem_map.mp hmem
  exact ⟨signal, rfl⟩

/-- Besides the signals of the watcher there is one event in a round. -/
theorem Step.signals_or_one (h : Step hub event delivered effects hub') :
    (∀ event ∈ delivered, IsSignal event) ∨ ∃ event, delivered = [event] := by
  cases h with
  | read => exact Or.inl (isSignal_map _)
  | cookieTimeout => exact Or.inl (isSignal_map _)
  | addWatches => exact Or.inl (isSignal_map _)
  | updateIndexedFoldersWatches => exact Or.inl fun _ hmem => absurd hmem List.not_mem_nil
  | queueTimeout => exact Or.inl (isSignal_map _)
  | updateConfig => exact Or.inr ⟨_, rfl⟩
  | scheduler => exact Or.inr ⟨_, rfl⟩

theorem Reachable.invariant (h : Reachable hub) : CheckInvariant hub.fileIndexScheduler := by
  induction h with
  | constructor => exact ⟨nofun, fun _ => ⟨rfl, rfl⟩⟩
  | step _ hstep ih => exact hstep.delivers.invariant ih

theorem Run.invariant (h : Run hub rounds) (hhub : CheckInvariant hub.fileIndexScheduler) :
    CheckInvariant (last hub rounds).fileIndexScheduler := by
  induction rounds generalizing hub with
  | nil => exact hhub
  | cons round rounds ih => exact ih h.2 (h.1.delivers.invariant hhub)

/-- A check that is due or runs in the course of a run was due or ran when the run began, or has been
asked for. -/
theorem Run.asked (h : Run hub rounds) (hhub : CheckInvariant hub.fileIndexScheduler) {m : MainHub σ}
    (hm : m ∈ hub :: rounds.map Round.hub) (hrescans : m.fileIndexScheduler.Rescans) :
    hub.fileIndexScheduler.Rescans ∨ Asked rounds := by
  induction rounds generalizing hub with
  | nil =>
    obtain rfl := List.mem_singleton.mp hm
    exact Or.inl hrescans
  | cons round rounds ih =>
    rcases List.mem_cons.mp hm with rfl | hm
    · exact Or.inl hrescans
    · rcases ih h.2 (h.1.delivers.invariant hhub) hm with hrescans | ⟨round', hmem, hrequest⟩
      · rcases h.1.delivers.asked hhub hrescans with hrescans | hrequest
        · exact Or.inl hrescans
        · exact Or.inr ⟨round, List.mem_cons_self .., hrequest⟩
      · exact Or.inr ⟨round', List.mem_cons_of_mem _ hmem, hrequest⟩

/-- A check that is asked for is due or runs at some time. -/
theorem Run.rescans (h : Run hub rounds) (hhub : CheckInvariant hub.fileIndexScheduler) (hasked : Asked rounds) :
    ∃ m ∈ hub :: rounds.map Round.hub, m.fileIndexScheduler.Rescans := by
  induction rounds generalizing hub with
  | nil =>
    obtain ⟨_, hmem, -⟩ := hasked
    cases hmem
  | cons round rounds ih =>
    obtain ⟨round', hmem, event, hevent, hrequests⟩ := hasked
    rcases List.mem_cons.mp hmem with rfl | hmem
    · rcases h.1.signals_or_one with hsignals | ⟨event', heq⟩
      · exact absurd ((hsignals event hevent).requests.symm.trans hrequests) Bool.false_ne_true
      · rw [heq] at hevent
        obtain rfl := List.mem_singleton.mp hevent
        have hdelivers := h.1.delivers
        rw [heq] at hdelivers
        rcases hdelivers.request hhub hrequests with hrescans | hflag
        · exact ⟨round'.hub, List.mem_cons_of_mem _ (List.mem_cons_self ..), hrescans⟩
        · exact ⟨hub, List.mem_cons_self .., Or.inl hflag⟩
    · obtain ⟨m, hm, hrescans⟩ :=
        ih h.2 (h.1.delivers.invariant hhub) ⟨round', hmem, event, hevent, hrequests⟩
      exact ⟨m, List.mem_cons_of_mem _ hm, hrescans⟩

/-- **A request survives** until a check or the first run is started. -/
theorem Run.kept (h : Run hub rounds) (hhub : CheckInvariant hub.fileIndexScheduler)
    (hflag : hub.fileIndexScheduler.checkUnindexedFiles = true ∨ Asked rounds) :
    (last hub rounds).fileIndexScheduler.checkUnindexedFiles = true ∨ ∃ round ∈ rounds, StartsScan round.effects := by
  induction rounds generalizing hub with
  | nil =>
    rcases hflag with hflag | ⟨_, hmem, -⟩
    · exact Or.inl hflag
    · cases hmem
  | cons round rounds ih =>
    have hcase : (round.hub.fileIndexScheduler.checkUnindexedFiles = true ∨ Asked rounds) ∨
        StartsScan round.effects := by
      rcases hflag with hflag | ⟨round', hmem, hrequest⟩
      · exact (h.1.delivers.kept hhub (Or.inl hflag)).imp_left Or.inl
      · rcases List.mem_cons.mp hmem with rfl | hmem
        · exact (h.1.delivers.kept hhub (Or.inr hrequest)).imp_left Or.inl
        · exact Or.inl (Or.inr ⟨round', hmem, hrequest⟩)
    rcases hcase with hcase | hscan
    · exact (ih h.2 (h.1.delivers.invariant hhub) hcase).imp_right fun ⟨round', hmem, hscan⟩ =>
        ⟨round', List.mem_cons_of_mem _ hmem, hscan⟩
    · exact Or.inr ⟨round, List.mem_cons_self .., hscan⟩

/-- The loss of events is signalled. -/
theorem dispatch_overflow {env : KInotify.Surroundings} {n now : ℕ} {k k' : KInotify σ} {deadline : Option ℕ}
    {packets : List KInotify.Packet} {trace : List KInotify.Handled} (hoverflow : Overflows packets)
    (h : KInotify.dispatch env n now k deadline (packets.map KInotify.Packet.event) = some (k', trace)) :
    .eventQueueOverflowed ∈ trace.flatMap KInotify.Handled.signals := by
  induction packets generalizing k k' deadline trace with
  | nil =>
    obtain ⟨_, hmem, -⟩ := hoverflow
    cases hmem
  | cons packet packets ih =>
    rw [List.map_cons, KInotify.dispatch, Option.bind_eq_some_iff] at h
    obtain ⟨⟨k₁, deadline₁, handled⟩, hhandle, hrest⟩ := h
    obtain ⟨⟨k₂, trace₂⟩, hdispatch, hpair⟩ := Option.map_eq_some_iff.mp hrest
    obtain ⟨-, rfl⟩ := Prod.mk.inj hpair
    rw [List.flatMap_cons, List.mem_append]
    obtain ⟨marker, hmem, hwd, hmask⟩ := hoverflow
    rcases List.mem_cons.mp hmem with rfl | hmem
    · left
      have hmarker : (decide (marker.event.wd < 0) &&
          KInotify.hasBit marker.event.mask KInotify.EventQueueOverflow) = true := by
        rw [hmask, decide_eq_true hwd]
        rfl
      rw [KInotify.handleEvent, if_pos hmarker] at hhandle
      obtain rfl := (Prod.mk.inj (Prod.mk.inj (Option.some.inj hhandle)).2).2
      exact List.mem_singleton.mpr rfl
    · exact Or.inr (ih ⟨marker, hmem, hwd, hmask⟩ hdispatch)

/-- **An overflow by itself causes no check.** The loss is signalled; but a check for unindexed files
is due or runs at some time after the overflow exactly if it was due or ran before, or if it is asked
for otherwise. A check that is due or asked for has been started, or the first run has, when the
scheduler is idle. -/
theorem overflow_rescanned_iff {before : MainHub σ} {packets : List KInotify.Packet} (hbefore : Reachable before)
    (hread : Step before (.read packets) delivered effects hub) (hoverflow : Overflows packets)
    (hrun : Run hub rounds) :
    (∀ env now dirWatch trace, Fuel.Returns (fun n => KInotify.processEventBuffer env n now
        before.fileWatcher.dirWatch (packets.flatMap KInotify.Packet.bytes)) (dirWatch, trace) →
      .eventQueueOverflowed ∈ trace.flatMap KInotify.Handled.signals) ∧
    ((∃ m ∈ hub :: rounds.map Round.hub, m.fileIndexScheduler.Rescans) ↔
      RescanRemains before.fileIndexScheduler delivered ∨ Asked rounds) ∧
    ((last hub rounds).fileIndexScheduler.indexerState = .idle →
      hub.fileIndexScheduler.checkUnindexedFiles = true ∨ Asked rounds →
      ∃ round ∈ rounds, StartsScan round.effects) := by
  have hinvariant := hread.delivers.invariant hbefore.invariant
  have hremains : hub.fileIndexScheduler.Rescans ↔ RescanRemains before.fileIndexScheduler delivered := by
    refine hread.delivers.remains hbefore.invariant ?_
    cases hread with
    | read => exact isSignal_map _
  refine ⟨fun env now dirWatch trace hreturns => ?_, ⟨?_, ?_⟩, fun hidle hflag => ?_⟩
  · have hpackets : ∀ packet ∈ packets, packet.WellFormed := by
      cases hread with
      | read _ hpackets => exact hpackets
    obtain ⟨n, hn⟩ := hreturns
    have hprocess := hn n le_rfl
    simp only [KInotify.processEventBuffer, KInotify.processLoop_packets env n hpackets] at hprocess
    obtain ⟨⟨k, trace'⟩, hdispatch, hpair⟩ := Option.map_eq_some_iff.mp hprocess
    obtain ⟨-, rfl⟩ := Prod.mk.inj hpair
    exact dispatch_overflow hoverflow hdispatch
  · rintro ⟨m, hm, hrescans⟩
    exact (hrun.asked hinvariant hm hrescans).imp_left hremains.mp
  · rintro (hdue | hasked)
    · exact ⟨hub, List.mem_cons_self .., hremains.mpr hdue⟩
    · exact hrun.rescans hinvariant hasked
  · refine (hrun.kept hinvariant hflag).resolve_left fun hlast => ?_
    have hend : CheckInvariant (last hub rounds).fileIndexScheduler := hrun.invariant hinvariant
    exact absurd ((hend.idle hidle).1.symm.trans hlast) Bool.false_ne_true

end

/-! ### An overflow while the scheduler is idle -/

open DirTree (Kernel)
open FileWatch (treeAB including)

/-- An event for the scheduler alone, when nothing waits for the content indexer. -/
def advance {σ : Type} (hub : MainHub σ) (event : SchedulerEvent) : MainHub σ :=
  { hub with fileIndexScheduler := (hub.fileIndexScheduler.deliver 0 event).1 }

theorem step_advance {σ : Type} [Inotify σ] {hub : MainHub σ} (event : SchedulerEvent)
    (henabled : hub.fileIndexScheduler.Enabled event) (hevent : fromElsewhere event = true) :
    Step hub (.scheduler event) [event] ((hub.fileIndexScheduler.deliver 0 event).2 ++ []) (hub.advance event) :=
  .scheduler hevent (.cons 0 henabled .nil)

/-- The daemon is started with `/a` to be watched; there is an index. -/
def startedHub : MainHub Kernel where
  fileWatcher := {
    config := including [[47, 97]]
    dirWatch := { config := some (including [[47, 97]]), inotify := { tree := treeAB } } }
  fileIndexScheduler := { isFirstRun := false }

/-- On mains power both checks are made, and then there is nothing left to do. -/
def idleHub : MainHub Kernel :=
  [.startupFinished, .powerSaveStatusChanged false, .done .indexCleaner, .timeout, .done .unindexedFileIndexer,
    .timeout].foldl advance startedHub

theorem reachable_idleHub : Reachable idleHub := by
  have hstart : Reachable startedHub := .constructor
  have hstartup := hstart.step (step_advance .startupFinished trivial rfl)
  have hpower := hstartup.step (step_advance (.powerSaveStatusChanged false) trivial rfl)
  have hclean := hpower.step (step_advance (.done .indexCleaner) (List.mem_singleton.mpr rfl) rfl)
  have hnext := hclean.step (step_advance .timeout (Nat.succ_pos _) rfl)
  have hcheck := hnext.step (step_advance (.done .unindexedFileIndexer) (List.mem_singleton.mpr rfl) rfl)
  exact hcheck.step (step_advance .timeout (Nat.succ_pos _) rfl)

/-- The kernel's marker. -/
def marker : KInotify.Packet where
  event := { wd := -1, mask := KInotify.EventQueueOverflow, cookie := 0, name := [] }
  padding := 0

theorem marker_wellFormed : marker.WellFormed :=
  ⟨⟨⟨by decide, by decide⟩, Or.inl ⟨by decide, rfl⟩, List.not_mem_nil, fun _ => rfl⟩, by decide⟩

/-- Nothing is asked. -/
def noAnswers : FileWatch.Outside where
  encodeName name := name.map fun c => c.toUInt8
  isDir _ := false
  recentlyModified _ := false
  known _ := false
  kept _ l := l

/-- The daemon after the marker has been read. -/
def afterMarker (hub : MainHub Kernel) : MainHub Kernel :=
  { hub with fileWatcher := { hub.fileWatcher with dirWatch := KInotify.updateTimer hub.fileWatcher.dirWatch } }

theorem step_marker {hub : MainHub Kernel} (hwatch : hub.dirWatchDeleted = false) :
    Step hub (.read [marker]) [] [] (afterMarker hub) := by
  have hpackets : ∀ packet ∈ [marker], packet.WellFormed := fun packet hmem =>
    List.mem_singleton.mp hmem ▸ marker_wellFormed
  have hreturns : Fuel.Returns (fun n => KInotify.processEventBuffer KInotify.noFiles n 0 hub.fileWatcher.dirWatch
      ([marker].flatMap KInotify.Packet.bytes)) (KInotify.updateTimer hub.fileWatcher.dirWatch,
        [{ event := marker.event, path := [], signals := [.eventQueueOverflowed] }]) := by
    refine ⟨0, fun n _ => ?_⟩
    change KInotify.processEventBuffer KInotify.noFiles n 0 _ _ = _
    rw [KInotify.processEventBuffer, KInotify.processLoop_packets _ _ hpackets]
    rfl
  have hstep := @Step.read Kernel _ hub KInotify.noFiles 0 [marker] _ _ noAnswers hub.pendingFileQueue []
    hub.fileIndexScheduler [] hwatch hpackets hreturns rfl .nil
  have heq : afterMarker hub = { afterMarker hub with dirWatchDeleted := false } := by
    rw [afterMarker, ← hwatch]
  rw [heq]
  exact hstep

/-- The user suspends indexing, and resumes it. -/
def suspendRound : Round Kernel :=
  ⟨.scheduler .suspend, [.suspend], [.stateChanged .suspended], (afterMarker idleHub).advance .suspend⟩

/-- The round after it. -/
def resumeRound : Round Kernel :=
  ⟨.scheduler .resume, [.resume], [.stateChanged .idle], ((afterMarker idleHub).advance .suspend).advance .resume⟩

theorem run_resume : Run (afterMarker idleHub) [suspendRound, resumeRound] :=
  ⟨step_advance .suspend trivial rfl, step_advance .resume trivial rfl, trivial⟩

theorem overflow_rescanned_iff_idleHub :
    ¬ ∃ m ∈ afterMarker idleHub :: [suspendRound, resumeRound].map Round.hub, m.fileIndexScheduler.Rescans := by
  intro hrescans
  rcases (overflow_rescanned_iff reachable_idleHub (step_marker rfl)
    ⟨marker, List.mem_singleton.mpr rfl, by decide, rfl⟩ run_resume).2.1.mp hrescans with hremains | hasked
  · rcases hremains with hpool | ⟨hflag, -⟩
    · exact List.not_mem_nil hpool
    · cases hflag
  · obtain ⟨round, hmem, event, hevent, hrequests⟩ := hasked
    rcases List.mem_cons.mp hmem with rfl | hmem
    · obtain rfl := List.mem_singleton.mp hevent
      cases hrequests
    · obtain rfl := List.mem_singleton.mp hmem
      obtain rfl := List.mem_singleton.mp hevent
      cases hrequests

/-- **Lost events stay lost.** The scheduler is idle when the marker is read, it is suspended and resumed,
and is idle again, without a check for unindexed files. -/
theorem overflow_not_rescanned : ¬ ∀ (before hub : MainHub Kernel) (packets : List KInotify.Packet)
    (delivered : List SchedulerEvent) (effects : List Effect) (rounds : List (Round Kernel)) (round : Round Kernel),
    Reachable before → Step before (.read packets) delivered effects hub → Overflows packets →
    Run hub (rounds ++ [round]) → (last hub rounds).fileIndexScheduler.indexerState ≠ .idle →
    round.hub.fileIndexScheduler.indexerState = .idle → round.hub.fileIndexScheduler.isOnBattery = false →
    ∃ m ∈ hub :: (rounds ++ [round]).map Round.hub, m.fileIndexScheduler.Rescans := by
  intro h
  obtain ⟨m, hm, hrescans⟩ := h idleHub (afterMarker idleHub) [marker] [] [] [suspendRound] resumeRound
    reachable_idleHub (step_marker rfl) ⟨marker, List.mem_singleton.mpr rfl, by decide, rfl⟩ run_resume
    nofun rfl rfl
  have hquiet : m.fileIndexScheduler.checkUnindexedFiles = false ∧ m.fileIndexScheduler.threadPool = [] := by
    rcases List.mem_cons.mp hm with rfl | hm
    · exact ⟨rfl, rfl⟩
    · rcases List.mem_cons.mp hm with rfl | hm
      · exact ⟨rfl, rfl⟩
      · obtain rfl := List.mem_singleton.mp hm
        exact ⟨rfl, rfl⟩
  rcases hrescans with hflag | hpool
  · exact absurd (hquiet.1.symm.trans hflag) Bool.false_ne_true
  · rw [hquiet.2] at hpool
    cases hpool

end MainHub

end Baloo
