import Baloo.LastWrite
import Baloo.MainHub
import Baloo.MetadataMover
import Baloo.NoLostUpdate
import Baloo.RemoveAndAdd

/-!
# Files that are renamed while they wait

A file is modified, and its path waits until `ModifiedFileIndexer` looks at it: in the cache of the queue, among its
pending files, in the list of the scheduler. A file is renamed, and the index is changed at once, but a path that
waits stays what it was. When `ModifiedFileIndexer` looks at it, there is nothing under it any more, and the
modification is lost (`modification_lost`).

As long as nothing is renamed that waits, every modification is picked up (`modifications_found`). This takes a
modification time that the record can hold, and a file outside of the root directory: nothing else
is ever recorded.
-/

namespace Baloo.PendingRenames

/-! ## The daemon and the files -/

/-- A file system in which only directories have something below them. -/
structure Disk extends DirectoryTree where
  /-- what is above an existing path is a directory -/
  isDir : ∀ path id, lstat path = some id → ∀ dir, IsAncestor dir path → (stat dir).isDir = true

/-- The disk, and what the daemon knows. -/
structure State where
  /-- the files -/
  disk : Disk
  /-- the queue of pending files -/
  queue : PendingFileQueue
  /-- the scheduler -/
  scheduler : FileIndexScheduler
  /-- the index -/
  db : Database

/-- The path waits for `ModifiedFileIndexer`. -/
def State.Waits (s : State) (path : QByteArray) : Prop :=
  s.queue.Queued path ∨ path ∈ s.scheduler.modifiedFiles

/-- A file, and no link to one. -/
def IsFile (stat : Stat) : Prop := stat.isDir = false ∧ stat.isSymLink = false

/-- If a file at the path is indexed, it is recorded with its modification time. -/
def Shown (disk : Disk) (db : Database) (path : QByteArray) : Prop :=
  ∀ id, disk.lstat path = some id → IsFile (disk.stat path) → db.docUrlDb.contains id = true →
    ((db.docTimeDb.get id).mTime : ℤ) = (disk.stat path).mTime

/-- Every modification has been picked up. -/
def State.PickedUp (s : State) : Prop := ∀ path, Shown s.disk s.db path

/-- A file stays a file, with its modification time. -/
structure SameFile (before after : Stat) : Prop where
  /-- a link is none of them -/
  isSymLink : after.isSymLink = before.isSymLink
  /-- a directory stays one -/
  isDir : before.isSymLink = false → after.isDir = before.isDir
  /-- the time of a file -/
  mTime : IsFile before → after.mTime = before.mTime

theorem SameFile.refl (stat : Stat) : SameFile stat stat := ⟨rfl, fun _ => rfl, fun _ => rfl⟩

/-- The file has been modified. -/
structure Modified (path : QByteArray) (mTime : ℤ) (disk disk' : Disk) : Prop where
  /-- the paths stay -/
  lstat : disk'.lstat = disk.lstat
  /-- the file has a new time -/
  mTime : (disk'.stat path).mTime = mTime
  /-- it stays a file -/
  isFile : IsFile (disk'.stat path)
  /-- other files stay what they are -/
  others : ∀ other, other ≠ path → SameFile (disk.stat other) (disk'.stat other)

/-- At the path or below it. -/
def Within (dir path : QByteArray) : Prop := path = dir ∨ IsAncestor dir path

/-- What was at the source, and below it, is at the target. -/
structure Renamed (source target : QByteArray) (disk disk' : Disk) : Prop where
  /-- what is at the target now was at the source -/
  moved : ∀ rest, rest = [] ∨ rest.head? = some slash → disk'.lstat (target ++ rest) = disk.lstat (source ++ rest) ∧
    SameFile (disk.stat (source ++ rest)) (disk'.stat (target ++ rest))
  /-- nothing is left at the source -/
  gone : ∀ path, Within source path → ¬ Within target path → disk'.lstat path = none
  /-- other paths stay -/
  others : ∀ path, ¬ Within source path → ¬ Within target path →
    disk'.lstat path = disk.lstat path ∧ SameFile (disk.stat path) (disk'.stat path)

/-- The signals of `FileWatch` run the slots of the scheduler. -/
def receive (scheduler : FileIndexScheduler) (signals : List FileWatchSignal) : FileIndexScheduler :=
  signals.foldl (fun scheduler signal => (scheduler.deliver 0 (MainHub.connect signal)).1) scheduler

/-- What happens. -/
inductive Change where
  /-- a file is modified -/
  | modify (path : QByteArray) (mTime : ℤ)
  /-- a file or a directory is renamed -/
  | rename (source target : QByteArray)
  /-- a timer of the queue fires -/
  | timeout
  /-- `ModifiedFileIndexer` runs -/
  | index

section Steps

variable (lib : Libraries) (config : FileIndexerConfig) (onlyBasicIndexing : Bool)

/-- The steps. -/
inductive Step : State → Change → State → Prop
  /-- an indexed file is modified, and `KInotify` signals it -/
  | modify {s : State} {path : QByteArray} {mTime : ℤ} {id : DocId} {disk' : Disk} {outside : FileWatch.Outside}
    {url : List QChar} {q' : PendingFileQueue} {signals : List FileWatchSignal} :
    s.disk.lstat path = some id → IsFile (s.disk.stat path) → s.db.docUrlDb.contains id = true →
    config.shouldFileBeIndexed (decodedName lib path) = true → Modified path mTime s.disk disk' →
    outside.encodeName url = path → FileWatch.slotFileModified outside s.queue url = (q', signals) →
    Step s (.modify path mTime)
      { disk := disk', queue := q', scheduler := receive s.scheduler signals, db := s.db }
  /-- a file or directory is renamed to a free path that is to be indexed, and `KInotify` signals it -/
  | rename {s : State} {source target : QByteArray} {disk' : Disk} {outside : FileWatch.Outside}
    {urlFrom urlTo : List QChar} {q' : PendingFileQueue} {signals : List FileWatchSignal} {fuel : ℕ}
    {w : WriteTransaction} {order : List Term} :
    s.disk.lstat (chop source) ≠ none → s.disk.lstat (chop target) = none → ¬ Within (chop source) (chop target) →
    Renamed (chop source) (chop target) s.disk disk' →
    outside.encodeName urlFrom = source → outside.encodeName urlTo = target →
    config.shouldBeIndexed outside.isDir urlTo = true →
    WriteTransaction.removeMetadata fuel { dbis := s.db } target = some w →
    (∀ path, outside.known path = true ↔ w.dbis.docUrlDb.documentId path ≠ 0) →
    FileWatch.slotFileMoved outside config s.queue urlFrom urlTo = (q', signals) →
    Step s (.rename source target)
      { disk := disk', queue := q', scheduler := receive s.scheduler signals
        db := (w.updateMetadata lib.tokens lib.decodeName source target).commit order }
  /-- the cache timer fires -/
  | processCache {s : State} {q' : PendingFileQueue} {signals : List Signal} (currentTime : QTime) :
    s.queue.cacheTimer.active = true →
    { s.queue with cacheTimer := s.queue.cacheTimer.fire }.processCache currentTime = (q', signals) →
    Step s .timeout { s with queue := q', scheduler := receive s.scheduler (signals.flatMap FileWatch.ofQueue) }
  /-- the timer for pending files fires -/
  | processPendingFiles {s : State} {q' : PendingFileQueue} {signals : List Signal} (currentTime : QTime)
    (order : List (QByteArray × QTime)) :
    s.queue.pendingFilesTimer.active = true → order.Perm s.queue.pendingFiles.toList →
    { s.queue with pendingFilesTimer := s.queue.pendingFilesTimer.fire }.processPendingFiles currentTime order =
      (q', signals) →
    Step s .timeout { s with queue := q', scheduler := receive s.scheduler (signals.flatMap FileWatch.ofQueue) }
  /-- the timer for recently signalled paths fires -/
  | clearRecentlyEmitted {s : State} (currentTime : QTime) (order : List (QByteArray × QTime)) :
    s.queue.clearRecentlyEmittedTimer.active = true → order.Perm s.queue.recentlyEmitted.toList →
    Step s .timeout { s with
      queue := { s.queue with
        clearRecentlyEmittedTimer := s.queue.clearRecentlyEmittedTimer.fire }.clearRecentlyEmitted currentTime order }
  /-- `ModifiedFileIndexer` processes the files of the list -/
  | index {s : State} (order : List Term) :
    Step s .index { s with
      scheduler := { s.scheduler with modifiedFiles := [] }
      db := (s.scheduler.modifiedFiles.foldl
        (ModifiedFileIndexer.visit lib config onlyBasicIndexing s.disk.toSnapshot) { dbis := s.db }).commit order }

/-- What is asked of a step: the time of a modified file can be recorded, the file is not in the root directory, and
nothing is renamed that waits. -/
def Change.Harmless (s : State) : Change → Prop
  | .modify path mTime => 0 ≤ mTime ∧ mTime < 2 ^ 32 ∧ HasDirectory s.disk.toSnapshot path
  | .rename source _ => ∀ path, s.Waits path → ¬ Within (chop source) path
  | .timeout => True
  | .index => True

/-- A step that does no harm. -/
def HarmlessStep (s s' : State) : Prop := ∃ change, Step lib config onlyBasicIndexing s change s' ∧ change.Harmless s

end Steps

/-- Nothing waits, and every modification has been picked up. -/
structure State.Starts (s : State) : Prop where
  /-- the cache is empty -/
  cache : s.queue.cache = []
  /-- no file is pending -/
  pendingFiles : s.queue.pendingFiles.keys = []
  /-- the list of the scheduler is empty -/
  modifiedFiles : s.scheduler.modifiedFiles = []
  /-- the index is up to date -/
  pickedUp : s.PickedUp

/-! ## The queue and the scheduler -/

/-- The event says that the file was modified, and nothing else. -/
def OnlyModified (file : PendingFile) : Prop := file = { path := file.path, modified := true }

theorem OnlyModified.requiresIndexing {file : PendingFile} (h : OnlyModified file) : file.requiresIndexing = true := by
  rw [h]
  rfl

theorem OnlyModified.merge {pending file : PendingFile} (h : OnlyModified pending) (h' : OnlyModified file) :
    OnlyModified (pending.merge file) := by
  rw [h, h']
  rfl

theorem mem_addToCache_modified {file : PendingFile} {cache : List PendingFile} (hfile : OnlyModified file)
    (hcache : ∀ pending ∈ cache, OnlyModified pending) :
    ∀ pending ∈ PendingFileQueue.addToCache file cache, OnlyModified pending := by
  induction cache with
  | nil => exact fun pending hpending => List.mem_singleton.mp hpending ▸ hfile
  | cons first cache ih =>
    obtain ⟨hfirst, hcache⟩ := List.forall_mem_cons.mp hcache
    rw [PendingFileQueue.addToCache]
    split
    · exact List.forall_mem_cons.mpr ⟨hfirst.merge hfile, hcache⟩
    · exact List.forall_mem_cons.mpr ⟨hfirst, ih hcache⟩

theorem path_of_mem_addToCache {file pending : PendingFile} {cache : List PendingFile}
    (h : pending ∈ PendingFileQueue.addToCache file cache) :
    pending.path = file.path ∨ ∃ first ∈ cache, first.path = pending.path := by
  induction cache with
  | nil => exact .inl (congrArg PendingFile.path (List.mem_singleton.mp h))
  | cons first cache ih =>
    rw [PendingFileQueue.addToCache] at h
    rw [List.exists_mem_cons_iff]
    split at h
    · rcases List.mem_cons.mp h with rfl | hmem
      · exact .inr (.inl rfl)
      · exact .inr (.inr ⟨pending, hmem, rfl⟩)
    · rcases List.mem_cons.mp h with rfl | hmem
      · exact .inr (.inl rfl)
      · exact (ih hmem).imp_right .inr

/-- What a timer of the queue does with paths that wait in the queue: they wait there still, or they are signalled to
be modified files, and nothing else is signalled. -/
structure HandsOver (q q' : PendingFileQueue) (signals : List Signal) : Prop where
  /-- the events of the cache are gone or what they were -/
  cache : ∀ file ∈ q'.cache, file ∈ q.cache
  /-- what waits waits still or is signalled -/
  kept : ∀ path, q.Queued path → q'.Queued path ∨ .indexModifiedFile path ∈ signals
  /-- nothing else waits -/
  queued : ∀ path, q'.Queued path → q.Queued path
  /-- nothing else is signalled -/
  signals : ∀ signal ∈ signals, ∃ path, signal = .indexModifiedFile path ∧ q.Queued path

section Queue

open PendingFileQueue

variable {q q' : PendingFileQueue} {signals : List Signal} {t : QTime}

/-- A round of `processCache` puts its file among the pending ones, or it signals it. -/
theorem processFile_modified {s : PendingFileQueue × List Signal} {file : PendingFile} (hfile : OnlyModified file) :
    (∀ path, (processFile t s file).1.pendingFiles.contains path = true →
        s.1.pendingFiles.contains path = true ∨ file.path = path) ∧
      ∀ signal ∈ (processFile t s file).2, signal ∈ s.2 ∨ signal = .indexModifiedFile file.path := by
  have hput : ∀ time path, (s.1.pendingFiles.put file.path time).contains path = true →
      s.1.pendingFiles.contains path = true ∨ file.path = path := by
    intro time path hpath
    rw [OrdMap.contains_put, Bool.or_eq_true, decide_eq_true_iff] at hpath
    exact hpath.symm.imp_right Eq.symm
  have hcontents : file.shouldIndexXAttrOnly = false ∧ file.shouldIndexContents = true ∧ file.isNewFile = false := by
    rw [hfile]
    exact ⟨rfl, rfl, rfl⟩
  obtain ⟨hxattr, hcontents, hnew⟩ := hcontents
  simp only [processFile, hxattr, hcontents, hnew, Bool.false_eq_true, if_false, if_true]
  rcases s.1.pendingFiles.get file.path with _ | time
  · dsimp only
    split
    · exact ⟨hput _, fun signal hsignal => .inl hsignal⟩
    · refine ⟨fun path hpath => .inl hpath, fun signal hsignal => ?_⟩
      exact (List.mem_append.mp hsignal).imp_right List.mem_singleton.mp
  · exact ⟨hput _, fun signal hsignal => .inl hsignal⟩

/-- The loop of `processCache`. -/
theorem processFiles_modified {files : List PendingFile} (hfiles : ∀ file ∈ files, OnlyModified file)
    (s : PendingFileQueue × List Signal) :
    (∀ path, (files.foldl (processFile t) s).1.pendingFiles.contains path = true →
        s.1.pendingFiles.contains path = true ∨ ∃ file ∈ files, file.path = path) ∧
      ∀ signal ∈ (files.foldl (processFile t) s).2,
        signal ∈ s.2 ∨ ∃ file ∈ files, signal = .indexModifiedFile file.path := by
  induction files generalizing s with
  | nil => exact ⟨fun path hpath => .inl hpath, fun signal hsignal => .inl hsignal⟩
  | cons file files ih =>
    obtain ⟨hfile, hfiles⟩ := List.forall_mem_cons.mp hfiles
    obtain ⟨hpending, hsignals⟩ := @processFile_modified t s file hfile
    obtain ⟨hpending', hsignals'⟩ := ih hfiles (processFile t s file)
    refine ⟨fun path hpath => ?_, fun signal hsignal => ?_⟩
    · rw [List.exists_mem_cons_iff, ← or_assoc]
      exact (hpending' path hpath).imp_left (hpending path)
    · rw [List.exists_mem_cons_iff, ← or_assoc]
      exact (hsignals' signal hsignal).imp_left (hsignals signal)

/-- The cache timer has fired. -/
theorem handsOver_processCache (hcache : ∀ file ∈ q.cache, OnlyModified file)
    (hprocess : { q with cacheTimer := q.cacheTimer.fire }.processCache t = (q', signals)) :
    HandsOver q q' signals := by
  obtain ⟨hpending, hsignals⟩ := @processFiles_modified t q.cache hcache
    ({ q with cacheTimer := q.cacheTimer.fire }, [])
  have hserved : ∀ path, q.Queued path →
      Served (q.cache.foldl (processFile t) ({ q with cacheTimer := q.cacheTimer.fire }, [])).1
        (q.cache.foldl (processFile t) ({ q with cacheTimer := q.cacheTimer.fire }, [])).2 path := by
    rintro path (⟨file, hfile, rfl⟩ | hpath)
    · exact served_processFiles (fun file hfile => (hcache file hfile).requiresIndexing) hfile
    · exact processFiles_served (.inl hpath)
  rw [PendingFileQueue.processCache] at hprocess
  obtain ⟨rfl, rfl⟩ := Prod.mk.inj hprocess
  have hsignal : ∀ signal ∈ (q.cache.foldl (processFile t) ({ q with cacheTimer := q.cacheTimer.fire }, [])).2,
      ∃ path, signal = .indexModifiedFile path ∧ q.Queued path := by
    intro signal hsignal
    rcases hsignals signal hsignal with hnil | ⟨file, hfile, rfl⟩
    · exact absurd hnil List.not_mem_nil
    · exact ⟨file.path, rfl, .inl ⟨file, hfile, rfl⟩⟩
  refine ⟨fun file hfile => ?_, fun path hpath => ?_, fun path hpath => ?_, hsignal⟩
  · simp at hfile
  · rcases hserved path hpath with hleft | ⟨signal, hmem, hindexes⟩
    · exact .inl (.inr (by simpa using hleft))
    · obtain ⟨path', rfl, -⟩ := hsignal signal hmem
      obtain rfl := Option.some.inj hindexes
      exact .inr hmem
  · rcases hpath with ⟨file, hfile, -⟩ | hpath
    · simp at hfile
    · rw [startClearRecentlyEmittedTimer_pendingFiles, startPendingFilesTimer_pendingFiles] at hpath
      exact (hpending path hpath).symm

/-- The loop of `processPendingFiles`. -/
theorem processPendingFiles_only (order : List (QByteArray × QTime)) (s : PendingFileQueue × ℤ × List Signal) :
    (∀ path, (order.foldl (processPendingFile t) s).1.pendingFiles.contains path = true →
        s.1.pendingFiles.contains path = true) ∧
      ∀ signal ∈ (order.foldl (processPendingFile t) s).2.2,
        signal ∈ s.2.2 ∨ ∃ it ∈ order, signal = .indexModifiedFile it.1 := by
  induction order generalizing s with
  | nil => exact ⟨fun path hpath => hpath, fun signal hsignal => .inl hsignal⟩
  | cons it order ih =>
    obtain ⟨hpending, hsignals⟩ := ih (processPendingFile t s it)
    have hround : (∀ path, (processPendingFile t s it).1.pendingFiles.contains path = true →
          s.1.pendingFiles.contains path = true) ∧
        ∀ signal ∈ (processPendingFile t s it).2.2, signal ∈ s.2.2 ∨ signal = .indexModifiedFile it.1 := by
      rw [processPendingFile]
      split
      · refine ⟨fun path hpath => ?_, fun signal hsignal => ?_⟩
        · rw [OrdMap.contains_del, Bool.and_eq_true] at hpath
          exact hpath.2
        · exact (List.mem_append.mp hsignal).imp_right List.mem_singleton.mp
      · exact ⟨fun path hpath => hpath, fun signal hsignal => .inl hsignal⟩
    refine ⟨fun path hpath => hround.1 path (hpending path hpath), fun signal hsignal => ?_⟩
    rw [List.exists_mem_cons_iff, ← or_assoc]
    exact (hsignals signal hsignal).imp_left (hround.2 signal)

/-- The timer for pending files has fired. -/
theorem handsOver_processPendingFiles {order : List (QByteArray × QTime)} (horder : order.Perm q.pendingFiles.toList)
    (hprocess : { q with pendingFilesTimer := q.pendingFilesTimer.fire }.processPendingFiles t order = (q', signals)) :
    HandsOver q q' signals := by
  obtain ⟨hserved, hcache, -⟩ := processPendingFiles_loop t order
    ({ q with pendingFilesTimer := q.pendingFilesTimer.fire }, q.maxTimeout, [])
  obtain ⟨hpending, hsignals⟩ := @processPendingFiles_only t order
    ({ q with pendingFilesTimer := q.pendingFilesTimer.fire }, q.maxTimeout, [])
  rw [PendingFileQueue.processPendingFiles] at hprocess
  generalize order.foldl (processPendingFile t) _ = s at *
  obtain ⟨q₁, nextUpdate, signals₁⟩ := s
  have hsame : q'.cache = q₁.cache ∧ q'.pendingFiles = q₁.pendingFiles := by
    rw [← (Prod.mk.inj hprocess).1, startClearRecentlyEmittedTimer_cache, startClearRecentlyEmittedTimer_pendingFiles]
    dsimp only
    split <;> exact ⟨rfl, rfl⟩
  obtain rfl : signals₁ = signals := (Prod.mk.inj hprocess).2
  have hcache' : q'.cache = q.cache := hsame.1.trans hcache
  have hsignal : ∀ signal ∈ signals₁, ∃ path, signal = .indexModifiedFile path ∧ q.Queued path := by
    intro signal hsignal
    rcases hsignals signal hsignal with hnil | ⟨it, hit, rfl⟩
    · exact absurd hnil List.not_mem_nil
    · refine ⟨it.1, rfl, .inr (OrdMap.contains_iff.mpr ⟨it.2, ?_⟩)⟩
      exact OrdMap.mem_toList.mp (horder.subset hit)
  refine ⟨fun file hfile => hcache' ▸ hfile, fun path hpath => ?_, fun path hpath => ?_, hsignal⟩
  · rcases hpath with hfile | hpath
    · exact .inl (.inl (hcache' ▸ hfile))
    · rcases hserved path (.inl hpath) with hleft | ⟨signal, hmem, hindexes⟩
      · exact .inl (.inr (hsame.2 ▸ hleft))
      · obtain ⟨path', rfl, -⟩ := hsignal signal hmem
        obtain rfl := Option.some.inj hindexes
        exact .inr hmem
  · rcases hpath with hfile | hpath
    · exact .inl (hcache' ▸ hfile)
    · rw [hsame.2] at hpath
      exact .inr (hpending path hpath)

/-- The timer for recently signalled paths has fired. -/
theorem handsOver_clearRecentlyEmitted (order : List (QByteArray × QTime)) :
    HandsOver q ({ q with
      clearRecentlyEmittedTimer := q.clearRecentlyEmittedTimer.fire }.clearRecentlyEmitted t order) [] := by
  have hsame : ({ q with clearRecentlyEmittedTimer := q.clearRecentlyEmittedTimer.fire }.clearRecentlyEmitted t
        order).cache = q.cache ∧
      ({ q with clearRecentlyEmittedTimer := q.clearRecentlyEmittedTimer.fire }.clearRecentlyEmitted t
        order).pendingFiles = q.pendingFiles := by
    simp only [clearRecentlyEmitted]
    split <;> exact ⟨rfl, rfl⟩
  refine ⟨fun file hfile => hsame.1 ▸ hfile, fun path hpath => .inl ?_, fun path hpath => ?_,
    fun signal hsignal => absurd hsignal List.not_mem_nil⟩
  · rw [Queued, hsame.1, hsame.2]
    exact hpath
  · rw [Queued, hsame.1, hsame.2] at hpath
    exact hpath

end Queue

section Scheduler

variable {scheduler : FileIndexScheduler}

theorem mem_indexFile_modified (file : QByteArray) (path : QByteArray) :
    path ∈ (scheduler.indexModifiedFile file).modifiedFiles ↔ path ∈ scheduler.modifiedFiles ∨ path = file := by
  rw [FileIndexScheduler.indexModifiedFile, FileIndexScheduler.indexFile]
  split
  · next hmem =>
    refine ⟨.inl, fun h => h.elim id ?_⟩
    rintro rfl
    exact hmem
  · dsimp only
    have happend : path ∈ scheduler.modifiedFiles ++ [file] ↔ path ∈ scheduler.modifiedFiles ∨ path = file := by
      rw [List.mem_append, List.mem_singleton]
    split
    · exact happend
    · exact happend

/-- The paths that are signalled are put into the list. -/
theorem mem_receive_ofQueue {signals : List Signal} (h : ∀ signal ∈ signals, ∃ path, signal = .indexModifiedFile path)
    (path : QByteArray) : path ∈ (receive scheduler (signals.flatMap FileWatch.ofQueue)).modifiedFiles ↔
      path ∈ scheduler.modifiedFiles ∨ .indexModifiedFile path ∈ signals := by
  induction signals generalizing scheduler with
  | nil => exact (or_iff_left List.not_mem_nil).symm
  | cons signal signals ih =>
    obtain ⟨⟨file, rfl⟩, hsignals⟩ := List.forall_mem_cons.mp h
    refine (@ih (scheduler.indexModifiedFile file) hsignals).trans ?_
    rw [mem_indexFile_modified, or_assoc, List.mem_cons, Signal.indexModifiedFile.injEq]

theorem modifiedFiles_indexNewFile (file : QByteArray) :
    (scheduler.indexNewFile file).modifiedFiles = scheduler.modifiedFiles := by
  rw [FileIndexScheduler.indexNewFile, FileIndexScheduler.indexFile]
  split
  · rfl
  · dsimp only
    split <;> rfl

theorem modifiedFiles_receive_moved (known : QByteArray → Bool) (source target : QByteArray) :
    (receive scheduler (MetadataMover.moveFileMetadata known source target)).modifiedFiles =
      (scheduler.handleFileRemoved target).modifiedFiles := by
  rw [MetadataMover.moveFileMetadata]
  split
  · exact modifiedFiles_indexNewFile _
  · split
    · exact modifiedFiles_indexNewFile _
    · rfl

/-- What is at the target, or below a target with a slash at its end, is taken out of the list. -/
theorem mem_handleFileRemoved {target path : QByteArray} :
    (path ∈ (scheduler.handleFileRemoved target).modifiedFiles → path ∈ scheduler.modifiedFiles) ∧
      (path ∈ scheduler.modifiedFiles → path ≠ target → ¬ (target.getLast? = some slash ∧ target <+: path) →
        path ∈ (scheduler.handleFileRemoved target).modifiedFiles) := by
  rw [FileIndexScheduler.handleFileRemoved]
  split
  · exact ⟨List.mem_of_mem_erase, fun hmem hne _ => (List.mem_erase_of_ne hne).mpr hmem⟩
  · next hslash =>
    refine ⟨List.mem_of_mem_filter, fun hmem _ hnot => List.mem_filter.mpr ⟨hmem, ?_⟩⟩
    rw [Bool.not_eq_true', ← Bool.not_eq_true, List.isPrefixOf_iff_prefix]
    exact fun hprefix => hnot ⟨not_not.mp hslash, hprefix⟩

end Scheduler

/-! ## The index -/

/-- Documents may be gone; those that are left have the times they had. -/
def TimesKept (db db' : Database) : Prop :=
  ∀ i, db'.docUrlDb.contains i = true → db.docUrlDb.contains i = true ∧ db'.docTimeDb.get i = db.docTimeDb.get i

section Index

variable {db db' : Database} {w w' : WriteTransaction} {target source : QByteArray}

theorem TimesKept.removeDocument (h : TimesKept db w.dbis) (id : DocId) : TimesKept db (w.removeDocument id).dbis := by
  intro i hi
  change (w.dbis.docUrlDb.del id).contains i = true at hi
  change _ ∧ DocumentTimeDB.get (w.dbis.docTimeDb.del id) i = _
  have hkept : w.dbis.docUrlDb.contains i = true ∧ i ≠ id := by
    rw [DocumentUrlDB.del] at hi
    split at hi
    · next hzero =>
      refine ⟨hi, ?_⟩
      rintro rfl
      simp [DocumentUrlDB.contains, hzero] at hi
    · simp only [DocumentUrlDB.contains, OrdMap.contains_del, Bool.and_eq_true, Bool.not_eq_true',
        decide_eq_false_iff_not] at hi ⊢
      exact ⟨⟨hi.1, hi.2.2⟩, hi.2.1⟩
  obtain ⟨hstored, htimes⟩ := h i hkept.1
  refine ⟨hstored, ?_⟩
  rw [← htimes, DocumentTimeDB.get, DocumentTimeDB.get, OrdMap.get_del, if_neg hkept.2]

theorem timesKept_removeMetadata {fuel : ℕ} (h : WriteTransaction.removeMetadata fuel { dbis := db } target = some w) :
    TimesKept db w.dbis :=
  removeMetadata_preserves (P := fun w => TimesKept db w.dbis) (fun _ id h => h.removeDocument id)
    (fun _ hi => ⟨hi, rfl⟩) h

/-- What `getId` finds is stored. -/
theorem contains_getId {urls : DocumentUrlDB} {parentId : DocId} {name : QByteArray}
    (h : urls.getId parentId name ≠ 0) : urls.contains (urls.getId parentId name) = true := by
  rw [DocumentUrlDB.contains, decide_eq_true h, Bool.true_and]
  rw [DocumentUrlDB.getId] at h ⊢
  split at h
  · exact absurd rfl h
  · next hname =>
    rw [if_neg hname]
    rcases hfind : (urls.idTreeDb.get parentId).find? _ with _ | i
    · rw [hfind] at h
      exact absurd rfl h
    · have hmatch := List.find?_some hfind
      rw [Option.getD_some, OrdMap.contains]
      rcases hget : urls.idFilenameDb.get i with _ | place
      · rw [hget] at hmatch
        cases hmatch
      · rfl

theorem contains_documentIdLoop {urls : DocumentUrlDB} {li : List QByteArray} {parentId : DocId}
    (hparent : parentId ≠ 0 → urls.contains parentId = true) (h : urls.documentIdLoop parentId li ≠ 0) :
    urls.contains (urls.documentIdLoop parentId li) = true := by
  induction li generalizing parentId with
  | nil => exact hparent h
  | cons fileName li ih =>
    simp only [DocumentUrlDB.documentIdLoop] at h ⊢
    split at h
    · next hempty =>
      rw [if_pos hempty]
      exact ih hparent h
    · next hname =>
      rw [if_neg hname]
      split at h
      · exact absurd rfl h
      · next hfound =>
        rw [if_neg hfound]
        exact ih contains_getId h

/-- What `documentId` finds is stored. -/
theorem contains_documentId {urls : DocumentUrlDB} {path : QByteArray} (h : urls.documentId path ≠ 0) :
    urls.contains (urls.documentId path) = true :=
  contains_documentIdLoop (fun hzero => absurd rfl hzero) h

/-- The times stay what they are if they are not replaced. -/
theorem docTimeDb_replaceDocument {doc : Document} {operations : DocumentOperations}
    (htime : operations.documentTime = false) :
    (w.replaceDocument doc operations).dbis.docTimeDb = w.dbis.docTimeDb := by
  obtain ⟨docTermsDb, docXattrTermsDb, docFilenameTermsDb, hframe⟩ := w.replaceDocument_frame doc operations
  rw [hframe, WriteTransaction.replaceData, htime]
  rfl

theorem TimesKept.updateMetadata (h : TimesKept db w.dbis) (tokens : Tokenizer)
    (decodeName : QByteArray → List QChar) :
    TimesKept db (w.updateMetadata tokens decodeName source target).dbis := by
  rw [WriteTransaction.updateMetadata]
  dsimp only
  split
  · exact h
  · next hknown =>
    split
    · exact h
    · intro i hi
      rw [fileNameTerms_indexFileNameText tokens _ _ rfl] at hi ⊢
      rw [contains_replaceDocument (contains_documentId hknown)] at hi
      rw [docTimeDb_replaceDocument rfl]
      exact h i hi

/-- What a move commits. -/
theorem timesKept_moveFileMetadata {fuel : ℕ} (tokens : Tokenizer) (decodeName : QByteArray → List QChar)
    (order : List Term) (h : WriteTransaction.removeMetadata fuel { dbis := db } target = some w) :
    TimesKept db ((w.updateMetadata tokens decodeName source target).commit order) := by
  intro i hi
  rw [docUrlDb_commit] at hi
  rw [docTimeDb_commit]
  exact (timesKept_removeMetadata h).updateMetadata tokens decodeName i hi

end Index

/-! ## `ModifiedFileIndexer` -/

section Visits

variable {lib : Libraries} {config : FileIndexerConfig} {onlyBasicIndexing : Bool} {path : QByteArray} {id : DocId}
  {w : WriteTransaction}

/-- What `ModifiedFileIndexer` does with a file that is to be indexed: nothing if it is up to date; otherwise its
document is replaced or added, with its times. -/
theorem visit_indexedFile {fs : Snapshot} (h : IndexedFile lib config path id fs) :
    UpToDate w.dbis (fs.stat path) id ∧ ModifiedFileIndexer.visit lib config onlyBasicIndexing fs w path = w ∨
      ∃ doc, doc.id = id ∧ doc.mTime = toQuint32 (fs.stat path).mTime ∧
        (w.dbis.docUrlDb.contains id = true ∧ (∃ operations, operations.documentTime = true ∧
            ModifiedFileIndexer.visit lib config onlyBasicIndexing fs w path = w.replaceDocument doc operations) ∨
          (∃ mimetype, BasicIndexingJob.Describes lib fs path mimetype doc) ∧
            ModifiedFileIndexer.visit lib config onlyBasicIndexing fs w path =
              w.addDocument fs.toFileSystem doc) := by
  have hchop : chop path = path := chop_of_isPath (fs.isPath _ _ h.lstat)
  have hcases := @decide_cases lib config onlyBasicIndexing fs w.dbis path id
  rw [hchop] at hcases
  rw [ModifiedFileIndexer.visit, hchop]
  rcases hcases h.lstat h.isSymLink h.accepts with
    ⟨hdate, hskip⟩ | ⟨-, ⟨hstored, hdefer⟩ | ⟨mimetype, hindex⟩⟩
  · rw [hskip]
    exact .inl ⟨hdate, rfl⟩
  · rw [hdefer]
    exact .inr ⟨_, rfl, rfl, .inl ⟨hstored, _, rfl, rfl⟩⟩
  · rw [hindex]
    dsimp only
    rcases hdoc : BasicIndexingJob.index lib fs path mimetype (indexingLevel onlyBasicIndexing) with _ | doc
    · rcases BasicIndexingJob.index_eq_none.mp hdoc with hdirectory | hpath
      · exact absurd hdirectory h.directory
      · rw [hchop, h.lstat] at hpath
        cases hpath
    · have hdescribes := BasicIndexingJob.index_describes hdoc
      have hid := hdescribes.id
      have hmTime := hdescribes.mTime
      rw [hchop] at hid hmTime
      obtain rfl := Option.some.inj (hid.symm.trans h.lstat)
      refine .inr ⟨doc, rfl, hmTime, ?_⟩
      dsimp only
      rw [decide_eq_true rfl, Bool.and_true]
      rcases hstored : w.dbis.docUrlDb.contains doc.id with _ | _
      · exact .inr ⟨⟨mimetype, hdescribes⟩, rfl⟩
      · exact .inl ⟨rfl, _, rfl, rfl⟩

/-- A file that is to be indexed, with a time that can be recorded. -/
structure Recordable (lib : Libraries) (config : FileIndexerConfig) (disk : Disk) (path : QByteArray) : Prop where
  /-- it is to be indexed -/
  indexed : ∃ id, IndexedFile lib config path id disk.toSnapshot
  /-- the time -/
  mTime : 0 ≤ (disk.stat path).mTime ∧ (disk.stat path).mTime < 2 ^ 32

/-- The file itself is recorded. -/
theorem shown_visit {disk : Disk} (h : IndexedFile lib config path id disk.toSnapshot)
    (hfits : 0 ≤ (disk.stat path).mTime ∧ (disk.stat path).mTime < 2 ^ 32) :
    Shown disk (ModifiedFileIndexer.visit lib config onlyBasicIndexing disk.toSnapshot w path).dbis path := by
  intro i hi hfile _
  obtain rfl := Option.some.inj (h.lstat.symm.trans hi)
  have hrecorded : ∀ {db : Database} {doc : Document}, doc.id = id → doc.mTime = toQuint32 (disk.stat path).mTime →
      Recorded db doc → ((db.docTimeDb.get id).mTime : ℤ) = (disk.stat path).mTime := by
    intro db doc hid hmTime hdoc
    have htimes := hdoc.times
    rw [hid] at htimes
    rw [htimes, hmTime]
    exact (toQuint32_eq_iff _).mpr hfits
  rcases @visit_indexedFile lib config onlyBasicIndexing path id w disk.toSnapshot h with
    ⟨hdate, hsame⟩ | ⟨doc, rfl, hmTime, ⟨hstored, operations, htime, hreplace⟩ | ⟨⟨mimetype, hdescribes⟩, hadd⟩⟩
  · rw [hsame]
    exact hdate.mTime hfile.1
  · rw [hreplace]
    exact hrecorded rfl hmTime (recorded_replaceDocument htime hstored)
  · rw [hadd]
    exact hrecorded rfl hmTime (recorded_addDocument hdescribes)

/-- Other files stay as they are: what is entered besides the file are directories. -/
theorem Shown.visit {disk : Disk} {other : QByteArray} (hshown : Shown disk w.dbis other) (hne : other ≠ path)
    (h : IndexedFile lib config path id disk.toSnapshot) :
    Shown disk (ModifiedFileIndexer.visit lib config onlyBasicIndexing disk.toSnapshot w path).dbis other := by
  intro i hi hfile hafter
  have hid : i ≠ id := by
    rintro rfl
    exact hne (disk.injective other path i hi h.lstat)
  -- it was stored before, with the same times
  have hkept : ∀ {db : Database}, w.dbis.docUrlDb.contains i = true → db.docTimeDb.get i = w.dbis.docTimeDb.get i →
      ((db.docTimeDb.get i).mTime : ℤ) = (disk.stat other).mTime := by
    intro db hstored htimes
    rw [htimes]
    exact hshown i hi hfile hstored
  rcases @visit_indexedFile lib config onlyBasicIndexing path id w disk.toSnapshot h with
    ⟨-, hsame⟩ | ⟨doc, rfl, -, ⟨hstored, operations, htime, hreplace⟩ | ⟨⟨mimetype, hdescribes⟩, hadd⟩⟩
  · rw [hsame] at hafter ⊢
    exact hshown i hi hfile hafter
  · rw [hreplace] at hafter ⊢
    rw [contains_replaceDocument hstored] at hafter
    refine hkept hafter ?_
    obtain ⟨docTermsDb, docXattrTermsDb, docFilenameTermsDb, hframe⟩ := w.replaceDocument_frame doc operations
    rw [hframe, WriteTransaction.replaceData]
    dsimp only
    rw [if_pos htime, DocumentTimeDB.get, DocumentTimeDB.get, OrdMap.get_put, if_neg hid]
  · obtain ⟨dir, name, hpath, hurl, hname, hslash, hdir, hid0, -⟩ := hdescribes.split
    rw [chop_of_isPath (disk.isPath _ _ h.lstat)] at hpath
    have hurls := addUrl_eq disk.toFileSystem w.dbis.docUrlDb hurl hdir hname hslash hid0
    rw [hadd] at hafter ⊢
    rw [WriteTransaction.addDocument, hurls] at hafter ⊢
    change ((w.dbis.docUrlDb.addPath disk.toFileSystem dir).1.add doc.id doc.parentId name).contains i = true at hafter
    refine hkept ?_ ?_
    · simp only [DocumentUrlDB.contains, Bool.and_eq_true, OrdMap.contains,
        DocumentUrlDB.idFilenameDb_add hid0 hname, if_neg hid] at hafter ⊢
      refine ⟨hafter.1, ?_⟩
      rcases DocumentUrlDB.addPath_enters disk.toFileSystem w.dbis.docUrlDb dir i with hsame | ⟨-, p, hp, hpi, -⟩
      · rw [← hsame]
        exact hafter.2
      · obtain rfl := disk.injective _ _ _ hi hpi
        have habove : IsAncestor other path := by
          rw [hpath]
          refine (isAncestor_append hslash).mpr ?_
          rcases hp with rfl | hp
          · exact .inl ⟨hdir, rfl⟩
          · exact .inr hp
        exact absurd (disk.isDir path doc.id h.lstat other habove) (by simp [hfile.1])
    · change DocumentTimeDB.get (w.dbis.docTimeDb.put doc.id _) i = _
      rw [DocumentTimeDB.get, DocumentTimeDB.get, OrdMap.get_put, if_neg hid]

/-- The loop of `ModifiedFileIndexer`: the files of the list are recorded, others stay as they are. -/
theorem shown_visits {disk : Disk} {files : List QByteArray}
    (hfiles : ∀ path ∈ files, Recordable lib config disk path) {other : QByteArray}
    (h : other ∈ files ∨ Shown disk w.dbis other) :
    Shown disk (files.foldl (ModifiedFileIndexer.visit lib config onlyBasicIndexing disk.toSnapshot) w).dbis other := by
  induction files generalizing w with
  | nil => exact h.resolve_left List.not_mem_nil
  | cons path files ih =>
    obtain ⟨⟨⟨id, hpath⟩, hfits⟩, hfiles⟩ := List.forall_mem_cons.mp hfiles
    refine ih hfiles ?_
    by_cases hother : other = path
    · subst hother
      exact .inr (shown_visit hpath hfits)
    · rcases h with hmem | hshown
      · exact .inl ((List.mem_cons.mp hmem).resolve_left hother)
      · exact .inr (hshown.visit hother hpath)

end Visits

/-! ## Runs -/

section Runs

variable {lib : Libraries} {config : FileIndexerConfig} {onlyBasicIndexing : Bool} {s s' : State}

/-- What waits can be recorded, and what is not recorded waits. -/
structure Accounted (lib : Libraries) (config : FileIndexerConfig) (s : State) : Prop where
  /-- the events of the cache -/
  events : ∀ file ∈ s.queue.cache, OnlyModified file
  /-- what waits can be recorded -/
  waiting : ∀ path, s.Waits path → Recordable lib config s.disk path
  /-- every file waits or is recorded -/
  shown : ∀ path, s.Waits path ∨ Shown s.disk s.db path

/-- A file with a directory keeps one while it exists. -/
theorem hasDirectory_congr {disk disk' : Disk} {path : QByteArray} {id : DocId}
    (h : HasDirectory disk.toSnapshot path) (hlstat : disk'.lstat path = some id) :
    HasDirectory disk'.toSnapshot path := by
  obtain ⟨dir, name, hpath, -, hslash⟩ := (disk'.isPath path id hlstat).split
  rw [HasDirectory, chop_of_isPath (disk'.isPath path id hlstat)] at h ⊢
  rw [hpath, lastIndexOf_append hslash, left_append] at h ⊢
  have hdir : dir ≠ [] := by
    rintro rfl
    exact h disk.lstat_nil
  obtain ⟨i, hi⟩ := disk'.closed path id hlstat dir ⟨hdir, name, hpath⟩
  rw [hi]
  exact Option.some_ne_none i

/-- What can be recorded can still be if the file stays what it is. -/
theorem Recordable.congr {disk disk' : Disk} {path : QByteArray} (h : Recordable lib config disk path)
    (hlstat : disk'.lstat path = disk.lstat path) (hsame : SameFile (disk.stat path) (disk'.stat path)) :
    Recordable lib config disk' path := by
  obtain ⟨⟨id, hfile⟩, hfits⟩ := h
  have hid : disk'.lstat path = some id := hlstat.trans hfile.lstat
  refine ⟨⟨id, hid, ?_, ?_, hfile.accepts, hasDirectory_congr hfile.directory hid⟩, ?_⟩
  · rw [hsame.isDir hfile.isSymLink]
    exact hfile.isDir
  · rw [hsame.isSymLink]
    exact hfile.isSymLink
  · rw [hsame.mTime ⟨hfile.isDir, hfile.isSymLink⟩]
    exact hfits

/-- A file that is one now was one. -/
theorem SameFile.isFile {before after : Stat} (h : SameFile before after) (hafter : IsFile after) : IsFile before := by
  have hlink : before.isSymLink = false := h.isSymLink.symm.trans hafter.2
  exact ⟨(h.isDir hlink).symm.trans hafter.1, hlink⟩

/-- What has been recorded stays so if the file stays what it is, perhaps at another path. -/
theorem Shown.congr {disk disk' : Disk} {db db' : Database} {path path' : QByteArray} (h : Shown disk db path)
    (hlstat : disk'.lstat path' = disk.lstat path) (hsame : SameFile (disk.stat path) (disk'.stat path'))
    (htimes : TimesKept db db') : Shown disk' db' path' := by
  intro id hid hfile hstored
  obtain ⟨hbefore, htime⟩ := htimes id hstored
  rw [htime, hsame.mTime (hsame.isFile hfile)]
  exact h id (hlstat.symm.trans hid) (hsame.isFile hfile) hbefore

/-- Nothing waits if all three are empty. -/
theorem not_waits (hcache : s.queue.cache = []) (hpending : s.queue.pendingFiles.keys = [])
    (hlist : s.scheduler.modifiedFiles = []) (path : QByteArray) : ¬ s.Waits path := by
  rintro ((⟨file, hmem, -⟩ | hmem) | hmem)
  · rw [hcache] at hmem
    exact List.not_mem_nil hmem
  · rw [OrdMap.contains_iff_mem_keys, hpending] at hmem
    exact List.not_mem_nil hmem
  · rw [hlist] at hmem
    exact List.not_mem_nil hmem

theorem State.Starts.accounted (h : s.Starts) : Accounted lib config s := by
  have hnone := not_waits h.cache h.pendingFiles h.modifiedFiles
  refine ⟨fun file hfile => ?_, fun path hpath => absurd hpath (hnone path), fun path => .inr (h.pickedUp path)⟩
  rw [h.cache] at hfile
  exact absurd hfile List.not_mem_nil

/-- A timer of the queue fires: what waits waits still, here or in the list of the scheduler. -/
theorem Accounted.handsOver (h : Accounted lib config s) {q' : PendingFileQueue} {signals : List Signal}
    (hhands : HandsOver s.queue q' signals) : Accounted lib config
      { s with queue := q', scheduler := receive s.scheduler (signals.flatMap FileWatch.ofQueue) } := by
  have hlist := fun path => @mem_receive_ofQueue s.scheduler signals
    (fun signal hsignal => (hhands.signals signal hsignal).imp fun _ h => h.1) path
  refine ⟨fun file hfile => h.events file (hhands.cache file hfile), fun path hpath => h.waiting path ?_,
    fun path => (h.shown path).imp_left fun hpath => ?_⟩
  · rcases hpath with hqueued | hmem
    · exact .inl (hhands.queued path hqueued)
    · rcases (hlist path).mp hmem with hmem | hsignal
      · exact .inr hmem
      · obtain ⟨path', heq, hqueued⟩ := hhands.signals _ hsignal
        obtain rfl := Signal.indexModifiedFile.inj heq
        exact .inl hqueued
  · rcases hpath with hqueued | hmem
    · exact (hhands.kept path hqueued).imp_right fun hsignal => (hlist path).mpr (.inr hsignal)
    · exact .inr ((hlist path).mpr (.inl hmem))

/-- `ModifiedFileIndexer` has run. -/
theorem Accounted.index (h : Accounted lib config s) (order : List Term) : Accounted lib config
    { s with
      scheduler := { s.scheduler with modifiedFiles := [] }
      db := (s.scheduler.modifiedFiles.foldl (ModifiedFileIndexer.visit lib config onlyBasicIndexing
        s.disk.toSnapshot) { dbis := s.db }).commit order } := by
  refine ⟨h.events, fun path hpath => h.waiting path ?_, fun path => ?_⟩
  · exact .inl (hpath.resolve_right List.not_mem_nil)
  · have hshown : path ∈ s.scheduler.modifiedFiles ∨ Shown s.disk s.db path →
        Shown s.disk ((s.scheduler.modifiedFiles.foldl
          (ModifiedFileIndexer.visit lib config onlyBasicIndexing s.disk.toSnapshot) { dbis := s.db }).commit order)
          path := by
      intro hpath i
      rw [docUrlDb_commit, docTimeDb_commit]
      exact shown_visits (fun file hfile => h.waiting file (.inr hfile)) hpath i
    rcases h.shown path with (hqueued | hmem) | hbefore
    · exact .inl (.inl hqueued)
    · exact .inr (hshown (.inl hmem))
    · exact .inr (hshown (.inr hbefore))

/-- A file has been modified: it waits. -/
theorem Accounted.modify (h : Accounted lib config s) {path : QByteArray} {mTime : ℤ} {id : DocId} {disk' : Disk}
    {outside : FileWatch.Outside} {url : List QChar} {q' : PendingFileQueue} {signals : List FileWatchSignal}
    (hid : s.disk.lstat path = some id) (haccepts : config.shouldFileBeIndexed (decodedName lib path) = true)
    (hmodified : Modified path mTime s.disk disk') (hurl : outside.encodeName url = path)
    (hslot : FileWatch.slotFileModified outside s.queue url = (q', signals))
    (hharmless : 0 ≤ mTime ∧ mTime < 2 ^ 32 ∧ HasDirectory s.disk.toSnapshot path) : Accounted lib config
      { disk := disk', queue := q', scheduler := receive s.scheduler signals, db := s.db } := by
  obtain ⟨hpos, hlt, hdirectory⟩ := hharmless
  have hid' : disk'.lstat path = some id := by rw [hmodified.lstat, hid]
  rw [FileWatch.slotFileModified, hurl] at hslot
  obtain ⟨rfl, rfl⟩ := Prod.mk.inj hslot
  have hwaits : ∀ other, other = path ∨ s.Waits other →
      State.Waits { disk := disk', scheduler := s.scheduler, db := s.db
                    queue := (s.queue.enqueue { path := path, modified := true } []).1 } other := by
    rintro other (rfl | ((hfile | hpending) | hmem))
    · exact .inl (.inl (PendingFileQueue.mem_addToCache (.inl rfl)))
    · exact .inl (.inl (PendingFileQueue.mem_addToCache (.inr hfile)))
    · exact .inl (.inr hpending)
    · exact .inr hmem
  refine ⟨mem_addToCache_modified rfl h.events, fun other hother => ?_, fun other => ?_⟩
  · by_cases hsame : other = path
    · subst hsame
      refine ⟨⟨id, hid', hmodified.isFile.1, hmodified.isFile.2, haccepts, hasDirectory_congr hdirectory hid'⟩, ?_⟩
      rw [hmodified.mTime]
      exact ⟨hpos, hlt⟩
    · have hbefore : s.Waits other := by
        rcases hother with (⟨pending, hpending, rfl⟩ | hpending) | hmem
        · exact .inl (.inl ((path_of_mem_addToCache hpending).resolve_left hsame))
        · exact .inl (.inr hpending)
        · exact .inr hmem
      exact (h.waiting other hbefore).congr (by rw [hmodified.lstat]) (hmodified.others other hsame)
  · by_cases hsame : other = path
    · exact .inl (hwaits other (.inl hsame))
    · rcases h.shown other with hbefore | hshown
      · exact .inl (hwaits other (.inr hbefore))
      · refine .inr (hshown.congr (by rw [hmodified.lstat]) (hmodified.others other hsame) fun i hi => ⟨hi, rfl⟩)

/-- What is within a path that exists is this path with something behind it. -/
theorem Within.exists_rest {dir path : QByteArray} (h : Within dir path) :
    ∃ rest, path = dir ++ rest ∧ (rest = [] ∨ rest.head? = some slash) := by
  rcases h with rfl | ⟨-, rest, rfl⟩
  · exact ⟨[], by rw [List.append_nil], .inl rfl⟩
  · exact ⟨slash :: rest, rfl, .inr rfl⟩

theorem within_append {dir rest : QByteArray} (hdir : dir ≠ []) (hrest : rest = [] ∨ rest.head? = some slash) :
    Within dir (dir ++ rest) := by
  rcases hrest with rfl | hslash
  · exact .inl (List.append_nil dir)
  · obtain ⟨rest, rfl⟩ := List.head?_eq_some_iff.mp hslash
    exact .inr ⟨hdir, rest, rfl⟩

/-- There is nothing at or below a path that is free. -/
theorem not_within_of_free {disk : Disk} {dir path : QByteArray} {id : DocId} (hfree : disk.lstat dir = none)
    (hid : disk.lstat path = some id) : ¬ Within dir path := by
  rintro (rfl | habove)
  · rw [hfree] at hid
    cases hid
  · obtain ⟨i, hi⟩ := disk.closed path id hid dir habove
    rw [hfree] at hi
    cases hi

/-- A move takes no path out of the list that exists, if the target is free. -/
theorem mem_receive_moved {disk : Disk} {scheduler : FileIndexScheduler} {known : QByteArray → Bool}
    {source target path : QByteArray} {id : DocId} (hroot : chop target ≠ []) (hfree : disk.lstat (chop target) = none)
    (hid : disk.lstat path = some id) (hmem : path ∈ scheduler.modifiedFiles) :
    path ∈ (receive scheduler (MetadataMover.moveFileMetadata known source target)).modifiedFiles := by
  rw [modifiedFiles_receive_moved]
  have hchop : chop path = path := chop_of_isPath (disk.isPath path id hid)
  refine mem_handleFileRemoved.2 hmem ?_ ?_
  · rintro rfl
    rw [hchop, hid] at hfree
    cases hfree
  · rintro ⟨hlast, rest, rfl⟩
    have htarget : target = chop target ++ [slash] := by
      rw [chop, if_pos hlast]
      exact (List.dropLast_append_getLast? slash hlast).symm
    refine not_within_of_free hfree hid (.inr ⟨hroot, rest, ?_⟩)
    rw [← List.singleton_append, ← List.append_assoc, ← htarget]

/-- Something has been renamed that does not wait, and nothing below it waits. -/
theorem Accounted.rename (h : Accounted lib config s) {source target : QByteArray} {disk' : Disk}
    {known : QByteArray → Bool} {fuel : ℕ} {w : WriteTransaction} {order : List Term}
    (hsource : s.disk.lstat (chop source) ≠ none) (hfree : s.disk.lstat (chop target) = none)
    (hrenamed : Renamed (chop source) (chop target) s.disk disk')
    (hremove : WriteTransaction.removeMetadata fuel { dbis := s.db } target = some w)
    (hharmless : ∀ path, s.Waits path → ¬ Within (chop source) path) : Accounted lib config
      { disk := disk', queue := s.queue
        scheduler := receive s.scheduler (MetadataMover.moveFileMetadata known source target)
        db := (w.updateMetadata lib.tokens lib.decodeName source target).commit order } := by
  have htimes : TimesKept s.db ((w.updateMetadata lib.tokens lib.decodeName source target).commit order) :=
    timesKept_moveFileMetadata lib.tokens lib.decodeName order hremove
  have hnil : chop source ≠ [] := by
    intro hnil
    rw [hnil] at hsource
    exact hsource s.disk.lstat_nil
  have hroot : chop target ≠ [] := by
    intro hnil
    have hmoved := (hrenamed.moved [] (.inl rfl)).1
    rw [hnil, List.append_nil, List.append_nil, disk'.lstat_nil] at hmoved
    exact hsource hmoved.symm
  have hkept : ∀ path, s.Waits path → ∃ id, s.disk.lstat path = some id ∧
      ¬ Within (chop source) path ∧ ¬ Within (chop target) path := by
    intro path hpath
    obtain ⟨id, hfile⟩ := (h.waiting path hpath).indexed
    exact ⟨id, hfile.lstat, hharmless path hpath, not_within_of_free hfree hfile.lstat⟩
  refine ⟨h.events, fun path hpath => ?_, fun path => ?_⟩
  · have hbefore : s.Waits path := by
      refine hpath.imp_right fun hmem => ?_
      rw [modifiedFiles_receive_moved] at hmem
      exact mem_handleFileRemoved.1 hmem
    obtain ⟨id, -, hnot, hnot'⟩ := hkept path hbefore
    obtain ⟨hlstat, hsame⟩ := hrenamed.others path hnot hnot'
    exact (h.waiting path hbefore).congr hlstat hsame
  · by_cases htarget : Within (chop target) path
    · -- it was within the source, where nothing waits
      obtain ⟨rest, rfl, hrest⟩ := htarget.exists_rest
      obtain ⟨hlstat, hsame⟩ := hrenamed.moved rest hrest
      refine .inr (Shown.congr ?_ hlstat hsame htimes)
      exact (h.shown _).resolve_left fun hwaits => hharmless _ hwaits (within_append hnil hrest)
    · by_cases hwithin : Within (chop source) path
      · refine .inr fun id hid => ?_
        have hgone := hrenamed.gone path hwithin htarget
        change disk'.lstat path = some id at hid
        rw [hgone] at hid
        cases hid
      · obtain ⟨hlstat, hsame⟩ := hrenamed.others path hwithin htarget
        rcases h.shown path with hwaits | hshown
        · obtain ⟨id, hid, -⟩ := hkept path hwaits
          exact .inl (hwaits.imp_right fun hmem => mem_receive_moved hroot hfree hid hmem)
        · exact .inr (hshown.congr hlstat hsame htimes)

theorem Accounted.step (h : Accounted lib config s) (hstep : HarmlessStep lib config onlyBasicIndexing s s') :
    Accounted lib config s' := by
  obtain ⟨change, hstep, hharmless⟩ := hstep
  cases hstep with
  | modify hid _ _ haccepts hmodified hurl hslot => exact h.modify hid haccepts hmodified hurl hslot hharmless
  | rename hsource hfree _ hrenamed hfrom hto hindexed hremove _ hslot =>
    rw [FileWatch.slotFileMoved, if_pos hindexed, hfrom, hto] at hslot
    obtain ⟨rfl, rfl⟩ := Prod.mk.inj hslot
    exact h.rename hsource hfree hrenamed hremove hharmless
  | processCache currentTime _ hprocess => exact h.handsOver (handsOver_processCache h.events hprocess)
  | processPendingFiles currentTime order _ horder hprocess =>
    exact h.handsOver (handsOver_processPendingFiles horder hprocess)
  | clearRecentlyEmitted currentTime order _ _ => exact h.handsOver (handsOver_clearRecentlyEmitted order)
  | index order => exact h.index order

/-- **Every modification is picked up**, in every run in which nothing is renamed that waits: when the cache, the
pending files and the list of the scheduler are empty, every indexed file is recorded with its modification time. -/
theorem modifications_found (hstart : s.Starts)
    (hrun : Relation.ReflTransGen (HarmlessStep lib config onlyBasicIndexing) s s') (hcache : s'.queue.cache = [])
    (hpending : s'.queue.pendingFiles.keys = []) (hlist : s'.scheduler.modifiedFiles = []) : s'.PickedUp := by
  have hend : Accounted lib config s' := Transition.invariant (fun _ _ ha hab => ha.step hab) hstart.accounted hrun
  exact fun path => (hend.shown path).resolve_left (not_waits hcache hpending hlist path)

end Runs

/-! ## A file is modified and renamed -/

/-- Above a file in `/p` there is only `/p`. -/
theorem isAncestor_inP {name : UInt8} (hname : name ≠ slash) {dir : QByteArray} :
    ¬ IsAncestor dir [47, 112] ∧ (IsAncestor dir [47, 112, 47, name] → dir = [47, 112]) := by
  have hdir : ¬ IsAncestor dir ([] ++ slash :: [112]) := by
    rw [isAncestor_append (by decide)]
    rintro (⟨hne, rfl⟩ | ⟨hne, rest, hrest⟩)
    · exact hne rfl
    · simp at hrest
  refine ⟨hdir, fun habove => ?_⟩
  have hslash : slash ∉ [name] := fun hmem => hname (List.mem_singleton.mp hmem).symm
  exact (((isAncestor_append hslash).mp (habove : IsAncestor dir ([47, 112] ++ slash :: [name]))).resolve_right hdir).2

/-- `/p`, and in it one file that has been modified at `mTime`. -/
def fileAt (name : UInt8) (hname : name ≠ slash) (mTime : ℤ) : Disk where
  lstat path := if path = [47, 112] then some 5 else if path = [47, 112, 47, name] then some 3 else none
  stat path :=
    if path = [47, 112] then { isDir := true } else if path = [47, 112, 47, name] then { mTime := mTime } else {}
  isPath path id hid := by
    split_ifs at hid with hdir hfile
    · exact ⟨[[112]], List.cons_ne_nil _ _, by decide, hdir⟩
    · exact ⟨[[112], [name]], List.cons_ne_nil _ _, by simp [slash, hname.symm], hfile⟩
  ne_zero path := by split_ifs <;> decide
  injective path path' id hid hid' := by
    split_ifs at hid hid' with hdir hdir' hfile' hfile hdir' hfile'
    · exact hdir.trans hdir'.symm
    · exact absurd (hid.trans hid'.symm) (by decide)
    · exact absurd (hid.trans hid'.symm) (by decide)
    · exact hfile.trans hfile'.symm
  closed path id hid dir habove := by
    split_ifs at hid with hdir hfile
    · exact absurd (hdir ▸ habove) (isAncestor_inP hname).1
    · exact ⟨5, if_pos ((isAncestor_inP hname).2 (hfile ▸ habove))⟩
  isDir path id hid dir habove := by
    split_ifs at hid with hdir hfile
    · exact absurd (hdir ▸ habove) (isAncestor_inP hname).1
    · have hp : dir = [47, 112] := (isAncestor_inP hname).2 (hfile ▸ habove)
      rw [hp, if_pos rfl]

theorem fileAt_elsewhere {name : UInt8} {hname : name ≠ slash} {mTime : ℤ} {path : QByteArray} (hdir : path ≠ [47, 112])
    (hfile : path ≠ [47, 112, 47, name]) :
    (fileAt name hname mTime).lstat path = none ∧ (fileAt name hname mTime).stat path = {} :=
  ⟨(if_neg hdir).trans (if_neg hfile), (if_neg hdir).trans (if_neg hfile)⟩

namespace MovedFile

/-- `/p/d`. -/
def d : QByteArray := [47, 112, 47, 100]

/-- `/p/e`. -/
def e : QByteArray := [47, 112, 47, 101]

/-- `/p/d` has been modified after 9 seconds, and the index knows this. -/
def start : State where
  disk := fileAt 100 (by decide) 9
  queue := {}
  scheduler := { isFirstRun := false }
  db := {
    docUrlDb := (({} : DocumentUrlDB).add 5 0 [112]).add 3 5 [100]
    docTimeDb := OrdMap.put ∅ 3 { mTime := 9, cTime := 0 } }

/-- The answers, if nothing has to be removed at the target of a move. -/
def answers (db : Database) : FileWatch.Outside :=
  { MainHub.noAnswers with known := fun path => decide (db.docUrlDb.documentId path ≠ 0) }

/-- `/p/d` is modified after 20 seconds. -/
def modified (s : State) : State :=
  { s with
    disk := fileAt 100 (by decide) 20
    queue := (FileWatch.slotFileModified (answers s.db) s.queue (latin1String "/p/d".toList)).1 }

/-- `/p/d` is renamed to `/p/e`. -/
def renamed (s : State) : State :=
  { s with
    disk := fileAt 101 (by decide) 20
    scheduler := receive s.scheduler (MetadataMover.moveFileMetadata (answers s.db).known d e)
    db := (WriteTransaction.updateMetadata asciiLibraries.tokens asciiLibraries.decodeName { dbis := s.db } d e).commit
      (WriteTransaction.updateMetadata asciiLibraries.tokens asciiLibraries.decodeName { dbis := s.db } d
        e).pendingOperations.keys }

/-- The cache timer fires at midnight. -/
def cacheTimeout (s : State) : State :=
  { s with
    queue := ({ s.queue with cacheTimer := s.queue.cacheTimer.fire }.processCache 0).1
    scheduler := receive s.scheduler
      (({ s.queue with cacheTimer := s.queue.cacheTimer.fire }.processCache 0).2.flatMap FileWatch.ofQueue) }

/-- What `ModifiedFileIndexer` does with the list. -/
def visited (s : State) : WriteTransaction :=
  s.scheduler.modifiedFiles.foldl
    (ModifiedFileIndexer.visit asciiLibraries folderP false s.disk.toSnapshot) { dbis := s.db }

/-- `ModifiedFileIndexer` runs. -/
def indexed (s : State) : State :=
  { s with
    scheduler := { s.scheduler with modifiedFiles := [] }, db := (visited s).commit (visited s).pendingOperations.keys }

/-- The file is renamed while its event is in the cache. -/
def lost : State := indexed (cacheTimeout (renamed (modified start)))

/-- The file is renamed after it has been indexed. -/
def found : State := renamed (indexed (cacheTimeout (modified start)))

theorem starts : start.Starts := by
  refine ⟨rfl, rfl, rfl, fun path id hid hfile _ => ?_⟩
  change (if path = [47, 112] then some 5 else if path = [47, 112, 47, 100] then some 3 else none) = some id at hid
  split_ifs at hid with hdir hd
  · subst hdir
    exact absurd hfile.1 (by decide)
  · subst hd
    obtain rfl := Option.some.inj hid
    decide

theorem step_modified : Step asciiLibraries folderP false start (.modify d 20) (modified start) := by
  have hmodified : Modified d 20 start.disk (modified start).disk := by
    refine ⟨rfl, by decide, ⟨by decide, by decide⟩, fun other hother => ?_⟩
    by_cases hdir : other = [47, 112]
    · subst hdir
      exact .refl _
    · have hbefore := (@fileAt_elsewhere 100 (by decide) 9 other hdir hother).2
      have hafter := (@fileAt_elsewhere 100 (by decide) 20 other hdir hother).2
      change SameFile ((fileAt 100 (by decide) 9).stat other) ((fileAt 100 (by decide) 20).stat other)
      rw [hbefore, hafter]
      exact .refl _
  exact @Step.modify _ _ _ start d 20 3 _ (answers start.db) (latin1String "/p/d".toList) _ _ (by decide)
    ⟨by decide, by decide⟩ (by decide) (by decide +kernel) hmodified (by decide) rfl

theorem renamed_disk : Renamed d e (fileAt 100 (by decide) 20) (fileAt 101 (by decide) 20) := by
  have hbelow : ∀ (path rest : QByteArray), path.length = 4 →
      (∀ name hname, (fileAt name hname 20).lstat (path ++ slash :: rest) = none) ∧
        ∀ name hname, (fileAt name hname 20).stat (path ++ slash :: rest) = {} := by
    intro path rest hlength
    have hne : ∀ short : QByteArray, path ++ slash :: rest = short → 4 < short.length := by
      rintro short rfl
      rw [List.length_append, List.length_cons]
      omega
    have helsewhere := fun name hname => @fileAt_elsewhere name hname 20 (path ++ slash :: rest)
      (fun heq => absurd (hne _ heq) (by decide)) fun heq => absurd (hne _ heq) (Nat.lt_irrefl 4)
    exact ⟨fun name hname => (helsewhere name hname).1, fun name hname => (helsewhere name hname).2⟩
  refine ⟨fun rest hrest => ?_, fun path hd he => ?_, fun path hd he => ?_⟩
  · rcases hrest with rfl | hslash
    · exact ⟨rfl, .refl _⟩
    · obtain ⟨rest, rfl⟩ := List.head?_eq_some_iff.mp hslash
      rw [(hbelow d rest rfl).1, (hbelow e rest rfl).1, (hbelow d rest rfl).2, (hbelow e rest rfl).2]
      exact ⟨rfl, .refl _⟩
  · rcases hd with rfl | ⟨-, rest, rfl⟩
    · decide
    · exact (hbelow d rest rfl).1 101 _
  · by_cases hdir : path = [47, 112]
    · subst hdir
      exact ⟨rfl, .refl _⟩
    · obtain ⟨hlstat, hstat⟩ := @fileAt_elsewhere 100 (by decide) 20 path hdir fun heq => hd (.inl heq)
      obtain ⟨hlstat', hstat'⟩ := @fileAt_elsewhere 101 (by decide) 20 path hdir fun heq => he (.inl heq)
      rw [hlstat, hlstat', hstat, hstat']
      exact ⟨rfl, .refl _⟩

theorem step_renamed {s : State} (hdisk : s.disk = fileAt 100 (by decide) 20)
    (hfree : s.db.docUrlDb.documentId e = 0) : Step asciiLibraries folderP false s (.rename d e) (renamed s) := by
  have hd : chop d = d := by decide
  have he : chop e = e := by decide
  have hremove : WriteTransaction.removeMetadata 0 { dbis := s.db } e = some { dbis := s.db } := by
    rw [WriteTransaction.removeMetadata, if_pos hfree]
  have hindexed : folderP.shouldBeIndexed (fun _ => false) (latin1String "/p/e".toList) = true := by decide +kernel
  have hnames : MainHub.noAnswers.encodeName (latin1String "/p/d".toList) = d ∧
      MainHub.noAnswers.encodeName (latin1String "/p/e".toList) = e := by decide
  refine @Step.rename _ _ _ s d e _ (answers s.db) (latin1String "/p/d".toList) (latin1String "/p/e".toList) _ _ 0 _ _
    ?_ ?_ ?_ ?_ hnames.1 hnames.2 hindexed hremove ?_ ?_
  · rw [hd, hdisk]
    decide
  · rw [he, hdisk]
    decide
  · rw [hd, he]
    rintro (heq | ⟨-, rest, hrest⟩)
    · exact absurd heq (by decide)
    · exact absurd (congrArg List.length hrest) (by simp [d, e])
  · rw [hd, he, hdisk]
    exact renamed_disk
  · exact fun path => decide_eq_true_iff
  · rw [FileWatch.slotFileMoved]
    exact if_pos hindexed

theorem step_cacheTimeout {s : State} (hactive : s.queue.cacheTimer.active = true) :
    Step asciiLibraries folderP false s .timeout (cacheTimeout s) :=
  .processCache 0 hactive rfl

theorem step_indexed (s : State) : Step asciiLibraries folderP false s .index (indexed s) :=
  .index (visited s).pendingOperations.keys

end MovedFile

open MovedFile in
theorem modifications_found_modified : found.PickedUp := by
  refine @modifications_found asciiLibraries folderP false start found starts (.tail (.tail (.tail (.single
    ⟨.modify d 20, step_modified, by decide, by decide, ?_⟩)
    ⟨.timeout, step_cacheTimeout rfl, trivial⟩) ⟨.index, step_indexed _, trivial⟩)
    ⟨.rename d e, step_renamed rfl ?_, ?_⟩) (by decide +kernel) (by decide +kernel) (by decide +kernel)
  · exact fun hnone => absurd hnone (by decide)
  · decide +kernel
  · exact fun path hpath => absurd hpath (not_waits (by decide +kernel) (by decide +kernel) (by decide +kernel) path)

open MovedFile in
/-- A modification of a file that is renamed while its event is in the cache is not picked up. -/
theorem modification_lost : ¬ ∀ s s' : State, s.Starts →
    Relation.ReflTransGen (fun s s' => ∃ change, Step asciiLibraries folderP false s change s') s s' →
    s'.queue.cache = [] → s'.queue.pendingFiles.keys = [] → s'.scheduler.modifiedFiles = [] → s'.PickedUp := by
  intro h
  have hfree : (modified start).db.docUrlDb.documentId e = 0 := by decide +kernel
  have hshown := h start lost starts (.tail (.tail (.tail (.single ⟨_, step_modified⟩) ⟨_, step_renamed rfl hfree⟩)
    ⟨_, step_cacheTimeout rfl⟩) ⟨_, step_indexed _⟩) (by decide +kernel) (by decide +kernel) (by decide +kernel)
    e 3 (by decide) ⟨by decide, by decide⟩ (by decide +kernel)
  exact absurd hshown (by decide +kernel)

end Baloo.PendingRenames

