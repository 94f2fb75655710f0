import Baloo.Lib.Since
import Baloo.PendingFileQueue
import Mathlib.Logic.Relation

/-!
# The queue of pending files loses nothing

Events arrive, timers fire, and the queue emits signals. Indexing of a path is **owed** when an
event asked for it and since then no signal has indexed the path and no removal has made it
pointless. A path that is owed waits in the cache or in the table of pending files; and a table that
is not empty has its timer running, so nothing waits for ever.
-/

namespace Baloo

/-! ## What is owed -/

/-- The event asks for its path to be indexed. -/
def PendingFile.requiresIndexing (file : PendingFile) : Bool :=
  file.shouldIndexContents || file.shouldIndexXAttrOnly

/-- The event has an attribute. -/
def PendingFile.hasAttribute (file : PendingFile) : Bool :=
  file.attributesChanged || file.closedOnWrite || file.created || file.deleted || file.modified

/-- The event says that the path is gone, or a directory above it. -/
def PendingFile.removes (file : PendingFile) (path : QByteArray) : Bool :=
  file.shouldRemoveIndex &&
    (file.path = path || PendingFileQueue.isDirectory file.path && file.path.isPrefixOf path)

/-- The path a signal asks to index. -/
def Signal.indexes : Signal → Option QByteArray
  | .indexNewFile path | .indexModifiedFile path | .indexXAttr path => some path
  | .removeFileIndex _ => none

/-- What an observer of the queue sees. -/
inductive Event where
  /-- an event was put into the queue -/
  | enqueued (file : PendingFile)
  /-- the queue emitted a signal -/
  | emitted (signal : Signal)
  deriving DecidableEq

/-- The event makes indexing of `path` owed. -/
def Event.raises (path : QByteArray) : Event → Prop
  | .enqueued file =>
    file.path = path ∧ file.requiresIndexing = true ∧ file.shouldRemoveIndex = false
  | .emitted _ => False

/-- After the event, indexing of `path` is not owed any more. -/
def Event.clears (path : QByteArray) : Event → Prop
  | .enqueued file => file.removes path = true
  | .emitted signal => signal.indexes = some path

/-- Indexing of `path` is owed after the events seen so far. -/
def Owed (trace : List Event) (path : QByteArray) : Prop :=
  Since.Stands (Event.raises path) (Event.clears path) trace

theorem not_owed_nil {path : QByteArray} : ¬ Owed [] path := Since.not_stands_nil

theorem owed_emitted {trace : List Event} {signals : List Signal} {path : QByteArray} :
    Owed (trace ++ signals.map .emitted) path ↔
      Owed trace path ∧ ∀ signal ∈ signals, signal.indexes ≠ some path := by
  rw [Owed, Since.stands_append (by simp [Event.raises])]
  simp [Owed, Event.clears]

theorem owed_enqueued {trace : List Event} {file : PendingFile} {signals : List Signal}
    {path : QByteArray} (h : Owed (trace ++ .enqueued file :: signals.map .emitted) path) :
    Event.raises path (.enqueued file) ∨ Owed trace path ∧ file.removes path = false := by
  rw [List.append_cons, owed_emitted, Owed, Since.stands_snoc] at h
  exact h.1.imp_right fun hold => ⟨hold.1, Bool.eq_false_iff.mpr hold.2⟩

/-- The path waits in the cache or among the pending files. -/
def PendingFileQueue.Queued (q : PendingFileQueue) (path : QByteArray) : Prop :=
  (∃ file ∈ q.cache, file.path = path) ∨ q.pendingFiles.contains path = true

/-! ## Runs -/

/-- A queue as it is made, with its three timeouts set. -/
def PendingFileQueue.initial (minTimeout maxTimeout trackingTime : ℤ) : PendingFileQueue :=
  { minTimeout, maxTimeout, trackingTime }

/-- `QTimer::timeout` of a single-shot timer: it is not running any more. -/
def QTimer.fire (timer : QTimer) : QTimer := { timer with active := false }

/-- The steps of a queue, with what they add to the trace. -/
inductive QueueStep : PendingFileQueue × List Event → PendingFileQueue × List Event → Prop
  /-- an event arrives -/
  | enqueue {q q' : PendingFileQueue} {trace : List Event} {signals : List Signal}
    (file : PendingFile) (kept : List PendingFile) :
    file.hasAttribute = true → kept.Perm (q.cache.filter (PendingFileQueue.keepFile file.path)) →
    q.enqueue file kept = (q', signals) →
    QueueStep (q, trace) (q', trace ++ .enqueued file :: signals.map .emitted)
  /-- the cache timer fires -/
  | processCache {q q' : PendingFileQueue} {trace : List Event} {signals : List Signal}
    (currentTime : QTime) :
    q.cacheTimer.active = true →
    { q with cacheTimer := q.cacheTimer.fire }.processCache currentTime = (q', signals) →
    QueueStep (q, trace) (q', trace ++ signals.map .emitted)
  /-- the timer for pending files fires -/
  | processPendingFiles {q q' : PendingFileQueue} {trace : List Event} {signals : List Signal}
    (currentTime : QTime) (order : List (QByteArray × QTime)) :
    q.pendingFilesTimer.active = true → order.Perm q.pendingFiles.toList →
    { q with pendingFilesTimer := q.pendingFilesTimer.fire }.processPendingFiles currentTime order =
      (q', signals) →
    QueueStep (q, trace) (q', trace ++ signals.map .emitted)
  /-- the timer for recently signalled paths fires -/
  | clearRecentlyEmitted {q : PendingFileQueue} {trace : List Event} (time : QTime)
    (order : List (QByteArray × QTime)) :
    q.clearRecentlyEmittedTimer.active = true → order.Perm q.recentlyEmitted.toList →
    QueueStep (q, trace)
      ({ q with clearRecentlyEmittedTimer := q.clearRecentlyEmittedTimer.fire }.clearRecentlyEmitted
        time order, trace)

/-- What holds of a queue between two steps. -/
structure QueueInvariant (q : PendingFileQueue) (trace : List Event) : Prop where
  /-- what is owed waits -/
  owed : ∀ path, Owed trace path → q.Queued path
  /-- only events that ask for something are cached -/
  requires : ∀ file ∈ q.cache, file.requiresIndexing = true
  /-- the cache will be emptied -/
  cacheTimer : q.cache ≠ [] → q.cacheTimer.active = true
  /-- the pending files will be looked at -/
  pendingFilesTimer : (∃ path, q.pendingFiles.contains path = true) →
    q.pendingFilesTimer.active = true
  /-- the recently signalled paths will be looked at -/
  clearRecentlyEmittedTimer : (∃ path, q.recentlyEmitted.contains path = true) →
    q.clearRecentlyEmittedTimer.active = true

theorem QueueInvariant.initial (minTimeout maxTimeout trackingTime : ℤ) :
    QueueInvariant (.initial minTimeout maxTimeout trackingTime) [] where
  owed _ h := absurd h not_owed_nil
  requires _ h := absurd h List.not_mem_nil
  cacheTimer h := absurd rfl h
  pendingFilesTimer := fun ⟨_, h⟩ => absurd h (by simp [PendingFileQueue.initial])
  clearRecentlyEmittedTimer := fun ⟨_, h⟩ => absurd h (by simp [PendingFileQueue.initial])

/-! ## Timers -/

namespace PendingFileQueue

@[simp] theorem startPendingFilesTimer_cache (q : PendingFileQueue) :
    q.startPendingFilesTimer.cache = q.cache := by
  rw [startPendingFilesTimer]; split <;> rfl

@[simp] theorem startPendingFilesTimer_pendingFiles (q : PendingFileQueue) :
    q.startPendingFilesTimer.pendingFiles = q.pendingFiles := by
  rw [startPendingFilesTimer]; split <;> rfl

@[simp] theorem startPendingFilesTimer_recentlyEmitted (q : PendingFileQueue) :
    q.startPendingFilesTimer.recentlyEmitted = q.recentlyEmitted := by
  rw [startPendingFilesTimer]; split <;> rfl

/-- Pending files have their timer running. -/
theorem startPendingFilesTimer_active {q : PendingFileQueue}
    (h : ∃ path, q.startPendingFilesTimer.pendingFiles.contains path = true) :
    q.startPendingFilesTimer.pendingFilesTimer.active = true := by
  rw [startPendingFilesTimer_pendingFiles, ← OrdMap.keys_ne_nil] at h
  rw [startPendingFilesTimer]
  split
  · rfl
  · next hnot => exact eq_true_of_ne_false fun hactive => hnot ⟨h, hactive⟩

@[simp] theorem startClearRecentlyEmittedTimer_cache (q : PendingFileQueue) :
    q.startClearRecentlyEmittedTimer.cache = q.cache := by
  rw [startClearRecentlyEmittedTimer]; split <;> rfl

@[simp] theorem startClearRecentlyEmittedTimer_cacheTimer (q : PendingFileQueue) :
    q.startClearRecentlyEmittedTimer.cacheTimer = q.cacheTimer := by
  rw [startClearRecentlyEmittedTimer]; split <;> rfl

@[simp] theorem startClearRecentlyEmittedTimer_pendingFiles (q : PendingFileQueue) :
    q.startClearRecentlyEmittedTimer.pendingFiles = q.pendingFiles := by
  rw [startClearRecentlyEmittedTimer]; split <;> rfl

@[simp] theorem startClearRecentlyEmittedTimer_pendingFilesTimer (q : PendingFileQueue) :
    q.startClearRecentlyEmittedTimer.pendingFilesTimer = q.pendingFilesTimer := by
  rw [startClearRecentlyEmittedTimer]; split <;> rfl

@[simp] theorem startClearRecentlyEmittedTimer_recentlyEmitted (q : PendingFileQueue) :
    q.startClearRecentlyEmittedTimer.recentlyEmitted = q.recentlyEmitted := by
  rw [startClearRecentlyEmittedTimer]; split <;> rfl

/-- Recently signalled paths have their timer running. -/
theorem startClearRecentlyEmittedTimer_active {q : PendingFileQueue}
    (h : ∃ path, q.startClearRecentlyEmittedTimer.recentlyEmitted.contains path = true) :
    q.startClearRecentlyEmittedTimer.clearRecentlyEmittedTimer.active = true := by
  rw [startClearRecentlyEmittedTimer_recentlyEmitted, ← OrdMap.keys_ne_nil] at h
  rw [startClearRecentlyEmittedTimer]
  split
  · rfl
  · next hnot => exact eq_true_of_ne_false fun hactive => hnot ⟨h, hactive⟩

end PendingFileQueue

/-! ## The loops -/

/-- In the middle of a loop: the path is pending, or has been signalled. -/
def Served (q : PendingFileQueue) (signals : List Signal) (path : QByteArray) : Prop :=
  q.pendingFiles.contains path = true ∨ ∃ signal ∈ signals, signal.indexes = some path

namespace PendingFileQueue

/-- A round of `processCache` serves its file. -/
theorem served_processFile {t : QTime} {s : PendingFileQueue × List Signal} {file : PendingFile}
    (h : file.requiresIndexing = true) :
    Served (processFile t s file).1 (processFile t s file).2 file.path := by
  rw [processFile]
  split
  · exact Or.inr ⟨_, List.mem_concat_self, rfl⟩
  · next hattr =>
    have hcontents : file.shouldIndexContents = true := by
      simpa [PendingFile.requiresIndexing, hattr] using h
    rw [if_pos hcontents]
    split
    · exact Or.inl (by simp)
    · split
      · exact Or.inl (by simp)
      · refine Or.inr ⟨_, List.mem_concat_self, ?_⟩
        split <;> rfl

/-- A round of `processCache` takes nothing back. -/
theorem processFile_served {t : QTime} {s : PendingFileQueue × List Signal} {file : PendingFile}
    {path : QByteArray} (h : Served s.1 s.2 path) :
    Served (processFile t s file).1 (processFile t s file).2 path := by
  have hput : ∀ time, (s.1.pendingFiles.contains path = true →
      (s.1.pendingFiles.put file.path time).contains path = true) := fun time hpath => by
    simp [hpath]
  have hsignal : ∀ signal, (∃ s' ∈ s.2, s'.indexes = some path) →
      ∃ s' ∈ s.2 ++ [signal], s'.indexes = some path := by
    rintro signal ⟨s', hs', hpath⟩
    exact ⟨s', List.mem_append_left _ hs', hpath⟩
  rw [processFile]
  split
  · exact h.imp_right (hsignal _)
  · split
    · split
      · exact h.imp_left (hput _)
      · split
        · exact h.imp_left (hput _)
        · exact h.imp_right (hsignal _)
    · exact h

theorem processFiles_served {t : QTime} {files : List PendingFile}
    {s : PendingFileQueue × List Signal} {path : QByteArray} (h : Served s.1 s.2 path) :
    Served (files.foldl (processFile t) s).1 (files.foldl (processFile t) s).2 path := by
  induction files generalizing s with
  | nil => exact h
  | cons file files ih => exact ih (processFile_served h)

/-- The loop of `processCache` serves every file of the cache. -/
theorem served_processFiles {t : QTime} {files : List PendingFile}
    (hrequires : ∀ file ∈ files, file.requiresIndexing = true) {s : PendingFileQueue × List Signal}
    {file : PendingFile} (h : file ∈ files) :
    Served (files.foldl (processFile t) s).1 (files.foldl (processFile t) s).2 file.path := by
  induction files generalizing s with
  | nil => cases h
  | cons first files ih =>
    rcases List.mem_cons.mp h with rfl | h
    · rw [List.foldl_cons]
      exact processFiles_served (served_processFile (hrequires file (List.mem_cons_self ..)))
    · exact ih (fun file hfile => hrequires file (List.mem_cons_of_mem _ hfile)) h

/-- A round of `processPendingFiles` signals what it takes out. -/
theorem processPendingFile_served {t : QTime} {s : PendingFileQueue × ℤ × List Signal}
    {it : QByteArray × QTime} {path : QByteArray} (h : Served s.1 s.2.2 path) :
    Served (processPendingFile t s it).1 (processPendingFile t s it).2.2 path := by
  simp only [processPendingFile]
  split
  · rcases h with hpending | ⟨signal, hsignal, hpath⟩
    · rcases eq_or_ne path it.1 with rfl | hne
      · exact Or.inr ⟨_, List.mem_concat_self, rfl⟩
      · exact Or.inl (by simp [hne, hpending])
    · exact Or.inr ⟨signal, List.mem_append_left _ hsignal, hpath⟩
  · exact h

/-- The loop of `processPendingFiles` signals what it takes out, and leaves the cache alone. -/
theorem processPendingFiles_loop (t : QTime) (order : List (QByteArray × QTime))
    (s : PendingFileQueue × ℤ × List Signal) :
    (∀ path, Served s.1 s.2.2 path → Served (order.foldl (processPendingFile t) s).1
      (order.foldl (processPendingFile t) s).2.2 path) ∧
    (order.foldl (processPendingFile t) s).1.cache = s.1.cache ∧
    (order.foldl (processPendingFile t) s).1.cacheTimer = s.1.cacheTimer := by
  induction order generalizing s with
  | nil => exact ⟨fun path h => h, rfl, rfl⟩
  | cons it order ih =>
    obtain ⟨hserved, hcache, htimer⟩ := ih (processPendingFile t s it)
    refine ⟨fun path h => hserved path (processPendingFile_served h), hcache.trans ?_,
      htimer.trans ?_⟩
    · rw [processPendingFile]; split <;> rfl
    · rw [processPendingFile]; split <;> rfl

/-! ## Adding to the cache -/

/-- An event that is not a removal and has an attribute asks for something. -/
theorem requiresIndexing_of {file : PendingFile} (hattribute : file.hasAttribute = true)
    (hremove : file.shouldRemoveIndex = false) : file.requiresIndexing = true := by
  revert hattribute hremove
  simp only [PendingFile.hasAttribute, PendingFile.shouldRemoveIndex,
    PendingFile.requiresIndexing, PendingFile.shouldIndexContents, PendingFile.shouldIndexXAttrOnly]
  grind

theorem requiresIndexing_merge {pending file : PendingFile}
    (h : pending.requiresIndexing = true) : (pending.merge file).requiresIndexing = true := by
  revert h
  simp only [PendingFile.requiresIndexing, PendingFile.shouldIndexContents,
    PendingFile.shouldIndexXAttrOnly, PendingFile.merge]
  grind

/-- What stood in the cache stands there still, perhaps merged with the new event. -/
theorem mem_addToCache {file : PendingFile} {cache : List PendingFile} {path : QByteArray}
    (h : path = file.path ∨ ∃ pending ∈ cache, pending.path = path) :
    ∃ pending ∈ addToCache file cache, pending.path = path := by
  induction cache with
  | nil =>
    rcases h with rfl | ⟨pending, hmem, -⟩
    · exact ⟨file, List.mem_singleton.mpr rfl, rfl⟩
    · cases hmem
  | cons first cache ih =>
    rw [addToCache]
    split
    · next hfirst =>
      rcases h with rfl | ⟨pending, hmem, hpath⟩
      · exact ⟨first.merge file, List.mem_cons_self .., hfirst⟩
      · rcases List.mem_cons.mp hmem with rfl | hmem
        · exact ⟨pending.merge file, List.mem_cons_self .., hpath⟩
        · exact ⟨pending, List.mem_cons_of_mem _ hmem, hpath⟩
    · rcases h with rfl | ⟨pending, hmem, hpath⟩
      · obtain ⟨pending, hmem, hpath⟩ := ih (Or.inl rfl)
        exact ⟨pending, List.mem_cons_of_mem _ hmem, hpath⟩
      · rcases List.mem_cons.mp hmem with rfl | hmem
        · exact ⟨pending, List.mem_cons_self .., hpath⟩
        · obtain ⟨pending, hmem, hpath⟩ := ih (Or.inr ⟨pending, hmem, hpath⟩)
          exact ⟨pending, List.mem_cons_of_mem _ hmem, hpath⟩

theorem requires_addToCache {file : PendingFile} {cache : List PendingFile}
    (hfile : file.requiresIndexing = true)
    (hcache : ∀ pending ∈ cache, pending.requiresIndexing = true) :
    ∀ pending ∈ addToCache file cache, pending.requiresIndexing = true := by
  induction cache with
  | nil => exact fun pending hmem => List.mem_singleton.mp hmem ▸ hfile
  | cons first cache ih =>
    have hrest : ∀ pending ∈ cache, pending.requiresIndexing = true := fun pending hmem =>
      hcache pending (List.mem_cons_of_mem _ hmem)
    have hfirst := hcache first (List.mem_cons_self ..)
    intro pending hmem
    rw [addToCache] at hmem
    split at hmem
    · rcases List.mem_cons.mp hmem with rfl | hmem
      · exact requiresIndexing_merge hfirst
      · exact hrest pending hmem
    · rcases List.mem_cons.mp hmem with rfl | hmem
      · exact hfirst
      · exact ih hrest pending hmem

/-! ## Removals -/

/-- Entries may have gone; nothing was added, and no timer was touched. -/
structure Shrinks (q q' : PendingFileQueue) : Prop where
  /-- the cache -/
  cache : q'.cache ⊆ q.cache
  /-- its timer -/
  cacheTimer : q'.cacheTimer = q.cacheTimer
  /-- the pending files -/
  pendingFiles : ∀ path, q'.pendingFiles.contains path = true → q.pendingFiles.contains path = true
  /-- their timer -/
  pendingFilesTimer : q'.pendingFilesTimer = q.pendingFilesTimer
  /-- the recently signalled paths -/
  recentlyEmitted : ∀ path, q'.recentlyEmitted.contains path = true →
    q.recentlyEmitted.contains path = true
  /-- their timer -/
  clearRecentlyEmittedTimer : q'.clearRecentlyEmittedTimer = q.clearRecentlyEmittedTimer

theorem Shrinks.trans {q q' q'' : PendingFileQueue} (h : Shrinks q q') (h' : Shrinks q' q'') :
    Shrinks q q'' :=
  ⟨fun _ hf => h.cache (h'.cache hf), h'.cacheTimer.trans h.cacheTimer,
    fun path hpath => h.pendingFiles path (h'.pendingFiles path hpath),
    h'.pendingFilesTimer.trans h.pendingFilesTimer,
    fun path hpath => h.recentlyEmitted path (h'.recentlyEmitted path hpath),
    h'.clearRecentlyEmittedTimer.trans h.clearRecentlyEmittedTimer⟩

theorem shrinks_dropBelow {q : PendingFileQueue} {path : QByteArray} {kept : List PendingFile}
    (hkept : kept.Perm (q.cache.filter (keepFile path))) : Shrinks q (q.dropBelow path kept) :=
  ⟨fun _ hf => (List.mem_filter.mp (hkept.subset hf)).1, rfl,
    fun _ hpath => (OrdMap.contains_foldl_del.mp hpath).2, rfl,
    fun _ hpath => (OrdMap.contains_foldl_del.mp hpath).2, rfl⟩

/-- A path that is not below the directory keeps its place. -/
theorem Queued.dropBelow {q : PendingFileQueue} {dir path : QByteArray} {kept : List PendingFile}
    (hkept : kept.Perm (q.cache.filter (keepFile dir))) (h : q.Queued path)
    (hbelow : dir.isPrefixOf path = false) : (q.dropBelow dir kept).Queued path := by
  rcases h with ⟨pending, hmem, rfl⟩ | hpending
  · exact Or.inl ⟨pending, hkept.symm.subset (List.mem_filter.mpr ⟨hmem, by simp [keepFile, hbelow]⟩),
      rfl⟩
  · refine Or.inr (OrdMap.contains_foldl_del.mpr ⟨fun hdropped => ?_, hpending⟩)
    obtain ⟨pending, hfilter, rfl⟩ := List.mem_map.mp hdropped
    exact absurd (List.mem_filter.mp hfilter).2 (by simp [hbelow])

/-- The queue without the entries for the file itself. -/
def dropFile (q : PendingFileQueue) (file : PendingFile) : PendingFileQueue :=
  { q with cache := removeOne q.cache file, pendingFiles := q.pendingFiles.del file.path }

theorem shrinks_dropFile {q : PendingFileQueue} {file : PendingFile} :
    Shrinks q (q.dropFile file) := by
  refine ⟨fun _ hf => List.mem_of_mem_eraseP hf, rfl, fun path hpath => ?_, rfl,
    fun _ hpath => hpath, rfl⟩
  rw [dropFile, OrdMap.contains_del, Bool.and_eq_true] at hpath
  exact hpath.2

theorem Queued.dropFile {q : PendingFileQueue} {file : PendingFile} {path : QByteArray}
    (h : q.Queued path) (hne : path ≠ file.path) : (q.dropFile file).Queued path := by
  rcases h with ⟨pending, hmem, rfl⟩ | hpending
  · exact Or.inl ⟨pending, (List.mem_eraseP_of_neg (by simpa using hne)).mpr hmem, rfl⟩
  · refine Or.inr ?_
    rw [PendingFileQueue.dropFile, OrdMap.contains_del, decide_eq_false hne, hpending]
    rfl

theorem enqueue_removal {q : PendingFileQueue} {file : PendingFile} (kept : List PendingFile)
    (hremove : file.shouldRemoveIndex = true) :
    (q.enqueue file kept).1 =
      (if isDirectory file.path = true then q.dropBelow file.path kept else q).dropFile file := by
  rw [enqueue]
  simp only [hremove, Bool.true_and, if_true]
  rfl

theorem shrinks_enqueue {q : PendingFileQueue} {file : PendingFile} {kept : List PendingFile}
    (hremove : file.shouldRemoveIndex = true)
    (hkept : kept.Perm (q.cache.filter (keepFile file.path))) :
    Shrinks q (q.enqueue file kept).1 := by
  rw [enqueue_removal kept hremove]
  split
  · exact (shrinks_dropBelow hkept).trans shrinks_dropFile
  · exact shrinks_dropFile

/-- A removal leaves what it does not cover. -/
theorem Queued.enqueue_removal {q : PendingFileQueue} {file : PendingFile} {kept : List PendingFile}
    {path : QByteArray} (h : q.Queued path) (hremove : file.shouldRemoveIndex = true)
    (hkept : kept.Perm (q.cache.filter (keepFile file.path)))
    (hpath : file.removes path = false) : (q.enqueue file kept).1.Queued path := by
  rw [PendingFile.removes, hremove, Bool.true_and, Bool.or_eq_false_iff, Bool.and_eq_false_imp,
    decide_eq_false_iff_not] at hpath
  obtain ⟨hne, hbelow⟩ := hpath
  rw [PendingFileQueue.enqueue_removal kept hremove]
  split
  · next hdir => exact (h.dropBelow hkept (hbelow hdir)).dropFile (Ne.symm hne)
  · exact h.dropFile (Ne.symm hne)

end PendingFileQueue

/-! ## The invariant along a run -/

/-- What only shrinks needs a look at what is owed and no more. -/
theorem QueueInvariant.shrink {q q' : PendingFileQueue} {trace trace' : List Event}
    (h : QueueInvariant q trace) (hshrinks : q.Shrinks q')
    (howed : ∀ path, Owed trace' path → q'.Queued path) : QueueInvariant q' trace' := by
  refine ⟨howed, fun f hf => h.requires f (hshrinks.cache hf), fun hne => ?_,
    fun ⟨path, hpath⟩ => ?_, fun ⟨path, hpath⟩ => ?_⟩
  · obtain ⟨f, hf⟩ := List.exists_mem_of_ne_nil _ hne
    exact hshrinks.cacheTimer ▸ h.cacheTimer (List.ne_nil_of_mem (hshrinks.cache hf))
  · exact hshrinks.pendingFilesTimer ▸
      h.pendingFilesTimer ⟨path, hshrinks.pendingFiles path hpath⟩
  · exact hshrinks.clearRecentlyEmittedTimer ▸
      h.clearRecentlyEmittedTimer ⟨path, hshrinks.recentlyEmitted path hpath⟩

namespace QueueInvariant

open PendingFileQueue

variable {q : PendingFileQueue} {trace : List Event}

theorem enqueue (h : QueueInvariant q trace) {file : PendingFile} {kept : List PendingFile}
    (hattribute : file.hasAttribute = true)
    (hkept : kept.Perm (q.cache.filter (keepFile file.path))) :
    QueueInvariant (q.enqueue file kept).1
      (trace ++ .enqueued file :: (q.enqueue file kept).2.map .emitted) := by
  rcases hremove : file.shouldRemoveIndex with _ | _
  · -- the event goes to the cache, and the timer is started
    have hrequires : file.requiresIndexing = true := requiresIndexing_of hattribute hremove
    have heq : q.enqueue file kept =
        ({ q with cache := addToCache file q.cache, cacheTimer := q.cacheTimer.start }, []) := by
      simp [PendingFileQueue.enqueue, hremove]
    rw [heq]
    refine ⟨fun path howed => ?_, requires_addToCache hrequires h.requires, fun _ => rfl,
      h.pendingFilesTimer, h.clearRecentlyEmittedTimer⟩
    rcases owed_enqueued howed with ⟨rfl, -, -⟩ | ⟨hold, -⟩
    · exact Or.inl (mem_addToCache (Or.inl rfl))
    · exact (h.owed path hold).imp_left fun hcached => mem_addToCache (Or.inr hcached)
  · refine h.shrink (shrinks_enqueue hremove hkept) fun path howed => ?_
    rcases owed_enqueued howed with ⟨-, -, hkeep⟩ | ⟨hold, hpath⟩
    · exact absurd (hkeep.symm.trans hremove) Bool.false_ne_true
    · exact (h.owed path hold).enqueue_removal hremove hkept hpath

/-- The cache timer has fired, and the cache is emptied. -/
theorem processCache (h : QueueInvariant q trace) (currentTime : QTime)
    {q' : PendingFileQueue} {signals : List Signal}
    (hprocess : { q with cacheTimer := q.cacheTimer.fire }.processCache currentTime =
      (q', signals)) :
    QueueInvariant q' (trace ++ signals.map .emitted) := by
  rw [PendingFileQueue.processCache] at hprocess
  obtain ⟨rfl, rfl⟩ := Prod.mk.inj hprocess
  refine ⟨fun path howed => Or.inr ?_, fun f hf => ?_, fun hne => ?_, fun hpending => ?_,
    startClearRecentlyEmittedTimer_active⟩
  · obtain ⟨hold, hsignals⟩ := owed_emitted.mp howed
    simp only [startClearRecentlyEmittedTimer_pendingFiles, startPendingFilesTimer_pendingFiles]
    have hnot : ¬ ∃ signal ∈ (q.cache.foldl (processFile currentTime)
        ({ q with cacheTimer := q.cacheTimer.fire }, [])).2, signal.indexes = some path := by
      rintro ⟨signal, hmem, hpath⟩
      exact hsignals signal hmem hpath
    refine Or.resolve_right (?_ : Served _ _ path) hnot
    rcases h.owed path hold with ⟨file, hmem, rfl⟩ | hpending
    · exact served_processFiles h.requires hmem
    · exact processFiles_served (Or.inl hpending)
  · simp at hf
  · simp at hne
  · simp only [startClearRecentlyEmittedTimer_pendingFiles] at hpending
    simp only [startClearRecentlyEmittedTimer_pendingFilesTimer]
    exact startPendingFilesTimer_active hpending

/-- The timer for pending files has fired, and those whose time has come are signalled. -/
theorem processPendingFiles (h : QueueInvariant q trace) (currentTime : QTime)
    (order : List (QByteArray × QTime)) {q' : PendingFileQueue} {signals : List Signal}
    (hprocess : { q with pendingFilesTimer := q.pendingFilesTimer.fire }.processPendingFiles
      currentTime order = (q', signals)) :
    QueueInvariant q' (trace ++ signals.map .emitted) := by
  obtain ⟨hserved, hcache, htimer⟩ := processPendingFiles_loop currentTime order
    ({ q with pendingFilesTimer := q.pendingFilesTimer.fire }, q.maxTimeout, [])
  rw [PendingFileQueue.processPendingFiles] at hprocess
  obtain ⟨rfl, rfl⟩ := Prod.mk.inj hprocess
  generalize order.foldl (processPendingFile currentTime) _ = s at *
  obtain ⟨q₁, nextUpdate, signals⟩ := s
  simp only at hserved hcache htimer ⊢
  have hfields : ∀ q₂ : PendingFileQueue, q₂.cache = q₁.cache → q₂.cacheTimer = q₁.cacheTimer →
      q₂.pendingFiles = q₁.pendingFiles →
      ((∃ path, q₂.pendingFiles.contains path = true) → q₂.pendingFilesTimer.active = true) →
      QueueInvariant q₂.startClearRecentlyEmittedTimer (trace ++ signals.map .emitted) := by
    intro q₂ hcache₂ htimer₂ hpending₂ hactive
    refine ⟨fun path howed => ?_, ?_, ?_, ?_, startClearRecentlyEmittedTimer_active⟩
    · obtain ⟨hold, hsignals⟩ := owed_emitted.mp howed
      rw [Queued, startClearRecentlyEmittedTimer_cache, hcache₂, hcache,
        startClearRecentlyEmittedTimer_pendingFiles, hpending₂]
      refine (h.owed path hold).imp_right fun hpending => ?_
      rcases hserved path (Or.inl hpending) with hleft | ⟨signal, hmem, hpath⟩
      · exact hleft
      · exact absurd hpath (hsignals signal hmem)
    · rw [startClearRecentlyEmittedTimer_cache, hcache₂, hcache]
      exact h.requires
    · rw [startClearRecentlyEmittedTimer_cache, startClearRecentlyEmittedTimer_cacheTimer,
        hcache₂, hcache, htimer₂, htimer]
      exact h.cacheTimer
    · rw [startClearRecentlyEmittedTimer_pendingFiles,
        startClearRecentlyEmittedTimer_pendingFilesTimer]
      exact hactive
  split
  · exact hfields _ rfl rfl rfl fun _ => rfl
  · next hempty =>
    exact hfields _ rfl rfl rfl fun hpending => absurd (OrdMap.keys_ne_nil.mpr hpending) hempty

/-- The timer for recently signalled paths has fired, and old entries are dropped. -/
theorem clearRecentlyEmitted (h : QueueInvariant q trace) (time : QTime)
    (order : List (QByteArray × QTime)) :
    QueueInvariant ({ q with
      clearRecentlyEmittedTimer := q.clearRecentlyEmittedTimer.fire }.clearRecentlyEmitted
        time order) trace := by
  simp only [PendingFileQueue.clearRecentlyEmitted]
  split
  · exact ⟨h.owed, h.requires, h.cacheTimer, h.pendingFilesTimer, fun _ => rfl⟩
  · next hempty =>
    exact ⟨h.owed, h.requires, h.cacheTimer, h.pendingFilesTimer, fun hrecent =>
      absurd (OrdMap.keys_ne_nil.mpr hrecent) hempty⟩

/-- **One step keeps the invariant.** -/
theorem step {q' : PendingFileQueue} {trace' : List Event} (h : QueueInvariant q trace)
    (hstep : QueueStep (q, trace) (q', trace')) : QueueInvariant q' trace' := by
  cases hstep with
  | enqueue file kept hattribute hkept henqueue =>
    have hq := h.enqueue hattribute hkept
    rw [henqueue] at hq
    exact hq
  | processCache currentTime _ hprocess => exact h.processCache currentTime hprocess
  | processPendingFiles currentTime order _ _ hprocess =>
    exact h.processPendingFiles currentTime order hprocess
  | clearRecentlyEmitted time order _ _ => exact h.clearRecentlyEmitted time order

theorem run {s s' : PendingFileQueue × List Event} (h : QueueInvariant s.1 s.2)
    (hrun : Relation.ReflTransGen QueueStep s s') : QueueInvariant s'.1 s'.2 := by
  induction hrun with
  | refl => exact h
  | tail _ hstep ih => exact ih.step hstep

end QueueInvariant

/-- **What is owed waits, and what waits will be looked at.** For every run of a new queue with any
timeouts: a path that is owed is in the cache or pending; and a table with entries has its timer
running. -/
theorem updates_kept {minTimeout maxTimeout trackingTime : ℤ} {q : PendingFileQueue}
    {trace : List Event}
    (hrun : Relation.ReflTransGen QueueStep (.initial minTimeout maxTimeout trackingTime, [])
      (q, trace)) :
    (∀ path, Owed trace path → q.Queued path) ∧
    (q.cache ≠ [] → q.cacheTimer.active = true) ∧
    (q.pendingFiles.keys ≠ [] → q.pendingFilesTimer.active = true) ∧
    (q.recentlyEmitted.keys ≠ [] → q.clearRecentlyEmittedTimer.active = true) := by
  have h : QueueInvariant q trace := (QueueInvariant.initial ..).run hrun
  rw [OrdMap.keys_ne_nil, OrdMap.keys_ne_nil]
  exact ⟨h.owed, h.cacheTimer, h.pendingFilesTimer, h.clearRecentlyEmittedTimer⟩

/-- A file is created, signalled, and modified two seconds later: it is owed again, and it is
pending, with the cache empty. -/
theorem updates_kept_again : ∃ (q : PendingFileQueue) (trace : List Event),
    Owed trace [slash, 97] ∧ q.Queued [slash, 97] ∧ q.cache = [] := by
  let created : PendingFile := { path := [slash, 97], created := true }
  let modified : PendingFile := { path := [slash, 97], modified := true }
  let q₁ := ((PendingFileQueue.initial 5000 60000 120000).enqueue created []).1
  let q₂ := ({ q₁ with cacheTimer := q₁.cacheTimer.fire }.processCache 10).1
  let q₃ := (q₂.enqueue modified []).1
  let q₄ := ({ q₃ with cacheTimer := q₃.cacheTimer.fire }.processCache 2010).1
  have hfirst : QueueStep (q₁, [.enqueued created])
      (q₂, [.enqueued created, .emitted (.indexNewFile [slash, 97])]) :=
    .processCache 10 rfl rfl
  have hsecond : QueueStep
      (q₃, [.enqueued created, .emitted (.indexNewFile [slash, 97]), .enqueued modified])
      (q₄, [.enqueued created, .emitted (.indexNewFile [slash, 97]), .enqueued modified]) :=
    .processCache 2010 rfl rfl
  have hrun : Relation.ReflTransGen QueueStep (.initial 5000 60000 120000, [])
      (q₄, [.enqueued created, .emitted (.indexNewFile [slash, 97]), .enqueued modified]) :=
    .tail (.tail (.tail (.tail .refl (.enqueue created [] rfl (by decide) rfl)) hfirst)
      (.enqueue modified [] rfl (by decide) rfl)) hsecond
  have howed : Owed [.enqueued created, .emitted (.indexNewFile [slash, 97]), .enqueued modified]
      [slash, 97] :=
    ⟨[.enqueued created, .emitted (.indexNewFile [slash, 97])], .enqueued modified, [], rfl,
      ⟨rfl, rfl, rfl⟩, fun _ h => absurd h List.not_mem_nil⟩
  exact ⟨_, _, howed, (updates_kept hrun).1 _ howed, rfl⟩

end Baloo
