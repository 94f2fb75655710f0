import Baloo.NoLostUpdate

/-!
# A directory is deleted while files wait

When a directory is deleted, the queue forgets the events for everything below it: those in the cache, and with
them the entries of their paths in the two other tables. A path that waits among the pending files, or that has
been signalled recently, but has no event in the cache, is not found this way, and keeps its entries.

So the deletion silences the paths below exactly if all of them that the queue remembers are cached
(`deletion_silences`); a file that was modified some seconds earlier is signalled although its directory is gone
(`deleted_file_signalled`).
-/

namespace Baloo

open Relation (ReflTransGen)

namespace PendingFileQueue

variable {q q' : PendingFileQueue} {path dir : QByteArray}

/-! ## Quiet paths -/

/-- The queue has no entry for the path. -/
structure Quiet (q : PendingFileQueue) (path : QByteArray) : Prop where
  /-- no event is cached -/
  cache : ∀ file ∈ q.cache, file.path ≠ path
  /-- it does not wait -/
  pendingFiles : q.pendingFiles.contains path = false
  /-- it has not been signalled recently -/
  recentlyEmitted : q.recentlyEmitted.contains path = false

/-- Removing entries brings none. -/
theorem Quiet.shrinks (h : q.Quiet path) (hshrinks : q.Shrinks q') : q'.Quiet path := by
  refine ⟨fun file hfile => h.cache file (hshrinks.cache hfile), ?_, ?_⟩
  · apply Bool.eq_false_iff.mpr
    intro hpending
    exact absurd (hshrinks.pendingFiles path hpending) (Bool.eq_false_iff.mp h.pendingFiles)
  · apply Bool.eq_false_iff.mpr
    intro hrecent
    exact absurd (hshrinks.recentlyEmitted path hrecent) (Bool.eq_false_iff.mp h.recentlyEmitted)

/-- The cache has events for the old paths and for the new one. -/
theorem path_addToCache {file pending : PendingFile} {cache : List PendingFile}
    (h : pending ∈ addToCache file cache) :
    pending.path = file.path ∨ ∃ cached ∈ cache, cached.path = pending.path := by
  induction cache with
  | nil => exact .inl (congrArg PendingFile.path (List.mem_singleton.mp h))
  | cons first cache ih =>
    rw [addToCache] at h
    split at h
    · rcases List.mem_cons.mp h with rfl | hmem
      · exact .inr ⟨first, List.mem_cons_self, rfl⟩
      · exact .inr ⟨pending, List.mem_cons_of_mem _ hmem, rfl⟩
    · rcases List.mem_cons.mp h with rfl | hmem
      · exact .inr ⟨pending, List.mem_cons_self, rfl⟩
      · apply (ih hmem).imp_right
        rintro ⟨cached, hcached, hpath⟩
        exact ⟨cached, List.mem_cons_of_mem _ hcached, hpath⟩

/-- An event for another path leaves the path quiet. -/
theorem Quiet.enqueue {file : PendingFile} {kept : List PendingFile}
    (hkept : kept.Perm (q.cache.filter (keepFile file.path))) (h : q.Quiet path) (hne : file.path ≠ path) :
    (q.enqueue file kept).1.Quiet path ∧ ∀ signal ∈ (q.enqueue file kept).2, signal.indexes = none := by
  rcases hremove : file.shouldRemoveIndex with _ | _
  · have heq : q.enqueue file kept =
        ({ q with cache := addToCache file q.cache, cacheTimer := q.cacheTimer.start }, []) := by
      simp [PendingFileQueue.enqueue, hremove]
    rw [heq]
    refine ⟨⟨fun pending hpending hpath => ?_, h.pendingFiles, h.recentlyEmitted⟩,
      fun signal hsignal => absurd hsignal List.not_mem_nil⟩
    rcases path_addToCache hpending with hfile | ⟨cached, hcached, hcachedPath⟩
    · exact hne (hfile.symm.trans hpath)
    · exact h.cache cached hcached (hcachedPath.trans hpath)
  · refine ⟨h.shrinks (shrinks_enqueue hremove hkept), fun signal hsignal => ?_⟩
    simp only [PendingFileQueue.enqueue, hremove, if_true, List.mem_singleton] at hsignal
    rw [hsignal]
    rfl

/-! ## The loops -/

/-- In the middle of a loop: the path has not been signalled, and is in neither table. -/
structure Silent (path : QByteArray) (q : PendingFileQueue) (signals : List Signal) : Prop where
  /-- it does not wait -/
  pendingFiles : q.pendingFiles.contains path = false
  /-- it has not been signalled recently -/
  recentlyEmitted : q.recentlyEmitted.contains path = false
  /-- nor in the loop -/
  signals : ∀ signal ∈ signals, signal.indexes ≠ some path

theorem Silent.put {signals : List Signal} {other : QByteArray} (h : Silent path q signals) (hne : other ≠ path)
    (time : QTime) : Silent path { q with pendingFiles := q.pendingFiles.put other time } signals := by
  refine ⟨?_, h.recentlyEmitted, h.signals⟩
  rw [OrdMap.contains_put, decide_eq_false hne.symm, h.pendingFiles]
  rfl

theorem Silent.signal {signals : List Signal} {signal : Signal} (h : Silent path q signals)
    (hsignal : signal.indexes ≠ some path) : Silent path q (signals ++ [signal]) := by
  refine ⟨h.pendingFiles, h.recentlyEmitted, fun s hs => ?_⟩
  rcases List.mem_append.mp hs with hs | hs
  · exact h.signals s hs
  · rw [List.mem_singleton.mp hs]
    exact hsignal

theorem Silent.emitted {signals : List Signal} {other : QByteArray} (h : Silent path q signals)
    (hne : other ≠ path) (time : QTime) :
    Silent path { q with recentlyEmitted := q.recentlyEmitted.put other time } signals := by
  refine ⟨h.pendingFiles, ?_, h.signals⟩
  rw [OrdMap.contains_put, decide_eq_false hne.symm, h.recentlyEmitted]
  rfl

/-- A round of `processCache` for another path. -/
theorem Silent.processFile {t : QTime} {s : PendingFileQueue × List Signal} {file : PendingFile}
    (h : Silent path s.1 s.2) (hne : file.path ≠ path) :
    Silent path (processFile t s file).1 (processFile t s file).2 := by
  have hindexes : some file.path ≠ some path := fun heq => hne (Option.some.inj heq)
  rw [PendingFileQueue.processFile]
  split
  · exact h.signal hindexes
  · split
    · split
      · exact h.put hne _
      · split
        · exact h.put hne _
        · apply (h.emitted hne t).signal
          split <;> exact hindexes
    · exact h

theorem Silent.processFiles {t : QTime} {files : List PendingFile} {s : PendingFileQueue × List Signal}
    (h : Silent path s.1 s.2) (hne : ∀ file ∈ files, file.path ≠ path) :
    Silent path (files.foldl (PendingFileQueue.processFile t) s).1
      (files.foldl (PendingFileQueue.processFile t) s).2 := by
  induction files generalizing s with
  | nil => exact h
  | cons file files ih =>
    exact ih (h.processFile (hne file List.mem_cons_self)) fun f hf => hne f (List.mem_cons_of_mem _ hf)

/-- A round of `processPendingFiles` for another path. -/
theorem Silent.processPendingFile {t : QTime} {s : PendingFileQueue × ℤ × List Signal} {it : QByteArray × QTime}
    (h : Silent path s.1 s.2.2) (hne : it.1 ≠ path) :
    Silent path (processPendingFile t s it).1 (processPendingFile t s it).2.2 := by
  simp only [PendingFileQueue.processPendingFile]
  split
  · apply Silent.signal
    · refine ⟨?_, (h.emitted hne t).recentlyEmitted, h.signals⟩
      rw [OrdMap.contains_del, h.pendingFiles, Bool.and_false]
    · exact fun heq => hne (Option.some.inj heq)
  · exact h

theorem Silent.processPendingFiles {t : QTime} {order : List (QByteArray × QTime)}
    {s : PendingFileQueue × ℤ × List Signal} (h : Silent path s.1 s.2.2) (hne : ∀ it ∈ order, it.1 ≠ path) :
    Silent path (order.foldl (PendingFileQueue.processPendingFile t) s).1
      (order.foldl (PendingFileQueue.processPendingFile t) s).2.2 := by
  induction order generalizing s with
  | nil => exact h
  | cons it order ih =>
    exact ih (h.processPendingFile (hne it List.mem_cons_self)) fun i hi => hne i (List.mem_cons_of_mem _ hi)

/-- A pending file whose time has come is signalled. -/
theorem signalled_of_due {t time : QTime} {order : List (QByteArray × QTime)} (h : (path, time) ∈ order)
    (hdue : t.msecsTo time ≤ 0) (s : PendingFileQueue × ℤ × List Signal) :
    .indexModifiedFile path ∈ (order.foldl (processPendingFile t) s).2.2 := by
  have hkeep : ∀ (order : List (QByteArray × QTime)) (s : PendingFileQueue × ℤ × List Signal),
      .indexModifiedFile path ∈ s.2.2 → .indexModifiedFile path ∈ (order.foldl (processPendingFile t) s).2.2 := by
    intro order
    induction order with
    | nil => exact fun s hs => hs
    | cons it order ih =>
      intro s hs
      apply ih
      rw [processPendingFile]
      split
      · exact List.mem_append_left _ hs
      · exact hs
  induction order generalizing s with
  | nil => cases h
  | cons it order ih =>
    rw [List.foldl_cons]
    rcases List.mem_cons.mp h with rfl | hmem
    · apply hkeep
      have hround : (processPendingFile t s (path, time)).2.2 = s.2.2 ++ [.indexModifiedFile path] := by
        simp only [processPendingFile, if_pos hdue]
      rw [hround]
      exact List.mem_concat_self
    · exact ih hmem _

/-! ## Steps and runs -/

/-- The timer for the cache has fired. -/
theorem Quiet.processCache (h : q.Quiet path) {t : QTime} {signals : List Signal}
    (hprocess : { q with cacheTimer := q.cacheTimer.fire }.processCache t = (q', signals)) :
    q'.Quiet path ∧ ∀ signal ∈ signals, signal.indexes ≠ some path := by
  have hsilent : Silent path { q with cacheTimer := q.cacheTimer.fire } [] :=
    ⟨h.pendingFiles, h.recentlyEmitted, fun _ hs => absurd hs List.not_mem_nil⟩
  have hloop := Silent.processFiles (t := t) (s := (_, [])) hsilent h.cache
  rw [PendingFileQueue.processCache] at hprocess
  obtain ⟨rfl, rfl⟩ := Prod.mk.inj hprocess
  refine ⟨⟨?_, ?_, ?_⟩, hloop.signals⟩
  · simp
  · simpa using hloop.pendingFiles
  · simpa using hloop.recentlyEmitted

/-- The timer for pending files has fired. -/
theorem Quiet.processPendingFiles (h : q.Quiet path) {t : QTime} {order : List (QByteArray × QTime)}
    (horder : order.Perm q.pendingFiles.toList) {signals : List Signal}
    (hprocess : { q with pendingFilesTimer := q.pendingFilesTimer.fire }.processPendingFiles t order =
      (q', signals)) : q'.Quiet path ∧ ∀ signal ∈ signals, signal.indexes ≠ some path := by
  have hsilent : Silent path { q with pendingFilesTimer := q.pendingFilesTimer.fire } [] :=
    ⟨h.pendingFiles, h.recentlyEmitted, fun _ hs => absurd hs List.not_mem_nil⟩
  have hne : ∀ it ∈ order, it.1 ≠ path := by
    rintro ⟨other, time⟩ hit rfl
    have hcontains := OrdMap.contains_iff.mpr ⟨time, OrdMap.mem_toList.mp (horder.subset hit)⟩
    exact absurd hcontains (Bool.eq_false_iff.mp h.pendingFiles)
  have hloop := Silent.processPendingFiles (t := t) (s := (_, q.maxTimeout, [])) hsilent hne
  obtain ⟨-, hcache, -⟩ := processPendingFiles_loop t order
    ({ q with pendingFilesTimer := q.pendingFilesTimer.fire }, q.maxTimeout, [])
  rw [PendingFileQueue.processPendingFiles] at hprocess
  obtain ⟨rfl, rfl⟩ := Prod.mk.inj hprocess
  generalize order.foldl (PendingFileQueue.processPendingFile t) _ = s at *
  have hquiet : s.1.Quiet path := ⟨hcache ▸ h.cache, hloop.pendingFiles, hloop.recentlyEmitted⟩
  refine ⟨⟨?_, ?_, ?_⟩, hloop.signals⟩
  · rw [startClearRecentlyEmittedTimer_cache]
    split <;> exact hquiet.cache
  · rw [startClearRecentlyEmittedTimer_pendingFiles]
    split <;> exact hquiet.pendingFiles
  · rw [startClearRecentlyEmittedTimer_recentlyEmitted]
    split <;> exact hquiet.recentlyEmitted

/-- The timer for recently signalled paths has fired. -/
theorem Quiet.clearRecentlyEmitted (h : q.Quiet path) (time : QTime) (order : List (QByteArray × QTime)) :
    (q.clearRecentlyEmitted time order).Quiet path := by
  have hloop : ∀ (order : List (QByteArray × QTime)) (s : OrdMap QByteArray QTime × ℤ),
      s.1.contains path = false → (order.foldl (fun (s : OrdMap QByteArray QTime × ℤ) it =>
        if q.trackingTime ≤ QTime.msecsTo it.2 time then (s.1.del it.1, s.2)
        else (s.1, min s.2 (q.trackingTime - QTime.msecsTo it.2 time))) s).1.contains path = false := by
    intro order
    induction order with
    | nil => exact fun s hs => hs
    | cons it order ih =>
      intro s hs
      apply ih
      dsimp only
      split
      · rw [OrdMap.contains_del, hs, Bool.and_false]
      · exact hs
  have hrecent := hloop order (q.recentlyEmitted, q.trackingTime) h.recentlyEmitted
  simp only [PendingFileQueue.clearRecentlyEmitted]
  split
  · exact ⟨h.cache, h.pendingFiles, hrecent⟩
  · exact ⟨h.cache, h.pendingFiles, hrecent⟩

/-- **One step keeps a path quiet**, unless an event for it arrives. -/
theorem quiet_step {trace trace' : List Event} (path : QByteArray)
    (hstep : QueueStep (q, trace) (q', trace')) :
    ∃ events, trace' = trace ++ events ∧ (q.Quiet path →
      (∀ file, .enqueued file ∈ events → file.path ≠ path) →
        q'.Quiet path ∧ ∀ signal, .emitted signal ∈ events → signal.indexes ≠ some path) := by
  have hemitted : ∀ {signals : List Signal}, (∀ signal ∈ signals, signal.indexes ≠ some path) →
      ∀ signal, .emitted signal ∈ signals.map Event.emitted → signal.indexes ≠ some path := by
    intro signals hsignals signal hmem
    obtain ⟨s, hs, heq⟩ := List.mem_map.mp hmem
    exact Event.emitted.inj heq ▸ hsignals s hs
  cases hstep with
  | enqueue file kept hattribute hkept henqueue =>
    refine ⟨_, rfl, fun h hnew => ?_⟩
    obtain ⟨hquiet, hsignals⟩ := h.enqueue hkept (hnew file List.mem_cons_self)
    rw [henqueue] at hquiet hsignals
    refine ⟨hquiet, fun signal hmem => ?_⟩
    rcases List.mem_cons.mp hmem with heq | hmem
    · cases heq
    · apply hemitted _ signal hmem
      intro s hs
      rw [hsignals s hs]
      exact (Option.some_ne_none path).symm
  | processCache t _ hprocess =>
    refine ⟨_, rfl, fun h _ => ?_⟩
    exact (h.processCache hprocess).imp_right hemitted
  | processPendingFiles t order _ horder hprocess =>
    refine ⟨_, rfl, fun h _ => ?_⟩
    exact (h.processPendingFiles horder hprocess).imp_right hemitted
  | clearRecentlyEmitted time order _ _ =>
    refine ⟨[], (List.append_nil _).symm, fun h _ => ⟨?_, fun signal hmem => absurd hmem List.not_mem_nil⟩⟩
    have hfired : Quiet { q with clearRecentlyEmittedTimer := q.clearRecentlyEmittedTimer.fire } path :=
      ⟨h.cache, h.pendingFiles, h.recentlyEmitted⟩
    exact hfired.clearRecentlyEmitted time order

/-- **A quiet path stays quiet** until an event for it arrives. -/
theorem Quiet.run {trace later : List Event} (h : q.Quiet path)
    (hrun : ReflTransGen QueueStep (q, trace) (q', trace ++ later))
    (hnew : ∀ file, .enqueued file ∈ later → file.path ≠ path) :
    q'.Quiet path ∧ ∀ signal, .emitted signal ∈ later → signal.indexes ≠ some path := by
  have hall : ∀ s, ReflTransGen QueueStep (q, trace) s → ∃ events, s.2 = trace ++ events ∧
      ((∀ file, .enqueued file ∈ events → file.path ≠ path) →
        s.1.Quiet path ∧ ∀ signal, .emitted signal ∈ events → signal.indexes ≠ some path) := by
    intro s hs
    induction hs with
    | refl => exact ⟨[], (List.append_nil _).symm, fun _ => ⟨h, fun _ hmem => absurd hmem List.not_mem_nil⟩⟩
    | tail _ hstep ih =>
      obtain ⟨events, heq, hquiet⟩ := ih
      obtain ⟨last, hlast, hstep⟩ := quiet_step path hstep
      refine ⟨events ++ last, by rw [hlast, heq, List.append_assoc], fun hnew => ?_⟩
      obtain ⟨hq, hsignals⟩ := hquiet fun file hfile => hnew file (List.mem_append_left _ hfile)
      obtain ⟨hq', hsignals'⟩ := hstep hq fun file hfile => hnew file (List.mem_append_right _ hfile)
      refine ⟨hq', fun signal hmem => ?_⟩
      rcases List.mem_append.mp hmem with hmem | hmem
      · exact hsignals signal hmem
      · exact hsignals' signal hmem
  obtain ⟨events, heq, hquiet⟩ := hall _ hrun
  rw [List.append_cancel_left heq] at hnew ⊢
  exact hquiet hnew

/-! ## The deletion of a directory -/

/-- Of the paths below the directory that the queue remembers, all have an event in the cache. -/
structure CachesBelow (q : PendingFileQueue) (dir : QByteArray) : Prop where
  /-- those that wait, the directory itself apart -/
  pendingFiles : ∀ path, dir.isPrefixOf path = true → path ≠ dir → q.pendingFiles.contains path = true →
    ∃ file ∈ q.cache, file.path = path
  /-- those that have been signalled recently -/
  recentlyEmitted : ∀ path, dir.isPrefixOf path = true → q.recentlyEmitted.contains path = true →
    ∃ file ∈ q.cache, file.path = path

section Deletion

variable {file : PendingFile} {kept : List PendingFile}

/-- The path is dropped from a table if it has an event in the cache. -/
theorem mem_dropped : path ∈ (q.cache.filter fun pending => dir.isPrefixOf pending.path).map PendingFile.path ↔
    dir.isPrefixOf path = true ∧ ∃ cached ∈ q.cache, cached.path = path := by
  rw [List.mem_map]
  constructor
  · rintro ⟨cached, hmem, rfl⟩
    obtain ⟨hcached, hbelow⟩ := List.mem_filter.mp hmem
    exact ⟨hbelow, cached, hcached, rfl⟩
  · rintro ⟨hbelow, cached, hcached, rfl⟩
    exact ⟨cached, List.mem_filter.mpr ⟨hcached, hbelow⟩, rfl⟩

/-- What the two tables hold after the deletion of a directory. -/
theorem contains_enqueue_deletion (kept : List PendingFile) (hremove : file.shouldRemoveIndex = true)
    (hdir : isDirectory file.path = true) (hbelow : file.path.isPrefixOf path = true) :
    ((q.enqueue file kept).1.pendingFiles.contains path = true ↔ path ≠ file.path ∧
      (¬ ∃ cached ∈ q.cache, cached.path = path) ∧ q.pendingFiles.contains path = true) ∧
    ((q.enqueue file kept).1.recentlyEmitted.contains path = true ↔
      (¬ ∃ cached ∈ q.cache, cached.path = path) ∧ q.recentlyEmitted.contains path = true) := by
  rw [enqueue_removal kept hremove, if_pos hdir]
  constructor
  · rw [dropFile, OrdMap.contains_del, Bool.and_eq_true, Bool.not_eq_true', decide_eq_false_iff_not, dropBelow,
      OrdMap.contains_foldl_del,
      mem_dropped]
    simp only [hbelow, true_and]
  · rw [dropFile, dropBelow, OrdMap.contains_foldl_del, mem_dropped]
    simp only [hbelow, true_and]

/-- Cached paths below the directory are quiet after its deletion. -/
theorem CachesBelow.quiet (h : q.CachesBelow file.path) (hremove : file.shouldRemoveIndex = true)
    (hdir : isDirectory file.path = true) (hkept : kept.Perm (q.cache.filter (keepFile file.path)))
    (hbelow : file.path.isPrefixOf path = true) : (q.enqueue file kept).1.Quiet path := by
  obtain ⟨hpending, hrecent⟩ := contains_enqueue_deletion (q := q) kept hremove hdir hbelow
  refine ⟨fun cached hcached hpath => ?_, Bool.eq_false_iff.mpr fun hcontains => ?_,
    Bool.eq_false_iff.mpr fun hcontains => ?_⟩
  · rw [enqueue_removal kept hremove, if_pos hdir] at hcached
    have hmem : cached ∈ kept := List.mem_of_mem_eraseP hcached
    have hkeep := (List.mem_filter.mp (hkept.subset hmem)).2
    rw [keepFile, hpath, hbelow] at hkeep
    cases hkeep
  · obtain ⟨hne, hnot, hold⟩ := hpending.mp hcontains
    exact hnot (h.pendingFiles path hbelow hne hold)
  · obtain ⟨hnot, hold⟩ := hrecent.mp hcontains
    exact hnot (h.recentlyEmitted path hbelow hold)

end Deletion

/-- After `trace` the paths below the directory are not signalled for indexing, and do not count as signalled
recently, until a new event for them arrives. -/
def Silences (q : PendingFileQueue) (trace : List Event) (dir : QByteArray) : Prop :=
  ∀ path q' later, dir.isPrefixOf path = true → ReflTransGen QueueStep (q, trace) (q', trace ++ later) →
    (∀ file, .enqueued file ∈ later → file.path ≠ path) →
      (∀ signal, .emitted signal ∈ later → signal.indexes ≠ some path) ∧ q'.recentlyEmitted.contains path = false

end PendingFileQueue

open PendingFileQueue

/-- **The deletion of a directory silences what is below**, in any run afterwards, if and only if the paths
below that wait or have been signalled recently all have an event in the cache. -/
theorem deletion_silences {minTimeout maxTimeout trackingTime : ℤ} {q q' : PendingFileQueue} {trace : List Event}
    (hrun : ReflTransGen QueueStep (.initial minTimeout maxTimeout trackingTime, []) (q, trace))
    {file : PendingFile} {kept : List PendingFile} {signals : List Signal} (hremove : file.shouldRemoveIndex = true)
    (hdir : isDirectory file.path = true) (hkept : kept.Perm (q.cache.filter (keepFile file.path)))
    (henqueue : q.enqueue file kept = (q', signals)) :
    q'.Silences (trace ++ .enqueued file :: signals.map .emitted) file.path ↔ q.CachesBelow file.path := by
  have hq' : (q.enqueue file kept).1 = q' := congrArg Prod.fst henqueue
  constructor
  · intro h
    refine ⟨fun path hbelow hne hpending => ?_, fun path hbelow hrecent => ?_⟩
    · by_contra hnot
      obtain ⟨hcontains, -⟩ := contains_enqueue_deletion (q := q) kept hremove hdir hbelow
      rw [hq'] at hcontains
      obtain ⟨time, htime⟩ := OrdMap.contains_iff.mp (hcontains.mpr ⟨hne, hnot, hpending⟩)
      -- the timer is running, and by the time it is set for the path is signalled
      have hactive : q'.pendingFilesTimer.active = true := by
        have hinvariant : QueueInvariant q trace := (QueueInvariant.initial ..).run hrun
        rw [← hq', (shrinks_enqueue hremove hkept).pendingFilesTimer]
        exact hinvariant.pendingFilesTimer ⟨path, hpending⟩
      have hsignal := signalled_of_due (t := time) (OrdMap.mem_toList.mpr htime) (by simp [QTime.msecsTo])
        ({ q' with pendingFilesTimer := q'.pendingFilesTimer.fire }, q'.maxTimeout, [])
      have hstep : QueueStep (q', trace ++ .enqueued file :: signals.map .emitted) _ :=
        .processPendingFiles time q'.pendingFiles.toList hactive (.refl _) rfl
      have hsilent := (h path _ _ hbelow (.single hstep) fun file' hfile' => ?_).1
      · exact hsilent _ (List.mem_map.mpr ⟨_, hsignal, rfl⟩) rfl
      · obtain ⟨signal, -, heq⟩ := List.mem_map.mp hfile'
        cases heq
    · by_contra hnot
      obtain ⟨-, hcontains⟩ := contains_enqueue_deletion (q := q) kept hremove hdir hbelow
      rw [hq'] at hcontains
      have hsilent := h path q' [] hbelow (by rw [List.append_nil]) fun _ hmem => absurd hmem List.not_mem_nil
      exact absurd (hcontains.mpr ⟨hnot, hrecent⟩) (Bool.eq_false_iff.mp hsilent.2)
  · intro h path q'' later hbelow hlater hnew
    have hquiet : q'.Quiet path := hq' ▸ h.quiet hremove hdir hkept hbelow
    obtain ⟨hquiet', hsignals⟩ := hquiet.run hlater hnew
    exact ⟨hsignals, hquiet'.recentlyEmitted⟩

/-! ## A file that waits when its directory is deleted -/

/-- The file `/d/f` is created. -/
def createdF : PendingFile := { path := [slash, 100, slash, 102], created := true }

/-- It is modified. -/
def modifiedF : PendingFile := { path := [slash, 100, slash, 102], modified := true }

/-- The directory `/d/` is deleted. -/
def deletedD : PendingFile := { path := [slash, 100, slash], deleted := true }

/-- The queue after the file has been created. -/
def cachingF : PendingFileQueue := ((PendingFileQueue.initial 5000 60000 120000).enqueue createdF []).1

theorem reaches_cachingF : ReflTransGen QueueStep (.initial 5000 60000 120000, [])
    (cachingF, [.enqueued createdF]) := .single (.enqueue createdF [] rfl (by decide) rfl)

/-- The deletion finds the event in the cache. -/
theorem deletion_silences_cachingF : PendingFileQueue.Silences (cachingF.enqueue deletedD []).1
    [.enqueued createdF, .enqueued deletedD, .emitted (.removeFileIndex deletedD.path)] deletedD.path := by
  have hkept : ([] : List PendingFile).Perm (cachingF.cache.filter (keepFile deletedD.path)) := by decide
  apply (deletion_silences reaches_cachingF rfl (by decide) hkept rfl).mpr
  exact ⟨fun path _ _ hpending => absurd hpending (by simp [cachingF, PendingFileQueue.enqueue,
      PendingFileQueue.initial, PendingFile.shouldRemoveIndex, createdF]),
    fun path _ hrecent => absurd hrecent (by simp [cachingF, PendingFileQueue.enqueue, PendingFileQueue.initial,
      PendingFile.shouldRemoveIndex, createdF])⟩

/-- The queue after the file has been signalled. -/
def signalledF : PendingFileQueue := ({ cachingF with cacheTimer := cachingF.cacheTimer.fire }.processCache 10).1

/-- The queue after the file has been modified. -/
def modifyingF : PendingFileQueue := (signalledF.enqueue modifiedF []).1

/-- The queue two seconds after the file has been created: it waits. -/
def waitingF : PendingFileQueue := ({ modifyingF with cacheTimer := modifyingF.cacheTimer.fire }.processCache 2010).1

theorem reaches_waitingF : ReflTransGen QueueStep (.initial 5000 60000 120000, [])
    (waitingF, [.enqueued createdF, .emitted (.indexNewFile createdF.path), .enqueued modifiedF]) := by
  have hsignalled : QueueStep (cachingF, [.enqueued createdF])
      (signalledF, [.enqueued createdF, .emitted (.indexNewFile createdF.path)]) := .processCache 10 rfl rfl
  have hmodifying : QueueStep (signalledF, [.enqueued createdF, .emitted (.indexNewFile createdF.path)])
      (modifyingF, [.enqueued createdF, .emitted (.indexNewFile createdF.path), .enqueued modifiedF]) :=
    .enqueue modifiedF [] rfl (by decide) rfl
  have hwaiting : QueueStep
      (modifyingF, [.enqueued createdF, .emitted (.indexNewFile createdF.path), .enqueued modifiedF])
      (waitingF, [.enqueued createdF, .emitted (.indexNewFile createdF.path), .enqueued modifiedF]) :=
    .processCache 2010 rfl rfl
  exact ((reaches_cachingF.tail hsignalled).tail hmodifying).tail hwaiting

/-- A file that waits is signalled after its directory has been deleted. -/
theorem deleted_file_signalled : ¬ ∀ (q q' : PendingFileQueue) (trace : List Event) (file : PendingFile)
    (kept : List PendingFile) (signals : List Signal),
    ReflTransGen QueueStep (.initial 5000 60000 120000, []) (q, trace) → file.shouldRemoveIndex = true →
    isDirectory file.path = true → kept.Perm (q.cache.filter (keepFile file.path)) →
    q.enqueue file kept = (q', signals) →
    q'.Silences (trace ++ .enqueued file :: signals.map .emitted) file.path := by
  intro h
  let q' := (waitingF.enqueue deletedD []).1
  have hsilences : q'.Silences [.enqueued createdF, .emitted (.indexNewFile createdF.path), .enqueued modifiedF,
      .enqueued deletedD, .emitted (.removeFileIndex deletedD.path)] deletedD.path :=
    h waitingF q' _ deletedD [] _ reaches_waitingF rfl (by decide) (by decide) rfl
  have hstep : QueueStep
      (q', [.enqueued createdF, .emitted (.indexNewFile createdF.path), .enqueued modifiedF,
        .enqueued deletedD, .emitted (.removeFileIndex deletedD.path)]) _ :=
    .processPendingFiles 7010 [(createdF.path, 7010)] rfl (by decide) rfl
  have hquiet := (hsilences createdF.path _ [.emitted (.indexModifiedFile createdF.path)] (by decide) (.single hstep)
    (by simp)).1
  exact hquiet _ List.mem_cons_self rfl

end Baloo
