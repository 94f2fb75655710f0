import Baloo.NoLostUpdate

/-!
# Deadlines across midnight

The queue keeps its deadlines and the times of its signals as times of day, and compares them as if every day were
the same. Here an observer with a calendar keeps the times themselves. On every run the timer for pending files
is due in time; and a pending file whose deadline has passed is signalled, and an old entry of the recently
signalled paths is dropped, exactly if the times of day compare as the times do (`deadlines_across_midnight`).
A file whose deadline is shortly before midnight and that is looked at shortly after waits for almost a day.
-/

namespace Baloo

open PendingFileQueue

/-- `QTime::currentTime` at a time, in milliseconds since a midnight. -/
def timeOfDay (t : ℕ) : QTime := t % 86400000

/-- A queue, and what the observer knows about it. -/
structure Clocked where
  /-- the queue -/
  queue : PendingFileQueue
  /-- the time of the last step -/
  now : ℕ
  /-- when a pending file is to be signalled -/
  deadline : QByteArray → ℕ
  /-- when a path was last signalled -/
  emitted : QByteArray → ℕ
  /-- when the timer for pending files is due, if it is running -/
  pendingDue : ℕ
  /-- when the timer for recently signalled paths is due, if it is running -/
  clearDue : ℕ

/-- The time `processCache` adds to the current time for a file that is to wait. -/
def PendingFileQueue.delay (q : PendingFileQueue) (currentTime : QTime) (file : PendingFile) : Option ℤ :=
  if file.shouldIndexContents then
    match q.pendingFiles.get file.path with
    | some time => some (qBound q.minTimeout (currentTime.msecsTo time * 2) q.maxTimeout)
    | none => if q.recentlyEmitted.contains file.path then some q.minTimeout else none
  else none

/-- One round of the loop of `processCache`, with the deadlines. -/
def schedule (t : ℕ) (s : (PendingFileQueue × List Signal) × (QByteArray → ℕ)) (file : PendingFile) :
    (PendingFileQueue × List Signal) × (QByteArray → ℕ) :=
  (processFile (timeOfDay t) s.1 file,
    match s.1.1.delay (timeOfDay t) file with
    | some ms => Function.update s.2 file.path (t + ms).toNat
    | none => s.2)

/-- The path was signalled for its contents. -/
def Signalled (signals : List Signal) (path : QByteArray) : Prop :=
  .indexNewFile path ∈ signals ∨ .indexModifiedFile path ∈ signals

instance (signals : List Signal) (path : QByteArray) : Decidable (Signalled signals path) :=
  inferInstanceAs (Decidable (_ ∨ _))

/-- When the paths were last signalled, after these signals. -/
def stamp (t : ℕ) (signals : List Signal) (emitted : QByteArray → ℕ) : QByteArray → ℕ := fun path =>
  if Signalled signals path then t else emitted path

/-- When a timer is due that may have been started. -/
def dueAfter (t : ℕ) (before after : QTimer) (due : ℕ) : ℕ :=
  if before.active = false ∧ after.active = true then (t + after.interval).toNat else due

/-- What happens to the queue. -/
inductive QueueCall where
  /-- an event arrives -/
  | enqueue (file : PendingFile) (kept : List PendingFile)
  /-- the cache timer fires -/
  | processCache
  /-- the timer for pending files fires -/
  | processPendingFiles (order : List (QByteArray × QTime))
  /-- the timer for recently signalled paths fires -/
  | clearRecentlyEmitted (order : List (QByteArray × QTime))

/-- A step at a time; the timers fire when they are due or later. -/
inductive ClockStep : Clocked → ℕ → QueueCall → List Signal → Clocked → Prop
  /-- an event arrives -/
  | enqueue {s : Clocked} {t : ℕ} {q' : PendingFileQueue} {signals : List Signal} (file : PendingFile)
    (kept : List PendingFile) :
    s.now ≤ t → kept.Perm (s.queue.cache.filter (keepFile file.path)) →
    s.queue.enqueue file kept = (q', signals) →
    ClockStep s t (.enqueue file kept) signals { s with queue := q', now := t }
  /-- the cache timer fires -/
  | processCache {s : Clocked} {t : ℕ} {q' : PendingFileQueue} {signals : List Signal} :
    s.now ≤ t → s.queue.cacheTimer.active = true →
    { s.queue with cacheTimer := s.queue.cacheTimer.fire }.processCache (timeOfDay t) = (q', signals) →
    ClockStep s t .processCache signals
      { queue := q'
        now := t
        deadline := (s.queue.cache.foldl (schedule t)
          (({ s.queue with cacheTimer := s.queue.cacheTimer.fire }, []), s.deadline)).2
        emitted := stamp t signals s.emitted
        pendingDue := dueAfter t s.queue.pendingFilesTimer q'.pendingFilesTimer s.pendingDue
        clearDue := dueAfter t s.queue.clearRecentlyEmittedTimer q'.clearRecentlyEmittedTimer s.clearDue }
  /-- the timer for pending files fires -/
  | processPendingFiles {s : Clocked} {t : ℕ} {q' : PendingFileQueue} {signals : List Signal}
    (order : List (QByteArray × QTime)) :
    s.now ≤ t → s.queue.pendingFilesTimer.active = true → s.pendingDue ≤ t →
    order.Perm s.queue.pendingFiles.toList →
    { s.queue with pendingFilesTimer := s.queue.pendingFilesTimer.fire }.processPendingFiles (timeOfDay t) order =
      (q', signals) →
    ClockStep s t (.processPendingFiles order) signals
      { s with
        queue := q'
        now := t
        emitted := stamp t signals s.emitted
        pendingDue := dueAfter t s.queue.pendingFilesTimer.fire q'.pendingFilesTimer s.pendingDue
        clearDue := dueAfter t s.queue.clearRecentlyEmittedTimer q'.clearRecentlyEmittedTimer s.clearDue }
  /-- the timer for recently signalled paths fires -/
  | clearRecentlyEmitted {s : Clocked} {t : ℕ} {q' : PendingFileQueue} (order : List (QByteArray × QTime)) :
    s.now ≤ t → s.queue.clearRecentlyEmittedTimer.active = true → s.clearDue ≤ t →
    order.Perm s.queue.recentlyEmitted.toList →
    { s.queue with clearRecentlyEmittedTimer := s.queue.clearRecentlyEmittedTimer.fire }.clearRecentlyEmitted
      (timeOfDay t) order = q' →
    ClockStep s t (.clearRecentlyEmitted order) []
      { s with
        queue := q'
        now := t
        clearDue := dueAfter t s.queue.clearRecentlyEmittedTimer.fire q'.clearRecentlyEmittedTimer s.clearDue }

/-- A step of a run. -/
structure Moment where
  /-- the queue before -/
  before : Clocked
  /-- the time -/
  time : ℕ
  /-- what happens -/
  call : QueueCall
  /-- what is signalled -/
  signals : List Signal
  /-- the queue afterwards -/
  after : Clocked

/-- A run, step by step. -/
inductive ClockRun (start : Clocked) : List Moment → Clocked → Prop
  /-- nothing has happened -/
  | nil : ClockRun start [] start
  /-- one more step -/
  | snoc {moments : List Moment} {s s' : Clocked} {t : ℕ} {call : QueueCall} {signals : List Signal} :
    ClockRun start moments s → ClockStep s t call signals s' →
    ClockRun start (moments ++ [⟨s, t, call, signals, s'⟩]) s'

/-- A new queue. -/
def Clocked.start (t : ℕ) (minTimeout maxTimeout trackingTime : ℤ) : Clocked where
  queue := .initial minTimeout maxTimeout trackingTime
  now := t
  deadline _ := t
  emitted _ := t
  pendingDue := t
  clearDue := t

/-- While files are pending, their timer is running, and due when the first of them is or at most one maximum timeout
ahead. -/
def Clocked.InTime (s : Clocked) : Prop :=
  s.queue.pendingFiles.keys ≠ [] → s.queue.pendingFilesTimer.active = true ∧
    ((∀ path, s.queue.pendingFiles.contains path = true → s.pendingDue ≤ s.deadline path) ∨
      s.pendingDue ≤ s.now + s.queue.maxTimeout)

/-- The deadlines are honoured: pending files whose deadline has passed are signalled, and entries older than the
tracking time are dropped. -/
def Moment.Honoured (m : Moment) : Prop :=
  m.after.InTime ∧
    match m.call with
    | .processPendingFiles _ =>
      ∀ path, m.before.queue.pendingFiles.contains path = true → m.before.deadline path ≤ m.time →
        .indexModifiedFile path ∈ m.signals
    | .clearRecentlyEmitted _ =>
      ∀ path, m.before.queue.recentlyEmitted.contains path = true →
        m.before.queue.trackingTime < m.time - m.before.emitted path →
        m.after.queue.recentlyEmitted.contains path = false
    | .enqueue _ _ | .processCache => True

/-- The times of day compare as the times do: of a deadline that has passed and of the step, and of a signal that is old
enough and of the step. -/
def Moment.Comparable (m : Moment) : Prop :=
  match m.call with
  | .processPendingFiles _ =>
    ∀ path, m.before.queue.pendingFiles.contains path = true → m.before.deadline path ≤ m.time →
      timeOfDay (m.before.deadline path) ≤ timeOfDay m.time
  | .clearRecentlyEmitted _ =>
    ∀ path, m.before.queue.recentlyEmitted.contains path = true →
      m.before.queue.trackingTime < m.time - m.before.emitted path →
      m.before.queue.trackingTime ≤ (timeOfDay m.time : ℤ) - timeOfDay (m.before.emitted path)
  | .enqueue _ _ | .processCache => True

/-! ## Rounds of the loops -/

namespace PendingFileQueue

variable {q : PendingFileQueue} {t : QTime} {file : PendingFile} {signals : List Signal} {ms : ℤ} {path : QByteArray}

theorem le_delay (h : q.delay t file = some ms) : q.minTimeout ≤ ms := by
  rw [delay] at h
  split at h
  · split at h
    · obtain rfl := Option.some.inj h
      exact le_max_left _ _
    · split at h
      · exact (Option.some.inj h).le
      · cases h
  · cases h

/-- A file that is to wait. -/
theorem processFile_of_delay (h : q.delay t file = some ms) : processFile t (q, signals) file =
    ({ q with pendingFiles := q.pendingFiles.put file.path (t.addMSecs ms) }, signals) := by
  rw [delay] at h
  split at h
  · next hcontents =>
    have hxattr : file.shouldIndexXAttrOnly = false := by
      rw [PendingFile.shouldIndexXAttrOnly, hcontents, Bool.not_true, Bool.and_false]
    simp only [processFile, hxattr, Bool.false_eq_true, if_false, hcontents, if_true]
    rcases htime : q.pendingFiles.get file.path with _ | time
    · rw [htime] at h
      rcases hrecent : q.recentlyEmitted.contains file.path with _ | _
      · simp [hrecent] at h
      · rw [hrecent] at h
        obtain rfl := Option.some.inj h
        rfl
    · rw [htime] at h
      obtain rfl := Option.some.inj h
      rfl
  · cases h

/-- A file that is not to wait: it is signalled, or its contents are not. -/
theorem processFile_of_not_delay (h : q.delay t file = none) :
    (∃ sigs, processFile t (q, signals) file = (q, signals ++ sigs) ∧ ∀ path, ¬ Signalled sigs path) ∨
      ∃ sigs, processFile t (q, signals) file =
          ({ q with recentlyEmitted := q.recentlyEmitted.put file.path t }, signals ++ sigs) ∧
        ∀ path, Signalled sigs path ↔ path = file.path := by
  by_cases hcontents : file.shouldIndexContents = true
  · have hxattr : file.shouldIndexXAttrOnly = false := by
      rw [PendingFile.shouldIndexXAttrOnly, hcontents, Bool.not_true, Bool.and_false]
    rw [delay, if_pos hcontents] at h
    split at h
    · cases h
    · next htime =>
      split at h
      · cases h
      · next hrecent =>
        refine .inr ⟨[if file.isNewFile then .indexNewFile file.path else .indexModifiedFile file.path], ?_, ?_⟩
        · simp only [processFile, hxattr, hcontents, Bool.false_eq_true, if_false, if_true, htime, hrecent]
        · intro path
          rw [Signalled]
          split <;> simp
  · refine .inl ?_
    by_cases hxattr : file.shouldIndexXAttrOnly = true
    · exact ⟨[.indexXAttr file.path], by simp only [processFile, hxattr, if_true], by simp [Signalled]⟩
    · exact ⟨[], by simp only [processFile, hxattr, hcontents, if_false, List.append_nil, Bool.false_eq_true],
        by simp [Signalled]⟩

end PendingFileQueue

section

variable {q q' : PendingFileQueue} {t now due : ℕ} {file : PendingFile} {signals sigs : List Signal} {ms : ℤ}
  {path : QByteArray} {deadline emitted : QByteArray → ℕ}

theorem timeOfDay_addMSecs (h : 0 ≤ ms) : (timeOfDay t).addMSecs ms = timeOfDay (t + ms).toNat := by
  change ((((t % 86400000 : ℕ) : ℤ) + ms) % 86400000).toNat = ((t : ℤ) + ms).toNat % 86400000
  omega

theorem signalled_append : Signalled (signals ++ sigs) path ↔ Signalled signals path ∨ Signalled sigs path := by
  simp only [Signalled, List.mem_append]
  exact or_or_or_comm

theorem stamp_nil (t : ℕ) (emitted : QByteArray → ℕ) : stamp t [] emitted = emitted := by
  funext path
  simp [stamp, Signalled]

theorem stamp_of_signalled (h : Signalled signals path) : stamp t signals emitted path = t := if_pos h

theorem stamp_append (h : ¬ Signalled sigs path) :
    stamp t (signals ++ sigs) emitted path = stamp t signals emitted path := by
  simp only [stamp, signalled_append, h, or_false]

/-- The tables hold the times of day of what the observer knows. -/
structure TimesFit (q : PendingFileQueue) (deadline emitted : QByteArray → ℕ) : Prop where
  /-- of the deadlines -/
  pending : ∀ path time, q.pendingFiles.get path = some time → time = timeOfDay (deadline path)
  /-- of the signals -/
  recent : ∀ path time, q.recentlyEmitted.get path = some time → time = timeOfDay (emitted path)

theorem TimesFit.congr {q q' : PendingFileQueue} {deadline emitted : QByteArray → ℕ} (h : TimesFit q deadline emitted)
    (hpending : q'.pendingFiles = q.pendingFiles) (hrecent : q'.recentlyEmitted = q.recentlyEmitted) :
    TimesFit q' deadline emitted := by
  refine ⟨fun path time htime => ?_, fun path time htime => ?_⟩
  · rw [hpending] at htime
    exact h.pending path time htime
  · rw [hrecent] at htime
    exact h.recent path time htime

/-- Timers and timeouts are what they were. -/
structure SameTimes (q q' : PendingFileQueue) : Prop where
  /-- the timer for pending files -/
  pendingFilesTimer : q'.pendingFilesTimer = q.pendingFilesTimer
  /-- the least timeout -/
  minTimeout : q'.minTimeout = q.minTimeout
  /-- the greatest timeout -/
  maxTimeout : q'.maxTimeout = q.maxTimeout
  /-- the tracking time -/
  trackingTime : q'.trackingTime = q.trackingTime

theorem SameTimes.refl (q : PendingFileQueue) : SameTimes q q := ⟨rfl, rfl, rfl, rfl⟩

theorem SameTimes.trans {q'' : PendingFileQueue} (h : SameTimes q q') (h' : SameTimes q' q'') : SameTimes q q'' :=
  ⟨h'.pendingFilesTimer.trans h.pendingFilesTimer, h'.minTimeout.trans h.minTimeout,
    h'.maxTimeout.trans h.maxTimeout, h'.trackingTime.trans h.trackingTime⟩

/-! ### The cache -/

/-- One round of the loop of `processCache`. -/
theorem schedule_fits {s : (PendingFileQueue × List Signal) × (QByteArray → ℕ)}
    (h : TimesFit s.1.1 s.2 (stamp t s.1.2 emitted)) (hmin : 0 < s.1.1.minTimeout)
    (file : PendingFile) :
    TimesFit (schedule t s file).1.1 (schedule t s file).2 (stamp t (schedule t s file).1.2 emitted) ∧
      SameTimes s.1.1 (schedule t s file).1.1 := by
  obtain ⟨⟨q, signals⟩, deadline⟩ := s
  cases hdelay : q.delay (timeOfDay t) file with
  | some ms =>
    -- the file is to wait
    have hms := le_delay hdelay
    simp only [schedule, hdelay, processFile_of_delay hdelay]
    refine ⟨⟨fun path time htime => ?_, h.recent⟩, ⟨rfl, rfl, rfl, rfl⟩⟩
    rw [OrdMap.get_put] at htime
    by_cases hpath : path = file.path
    · subst hpath
      rw [if_pos rfl] at htime
      rw [← Option.some.inj htime, Function.update_self, timeOfDay_addMSecs (hmin.le.trans hms)]
    · rw [if_neg hpath] at htime
      rw [Function.update_of_ne hpath]
      exact h.pending path time htime
  | none =>
    simp only [schedule, hdelay]
    rcases @processFile_of_not_delay _ _ _ signals hdelay with ⟨sigs, heq, hsigs⟩ | ⟨sigs, heq, hsigs⟩
    · rw [heq]
      refine ⟨⟨h.pending, fun path time htime => ?_⟩, .refl q⟩
      rw [stamp_append (hsigs path)]
      exact h.recent path time htime
    · rw [heq]
      refine ⟨⟨h.pending, fun path time htime => ?_⟩, ⟨rfl, rfl, rfl, rfl⟩⟩
      rw [OrdMap.get_put] at htime
      by_cases hpath : path = file.path
      · rw [if_pos hpath] at htime
        rw [← Option.some.inj htime, stamp_of_signalled (signalled_append.mpr (.inr ((hsigs path).mpr hpath)))]
      · rw [if_neg hpath] at htime
        rw [stamp_append fun hs => hpath ((hsigs path).mp hs)]
        exact h.recent path time htime

/-- The loop of `processCache`. -/
theorem foldl_schedule (files : List PendingFile) {s : (PendingFileQueue × List Signal) × (QByteArray → ℕ)}
    (h : TimesFit s.1.1 s.2 (stamp t s.1.2 emitted)) (hmin : 0 < s.1.1.minTimeout) :
    (files.foldl (schedule t) s).1 = files.foldl (processFile (timeOfDay t)) s.1 ∧
      TimesFit (files.foldl (schedule t) s).1.1 (files.foldl (schedule t) s).2
        (stamp t (files.foldl (schedule t) s).1.2 emitted) ∧
      SameTimes s.1.1 (files.foldl (schedule t) s).1.1 := by
  induction files generalizing s with
  | nil => exact ⟨rfl, h, .refl _⟩
  | cons file files ih =>
    obtain ⟨hfits, hsame⟩ := schedule_fits h hmin file
    obtain ⟨heq, hfits', hsame'⟩ := ih hfits (hsame.minTimeout ▸ hmin)
    exact ⟨heq, hfits', hsame.trans hsame'⟩

theorem startClearRecentlyEmittedTimer_times (q : PendingFileQueue) :
    SameTimes q q.startClearRecentlyEmittedTimer := by
  rw [startClearRecentlyEmittedTimer]
  split <;> exact ⟨rfl, rfl, rfl, rfl⟩

/-- The timer for pending files is started, unless it is running. -/
theorem startPendingFilesTimer_timer (q : PendingFileQueue) :
    q.startPendingFilesTimer.minTimeout = q.minTimeout ∧ q.startPendingFilesTimer.maxTimeout = q.maxTimeout ∧
      q.startPendingFilesTimer.trackingTime = q.trackingTime ∧
      (q.startPendingFilesTimer.pendingFilesTimer = q.pendingFilesTimer ∨
        q.startPendingFilesTimer.pendingFilesTimer.interval = q.minTimeout) := by
  rw [startPendingFilesTimer]
  split
  · exact ⟨rfl, rfl, rfl, .inr rfl⟩
  · exact ⟨rfl, rfl, rfl, .inl rfl⟩

/-- The cache is emptied. -/
theorem processCache_fits (h : TimesFit q deadline emitted) (hmin : 0 < q.minTimeout)
    (hprocess : q.processCache (timeOfDay t) = (q', signals)) :
    TimesFit q' (q.cache.foldl (schedule t) ((q, []), deadline)).2 (stamp t signals emitted) ∧
      q'.minTimeout = q.minTimeout ∧ q'.maxTimeout = q.maxTimeout ∧ q'.trackingTime = q.trackingTime ∧
      (q'.pendingFiles.keys ≠ [] → q'.pendingFilesTimer.active = true) ∧
      (q'.pendingFilesTimer = q.pendingFilesTimer ∨ q'.pendingFilesTimer.interval = q.minTimeout) := by
  obtain ⟨heq, hfits, hsame⟩ := @foldl_schedule t emitted q.cache ((q, []), deadline)
    ((stamp_nil t emitted).symm ▸ h) hmin
  rw [processCache] at hprocess
  obtain ⟨rfl, rfl⟩ := Prod.mk.inj hprocess
  rw [← heq]
  generalize q.cache.foldl (schedule t) ((q, []), deadline) = s at *
  obtain ⟨⟨q₁, signals⟩, deadline'⟩ := s
  obtain ⟨hmin', hmax', htracking, htimer⟩ := startPendingFilesTimer_timer { q₁ with cache := [] }
  have htimes := startClearRecentlyEmittedTimer_times { q₁ with cache := [] }.startPendingFilesTimer
  refine ⟨hfits.congr ?_ ?_, ?_, ?_, ?_, fun hne => ?_, ?_⟩
  · rw [startClearRecentlyEmittedTimer_pendingFiles, startPendingFilesTimer_pendingFiles]
  · rw [startClearRecentlyEmittedTimer_recentlyEmitted, startPendingFilesTimer_recentlyEmitted]
  · exact htimes.minTimeout.trans (hmin'.trans hsame.minTimeout)
  · exact htimes.maxTimeout.trans (hmax'.trans hsame.maxTimeout)
  · exact htimes.trackingTime.trans (htracking.trans hsame.trackingTime)
  · rw [startClearRecentlyEmittedTimer_pendingFiles, OrdMap.keys_ne_nil] at hne
    rw [startClearRecentlyEmittedTimer_pendingFilesTimer]
    exact startPendingFilesTimer_active hne
  · rw [startClearRecentlyEmittedTimer_pendingFilesTimer]
    refine htimer.imp (fun h => h.trans hsame.pendingFilesTimer) (fun h => h.trans hsame.minTimeout)

/-! ### Pending files -/

/-- One round of the loop of `processPendingFiles`. -/
theorem processPendingFile_fits {s : PendingFileQueue × ℤ × List Signal}
    (h : TimesFit s.1 deadline (stamp t s.2.2 emitted)) (it : QByteArray × QTime) :
    TimesFit (processPendingFile (timeOfDay t) s it).1 deadline
        (stamp t (processPendingFile (timeOfDay t) s it).2.2 emitted) ∧
      SameTimes s.1 (processPendingFile (timeOfDay t) s it).1 ∧
      (processPendingFile (timeOfDay t) s it).2.1 ≤ s.2.1 ∧
      ∀ path, .indexModifiedFile path ∈ (processPendingFile (timeOfDay t) s it).2.2 ↔
        .indexModifiedFile path ∈ s.2.2 ∨ it.1 = path ∧ it.2 ≤ timeOfDay t := by
  obtain ⟨q, nextUpdate, signals⟩ := s
  have hdue : (timeOfDay t).msecsTo it.2 ≤ 0 ↔ it.2 ≤ timeOfDay t :=
    ⟨fun h => Int.ofNat_le.mp (Int.le_of_sub_nonpos h), fun h => Int.sub_nonpos_of_le (Int.ofNat_le.mpr h)⟩
  rw [processPendingFile]
  split
  · next hms =>
    refine ⟨⟨fun path time htime => ?_, fun path time htime => ?_⟩, ⟨rfl, rfl, rfl, rfl⟩, le_refl _, fun path => ?_⟩
    · rw [OrdMap.get_del] at htime
      split at htime
      · cases htime
      · exact h.pending path time htime
    · rw [OrdMap.get_put] at htime
      by_cases hpath : path = it.1
      · rw [if_pos hpath] at htime
        rw [← Option.some.inj htime, stamp_of_signalled (signalled_append.mpr (.inr (.inr ?_)))]
        rw [hpath]
        exact List.mem_singleton_self _
      · rw [if_neg hpath] at htime
        rw [stamp_append (by simp [Signalled, hpath])]
        exact h.recent path time htime
    · simp only [List.mem_append, List.mem_singleton, Signal.indexModifiedFile.injEq, eq_comm (a := path),
        hdue.mp hms, and_true]
  · next hms =>
    exact ⟨h, .refl q, min_le_right _ _, fun path => (or_iff_left fun hpath => hms (hdue.mpr hpath.2)).symm⟩

/-- The loop of `processPendingFiles`. -/
theorem foldl_processPendingFile (order : List (QByteArray × QTime)) {s : PendingFileQueue × ℤ × List Signal}
    (h : TimesFit s.1 deadline (stamp t s.2.2 emitted)) :
    TimesFit (order.foldl (processPendingFile (timeOfDay t)) s).1 deadline
        (stamp t (order.foldl (processPendingFile (timeOfDay t)) s).2.2 emitted) ∧
      SameTimes s.1 (order.foldl (processPendingFile (timeOfDay t)) s).1 ∧
      (order.foldl (processPendingFile (timeOfDay t)) s).2.1 ≤ s.2.1 ∧
      ∀ path, .indexModifiedFile path ∈ (order.foldl (processPendingFile (timeOfDay t)) s).2.2 ↔
        .indexModifiedFile path ∈ s.2.2 ∨ ∃ it ∈ order, it.1 = path ∧ it.2 ≤ timeOfDay t := by
  induction order generalizing s with
  | nil => exact ⟨h, .refl _, le_refl _, fun path => by simp⟩
  | cons it order ih =>
    obtain ⟨hfits, hsame, hnext, hsignals⟩ := processPendingFile_fits h it
    obtain ⟨hfits', hsame', hnext', hsignals'⟩ := ih hfits
    refine ⟨hfits', hsame.trans hsame', hnext'.trans hnext, fun path => ?_⟩
    rw [List.foldl_cons, hsignals', hsignals, or_assoc, List.exists_mem_cons_iff]

/-- The pending files are looked at. -/
theorem processPendingFiles_fits (h : TimesFit q deadline emitted) {order : List (QByteArray × QTime)}
    (hprocess : q.processPendingFiles (timeOfDay t) order = (q', signals)) :
    TimesFit q' deadline (stamp t signals emitted) ∧ q'.minTimeout = q.minTimeout ∧ q'.maxTimeout = q.maxTimeout ∧
      q'.trackingTime = q.trackingTime ∧
      (q'.pendingFiles.keys ≠ [] → q'.pendingFilesTimer.active = true) ∧
      (q'.pendingFilesTimer = q.pendingFilesTimer ∨ q'.pendingFilesTimer.interval ≤ q.maxTimeout) ∧
      ∀ path, .indexModifiedFile path ∈ signals ↔ ∃ it ∈ order, it.1 = path ∧ it.2 ≤ timeOfDay t := by
  obtain ⟨hfits, hsame, hnext, hsignals⟩ := @foldl_processPendingFile t deadline emitted order
    (q, q.maxTimeout, []) ((stamp_nil t emitted).symm ▸ h)
  rw [processPendingFiles] at hprocess
  generalize order.foldl (processPendingFile (timeOfDay t)) (q, q.maxTimeout, []) = s at *
  obtain ⟨q₁, nextUpdate, signals₁⟩ := s
  -- behind the loop, only the timer is set
  obtain ⟨timer, hq', hactive, htimer⟩ : ∃ timer : QTimer,
      q' = { q₁ with pendingFilesTimer := timer }.startClearRecentlyEmittedTimer ∧
        (q₁.pendingFiles.keys ≠ [] → timer.active = true) ∧
        (timer = q.pendingFilesTimer ∨ timer.interval ≤ q.maxTimeout) := by
    dsimp only at hprocess
    split at hprocess
    · exact ⟨_, (Prod.mk.inj hprocess).1.symm, fun _ => rfl, .inr hnext⟩
    · next hempty =>
      exact ⟨q₁.pendingFilesTimer, (Prod.mk.inj hprocess).1.symm, fun hne => absurd hne hempty,
        .inl hsame.pendingFilesTimer⟩
  obtain rfl : signals₁ = signals := (Prod.mk.inj hprocess).2
  have htimes := startClearRecentlyEmittedTimer_times { q₁ with pendingFilesTimer := timer }
  rw [hq']
  refine ⟨hfits.congr ?_ ?_, ?_, ?_, ?_, ?_, ?_, fun path => ?_⟩
  · rw [startClearRecentlyEmittedTimer_pendingFiles]
  · rw [startClearRecentlyEmittedTimer_recentlyEmitted]
  · exact htimes.minTimeout.trans hsame.minTimeout
  · exact htimes.maxTimeout.trans hsame.maxTimeout
  · exact htimes.trackingTime.trans hsame.trackingTime
  · rw [startClearRecentlyEmittedTimer_pendingFiles, startClearRecentlyEmittedTimer_pendingFilesTimer]
    exact hactive
  · rw [startClearRecentlyEmittedTimer_pendingFilesTimer]
    exact htimer
  · exact (hsignals path).trans (or_iff_right List.not_mem_nil)

/-! ### Recently signalled paths -/

/-- One round of the loop of `clearRecentlyEmitted`. -/
def clearOne (trackingTime : ℤ) (time : QTime) (s : OrdMap QByteArray QTime × ℤ) (it : QByteArray × QTime) :
    OrdMap QByteArray QTime × ℤ :=
  if trackingTime ≤ QTime.msecsTo it.2 time then (s.1.del it.1, s.2)
  else (s.1, min s.2 (trackingTime - QTime.msecsTo it.2 time))

theorem foldl_clearOne {trackingTime : ℤ} {now : QTime} (order : List (QByteArray × QTime))
    (s : OrdMap QByteArray QTime × ℤ) (path : QByteArray) (time : QTime) :
    (order.foldl (clearOne trackingTime now) s).1.get path = some time ↔
      s.1.get path = some time ∧ ∀ it ∈ order, it.1 = path → QTime.msecsTo it.2 now < trackingTime := by
  induction order generalizing s with
  | nil => simp
  | cons it order ih =>
    rw [List.foldl_cons, ih, List.forall_mem_cons, clearOne, ← and_assoc]
    refine and_congr_left' ?_
    split
    · next hold =>
      rw [OrdMap.get_del]
      split
      · next hpath => exact iff_of_false (Option.some_ne_none time).symm fun h => not_lt.mpr hold (h.2 hpath.symm)
      · next hpath => exact (and_iff_left fun h => absurd h.symm hpath).symm
    · next hyoung => exact (and_iff_left fun _ => not_le.mp hyoung).symm

/-- Old entries are dropped. -/
theorem clearRecentlyEmitted_fits (h : TimesFit q deadline emitted) (order : List (QByteArray × QTime)) :
    TimesFit (q.clearRecentlyEmitted (timeOfDay t) order) deadline emitted ∧
      SameTimes q (q.clearRecentlyEmitted (timeOfDay t) order) ∧
      (q.clearRecentlyEmitted (timeOfDay t) order).pendingFiles = q.pendingFiles ∧
      ∀ path, (q.clearRecentlyEmitted (timeOfDay t) order).recentlyEmitted.contains path = true ↔
        q.recentlyEmitted.contains path = true ∧
          ∀ it ∈ order, it.1 = path → QTime.msecsTo it.2 (timeOfDay t) < q.trackingTime := by
  have hloop := @foldl_clearOne q.trackingTime (timeOfDay t) order
    (q.recentlyEmitted, q.trackingTime)
  have hrecent : (q.clearRecentlyEmitted (timeOfDay t) order).recentlyEmitted =
      (order.foldl (clearOne q.trackingTime (timeOfDay t)) (q.recentlyEmitted, q.trackingTime)).1 := by
    rw [clearRecentlyEmitted]
    dsimp only
    split <;> rfl
  have hpending : (q.clearRecentlyEmitted (timeOfDay t) order).pendingFiles = q.pendingFiles := by
    rw [clearRecentlyEmitted]
    dsimp only
    split <;> rfl
  have htimes : SameTimes q (q.clearRecentlyEmitted (timeOfDay t) order) := by
    rw [clearRecentlyEmitted]
    dsimp only
    split <;> exact ⟨rfl, rfl, rfl, rfl⟩
  refine ⟨⟨fun path time htime => ?_, fun path time htime => ?_⟩, htimes, hpending, fun path => ?_⟩
  · exact h.pending path time (hpending ▸ htime)
  · rw [hrecent, hloop] at htime
    exact h.recent path time htime.1
  · rw [hrecent, OrdMap.contains_iff, OrdMap.contains_iff, ← exists_and_right]
    exact exists_congr fun time => hloop path time

/-! ### Events -/

theorem get_of_foldl_del {table : OrdMap QByteArray QTime} {paths : List QByteArray} {time : QTime}
    (h : (paths.foldl (fun t path => t.del path) table).get path = some time) : table.get path = some time := by
  induction paths generalizing table with
  | nil => exact h
  | cons first paths ih =>
    have hdel := ih h
    rw [OrdMap.get_del] at hdel
    split at hdel
    · cases hdel
    · exact hdel

/-- An event takes entries away, and touches no timer but that of the cache. -/
theorem enqueue_fits (h : TimesFit q deadline emitted) (file : PendingFile) (kept : List PendingFile) :
    TimesFit (q.enqueue file kept).1 deadline emitted ∧ SameTimes q (q.enqueue file kept).1 ∧
      ∀ path, (q.enqueue file kept).1.pendingFiles.contains path = true → q.pendingFiles.contains path = true := by
  rcases hremove : file.shouldRemoveIndex with _ | _
  · have heq : q.enqueue file kept =
        ({ q with cache := addToCache file q.cache, cacheTimer := q.cacheTimer.start }, []) := by
      simp [enqueue, hremove]
    rw [heq]
    exact ⟨⟨h.pending, h.recent⟩, ⟨rfl, rfl, rfl, rfl⟩, fun path hpath => hpath⟩
  · have hdrop : ∀ {q₁ : PendingFileQueue}, TimesFit q₁ deadline emitted →
        TimesFit (q₁.dropFile file) deadline emitted := by
      refine fun h₁ => ⟨fun path time htime => ?_, h₁.recent⟩
      rw [dropFile, OrdMap.get_del] at htime
      split at htime
      · cases htime
      · exact h₁.pending path time htime
    have hcontains : ∀ {q₁ : PendingFileQueue} {path : QByteArray},
        (q₁.dropFile file).pendingFiles.contains path = true → q₁.pendingFiles.contains path = true := by
      intro q₁ path hpath
      rw [dropFile, OrdMap.contains_del, Bool.and_eq_true] at hpath
      exact hpath.2
    rw [enqueue_removal kept hremove]
    split
    · refine ⟨hdrop ⟨fun path time htime => h.pending path time (get_of_foldl_del htime),
        fun path time htime => h.recent path time (get_of_foldl_del htime)⟩, ⟨rfl, rfl, rfl, rfl⟩, fun path hpath => ?_⟩
      exact (OrdMap.contains_foldl_del.mp (hcontains hpath)).2
    · exact ⟨hdrop h, ⟨rfl, rfl, rfl, rfl⟩, fun path hpath => hcontains hpath⟩

/-! ## Steps and runs -/

/-- A timer that may have been started is due in time. -/
theorem dueAfter_le {before after : QTimer} {max : ℤ} (hnow : now ≤ t) (hmax : 0 ≤ max)
    (hdue : before.active = true → (due : ℤ) ≤ now + max) (hactive : after.active = true)
    (hafter : after = before ∨ after.interval ≤ max) : (dueAfter t before after due : ℤ) ≤ t + max := by
  rw [dueAfter]
  cases hbefore : before.active with
  | false =>
    have hle : after.interval ≤ max := by
      refine hafter.resolve_left ?_
      rintro rfl
      rw [hactive] at hbefore
      cases hbefore
    rw [if_pos ⟨rfl, hactive⟩]
    omega
  | true =>
    have hle := hdue hbefore
    rw [if_neg fun h => Bool.false_ne_true h.1.symm]
    omega

end

namespace Clocked

/-- What the observer knows fits the queue, whose timer for pending files is due in time. -/
structure Tracks (s : Clocked) : Prop where
  /-- the tables -/
  fits : TimesFit s.queue s.deadline s.emitted
  /-- the least timeout -/
  minTimeout : 0 < s.queue.minTimeout
  /-- the greatest timeout -/
  maxTimeout : s.queue.minTimeout ≤ s.queue.maxTimeout
  /-- the timer runs -/
  active : s.queue.pendingFiles.keys ≠ [] → s.queue.pendingFilesTimer.active = true
  /-- the timer is due in time -/
  due : s.queue.pendingFilesTimer.active = true → (s.pendingDue : ℤ) ≤ s.now + s.queue.maxTimeout

variable {s s' : Clocked} {t : ℕ} {call : QueueCall} {signals : List Signal}

theorem Tracks.inTime (h : s.Tracks) : s.InTime := fun hne => ⟨h.active hne, .inr (h.due (h.active hne))⟩

theorem tracks_start {minTimeout maxTimeout : ℤ} (t : ℕ) (trackingTime : ℤ) (hmin : 0 < minTimeout)
    (hmax : minTimeout ≤ maxTimeout) : (start t minTimeout maxTimeout trackingTime).Tracks where
  fits := ⟨fun path time htime => by simp [start, PendingFileQueue.initial] at htime,
    fun path time htime => by simp [start, PendingFileQueue.initial] at htime⟩
  minTimeout := hmin
  maxTimeout := hmax
  active hne := absurd rfl hne
  due hactive := absurd hactive Bool.false_ne_true

/-- The timer for pending files is left alone, and no deadline is added. -/
theorem Tracks.of_sameTimes (h : s.Tracks) {q : PendingFileQueue} (hnow : s.now ≤ t) (clearDue : ℕ)
    (hfits : TimesFit q s.deadline s.emitted) (hsame : SameTimes s.queue q)
    (hpending : ∀ path, q.pendingFiles.contains path = true → s.queue.pendingFiles.contains path = true) :
    Tracks { s with queue := q, now := t, clearDue := clearDue } := by
  refine ⟨hfits, hsame.minTimeout ▸ h.minTimeout, ?_, fun hne => ?_, fun hactive => ?_⟩
  · rw [hsame.minTimeout, hsame.maxTimeout]
    exact h.maxTimeout
  · rw [hsame.pendingFilesTimer]
    obtain ⟨path, hpath⟩ := OrdMap.keys_ne_nil.mp hne
    exact h.active (OrdMap.keys_ne_nil.mpr ⟨path, hpending path hpath⟩)
  · rw [hsame.pendingFilesTimer] at hactive
    have hdue := h.due hactive
    rw [hsame.maxTimeout]
    exact hdue.trans (Int.add_le_add_right (Int.ofNat_le.mpr hnow) _)

/-- **One step** keeps what the observer knows. -/
theorem Tracks.step (h : s.Tracks) (hstep : ClockStep s t call signals s') : s'.Tracks := by
  have hpos : 0 ≤ s.queue.maxTimeout := h.minTimeout.le.trans h.maxTimeout
  cases hstep with
  | enqueue file kept hnow hkept henqueue =>
    obtain ⟨hfits, hsame, hpending⟩ := enqueue_fits h.fits file kept
    rw [henqueue] at hfits hsame hpending
    exact h.of_sameTimes hnow s.clearDue hfits hsame hpending
  | processCache hnow hactive hprocess =>
    obtain ⟨hfits, hmin, hmax, -, hrunning, htimer⟩ := processCache_fits
      (q := { s.queue with cacheTimer := s.queue.cacheTimer.fire }) ⟨h.fits.pending, h.fits.recent⟩ h.minTimeout
      hprocess
    refine ⟨hfits, hmin ▸ h.minTimeout, ?_, hrunning, fun hactive => ?_⟩
    · rw [hmin, hmax]
      exact h.maxTimeout
    · rw [hmax]
      exact dueAfter_le hnow hpos h.due hactive (htimer.imp_right fun heq => heq.le.trans h.maxTimeout)
  | processPendingFiles order hnow hactive hdue horder hprocess =>
    obtain ⟨hfits, hmin, hmax, -, hrunning, htimer, -⟩ := processPendingFiles_fits
      (q := { s.queue with pendingFilesTimer := s.queue.pendingFilesTimer.fire }) ⟨h.fits.pending, h.fits.recent⟩
      hprocess
    refine ⟨hfits, hmin ▸ h.minTimeout, ?_, hrunning, fun hactive => ?_⟩
    · rw [hmin, hmax]
      exact h.maxTimeout
    · rw [hmax]
      refine dueAfter_le hnow hpos (fun hfired => ?_) hactive htimer
      cases hfired
  | clearRecentlyEmitted order hnow hactive hdue horder hprocess =>
    obtain ⟨hfits, hsame, hpending, -⟩ := clearRecentlyEmitted_fits (t := t)
      (q := { s.queue with clearRecentlyEmittedTimer := s.queue.clearRecentlyEmittedTimer.fire })
      ⟨h.fits.pending, h.fits.recent⟩ order
    rw [hprocess] at hfits hsame hpending
    refine h.of_sameTimes hnow _ hfits ⟨hsame.pendingFilesTimer, hsame.minTimeout, hsame.maxTimeout,
      hsame.trackingTime⟩ fun path hpath => ?_
    rwa [hpending] at hpath

/-- **Every run** keeps what the observer knows. -/
theorem Tracks.run {start : Clocked} {moments : List Moment} (h : start.Tracks) (hrun : ClockRun start moments s) :
    s.Tracks ∧ ∀ m ∈ moments, m.before.Tracks ∧ ClockStep m.before m.time m.call m.signals m.after := by
  induction hrun with
  | nil => exact ⟨h, fun m hm => absurd hm List.not_mem_nil⟩
  | snoc _ hstep ih =>
    obtain ⟨htracks, hmoments⟩ := ih
    refine ⟨htracks.step hstep, fun m hm => ?_⟩
    rcases List.mem_append.mp hm with hm | hm
    · exact hmoments m hm
    · rw [List.mem_singleton.mp hm]
      exact ⟨htracks, hstep⟩

theorem eq_of_mem_order {table : OrdMap QByteArray QTime} {order : List (QByteArray × QTime)} {path : QByteArray}
    {time : QTime} (horder : order.Perm table.toList) (htime : table.get path = some time) :
    ∀ it ∈ order, it.1 = path → it.2 = time := by
  rintro ⟨path', time'⟩ hit rfl
  exact Option.some.inj ((OrdMap.mem_toList.mp (horder.subset hit)).symm.trans htime)

/-- In a step, the deadlines are honoured if and only if the times of day compare as the times do. -/
theorem Tracks.honoured_iff (h : s.Tracks) (hstep : ClockStep s t call signals s') :
    Moment.Honoured ⟨s, t, call, signals, s'⟩ ↔ Moment.Comparable ⟨s, t, call, signals, s'⟩ := by
  have hintime := (h.step hstep).inTime
  rw [Moment.Honoured, and_iff_right hintime, Moment.Comparable]
  cases hstep with
  | enqueue file kept _ _ _ => exact Iff.rfl
  | processCache _ _ _ => exact Iff.rfl
  | processPendingFiles order _ _ _ horder hprocess =>
    obtain ⟨-, -, -, -, -, -, hsignals⟩ := processPendingFiles_fits
      (q := { s.queue with pendingFilesTimer := s.queue.pendingFilesTimer.fire }) ⟨h.fits.pending, h.fits.recent⟩
      hprocess
    refine forall_congr' fun path => forall_congr' fun hpath => imp_congr_right fun _ => ?_
    obtain ⟨time, htime⟩ := OrdMap.contains_iff.mp hpath
    have horder' := eq_of_mem_order horder htime
    rw [hsignals path]
    dsimp only
    rw [← h.fits.pending path time htime]
    constructor
    · rintro ⟨it, hit, hit', hdue⟩
      rwa [← horder' it hit hit']
    · exact fun hdue => ⟨(path, time), horder.symm.subset (OrdMap.mem_toList.mpr htime), rfl, hdue⟩
  | clearRecentlyEmitted order _ _ _ horder hprocess =>
    obtain ⟨-, -, -, hkept⟩ := clearRecentlyEmitted_fits (t := t)
      (q := { s.queue with clearRecentlyEmittedTimer := s.queue.clearRecentlyEmittedTimer.fire })
      ⟨h.fits.pending, h.fits.recent⟩ order
    rw [hprocess] at hkept
    refine forall_congr' fun path => forall_congr' fun hpath => imp_congr_right fun _ => ?_
    obtain ⟨time, htime⟩ := OrdMap.contains_iff.mp hpath
    have horder' := eq_of_mem_order horder htime
    rw [Bool.eq_false_iff, ne_eq, hkept path, and_iff_right hpath]
    dsimp only
    rw [← h.fits.recent path time htime]
    constructor
    · intro hdropped
      by_contra hyoung
      refine hdropped fun it hit hit' => ?_
      rw [horder' it hit hit']
      exact not_le.mp hyoung
    · intro hold hyoung
      exact not_lt.mpr hold (hyoung (path, time) (horder.symm.subset (OrdMap.mem_toList.mpr htime)) rfl)

end Clocked

/-- A file is created. -/
def createdFile : PendingFile := { path := [slash, 97], created := true }

/-- The file is modified. -/
def modifiedFile : PendingFile := { path := [slash, 97], modified := true }

/-- The queue after a file was created at a time, signalled, and modified a second later: the file is pending. -/
def waitingQueue (t : ℕ) : PendingFileQueue :=
  let q₁ := ((PendingFileQueue.initial 5000 60000 120000).enqueue createdFile []).1
  let q₂ := ({ q₁ with cacheTimer := q₁.cacheTimer.fire }.processCache (timeOfDay (t + 10))).1
  let q₃ := (q₂.enqueue modifiedFile []).1
  ({ q₃ with cacheTimer := q₃.cacheTimer.fire }.processCache (timeOfDay (t + 1010))).1

theorem exists_waiting (t : ℕ) : ∃ moments s, ClockRun (.start t 5000 60000 120000) moments s ∧
    moments.length = 4 ∧ s.queue = waitingQueue t ∧ s.now = t + 1010 ∧ s.deadline [slash, 97] = t + 6010 ∧
    s.pendingDue = t + 6010 := by
  have hcreated := ClockStep.enqueue (s := .start t 5000 60000 120000) createdFile [] (le_refl t) (.refl []) rfl
  have hsignalled := (ClockRun.nil.snoc hcreated).snoc (.processCache (t := t + 10) (Nat.le_add_right ..) rfl rfl)
  have hmodified := hsignalled.snoc
    (.enqueue (t := t + 1000) modifiedFile [] (Nat.add_le_add_left (by omega) t) (.refl []) rfl)
  have hwaits := hmodified.snoc (.processCache (t := t + 1010) (Nat.add_le_add_left (by omega) t) rfl rfl)
  refine ⟨_, _, hwaits, rfl, rfl, rfl, ?_, ?_⟩
  · change (((t + 1010 : ℕ) : ℤ) + 5000).toNat = t + 6010
    omega
  · change (((t + 1010 : ℕ) : ℤ) + 5000).toNat = t + 6010
    omega

/-- On every run of a new queue, every step honours the deadlines if and only if in every step the times of day compare
as the times do. -/
theorem deadlines_across_midnight {minTimeout maxTimeout trackingTime : ℤ} (hmin : 0 < minTimeout)
    (hmax : minTimeout ≤ maxTimeout) {t : ℕ} {moments : List Moment} {s : Clocked}
    (hrun : ClockRun (.start t minTimeout maxTimeout trackingTime) moments s) :
    (∀ m ∈ moments, m.Honoured) ↔ ∀ m ∈ moments, m.Comparable := by
  obtain ⟨-, hmoments⟩ := (Clocked.tracks_start t trackingTime hmin hmax).run hrun
  refine forall_congr' fun m => forall_congr' fun hm => ?_
  obtain ⟨htracks, hstep⟩ := hmoments m hm
  exact htracks.honoured_iff hstep

theorem deadlines_across_midnight_waiting : ∃ moments s, ClockRun (.start 0 5000 60000 120000) moments s ∧
    moments.length = 4 ∧ ((∀ m ∈ moments, m.Honoured) ↔ ∀ m ∈ moments, m.Comparable) := by
  obtain ⟨moments, s, hrun, hlength, -⟩ := exists_waiting 0
  exact ⟨moments, s, hrun, hlength, deadlines_across_midnight (by omega) (by omega) hrun⟩

/-- A file is to be signalled a millisecond before midnight, and is looked at a millisecond after. -/
theorem midnight_passes : ∃ moments s, ClockRun (.start 86393989 5000 60000 120000) moments s ∧
    ¬ ∀ m ∈ moments, m.Honoured := by
  obtain ⟨moments, s, hrun, -, hqueue, hnow, hdeadline, hdue⟩ := exists_waiting 86393989
  have hprocess : { s.queue with pendingFilesTimer := s.queue.pendingFilesTimer.fire }.processPendingFiles
      (timeOfDay 86400001) s.queue.pendingFiles.toList =
      ({ waitingQueue 86393989 with pendingFilesTimer := { interval := 60000, active := true } }, []) := by
    rw [hqueue]
    rfl
  have hstep := ClockStep.processPendingFiles s.queue.pendingFiles.toList (by rw [hnow]; omega) (by rw [hqueue]; rfl)
    (by rw [hdue]; omega) (.refl _) hprocess
  have hpassed : s.deadline [slash, 97] ≤ 86400001 := by
    rw [hdeadline]
    omega
  refine ⟨_, _, hrun.snoc hstep, fun hall => ?_⟩
  have hhonoured := (hall _ List.mem_concat_self).2 [slash, 97] (by rw [hqueue]; rfl) hpassed
  cases hhonoured

end Baloo
