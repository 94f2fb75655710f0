import Baloo.FileIndexScheduler
import Baloo.Lib.Since
import Mathlib.Logic.Relation

/-!
# Runs of the scheduler

Events arrive in any order. At most one job is outstanding; jobs start only when their conditions
allow it; a path that was put into a list **waits** there until it is given to a job or removed; and
the scheduler never rests while there is a job it could start: then a call of `scheduleIndexing` is
pending.
-/

namespace Baloo

/-! ## What `scheduleIndexing` does -/

/-- The files a job was given. -/
def Runnable.files : Runnable → FileList → List QByteArray
  | .newFileIndexer files, .newFiles => files
  | .modifiedFileIndexer files, .modifiedFiles => files
  | .xattrIndexer files, .xattrFiles => files
  | _, _ => []

/-- Jobs that wait for mains power and for the end of startup. -/
def Runnable.housekeeping : Runnable → Bool
  | .indexCleaner | .fileContentIndexer | .unindexedFileIndexer => true
  | _ => false

/-- The jobs a slot has started. -/
def started (effects : List Effect) : List Runnable :=
  effects.filterMap fun
    | .start runnable => some runnable
    | _ => none

theorem mem_started {effects : List Effect} {runnable : Runnable} :
    runnable ∈ started effects ↔ .start runnable ∈ effects := by
  rw [started, List.mem_filterMap]
  refine ⟨fun ⟨effect, hmem, heq⟩ => ?_, fun hmem => ⟨_, hmem, rfl⟩⟩
  cases effect with
  | start runnable' => exact Option.some.inj heq ▸ hmem
  | _ => cases heq

/-- States in which no job is outstanding. -/
def IndexerState.rests (state : IndexerState) : Bool :=
  state = .suspended || state = .startup || state = .idle || state = .lowPowerIdle

namespace FileIndexScheduler

theorem isIndexerIdle_eq (s : FileIndexScheduler) :
    s.isIndexerIdle = (s.isGoingIdle || s.indexerState.rests) := by
  simp only [isIndexerIdle, IndexerState.rests, Bool.or_assoc]

/-- The job an idle scheduler starts. -/
def next (s : FileIndexScheduler) (providerSize : ℕ) : Option Runnable :=
  if s.isSuspended then none
  else if s.isFirstRun then if s.inStartup then none else some .firstRunIndexer
  else if s.newFiles ≠ [] then some (.newFileIndexer s.newFiles)
  else if s.modifiedFiles ≠ [] then some (.modifiedFileIndexer s.modifiedFiles)
  else if s.xattrFiles ≠ [] then some (.xattrIndexer s.xattrFiles)
  else if s.inStartup then none
  else if s.isOnBattery then none
  else if s.checkStaleIndexEntries then some .indexCleaner
  else if 0 < providerSize then some .fileContentIndexer
  else if s.checkUnindexedFiles then some .unindexedFileIndexer
  else none

/-- The scheduler after it has started a job. -/
structure Starts (s : FileIndexScheduler) (runnable : Runnable) (s' : FileIndexScheduler) :
    Prop where
  /-- the job is outstanding -/
  threadPool : s'.threadPool = s.threadPool ++ [runnable]
  /-- and the scheduler knows it -/
  busy : s'.isIndexerIdle = false
  /-- the job has the whole of one list, or none -/
  files : ∀ list, (runnable.files list = s.files list ∧ s'.files list = []) ∨
    (runnable.files list = [] ∧ s'.files list = s.files list)
  /-- the conditions under which it may start -/
  suspended : s'.isSuspended = false
  /-- the conditions for housekeeping -/
  housekeeping : runnable.housekeeping = true → s'.isOnBattery = false ∧ s'.inStartup = false
  /-- there has been a first run now -/
  isFirstRun : s'.isFirstRun = false

/-- The scheduler after it has started nothing: only the state has changed. -/
def Rests (s s' : FileIndexScheduler) : Prop :=
  ∃ state, s' = { s with isGoingIdle := false, indexerState := state } ∧
    (state.rests = true ∨ s.isFirstRun = true ∧ state = s.indexerState)

variable {s : FileIndexScheduler} {n : ℕ}

theorem rests_rest {state : IndexerState} (h : state.rests = true) (hidle : s.isGoingIdle = false) :
    Rests s (s.rest state).1 ∧ started (s.rest state).2 = [] := by
  rw [rest]
  split
  · exact ⟨⟨state, by rw [← hidle], Or.inl h⟩, rfl⟩
  · next hstate =>
    obtain rfl : s.indexerState = state := not_not.mp hstate
    exact ⟨⟨s.indexerState, by rw [← hidle], Or.inl h⟩, rfl⟩

/-- Starting a job when its conditions hold. -/
theorem starts_startRunnable {t : FileIndexScheduler} {runnable : Runnable} {state : IndexerState}
    (hstate : state.rests = false) (hpool : t.threadPool = s.threadPool)
    (hidle : t.isGoingIdle = false) (hsuspended : t.isSuspended = false)
    (hfirst : t.isFirstRun = false)
    (hfiles : ∀ list, (runnable.files list = s.files list ∧ t.files list = []) ∨
      (runnable.files list = [] ∧ t.files list = s.files list))
    (hhousekeeping : runnable.housekeeping = true → t.isOnBattery = false ∧ t.inStartup = false) :
    Starts s runnable (t.startRunnable runnable state).1 ∧
    started (t.startRunnable runnable state).2 = [runnable] := by
  refine ⟨⟨congrArg (· ++ [runnable]) hpool, ?_, fun list => ?_, hsuspended, hhousekeeping, hfirst⟩,
    rfl⟩
  · rw [isIndexerIdle_eq]
    exact Bool.or_eq_false_iff.mpr ⟨hidle, hstate⟩
  · cases list <;> exact hfiles _

/-- The search for the next job, one case for each thing it comes to. -/
theorem startNext_rule {P : FileIndexScheduler × List Effect → Prop}
    (hrest : ∀ state : IndexerState, state.rests = true →
      ¬ (s.isFirstRun = true ∧ s.inStartup = false ∧ s.isSuspended = false) →
      (state = .idle → s.checkUnindexedFiles = false ∧ s.isFirstRun = false) → P (s.rest state))
    (hwait : s.isFirstRun = true → s.inStartup = true → P (s, []))
    (hfirstRun : s.isFirstRun = true ∧ s.inStartup = false ∧ s.isSuspended = false →
      P ({ s with isFirstRun := false, checkStaleIndexEntries := false, checkUnindexedFiles := false }.startRunnable
        .firstRunIndexer .firstRun))
    (hjob : ∀ (t : FileIndexScheduler) (runnable : Runnable) (state : IndexerState), s.isFirstRun = false →
      state ≠ .idle → t.checkUnindexedFiles = s.checkUnindexedFiles → t.isFirstRun = s.isFirstRun →
      runnable ≠ .unindexedFileIndexer ∧ runnable ≠ .firstRunIndexer → P (t.startRunnable runnable state))
    (hcheck : s.isFirstRun = false → s.checkUnindexedFiles = true →
      P ({ s with checkUnindexedFiles := false }.startRunnable .unindexedFileIndexer .unindexedFileCheck)) :
    P (s.startNext n) := by
  rw [startNext]
  refine iteInduction (fun hsuspended => ?_) fun hsuspended => ?_
  · exact hrest _ rfl (fun h => by simp [h.2.2] at hsuspended) nofun
  refine iteInduction (fun hfirst => ?_) fun hfirst => ?_
  · refine iteInduction (fun hstartup => hwait hfirst hstartup) fun hstartup => ?_
    exact hfirstRun ⟨hfirst, Bool.eq_false_iff.mpr hstartup, Bool.eq_false_iff.mpr hsuspended⟩
  have hfalse : s.isFirstRun = false := Bool.eq_false_iff.mpr hfirst
  have hdue : ¬ (s.isFirstRun = true ∧ s.inStartup = false ∧ s.isSuspended = false) := fun h => hfirst h.1
  refine iteInduction (fun _ => hjob _ _ _ hfalse nofun rfl rfl ⟨nofun, nofun⟩) fun _ => ?_
  refine iteInduction (fun _ => hjob _ _ _ hfalse nofun rfl rfl ⟨nofun, nofun⟩) fun _ => ?_
  refine iteInduction (fun _ => hjob _ _ _ hfalse nofun rfl rfl ⟨nofun, nofun⟩) fun _ => ?_
  refine iteInduction (fun _ => hrest _ rfl hdue nofun) fun _ => ?_
  refine iteInduction (fun _ => hrest _ rfl hdue nofun) fun _ => ?_
  refine iteInduction (fun _ => hjob _ _ _ hfalse nofun rfl rfl ⟨nofun, nofun⟩) fun _ => ?_
  refine iteInduction (fun _ => hjob _ _ _ hfalse nofun rfl rfl ⟨nofun, nofun⟩) fun _ => ?_
  refine iteInduction (fun hunindexed => hcheck hfalse hunindexed) fun hunindexed => ?_
  exact hrest _ rfl hdue fun _ => ⟨Bool.eq_false_iff.mpr hunindexed, hfalse⟩

/-- The search for the next job finds it, and starts it. -/
theorem startNext_cases (hidle : s.isGoingIdle = false) (n : ℕ) :
    (s.next n = none ∧ Rests s (s.startNext n).1 ∧ started (s.startNext n).2 = []) ∨
    ∃ runnable, s.next n = some runnable ∧ Starts s runnable (s.startNext n).1 ∧
      started (s.startNext n).2 = [runnable] := by
  obtain ⟨newFiles, modifiedFiles, xattrFiles, _, _, isOnBattery, _, checkUnindexedFiles,
    checkStaleIndexEntries, _, isSuspended, isFirstRun, inStartup⟩ := s
  obtain rfl := hidle
  -- the conditions one after another, as both definitions ask them
  rw [next, startNext]
  cases isSuspended
  case true => exact Or.inl ⟨rfl, rests_rest rfl rfl⟩
  cases isFirstRun
  case true =>
    cases inStartup
    case true => exact Or.inl ⟨rfl, ⟨_, rfl, Or.inr ⟨rfl, rfl⟩⟩, rfl⟩
    refine Or.inr ⟨_, rfl, starts_startRunnable rfl rfl rfl rfl rfl (fun list => ?_) nofun⟩
    cases list <;> exact Or.inr ⟨rfl, rfl⟩
  rcases newFiles with _ | ⟨file, files⟩
  case cons =>
    refine Or.inr ⟨_, rfl, starts_startRunnable rfl rfl rfl rfl rfl (fun list => ?_) nofun⟩
    cases list
    · exact Or.inl ⟨rfl, rfl⟩
    · exact Or.inr ⟨rfl, rfl⟩
    · exact Or.inr ⟨rfl, rfl⟩
  rcases modifiedFiles with _ | ⟨file, files⟩
  case cons =>
    refine Or.inr ⟨_, rfl, starts_startRunnable rfl rfl rfl rfl rfl (fun list => ?_) nofun⟩
    cases list
    · exact Or.inr ⟨rfl, rfl⟩
    · exact Or.inl ⟨rfl, rfl⟩
    · exact Or.inr ⟨rfl, rfl⟩
  rcases xattrFiles with _ | ⟨file, files⟩
  case cons =>
    refine Or.inr ⟨_, rfl, starts_startRunnable rfl rfl rfl rfl rfl (fun list => ?_) nofun⟩
    cases list
    · exact Or.inr ⟨rfl, rfl⟩
    · exact Or.inr ⟨rfl, rfl⟩
    · exact Or.inl ⟨rfl, rfl⟩
  cases inStartup
  case true => exact Or.inl ⟨rfl, rests_rest rfl rfl⟩
  cases isOnBattery
  case true => exact Or.inl ⟨rfl, rests_rest rfl rfl⟩
  cases checkStaleIndexEntries
  case true =>
    refine Or.inr ⟨_, rfl, starts_startRunnable rfl rfl rfl rfl rfl (fun list => ?_)
      fun _ => ⟨rfl, rfl⟩⟩
    cases list <;> exact Or.inr ⟨rfl, rfl⟩
  rcases n with _ | n
  case succ =>
    refine Or.inr ⟨_, rfl, starts_startRunnable rfl rfl rfl rfl rfl (fun list => ?_)
      fun _ => ⟨rfl, rfl⟩⟩
    cases list <;> exact Or.inr ⟨rfl, rfl⟩
  cases checkUnindexedFiles
  case true =>
    refine Or.inr ⟨_, rfl, starts_startRunnable rfl rfl rfl rfl rfl (fun list => ?_)
      fun _ => ⟨rfl, rfl⟩⟩
    cases list <;> exact Or.inr ⟨rfl, rfl⟩
  exact Or.inl ⟨rfl, rests_rest rfl rfl⟩

/-- **All that `scheduleIndexing` can do**: nothing, if a job is outstanding; and otherwise it starts
the next job, if there is one. -/
theorem scheduleIndexing_cases (s : FileIndexScheduler) (n : ℕ) :
    (s.isIndexerIdle = false ∧ s.scheduleIndexing n = (s, [])) ∨
    (s.isIndexerIdle = true ∧ s.next n = none ∧ Rests s (s.scheduleIndexing n).1 ∧
      started (s.scheduleIndexing n).2 = []) ∨
    (s.isIndexerIdle = true ∧ ∃ runnable, s.next n = some runnable ∧
      Starts s runnable (s.scheduleIndexing n).1 ∧
      started (s.scheduleIndexing n).2 = [runnable]) := by
  rcases hidle : s.isIndexerIdle with _ | _
  · exact Or.inl ⟨rfl, by rw [scheduleIndexing, if_pos hidle]⟩
  · rw [scheduleIndexing, if_neg (by simp [hidle])]
    rcases startNext_cases (s := { s with isGoingIdle := false }) rfl n with h | ⟨runnable, h⟩
    · exact Or.inr (Or.inl ⟨rfl, h⟩)
    · refine Or.inr (Or.inr ⟨rfl, runnable, h.1, ⟨h.2.1.threadPool, h.2.1.busy, fun list => ?_,
        h.2.1.suspended, h.2.1.housekeeping, h.2.1.isFirstRun⟩, h.2.2⟩)
      cases list <;> exact h.2.1.files _

/-- When an idle scheduler would start a job. -/
theorem next_isSome (s : FileIndexScheduler) (n : ℕ) :
    (s.next n).isSome = true ↔ s.isSuspended = false ∧
      ((s.isFirstRun = true ∧ s.inStartup = false) ∨
      (s.isFirstRun = false ∧ ((∃ list, s.files list ≠ []) ∨
        (s.inStartup = false ∧ s.isOnBattery = false ∧
          (s.checkStaleIndexEntries = true ∨ 0 < n ∨ s.checkUnindexedFiles = true))))) := by
  have hlists : (∃ list, s.files list ≠ []) ↔
      s.newFiles ≠ [] ∨ s.modifiedFiles ≠ [] ∨ s.xattrFiles ≠ [] := by
    refine ⟨fun ⟨list, h⟩ => ?_, fun h => ?_⟩
    · cases list
      · exact Or.inl h
      · exact Or.inr (Or.inl h)
      · exact Or.inr (Or.inr h)
    · rcases h with h | h | h
      · exact ⟨.newFiles, h⟩
      · exact ⟨.modifiedFiles, h⟩
      · exact ⟨.xattrFiles, h⟩
  rw [hlists]
  clear hlists
  rcases hsuspended : s.isSuspended with _ | _
  case true => simp [next, hsuspended]
  rcases hfirst : s.isFirstRun with _ | _
  case true => simp [next, hsuspended, hfirst]
  simp only [next, hsuspended, hfirst]
  rcases s.inStartup with _ | _ <;> rcases s.isOnBattery with _ | _ <;> grind

/-- With fewer files and fewer documents there is not more to start. -/
theorem next_mono {s' : FileIndexScheduler} {n' : ℕ} (hn : n' ≤ n)
    (hfiles : ∀ list, s.files list = [] → s'.files list = [])
    (hflags : s' = { s with
      newFiles := s'.newFiles, modifiedFiles := s'.modifiedFiles, xattrFiles := s'.xattrFiles })
    (h : (s'.next n').isSome = true) : (s.next n).isSome = true := by
  rw [next_isSome] at h ⊢
  have hlist : (∃ list, s'.files list ≠ []) → ∃ list, s.files list ≠ [] :=
    fun ⟨list, hne⟩ => ⟨list, fun hempty => hne (hfiles list hempty)⟩
  rw [hflags] at h
  refine ⟨h.1, h.2.imp_right fun ⟨hfirst, hrest⟩ => ⟨hfirst, ?_⟩⟩
  rcases hrest with hrest | ⟨hstartup, hbattery, hrest⟩
  · exact Or.inl (hlist (hflags ▸ hrest))
  · refine Or.inr ⟨hstartup, hbattery, ?_⟩
    rcases hrest with hrest | hrest | hrest
    · exact Or.inl hrest
    · exact Or.inr (Or.inl (Nat.lt_of_lt_of_le hrest hn))
    · exact Or.inr (Or.inr hrest)

end FileIndexScheduler

/-! ## The invariant -/

/-- What holds of the scheduler at any time. -/
structure SchedulerInvariant (s : FileIndexScheduler) : Prop where
  /-- there is one job at most -/
  atMostOne : s.threadPool.length ≤ 1
  /-- the scheduler is idle when no job is outstanding, and only then -/
  idle : s.isIndexerIdle = true ↔ s.threadPool = []
  /-- nothing has been started before the first run -/
  firstRun : s.isFirstRun = true → s.indexerState.rests = true
  /-- no list has a path twice -/
  nodup : ∀ list, (s.files list).Nodup

/-- What holds of the scheduler between two slots: it never rests with work to do. -/
structure SchedulerProgress (s : FileIndexScheduler) (n : ℕ) : Prop where
  /-- when a job has reported back, the next one will be looked for -/
  goingIdle : s.isGoingIdle = true → 0 < s.singleShots
  /-- when there is a job to start, it will be looked for -/
  pending : s.threadPool = [] → (s.next n).isSome = true → 0 < s.singleShots

namespace SchedulerInvariant

open FileIndexScheduler

variable {s s' : FileIndexScheduler} {n : ℕ}

theorem initial (isFirstRun : Bool) : SchedulerInvariant { isFirstRun } where
  atMostOne := Nat.zero_le 1
  idle := ⟨fun _ => rfl, fun _ => rfl⟩
  firstRun _ := rfl
  nodup list := by cases list <;> exact List.nodup_nil

/-- While a job is outstanding, nothing needs to be started. -/
theorem progress_busy (h : SchedulerInvariant s) (hbusy : s.isIndexerIdle = false) :
    SchedulerProgress s n := by
  refine ⟨fun hgoing => ?_, fun hpool => ?_⟩
  · rw [isIndexerIdle_eq, hgoing] at hbusy
    cases hbusy
  · exact absurd (hbusy.symm.trans (h.idle.mpr hpool)) Bool.false_ne_true

/-- **Scheduling keeps the invariant**, and whatever there is to start has been started. -/
theorem scheduleIndexing (h : SchedulerInvariant s) (n : ℕ) :
    SchedulerInvariant (s.scheduleIndexing n).1 ∧ SchedulerProgress (s.scheduleIndexing n).1 n := by
  rcases s.scheduleIndexing_cases n with ⟨hbusy, heq⟩ | ⟨hidle, hnext, ⟨state, heq, hstate⟩, -⟩ |
    ⟨hidle, runnable, hnext, hstarts, -⟩
  · -- a job is outstanding
    rw [heq]
    exact ⟨h, h.progress_busy hbusy⟩
  · -- there is nothing to start
    rw [heq]
    have hpool : s.threadPool = [] := h.idle.mp hidle
    have hrests : state.rests = true := by
      rcases hstate with hstate | ⟨hfirst, rfl⟩
      · exact hstate
      · exact h.firstRun hfirst
    refine ⟨⟨h.atMostOne, ⟨fun _ => hpool, fun _ => ?_⟩, fun _ => hrests, fun list => ?_⟩, nofun,
      fun _ hsome => ?_⟩
    · rw [isIndexerIdle_eq]
      exact hrests
    · exact h.nodup list
    · exact absurd ((congrArg Option.isSome hnext).symm.trans hsome) Bool.false_ne_true
  · have hpool : s.threadPool = [] := h.idle.mp hidle
    have hpool' : (s.scheduleIndexing n).1.threadPool = [runnable] := by
      rw [hstarts.threadPool, hpool]
      rfl
    have hinvariant : SchedulerInvariant (s.scheduleIndexing n).1 := by
      refine ⟨by rw [hpool']; exact Nat.le_refl 1, ?_, fun hfirst => ?_, fun list => ?_⟩
      · rw [hstarts.busy, hpool']
        simp
      · exact absurd (hstarts.isFirstRun.symm.trans hfirst) Bool.false_ne_true
      · rcases hstarts.files list with ⟨-, hfiles⟩ | ⟨-, hfiles⟩
        · exact hfiles ▸ List.nodup_nil
        · exact hfiles ▸ h.nodup list
    exact ⟨hinvariant, hinvariant.progress_busy hstarts.busy⟩

end SchedulerInvariant

/-! ## What an event does -/

/-- The event puts the path into the list. -/
def SchedulerEvent.puts : SchedulerEvent → FileList → QByteArray → Prop
  | .indexNewFile file, .newFiles, path => file = path
  | .indexModifiedFile file, .modifiedFiles, path => file = path
  | .indexXAttrFile file, .xattrFiles, path => file = path
  | _, _, _ => False

/-- The event removes the path from the lists. -/
def SchedulerEvent.removes : SchedulerEvent → QByteArray → Prop
  | .fileRemoved file, path => file = path ∨ file.getLast? = some slash ∧ file.isPrefixOf path = true
  | .updateConfig shouldBeIndexed, path => shouldBeIndexed path = false
  | _, _ => False

/-- The jobs that are still outstanding: one may have reported back. -/
def SchedulerEvent.outstanding : SchedulerEvent → List Runnable → List Runnable
  | .done runnable, threadPool => threadPool.erase runnable
  | _, threadPool => threadPool

/-- One of the started jobs was given the path. -/
def Hands (effects : List Effect) (list : FileList) (path : QByteArray) : Prop :=
  ∃ runnable ∈ started effects, path ∈ runnable.files list

/-- The outcome of an event. -/
structure Delivered (s : FileIndexScheduler) (n : ℕ) (event : SchedulerEvent)
    (s' : FileIndexScheduler) (effects : List Effect) : Prop where
  /-- the invariant -/
  invariant : SchedulerInvariant s'
  /-- the scheduler does not rest -/
  progress : SchedulerProgress s' n
  /-- the thread pool has the jobs that were started and have not reported back -/
  threadPool : s'.threadPool = event.outstanding s.threadPool ++ started effects
  /-- a path stays in its list unless it is removed or given to a job -/
  files : ∀ list path, path ∈ s'.files list ↔ event.puts list path ∨
    path ∈ s.files list ∧ ¬ (event.removes path ∨ Hands effects list path)
  /-- one job may have been started -/
  started : ∀ runnable ∈ started effects, started effects = [runnable] ∧ s'.isSuspended = false ∧
    (runnable.housekeeping = true → s'.isOnBattery = false ∧ s'.inStartup = false) ∧
    ∀ list, (runnable.files list).Nodup ∧
      ∀ path ∈ runnable.files list, path ∈ s.files list ∧ ¬ event.removes path

theorem not_hands_nil {list : FileList} {path : QByteArray} : ¬ Hands [] list path := by
  rintro ⟨runnable, hmem, -⟩
  cases hmem

open FileIndexScheduler

variable {s s' : FileIndexScheduler} {n : ℕ} {event : SchedulerEvent}

theorem scheduleIndexing_started {runnable : Runnable}
    (h : runnable ∈ started (s.scheduleIndexing n).2) :
    started (s.scheduleIndexing n).2 = [runnable] ∧
    Starts s runnable (s.scheduleIndexing n).1 := by
  rcases s.scheduleIndexing_cases n with ⟨-, heq⟩ | ⟨-, -, -, hnone⟩ | ⟨-, r, -, hstarts, hsome⟩
  · rw [heq] at h
    cases h
  · rw [hnone] at h
    cases h
  · rw [hsome, List.mem_singleton] at h
    exact ⟨h ▸ hsome, h ▸ hstarts⟩

theorem threadPool_scheduleIndexing :
    (s.scheduleIndexing n).1.threadPool = s.threadPool ++ started (s.scheduleIndexing n).2 := by
  rcases s.scheduleIndexing_cases n with ⟨-, heq⟩ | ⟨-, -, ⟨state, heq, -⟩, hnone⟩ |
    ⟨-, runnable, -, hstarts, hsome⟩
  · rw [heq]
    exact (List.append_nil _).symm
  · rw [heq, hnone]
    exact (List.append_nil _).symm
  · rw [hsome, hstarts.threadPool]

theorem mem_files_scheduleIndexing {list : FileList} {path : QByteArray} :
    path ∈ (s.scheduleIndexing n).1.files list ↔
      path ∈ s.files list ∧ ¬ Hands (s.scheduleIndexing n).2 list path := by
  rcases s.scheduleIndexing_cases n with ⟨-, heq⟩ | ⟨-, -, ⟨state, heq, -⟩, hnone⟩ |
    ⟨-, runnable, -, hstarts, hsome⟩
  · rw [heq]
    exact ⟨fun h => ⟨h, not_hands_nil⟩, And.left⟩
  · rw [heq, Hands, hnone]
    exact ⟨fun h => ⟨h, by simp⟩, And.left⟩
  · rw [Hands, hsome]
    rcases hstarts.files list with ⟨hhands, hfiles⟩ | ⟨hhands, hfiles⟩
    · simp [hhands, hfiles]
    · simp [hhands, hfiles]

/-- **An event that ends in `scheduleIndexing`.** -/
theorem Delivered.schedule {t : FileIndexScheduler} {effects : List Effect}
    (ht : SchedulerInvariant t) (heffects : Baloo.started effects = [])
    (hpool : t.threadPool = event.outstanding s.threadPool)
    (hputs : ∀ list path, ¬ event.puts list path)
    (hfiles : ∀ list path, path ∈ t.files list ↔ path ∈ s.files list ∧ ¬ event.removes path) :
    Delivered s n event (t.scheduleIndexing n).1 (effects ++ (t.scheduleIndexing n).2) := by
  have hstarted : Baloo.started (effects ++ (t.scheduleIndexing n).2) =
      Baloo.started (t.scheduleIndexing n).2 := by
    rw [Baloo.started, List.filterMap_append, ← Baloo.started, heffects]
    rfl
  obtain ⟨hinvariant, hprogress⟩ := ht.scheduleIndexing n
  refine ⟨hinvariant, hprogress, ?_, fun list path => ?_, fun runnable hmem => ?_⟩
  · rw [threadPool_scheduleIndexing, hpool, hstarted]
  · rw [mem_files_scheduleIndexing, hfiles, Hands, Hands, hstarted]
    simp [hputs, and_assoc]
  · rw [hstarted] at hmem ⊢
    obtain ⟨hone, hstarts⟩ := scheduleIndexing_started hmem
    refine ⟨hone, hstarts.suspended, hstarts.housekeeping, fun list => ?_⟩
    rcases hstarts.files list with ⟨hhands, -⟩ | ⟨hhands, -⟩
    · rw [hhands]
      exact ⟨ht.nodup list, fun path hpath => (hfiles list path).mp hpath⟩
    · rw [hhands]
      exact ⟨List.nodup_nil, fun path hpath => absurd hpath List.not_mem_nil⟩

/-- An event that starts nothing and leaves the lists alone. -/
theorem Delivered.quiet {effects : List Effect} (hinvariant : SchedulerInvariant s')
    (hprogress : SchedulerProgress s' n) (heffects : Baloo.started effects = [])
    (hpool : s'.threadPool = event.outstanding s.threadPool)
    (hputs : ∀ list path, ¬ event.puts list path) (hremoves : ∀ path, ¬ event.removes path)
    (hfiles : ∀ list, s'.files list = s.files list) : Delivered s n event s' effects := by
  refine ⟨hinvariant, hprogress, by rw [hpool, heffects, List.append_nil], fun list path => ?_,
    fun runnable hmem => ?_⟩
  · simp [hfiles, hputs, hremoves, Hands, heffects]
  · rw [heffects] at hmem
    cases hmem

/-! ## The events one by one -/

namespace SchedulerInvariant

/-- While the content indexer is at work, or has just reported back, nothing needs to be started. -/
theorem progress_quit {t : FileIndexScheduler} (h : SchedulerInvariant t)
    (hgoing : t.isGoingIdle = true → 0 < t.singleShots)
    (hstate : t.indexerState = .contentIndexing) : SchedulerProgress t n := by
  refine ⟨hgoing, fun hpool _ => hgoing ?_⟩
  have hidle := h.idle.mpr hpool
  rw [isIndexerIdle_eq, hstate] at hidle
  simpa [IndexerState.rests] using hidle

theorem files_setFiles (files : List QByteArray) (list list' : FileList) :
    (s.setFiles files list).files list' = if list' = list then files else s.files list' := by
  cases list <;> cases list' <;> rfl

/-- The invariant allows a list to be replaced. -/
theorem setFiles (h : SchedulerInvariant s) {files : List QByteArray} (hfiles : files.Nodup)
    (list : FileList) : SchedulerInvariant (s.setFiles files list) := by
  refine ⟨?_, ?_, ?_, fun list' => ?_⟩
  · cases list <;> exact h.atMostOne
  · cases list <;> exact h.idle
  · cases list <;> exact h.firstRun
  · rw [files_setFiles]
    split
    · exact hfiles
    · exact h.nodup list'

theorem singleShot (h : SchedulerInvariant s) : SchedulerInvariant s.singleShot :=
  ⟨h.atMostOne, h.idle, h.firstRun, h.nodup⟩

theorem progress_singleShot : SchedulerProgress s.singleShot n :=
  ⟨fun _ => Nat.succ_pos _, fun _ _ => Nat.succ_pos _⟩

/-- The slots that put a path into a list. -/
theorem indexFile (h : SchedulerInvariant s) (hprogress : SchedulerProgress s n)
    (list : FileList) (file : QByteArray)
    (hpool : event.outstanding s.threadPool = s.threadPool)
    (hputs : ∀ list' path, event.puts list' path ↔ list' = list ∧ path = file)
    (hremoves : ∀ path, ¬ event.removes path) :
    Delivered s n event (s.indexFile list file) [] := by
  have hpool' : s.threadPool = event.outstanding s.threadPool ++ started [] := by
    rw [hpool]
    exact (List.append_nil _).symm
  rw [FileIndexScheduler.indexFile]
  split
  · next hmem =>
    refine ⟨h, hprogress, hpool', fun list' path => ?_,
      fun _ hstarted => absurd hstarted List.not_mem_nil⟩
    rw [hputs]
    refine ⟨fun hpath => Or.inr ⟨hpath, not_or.mpr ⟨hremoves path, not_hands_nil⟩⟩, ?_⟩
    rintro (⟨rfl, rfl⟩ | ⟨hpath, -⟩)
    · exact hmem
    · exact hpath
  · next hmem =>
    have hnodup : (s.files list ++ [file]).Nodup :=
      List.nodup_append.mpr ⟨h.nodup list, List.nodup_singleton file, fun path hpath file' hfile' => by
        rw [List.mem_singleton.mp hfile']
        exact fun heq => hmem (heq ▸ hpath)⟩
    have hinvariant := h.setFiles hnodup list
    have hfiles : ∀ list' path,
        path ∈ (s.setFiles (s.files list ++ [file]) list).files list' ↔
          event.puts list' path ∨
            path ∈ s.files list' ∧ ¬ (event.removes path ∨ Hands [] list' path) := by
      intro list' path
      rw [files_setFiles, hputs]
      rcases eq_or_ne list' list with rfl | hne
      · simp [hremoves, not_hands_nil, or_comm]
      · simp [hremoves, not_hands_nil, hne]
    have hthreadPool : (s.setFiles (s.files list ++ [file]) list).threadPool = s.threadPool := by
      cases list <;> rfl
    dsimp only
    split
    · exact ⟨hinvariant.singleShot, progress_singleShot, hthreadPool.trans hpool', hfiles,
        fun _ hstarted => absurd hstarted List.not_mem_nil⟩
    · next hbusy =>
      exact ⟨hinvariant, hinvariant.progress_busy (Bool.eq_false_iff.mpr hbusy),
        hthreadPool.trans hpool', hfiles, fun _ hstarted => absurd hstarted List.not_mem_nil⟩

/-- A removal takes a file, or what is below a directory, from the lists. -/
theorem files_handleFileRemoved (file : QByteArray) (list : FileList) : (s.handleFileRemoved file).files list =
    if file.getLast? ≠ some slash then (s.files list).erase file else removeStartsWith (s.files list) file := by
  rw [FileIndexScheduler.handleFileRemoved]
  split <;> cases list <;> rfl

theorem mem_files_handleFileRemoved (h : SchedulerInvariant s) {file path : QByteArray} {list : FileList} :
    path ∈ (s.handleFileRemoved file).files list ↔
      path ∈ s.files list ∧ ¬ SchedulerEvent.removes (.fileRemoved file) path := by
  rw [files_handleFileRemoved, SchedulerEvent.removes]
  split
  · next hfile =>
    rw [(h.nodup list).mem_erase_iff, and_comm]
    refine and_congr_right fun _ => ⟨fun hne => ?_, fun hnot heq => hnot (Or.inl heq.symm)⟩
    rintro (rfl | ⟨hdir, -⟩)
    · exact hne rfl
    · exact hfile hdir
  · next hdir =>
    rw [not_not] at hdir
    rw [removeStartsWith, List.mem_filter, Bool.not_eq_true', hdir]
    refine and_congr_right fun _ => ⟨fun hbelow => ?_, fun hnot => ?_⟩
    · have hself : file.isPrefixOf file = true :=
        List.isPrefixOf_iff_prefix.mpr List.prefix_rfl
      rintro (rfl | ⟨-, hbelow'⟩)
      · exact absurd (hbelow.symm.trans hself) Bool.false_ne_true
      · exact absurd (hbelow.symm.trans hbelow') Bool.false_ne_true
    · exact Bool.eq_false_iff.mpr fun hbelow => hnot (Or.inr ⟨rfl, hbelow⟩)

theorem handleFileRemoved (h : SchedulerInvariant s) (hprogress : SchedulerProgress s n)
    (file : QByteArray) :
    Delivered s n (.fileRemoved file) (s.handleFileRemoved file) [] := by
  have hflags : s.handleFileRemoved file = { s with
      newFiles := (s.handleFileRemoved file).newFiles
      modifiedFiles := (s.handleFileRemoved file).modifiedFiles
      xattrFiles := (s.handleFileRemoved file).xattrFiles } := by
    rw [FileIndexScheduler.handleFileRemoved]
    split <;> rfl
  have hsub : ∀ list, (s.handleFileRemoved file).files list ⊆ s.files list := fun list path hpath =>
    (h.mem_files_handleFileRemoved.mp hpath).1
  refine ⟨?_, ?_, ?_, fun list path => ?_, fun _ hstarted => absurd hstarted List.not_mem_nil⟩
  · refine ⟨?_, ?_, ?_, fun list => ?_⟩
    · rw [hflags]
      exact h.atMostOne
    · rw [hflags]
      exact h.idle
    · rw [hflags]
      exact h.firstRun
    · rw [files_handleFileRemoved]
      split
      · exact (h.nodup list).erase file
      · exact (h.nodup list).filter _
  · refine ⟨?_, fun hpool hsome => ?_⟩
    · rw [hflags]
      exact hprogress.goingIdle
    · have hempty : ∀ list, s.files list = [] → (s.handleFileRemoved file).files list = [] :=
        fun list hnil => List.eq_nil_of_subset_nil (hnil ▸ hsub list)
      have hsome' := next_mono (Nat.le_refl n) hempty hflags hsome
      rw [hflags] at hpool ⊢
      exact hprogress.pending hpool hsome'
  · rw [hflags]
    exact (List.append_nil _).symm
  · rw [h.mem_files_handleFileRemoved]
    simp [SchedulerEvent.puts, not_hands_nil]

/-- **Every event keeps the invariant and accounts for every path.** -/
theorem deliver (h : SchedulerInvariant s) (hprogress : SchedulerProgress s n)
    (henabled : s.Enabled event) :
    Delivered s n event (s.deliver n event).1 (s.deliver n event).2 := by
  have hschedule : ∀ t : FileIndexScheduler, SchedulerInvariant t →
      t.threadPool = event.outstanding s.threadPool → (∀ list, t.files list = s.files list) →
      (∀ list path, ¬ event.puts list path) → (∀ path, ¬ event.removes path) →
      Delivered s n event (t.scheduleIndexing n).1 (t.scheduleIndexing n).2 :=
    fun t ht hpool hfiles hputs hremoves =>
      Delivered.schedule ht (rfl : Baloo.started [] = []) hpool hputs
        fun list path => by simp [hfiles, hremoves]
  have hquit : ∀ t : FileIndexScheduler, SchedulerInvariant t →
      (t.isGoingIdle = true → 0 < t.singleShots) → t.indexerState = .contentIndexing →
      t.threadPool = event.outstanding s.threadPool → (∀ list, t.files list = s.files list) →
      (∀ list path, ¬ event.puts list path) → (∀ path, ¬ event.removes path) →
      Delivered s n event t [.quit] :=
    fun t ht hgoing hstate hpool hfiles hputs hremoves =>
      .quiet ht (ht.progress_quit hgoing hstate) rfl hpool hputs hremoves hfiles
  cases event with
  | indexNewFile file =>
    exact h.indexFile hprogress .newFiles file rfl
      (fun list path => by cases list <;> simp [SchedulerEvent.puts, eq_comm]) fun _ => id
  | indexModifiedFile file =>
    exact h.indexFile hprogress .modifiedFiles file rfl
      (fun list path => by cases list <;> simp [SchedulerEvent.puts, eq_comm]) fun _ => id
  | indexXAttrFile file =>
    exact h.indexFile hprogress .xattrFiles file rfl
      (fun list path => by cases list <;> simp [SchedulerEvent.puts, eq_comm]) fun _ => id
  | fileRemoved file => exact h.handleFileRemoved hprogress file
  | done runnable =>
    -- the one outstanding job has reported back
    have hpool : s.threadPool.erase runnable = [] := by
      refine List.eq_nil_of_length_eq_zero ?_
      have hone := h.atMostOne
      rw [List.length_erase_of_mem henabled]
      omega
    refine .quiet ⟨?_, ?_, h.firstRun, h.nodup⟩ progress_singleShot rfl rfl
      (fun _ _ => id) (fun _ => id) fun _ => rfl
    · show (s.threadPool.erase runnable).length ≤ 1
      rw [hpool]
      exact Nat.zero_le 1
    · exact ⟨fun _ => hpool, fun _ => rfl⟩
  | powerSaveStatusChanged conserveResources =>
    rw [FileIndexScheduler.deliver, slotPowerManagementStatusChanged]
    split
    · rw [powerManagementStatusChanged]
      split
      · next hstate =>
        rw [Bool.and_eq_true, decide_eq_true_iff] at hstate
        exact hquit _ ⟨h.atMostOne, h.idle, h.firstRun, h.nodup⟩ hprogress.goingIdle hstate.2
          rfl (fun _ => rfl) (fun _ _ => id) fun _ => id
      · exact hschedule _ ⟨h.atMostOne, h.idle, h.firstRun, h.nodup⟩ rfl (fun _ => rfl)
          (fun _ _ => id) fun _ => id
    · exact .quiet h hprogress rfl rfl (fun _ _ => id) (fun _ => id) fun _ => rfl
  | suspend =>
    rw [FileIndexScheduler.deliver, setSuspend]
    dsimp only
    rw [if_pos rfl]
    split
    · next hstate =>
      exact hquit _ ⟨h.atMostOne, h.idle, h.firstRun, h.nodup⟩ hprogress.goingIdle hstate
        rfl (fun _ => rfl) (fun _ _ => id) fun _ => id
    · exact hschedule _ ⟨h.atMostOne, h.idle, h.firstRun, h.nodup⟩ rfl (fun _ => rfl)
        (fun _ _ => id) fun _ => id
  | resume =>
    exact hschedule { s with isSuspended := false } ⟨h.atMostOne, h.idle, h.firstRun, h.nodup⟩
      rfl (fun _ => rfl) (fun _ _ => id) fun _ => id
  | updateConfig shouldBeIndexed =>
    rw [FileIndexScheduler.deliver, FileIndexScheduler.updateConfig]
    refine .schedule ⟨h.atMostOne, h.idle, h.firstRun, fun list => ?_⟩ ?_ rfl (fun _ _ => id)
      fun list path => ?_
    · cases list
      · exact (h.nodup .newFiles).filter _
      · exact (h.nodup .modifiedFiles).filter _
      · exact (h.nodup .xattrFiles).filter _
    · rw [quitContentIndexer]
      split <;> rfl
    · cases list <;> simp [files, removeShouldNotIndex, SchedulerEvent.removes]
  | checkUnindexedFiles =>
    exact hschedule { s with checkUnindexedFiles := true }
      ⟨h.atMostOne, h.idle, h.firstRun, h.nodup⟩ rfl (fun _ => rfl) (fun _ _ => id) fun _ => id
  | checkStaleIndexEntries =>
    exact hschedule { s with checkStaleIndexEntries := true }
      ⟨h.atMostOne, h.idle, h.firstRun, h.nodup⟩ rfl (fun _ => rfl) (fun _ _ => id) fun _ => id
  | startupFinished =>
    exact .quiet ⟨h.atMostOne, h.idle, h.firstRun, h.nodup⟩ progress_singleShot rfl rfl
      (fun _ _ => id) (fun _ => id) fun _ => rfl
  | timeout =>
    exact hschedule { s with singleShots := s.singleShots - 1 }
      ⟨h.atMostOne, h.idle, h.firstRun, h.nodup⟩ rfl (fun _ => rfl) (fun _ _ => id) fun _ => id
  | installedWatches => exact hschedule s h rfl (fun _ => rfl) (fun _ _ => id) fun _ => id

end SchedulerInvariant

/-! ## Runs -/

/-- The events so far, each with what the scheduler did. -/
abbrev SchedulerTrace : Type := List (SchedulerEvent × List Effect)

/-- The steps of the scheduler and the database it reads: an event is delivered; or the number of
documents that wait for the content indexer changes. It grows only while a job is at work. -/
inductive SchedulerStep :
    (FileIndexScheduler × ℕ) × SchedulerTrace → (FileIndexScheduler × ℕ) × SchedulerTrace → Prop
  /-- an event is delivered -/
  | deliver {s s' : FileIndexScheduler} {n : ℕ} {trace : SchedulerTrace} {effects : List Effect}
    (event : SchedulerEvent) :
    s.Enabled event → s.deliver n event = (s', effects) →
    SchedulerStep ((s, n), trace) ((s', n), trace ++ [(event, effects)])
  /-- the database changes -/
  | database {s : FileIndexScheduler} {n : ℕ} {trace : SchedulerTrace} (n' : ℕ) :
    (s.threadPool = [] → n' ≤ n) → SchedulerStep ((s, n), trace) ((s, n'), trace)

/-- The path was put into the list, and since then it was neither removed nor given to a job. -/
def Waiting (trace : SchedulerTrace) (list : FileList) (path : QByteArray) : Prop :=
  Since.Stands (fun entry => entry.1.puts list path)
    (fun entry => entry.1.removes path ∨ Hands entry.2 list path) trace

/-- The invariant of a run. -/
structure SchedulerRun (s : FileIndexScheduler) (n : ℕ) (trace : SchedulerTrace) : Prop where
  /-- the scheduler is sound -/
  invariant : SchedulerInvariant s
  /-- it does not rest -/
  progress : SchedulerProgress s n
  /-- the lists have what waits -/
  waiting : ∀ list path, path ∈ s.files list ↔ Waiting trace list path

namespace SchedulerRun

theorem initial (isFirstRun : Bool) (n : ℕ) : SchedulerRun { isFirstRun } n [] := by
  refine ⟨.initial isFirstRun, ⟨nofun, fun _ hsome => ?_⟩, fun list path => ?_⟩
  · -- nothing starts during startup, and the lists are empty
    rw [next_isSome] at hsome
    obtain ⟨-, ⟨-, hstartup⟩ | ⟨-, ⟨list, hlist⟩ | ⟨hstartup, -⟩⟩⟩ := hsome
    · cases hstartup
    · cases list <;> exact absurd rfl hlist
    · cases hstartup
  · refine ⟨fun hpath => ?_, fun hwaiting => absurd hwaiting Since.not_stands_nil⟩
    cases list <;> cases hpath

theorem step {trace trace' : SchedulerTrace} {n' : ℕ} (h : SchedulerRun s n trace)
    (hstep : SchedulerStep ((s, n), trace) ((s', n'), trace')) : SchedulerRun s' n' trace' := by
  cases hstep with
  | deliver event henabled hdeliver =>
    have hevent := h.invariant.deliver h.progress henabled
    rw [hdeliver] at hevent
    refine ⟨hevent.invariant, hevent.progress, fun list path => ?_⟩
    rw [Waiting, Since.stands_snoc, hevent.files, h.waiting, Waiting]
  | database _ hdatabase =>
    refine ⟨h.invariant, ⟨h.progress.goingIdle, fun hpool hsome => ?_⟩, h.waiting⟩
    exact h.progress.pending hpool (next_mono (hdatabase hpool) (fun _ => id) rfl hsome)

theorem run {s₀ : (FileIndexScheduler × ℕ) × SchedulerTrace} {trace : SchedulerTrace}
    (h : SchedulerRun s₀.1.1 s₀.1.2 s₀.2)
    (hrun : Relation.ReflTransGen SchedulerStep s₀ ((s, n), trace)) : SchedulerRun s n trace := by
  generalize hend : ((s, n), trace) = e at hrun
  induction hrun generalizing s n trace with
  | refl =>
    subst hend
    exact h
  | @tail e _ _ hstep ih =>
    subst hend
    obtain ⟨⟨s₁, n₁⟩, trace₁⟩ := e
    exact (ih rfl).step hstep

end SchedulerRun

/-- **The scheduler is safe and does not rest.** In every state of every run: at most one job is
outstanding; the lists have what waits; when no job is outstanding and there is one to start, a call
of `scheduleIndexing` is pending. And whatever event comes next: it starts one job at most, not while
indexing is suspended, and housekeeping neither on battery nor during startup; and each path the job
is given was waiting, and is given once. -/
theorem scheduler_sound {isFirstRun : Bool} {n₀ : ℕ} {trace : SchedulerTrace}
    (hrun : Relation.ReflTransGen SchedulerStep (({ isFirstRun }, n₀), []) ((s, n), trace)) :
    s.threadPool.length ≤ 1 ∧
    (∀ list path, path ∈ s.files list ↔ Waiting trace list path) ∧
    (s.threadPool = [] → started (s.scheduleIndexing n).2 ≠ [] → 0 < s.singleShots) ∧
    ∀ event, s.Enabled event →
      ∀ runnable ∈ started (s.deliver n event).2,
        started (s.deliver n event).2 = [runnable] ∧
        (s.deliver n event).1.isSuspended = false ∧
        (runnable.housekeeping = true → (s.deliver n event).1.isOnBattery = false ∧
          (s.deliver n event).1.inStartup = false) ∧
        ∀ list, (runnable.files list).Nodup ∧
          ∀ path ∈ runnable.files list, Waiting trace list path ∧ ¬ event.removes path := by
  have h : SchedulerRun s n trace := (SchedulerRun.initial isFirstRun n₀).run hrun
  refine ⟨h.invariant.atMostOne, h.waiting, fun hpool hstarts => ?_,
    fun event henabled runnable hmem => ?_⟩
  · refine h.progress.pending hpool ?_
    obtain ⟨runnable, hrunnable⟩ := List.exists_mem_of_ne_nil _ hstarts
    rcases s.scheduleIndexing_cases n with ⟨-, heq⟩ | ⟨-, -, -, hnone⟩ | ⟨-, r, hnext, -, -⟩
    · rw [heq] at hrunnable
      cases hrunnable
    · exact absurd hnone hstarts
    · rw [hnext]
      rfl
  · obtain ⟨hone, hsuspended, hhousekeeping, hfiles⟩ :=
      (h.invariant.deliver h.progress henabled).started runnable hmem
    refine ⟨hone, hsuspended, hhousekeeping, fun list => ⟨(hfiles list).1, fun path hpath => ?_⟩⟩
    obtain ⟨hmem, hremoves⟩ := (hfiles list).2 path hpath
    exact ⟨(h.waiting list path).mp hmem, hremoves⟩

/-- A new file is reported during startup: it waits, a call of `scheduleIndexing` is pending, and
that call gives it to a job. -/
theorem scheduler_sound_newFile : ∃ (s : FileIndexScheduler) (trace : SchedulerTrace),
    Waiting trace .newFiles [slash, 97] ∧ 0 < s.singleShots ∧
    started (s.deliver 0 .timeout).2 = [.newFileIndexer [[slash, 97]]] := by
  let s₁ := ({ isFirstRun := false } : FileIndexScheduler).indexNewFile [slash, 97]
  have hrun : Relation.ReflTransGen SchedulerStep (({ isFirstRun := false }, 0), [])
      ((s₁, 0), [(.indexNewFile [slash, 97], [])]) :=
    .tail .refl (.deliver (.indexNewFile [slash, 97]) trivial rfl)
  obtain ⟨-, hwaiting, hpending, hnext⟩ := scheduler_sound hrun
  refine ⟨s₁, _, (hwaiting .newFiles [slash, 97]).mp (by decide), hpending rfl (by decide), ?_⟩
  exact (hnext .timeout (hpending rfl (by decide)) (.newFileIndexer [[slash, 97]]) (by decide)).1

end Baloo
