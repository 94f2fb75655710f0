import Baloo.Halving
import Baloo.SchedulerRuns

/-!
# Asking the content indexer to stop

The scheduler and the thread of the content indexer, side by side. The scheduler puts the job into
the thread pool; some time later the thread begins `run`, whose first act is to clear the stop flag;
and the scheduler may call `quit` at any time in between or afterwards.

A request that comes before the flag is cleared is lost. So is one that comes after the flag was read
and before the batch is handed over, as far as that batch is concerned. Every other request is
heeded: no batch is started after it, and after at most four more steps the run has ended.
-/

namespace Baloo

/-! ## The two parties -/

/-- The scheduler, the content indexer and the database. -/
structure ContentSystem where
  /-- one thread -/
  scheduler : FileIndexScheduler
  /-- and the other -/
  indexer : FileContentIndexer
  /-- what both of them read -/
  db : Database

namespace FileContentIndexer

/-- What an event tells about the content indexer: when its signal `done` has arrived, the job is
over. -/
def handle (indexer : FileContentIndexer) : SchedulerEvent → FileContentIndexer
  | .done .fileContentIndexer => { indexer with pc := .idle }
  | _ => indexer

theorem handle_cases (indexer : FileContentIndexer) (event : SchedulerEvent) :
    indexer.handle event = indexer ∨ indexer.handle event = { indexer with pc := .idle } := by
  unfold handle
  split
  · exact Or.inr rfl
  · exact Or.inl rfl

/-- The signal `done` arrives only after `run` has ended. -/
def Ready (indexer : FileContentIndexer) : SchedulerEvent → Prop
  | .done .fileContentIndexer => indexer.pc = .done
  | _ => True

/-- What the scheduler does to the content indexer. -/
def receive (indexer : FileContentIndexer) : Effect → FileContentIndexer
  | .start .fileContentIndexer => { indexer with pc := .queued }
  | .quit => indexer.quit
  | _ => indexer

end FileContentIndexer

/-- What is seen of an effect at the content indexer. -/
def Effect.activity : Effect → Option Activity
  | .start .fileContentIndexer => some .start
  | .quit => some .quit
  | _ => none

/-- The steps of the system. `admits` is the condition on the place of the thread under which `quit`
may be called. -/
inductive SystemStep (env : Environment) (admits : Pc → Prop) :
    ContentSystem × List Activity → ContentSystem × List Activity → Prop
  /-- an event is delivered to the scheduler -/
  | deliver {s s' : FileIndexScheduler} {indexer : FileContentIndexer} {db : Database}
    {trace : List Activity} {effects : List Effect} (event : SchedulerEvent) :
    s.Enabled event → indexer.Ready event →
    s.deliver (FileContentIndexerProvider.size db) event = (s', effects) →
    (.quit ∈ effects → admits indexer.pc) →
    SystemStep env admits (⟨s, indexer, db⟩, trace)
      (⟨s', effects.foldl .receive (indexer.handle event), db⟩,
        trace ++ effects.filterMap Effect.activity)
  /-- the thread of the content indexer takes a step -/
  | work {s : FileIndexScheduler} {indexer indexer' : FileContentIndexer} {db db' : Database}
    {trace activities : List Activity} :
    WorkerStep env (indexer, db) activities (indexer', db') →
    SystemStep env admits (⟨s, indexer, db⟩, trace) (⟨s, indexer', db'⟩, trace ++ activities)
  /-- the database changes; without a job at work, no document is added to those that wait -/
  | database {s : FileIndexScheduler} {indexer : FileContentIndexer} {db : Database}
    {trace : List Activity} (db' : Database) :
    (s.threadPool = [] →
      FileContentIndexerProvider.size db' ≤ FileContentIndexerProvider.size db) →
    SystemStep env admits (⟨s, indexer, db⟩, trace) (⟨s, indexer, db'⟩, trace)

/-- `quit` has been called since the job was started. -/
def Stopped (trace : List Activity) : Prop := Since.Stands (· = .quit) (· = .start) trace

/-- At this place, a call of `quit` is heeded. -/
def Pc.heeds : Pc → Bool
  | .queued | .indexing _ => false
  | _ => true

/-- How many steps a thread that has been asked to stop still takes. -/
def Pc.remaining : Pc → ℕ
  | .idle | .queued | .done | .exited => 0
  | .checking _ => 1
  | .fetching _ => 2
  | .finished _ _ => 3
  | .waiting _ => 4
  | .indexing _ => 5

/-! ## The effects of an event -/

theorem quit_notMem_startNext {s : FileIndexScheduler} {n : ℕ} : .quit ∉ (s.startNext n).2 := by
  have hrest : ∀ (t : FileIndexScheduler) state, .quit ∉ (t.rest state).2 := by
    intro t state
    rw [FileIndexScheduler.rest]
    split <;> simp
  have hstart : ∀ (t : FileIndexScheduler) runnable state,
      .quit ∉ (t.startRunnable runnable state).2 := by
    intro t runnable state
    simp [FileIndexScheduler.startRunnable]
  apply FileIndexScheduler.startNext_rule (P := fun r => .quit ∉ r.2)
  · exact fun state _ _ _ => hrest s state
  · exact fun _ _ => List.not_mem_nil
  · exact fun _ => hstart _ _ _
  · exact fun t runnable state _ _ _ _ _ => hstart t runnable state
  · exact fun _ _ => hstart _ _ _

theorem quit_notMem_scheduleIndexing {s : FileIndexScheduler} {n : ℕ} :
    .quit ∉ (s.scheduleIndexing n).2 := by
  rw [FileIndexScheduler.scheduleIndexing]
  split
  · exact List.not_mem_nil
  · exact quit_notMem_startNext

/-- `quit` is called first, if at all. -/
theorem deliver_effects (s : FileIndexScheduler) (n : ℕ) (event : SchedulerEvent) :
    ∃ more, .quit ∉ more ∧
      ((s.deliver n event).2 = more ∨ (s.deliver n event).2 = .quit :: more) := by
  have hschedule : ∀ t : FileIndexScheduler, ∃ more, .quit ∉ more ∧
      ((t.scheduleIndexing n).2 = more ∨ (t.scheduleIndexing n).2 = .quit :: more) := fun t =>
    ⟨_, quit_notMem_scheduleIndexing, Or.inl rfl⟩
  have hnone : ∃ more, .quit ∉ more ∧ (([] : List Effect) = more ∨ [] = .quit :: more) :=
    ⟨[], List.not_mem_nil, Or.inl rfl⟩
  have hquit : ∃ more, .quit ∉ more ∧ ([.quit] = more ∨ [.quit] = Effect.quit :: more) :=
    ⟨[], List.not_mem_nil, Or.inr rfl⟩
  cases event with
  | indexNewFile file => exact hnone
  | indexModifiedFile file => exact hnone
  | indexXAttrFile file => exact hnone
  | fileRemoved file => exact hnone
  | done runnable => exact hnone
  | powerSaveStatusChanged conserveResources =>
    rw [FileIndexScheduler.deliver, FileIndexScheduler.slotPowerManagementStatusChanged]
    split
    · rw [FileIndexScheduler.powerManagementStatusChanged]
      split
      · exact hquit
      · exact hschedule _
    · exact hnone
  | suspend =>
    rw [FileIndexScheduler.deliver, FileIndexScheduler.setSuspend]
    dsimp only
    rw [if_pos rfl]
    split
    · exact hquit
    · exact hschedule _
  | resume => exact hschedule _
  | updateConfig shouldBeIndexed =>
    have hmore : ∀ t : FileIndexScheduler, ∃ more, .quit ∉ more ∧
        (s.quitContentIndexer ++ (t.scheduleIndexing n).2 = more ∨
          s.quitContentIndexer ++ (t.scheduleIndexing n).2 = .quit :: more) := by
      intro t
      rw [FileIndexScheduler.quitContentIndexer]
      split
      · exact ⟨_, quit_notMem_scheduleIndexing, Or.inr rfl⟩
      · exact ⟨_, quit_notMem_scheduleIndexing, Or.inl rfl⟩
    exact hmore _
  | checkUnindexedFiles => exact hschedule _
  | checkStaleIndexEntries => exact hschedule _
  | startupFinished => exact hnone
  | timeout => exact hschedule _
  | installedWatches => exact hschedule _

/-! ## A request that is heeded -/

theorem stopped_snoc {trace : List Activity} {activity : Activity} :
    Stopped (trace ++ [activity]) ↔
      activity = .quit ∨ Stopped trace ∧ activity ≠ .start := Since.stands_snoc

/-- Once `quit` has been called, the flag is set and the thread reads it before the next batch. -/
def Heeded (indexer : FileContentIndexer) (trace : List Activity) : Prop :=
  Stopped trace → indexer.pc.heeds = true ∧ (0 < indexer.pc.remaining → indexer.stop = true)

namespace Heeded

variable {env : Environment} {indexer indexer' : FileContentIndexer} {db db' : Database}
  {trace activities : List Activity}

theorem initial : Heeded indexer [] := fun h => absurd h Since.not_stands_nil

/-- `quit` is called at a good place. -/
theorem quit (hpc : indexer.pc.heeds = true) : Heeded indexer.quit (trace ++ [.quit]) :=
  fun _ => ⟨hpc, fun _ => rfl⟩

/-- Other effects. -/
theorem receive (h : Heeded indexer trace) {effects : List Effect} (hquit : .quit ∉ effects) :
    Heeded (effects.foldl .receive indexer) (trace ++ effects.filterMap Effect.activity) := by
  induction effects generalizing indexer trace with
  | nil => simpa using h
  | cons effect effects ih =>
    have hrest : .quit ∉ effects := fun hmem => hquit (List.mem_cons_of_mem _ hmem)
    have hquiet : effect.activity = none → indexer.receive effect = indexer →
        Heeded ((effect :: effects).foldl .receive indexer)
          (trace ++ (effect :: effects).filterMap Effect.activity) := by
      intro hnone heq
      rw [List.foldl_cons, heq, List.filterMap_cons_none hnone]
      exact ih h hrest
    cases effect with
    | stateChanged state => exact hquiet rfl rfl
    | quit => exact absurd (List.mem_cons_self ..) hquit
    | start runnable =>
      cases runnable with
      | fileContentIndexer =>
        rw [List.foldl_cons, List.filterMap_cons_some (f := Effect.activity) rfl, List.append_cons]
        refine ih (fun hstopped => ?_) hrest
        rcases stopped_snoc.mp hstopped with heq | ⟨-, hne⟩
        · cases heq
        · exact absurd rfl hne
      | _ => exact hquiet rfl rfl

/-- A step of the thread: nothing that happens there clears the flag of a thread that was asked to
stop, or starts a batch. -/
theorem work (h : Heeded indexer trace)
    (hstep : WorkerStep env (indexer, db) activities (indexer', db')) :
    Heeded indexer' (trace ++ activities) ∧
    (Stopped trace → (∀ idList, .index idList ∉ activities) ∧
      indexer'.pc.remaining < indexer.pc.remaining) := by
  obtain ⟨batchSize, stop, pc⟩ := indexer
  suffices hgoal : (∀ a ∈ activities, a ≠ .quit ∧ a ≠ .start) ∧
      (pc.heeds = true → (0 < pc.remaining → stop = true) →
        (indexer'.pc.heeds = true ∧ (0 < indexer'.pc.remaining → indexer'.stop = true)) ∧
        (∀ idList, .index idList ∉ activities) ∧ indexer'.pc.remaining < pc.remaining) by
    obtain ⟨hactivities, hgoal⟩ := hgoal
    refine ⟨fun hstopped => ?_, fun hstopped => (hgoal (h hstopped).1 (h hstopped).2).2⟩
    rw [Stopped, Since.stands_append fun a ha => (hactivities a ha).1] at hstopped
    exact (hgoal (h hstopped.1).1 (h hstopped.1).2).1
  cases hstep with
  | begin hpc =>
    obtain rfl : pc = .queued := hpc
    exact ⟨nofun, nofun⟩
  | fetch size hpc =>
    obtain rfl : pc = .fetching size := hpc
    exact ⟨by simp, fun _ hstop => ⟨⟨rfl, fun _ => hstop (by decide : 0 < 2)⟩, by simp,
      (by decide : 1 < 2)⟩⟩
  | check idList hpc =>
    obtain rfl : pc = .checking idList := hpc
    refine ⟨nofun, fun _ hstop => ?_⟩
    obtain rfl : stop = true := hstop Nat.one_pos
    simp only [or_true, if_true]
    exact ⟨⟨rfl, nofun⟩, nofun, Nat.one_pos⟩
  | index idList hpc =>
    obtain rfl : pc = .indexing idList := hpc
    exact ⟨by simp, nofun⟩
  | extracted idList ids hadErrors hpc hextracts =>
    obtain rfl : pc = .waiting idList := hpc
    exact ⟨by simp, fun _ hstop => ⟨⟨rfl, fun _ => hstop (by decide : 0 < 4)⟩, by simp,
      (by decide : 3 < 4)⟩⟩
  | proceed idList hadErrors hpc hno =>
    obtain rfl : pc = .finished idList hadErrors := hpc
    exact ⟨nofun, fun _ hstop => ⟨⟨rfl, fun _ => hstop (by decide : 0 < 3)⟩, nofun,
      (by decide : 2 < 3)⟩⟩
  | halve idList hpc hgoing hlen =>
    obtain rfl : pc = .finished idList true := hpc
    exact ⟨nofun, fun _ hstop => absurd (hgoing.symm.trans (hstop (by decide : 0 < 3)))
      Bool.false_ne_true⟩
  | markFailed failedId hpc hgoing hcommits =>
    obtain rfl : pc = .finished [failedId] true := hpc
    exact ⟨by simp, fun _ hstop => absurd (hgoing.symm.trans (hstop (by decide : 0 < 3)))
      Bool.false_ne_true⟩
  | exit failedId hpc hgoing hcommits =>
    obtain rfl : pc = .finished [failedId] true := hpc
    exact ⟨nofun, fun _ hstop => absurd (hgoing.symm.trans (hstop (by decide : 0 < 3)))
      Bool.false_ne_true⟩

end Heeded

/-- The state of the content indexer is heeded in every state of a run all of whose requests come at
a good place. -/
theorem Heeded.step {env : Environment} {a b : ContentSystem × List Activity}
    (h : Heeded a.1.indexer a.2) (hstep : SystemStep env (fun pc => pc.heeds = true) a b) :
    Heeded b.1.indexer b.2 := by
  cases hstep with
  | @deliver s s' indexer db trace effects event henabled hready hdeliver hquit =>
    have hhandle : Heeded (indexer.handle event) trace := by
      rcases indexer.handle_cases event with heq | heq
      · rw [heq]
        exact h
      · rw [heq]
        exact fun _ => ⟨rfl, nofun⟩
    obtain ⟨more, hmore, heffects⟩ :=
      deliver_effects s (FileContentIndexerProvider.size db) event
    rw [hdeliver] at heffects
    rcases heffects with rfl | rfl
    · exact hhandle.receive hmore
    · have hpc : (indexer.handle event).pc.heeds = true := by
        rcases indexer.handle_cases event with heq | heq
        · rw [heq]
          exact hquit (List.mem_cons_self ..)
        · rw [heq]
          rfl
      rw [List.foldl_cons, List.filterMap_cons_some (f := Effect.activity) rfl, List.append_cons]
      exact Heeded.receive (.quit hpc) hmore
  | work hwork => exact (h.work hwork).1
  | database _ => exact h

theorem activity_ne_quit {effects : List Effect} (hquit : .quit ∉ effects) :
    ∀ activity ∈ effects.filterMap Effect.activity, activity ≠ .quit := by
  rintro activity hmem rfl
  obtain ⟨effect, heffect, hactivity⟩ := List.mem_filterMap.mp hmem
  cases effect with
  | stateChanged state => cases hactivity
  | quit => exact hquit heffect
  | start runnable => cases runnable <;> cases hactivity

/-- Effects that do not start the job do not move the thread. -/
theorem receive_pc {effects : List Effect} (hstart : .start .fileContentIndexer ∉ effects)
    (indexer : FileContentIndexer) : (effects.foldl .receive indexer).pc = indexer.pc := by
  induction effects generalizing indexer with
  | nil => rfl
  | cons effect effects ih =>
    rw [List.mem_cons, not_or] at hstart
    rw [List.foldl_cons, ih hstart.2]
    cases effect with
    | stateChanged state => rfl
    | quit => rfl
    | start runnable =>
      cases runnable with
      | fileContentIndexer => exact absurd rfl hstart.1
      | _ => rfl

/-- After a request the job has not been started again. -/
theorem start_notMem {trace : List Activity} {effects : List Effect} (hquit : .quit ∉ effects)
    (hstopped : Stopped (trace ++ effects.filterMap Effect.activity)) :
    .start .fileContentIndexer ∉ effects := by
  rw [Stopped, Since.stands_append (activity_ne_quit hquit)] at hstopped
  exact fun hmem => hstopped.2 .start (List.mem_filterMap.mpr ⟨_, hmem, rfl⟩) rfl

/-- As long as it has steps left, the thread can take one, if the extractor answers. -/
theorem exists_work {env : Environment}
    (hextracts : ∀ db idList, ∃ ids db' hadErrors, env.extracts db idList ids db' hadErrors)
    {indexer : FileContentIndexer} (db : Database) (hremaining : 0 < indexer.pc.remaining)
    (hstop : indexer.stop = true) :
    ∃ activities indexer' db', WorkerStep env (indexer, db) activities (indexer', db') := by
  obtain ⟨batchSize, stop, pc⟩ := indexer
  obtain rfl : stop = true := hstop
  cases pc with
  | fetching size => exact ⟨_, _, _, .fetch size rfl⟩
  | checking idList => exact ⟨_, _, _, .check idList rfl⟩
  | indexing idList => exact ⟨_, _, _, .index idList rfl⟩
  | waiting idList =>
    obtain ⟨ids, db', hadErrors, h⟩ := hextracts db idList
    exact ⟨_, _, _, .extracted idList ids hadErrors rfl h⟩
  | finished idList hadErrors => exact ⟨_, _, _, .proceed idList hadErrors rfl (by simp)⟩
  | _ => cases hremaining

/-- The system as it starts. -/
def ContentSystem.initial (isFirstRun : Bool) (batchSize : ℕ) (db : Database) : ContentSystem :=
  ⟨{ isFirstRun }, ⟨batchSize, false, .idle⟩, db⟩

/-- **A request that comes at a good place is heeded.** In every run whose requests all come at good
places: once `quit` has been called after the start, no step of the thread starts a batch; each one
leaves fewer steps to take, and nothing else adds to them; and as long as there are steps left, the
thread can take one. So the run ends. -/
theorem stop_request_heeded {env : Environment}
    (hextracts : ∀ db idList, ∃ ids db' hadErrors, env.extracts db idList ids db' hadErrors)
    {isFirstRun : Bool} {batchSize : ℕ} {db₀ : Database} {system : ContentSystem}
    {trace : List Activity}
    (hrun : Relation.ReflTransGen (SystemStep env fun pc => pc.heeds = true)
      (.initial isFirstRun batchSize db₀, []) (system, trace)) (hstopped : Stopped trace) :
    (∀ activities indexer' db',
      WorkerStep env (system.indexer, system.db) activities (indexer', db') →
        (∀ idList, .index idList ∉ activities) ∧
        indexer'.pc.remaining < system.indexer.pc.remaining) ∧
    (∀ system' trace', SystemStep env (fun pc => pc.heeds = true) (system, trace)
      (system', trace') → Stopped trace' →
        system'.indexer.pc.remaining ≤ system.indexer.pc.remaining) ∧
    (0 < system.indexer.pc.remaining → ∃ activities indexer' db',
      WorkerStep env (system.indexer, system.db) activities (indexer', db')) := by
  have h : Heeded system.indexer trace := Transition.invariant
    (I := fun run : ContentSystem × List Activity => Heeded run.1.indexer run.2)
    (fun a b h hstep => h.step hstep) Heeded.initial hrun
  refine ⟨fun activities indexer' db' hwork => (h.work hwork).2 hstopped, ?_,
    fun hremaining => exists_work hextracts _ hremaining ((h hstopped).2 hremaining)⟩
  intro system' trace' hstep hstopped'
  cases hstep with
  | @deliver s s' indexer db _ effects event henabled hready hdeliver hquit =>
    have hhandle : (indexer.handle event).pc.remaining ≤ indexer.pc.remaining := by
      rcases indexer.handle_cases event with heq | heq
      · rw [heq]
      · rw [heq]
        exact Nat.zero_le _
    obtain ⟨more, hmore, heffects⟩ :=
      deliver_effects s (FileContentIndexerProvider.size db) event
    rw [hdeliver] at heffects
    rcases heffects with rfl | rfl
    · rw [receive_pc (start_notMem hmore hstopped')]
      exact hhandle
    · rw [List.filterMap_cons_some (f := Effect.activity) rfl, List.append_cons] at hstopped'
      rw [List.foldl_cons, receive_pc (start_notMem hmore hstopped')]
      exact hhandle
  | work hwork => exact Nat.le_of_lt ((h.work hwork).2 hstopped).2
  | database _ => exact Nat.le_refl _

/-! ## The job is started once at a time -/

/-- What holds of the system at any time: the thread is in `run` only while the scheduler counts the
job as outstanding. -/
structure ContentSystem.Sound (system : ContentSystem) : Prop where
  /-- the scheduler is sound -/
  invariant : SchedulerInvariant system.scheduler
  /-- and it does not rest -/
  progress : SchedulerProgress system.scheduler (FileContentIndexerProvider.size system.db)
  /-- the thread -/
  outstanding : system.indexer.pc = .idle ∨
    system.scheduler.threadPool = [.fileContentIndexer]

theorem WorkerStep.pc_ne_idle {env : Environment} {a b : FileContentIndexer × Database}
    {activities : List Activity} (h : WorkerStep env a activities b) : a.1.pc ≠ .idle := by
  intro hidle
  cases h <;> simp_all

/-- After an event the job is over, or it is still counted. -/
theorem ContentSystem.Sound.handle {system : ContentSystem} (h : system.Sound)
    {event : SchedulerEvent} (henabled : system.scheduler.Enabled event) :
    (system.indexer.handle event).pc = .idle ∨
      event.outstanding system.scheduler.threadPool = [.fileContentIndexer] := by
  rcases h.outstanding with hidle | hpool
  · rcases system.indexer.handle_cases event with heq | heq
    · exact Or.inl (by rw [heq, hidle])
    · exact Or.inl (by rw [heq])
  · cases event with
    | done runnable =>
      have hmem : runnable ∈ system.scheduler.threadPool := henabled
      rw [hpool] at hmem
      obtain rfl := List.mem_singleton.mp hmem
      exact Or.inl rfl
    | _ => exact Or.inr hpool

/-- **The job is started only when the thread is not in `run`.** -/
theorem ContentSystem.Sound.starts_once {system : ContentSystem} (h : system.Sound)
    {event : SchedulerEvent} (henabled : system.scheduler.Enabled event)
    (hstart : .fileContentIndexer ∈ started (system.scheduler.deliver
      (FileContentIndexerProvider.size system.db) event).2) :
    (system.indexer.handle event).pc = .idle := by
  have hevent := h.invariant.deliver h.progress henabled
  refine (h.handle henabled).resolve_right fun hpool => ?_
  have hone := hevent.invariant.atMostOne
  rw [hevent.threadPool, hpool, (hevent.started _ hstart).1] at hone
  exact absurd hone (by decide)

theorem ContentSystem.Sound.step {env : Environment} {admits : Pc → Prop}
    {a b : ContentSystem × List Activity} (h : a.1.Sound) (hstep : SystemStep env admits a b) :
    b.1.Sound := by
  cases hstep with
  | @deliver s s' indexer db trace effects event henabled hready hdeliver hquit =>
    have hevent := h.invariant.deliver h.progress henabled
    have honce := h.starts_once henabled
    rw [hdeliver] at hevent honce
    refine ⟨hevent.invariant, hevent.progress, ?_⟩
    rcases Classical.em (.fileContentIndexer ∈ started effects) with hstart | hstart
    · -- the job has been started, and it is the only one
      have hone := (hevent.started _ hstart).1
      have hatMostOne := hevent.invariant.atMostOne
      rw [hevent.threadPool, hone, List.length_append] at hatMostOne
      have hnil : event.outstanding s.threadPool = [] :=
        List.eq_nil_of_length_eq_zero (by simpa using hatMostOne)
      exact Or.inr (by rw [hevent.threadPool, hone, hnil]; rfl)
    · rw [receive_pc fun hmem => hstart (mem_started.mpr hmem)]
      refine (h.handle henabled).imp_right fun hpool => ?_
      have hatMostOne := hevent.invariant.atMostOne
      rw [hevent.threadPool, hpool, List.singleton_append, List.length_cons] at hatMostOne
      have hnil : started effects = [] :=
        List.eq_nil_of_length_eq_zero (Nat.le_zero.mp (Nat.le_of_succ_le_succ hatMostOne))
      rw [hevent.threadPool, hpool, hnil]
      rfl
  | @work s indexer indexer' db db' trace activities hwork =>
    have hpool : s.threadPool = [.fileContentIndexer] := h.outstanding.resolve_left hwork.pc_ne_idle
    exact ⟨h.invariant, ⟨h.progress.goingIdle, fun hempty =>
      absurd (hpool.symm.trans hempty) (List.cons_ne_nil _ _)⟩, Or.inr hpool⟩
  | database db' hdatabase =>
    exact ⟨h.invariant, ⟨h.progress.goingIdle, fun hpool hsome => h.progress.pending hpool
      (FileIndexScheduler.next_mono (hdatabase hpool) (fun _ => id) rfl hsome)⟩, h.outstanding⟩

/-! ## A request that is lost -/

/-- The extractor may do anything. -/
def anyExtractor : Environment := ⟨fun _ _ _ _ _ => True, fun _ => True⟩

/-- A scheduler that has finished startup, on mains power and without housekeeping. -/
def readyScheduler : FileIndexScheduler :=
  { isFirstRun := false, inStartup := false, isOnBattery := false, checkStaleIndexEntries := false }

/-- The scheduler has started the content indexer. -/
def startedScheduler : FileIndexScheduler :=
  { readyScheduler with
    threadPool := [.fileContentIndexer], indexerState := .contentIndexing, singleShots := 1 }

/-- The computer starts on mains power, entries without files are cleaned up, and the content indexer
is started for one document. -/
theorem run_start (admits : Pc → Prop) :
    Relation.ReflTransGen (SystemStep anyExtractor admits) (.initial false 40 oneWaits, [])
      (⟨startedScheduler, ⟨40, false, .queued⟩, oneWaits⟩, [.start]) := by
  let indexer : FileContentIndexer := ⟨40, false, .idle⟩
  let booted : FileIndexScheduler := { isFirstRun := false, inStartup := false, singleShots := 1 }
  let cleaning : FileIndexScheduler := { readyScheduler with
    threadPool := [.indexCleaner], indexerState := .staleIndexEntriesClean, singleShots := 1 }
  let cleaned : FileIndexScheduler := { readyScheduler with
    isGoingIdle := true, indexerState := .staleIndexEntriesClean, singleShots := 2 }
  have hsize : FileContentIndexerProvider.size oneWaits = 1 := by decide
  have hpower : booted.deliver (FileContentIndexerProvider.size oneWaits)
      (.powerSaveStatusChanged false) =
      (cleaning, [.start .indexCleaner, .stateChanged .staleIndexEntriesClean]) := rfl
  have htimeout : cleaned.deliver (FileContentIndexerProvider.size oneWaits) .timeout =
      (startedScheduler, [.start .fileContentIndexer, .stateChanged .contentIndexing]) := by
    rw [hsize]
    rfl
  have h₁ : SystemStep anyExtractor admits (.initial false 40 oneWaits, [])
      (⟨booted, indexer, oneWaits⟩, []) := .deliver .startupFinished trivial trivial rfl nofun
  have h₂ : SystemStep anyExtractor admits (⟨booted, indexer, oneWaits⟩, [])
      (⟨cleaning, indexer, oneWaits⟩, []) :=
    .deliver (.powerSaveStatusChanged false) trivial trivial hpower (by simp)
  have h₃ : SystemStep anyExtractor admits (⟨cleaning, indexer, oneWaits⟩, [])
      (⟨cleaned, indexer, oneWaits⟩, []) :=
    .deliver (.done .indexCleaner) (List.mem_singleton.mpr rfl) trivial rfl nofun
  have h₄ : SystemStep anyExtractor admits (⟨cleaned, indexer, oneWaits⟩, [])
      (⟨startedScheduler, ⟨40, false, .queued⟩, oneWaits⟩, [.start]) :=
    .deliver (s := cleaned) .timeout Nat.two_pos trivial htimeout (by simp)
  exact .tail (.tail (.tail (.tail .refl h₁) h₂) h₃) h₄

/-- The power management reports the battery, and the content indexer is asked to stop. -/
theorem step_battery (admits : Pc → Prop) {pc : Pc} (hpc : admits pc) (stop : Bool)
    (trace : List Activity) :
    SystemStep anyExtractor admits (⟨startedScheduler, ⟨40, stop, pc⟩, oneWaits⟩, trace)
      (⟨{ startedScheduler with isOnBattery := true }, ⟨40, true, pc⟩, oneWaits⟩,
        trace ++ [.quit]) :=
  .deliver (.powerSaveStatusChanged true) trivial trivial rfl fun _ => hpc

/-- The computer goes on battery while the content indexer is at the head of its loop: the next step
of the thread starts no batch. -/
theorem stop_request_heeded_battery : ∃ (system : ContentSystem) (trace : List Activity),
    Stopped trace ∧ 0 < system.indexer.pc.remaining ∧
    ∀ activities indexer' db',
      WorkerStep anyExtractor (system.indexer, system.db) activities (indexer', db') →
        ∀ idList, .index idList ∉ activities := by
  let system : ContentSystem :=
    ⟨{ startedScheduler with isOnBattery := true }, ⟨40, true, .fetching 40⟩, oneWaits⟩
  have hbegin : WorkerStep anyExtractor (⟨40, false, .queued⟩, oneWaits) []
      (⟨40, false, .fetching 40⟩, oneWaits) := .begin rfl
  have hrun : Relation.ReflTransGen (SystemStep anyExtractor fun pc => pc.heeds = true)
      (.initial false 40 oneWaits, []) (system, [.start, .quit]) :=
    .tail (.tail (run_start _) (.work hbegin)) (step_battery _ (by rfl) false [.start])
  have hstopped : Stopped [.start, .quit] := ⟨[.start], .quit, [], rfl, rfl, nofun⟩
  have hextracts : ∀ db idList, ∃ ids db' hadErrors,
      anyExtractor.extracts db idList ids db' hadErrors := fun db _ => ⟨[], db, true, trivial⟩
  refine ⟨system, _, hstopped, Nat.two_pos, fun activities indexer' db' hwork => ?_⟩
  exact ((stop_request_heeded hextracts hrun hstopped).1 activities indexer' db' hwork).1

/-- **A request that comes before `run` has begun is lost**: the computer goes on battery, the
content indexer is asked to stop, and then its thread begins, clears the flag and starts a batch. -/
theorem early_request_lost : ∃ system system' : ContentSystem,
    Relation.ReflTransGen (SystemStep anyExtractor fun _ => True)
      (.initial false 40 oneWaits, []) (system, [.start, .quit, .fetch 40]) ∧
    Stopped [.start, .quit, .fetch 40] ∧
    SystemStep anyExtractor (fun _ => True) (system, [.start, .quit, .fetch 40])
      (system', [.start, .quit, .fetch 40, .index [7]]) := by
  let system (pc : Pc) : ContentSystem :=
    ⟨{ startedScheduler with isOnBattery := true }, ⟨40, false, pc⟩, oneWaits⟩
  have hbegin : WorkerStep anyExtractor (⟨40, true, .queued⟩, oneWaits) []
      (⟨40, false, .fetching 40⟩, oneWaits) := .begin rfl
  have hfetch : WorkerStep anyExtractor (⟨40, false, .fetching 40⟩, oneWaits) [.fetch 40]
      (⟨40, false, .checking [7]⟩, oneWaits) := .fetch 40 rfl
  have hcheck : WorkerStep anyExtractor (⟨40, false, .checking [7]⟩, oneWaits) []
      (⟨40, false, .indexing [7]⟩, oneWaits) := .check [7] rfl
  have hindex : WorkerStep anyExtractor (⟨40, false, .indexing [7]⟩, oneWaits) [.index [7]]
      (⟨40, false, .waiting [7]⟩, oneWaits) := .index [7] rfl
  have hrun : Relation.ReflTransGen (SystemStep anyExtractor fun _ => True)
      (.initial false 40 oneWaits, []) (system (.indexing [7]), [.start, .quit, .fetch 40]) :=
    .tail (.tail (.tail (.tail (run_start _) (step_battery _ trivial false [.start]))
      (.work hbegin)) (.work hfetch)) (.work hcheck)
  exact ⟨system (.indexing [7]), system (.waiting [7]), hrun,
    ⟨[.start], .quit, [.fetch 40], rfl, rfl, by simp⟩, .work hindex⟩

end Baloo
