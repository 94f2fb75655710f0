import Baloo.ExtractorBatch
import Baloo.FileContentIndexer
import Baloo.Lib.Channel
import Baloo.Lib.Transition
import Mathlib.Data.Prod.Lex

/-!
# The content indexer and the extractor process

`FileContentIndexer::run` and the extractor are two processes with a pipe in each direction. The thread
gives a batch to the extractor and waits in an event loop; what the extractor writes arrives in pieces of
any size, and so do the commands. The extractor may exit with an error, and it may die at any moment:
between two calls, while it writes a message, or after a commit and before it tells so. Meanwhile other
processes change the index.

The wait is over when `batchFinished` has been heard or the process has been reported as failed; the
event loop may still deliver what it has before it returns. Starting the process is taken to succeed, and
the destructor of `ExtractorProcess` is left out.
-/

namespace Baloo

open ExtractorEffect Framing

/-! ## The extractor's side -/

/-- What an effect says over the pipe; `decodeName` is `QFile::decodeName`. -/
def ExtractorEffect.message (decodeName : QByteArray → Url) : ExtractorEffect → Option WorkerPipe.Call
  | urlStarted url => some (.urlStarted (decodeName url))
  | urlProcessed url updated status => some (.urlProcessed (decodeName url) updated status)
  | batchFinished => some .batchFinished
  | extracted _ => none
  | acted _ _ => none

/-- What has been said. -/
def told (decodeName : QByteArray → Url) (effects : List ExtractorEffect) : List WorkerPipe.Call :=
  effects.filterMap (message decodeName)

/-- The bytes of what has been said. -/
def toldBytes (decodeName : QByteArray → Url) (effects : List ExtractorEffect) : List UInt8 :=
  ((told decodeName effects).map WorkerPipe.write).flatten

/-- The effect comes before the commit of its call. -/
def ExtractorEffect.beforeCommit : ExtractorEffect → Bool
  | acted _ _ => false
  | batchFinished => false
  | _ => true

/-- The slots of `App` for the signals of its pipe. -/
def App.handle (app : App) : WorkerPipe.Signal → App
  | .newDocumentIds ids => { app with scheduled := .slotNewBatch (ids.map UInt64.toNat) }
  | .indexSpeed _ => app
  | .inputEnd => { app with scheduled := .exited 0 }

/-- The signal brings a batch. -/
def WorkerPipe.Signal.isBatch : WorkerPipe.Signal → Bool
  | .newDocumentIds _ => true
  | _ => false

/-- Something is going to run. -/
def Scheduled.isActive : Scheduled → Bool
  | .slotNewBatch _ => true
  | .processNextFile => true
  | _ => false

/-- How a process has ended: `QProcess::ExitStatus` and the exit code. -/
inductive Ending where
  | normalExit (exitCode : ℕ)
  | crashExit
  deriving DecidableEq

/-- The slot for `QProcess::finished`: whether `failed` is emitted. -/
def Ending.failed : Ending → Bool
  | .crashExit => true
  | .normalExit exitCode =>
    exitCode = 1 || exitCode = 2 || exitCode = 3 || exitCode = 253 || exitCode ≠ 0

/-- The end of a process that exits. -/
def Scheduled.ending : Scheduled → Option Ending
  | .exited code => some (.normalExit code)
  | _ => none

/-- `ExtractorProcess`: the process, and the pipes to and from it. -/
structure ExtractorProcess where
  app : App := { scheduled := .nothing }
  ending : Option Ending := none
  /-- `QProcess::finished` has been emitted -/
  reported : Bool := false
  /-- the standard input of the process -/
  commands : Channel UInt8 := {}
  /-- its standard output -/
  status : Channel UInt8 := {}

/-! ## Both sides -/

/-- The content indexer's thread, the index, and the extractor. -/
structure Conversation where
  indexer : FileContentIndexer
  db : Database
  process : ExtractorProcess := {}
  /-- `loop.quit()` has been called for `done` -/
  quits : Bool := false
  hadErrors : Bool := false
  /-- what has been signalled since the batch was given to the extractor -/
  heard : List ControllerPipe.Signal := []
  /-- what the extractor has done since -/
  effects : List ExtractorEffect := []
  /-- a batch has come to an extractor that was at work on another one -/
  overlapped : Bool := false

namespace Conversation

/-- `process.setIndexFast(fast)` and `process.index(ids)` -/
def index (s : Conversation) (fast : Bool) (ids : Ids) : Conversation :=
  { s with
    indexer := { s.indexer with pc := .waiting (ids.1.map UInt64.toNat) }
    process := { s.process with
      commands := s.process.commands.write
        (([.setIndexSpeed (if fast then .fast else .slow), .processIds ids] : List ControllerPipe.Call).map
          ControllerPipe.write).flatten }
    quits := false, hadErrors := false, heard := [], effects := [] }

/-- `process.setIndexFast(fast)` -/
def setIndexFast (s : Conversation) (fast : Bool) : Conversation :=
  { s with
    process := { s.process with
      commands := s.process.commands.write
        (([.setIndexSpeed (if fast then .fast else .slow)] : List ControllerPipe.Call).map
          ControllerPipe.write).flatten } }

/-- `WorkerPipe::processIdData`, and the slots of its signals. -/
def takeCommands (s : Conversation) (piece rest : List UInt8) : Conversation :=
  let r := s.process.commands.arrive WorkerPipe.processIdData piece rest
  let app := r.1.foldl App.handle s.process.app
  { s with
    process := { s.process with app := app, ending := app.scheduled.ending, commands := r.2 }
    overlapped := s.overlapped || (r.1.any WorkerPipe.Signal.isBatch && s.process.app.scheduled ≠ .nothing) ||
      1 < r.1.countP WorkerPipe.Signal.isBatch }

/-- A call of the extractor. -/
def run (decodeName : QByteArray → Url) (s : Conversation) (c : Call) : Conversation :=
  let r := s.process.app.run c s.db
  { s with
    db := r.2.1
    process := { s.process with
      app := r.1, ending := r.1.scheduled.ending
      status := s.process.status.write (toldBytes decodeName r.2.2) }
    effects := s.effects ++ r.2.2 }

/-- The extractor dies between two calls. -/
def die (s : Conversation) : Conversation :=
  { s with process := { s.process with ending := some .crashExit } }

/-- The extractor dies in a call, before the commit, when it has written these bytes. -/
def dieEarly (s : Conversation) (c : Call) (bytes : List UInt8) : Conversation :=
  { s with
    process := { s.process with
      ending := some .crashExit, status := s.process.status.write bytes }
    effects := s.effects ++ (s.process.app.run c s.db).2.2.filter beforeCommit }

/-- The extractor dies in a call, after the commit, and does not tell that the batch is finished. -/
def dieLate (decodeName : QByteArray → Url) (s : Conversation) (c : Call) : Conversation :=
  let r := s.process.app.run c s.db
  let effects := r.2.2.filter fun effect => !finishes effect
  { s with
    db := r.2.1
    process := { s.process with
      ending := some .crashExit, status := s.process.status.write (toldBytes decodeName effects) }
    effects := s.effects ++ effects }

/-- `ControllerPipe::processStatusData`, and the slot for `done`. -/
def hear (s : Conversation) (piece rest : List UInt8) : Conversation :=
  let r := s.process.status.arrive ControllerPipe.processStatusData piece rest
  { s with
    process := { s.process with status := r.2 }
    heard := s.heard ++ r.1
    quits := s.quits || r.1.contains .batchFinished }

/-- `QProcess::finished`, and the slot for `failed`. -/
def report (s : Conversation) (ending : Ending) : Conversation :=
  { s with process := { s.process with reported := true }, hadErrors := s.hadErrors || ending.failed }

end Conversation

/-- The environment of a thread that is at work without the extractor. -/
def withoutExtractor : Environment where
  extracts _ _ _ _ _ := False
  commits _ := True

/-- At this place the thread uses the process. -/
def Pc.usesProcess (stop : Bool) : Pc → Bool
  | .queued => true
  | .indexing _ => true
  | .waiting _ => true
  | .finished _ hadErrors => hadErrors && !stop
  | _ => false

/-- What the two processes do for a batch. -/
inductive ExchangeStep (decodeName : QByteArray → Url) : Conversation → Conversation → Prop
  /-- commands arrive at the extractor -/
  | takeCommands {s : Conversation} (piece rest : List UInt8) :
    s.process.ending = none → s.process.commands.pipe = piece ++ rest → piece ≠ [] →
    ExchangeStep decodeName s (s.takeCommands piece rest)
  /-- what the extractor has scheduled runs -/
  | run {s : Conversation} (c : Call) :
    s.process.ending = none → s.process.app.scheduled.isActive = true →
    ExchangeStep decodeName s (s.run decodeName c)
  /-- a status arrives at the event loop -/
  | hear {s : Conversation} {idList : List DocId} (piece rest : List UInt8) :
    s.indexer.pc = .waiting idList → s.process.status.pipe = piece ++ rest → piece ≠ [] →
    ExchangeStep decodeName s (s.hear piece rest)
  /-- the end of the process is reported to the event loop -/
  | report {s : Conversation} {idList : List DocId} (ending : Ending) :
    s.indexer.pc = .waiting idList → s.process.ending = some ending → s.process.reported = false →
    ExchangeStep decodeName s (s.report ending)

/-- The steps of the system. -/
inductive ConversationStep (decodeName : QByteArray → Url) : Conversation → Conversation → Prop
  | exchange {s s' : Conversation} : ExchangeStep decodeName s s' → ConversationStep decodeName s s'
  | die {s : Conversation} : s.process.ending = none → ConversationStep decodeName s s.die
  | dieEarly {s : Conversation} (c : Call) (bytes : List UInt8) :
    s.process.ending = none → s.process.app.scheduled.isActive = true →
    bytes <+: toldBytes decodeName ((s.process.app.run c s.db).2.2.filter beforeCommit) →
    ConversationStep decodeName s (s.dieEarly c bytes)
  | dieLate {s : Conversation} (c : Call) :
    s.process.ending = none → s.process.app.scheduled.isActive = true →
    ConversationStep decodeName s (s.dieLate decodeName c)
  /-- another process changes the index -/
  | database {s : Conversation} (db : Database) : ConversationStep decodeName s { s with db := db }
  /-- the session has become idle or busy: `indexSpeedChanged` -/
  | setIndexFast {s : Conversation} {idList : List DocId} (fast : Bool) :
    s.indexer.pc = .waiting idList → ConversationStep decodeName s (s.setIndexFast fast)
  /-- the scheduler starts the job -/
  | start {s : Conversation} : s.indexer.pc = .idle →
    ConversationStep decodeName s { s with indexer := { s.indexer with pc := .queued } }
  /-- the scheduler gets the signal `done` of the job -/
  | ended {s : Conversation} : s.indexer.pc = .done →
    ConversationStep decodeName s { s with indexer := { s.indexer with pc := .idle } }
  /-- the scheduler asks the job to stop -/
  | quit {s : Conversation} : ConversationStep decodeName s { s with indexer := s.indexer.quit }
  /-- the thread takes a step without the process -/
  | thread {s : Conversation} {activities : List Activity} {indexer' : FileContentIndexer} {db' : Database} :
    s.indexer.pc.usesProcess s.indexer.stop = false →
    WorkerStep withoutExtractor (s.indexer, s.db) activities (indexer', db') →
    ConversationStep decodeName s { s with indexer := indexer', db := db' }
  /-- the head of `run`: there is a new process -/
  | begin {s : Conversation} {activities : List Activity} {indexer' : FileContentIndexer} {db' : Database} :
    s.indexer.pc = .queued →
    WorkerStep withoutExtractor (s.indexer, s.db) activities (indexer', db') →
    ConversationStep decodeName s { s with indexer := indexer', db := db', process := {} }
  /-- the batch is given to the process -/
  | index {s : Conversation} (fast : Bool) (ids : Ids) :
    s.indexer.pc = .indexing (ids.1.map UInt64.toNat) →
    ConversationStep decodeName s (s.index fast ids)
  /-- `loop.exec()` returns -/
  | leave {s : Conversation} {idList : List DocId} :
    s.indexer.pc = .waiting idList → s.quits = true ∨ s.hadErrors = true →
    ConversationStep decodeName s
      { s with indexer := { s.indexer with pc := .finished idList s.hadErrors } }
  /-- the batch is halved or its document marked as failed, and `process.start()` -/
  | restart {s : Conversation} {idList : List DocId} {activities : List Activity}
    {indexer' : FileContentIndexer} {db' : Database} :
    s.indexer.pc = .finished idList true → s.indexer.stop = false →
    WorkerStep withoutExtractor (s.indexer, s.db) activities (indexer', db') →
    ConversationStep decodeName s { s with indexer := indexer', db := db', process := {} }

/-- A state that the system can come to. -/
def Conversation.Reached (decodeName : QByteArray → Url) (s : Conversation) : Prop :=
  ∃ indexer db, indexer.pc = .idle ∧
    Relation.ReflTransGen (ConversationStep decodeName) { indexer := indexer, db := db } s

/-! ## The extractor at work -/

/-- The batch that a command gives to the extractor. -/
def ControllerPipe.Call.batch : ControllerPipe.Call → Option (List DocId)
  | .processIds ids => some (ids.1.map UInt64.toNat)
  | .setIndexSpeed _ => none

/-- What has been done of a batch, as far as it can be told. -/
structure Account (idList : List DocId) (effects : List ExtractorEffect) : Prop where
  extracted : ∀ x, effects.countP (extracts x) ≤ idList.count x
  acted : ∀ x, effects.countP (acts x) ≤ idList.count x
  finished : batchFinished ∈ effects → ∀ x, effects.countP (acts x) = idList.count x
  /-- nothing comes after the report -/
  last : ∀ pre post, effects = pre ++ batchFinished :: post → post = []

/-- An extractor that has read the batch. -/
structure Engaged (idList : List DocId) (effects : List ExtractorEffect) (app : App) : Prop where
  counted : App.Counted idList effects app
  batch : app.scheduled = .nothing → app.batch = []
  code : ∀ code, app.scheduled = .exited code → code ≠ 0

/-- An extractor that has got the batch: it is going to read it, or has done so. -/
def Working (idList : List DocId) (effects : List ExtractorEffect) (app : App) : Prop :=
  app.scheduled = .slotNewBatch idList ∧ app.batch = [] ∧ effects = [] ∨ Engaged idList effects app

theorem finishes_iff {effect : ExtractorEffect} : finishes effect = true ↔ effect = batchFinished := by
  cases effect <;> simp [finishes]

section

variable {idList : List DocId} {effects : List ExtractorEffect} {app : App} {c : Call} {db : Database}

theorem Account.nil (idList : List DocId) : Account idList [] where
  extracted _ := Nat.zero_le _
  acted _ := Nat.zero_le _
  finished h := absurd h List.not_mem_nil
  last pre post h := absurd h.symm (List.append_ne_nil_of_right_ne_nil pre (List.cons_ne_nil _ _))

/-- The batch has not been reported as finished. -/
theorem Account.open {effects : List ExtractorEffect} (hextracted : ∀ x, effects.countP (extracts x) ≤ idList.count x)
    (hacted : ∀ x, effects.countP (acts x) ≤ idList.count x) (h : batchFinished ∉ effects) :
    Account idList effects where
  extracted := hextracted
  acted := hacted
  finished hmem := absurd hmem h
  last pre post heq := absurd (heq ▸ List.mem_append_right pre List.mem_cons_self) h

theorem Engaged.notMem (h : Engaged idList effects app) (hne : app.scheduled ≠ .nothing) :
    batchFinished ∉ effects := by
  have hfinished := h.counted.finished
  rw [if_neg hne, List.countP_eq_zero] at hfinished
  exact fun hmem => hfinished _ hmem rfl

/-- What a call of `processNextFile` tells: that the batch is finished, if at all, comes last. -/
theorem processNextFile_effects (c : Call) (app : App) (db : Database) :
    ∃ pre, batchFinished ∉ pre ∧ ((app.processNextFile c db).2.2 = pre ∨
      (app.processNextFile c db).2.2 = pre ++ [batchFinished]) := by
  have hcases := App.processNextFile_cases c app db
  have hlooked := (App.indexNext_looked c.env app.batch).quiet 0
  dsimp only at hcases
  generalize App.indexNext c.env app.batch = next at hcases hlooked
  have hwrote := (App.writeAll_wrote { dbis := db } next.1).quiet 0
  generalize App.writeAll { dbis := db } next.1 = r at hcases hwrote
  have hnext : batchFinished ∉ next.2 := fun hmem => List.countP_eq_zero.mp hlooked.2 _ hmem rfl
  have hboth : batchFinished ∉ next.2 ++ r.2.2 := fun hmem =>
    (List.mem_append.mp hmem).elim hnext fun hmem => List.countP_eq_zero.mp hwrote.2 _ hmem rfl
  rcases hcases with ⟨-, heq⟩ | ⟨-, heq⟩ | ⟨code, heq⟩ | ⟨-, heq⟩ | ⟨-, heq⟩
  · exact ⟨next.2, hnext, .inl (by rw [heq])⟩
  · exact ⟨next.2, hnext, .inl (by rw [heq])⟩
  · exact ⟨next.2, hnext, .inl (by rw [heq])⟩
  · exact ⟨next.2 ++ r.2.2, hboth, .inl (by rw [heq])⟩
  · exact ⟨next.2 ++ r.2.2, hboth, .inr (by rw [heq])⟩

/-- The process exits with an error, and forgets its batch when it is done with it. -/
theorem processNextFile_end (c : Call) (app : App) (db : Database) (h : app.scheduled = .processNextFile) :
    ((app.processNextFile c db).1.scheduled = .nothing → (app.processNextFile c db).1.batch = []) ∧
      ∀ code, (app.processNextFile c db).1.scheduled = .exited code → code ≠ 0 := by
  rw [App.processNextFile]
  dsimp only
  split_ifs <;> simp [h]

theorem slotNewBatch_code {ids : List DocId} {code : ℕ}
    (h : (app.slotNewBatch c db ids).scheduled = .exited code) : code ≠ 0 := by
  rw [App.slotNewBatch] at h
  split_ifs at h <;> cases h <;> decide

theorem slotNewBatch_scheduled (app : App) (c : Call) (db : Database) (ids : List DocId) :
    (app.slotNewBatch c db ids).scheduled = .processNextFile ∨
      (∃ code, (app.slotNewBatch c db ids).scheduled = .exited code) ∨
      (app.slotNewBatch c db ids).scheduled = .slotNewBatch ids ∧
        (app.slotNewBatch c db ids).batch = app.batch := by
  rw [App.slotNewBatch]
  split_ifs <;> simp

/-- One call. -/
theorem Working.run (h : Working idList effects app) (c : Call) (db : Database) :
    Working idList (effects ++ (app.run c db).2.2) (app.run c db).1 := by
  rcases h with ⟨hscheduled, hbatch, rfl⟩ | h
  · have hrun : app.run c db = (app.slotNewBatch c db idList, db, []) := by rw [App.run, hscheduled]
    rw [hrun]
    rcases slotNewBatch_scheduled app c db idList with hread | ⟨code, hexited⟩ | ⟨hagain, hsame⟩
    · refine .inr ⟨App.counted_read hbatch hread, fun heq => ?_, fun code heq => ?_⟩
      · exact Scheduled.noConfusion (hread.symm.trans heq)
      · exact Scheduled.noConfusion (hread.symm.trans heq)
    · refine .inr ⟨?_, fun heq => Scheduled.noConfusion (hexited.symm.trans heq), fun _ => slotNewBatch_code⟩
      exact
        { extracted := fun _ => Nat.zero_le _
          acted := fun _ => Nat.zero_le _
          running := fun heq => Scheduled.noConfusion (hexited.symm.trans heq)
          finished := by rw [if_neg fun heq => Scheduled.noConfusion (hexited.symm.trans heq)]; rfl
          all := fun heq => Scheduled.noConfusion (hexited.symm.trans heq)
          started := fun _ heq => Scheduled.noConfusion (hexited.symm.trans heq) }
    · exact .inl ⟨hagain, hsame.trans hbatch, rfl⟩
  · refine .inr ⟨h.counted.run c db, ?_, ?_⟩
    all_goals
      rw [App.run]
      split
    · next heq => exact absurd heq (h.counted.started _)
    · next heq => exact (processNextFile_end c app db heq).1
    · exact h.batch
    · exact h.batch
    · next heq => exact absurd heq (h.counted.started _)
    · next heq => exact (processNextFile_end c app db heq).2
    · exact h.code
    · exact h.code

/-- Before a call the batch has not been reported as finished. -/
theorem Working.notMem (h : Working idList effects app) (hactive : app.scheduled.isActive = true) :
    batchFinished ∉ effects := by
  rcases h with ⟨-, -, rfl⟩ | h
  · exact List.not_mem_nil
  · refine h.notMem fun heq => ?_
    rw [heq] at hactive
    cases hactive

theorem Working.bounded (h : Working idList effects app) :
    (∀ x, effects.countP (extracts x) ≤ idList.count x) ∧ ∀ x, effects.countP (acts x) ≤ idList.count x := by
  rcases h with ⟨-, -, rfl⟩ | h
  · exact ⟨fun _ => Nat.zero_le _, fun _ => Nat.zero_le _⟩
  · exact ⟨h.counted.extracted, h.counted.acted⟩

/-- What a call tells. -/
theorem run_effects (c : Call) (app : App) (db : Database) :
    ∃ pre, batchFinished ∉ pre ∧
      ((app.run c db).2.2 = pre ∨ (app.run c db).2.2 = pre ++ [batchFinished]) := by
  rw [App.run]
  split
  · exact ⟨[], List.not_mem_nil, .inl rfl⟩
  · exact processNextFile_effects c app db
  · exact ⟨[], List.not_mem_nil, .inl rfl⟩
  · exact ⟨[], List.not_mem_nil, .inl rfl⟩

/-- The account after a call. -/
theorem Working.account (h : Working idList effects app) (hactive : app.scheduled.isActive = true)
    (c : Call) (db : Database) : Account idList (effects ++ (app.run c db).2.2) := by
  have hbefore := h.notMem hactive
  have hafter := h.run c db
  obtain ⟨pre, hpre, hnew⟩ := run_effects c app db
  have hnone : batchFinished ∉ effects ++ pre := fun hmem => (List.mem_append.mp hmem).elim hbefore hpre
  refine ⟨hafter.bounded.1, hafter.bounded.2, fun hmem => ?_, fun front back heq => ?_⟩
  · -- the extractor is done
    rcases hafter with ⟨-, -, hnil⟩ | hengaged
    · rw [hnil] at hmem
      exact absurd hmem List.not_mem_nil
    · refine hengaged.counted.all (of_not_not fun hne => hengaged.notMem hne hmem)
  · rcases hnew with hnew | hnew
    · rw [hnew] at heq
      exact absurd (heq ▸ List.mem_append_right front List.mem_cons_self) hnone
    · rw [hnew, ← List.append_assoc] at heq
      rcases List.eq_nil_or_concat back with rfl | ⟨back, effect, rfl⟩
      · rfl
      · rw [List.concat_eq_append, ← List.cons_append, ← List.append_assoc] at heq
        have hfront := List.append_inj_left' heq rfl
        exact absurd (hfront ▸ List.mem_append_right front List.mem_cons_self) hnone

/-- The account when the extractor dies in a call. -/
theorem Working.died (h : Working idList effects app) (hactive : app.scheduled.isActive = true)
    (c : Call) (db : Database) {p : ExtractorEffect → Bool} (hp : p batchFinished = false) :
    Account idList (effects ++ (app.run c db).2.2.filter p) := by
  have hafter := (h.run c db).bounded
  have hsub : (effects ++ (app.run c db).2.2.filter p).Sublist (effects ++ (app.run c db).2.2) :=
    (List.append_sublist_append_left _).mpr List.filter_sublist
  refine .open (fun x => hsub.countP_le.trans (hafter.1 x)) (fun x => hsub.countP_le.trans (hafter.2 x)) ?_
  intro hmem
  rcases List.mem_append.mp hmem with hmem | hmem
  · exact h.notMem hactive hmem
  · rw [List.mem_filter, hp] at hmem
    exact Bool.false_ne_true hmem.2

end

/-! ## The invariant -/

/-- A process that can take a batch. It may have died already, if that has not been reported. -/
structure ExtractorProcess.Resting (p : ExtractorProcess) : Prop where
  status : p.status.Carries WorkerPipe.write []
  commands : ∃ calls, p.commands.Carries ControllerPipe.write calls ∧
    calls.filterMap ControllerPipe.Call.batch = []
  reported : p.reported = false
  ended : ∀ ending, p.ending = some ending → ending.failed = true
  idle : p.ending = none → p.app.scheduled = .nothing ∧ p.app.batch = []

/-- A process that has ended with an error. -/
def ExtractorProcess.Failed (p : ExtractorProcess) : Prop :=
  ∃ ending, p.ending = some ending ∧ ending.failed = true

namespace Conversation

/-- What has been heard and what is still under way is what has been told. -/
structure Hears (decodeName : QByteArray → Url) (s : Conversation) (unread : List WorkerPipe.Call) :
    Prop where
  part : s.process.status.CarriesPart WorkerPipe.write unread
  whole : s.process.ending = none → s.process.status.Carries WorkerPipe.write unread
  all : s.heard ++ unread.map ControllerPipe.signal = (told decodeName s.effects).map ControllerPipe.signal
  quits : s.quits = s.heard.contains .batchFinished

/-- Where the batch is: in the pipe, or with the extractor. -/
def Handed (s : Conversation) (idList : List DocId) (calls : List ControllerPipe.Call) : Prop :=
  calls.filterMap ControllerPipe.Call.batch = [idList] ∧ s.effects = [] ∧
      (s.process.ending = none → s.process.app.scheduled = .nothing ∧ s.process.app.batch = []) ∨
    calls.filterMap ControllerPipe.Call.batch = [] ∧
      (s.process.ending = none → Working idList s.effects s.process.app)

/-- The thread waits for the extractor. -/
structure Waiting (decodeName : QByteArray → Url) (s : Conversation) (idList : List DocId) : Prop where
  hears : ∃ unread, Hears decodeName s unread
  account : Account idList s.effects
  ended : ∀ ending, s.process.ending = some ending → ending.failed = true
  hadErrors : s.hadErrors = s.process.reported
  reported : s.process.reported = true → s.process.ending ≠ none
  alive : s.process.ending = none → s.process.app.scheduled.ending = none
  commands : ∃ calls, s.process.commands.Carries ControllerPipe.write calls ∧ s.Handed idList calls

/-- The batch is finished, and all has been heard. -/
def Finished (decodeName : QByteArray → Url) (s : Conversation) (idList : List DocId) : Prop :=
  (∀ x, s.effects.countP (acts x) = idList.count x) ∧
    s.heard = (told decodeName s.effects).map ControllerPipe.signal

/-- What holds at each place of the thread. -/
def Holds (decodeName : QByteArray → Url) (s : Conversation) : Pc → Prop
  | .waiting idList => s.Waiting decodeName idList
  | .finished _ true => s.process.Failed
  | .finished idList false => s.process.Resting ∧ s.Finished decodeName idList
  | .indexing _ => s.process.Resting
  | .fetching _ => s.process.Resting ∨ s.indexer.stop = true ∧ s.process.Failed
  | .checking _ => s.process.Resting ∨ s.indexer.stop = true ∧ s.process.Failed
  | _ => s.process.Resting ∨ s.process.Failed

/-- The invariant. -/
def Inv (decodeName : QByteArray → Url) (s : Conversation) : Prop :=
  s.overlapped = false ∧ s.Holds decodeName s.indexer.pc

end Conversation

/-! ## Commands -/

theorem told_append (decodeName : QByteArray → Url) (effects effects' : List ExtractorEffect) :
    told decodeName (effects ++ effects') = told decodeName effects ++ told decodeName effects' :=
  List.filterMap_append

/-- The signals of commands without a batch change nothing. -/
theorem foldl_handle_nil {calls : List ControllerPipe.Call} (app : App)
    (h : calls.filterMap ControllerPipe.Call.batch = []) :
    (calls.map WorkerPipe.signal).foldl App.handle app = app := by
  induction calls with
  | nil => rfl
  | cons call calls ih =>
    cases call with
    | processIds ids => cases h
    | setIndexSpeed speed => exact ih h

/-- The batch is scheduled. -/
theorem foldl_handle_singleton {calls : List ControllerPipe.Call} {idList : List DocId} (app : App)
    (h : calls.filterMap ControllerPipe.Call.batch = [idList]) :
    (calls.map WorkerPipe.signal).foldl App.handle app = { app with scheduled := .slotNewBatch idList } := by
  induction calls with
  | nil => cases h
  | cons call calls ih =>
    cases call with
    | processIds ids =>
      obtain ⟨rfl, hnone⟩ := List.cons.inj h
      exact foldl_handle_nil _ hnone
    | setIndexSpeed speed => exact ih h

theorem countP_isBatch (calls : List ControllerPipe.Call) :
    (calls.map WorkerPipe.signal).countP WorkerPipe.Signal.isBatch =
      (calls.filterMap ControllerPipe.Call.batch).length := by
  induction calls with
  | nil => rfl
  | cons call calls ih =>
    cases call with
    | processIds ids =>
      rw [List.map_cons, List.countP_cons, ih]
      rfl
    | setIndexSpeed speed =>
      rw [List.map_cons, List.countP_cons, ih]
      rfl

theorem any_isBatch_eq_false {calls : List ControllerPipe.Call}
    (h : calls.filterMap ControllerPipe.Call.batch = []) :
    (calls.map WorkerPipe.signal).any WorkerPipe.Signal.isBatch = false := by
  have hcount := countP_isBatch calls
  rw [h, List.length_nil, List.countP_eq_zero] at hcount
  rw [List.any_eq_false]
  exact hcount

namespace Conversation

variable {decodeName : QByteArray → Url} {s : Conversation} {idList : List DocId}
  {calls : List ControllerPipe.Call} {piece rest : List UInt8}

/-- Commands arrive that bring no batch. -/
theorem takeCommands_nil {taken : List ControllerPipe.Call}
    (hsignals : (s.process.commands.arrive WorkerPipe.processIdData piece rest).1 =
      taken.map WorkerPipe.signal)
    (h : taken.filterMap ControllerPipe.Call.batch = []) :
    s.takeCommands piece rest =
      { s with process := { s.process with
          ending := s.process.app.scheduled.ending
          commands := (s.process.commands.arrive WorkerPipe.processIdData piece rest).2 } } := by
  have hcount : ¬ 1 < (taken.map WorkerPipe.signal).countP WorkerPipe.Signal.isBatch := by
    rw [countP_isBatch, h]
    decide
  rw [takeCommands]
  dsimp only
  rw [hsignals, foldl_handle_nil _ h, any_isBatch_eq_false h, decide_eq_false hcount, Bool.false_and,
    Bool.or_false, Bool.or_false]

/-- The batch arrives at an extractor that is at rest. -/
theorem takeCommands_batch {taken : List ControllerPipe.Call}
    (hsignals : (s.process.commands.arrive WorkerPipe.processIdData piece rest).1 =
      taken.map WorkerPipe.signal)
    (h : taken.filterMap ControllerPipe.Call.batch = [idList]) (hidle : s.process.app.scheduled = .nothing) :
    s.takeCommands piece rest =
      { s with process := { s.process with
          app := { s.process.app with scheduled := .slotNewBatch idList }
          ending := none
          commands := (s.process.commands.arrive WorkerPipe.processIdData piece rest).2 } } := by
  have hcount : ¬ 1 < (taken.map WorkerPipe.signal).countP WorkerPipe.Signal.isBatch := by
    rw [countP_isBatch, h, List.length_singleton]
    decide
  rw [takeCommands]
  dsimp only
  rw [hsignals, foldl_handle_singleton _ h, decide_eq_false hcount, hidle, decide_eq_false (by simp),
    Bool.and_false, Bool.or_false, Bool.or_false]
  rfl

/-- What the commands bring is the batch or nothing. -/
theorem filterMap_cases {taken left : List ControllerPipe.Call} {batch : List DocId}
    (h : (taken ++ left).filterMap ControllerPipe.Call.batch = [batch]) :
    taken.filterMap ControllerPipe.Call.batch = [batch] ∧ left.filterMap ControllerPipe.Call.batch = [] ∨
      taken.filterMap ControllerPipe.Call.batch = [] ∧
        left.filterMap ControllerPipe.Call.batch = [batch] := by
  rw [List.filterMap_append] at h
  exact (List.append_eq_singleton_iff.mp h).symm

theorem ending_of_idle {app : App} (h : app.scheduled = .nothing) : app.scheduled.ending = none := by
  rw [h]
  rfl

/-! ## Steps of the two processes -/

/-- Commands arrive at an extractor that is at rest: there is no batch among them. -/
theorem resting_takeCommands (h : s.process.Resting) (halive : s.process.ending = none)
    (hpipe : s.process.commands.pipe = piece ++ rest) (hpiece : piece ≠ []) :
    (s.takeCommands piece rest).process.Resting ∧ ∃ commands,
      s.takeCommands piece rest = { s with process := { s.process with commands } } := by
  obtain ⟨calls, hcarries, hbatch⟩ := h.commands
  obtain ⟨taken, left, rfl, hsignals, -, hleft⟩ :=
    hcarries.part.arrive WorkerPipe.processIdData_reads hpipe hpiece
  rw [List.filterMap_append] at hbatch
  obtain ⟨htaken, hrest⟩ := List.append_eq_nil_iff.mp hbatch
  have hending := ending_of_idle (h.idle halive).1
  rw [takeCommands_nil hsignals htaken, hending, ← halive]
  exact ⟨⟨h.status, ⟨left, hleft hcarries, hrest⟩, h.reported, h.ended, h.idle⟩, _, rfl⟩

/-- Commands arrive while the thread waits. -/
theorem Waiting.takeCommands (h : s.Waiting decodeName idList) (hover : s.overlapped = false)
    (halive : s.process.ending = none) (hpipe : s.process.commands.pipe = piece ++ rest)
    (hpiece : piece ≠ []) :
    (s.takeCommands piece rest).Waiting decodeName idList ∧ (s.takeCommands piece rest).overlapped = false := by
  obtain ⟨calls, hcarries, hhanded⟩ := h.commands
  obtain ⟨taken, left, rfl, hsignals, -, hleft⟩ :=
    hcarries.part.arrive WorkerPipe.processIdData_reads hpipe hpiece
  obtain ⟨unread, hhears⟩ := h.hears
  have hquiet : taken.filterMap ControllerPipe.Call.batch = [] → s.Handed idList left →
      (s.takeCommands piece rest).Waiting decodeName idList ∧
        (s.takeCommands piece rest).overlapped = false := fun htaken hrest => by
    rw [takeCommands_nil hsignals htaken, h.alive halive, ← halive]
    exact ⟨⟨⟨unread, hhears.part, hhears.whole, hhears.all, hhears.quits⟩, h.account, h.ended, h.hadErrors,
      h.reported, h.alive, left, hleft hcarries, hrest⟩, hover⟩
  rcases hhanded with ⟨hbatch, heffects, hidle⟩ | ⟨hbatch, hworking⟩
  · rcases filterMap_cases hbatch with ⟨htaken, hrest⟩ | ⟨htaken, hrest⟩
    · -- the batch arrives
      obtain ⟨hscheduled, happ⟩ := hidle halive
      rw [takeCommands_batch hsignals htaken hscheduled]
      refine ⟨⟨⟨unread, hhears.part, fun _ => hhears.whole halive, hhears.all, hhears.quits⟩, h.account, ?_,
        h.hadErrors, ?_, fun _ => rfl, left, hleft hcarries, ?_⟩, hover⟩
      · exact fun ending heq => absurd heq.symm (Option.some_ne_none ending)
      · exact fun hreported => absurd halive (h.reported hreported)
      · exact .inr ⟨hrest, fun _ => .inl ⟨rfl, happ, heffects⟩⟩
    · exact hquiet htaken (.inl ⟨hrest, heffects, hidle⟩)
  · rw [List.filterMap_append] at hbatch
    obtain ⟨htaken, hrest⟩ := List.append_eq_nil_iff.mp hbatch
    exact hquiet htaken (.inr ⟨hrest, hworking⟩)

/-- An extractor with something to run has the batch. -/
theorem Waiting.working (h : s.Waiting decodeName idList) (halive : s.process.ending = none)
    (hactive : s.process.app.scheduled.isActive = true) : ∃ calls,
      s.process.commands.Carries ControllerPipe.write calls ∧
        calls.filterMap ControllerPipe.Call.batch = [] ∧ Working idList s.effects s.process.app := by
  obtain ⟨calls, hcarries, ⟨-, -, hidle⟩ | ⟨hbatch, hworking⟩⟩ := h.commands
  · rw [(hidle halive).1] at hactive
    cases hactive
  · exact ⟨calls, hcarries, hbatch, hworking halive⟩

theorem Hears.append {unread : List WorkerPipe.Call} (h : Hears decodeName s unread)
    (effects : List ExtractorEffect) :
    s.heard ++ (unread ++ told decodeName effects).map ControllerPipe.signal =
      (told decodeName (s.effects ++ effects)).map ControllerPipe.signal := by
  rw [List.map_append, ← List.append_assoc, h.all, told_append, List.map_append]

theorem ending_failed {app : App} {effects : List ExtractorEffect} (h : Working idList effects app)
    {ending : Ending} (hending : app.scheduled.ending = some ending) : ending.failed = true := by
  rcases h with ⟨hscheduled, -, -⟩ | h
  · rw [hscheduled] at hending
    cases hending
  · have hcode := h.code
    cases hscheduled : app.scheduled with
    | exited code =>
      rw [hscheduled] at hending
      obtain rfl := Option.some.inj hending
      simp [Ending.failed, hcode code hscheduled]
    | nothing | slotNewBatch | processNextFile =>
      rw [hscheduled] at hending
      cases hending

/-- A call of the extractor while the thread waits. -/
theorem Waiting.run (h : s.Waiting decodeName idList) (halive : s.process.ending = none)
    (hactive : s.process.app.scheduled.isActive = true) (c : Call) :
    (s.run decodeName c).Waiting decodeName idList := by
  obtain ⟨calls, hcarries, hbatch, hworking⟩ := h.working halive hactive
  obtain ⟨unread, hhears⟩ := h.hears
  have hafter := hworking.run c s.db
  have hwhole := (hhears.whole halive).write ControllerPipe.processStatusData_reads
    (told decodeName (s.process.app.run c s.db).2.2)
  refine ⟨⟨_, hwhole.part, fun _ => hwhole, hhears.append _, hhears.quits⟩,
    hworking.account hactive c s.db, fun ending => ending_failed hafter, h.hadErrors, ?_, fun heq => heq, calls,
    hcarries, .inr ⟨hbatch, fun _ => hafter⟩⟩
  exact fun hreported => absurd halive (h.reported hreported)

theorem crashExit_failed {ending : Ending} (h : some Ending.crashExit = some ending) :
    ending.failed = true := by
  cases h
  rfl

/-- The extractor has died while the thread waits. -/
theorem Waiting.crashed {s' : Conversation} (h : s.Waiting decodeName idList)
    (hending : s'.process.ending = some .crashExit) (hhears : ∃ unread, Hears decodeName s' unread)
    (haccount : Account idList s'.effects) (hhadErrors : s'.hadErrors = s.hadErrors)
    (hreported : s'.process.reported = s.process.reported)
    (hcommands : ∃ calls, s'.process.commands.Carries ControllerPipe.write calls ∧
      (calls.filterMap ControllerPipe.Call.batch = [idList] ∧ s'.effects = [] ∨
        calls.filterMap ControllerPipe.Call.batch = [])) : s'.Waiting decodeName idList where
  hears := hhears
  account := haccount
  ended ending heq := crashExit_failed (hending.symm.trans heq)
  hadErrors := by rw [hhadErrors, hreported, h.hadErrors]
  reported _ heq := absurd (hending.symm.trans heq) (Option.some_ne_none _)
  alive heq := absurd (hending.symm.trans heq) (Option.some_ne_none _)
  commands := by
    obtain ⟨calls, hcarries, ⟨hbatch, heffects⟩ | hbatch⟩ := hcommands
    · exact ⟨calls, hcarries, .inl ⟨hbatch, heffects,
        fun heq => absurd (hending.symm.trans heq) (Option.some_ne_none _)⟩⟩
    · exact ⟨calls, hcarries, .inr ⟨hbatch,
        fun heq => absurd (hending.symm.trans heq) (Option.some_ne_none _)⟩⟩

/-- It dies between two calls. -/
theorem Waiting.die (h : s.Waiting decodeName idList) : s.die.Waiting decodeName idList := by
  obtain ⟨calls, hcarries, hhanded⟩ := h.commands
  obtain ⟨unread, hhears⟩ := h.hears
  refine h.crashed rfl ⟨unread, hhears.part, ?_, hhears.all, hhears.quits⟩ h.account rfl rfl
    ⟨calls, hcarries, ?_⟩
  · exact fun heq => absurd heq (Option.some_ne_none _)
  · exact hhanded.imp (fun hhanded => ⟨hhanded.1, hhanded.2.1⟩) fun hhanded => hhanded.1

/-- It dies in a call: what has been told may be cut. -/
theorem Waiting.dieEarly (h : s.Waiting decodeName idList) (halive : s.process.ending = none)
    (hactive : s.process.app.scheduled.isActive = true) (c : Call) {bytes : List UInt8}
    (hbytes : bytes <+: toldBytes decodeName ((s.process.app.run c s.db).2.2.filter beforeCommit)) :
    (s.dieEarly c bytes).Waiting decodeName idList := by
  obtain ⟨calls, hcarries, hbatch, hworking⟩ := h.working halive hactive
  obtain ⟨unread, hhears⟩ := h.hears
  have hcut := (hhears.whole halive).cut ControllerPipe.processStatusData_reads hbytes
  exact h.crashed rfl ⟨_, hcut, fun heq => absurd heq (Option.some_ne_none _), hhears.append _, hhears.quits⟩
    (hworking.died hactive c s.db rfl) rfl rfl ⟨calls, hcarries, .inr hbatch⟩

/-- It dies after the commit. -/
theorem Waiting.dieLate (h : s.Waiting decodeName idList) (halive : s.process.ending = none)
    (hactive : s.process.app.scheduled.isActive = true) (c : Call) :
    (s.dieLate decodeName c).Waiting decodeName idList := by
  obtain ⟨calls, hcarries, hbatch, hworking⟩ := h.working halive hactive
  obtain ⟨unread, hhears⟩ := h.hears
  have hwhole := (hhears.whole halive).write ControllerPipe.processStatusData_reads
    (told decodeName ((s.process.app.run c s.db).2.2.filter fun effect => !finishes effect))
  exact h.crashed rfl ⟨_, hwhole.part, fun _ => hwhole, hhears.append _, hhears.quits⟩
    (hworking.died hactive c s.db rfl) rfl rfl ⟨calls, hcarries, .inr hbatch⟩

/-- A status arrives. -/
theorem Waiting.hear (h : s.Waiting decodeName idList) (hpipe : s.process.status.pipe = piece ++ rest)
    (hpiece : piece ≠ []) : (s.hear piece rest).Waiting decodeName idList := by
  obtain ⟨unread, hhears⟩ := h.hears
  obtain ⟨taken, left, rfl, hsignals, hpart, hleft⟩ :=
    hhears.part.arrive ControllerPipe.processStatusData_reads hpipe hpiece
  refine ⟨⟨left, hpart, fun halive => hleft (hhears.whole halive), ?_, ?_⟩, h.account, h.ended, h.hadErrors,
    h.reported, h.alive, h.commands⟩
  · have hall := hhears.all
    rw [List.map_append, ← List.append_assoc, ← hsignals] at hall
    exact hall
  · rw [Conversation.hear]
    dsimp only
    rw [hhears.quits, List.contains_eq_any_beq, List.contains_eq_any_beq, List.contains_eq_any_beq,
      List.any_append]

/-- The end of the process is reported. -/
theorem Waiting.report (h : s.Waiting decodeName idList) {ending : Ending}
    (hending : s.process.ending = some ending) : (s.report ending).Waiting decodeName idList := by
  obtain ⟨unread, hhears⟩ := h.hears
  refine ⟨⟨unread, hhears.part, hhears.whole, hhears.all, hhears.quits⟩, h.account, h.ended, ?_, fun _ heq => ?_,
    h.alive, h.commands⟩
  · rw [Conversation.report]
    dsimp only
    rw [h.ended ending hending, Bool.or_true]
  · exact absurd (hending.symm.trans heq) (Option.some_ne_none _)

/-- The speed is set. -/
theorem Waiting.setIndexFast (h : s.Waiting decodeName idList) (fast : Bool) :
    (s.setIndexFast fast).Waiting decodeName idList := by
  obtain ⟨calls, hcarries, hhanded⟩ := h.commands
  obtain ⟨unread, hhears⟩ := h.hears
  refine ⟨⟨unread, hhears.part, hhears.whole, hhears.all, hhears.quits⟩, h.account, h.ended, h.hadErrors,
    h.reported, h.alive, _, hcarries.write WorkerPipe.processIdData_reads
      [.setIndexSpeed (if fast then .fast else .slow)], ?_⟩
  have hbatch : (calls ++ [ControllerPipe.Call.setIndexSpeed (if fast then .fast else .slow)]).filterMap
      ControllerPipe.Call.batch = calls.filterMap ControllerPipe.Call.batch := by
    rw [List.filterMap_append]
    exact List.append_nil _
  rw [Handed, hbatch]
  exact hhanded

/-- The batch is given to the process. -/
theorem waiting_index (h : s.process.Resting) (fast : Bool) (ids : Ids) :
    (s.index fast ids).Waiting decodeName (ids.1.map UInt64.toNat) := by
  obtain ⟨calls, hcarries, hbatch⟩ := h.commands
  refine ⟨⟨[], h.status.part, fun _ => h.status, rfl, rfl⟩, .nil _, h.ended, h.reported.symm,
    fun hreported => ?_, fun halive => ending_of_idle (h.idle halive).1, _,
    hcarries.write WorkerPipe.processIdData_reads
      [.setIndexSpeed (if fast then .fast else .slow), .processIds ids], .inl ⟨?_, rfl, h.idle⟩⟩
  · rw [Conversation.index, h.reported] at hreported
    cases hreported
  · rw [List.filterMap_append, hbatch]
    rfl

/-! ## The end of the wait -/

theorem signal_eq_batchFinished {call : WorkerPipe.Call}
    (h : ControllerPipe.signal call = .batchFinished) : call = .batchFinished := by
  cases call <;> first | rfl | cases h

/-- What is heard of the end of the batch has been told. -/
theorem mem_told {effects : List ExtractorEffect}
    (h : ControllerPipe.Signal.batchFinished ∈ (told decodeName effects).map ControllerPipe.signal) :
    batchFinished ∈ effects := by
  obtain ⟨call, hcall, hsignal⟩ := List.mem_map.mp h
  obtain rfl := signal_eq_batchFinished hsignal
  obtain ⟨effect, heffect, hmessage⟩ := List.mem_filterMap.mp hcall
  cases effect <;> first | exact heffect | cases hmessage

/-- When the end of the batch has been heard, there is nothing more to hear. -/
theorem Hears.eq_nil {unread : List WorkerPipe.Call} (h : Hears decodeName s unread)
    (haccount : Account idList s.effects) (hquits : s.quits = true) :
    unread = [] ∧ batchFinished ∈ s.effects := by
  have hheard : ControllerPipe.Signal.batchFinished ∈ s.heard := by
    rwa [h.quits, List.contains_iff_mem] at hquits
  have hmem := mem_told (h.all ▸ List.mem_append_left _ hheard)
  obtain ⟨pre, post, heffects⟩ := List.append_of_mem hmem
  obtain rfl := haccount.last pre post heffects
  have hpre : ControllerPipe.Signal.batchFinished ∉ (told decodeName pre).map ControllerPipe.signal := by
    intro hpre
    obtain ⟨front, back, rfl⟩ := List.append_of_mem (mem_told hpre)
    have hback := haccount.last front (back ++ [batchFinished]) (by rw [heffects]; simp)
    simp at hback
  refine ⟨?_, hmem⟩
  have hall := h.all
  rw [heffects, told_append, List.map_append] at hall
  rcases List.eq_nil_or_concat unread with hnil | ⟨front, call, rfl⟩
  · exact hnil
  · rw [List.concat_eq_append, List.map_append, ← List.append_assoc] at hall
    have hfront := List.append_inj_left' hall rfl
    exact absurd (hfront ▸ List.mem_append_left _ hheard) hpre

theorem Waiting.failed (h : s.Waiting decodeName idList) (hadErrors : s.hadErrors = true) :
    s.process.Failed := by
  have hreported := h.reported (h.hadErrors.symm.trans hadErrors)
  obtain ⟨ending, hending⟩ := Option.ne_none_iff_exists'.mp hreported
  exact ⟨ending, hending, h.ended ending hending⟩

theorem Waiting.finished (h : s.Waiting decodeName idList) (hquits : s.quits = true) :
    s.Finished decodeName idList := by
  obtain ⟨unread, hhears⟩ := h.hears
  obtain ⟨rfl, hmem⟩ := hhears.eq_nil h.account hquits
  refine ⟨h.account.finished hmem, ?_⟩
  rw [← hhears.all, List.map_nil, List.append_nil]

/-- After a batch without errors the process can take the next one. -/
theorem Waiting.resting (h : s.Waiting decodeName idList) (hquits : s.quits = true)
    (hno : s.hadErrors = false) : s.process.Resting := by
  obtain ⟨unread, hhears⟩ := h.hears
  obtain ⟨rfl, hmem⟩ := hhears.eq_nil h.account hquits
  obtain ⟨calls, hcarries, ⟨-, hnil, -⟩ | ⟨hbatch, hworking⟩⟩ := h.commands
  · rw [hnil] at hmem
    exact absurd hmem List.not_mem_nil
  · refine ⟨hhears.part.whole, ⟨calls, hcarries, hbatch⟩, h.hadErrors.symm.trans hno, h.ended, fun halive => ?_⟩
    rcases hworking halive with ⟨-, -, hnil⟩ | hengaged
    · rw [hnil] at hmem
      exact absurd hmem List.not_mem_nil
    · have hscheduled := of_not_not fun hne => hengaged.notMem hne hmem
      exact ⟨hscheduled, hengaged.batch hscheduled⟩

theorem Waiting.leave (h : s.Waiting decodeName idList) (hleft : s.quits = true ∨ s.hadErrors = true) :
    s.Holds decodeName (.finished idList s.hadErrors) := by
  cases hhad : s.hadErrors with
  | true => exact h.failed hhad
  | false =>
    have hquits := hleft.resolve_right (by rw [hhad]; exact Bool.false_ne_true)
    exact ⟨h.resting hquits hhad, h.finished hquits⟩

/-! ## The invariant is kept -/

theorem resting_new : ({} : ExtractorProcess).Resting where
  status := Channel.carries_nil _
  commands := ⟨[], Channel.carries_nil _, rfl⟩
  reported := rfl
  ended _ h := absurd h.symm (Option.some_ne_none _)
  idle _ := ⟨rfl, rfl⟩

/-- Outside of the wait, the process is at rest or has failed. -/
theorem Holds.resting {pc : Pc} (h : s.Holds decodeName pc) (hpc : ∀ idList, pc ≠ .waiting idList) :
    s.process.Resting ∨ s.process.Failed := by
  cases pc with
  | waiting idList => exact absurd rfl (hpc idList)
  | finished idList hadErrors =>
    cases hadErrors with
    | true => exact .inr h
    | false => exact .inl h.1
  | indexing idList => exact .inl h
  | fetching n => exact h.imp_right And.right
  | checking idList => exact h.imp_right And.right
  | idle | queued | done | exited => exact h

/-- What does not change the process at rest keeps what holds outside of the wait. -/
theorem Holds.process {pc : Pc} (h : s.Holds decodeName pc) (hpc : ∀ idList, pc ≠ .waiting idList)
    {process : ExtractorProcess} (hresting : s.process.Resting → process.Resting)
    (hfailed : s.process.Failed → process.Failed) : { s with process }.Holds decodeName pc := by
  cases pc with
  | waiting idList => exact absurd rfl (hpc idList)
  | finished idList hadErrors =>
    cases hadErrors with
    | true => exact hfailed h
    | false => exact ⟨hresting h.1, h.2⟩
  | indexing idList => exact hresting h
  | fetching n => exact h.imp hresting (And.imp_right hfailed)
  | checking idList => exact h.imp hresting (And.imp_right hfailed)
  | idle | queued | done | exited => exact h.imp hresting hfailed

/-- A place other than the wait does not depend on what is heard and done. -/
theorem not_active (h : s.process.Resting ∨ s.process.Failed) (halive : s.process.ending = none) :
    s.process.app.scheduled.isActive = false := by
  rcases h with h | ⟨ending, hending, -⟩
  · rw [(h.idle halive).1]
    rfl
  · exact absurd (hending.symm.trans halive) (Option.some_ne_none _)

theorem not_failed (halive : s.process.ending = none) : ¬ s.process.Failed := by
  rintro ⟨ending, hending, -⟩
  exact Option.some_ne_none _ (hending.symm.trans halive)

/-- Whether the thread waits. -/
theorem waiting_or (pc : Pc) : (∃ idList, pc = .waiting idList) ∨ ∀ idList, pc ≠ .waiting idList := by
  cases pc with
  | waiting idList => exact .inl ⟨idList, rfl⟩
  | idle | queued | fetching | checking | indexing | finished | done | exited =>
    exact .inr fun _ => Pc.noConfusion

/-- A step of the two processes. -/
theorem Inv.exchange {s' : Conversation} (h : s.Inv decodeName) (hstep : ExchangeStep decodeName s s') :
    s'.Inv decodeName := by
  obtain ⟨hover, h⟩ := h
  cases hstep with
  | takeCommands piece rest halive hpipe hpiece =>
    rcases waiting_or s.indexer.pc with ⟨idList, hpc⟩ | hpc
    · rw [hpc] at h
      obtain ⟨hwaiting, hover'⟩ := Waiting.takeCommands h hover halive hpipe hpiece
      refine ⟨hover', ?_⟩
      rw [show (s.takeCommands piece rest).indexer.pc = .waiting idList from hpc]
      exact hwaiting
    · have hresting := (h.resting hpc).resolve_right (not_failed halive)
      obtain ⟨hafter, commands, heq⟩ := resting_takeCommands hresting halive hpipe hpiece
      rw [heq] at hafter ⊢
      exact ⟨hover, h.process hpc (fun _ => hafter) fun hfailed => hfailed⟩
  | run c halive hactive =>
    rcases waiting_or s.indexer.pc with ⟨idList, hpc⟩ | hpc
    · rw [hpc] at h
      refine ⟨hover, ?_⟩
      rw [show (s.run decodeName c).indexer.pc = .waiting idList from hpc]
      exact Waiting.run h halive hactive c
    · rw [not_active (h.resting hpc) halive] at hactive
      cases hactive
  | hear piece rest hpc hpipe hpiece =>
    rw [hpc] at h
    refine ⟨hover, ?_⟩
    rw [show (s.hear piece rest).indexer.pc = .waiting _ from hpc]
    exact Waiting.hear h hpipe hpiece
  | report ending hpc hending _ =>
    rw [hpc] at h
    refine ⟨hover, ?_⟩
    rw [show (s.report ending).indexer.pc = .waiting _ from hpc]
    exact Waiting.report h hending

theorem resting_die (h : s.process.Resting) : s.die.process.Resting :=
  ⟨h.status, h.commands, h.reported, fun _ => crashExit_failed,
    fun halive => absurd halive (Option.some_ne_none _)⟩

/-- A step of the thread without the process. -/
theorem Holds.thread {activities : List Activity} {indexer' : FileContentIndexer} {db db' : Database}
    (h : s.Holds decodeName s.indexer.pc) (huses : s.indexer.pc.usesProcess s.indexer.stop = false)
    (hstep : WorkerStep withoutExtractor (s.indexer, db) activities (indexer', db')) :
    { s with indexer := indexer', db := db' }.Holds decodeName indexer'.pc := by
  cases hstep with
  | begin hpc => rw [hpc] at huses; cases huses
  | index idList hpc => rw [hpc] at huses; cases huses
  | extracted idList ids hadErrors hpc hextracts => exact absurd hextracts not_false
  | markFailed failedId hpc hstop _ => rw [hpc, hstop] at huses; cases huses
  | halve idList hpc hstop _ => rw [hpc, hstop] at huses; cases huses
  | exit failedId hpc hstop _ => rw [hpc, hstop] at huses; cases huses
  | fetch size hpc =>
    rw [hpc] at h
    exact h
  | check idList hpc =>
    rw [hpc] at h
    by_cases hdone : idList = [] ∨ s.indexer.stop = true
    · dsimp only
      rw [if_pos hdone]
      exact h.imp_right And.right
    · dsimp only
      rw [if_neg hdone]
      exact h.resolve_right fun hstop => hdone (.inr hstop.1)
  | proceed idList hadErrors hpc hno =>
    rw [hpc] at h huses
    cases hadErrors with
    | false => exact .inl h.1
    | true =>
      refine .inr ⟨?_, h⟩
      simpa [Pc.usesProcess] using huses

/-- What happens beside the process and the wait. -/
theorem Holds.beside {pc : Pc} {indexer : FileContentIndexer} {db : Database} (h : s.Holds decodeName pc)
    (hstop : s.indexer.stop = true → indexer.stop = true) :
    { s with indexer, db }.Holds decodeName pc := by
  cases pc with
  | waiting idList =>
    obtain ⟨⟨unread, hhears⟩, haccount, hended, hhad, hreported, halive, hcommands⟩ := h
    exact ⟨⟨unread, hhears.part, hhears.whole, hhears.all, hhears.quits⟩, haccount, hended, hhad, hreported,
      halive, hcommands⟩
  | finished idList hadErrors => cases hadErrors <;> exact h
  | fetching n => exact h.imp_right (And.imp_left hstop)
  | checking idList => exact h.imp_right (And.imp_left hstop)
  | idle | queued | indexing | done | exited => exact h

/-- The head of `run`. -/
theorem begin_fetching {activities : List Activity} {indexer indexer' : FileContentIndexer}
    {db db' : Database} (hstep : WorkerStep withoutExtractor (indexer, db) activities (indexer', db'))
    (hpc : indexer.pc = .queued) : ∃ n, indexer'.pc = .fetching n := by
  cases hstep with
  | begin => exact ⟨_, rfl⟩
  | fetch _ heq => rw [hpc] at heq; cases heq
  | check _ heq => rw [hpc] at heq; cases heq
  | index _ heq => rw [hpc] at heq; cases heq
  | extracted _ _ _ heq => rw [hpc] at heq; cases heq
  | proceed _ _ _ => exact ⟨_, rfl⟩
  | halve _ _ _ => exact ⟨_, rfl⟩
  | markFailed _ _ _ => exact ⟨_, rfl⟩
  | exit _ heq => rw [hpc] at heq; cases heq

/-- After errors the thread fetches the next batch, or the program ends. -/
theorem restart_fetching {activities : List Activity} {indexer indexer' : FileContentIndexer}
    {db db' : Database} (hstep : WorkerStep withoutExtractor (indexer, db) activities (indexer', db'))
    (hpc : indexer.pc = .finished idList true) (hstop : indexer.stop = false) :
    (∃ n, indexer'.pc = .fetching n) ∨ indexer'.pc = .exited := by
  cases hstep with
  | begin _ => exact .inl ⟨_, rfl⟩
  | fetch _ heq => rw [hpc] at heq; cases heq
  | check _ heq => rw [hpc] at heq; cases heq
  | index _ heq => rw [hpc] at heq; cases heq
  | extracted _ _ _ heq => rw [hpc] at heq; cases heq
  | proceed _ _ _ _ => exact .inl ⟨_, rfl⟩
  | halve _ _ _ => exact .inl ⟨_, rfl⟩
  | markFailed _ _ _ => exact .inl ⟨_, rfl⟩
  | exit _ _ _ => exact .inr rfl

/-- Every step keeps the invariant. -/
theorem Inv.step {s' : Conversation} (h : s.Inv decodeName) (hstep : ConversationStep decodeName s s') :
    s'.Inv decodeName := by
  cases hstep with
  | exchange hstep => exact h.exchange hstep
  | die halive =>
    obtain ⟨hover, h⟩ := h
    refine ⟨hover, ?_⟩
    rcases waiting_or s.indexer.pc with ⟨idList, hpc⟩ | hpc
    · rw [hpc] at h
      rw [show s.die.indexer.pc = .waiting idList from hpc]
      exact Waiting.die h
    · exact h.process hpc resting_die fun hfailed => absurd hfailed (not_failed halive)
  | dieEarly c bytes halive hactive hbytes =>
    obtain ⟨hover, h⟩ := h
    refine ⟨hover, ?_⟩
    rcases waiting_or s.indexer.pc with ⟨idList, hpc⟩ | hpc
    · rw [hpc] at h
      rw [show (s.dieEarly c bytes).indexer.pc = .waiting idList from hpc]
      exact Waiting.dieEarly h halive hactive c hbytes
    · rw [not_active (h.resting hpc) halive] at hactive
      cases hactive
  | dieLate c halive hactive =>
    obtain ⟨hover, h⟩ := h
    refine ⟨hover, ?_⟩
    rcases waiting_or s.indexer.pc with ⟨idList, hpc⟩ | hpc
    · rw [hpc] at h
      rw [show (s.dieLate decodeName c).indexer.pc = .waiting idList from hpc]
      exact Waiting.dieLate h halive hactive c
    · rw [not_active (h.resting hpc) halive] at hactive
      cases hactive
  | database db => exact ⟨h.1, h.2.beside id⟩
  | setIndexFast fast hpc =>
    obtain ⟨hover, h⟩ := h
    rw [hpc] at h
    refine ⟨hover, ?_⟩
    rw [show (s.setIndexFast fast).indexer.pc = .waiting _ from hpc]
    exact Waiting.setIndexFast h fast
  | start hpc =>
    obtain ⟨hover, h⟩ := h
    rw [hpc] at h
    exact ⟨hover, h⟩
  | ended hpc =>
    obtain ⟨hover, h⟩ := h
    rw [hpc] at h
    exact ⟨hover, h⟩
  | quit => exact ⟨h.1, h.2.beside fun _ => rfl⟩
  | thread huses hthread => exact ⟨h.1, h.2.thread huses hthread⟩
  | begin hpc hthread =>
    obtain ⟨n, hfetching⟩ := begin_fetching hthread hpc
    refine ⟨h.1, ?_⟩
    dsimp only
    rw [hfetching]
    exact .inl resting_new
  | index fast ids hpc =>
    obtain ⟨hover, h⟩ := h
    rw [hpc] at h
    exact ⟨hover, waiting_index h fast ids⟩
  | leave hpc hleft =>
    obtain ⟨hover, h⟩ := h
    rw [hpc] at h
    refine ⟨hover, ?_⟩
    have hholds := Waiting.leave h hleft
    generalize s.hadErrors = hadErrors at hholds
    cases hadErrors with
    | true => exact hholds
    | false => exact hholds
  | restart hpc hstop hthread =>
    refine ⟨h.1, ?_⟩
    dsimp only
    rcases restart_fetching hthread hpc hstop with ⟨n, hfetching⟩ | hexited
    · rw [hfetching]
      exact .inl resting_new
    · rw [hexited]
      exact .inl resting_new

theorem Reached.inv (h : s.Reached decodeName) : s.Inv decodeName := by
  obtain ⟨indexer, db, hpc, hrun⟩ := h
  refine Transition.invariant (I := Inv decodeName) (fun _ _ hinv hstep => hinv.step hstep) ⟨rfl, ?_⟩ hrun
  rw [hpc]
  exact .inl resting_new

/-! ## The wait ends -/

/-- How much an extractor has still to do. -/
def work (app : App) : ℕ :=
  match app.scheduled with
  | .slotNewBatch ids =>
    13 * (app.batch.countP (fun info => info.state.isPending) + ids.length) + 14 + (12 - app.consecutiveErrors)
  | .processNextFile =>
    13 * app.batch.countP (fun info => info.state.isPending) + 1 + (12 - app.consecutiveErrors)
  | _ => 0

/-- How much there is still to be exchanged. -/
def measure (s : Conversation) : ℕ ×ₗ ℕ ×ₗ ℕ ×ₗ ℕ :=
  toLex (s.process.commands.pipe.length, toLex (work s.process.app,
    toLex (s.process.status.pipe.length, if s.process.reported then 0 else 1)))

theorem work_slotNewBatch (app : App) (c : Call) (db : Database) (ids : List DocId)
    (h : app.scheduled = .slotNewBatch ids) : work (app.slotNewBatch c db ids) < work app := by
  have hcount : ∀ f : DocId → BatchInfo, (app.batch ++ ids.map f).countP (fun info => info.state.isPending) ≤
      app.batch.countP (fun info => info.state.isPending) + ids.length := fun f => by
    rw [List.countP_append]
    refine Nat.add_le_add_left ?_ _
    exact List.countP_le_length.trans (List.length_map f).le
  have hbefore : work app = 13 * (app.batch.countP (fun info => info.state.isPending) + ids.length) + 14 +
      (12 - app.consecutiveErrors) := by rw [work, h]
  rw [hbefore, App.slotNewBatch]
  split_ifs with hopens hbasic hvalid herrors
  · exact Nat.zero_lt_of_lt (Nat.lt_of_lt_of_le (Nat.lt_add_of_pos_right (by decide)) (Nat.le_add_right _ _))
  · have hskip := hcount fun id => { id := id, path := [], state := .skipIndex }
    rw [work]
    dsimp only
    omega
  · have hread := hcount fun id => { id := id, path := db.docUrlDb.get id }
    rw [work]
    dsimp only
    omega
  · exact Nat.zero_lt_of_lt (Nat.lt_of_lt_of_le (Nat.lt_add_of_pos_right (by decide)) (Nat.le_add_right _ _))
  · rw [work]
    dsimp only
    omega

theorem work_processNextFile (app : App) (c : Call) (db : Database) (h : app.scheduled = .processNextFile) :
    work (app.processNextFile c db).1 < work app := by
  have hbefore : work app = 13 * app.batch.countP (fun info => info.state.isPending) + 1 +
      (12 - app.consecutiveErrors) := by rw [work, h]
  have hlooked := (App.indexNext_looked c.env app.batch).pending
  have hwrote := (App.writeAll_wrote { dbis := db } (App.indexNext c.env app.batch).1).pending
  -- one is not pending any more, unless none was
  have hle : (App.indexNext c.env app.batch).1.countP (fun info => info.state.isPending) ≤
      app.batch.countP (fun info => info.state.isPending) := by
    rcases hlooked with hlooked | ⟨heq, -⟩
    · exact Nat.le_of_succ_le hlooked
    · rw [heq]
  have hnone : (∀ info ∈ app.batch, info.state.isPending = false) →
      app.batch.countP (fun info => info.state.isPending) = 0 := fun hall =>
    List.countP_eq_zero.mpr fun info hinfo => Bool.not_eq_true _ ▸ hall info hinfo
  rw [hbefore, App.processNextFile]
  dsimp only
  split_ifs with hlook hvalid hcommits hpending herrors
  · obtain ⟨info, hinfo, hinfoPending⟩ := List.any_eq_true.mp hlook.1
    have hless := hlooked.resolve_right fun hall => by
      rw [hall.2 info hinfo] at hinfoPending
      cases hinfoPending
    rw [work]
    dsimp only
    rw [h]
    dsimp only
    omega
  · exact Nat.zero_lt_of_lt (Nat.lt_of_lt_of_le (Nat.lt_add_of_pos_right (by decide)) (Nat.le_add_right _ _))
  · obtain ⟨info, hinfo, hinfoPending⟩ := List.any_eq_true.mp hpending
    have hpos := List.countP_pos_iff (p := fun info : BatchInfo => info.state.isPending).mpr
      ⟨info, hinfo, hinfoPending⟩
    have hless := hlooked.resolve_right fun hall => by
      have hzero := hnone hall.2
      omega
    rw [work]
    dsimp only
    rw [h]
    dsimp only
    omega
  · exact Nat.zero_lt_of_lt (Nat.lt_of_lt_of_le (Nat.lt_add_of_pos_right (by decide)) (Nat.le_add_right _ _))
  · exact Nat.zero_lt_of_lt (Nat.lt_of_lt_of_le (Nat.lt_add_of_pos_right (by decide)) (Nat.le_add_right _ _))
  · rw [work]
    dsimp only
    rw [h]
    dsimp only
    omega

/-- A call leaves less to do. -/
theorem work_run (app : App) (c : Call) (db : Database) (h : app.scheduled.isActive = true) :
    work (app.run c db).1 < work app := by
  cases hscheduled : app.scheduled with
  | nothing => rw [hscheduled] at h; cases h
  | exited code => rw [hscheduled] at h; cases h
  | slotNewBatch ids =>
    rw [App.run, hscheduled]
    exact work_slotNewBatch app c db ids hscheduled
  | processNextFile =>
    rw [App.run, hscheduled]
    exact work_processNextFile app c db hscheduled

theorem length_rest_lt {piece rest pipe : List UInt8} (hpipe : pipe = piece ++ rest) (hpiece : piece ≠ []) :
    rest.length < pipe.length := by
  rw [hpipe, List.length_append]
  exact Nat.lt_add_of_pos_left (List.length_pos_iff.mpr hpiece)

/-- Each step leaves less to be exchanged. -/
theorem measure_exchange {s' : Conversation} (h : ExchangeStep decodeName s s') : measure s' < measure s := by
  rw [measure, measure, Prod.Lex.toLex_lt_toLex, Prod.Lex.toLex_lt_toLex, Prod.Lex.toLex_lt_toLex]
  cases h with
  | takeCommands piece rest _ hpipe hpiece => exact .inl (length_rest_lt hpipe hpiece)
  | run c _ hactive => exact .inr ⟨rfl, .inl (work_run _ c s.db hactive)⟩
  | hear piece rest _ hpipe hpiece => exact .inr ⟨rfl, .inr ⟨rfl, .inl (length_rest_lt hpipe hpiece)⟩⟩
  | report ending _ _ hreported =>
    refine .inr ⟨rfl, .inr ⟨rfl, .inr ⟨rfl, ?_⟩⟩⟩
    rw [hreported]
    exact Nat.zero_lt_one

/-- As long as the thread waits and nothing has been heard, something happens. -/
theorem Waiting.exists_step (h : s.Waiting decodeName idList) (hpc : s.indexer.pc = .waiting idList)
    (hquits : s.quits = false) (hno : s.hadErrors = false) : ∃ s', ExchangeStep decodeName s s' := by
  cases hending : s.process.ending with
  | some ending => exact ⟨_, .report ending hpc hending (h.hadErrors.symm.trans hno)⟩
  | none =>
    obtain ⟨calls, hcarries, hhanded⟩ := h.commands
    rcases eq_or_ne s.process.commands.pipe [] with hnil | hpipe
    · -- the extractor has got all commands, so it has got the batch
      obtain rfl := hcarries.eq_nil hnil
      obtain ⟨hbatch, -⟩ | ⟨-, hworking⟩ := hhanded
      · cases hbatch
      · cases hactive : s.process.app.scheduled.isActive with
        | true =>
          exact ⟨_, .run { env := plainFiles onlyB, timeout := false } hending hactive⟩
        | false =>
          -- it is done with the batch, and has told so
          rcases hworking hending with ⟨hscheduled, -⟩ | hengaged
          · rw [hscheduled] at hactive
            cases hactive
          · have hscheduled : s.process.app.scheduled = .nothing := by
              have halive := h.alive hending
              cases hscheduled : s.process.app.scheduled with
              | nothing => rfl
              | slotNewBatch ids => rw [hscheduled] at hactive; cases hactive
              | processNextFile => rw [hscheduled] at hactive; cases hactive
              | exited code => rw [hscheduled] at halive; cases halive
            obtain ⟨unread, hhears⟩ := h.hears
            have hmem : batchFinished ∈ s.effects := by
              have hfinished := hengaged.counted.finished
              rw [if_pos hscheduled] at hfinished
              obtain ⟨effect, heffect, hfinishes⟩ := List.countP_pos_iff.mp (hfinished ▸ Nat.zero_lt_one)
              rwa [finishes_iff.mp hfinishes] at heffect
            rcases eq_or_ne s.process.status.pipe [] with hnil | hpipe
            · obtain rfl := (hhears.whole hending).eq_nil hnil
              have hall := hhears.all
              rw [List.map_nil, List.append_nil] at hall
              have hheard : ControllerPipe.Signal.batchFinished ∈ s.heard := by
                rw [hall]
                exact List.mem_map.mpr ⟨.batchFinished,
                  List.mem_filterMap.mpr ⟨batchFinished, hmem, rfl⟩, rfl⟩
              rw [hhears.quits, List.contains_iff_mem.mpr hheard] at hquits
              cases hquits
            · exact ⟨_, .hear s.process.status.pipe [] hpc (List.append_nil _).symm hpipe⟩
    · exact ⟨_, .takeCommands s.process.commands.pipe [] hending (List.append_nil _).symm hpipe⟩

/-! ## Whole runs -/

/-- **The thread and the extractor agree about every batch**, however the bytes arrive, whichever calls
fail, whenever the extractor dies, and whatever else happens to the index. While the thread waits, no
entry of the batch has been acted on more than once for each time it is in it, and what has been heard is
the beginning of what has been told. When `batchFinished` is heard, all entries have been acted on, in
transactions that have been committed, and nothing is left to be heard; so it is when the thread goes on
without errors. It goes on with errors only after the process has crashed or has exited with an error.
No batch meets another one, and outside of the wait an extractor that lives is at rest. -/
theorem batches_agreed (h : s.Reached decodeName) :
    s.overlapped = false ∧
      (∀ idList, s.indexer.pc = .waiting idList →
        (∀ x, s.effects.countP (extracts x) ≤ idList.count x ∧ s.effects.countP (acts x) ≤ idList.count x) ∧
        s.heard <+: (told decodeName s.effects).map ControllerPipe.signal ∧
        (s.quits = true → s.Finished decodeName idList) ∧ (s.hadErrors = true → s.process.Failed)) ∧
      (∀ idList, s.indexer.pc = .finished idList false → s.Finished decodeName idList) ∧
      (∀ idList, s.indexer.pc = .finished idList true → s.process.Failed) ∧
      ((∀ idList, s.indexer.pc ≠ .waiting idList) → s.process.ending = none →
        s.process.app.scheduled = .nothing ∧ s.process.app.batch = []) := by
  obtain ⟨hover, hholds⟩ := h.inv
  refine ⟨hover, fun idList hpc => ?_, fun idList hpc => ?_, fun idList hpc => ?_, fun hpc halive => ?_⟩
  · rw [hpc] at hholds
    obtain ⟨unread, hhears⟩ := hholds.hears
    exact ⟨fun x => ⟨hholds.account.extracted x, hholds.account.acted x⟩,
      hhears.all ▸ List.prefix_append _ _, Waiting.finished hholds, Waiting.failed hholds⟩
  · rw [hpc] at hholds
    exact hholds.2
  · rw [hpc] at hholds
    exact hholds
  · exact ((hholds.resting hpc).resolve_right (not_failed halive)).idle halive

/-- The names of files, as `asciiLibraries` has them. -/
def asciiUrl (path : QByteArray) : Url :=
  if h : 2 * (asciiLibraries.decodeName path).length < 2 ^ 63 then ⟨some (asciiLibraries.decodeName path), h⟩
  else ⟨none, by decide⟩

/-- The thread has fetched the document that is known as `/p/a`. -/
def fetchedA : Conversation where
  indexer := { batchSize := 40, pc := .indexing [1] }
  db := knownAsA

/-- It has given it to the extractor. -/
def givenA : Conversation := fetchedA.index true ⟨[1], by decide⟩

/-- The extractor has read the batch, has not found the file, and has removed the document. -/
def removedA : Conversation :=
  (((givenA.takeCommands givenA.process.commands.pipe []).run asciiUrl lookAtB).run asciiUrl lookAtB).run
    asciiUrl lookAtB

theorem reached_givenA : givenA.Reached asciiUrl := by
  refine ⟨{ batchSize := 40 }, fetchedA.db, rfl, ?_⟩
  refine .tail (.tail (.tail (.tail (.tail .refl (.start rfl)) (.begin rfl (.begin rfl)))
    (.thread rfl (.fetch 40 rfl))) (.thread rfl (.check [1] ?_))) (.index true ⟨[1], by decide⟩ ?_)
  · exact congrArg Pc.checking (by decide +kernel)
  · rfl

/-- The thread has heard that the batch is finished. -/
def finishedA : Conversation :=
  { removedA.hear removedA.process.status.pipe [] with indexer.pc := .finished [1] false }

theorem reached_finishedA : finishedA.Reached asciiUrl := by
  obtain ⟨indexer, db, hpc, hrun⟩ := reached_givenA
  refine ⟨indexer, db, hpc, .tail (.tail (.tail (.tail (.tail (.tail hrun
    (.exchange (.takeCommands givenA.process.commands.pipe [] rfl ?_ ?_)))
    (.exchange (.run lookAtB ?_ ?_))) (.exchange (.run lookAtB ?_ ?_))) (.exchange (.run lookAtB ?_ ?_)))
    (.exchange (@ExchangeStep.hear _ _ [1] removedA.process.status.pipe [] rfl
      (List.append_nil _).symm ?_))) (@ConversationStep.leave _ _ [1] rfl (.inl ?_))⟩
  all_goals decide +kernel

theorem batches_agreed_finishedA : finishedA.effects.countP (acts 1) = 1 ∧
    finishedA.heard = (told asciiUrl finishedA.effects).map ControllerPipe.signal := by
  have hfinished := (batches_agreed reached_finishedA).2.2.1 [1] rfl
  exact ⟨hfinished.1 1, hfinished.2⟩

end Conversation

end Baloo
