import Baloo.ExtractorRuns

/-!
# A batch of the extractor
-/

namespace Baloo

open ExtractorEffect

namespace App

variable {tr : WriteTransaction} {info : BatchInfo} {batch : List BatchInfo} {x : DocId}

/-! ## Counting -/

/-- The entry is for the id, and is pending. -/
def pendingAt (x : DocId) (info : BatchInfo) : Bool := info.state.isPending && info.id = x

/-- The entry is for the id, and has not been acted on. -/
def openAt (x : DocId) (info : BatchInfo) : Bool := info.state.isOpen && info.id = x

theorem isOpen_eq (state : IndexState) : state.isOpen = (state.isPending || state.isDone) := by
  cases state <;> rfl

theorem isPending_eq_false {state : IndexState} (h : state.isDone = true) : state.isPending = false := by
  cases state <;> first | rfl | cases h

/-- What `indexNext` does to the entries. -/
structure Looked (batch : List BatchInfo) (next : List BatchInfo × List ExtractorEffect) : Prop where
  ids : next.1.map BatchInfo.id = batch.map BatchInfo.id
  extracted : ∀ x, next.2.countP (extracts x) + next.1.countP (pendingAt x) ≤ batch.countP (pendingAt x)
  isOpen : ∀ x, next.1.countP (openAt x) = batch.countP (openAt x)
  quiet : ∀ x, next.2.countP (acts x) = 0 ∧ next.2.countP finishes = 0
  pending : next.1.countP (fun info => info.state.isPending) + 1 ≤
    batch.countP (fun info => info.state.isPending) ∨
      next.1 = batch ∧ ∀ info ∈ batch, info.state.isPending = false

theorem indexNext_looked (env : Surroundings) (batch : List BatchInfo) :
    Looked batch (indexNext env batch) := by
  rcases indexNext_cases env batch with ⟨hnone, heq⟩ | ⟨pre, info, post, rfl, -, hinfo, heq⟩
  · rw [heq]
    exact ⟨rfl, fun x => by simp, fun x => rfl, fun x => ⟨rfl, rfl⟩, .inr ⟨rfl, hnone⟩⟩
  · have hindexed := index_indexed env info
    have hpending := isPending_eq_false hindexed.isDone
    rw [heq]
    refine ⟨by simp [hindexed.id], fun x => ?_, fun x => ?_, fun x => (index_effects env info x).2, .inl ?_⟩
    · have hextracted := (index_effects env info x).1
      simp only [List.countP_append, List.countP_cons, pendingAt, hpending, hinfo, Bool.false_and,
        Bool.true_and, decide_eq_true_iff, Bool.false_eq_true, if_false]
      omega
    · simp only [List.countP_append, List.countP_cons, openAt, isOpen_eq, hpending, hinfo, hindexed.isDone,
        hindexed.id, Bool.false_or, Bool.true_or]
    · simp only [List.countP_append, List.countP_cons, hpending, hinfo, if_true, Bool.false_eq_true,
        if_false]
      omega

/-- What `writeAll` does to the entries. -/
structure Wrote (batch : List BatchInfo) (r : WriteTransaction × List BatchInfo × List ExtractorEffect) :
    Prop where
  ids : r.2.1.map BatchInfo.id = batch.map BatchInfo.id
  acted : ∀ x, r.2.2.countP (acts x) + r.2.1.countP (openAt x) = batch.countP (openAt x)
  isPending : ∀ x, r.2.1.countP (pendingAt x) = batch.countP (pendingAt x)
  pending : r.2.1.countP (fun info => info.state.isPending) = batch.countP (fun info => info.state.isPending)
  quiet : ∀ x, r.2.2.countP (extracts x) = 0 ∧ r.2.2.countP finishes = 0
  isDone : ∀ info ∈ r.2.1, info.state.isDone = false

theorem writeAll_wrote (tr : WriteTransaction) (batch : List BatchInfo) :
    Wrote batch (writeAll tr batch) := by
  have hpending : ∀ info : BatchInfo,
      (if info.state.isDone then { info with state := .committed } else info).state.isPending =
        info.state.isPending := fun info => by
    cases hstate : info.state <;> simp [hstate, IndexState.isDone, IndexState.isPending]
  have hid : ∀ info : BatchInfo,
      (if info.state.isDone then { info with state := .committed } else info).id = info.id := fun info => by
    split <;> rfl
  refine ⟨?_, fun x => ?_, fun x => ?_, ?_, writeAll_quiet tr batch, ?_⟩
  · rw [writeAll_entries, List.map_map]
    exact List.map_congr_left fun info _ => hid info
  · rw [writeAll_entries, writeAll_acts, List.countP_map]
    clear tr
    induction batch with
    | nil => rfl
    | cons info batch ih =>
      have hentry : (if (info.state.isDone && decide (info.id = x)) = true then 1 else 0) +
          (if openAt x (if info.state.isDone then { info with state := .committed } else info) = true
            then 1 else 0) = if openAt x info = true then 1 else 0 := by
        cases hstate : info.state <;> simp [openAt, hstate, IndexState.isDone, IndexState.isOpen]
      simp only [List.countP_cons, Function.comp_apply] at ih ⊢
      omega
  · rw [writeAll_entries, List.countP_map]
    refine List.countP_congr fun info _ => ?_
    rw [Function.comp_apply, pendingAt, pendingAt, hpending, hid]
  · rw [writeAll_entries, List.countP_map]
    exact List.countP_congr fun info _ => by rw [Function.comp_apply, hpending]
  · rw [writeAll_entries]
    intro info hinfo
    obtain ⟨info, -, rfl⟩ := List.mem_map.mp hinfo
    split
    · rfl
    · next hdone => exact Bool.not_eq_true _ ▸ hdone

/-- What has been done of a batch, counted by id. -/
structure Counted (ids : List DocId) (effects : List ExtractorEffect) (app : App) : Prop where
  extracted : ∀ x, effects.countP (extracts x) ≤ ids.count x
  acted : ∀ x, effects.countP (acts x) ≤ ids.count x
  /-- as long as the batch is worked on -/
  running : app.scheduled = .processNextFile → app.batch.map BatchInfo.id = ids ∧
    (∀ x, effects.countP (extracts x) + app.batch.countP (pendingAt x) ≤ ids.count x) ∧
    (∀ x, effects.countP (acts x) + app.batch.countP (openAt x) = ids.count x)
  finished : effects.countP finishes = if app.scheduled = .nothing then 1 else 0
  all : app.scheduled = .nothing → ∀ x, effects.countP (acts x) = ids.count x
  started : ∀ ids, app.scheduled ≠ .slotNewBatch ids

/-- What has been done, and what is left to be done of the batch, is the batch. -/
structure Balanced (ids : List DocId) (effects : List ExtractorEffect) (batch : List BatchInfo) : Prop where
  same : batch.map BatchInfo.id = ids
  extracted : ∀ x, effects.countP (extracts x) + batch.countP (pendingAt x) ≤ ids.count x
  acted : ∀ x, effects.countP (acts x) + batch.countP (openAt x) = ids.count x
  finished : effects.countP finishes = 0

section

variable {ids : List DocId} {effects : List ExtractorEffect} {batch : List BatchInfo} {app : App}

theorem Counted.balanced (h : Counted ids effects app) (hscheduled : app.scheduled = .processNextFile) :
    Balanced ids effects app.batch := by
  obtain ⟨hids, hextracted, hacted⟩ := h.running hscheduled
  have hfinished := h.finished
  rw [hscheduled, if_neg Scheduled.noConfusion] at hfinished
  exact ⟨hids, hextracted, hacted, hfinished⟩

/-- The batch is still worked on. -/
theorem Balanced.counted (h : Balanced ids effects batch) (hbatch : app.batch = batch)
    (hscheduled : app.scheduled = .processNextFile) : Counted ids effects app where
  extracted x := Nat.le_of_add_right_le (h.extracted x)
  acted x := Nat.le_of_add_right_le (h.acted x).le
  running _ := hbatch ▸ ⟨h.same, h.extracted, h.acted⟩
  finished := by rw [hscheduled, if_neg Scheduled.noConfusion, h.finished]
  all heq := by rw [hscheduled] at heq; cases heq
  started _ heq := by rw [hscheduled] at heq; cases heq

theorem Balanced.exited (h : Balanced ids effects batch) (code : ℕ) :
    Counted ids effects { app with scheduled := .exited code } where
  extracted x := Nat.le_of_add_right_le (h.extracted x)
  acted x := Nat.le_of_add_right_le (h.acted x).le
  running heq := by cases heq
  finished := h.finished
  all heq := by cases heq
  started _ heq := by cases heq

/-- What has been looked at is no longer pending, and has not been acted on. -/
theorem Balanced.looked {next : List BatchInfo × List ExtractorEffect} (h : Balanced ids effects batch)
    (hlooked : Looked batch next) : Balanced ids (effects ++ next.2) next.1 where
  same := hlooked.ids.trans h.same
  extracted x := by
    have hx := hlooked.extracted x
    have hbefore := h.extracted x
    rw [List.countP_append]
    omega
  acted x := by
    rw [List.countP_append, (hlooked.quiet x).1, hlooked.isOpen x]
    exact h.acted x
  finished := by rw [List.countP_append, h.finished, (hlooked.quiet 0).2]

/-- What has been written has been acted on. -/
theorem Balanced.wrote {r : WriteTransaction × List BatchInfo × List ExtractorEffect}
    (h : Balanced ids effects batch) (hwrote : Wrote batch r) : Balanced ids (effects ++ r.2.2) r.2.1 where
  same := hwrote.ids.trans h.same
  extracted x := by
    rw [List.countP_append, (hwrote.quiet x).1, hwrote.isPending x]
    exact h.extracted x
  acted x := by
    rw [List.countP_append, Nat.add_assoc, hwrote.acted x]
    exact h.acted x
  finished := by rw [List.countP_append, h.finished, (hwrote.quiet 0).2]

/-- One call of `processNextFile` keeps the count. -/
theorem Counted.processNextFile (h : Counted ids effects app) (hscheduled : app.scheduled = .processNextFile)
    (c : Call) (db : Database) :
    Counted ids (effects ++ (app.processNextFile c db).2.2) (app.processNextFile c db).1 := by
  have hlooked := indexNext_looked c.env app.batch
  have hcases := processNextFile_cases c app db
  generalize app.processNextFile c db = result at hcases ⊢
  dsimp only at hcases
  generalize indexNext c.env app.batch = next at hlooked hcases
  have hnext := (h.balanced hscheduled).looked hlooked
  have hwrote := writeAll_wrote { dbis := db } next.1
  generalize writeAll { dbis := db } next.1 = r at hwrote hcases
  have hr := hnext.wrote hwrote
  rw [List.append_assoc] at hr
  rcases hcases with ⟨-, rfl⟩ | ⟨-, rfl⟩ | ⟨code, rfl⟩ | ⟨-, rfl⟩ | ⟨hnone, rfl⟩
  · exact hnext.counted rfl hscheduled
  · exact hnext.counted rfl hscheduled
  · exact hnext.exited code
  · exact hr.counted rfl hscheduled
  · -- nothing is pending, so everything has been acted on
    have hopen : ∀ x, r.2.1.countP (openAt x) = 0 := fun x => by
      refine List.countP_eq_zero.mpr fun info hinfo => ?_
      simp [openAt, isOpen_eq, hnone info hinfo, hwrote.isDone info hinfo]
    have hacted : ∀ x, (effects ++ (next.2 ++ r.2.2 ++ [batchFinished])).countP (acts x) =
        ids.count x := fun x => by
      rw [← List.append_assoc, List.countP_append, ← hr.acted x, hopen x]
      rfl
    exact
      { extracted := fun x => by
          rw [← List.append_assoc, List.countP_append]
          exact Nat.le_of_add_right_le (hr.extracted x)
        acted := fun x => (hacted x).le
        running := fun heq => by cases heq
        finished := by
          rw [← List.append_assoc, List.countP_append, hr.finished]
          rfl
        all := fun _ => hacted
        started := fun _ heq => by cases heq }

end

end App

/-! ## Whole batches -/

namespace App

variable {c : Call} {app : App} {db : Database} {ids : List DocId}

/-- Nothing has been done when the batch has been read. -/
theorem counted_read (happ : app.batch = [])
    (hread : (app.slotNewBatch c db ids).scheduled = .processNextFile) :
    Counted ids [] (app.slotNewBatch c db ids) := by
  have hopen : ∀ x, (app.slotNewBatch c db ids).batch.countP (openAt x) = ids.count x ∧
      (app.slotNewBatch c db ids).batch.countP (pendingAt x) ≤ ids.count x := fun x => by
    rcases slotNewBatch_batch happ hread with hbatch | hbatch
    all_goals
      rw [hbatch, List.countP_map, List.countP_map, List.count_eq_countP]
      refine ⟨List.countP_congr fun id _ => ?_, List.countP_mono_left fun id _ hid => ?_⟩
    · simp [openAt, IndexState.isOpen]
    · simp [pendingAt, IndexState.isPending] at hid
    · simp [openAt, IndexState.isOpen]
    · simpa [pendingAt, IndexState.isPending] using hid
  have hids : (app.slotNewBatch c db ids).batch.map BatchInfo.id = ids := by
    rcases slotNewBatch_batch happ hread with hbatch | hbatch <;>
      rw [hbatch, List.map_map] <;> exact List.map_id ids
  exact
    { extracted := fun x => Nat.zero_le _
      acted := fun x => Nat.zero_le _
      running := fun _ => ⟨hids, fun x => by simpa using (hopen x).2, fun x => by simpa using (hopen x).1⟩
      finished := by rw [hread]; rfl
      all := fun heq => by rw [hread] at heq; cases heq
      started := fun _ heq => by rw [hread] at heq; cases heq }

theorem Counted.run {effects : List ExtractorEffect} (h : Counted ids effects app) (c : Call)
    (db : Database) : Counted ids (effects ++ (app.run c db).2.2) (app.run c db).1 := by
  rw [App.run]
  split
  · next heq => exact absurd heq (h.started _)
  · next heq => exact h.processNextFile heq c db
  · rw [List.append_nil]
    exact h
  · rw [List.append_nil]
    exact h

end App

/-- Whatever happens, the count is kept. -/
theorem App.Counted.steps {ids : List DocId} {s : ExtractorState} (h : Counted ids s.effects s.app)
    (events : List ExtractorEvent) : Counted ids (s.steps events).effects (s.steps events).app := by
  induction events generalizing s with
  | nil => exact h
  | cons event events ih =>
    rw [ExtractorState.steps, List.foldl_cons]
    apply ih
    cases event with
    | run c => exact h.run c s.db
    | other db => exact h

/-! ## Progress -/

/-- The call gets its transaction. -/
def ExtractorEvent.isValid : ExtractorEvent → Bool
  | .run c => c.isValid
  | .other _ => false

namespace App

variable {app : App} {c : Call}

/-- A call that gets its transaction and does not finish has looked at an entry. -/
theorem processNextFile_pending (c : Call) (db : Database)
    (hrunning : (app.processNextFile c db).1.scheduled = .processNextFile) :
    (app.processNextFile c db).1.batch.countP (fun info => info.state.isPending) +
        (if c.isValid then 1 else 0) ≤ app.batch.countP (fun info => info.state.isPending) := by
  have hlooked := (indexNext_looked c.env app.batch).pending
  have hcases := processNextFile_cases c app db
  generalize app.processNextFile c db = result at hcases hrunning ⊢
  dsimp only at hcases
  generalize indexNext c.env app.batch = next at hlooked hcases
  have hle : next.1.countP (fun info => info.state.isPending) ≤
      app.batch.countP (fun info => info.state.isPending) := by
    rcases hlooked with hlooked | ⟨heq, -⟩
    · exact Nat.le_of_succ_le hlooked
    · rw [heq]
  have hvalid : (if c.isValid then 1 else 0) ≤ 1 := by split <;> decide
  rcases hcases with ⟨⟨info, hinfo, hpending⟩, rfl⟩ | ⟨hinvalid, rfl⟩ | ⟨code, rfl⟩ |
    ⟨⟨info, hinfo, hpending⟩, rfl⟩ | ⟨-, rfl⟩
  · have hless := hlooked.resolve_right fun h => by rw [h.2 info hinfo] at hpending; cases hpending
    dsimp only
    omega
  · rw [hinvalid]
    exact hle
  · cases hrunning
  · -- what is still pending was pending before
    have hwrote := writeAll_wrote { dbis := db } next.1
    have hmore : 0 < next.1.countP (fun info => info.state.isPending) :=
      hwrote.pending ▸ List.countP_pos_iff.mpr ⟨info, hinfo, hpending⟩
    have hless := hlooked.resolve_right fun h => by
      rw [h.1] at hmore
      obtain ⟨info, hinfo, hpending⟩ := List.countP_pos_iff.mp hmore
      rw [h.2 info hinfo] at hpending
      cases hpending
    dsimp only
    rw [hwrote.pending]
    omega
  · cases hrunning

end App

/-! ## A batch that is not disturbed -/

/-- The entry when it has been acted on. -/
def BatchInfo.commit (info : BatchInfo) : BatchInfo := { info with state := .committed }

namespace App

/-- What is found in the first calls: each call looks at one entry. -/
def outcomes (batch : List BatchInfo) (calls : List Call) : List BatchInfo :=
  calls.foldl (fun batch c => (indexNext c.env batch).1) batch

/-- Entries that are not pending are passed over. -/
theorem indexNext_append (env : Surroundings) {pre : List BatchInfo} (batch : List BatchInfo)
    (h : ∀ info ∈ pre, info.state.isPending = false) :
    (indexNext env (pre ++ batch)).1 = pre ++ (indexNext env batch).1 := by
  induction pre with
  | nil => rfl
  | cons info pre ih =>
    obtain ⟨hinfo, hpre⟩ := List.forall_mem_cons.mp h
    rw [List.cons_append, indexNext, if_neg (by rw [hinfo]; exact Bool.false_ne_true), ih hpre]
    rfl

/-- Entries wait behind those that have been looked at. -/
theorem exists_indexNext (env : Surroundings) {ready waiting : List BatchInfo}
    (hready : ∀ info ∈ ready, info.state.isDone = true)
    (hwaiting : ∀ info ∈ waiting, info.state.isPending = true) :
    ∃ ready' waiting', (indexNext env (ready ++ waiting)).1 = ready' ++ waiting' ∧
      (∀ info ∈ ready', info.state.isDone = true) ∧ ∀ info ∈ waiting', info.state.isPending = true := by
  rw [indexNext_append env waiting fun info hinfo => isPending_eq_false (hready info hinfo)]
  rcases waiting with _ | ⟨info, waiting⟩
  · exact ⟨ready, [], rfl, hready, hwaiting⟩
  · obtain ⟨hinfo, hwaiting⟩ := List.forall_mem_cons.mp hwaiting
    refine ⟨ready ++ [(index env info).1], waiting, ?_, ?_, hwaiting⟩
    · rw [indexNext, if_pos hinfo, List.append_assoc]
      rfl
    · intro info' hinfo'
      rcases List.mem_append.mp hinfo' with hinfo' | hinfo'
      · exact hready info' hinfo'
      · rw [List.mem_singleton.mp hinfo']
        exact (index_indexed env info).isDone

/-- Looking at a file keeps what is asked of the entries. -/
theorem Sound.indexNext {db : Database} {batch : List BatchInfo} (h : Sound db batch)
    (hpath : ∀ info ∈ batch, info.state.isPending = true → info.path = db.docUrlDb.get info.id)
    (env : Surroundings) : Sound db (App.indexNext env batch).1 := by
  rcases indexNext_cases env batch with ⟨-, heq⟩ | ⟨pre, info, post, rfl, -, hinfo, heq⟩
  · rw [heq]
    exact h
  · rw [heq]
    intro info' hinfo'
    have hindexed := index_indexed env info
    rcases List.mem_append.mp hinfo' with hpre | hpost
    · exact h info' (List.mem_append_left _ hpre)
    · rcases List.mem_cons.mp hpost with rfl | hpost
      · intro result hresult
        obtain ⟨hid, hne⟩ := hindexed.succeeded result hresult
        rw [hindexed.id, hindexed.path]
        exact ⟨hid, hpath info (List.mem_append_right _ List.mem_cons_self) hinfo, hne⟩
      · exact h info' (List.mem_append_right _ (List.mem_cons_of_mem _ hpost))

/-- A batch of which some entries have been written, others have been looked at, and others wait. -/
structure Underway (db : Database) (found batch : List BatchInfo) (db' : Database) : Prop where
  entries : ∃ done ready waiting, found = done ++ (ready ++ waiting) ∧
    batch = done.map BatchInfo.commit ++ (ready ++ waiting) ∧
    (∀ info ∈ done, info.state.isDone = true) ∧ (∀ info ∈ ready, info.state.isDone = true) ∧
    (∀ info ∈ waiting, info.state.isPending = true) ∧ Settled db done db'

theorem isPending_commit {done : List BatchInfo} :
    ∀ info ∈ done.map BatchInfo.commit, info.state.isPending = false := by
  intro info hinfo
  obtain ⟨info, -, rfl⟩ := List.mem_map.mp hinfo
  rfl

/-- Looking at a file. -/
theorem Underway.indexNext {db db' : Database} {found batch : List BatchInfo}
    (h : Underway db found batch db') (env : Surroundings) :
    Underway db (App.indexNext env found).1 (App.indexNext env batch).1 db' := by
  obtain ⟨done, ready, waiting, rfl, rfl, hdone, hready, hwaiting, hsettled⟩ := h.entries
  obtain ⟨ready', waiting', heq, hready', hwaiting'⟩ := exists_indexNext env hready hwaiting
  refine ⟨⟨done, ready', waiting', ?_, ?_, hdone, hready', hwaiting', hsettled⟩⟩
  · rw [indexNext_append env _ fun info hinfo => isPending_eq_false (hdone info hinfo), heq]
  · rw [indexNext_append env _ isPending_commit, heq]

/-- Writing. -/
theorem Underway.writeAll {db db' : Database} {found batch : List BatchInfo}
    (h : Underway db found batch db') (hsound : Sound db found) (order : List Term) :
    Underway db found (App.writeAll { dbis := db' } batch).2.1
        ((App.writeAll { dbis := db' } batch).1.commit order) ∧
      ((∀ info ∈ (App.writeAll { dbis := db' } batch).2.1, info.state.isPending = false) →
        (∀ info ∈ found, info.state.isDone = true) ∧
          Settled db found ((App.writeAll { dbis := db' } batch).1.commit order)) := by
  obtain ⟨done, ready, waiting, rfl, rfl, hdone, hready, hwaiting, hsettled⟩ := h.entries
  have hwaiting' : ∀ info ∈ waiting, info.state.isDone = false := fun info hinfo => by
    have hpending := hwaiting info hinfo
    cases hstate : info.state <;> rw [hstate] at hpending <;> first | rfl | cases hpending
  have hentries : (App.writeAll { dbis := db' } (done.map BatchInfo.commit ++ (ready ++ waiting))).2.1 =
      (done ++ ready).map BatchInfo.commit ++ waiting := by
    have hcommit : ∀ {list : List BatchInfo}, (∀ info ∈ list, info.state.isDone = true) →
        list.map (fun info => if info.state.isDone then { info with state := .committed } else info) =
          list.map BatchInfo.commit := fun h =>
      List.map_congr_left fun info hinfo => if_pos (h info hinfo)
    have hwaits : waiting.map
        (fun info => if info.state.isDone then { info with state := .committed } else info) = waiting :=
      (List.map_congr_left fun info hinfo => if_neg (by rw [hwaiting' info hinfo]; exact Bool.false_ne_true)).trans
        (List.map_id' waiting)
    have hcommitted : (done.map BatchInfo.commit).map
        (fun info => if info.state.isDone then { info with state := .committed } else info) =
          done.map BatchInfo.commit := by
      rw [List.map_map]
      rfl
    rw [writeAll_entries, List.map_append, List.map_append, List.map_append, hcommit hready, hwaits, hcommitted,
      List.append_assoc]
  have hfilter : (done.map BatchInfo.commit ++ (ready ++ waiting)).filter (fun info => info.state.isDone) =
      ready := by
    have hcommitted : (done.map BatchInfo.commit).filter (fun info => info.state.isDone) = [] := by
      refine List.filter_eq_nil_iff.mpr fun info hinfo => ?_
      obtain ⟨info, -, rfl⟩ := List.mem_map.mp hinfo
      exact Bool.false_ne_true
    have hwaits : waiting.filter (fun info => info.state.isDone) = [] :=
      List.filter_eq_nil_iff.mpr fun info hinfo => by
        rw [hwaiting' info hinfo]
        exact Bool.false_ne_true
    rw [List.filter_append, List.filter_append, List.filter_eq_self.mpr hready, hcommitted, hwaits,
      List.nil_append, List.append_nil]
  have hsound' : Sound db (done.map BatchInfo.commit ++ (ready ++ waiting)) := by
    intro info hinfo result hresult
    rcases List.mem_append.mp hinfo with hcommitted | hinfo
    · obtain ⟨info, -, rfl⟩ := List.mem_map.mp hcommitted
      cases hresult
    · exact hsound info (List.mem_append_right _ hinfo) result hresult
  have hwritten : Settled db (done ++ ready)
      ((App.writeAll { dbis := db' } (done.map BatchInfo.commit ++ (ready ++ waiting))).1.commit order) := by
    have hall := @Settled.writeAll { dbis := db' } _ db done hsettled hsound'
    rw [hfilter] at hall
    exact hall.commit order
  have hdone' : ∀ info ∈ done ++ ready, info.state.isDone = true := fun info hinfo =>
    (List.mem_append.mp hinfo).elim (hdone info) (hready info)
  refine ⟨⟨⟨done ++ ready, [], waiting, by simp, by rw [hentries, List.nil_append], hdone', ?_, hwaiting,
    hwritten⟩⟩, fun hnone => ?_⟩
  · exact fun info hinfo => absurd hinfo List.not_mem_nil
  · -- nothing waits
    obtain rfl : waiting = [] := by
      refine List.eq_nil_iff_forall_not_mem.mpr fun info hinfo => ?_
      have hpending := hnone info (by rw [hentries]; exact List.mem_append_right _ hinfo)
      rw [hwaiting info hinfo] at hpending
      cases hpending
    rw [List.append_nil] at hwritten ⊢
    exact ⟨hdone', hwritten⟩

/-- A run in which nothing else changes the index. -/
structure Quiet (db : Database) (found : List BatchInfo) (s : ExtractorState) : Prop where
  sound : Sound db found
  path : ∀ info ∈ found, info.state.isPending = true → info.path = db.docUrlDb.get info.id
  running : s.app.scheduled = .processNextFile → Underway db found s.app.batch s.db
  finished : s.app.scheduled = .nothing →
    (∀ info ∈ found, info.state.isDone = true) ∧ Settled db found s.db
  started : ∀ ids, s.app.scheduled ≠ .slotNewBatch ids

theorem Quiet.step {db : Database} {found : List BatchInfo} {s : ExtractorState} (h : Quiet db found s)
    (c : Call) : Quiet db (App.indexNext c.env found).1 (s.step (.run c)) := by
  have hsound := h.sound.indexNext h.path c.env
  have hpath : ∀ info ∈ (App.indexNext c.env found).1, info.state.isPending = true →
      info.path = db.docUrlDb.get info.id := by
    rcases indexNext_cases c.env found with ⟨-, heq⟩ | ⟨pre, first, post, rfl, -, -, heq⟩
    · rw [heq]
      exact h.path
    · rw [heq]
      intro info hinfo hpending
      rcases List.mem_append.mp hinfo with hpre | hpost
      · exact h.path info (List.mem_append_left _ hpre) hpending
      · rcases List.mem_cons.mp hpost with rfl | hpost
        · rw [isPending_eq_false (index_indexed c.env first).isDone] at hpending
          cases hpending
        · exact h.path info (List.mem_append_right _ (List.mem_cons_of_mem _ hpost)) hpending
  rw [ExtractorState.step, App.run]
  split
  · next heq => exact absurd heq (h.started _)
  · next hscheduled =>
    have hlooked := (h.running hscheduled).indexNext c.env
    obtain ⟨hwrote, hfinished⟩ := hlooked.writeAll hsound c.order
    have hcases := processNextFile_cases c s.app s.db
    generalize s.app.processNextFile c s.db = result at hcases ⊢
    dsimp only at hcases
    rcases hcases with ⟨-, rfl⟩ | ⟨-, rfl⟩ | ⟨code, rfl⟩ | ⟨-, rfl⟩ | ⟨hnone, rfl⟩
    · exact ⟨hsound, hpath, fun _ => hlooked, fun heq => Scheduled.noConfusion (hscheduled.symm.trans heq), h.started⟩
    · exact ⟨hsound, hpath, fun _ => hlooked, fun heq => Scheduled.noConfusion (hscheduled.symm.trans heq), h.started⟩
    · exact ⟨hsound, hpath, fun heq => Scheduled.noConfusion heq, fun heq => Scheduled.noConfusion heq,
        fun _ heq => Scheduled.noConfusion heq⟩
    · exact ⟨hsound, hpath, fun _ => hwrote, fun heq => Scheduled.noConfusion (hscheduled.symm.trans heq), h.started⟩
    · exact ⟨hsound, hpath, fun heq => Scheduled.noConfusion heq, fun _ => hfinished hnone,
        fun _ heq => Scheduled.noConfusion heq⟩
  · next hscheduled =>
    -- the batch is done, there is nothing left to look at
    obtain ⟨hdone, hsettled⟩ := h.finished hscheduled
    have hsame : (App.indexNext c.env found).1 = found := by
      have happend := indexNext_append c.env [] fun info hinfo => isPending_eq_false (hdone info hinfo)
      rwa [List.append_nil, App.indexNext, List.append_nil] at happend
    rw [hsame]
    exact ⟨h.sound, h.path, h.running, h.finished, h.started⟩
  · next hscheduled =>
    exact ⟨hsound, hpath, fun heq => Scheduled.noConfusion (hscheduled.symm.trans heq),
      fun heq => Scheduled.noConfusion (hscheduled.symm.trans heq), h.started⟩

theorem Quiet.steps {db : Database} {batch : List BatchInfo} {s : ExtractorState} (h : Quiet db batch s)
    (calls : List Call) : Quiet db (outcomes batch calls) (s.steps (calls.map .run)) := by
  induction calls generalizing batch s with
  | nil => exact h
  | cons c calls ih => exact ih (h.step c)

variable {c : Call} {app : App} {db : Database} {ids : List DocId}

theorem quiet_read (happ : app.batch = [])
    (hread : (app.slotNewBatch c db ids).scheduled = .processNextFile) :
    Quiet db (app.slotNewBatch c db ids).batch (ExtractorState.read c app db ids) := by
  have hunderway : Underway db (app.slotNewBatch c db ids).batch (app.slotNewBatch c db ids).batch db := by
    rcases slotNewBatch_batch happ hread with hbatch | hbatch
    all_goals rw [hbatch]
    · refine ⟨⟨[], _, [], (List.append_nil _).symm, (List.append_nil _).symm, ?_, ?_, ?_, .nil db⟩⟩
      · exact fun info hinfo => absurd hinfo List.not_mem_nil
      · intro info hinfo
        obtain ⟨id, -, rfl⟩ := List.mem_map.mp hinfo
        rfl
      · exact fun info hinfo => absurd hinfo List.not_mem_nil
    · refine ⟨⟨[], [], _, rfl, rfl, ?_, ?_, ?_, .nil db⟩⟩
      · exact fun info hinfo => absurd hinfo List.not_mem_nil
      · exact fun info hinfo => absurd hinfo List.not_mem_nil
      · intro info hinfo
        obtain ⟨id, -, rfl⟩ := List.mem_map.mp hinfo
        rfl
  have hentry : ∀ info ∈ (app.slotNewBatch c db ids).batch, info.state.isSucceeded = false ∧
      (info.state.isPending = true → info.path = db.docUrlDb.get info.id) := by
    rcases slotNewBatch_batch happ hread with hbatch | hbatch
    all_goals
      rw [hbatch]
      intro info hinfo
      obtain ⟨id, -, rfl⟩ := List.mem_map.mp hinfo
    · exact ⟨rfl, fun hpending => absurd hpending Bool.false_ne_true⟩
    · exact ⟨rfl, fun _ => rfl⟩
  exact
    { sound := fun info hinfo result hresult => by
        have hnot := (hentry info hinfo).1
        rw [hresult] at hnot
        cases hnot
      path := fun info hinfo => (hentry info hinfo).2
      running := fun _ => hunderway
      finished := fun heq => Scheduled.noConfusion (hread.symm.trans heq)
      started := fun _ heq => Scheduled.noConfusion (hread.symm.trans heq) }

/-- As long as the batch is not finished, each call with a transaction has looked at an entry. -/
theorem pending_steps (hcounted : ∀ events,
      Counted ids ((ExtractorState.read c app db ids).steps events).effects
        ((ExtractorState.read c app db ids).steps events).app)
    (events : List ExtractorEvent)
    (hrunning : ((ExtractorState.read c app db ids).steps events).app.scheduled = .processNextFile) :
    ((ExtractorState.read c app db ids).steps events).app.batch.countP (fun info => info.state.isPending) +
      events.countP ExtractorEvent.isValid ≤ ids.length := by
  induction events using List.reverseRecOn with
  | nil =>
    have hids := congrArg List.length ((hcounted []).running hrunning).1
    rw [List.length_map] at hids
    exact hids ▸ List.countP_le_length
  | append_singleton events event ih =>
    have hstep : (ExtractorState.read c app db ids).steps (events ++ [event]) =
        ((ExtractorState.read c app db ids).steps events).step event := by
      rw [ExtractorState.steps, List.foldl_append]
      rfl
    have hstarted := (hcounted events).started
    rw [hstep] at hrunning ⊢
    rw [List.countP_append]
    generalize (ExtractorState.read c app db ids).steps events = s at ih hstarted hrunning ⊢
    cases event with
    | other db => exact ih hrunning
    | run c =>
      rw [ExtractorState.step, App.run] at hrunning ⊢
      split at hrunning
      · next heq => exact absurd heq (hstarted _)
      · next hscheduled =>
        have hbefore := ih hscheduled
        have hpending := processNextFile_pending c s.db hrunning
        have hvalid : [ExtractorEvent.run c].countP ExtractorEvent.isValid = if c.isValid then 1 else 0 := by
          rw [List.countP_singleton]
          rfl
        rw [hvalid]
        dsimp only
        omega
      · next heq => exact Scheduled.noConfusion (heq.symm.trans hrunning)
      · next heq => exact Scheduled.noConfusion (heq.symm.trans hrunning)

end App

open App

/-- **Each entry of a batch is extracted at most once and acted on in one commit, and the batch is
reported as finished once, when all have been acted on**: whatever the files are, whichever transactions
fail, and whatever other processes do to the index. It is finished after one more call that gets its
transaction than there are entries, unless the process has gone. If nobody else changes the index, the
ids of the batch are out of the queue then exactly if no id that waits is left behind, with all its
extractions written after the removal of an entry above it. -/
theorem batch_once {c : Call} {app : App} {db : Database} {ids : List DocId} (happ : app.batch = [])
    (hread : (app.slotNewBatch c db ids).scheduled = .processNextFile) :
    (∀ events, let s := (ExtractorState.read c app db ids).steps events
      (∀ x, s.effects.countP (extracts x) ≤ ids.count x) ∧
      (∀ x, s.effects.countP (acts x) ≤ ids.count x) ∧
      s.effects.countP finishes = (if s.app.scheduled = .nothing then 1 else 0) ∧
      (s.app.scheduled = .nothing → ∀ x, s.effects.countP (acts x) = ids.count x) ∧
      (ids.length < events.countP ExtractorEvent.isValid →
        s.app.scheduled = .nothing ∨ ∃ code, s.app.scheduled = .exited code)) ∧
    ∀ calls : List Call, let s := (ExtractorState.read c app db ids).steps (calls.map .run)
      s.app.scheduled = .nothing →
        ((∀ x ∈ ids, s.db.contentIndexingDb.contains x = false) ↔
          ¬ ∃ x ∈ ids, db.contentIndexingDb.contains x = true ∧
            LeavesBehind db (outcomes (app.slotNewBatch c db ids).batch calls) x) := by
  have hcounted := (counted_read happ hread).steps (s := ExtractorState.read c app db ids)
  refine ⟨fun events => ?_, fun calls => ?_⟩
  · have h := hcounted events
    refine ⟨h.extracted, h.acted, h.finished, h.all, fun hmany => ?_⟩
    rcases hscheduled : ((ExtractorState.read c app db ids).steps events).app.scheduled with _ | ids' | _ | code
    · exact .inl rfl
    · exact absurd hscheduled (h.started ids')
    · have hpending := pending_steps hcounted events hscheduled
      omega
    · exact .inr ⟨code, rfl⟩
  · intro s hfinished
    obtain ⟨-, hsettled⟩ := ((quiet_read happ hread).steps calls).finished hfinished
    constructor
    · rintro hout ⟨x, hx, hwaits, hleft⟩
      have hstill := (hsettled.queue x).mpr ⟨hwaits, hleft⟩
      rw [hout x hx] at hstill
      cases hstill
    · intro hnone x hx
      rw [Bool.eq_false_iff]
      intro hstill
      obtain ⟨hwaits, hleft⟩ := (hsettled.queue x).mp hstill
      exact hnone ⟨x, hx, hwaits, hleft⟩

/-- The directory `/p/a` has been made anew, and the file in it is the one that was there before. -/
def madeAnew : Snapshot :=
  .ofEntries [{ components := [[112]], id := 5, stat := { isDir := true } },
    { components := [[112], [97]], id := 3, stat := { isDir := true } },
    { components := [[112], [97], [98]], id := 2, stat := { size := 1 } }] (by decide)

/-- The directory `/p/a` and the file in it as they were, both waiting for the extractor. -/
def bothWait : Database where
  docUrlDb := ((({} : DocumentUrlDB).add 5 0 [112]).add 1 5 [97]).add 2 1 [98]
  contentIndexingDb := ((∅ : DocumentIdDB).put 1).put 2

/-- The extractor looks at the files as they are now. -/
def lookAgain : Call := { env := plainFiles madeAnew, timeout := false }

theorem batch_once_bothWait :
    ¬ ∃ x ∈ [2, 1], bothWait.contentIndexingDb.contains x = true ∧ LeavesBehind bothWait
      (outcomes (App.slotNewBatch lookAgain { scheduled := .slotNewBatch [2, 1] } bothWait [2, 1]).batch
        [lookAgain, lookAgain, lookAgain]) x :=
  ((@batch_once lookAgain { scheduled := .slotNewBatch [2, 1] } bothWait [2, 1] rfl
    (by decide +kernel)).2 [lookAgain, lookAgain, lookAgain] (by decide +kernel)).mp
      (by decide +kernel)

/-- A directory is removed before the file in it is written: the file stays in the queue. -/
theorem file_left_behind : ¬ ∀ (c : Call) (app : App) (db : Database) (ids : List DocId) (calls : List Call),
    app.batch = [] → (app.slotNewBatch c db ids).scheduled = .processNextFile →
    ((ExtractorState.read c app db ids).steps (calls.map .run)).app.scheduled = .nothing →
    ∀ x ∈ ids,
      ((ExtractorState.read c app db ids).steps (calls.map .run)).db.contentIndexingDb.contains x = false := by
  intro h
  have hout := h lookAgain { scheduled := .slotNewBatch [1, 2] } bothWait [1, 2]
    [lookAgain, lookAgain, lookAgain] rfl (by decide +kernel) (by decide +kernel) 2 (by decide)
  exact absurd hout (by decide +kernel)

end Baloo
