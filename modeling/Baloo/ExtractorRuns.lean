import Baloo.Extractor

/-!
# Runs of the extractor

What one call does (`processNextFile_cases`), what writing an entry does to the urls and to the queue
(`Written`), and what the entries of a batch do to them if nobody else changes the index (`Settled`).

Between looking at a file and writing what has come of it the index may change. The result of an
extraction is written only for an id that still waits and still has the url that was extracted. A
removal is not checked again: it is right as long as no step changes the url of the document before
(`removal_current`), and a file that has been renamed meanwhile is removed (`renamed_file_removed`).
-/

namespace Baloo

open ExtractorEffect

/-- The entry has not been acted on. -/
def IndexState.isOpen : IndexState → Bool
  | .committed => false
  | _ => true

theorem IndexState.isSucceeded_iff {state : IndexState} :
    state.isSucceeded = true ↔ ∃ result, state = .succeeded result := by
  cases state <;> simp [isSucceeded]

namespace App

variable {tr : WriteTransaction} {info : BatchInfo} {batch : List BatchInfo} {x : DocId}

/-! ## One entry is written -/

/-- The result of the entry is not written: the index has something else under the id. -/
def isStale (tr : WriteTransaction) (info : BatchInfo) : Bool :=
  info.state.isSucceeded &&
    (!tr.inPhaseOne info.id || !tr.hasDocument info.id || tr.documentUrl info.id ≠ info.path)

/-- What `write` does to the URL tables and to the queue. -/
structure Written (tr : WriteTransaction) (info : BatchInfo) (tr' : WriteTransaction) : Prop where
  docUrlDb : tr'.dbis.docUrlDb =
    if info.state.removes then tr.dbis.docUrlDb.del info.id else tr.dbis.docUrlDb
  inPhaseOne : ∀ x, tr'.inPhaseOne x =
    (tr.inPhaseOne x && !(decide (x = info.id) && info.state.isDone && !isStale tr info))

theorem written_removeDocument (hremoves : info.state.removes = true) :
    Written tr info (tr.removeDocument info.id) := by
  have hdone : info.state.isDone = true ∧ isStale tr info = false := by
    rw [isStale]
    cases hstate : info.state <;> simp_all [IndexState.removes, IndexState.isDone, IndexState.isSucceeded]
  refine ⟨by rw [if_pos hremoves]; rfl, fun x => ?_⟩
  rw [hdone.1, hdone.2]
  simp [WriteTransaction.inPhaseOne, WriteTransaction.removeDocument, Bool.and_comm]

theorem write_written (hok : ∀ result, info.state = .succeeded result → result.id = info.id) :
    Written tr info (write tr info).1 := by
  rcases hstate : info.state with _ | _ | _ | _ | result | _
  · rw [write, hstate]
    exact ⟨by rw [hstate]; rfl, fun x => by simp [hstate, IndexState.isDone]⟩
  · rw [write, hstate]
    exact written_removeDocument (by rw [hstate]; rfl)
  · rw [write, hstate]
    exact written_removeDocument (by rw [hstate]; rfl)
  · rw [write, hstate]
    refine ⟨by rw [hstate]; rfl, fun x => ?_⟩
    simp [hstate, isStale, IndexState.isDone, IndexState.isSucceeded, WriteTransaction.inPhaseOne,
      WriteTransaction.removePhaseOne, Bool.and_comm]
  · have hid := hok result hstate
    by_cases hstale : isStale tr info = true
    · -- nothing is written
      have hwrite : (write tr info).1 = tr := by
        rw [isStale, hstate, IndexState.isSucceeded, Bool.true_and, Bool.or_assoc, Bool.or_eq_true,
          Bool.or_eq_true, decide_eq_true_iff] at hstale
        rw [write, hstate]
        dsimp only
        rcases hstale with hstale | hstale | hstale
        · rw [if_pos hstale]
        · split_ifs <;> rfl
        · split_ifs <;> rfl
      rw [hwrite]
      exact ⟨by rw [hstate]; rfl, fun x => by simp [hstale]⟩
    · obtain ⟨docTermsDb, docXattrTermsDb, docFilenameTermsDb, hframe⟩ :=
        tr.replaceDocument_frame result { documentTerms := true, documentData := true }
      have hwrite : (write tr info).1 = ((tr.replaceDocument result
          { documentTerms := true, documentData := true }).removePhaseOne info.id).removeFailed info.id := by
        rw [isStale, hstate, IndexState.isSucceeded, Bool.true_and, Bool.or_assoc, Bool.or_eq_true,
          Bool.or_eq_true, decide_eq_true_iff, not_or, not_or] at hstale
        rw [write, hstate]
        dsimp only
        rw [if_neg hstale.1, if_neg hstale.2.1, if_neg hstale.2.2]
      rw [hwrite]
      refine ⟨?_, fun x => ?_⟩
      · simp only [WriteTransaction.removeFailed, WriteTransaction.removePhaseOne, hframe]
        rw [hstate]
        rfl
      · simp only [WriteTransaction.inPhaseOne, WriteTransaction.removeFailed,
          WriteTransaction.removePhaseOne, hframe, WriteTransaction.replaceData, hid]
        rw [Bool.eq_false_iff.mpr hstale]
        split <;> by_cases hx : x = info.id <;> simp [hx, hstate, IndexState.isDone, DocumentIdDB.put]
  · rw [write, hstate]
    exact ⟨by rw [hstate]; rfl, fun x => by simp [hstate, IndexState.isDone]⟩

/-- What `write` does to the entry and what it reports. -/
theorem write_entry (tr : WriteTransaction) (info : BatchInfo) :
    (write tr info).2.1 = (if info.state.isDone then { info with state := .committed } else info) ∧
      ((write tr info).2.2 = [] ∧ info.state.isDone = false ∨
        ∃ action, (write tr info).2.2 = [.acted info action] ∧ info.state.isDone = true) := by
  rcases hstate : info.state with _ | _ | _ | _ | result | _
  all_goals
    rw [write, hstate]
    dsimp only
  · exact ⟨rfl, .inl ⟨rfl, rfl⟩⟩
  · exact ⟨rfl, .inr ⟨_, rfl, rfl⟩⟩
  · exact ⟨rfl, .inr ⟨_, rfl, rfl⟩⟩
  · exact ⟨rfl, .inr ⟨_, rfl, rfl⟩⟩
  · have hdone : (IndexState.succeeded result).isDone = true := rfl
    rw [if_pos hdone]
    split_ifs <;> exact ⟨rfl, .inr ⟨_, rfl, rfl⟩⟩
  · exact ⟨rfl, .inl ⟨rfl, rfl⟩⟩

/-- An entry that is not done is passed over. -/
theorem write_of_not_done (tr : WriteTransaction) (h : info.state.isDone = false) :
    write tr info = (tr, info, []) := by
  rcases hstate : info.state with _ | _ | _ | _ | result | _
  · rw [write, hstate]
  · rw [hstate] at h; cases h
  · rw [hstate] at h; cases h
  · rw [hstate] at h; cases h
  · rw [hstate] at h; cases h
  · rw [write, hstate]

/-! ## The entries of a batch -/

theorem writeAll_entries (tr : WriteTransaction) (batch : List BatchInfo) :
    (writeAll tr batch).2.1 =
      batch.map fun info => if info.state.isDone then { info with state := .committed } else info := by
  induction batch generalizing tr with
  | nil => rfl
  | cons info batch ih => rw [writeAll, List.map_cons, ih, (write_entry tr info).1]

/-- Each entry that is done is acted on once. -/
theorem writeAll_acts (tr : WriteTransaction) (batch : List BatchInfo) (x : DocId) :
    (writeAll tr batch).2.2.countP (acts x) =
      batch.countP fun info => info.state.isDone && info.id = x := by
  induction batch generalizing tr with
  | nil => rfl
  | cons info batch ih =>
    rw [writeAll, List.countP_append, ih, List.countP_cons, Nat.add_comm]
    congr 1
    rcases (write_entry tr info).2 with ⟨heffects, hdone⟩ | ⟨action, heffects, hdone⟩
    · rw [heffects, hdone]
      simp
    · rw [heffects, hdone]
      simp [acts, List.countP_cons]

/-- Writing extracts nothing, and does not report the batch as finished. -/
theorem writeAll_quiet (tr : WriteTransaction) (batch : List BatchInfo) (x : DocId) :
    (writeAll tr batch).2.2.countP (extracts x) = 0 ∧ (writeAll tr batch).2.2.countP finishes = 0 := by
  induction batch generalizing tr with
  | nil => exact ⟨rfl, rfl⟩
  | cons info batch ih =>
    rw [writeAll, List.countP_append, List.countP_append, (ih _).1, (ih _).2]
    rcases (write_entry tr info).2 with ⟨heffects, -⟩ | ⟨action, heffects, -⟩ <;> rw [heffects] <;>
      exact ⟨rfl, rfl⟩

/-- The first entry that is pending is looked at, if there is one. -/
theorem indexNext_cases (env : Surroundings) (batch : List BatchInfo) :
    (∀ info ∈ batch, info.state.isPending = false) ∧ indexNext env batch = (batch, []) ∨
      ∃ pre info post, batch = pre ++ info :: post ∧ (∀ info ∈ pre, info.state.isPending = false) ∧
        info.state.isPending = true ∧
        indexNext env batch = (pre ++ (index env info).1 :: post, (index env info).2) := by
  induction batch with
  | nil => exact .inl ⟨fun info h => absurd h List.not_mem_nil, rfl⟩
  | cons first batch ih =>
    by_cases hfirst : first.state.isPending = true
    · refine .inr ⟨[], first, batch, rfl, fun info h => absurd h List.not_mem_nil, hfirst, ?_⟩
      rw [indexNext, if_pos hfirst]
      rfl
    · rw [indexNext, if_neg hfirst]
      rw [Bool.not_eq_true] at hfirst
      rcases ih with ⟨hnone, heq⟩ | ⟨pre, info, post, rfl, hpre, hinfo, heq⟩
      · rw [heq]
        exact .inl ⟨List.forall_mem_cons.mpr ⟨hfirst, hnone⟩, rfl⟩
      · rw [heq]
        exact .inr ⟨first :: pre, info, post, rfl, List.forall_mem_cons.mpr ⟨hfirst, hpre⟩, hinfo, rfl⟩

/-! ## One call -/

/-- What a call of `processNextFile` can do: look at a file, fail to get a transaction, end the process,
write and go on, or write and be done. -/
theorem processNextFile_cases (c : Call) (app : App) (db : Database) :
    let next := indexNext c.env app.batch
    let r := writeAll { dbis := db } next.1
    (∃ info ∈ app.batch, info.state.isPending = true) ∧
        app.processNextFile c db = ({ app with batch := next.1 }, db, next.2) ∨
      c.isValid = false ∧ app.processNextFile c db =
        ({ app with batch := next.1, consecutiveErrors := app.consecutiveErrors + 1 }, db, next.2) ∨
      (∃ code, app.processNextFile c db = ({ app with scheduled := .exited code }, db, next.2)) ∨
      (∃ info ∈ r.2.1, info.state.isPending = true) ∧ app.processNextFile c db =
        ({ app with batch := r.2.1, consecutiveErrors := 0 }, r.1.commit c.order, next.2 ++ r.2.2) ∨
      (∀ info ∈ r.2.1, info.state.isPending = false) ∧ app.processNextFile c db =
        ({ batch := [], consecutiveErrors := 0, scheduled := .nothing }, r.1.commit c.order,
          next.2 ++ r.2.2 ++ [batchFinished]) := by
  intro next r
  by_cases hlook : (app.batch.any fun info => info.state.isPending) ∧ !c.timeout
  · refine .inl ⟨List.any_eq_true.mp hlook.1, ?_⟩
    rw [processNextFile]
    exact if_pos hlook
  · by_cases hvalid : c.isValid = true
    · by_cases hcommits : (!c.commits) = true
      · refine .inr (.inr (.inl ⟨2, ?_⟩))
        rw [processNextFile]
        dsimp only
        rw [if_neg hlook, if_pos hvalid, if_pos hcommits]
      · by_cases hpending : (r.2.1.any fun info => info.state.isPending) = true
        · refine .inr (.inr (.inr (.inl ⟨List.any_eq_true.mp hpending, ?_⟩)))
          rw [processNextFile]
          dsimp only
          rw [if_neg hlook, if_pos hvalid, if_neg hcommits, if_pos hpending]
        · refine .inr (.inr (.inr (.inr ⟨fun info hinfo => ?_, ?_⟩)))
          · exact Bool.not_eq_true _ ▸ fun h => hpending (List.any_eq_true.mpr ⟨info, hinfo, h⟩)
          · rw [processNextFile]
            dsimp only
            rw [if_neg hlook, if_pos hvalid, if_neg hcommits, if_neg hpending]
    · by_cases herrors : 10 < app.consecutiveErrors
      · refine .inr (.inr (.inl ⟨3, ?_⟩))
        rw [processNextFile]
        dsimp only
        rw [if_neg hlook, if_neg hvalid, if_pos herrors]
      · refine .inr (.inl ⟨Bool.not_eq_true _ ▸ hvalid, ?_⟩)
        rw [processNextFile]
        dsimp only
        rw [if_neg hlook, if_neg hvalid, if_neg herrors]

/-! ## What a batch does to the index -/

/-- Some entry has removed the id. -/
def RemovedBy (done : List BatchInfo) (i : DocId) : Prop :=
  i ≠ 0 ∧ ∃ info ∈ done, info.state.removes = true ∧ info.id = i

/-- The entries leave the id in the queue: each of those for it has been extracted, and comes after the
removal of an entry above it. -/
def LeavesBehind (db : Database) (done : List BatchInfo) (x : DocId) : Prop :=
  ∀ pre info post, done = pre ++ info :: post → info.id = x →
    info.state.isSucceeded = true ∧ ∃ a ∈ db.docUrlDb.climb 513 x, RemovedBy pre a

/-- What is in the tables after the entries have been written, if nothing else happens. -/
structure Settled (db : Database) (done : List BatchInfo) (db' : Database) : Prop where
  removed : ∀ i, RemovedBy done i → db'.docUrlDb.idFilenameDb.get i = none
  kept : ∀ i, ¬ RemovedBy done i →
    db'.docUrlDb.idFilenameDb.get i = db.docUrlDb.idFilenameDb.get i
  queue : ∀ x, db'.contentIndexingDb.contains x = true ↔
    db.contentIndexingDb.contains x = true ∧ LeavesBehind db done x

theorem Settled.pruned {db db' : Database} {done : List BatchInfo} (h : Settled db done db') :
    db.docUrlDb.Pruned db'.docUrlDb := by
  intro i
  by_cases hi : RemovedBy done i
  · exact .inl (h.removed i hi)
  · exact .inr (h.kept i hi)

theorem Settled.nil (db : Database) : Settled db [] db where
  removed i h := by
    obtain ⟨-, info, hmem, -⟩ := h
    exact absurd hmem List.not_mem_nil
  kept i _ := rfl
  queue x := by
    refine ⟨fun h => ⟨h, fun pre info post heq => ?_⟩, And.left⟩
    exact absurd heq.symm (List.append_ne_nil_of_right_ne_nil _ (List.cons_ne_nil _ _))

theorem removedBy_concat {done : List BatchInfo} {i : DocId} :
    RemovedBy (done ++ [info]) i ↔
      RemovedBy done i ∨ i ≠ 0 ∧ info.state.removes = true ∧ info.id = i := by
  simp only [RemovedBy, List.mem_append, List.mem_singleton, or_and_right, exists_or, exists_eq_left,
    and_or_left]

theorem leavesBehind_concat {db : Database} {done : List BatchInfo} :
    LeavesBehind db (done ++ [info]) x ↔ LeavesBehind db done x ∧ (info.id = x →
      info.state.isSucceeded = true ∧ ∃ a ∈ db.docUrlDb.climb 513 x, RemovedBy done a) := by
  constructor
  · intro h
    refine ⟨fun pre info' post heq => h pre info' (post ++ [info]) (by rw [heq]; simp), h done info [] rfl⟩
  · rintro ⟨hdone, hlast⟩ pre info' post heq
    rcases List.eq_nil_or_concat' post with rfl | ⟨post, last, rfl⟩
    · obtain ⟨rfl, hinfo⟩ := List.append_inj' heq rfl
      obtain rfl := List.singleton_inj.mp hinfo
      exact hlast
    · rw [← List.cons_append, ← List.append_assoc] at heq
      exact hdone pre info' post (List.append_inj' heq rfl).1

/-- The result of an extraction is not written exactly if an entry above has been removed. -/
theorem Settled.isStale_iff {db : Database} {done : List BatchInfo} (h : Settled db done tr.dbis)
    (hsucceeded : info.state.isSucceeded = true) (hpath : info.path = db.docUrlDb.get info.id)
    (hne : info.path ≠ []) (hqueue : tr.inPhaseOne info.id = true) :
    isStale tr info = true ↔ ∃ a ∈ db.docUrlDb.climb 513 info.id, RemovedBy done a := by
  have hgone : (∃ a ∈ db.docUrlDb.climb 513 info.id, RemovedBy done a) → tr.documentUrl info.id = [] := by
    rintro ⟨a, ha, hremoved⟩
    exact h.pruned.get_eq_nil ha (h.removed a hremoved)
  constructor
  · intro hstale
    by_contra hnone
    have hsame : ∀ a ∈ db.docUrlDb.climb 513 info.id,
        tr.dbis.docUrlDb.idFilenameDb.get a = db.docUrlDb.idFilenameDb.get a :=
      fun a ha => h.kept a fun hremoved => hnone ⟨a, ha, hremoved⟩
    have hurl : tr.documentUrl info.id = info.path := by
      rw [hpath] at hne ⊢
      exact DocumentUrlDB.get_congr hne hsame
    have hdocument : tr.hasDocument info.id = true := by
      have hmem := DocumentUrlDB.mem_climb_of_get (hpath ▸ hne) 512
      obtain ⟨hid, hcontains⟩ := DocumentUrlDB.contains_of_mem_climb hmem
      rw [WriteTransaction.hasDocument, DocumentUrlDB.contains, Bool.and_eq_true, decide_eq_true_iff]
      exact ⟨hid, by rw [OrdMap.contains, hsame _ hmem]; exact hcontains⟩
    simp [isStale, hqueue, hdocument, hurl] at hstale
  · intro hremoved
    have hurl : tr.documentUrl info.id ≠ info.path := fun heq => hne (heq ▸ hgone hremoved)
    simp [isStale, hsucceeded, hurl]

/-- One entry is written. -/
theorem Settled.write {db : Database} {done : List BatchInfo} (h : Settled db done tr.dbis)
    (hdone : info.state.isDone = true)
    (hok : ∀ result, info.state = .succeeded result →
      result.id = info.id ∧ info.path = db.docUrlDb.get info.id ∧ info.path ≠ []) :
    Settled db (done ++ [info]) (App.write tr info).1.dbis := by
  have hwritten : Written tr info (App.write tr info).1 := write_written fun result hstate => (hok result hstate).1
  have hurl : ∀ i, (App.write tr info).1.dbis.docUrlDb.idFilenameDb.get i =
      if i ≠ 0 ∧ info.state.removes = true ∧ info.id = i then none
      else tr.dbis.docUrlDb.idFilenameDb.get i := by
    intro i
    rw [hwritten.docUrlDb]
    by_cases hremoves : info.state.removes = true
    · rw [if_pos hremoves, DocumentUrlDB.idFilenameDb_del]
      congr 1
      exact propext ⟨fun ⟨hi, hid⟩ => ⟨hi ▸ hid, hremoves, hi.symm⟩, fun ⟨hi, _, hid⟩ => ⟨hid.symm, hid ▸ hi⟩⟩
    · rw [if_neg hremoves, if_neg fun hi => hremoves hi.2.1]
  refine ⟨fun i hi => ?_, fun i hi => ?_, fun x => ?_⟩
  · rw [hurl]
    rcases removedBy_concat.mp hi with hi | hi
    · rw [h.removed i hi, ite_self]
    · rw [if_pos hi]
  · rw [removedBy_concat, not_or] at hi
    rw [hurl, if_neg hi.2, h.kept i hi.1]
  · have hqueue := hwritten.inPhaseOne x
    rw [leavesBehind_concat, ← and_assoc, ← h.queue x]
    rw [WriteTransaction.inPhaseOne, WriteTransaction.inPhaseOne] at hqueue
    rw [hqueue, Bool.and_eq_true, Bool.not_eq_true', hdone, Bool.and_true]
    refine and_congr_right fun hwaits => ?_
    by_cases hx : info.id = x
    · subst hx
      rw [decide_eq_true rfl, Bool.true_and, Bool.not_eq_false_eq_eq_true, imp_iff_right rfl]
      have hstale : info.state.isSucceeded = true → (isStale tr info = true ↔
          ∃ a ∈ db.docUrlDb.climb 513 info.id, RemovedBy done a) := by
        intro hsucceeded
        obtain ⟨result, hstate⟩ := IndexState.isSucceeded_iff.mp hsucceeded
        obtain ⟨-, hpath, hne⟩ := hok result hstate
        exact h.isStale_iff hsucceeded hpath hne hwaits
      constructor
      · intro hleft
        have hsucceeded : info.state.isSucceeded = true := (Bool.and_eq_true _ _ ▸ hleft : _ ∧ _).1
        exact ⟨hsucceeded, (hstale hsucceeded).mp hleft⟩
      · rintro ⟨hsucceeded, hremoved⟩
        exact (hstale hsucceeded).mpr hremoved
    · rw [decide_eq_false fun heq => hx heq.symm]
      exact ⟨fun _ heq => absurd heq hx, fun _ => rfl⟩

/-- What is asked of the entries of a batch that has been read from `db`. -/
def Sound (db : Database) (batch : List BatchInfo) : Prop :=
  ∀ info ∈ batch, ∀ result, info.state = .succeeded result →
    result.id = info.id ∧ info.path = db.docUrlDb.get info.id ∧ info.path ≠ []

/-- All entries are written. -/
theorem Settled.writeAll {db : Database} {done : List BatchInfo} (h : Settled db done tr.dbis)
    (hok : Sound db batch) :
    Settled db (done ++ batch.filter fun info => info.state.isDone) (App.writeAll tr batch).1.dbis := by
  induction batch generalizing tr done with
  | nil =>
    rw [List.filter_nil, List.append_nil]
    exact h
  | cons info batch ih =>
    have hrest : Sound db batch := fun info' hmem => hok info' (List.mem_cons_of_mem _ hmem)
    rw [App.writeAll, List.filter_cons]
    split
    · next hdone =>
      rw [List.append_cons]
      exact ih (h.write hdone (hok info List.mem_cons_self)) hrest
    · next hdone =>
      rw [write_of_not_done tr (Bool.not_eq_true _ ▸ hdone)]
      exact ih h hrest

/-- A commit changes neither the urls nor the queue. -/
theorem Settled.commit {db : Database} {done : List BatchInfo} (h : Settled db done tr.dbis)
    (order : List Term) : Settled db done (tr.commit order) := by
  obtain ⟨postingDb, positionDb, hframe⟩ := tr.commit_frame order
  rw [hframe]
  exact ⟨h.removed, h.kept, h.queue⟩

/-! ## Acting on what was found -/

/-- What `write` reports is about the entry. -/
theorem acted_of_mem_write {info' : BatchInfo} {action : ExtractorAction}
    (h : .acted info' action ∈ (write tr info).2.2) : info' = info ∧
      (action = .remove → info.state.removes = true) ∧
      (action = .replace → info.state.isSucceeded = true ∧ tr.inPhaseOne info.id = true ∧
        tr.hasDocument info.id = true ∧ tr.documentUrl info.id = info.path) := by
  rcases hstate : info.state with _ | _ | _ | _ | result | _
  all_goals rw [write, hstate] at h
  · exact absurd h List.not_mem_nil
  · obtain ⟨rfl, rfl⟩ := acted.inj (List.mem_singleton.mp h)
    exact ⟨rfl, fun _ => rfl, fun heq => ExtractorAction.noConfusion heq⟩
  · obtain ⟨rfl, rfl⟩ := acted.inj (List.mem_singleton.mp h)
    exact ⟨rfl, fun _ => rfl, fun heq => ExtractorAction.noConfusion heq⟩
  · obtain ⟨rfl, rfl⟩ := acted.inj (List.mem_singleton.mp h)
    exact ⟨rfl, fun heq => ExtractorAction.noConfusion heq, fun heq => ExtractorAction.noConfusion heq⟩
  · dsimp only at h
    split_ifs at h with hqueue hdocument hurl
    · obtain ⟨rfl, rfl⟩ := acted.inj (List.mem_singleton.mp h)
      exact ⟨rfl, fun heq => ExtractorAction.noConfusion heq, fun heq => ExtractorAction.noConfusion heq⟩
    · obtain ⟨rfl, rfl⟩ := acted.inj (List.mem_singleton.mp h)
      exact ⟨rfl, fun heq => ExtractorAction.noConfusion heq, fun heq => ExtractorAction.noConfusion heq⟩
    · obtain ⟨rfl, rfl⟩ := acted.inj (List.mem_singleton.mp h)
      exact ⟨rfl, fun heq => ExtractorAction.noConfusion heq, fun heq => ExtractorAction.noConfusion heq⟩
    · obtain ⟨rfl, rfl⟩ := acted.inj (List.mem_singleton.mp h)
      rw [Bool.not_eq_true'] at hqueue hdocument
      exact ⟨rfl, fun heq => ExtractorAction.noConfusion heq,
        fun _ => ⟨rfl, Bool.not_eq_false _ ▸ hqueue, Bool.not_eq_false _ ▸ hdocument, not_not.mp hurl⟩⟩
  · exact absurd h List.not_mem_nil

/-- Writing only takes out of the queue and of the URL tables. -/
structure Reduced (tr tr' : WriteTransaction) : Prop where
  pruned : tr.dbis.docUrlDb.Pruned tr'.dbis.docUrlDb
  queue : ∀ x, tr'.inPhaseOne x = true → tr.inPhaseOne x = true

theorem reduced_write (tr : WriteTransaction)
    (hok : ∀ result, info.state = .succeeded result → result.id = info.id) :
    Reduced tr (write tr info).1 := by
  have hwritten : Written tr info (write tr info).1 := write_written hok
  refine ⟨?_, fun x hx => ?_⟩
  · rw [hwritten.docUrlDb]
    split
    · exact DocumentUrlDB.pruned_del _ _
    · exact .refl _
  · rw [hwritten.inPhaseOne] at hx
    exact (Bool.and_eq_true _ _ ▸ hx : _ ∧ _).1

/-- What `writeAll` reports comes from the writing of an entry, after some others. -/
theorem exists_of_mem_writeAll {effect : ExtractorEffect}
    (hok : ∀ info ∈ batch, ∀ result, info.state = .succeeded result → result.id = info.id)
    (h : effect ∈ (writeAll tr batch).2.2) :
    ∃ info ∈ batch, ∃ tr', Reduced tr tr' ∧ effect ∈ (write tr' info).2.2 := by
  induction batch generalizing tr with
  | nil => exact absurd h List.not_mem_nil
  | cons info batch ih =>
    rw [writeAll] at h
    rcases List.mem_append.mp h with h | h
    · exact ⟨info, List.mem_cons_self, tr, ⟨.refl _, fun _ hx => hx⟩, h⟩
    · obtain ⟨info', hinfo', tr', hreduced, heffect⟩ :=
        ih (fun info' hinfo' => hok info' (List.mem_cons_of_mem _ hinfo')) h
      have hfirst : Reduced tr (write tr info).1 := reduced_write tr (hok info List.mem_cons_self)
      exact ⟨info', List.mem_cons_of_mem _ hinfo', tr',
        ⟨hfirst.pruned.trans hreduced.pruned, fun x hx => hfirst.queue x (hreduced.queue x hx)⟩, heffect⟩

/-- Looking at a file acts on nothing. -/
theorem not_acted_indexNext (env : Surroundings) (batch : List BatchInfo) (action : ExtractorAction) :
    .acted info action ∉ (indexNext env batch).2 := by
  rcases indexNext_cases env batch with ⟨-, heq⟩ | ⟨pre, first, post, -, -, -, heq⟩
  · rw [heq]
    exact List.not_mem_nil
  · rw [heq]
    intro hmem
    have hnone := List.countP_eq_zero.mp (index_effects env first info.id).2.1 _ hmem
    exact hnone (by simp [acts])

/-- Some call has found this state of the entry. -/
def FoundBy (calls : List Call) (info : BatchInfo) : Prop :=
  ∃ c ∈ calls, (index c.env { info with state := .pending }).1 = info

/-- What is known about the entries of a batch whose ids had these urls when it was read. -/
structure Known (url : DocId → QByteArray) (calls : List Call) (batch : List BatchInfo) : Prop where
  found : ∀ info ∈ batch, info.state.removes = true ∨ info.state.isSucceeded = true → FoundBy calls info
  path : ∀ info ∈ batch, info.state.isPending = true ∨ info.state.removes = true → info.path = url info.id
  result : ∀ info ∈ batch, ∀ result, info.state = .succeeded result → result.id = info.id

variable {url : DocId → QByteArray} {calls : List Call}

theorem Known.indexNext (h : Known url calls batch) (c : Call) :
    Known url (calls ++ [c]) (App.indexNext c.env batch).1 := by
  have hmono : ∀ {info : BatchInfo}, FoundBy calls info → FoundBy (calls ++ [c]) info :=
    fun ⟨c', hc', heq⟩ => ⟨c', List.mem_append_left _ hc', heq⟩
  rcases indexNext_cases c.env batch with ⟨-, heq⟩ | ⟨pre, first, post, rfl, -, hpending, heq⟩
  · rw [heq]
    exact ⟨fun info hinfo hstate => hmono (h.found info hinfo hstate), h.path, h.result⟩
  · rw [heq]
    have hindexed := index_indexed c.env first
    have hfirst : { (index c.env first).1 with state := .pending } = first := by
      have hstate : first.state = .pending := by
        revert hpending
        cases first.state <;> simp [IndexState.isPending]
      dsimp only
      rw [hindexed.id, hindexed.path, ← hstate]
    have hmem : ∀ {info : BatchInfo}, info ∈ pre ++ (index c.env first).1 :: post →
        info = (index c.env first).1 ∨ info ∈ pre ++ first :: post := fun hinfo => by
      rcases List.mem_append.mp hinfo with hpre | hpost
      · exact .inr (List.mem_append_left _ hpre)
      · rcases List.mem_cons.mp hpost with rfl | hpost
        · exact .inl rfl
        · exact .inr (List.mem_append_right _ (List.mem_cons_of_mem _ hpost))
    refine ⟨fun info hinfo hstate => ?_, fun info hinfo hstate => ?_, fun info hinfo result hstate => ?_⟩
    · rcases hmem hinfo with rfl | hinfo
      · exact ⟨c, List.mem_append_right _ (List.mem_singleton_self _), by rw [hfirst]⟩
      · exact hmono (h.found info hinfo hstate)
    · rcases hmem hinfo with rfl | hinfo
      · rw [hindexed.id, hindexed.path]
        exact h.path first (List.mem_append_right _ List.mem_cons_self) (.inl hpending)
      · exact h.path info hinfo hstate
    · rcases hmem hinfo with rfl | hinfo
      · rw [hindexed.id]
        exact (hindexed.succeeded result hstate).1
      · exact h.result info hinfo result hstate

theorem Known.writeAll (h : Known url calls batch) (tr : WriteTransaction) :
    Known url calls (App.writeAll tr batch).2.1 := by
  rw [writeAll_entries]
  have hmem : ∀ {info : BatchInfo}, info ∈ batch.map (fun info =>
      if info.state.isDone then { info with state := .committed } else info) →
      info.state = .committed ∨ info ∈ batch := fun hinfo => by
    obtain ⟨info', hinfo', rfl⟩ := List.mem_map.mp hinfo
    split
    · exact .inl rfl
    · exact .inr hinfo'
  refine ⟨fun info hinfo hstate => ?_, fun info hinfo hstate => ?_, fun info hinfo result hstate => ?_⟩
  · rcases hmem hinfo with hcommitted | hinfo
    · rw [hcommitted] at hstate
      rcases hstate with hstate | hstate <;> cases hstate
    · exact h.found info hinfo hstate
  · rcases hmem hinfo with hcommitted | hinfo
    · rw [hcommitted] at hstate
      rcases hstate with hstate | hstate <;> cases hstate
    · exact h.path info hinfo hstate
  · rcases hmem hinfo with hcommitted | hinfo
    · rw [hcommitted] at hstate
      cases hstate
    · exact h.result info hinfo result hstate

theorem Known.processNextFile {app : App} (h : Known url calls app.batch) (c : Call) (db : Database) :
    Known url (calls ++ [c]) (app.processNextFile c db).1.batch := by
  have hlooked := h.indexNext c
  have hkept : Known url (calls ++ [c]) app.batch :=
    ⟨fun info hinfo hstate =>
      have ⟨c', hc', heq⟩ := h.found info hinfo hstate
      ⟨c', List.mem_append_left _ hc', heq⟩, h.path, h.result⟩
  have hcases := processNextFile_cases c app db
  generalize app.processNextFile c db = result at hcases ⊢
  dsimp only at hcases
  rcases hcases with ⟨-, rfl⟩ | ⟨-, rfl⟩ | ⟨code, rfl⟩ | ⟨-, rfl⟩ | ⟨-, rfl⟩
  · exact hlooked
  · exact hlooked
  · exact hkept
  · exact hlooked.writeAll _
  · exact ⟨fun _ hinfo => absurd hinfo List.not_mem_nil, fun _ hinfo => absurd hinfo List.not_mem_nil,
      fun _ hinfo => absurd hinfo List.not_mem_nil⟩

end App

/-- The call of an event, if it is one of the extractor. -/
def ExtractorEvent.call : ExtractorEvent → Option Call
  | .run c => some c
  | .other _ => none

/-- The extractor when it has read a batch. -/
def ExtractorState.read (c : Call) (app : App) (db : Database) (ids : List DocId) : ExtractorState :=
  { app := app.slotNewBatch c db ids, db := db }

namespace App

variable {c : Call} {app : App} {db : Database} {ids : List DocId}

/-- What `slotNewBatch` makes of the ids. -/
theorem slotNewBatch_batch (happ : app.batch = [])
    (hread : (app.slotNewBatch c db ids).scheduled = .processNextFile) :
    (app.slotNewBatch c db ids).batch =
        ids.map (fun id => { id := id, path := [], state := .skipIndex }) ∨
      (app.slotNewBatch c db ids).batch = ids.map (fun id => { id := id, path := db.docUrlDb.get id }) := by
  rw [slotNewBatch] at hread ⊢
  split_ifs at hread ⊢ with hopens hbasic hvalid herrors
  · exact .inl (by rw [happ]; rfl)
  · exact .inr (by rw [happ]; rfl)

/-- What the extractor knows about the entries as long as it runs. -/
structure Informed (url : DocId → QByteArray) (events : List ExtractorEvent) (s : ExtractorState) : Prop where
  known : Known url (events.filterMap ExtractorEvent.call) s.app.batch
  started : ∀ ids, s.app.scheduled ≠ .slotNewBatch ids

theorem informed_read (happ : app.batch = [])
    (hread : (app.slotNewBatch c db ids).scheduled = .processNextFile) :
    Informed db.docUrlDb.get [] (ExtractorState.read c app db ids) := by
  have hentry : ∀ info ∈ (app.slotNewBatch c db ids).batch, info.state = .skipIndex ∨
      info.state = .pending ∧ info.path = db.docUrlDb.get info.id := by
    rcases slotNewBatch_batch happ hread with hbatch | hbatch
    all_goals
      rw [hbatch]
      intro info hinfo
      obtain ⟨id, -, rfl⟩ := List.mem_map.mp hinfo
    · exact .inl rfl
    · exact .inr ⟨rfl, rfl⟩
  refine ⟨⟨fun info hinfo hstate => ?_, fun info hinfo hstate => ?_, fun info hinfo result hstate => ?_⟩,
    fun ids' heq => Scheduled.noConfusion (hread.symm.trans heq)⟩
  · rcases hentry info hinfo with heq | ⟨heq, -⟩ <;> rw [heq] at hstate <;>
      exact absurd hstate (by decide)
  · rcases hentry info hinfo with heq | ⟨-, hpath⟩
    · rw [heq] at hstate
      exact absurd hstate (by decide)
    · exact hpath
  · rcases hentry info hinfo with heq | ⟨heq, -⟩ <;> rw [heq] at hstate <;> cases hstate

theorem Informed.step {url : DocId → QByteArray} {events : List ExtractorEvent} {s : ExtractorState}
    (h : Informed url events s) (event : ExtractorEvent) : Informed url (events ++ [event]) (s.step event) := by
  have hcalls : (events ++ [event]).filterMap ExtractorEvent.call =
      events.filterMap ExtractorEvent.call ++ event.call.toList := by
    rw [List.filterMap_append]
    cases event <;> rfl
  cases event with
  | other db =>
    refine ⟨?_, h.started⟩
    rw [hcalls, ExtractorEvent.call, Option.toList_none, List.append_nil]
    exact h.known
  | run c =>
    rw [ExtractorState.step, App.run]
    have hmore : Known url ((events ++ [ExtractorEvent.run c]).filterMap ExtractorEvent.call) s.app.batch := by
      rw [hcalls]
      refine ⟨fun info hinfo hstate => ?_, h.known.path, h.known.result⟩
      obtain ⟨c', hc', heq⟩ := h.known.found info hinfo hstate
      exact ⟨c', List.mem_append_left _ hc', heq⟩
    split
    · next heq => exact absurd heq (h.started _)
    · next heq =>
      refine ⟨?_, fun ids hscheduled => ?_⟩
      · rw [hcalls]
        exact h.known.processNextFile c s.db
      · have hcases := processNextFile_cases c s.app s.db
        dsimp only at hcases hscheduled
        generalize s.app.processNextFile c s.db = result at hcases hscheduled
        rcases hcases with ⟨-, rfl⟩ | ⟨-, rfl⟩ | ⟨code, rfl⟩ | ⟨-, rfl⟩ | ⟨-, rfl⟩
        · exact h.started _ hscheduled
        · exact h.started _ hscheduled
        · exact Scheduled.noConfusion hscheduled
        · exact h.started _ hscheduled
        · exact Scheduled.noConfusion hscheduled
    · exact ⟨hmore, h.started⟩
    · exact ⟨hmore, h.started⟩

theorem informed_steps (happ : app.batch = [])
    (hread : (app.slotNewBatch c db ids).scheduled = .processNextFile) (events : List ExtractorEvent) :
    Informed db.docUrlDb.get events ((ExtractorState.read c app db ids).steps events) := by
  induction events using List.reverseRecOn with
  | nil => exact informed_read happ hread
  | append_singleton events event ih =>
    rw [ExtractorState.steps, List.foldl_append]
    exact ih.step event

end App

open App

/-- **A document is removed only if its url is still the path that was found missing or excluded, provided
that no step has changed this url since the batch was read; a result is written only if the document
waits, is stored, and has the url that was extracted.** -/
theorem removal_current {c : Call} {app : App} {db : Database} {ids : List DocId} (happ : app.batch = [])
    (hread : (app.slotNewBatch c db ids).scheduled = .processNextFile) (events : List ExtractorEvent)
    (call : Call) (info : BatchInfo) (action : ExtractorAction)
    (hacted : .acted info action ∈ (((ExtractorState.read c app db ids).steps events).app.run call
      ((ExtractorState.read c app db ids).steps events).db).2.2) :
    let s := (ExtractorState.read c app db ids).steps events
    (action = .remove → info.state.removes = true ∧
      FoundBy (events.filterMap ExtractorEvent.call ++ [call]) info ∧
      ((∀ before event after, events = before ++ event :: after →
          ((ExtractorState.read c app db ids).steps (before ++ [event])).db.docUrlDb.get info.id =
            ((ExtractorState.read c app db ids).steps before).db.docUrlDb.get info.id) →
        s.db.docUrlDb.get info.id = info.path)) ∧
    (action = .replace → info.state.isSucceeded = true ∧
      FoundBy (events.filterMap ExtractorEvent.call ++ [call]) info ∧
      s.db.contentIndexingDb.contains info.id = true ∧ s.db.docUrlDb.contains info.id = true ∧
      s.db.docUrlDb.get info.id = info.path) := by
  intro s
  have hinformed := informed_steps happ hread events
  have hsame : (∀ before event after, events = before ++ event :: after →
        ((ExtractorState.read c app db ids).steps (before ++ [event])).db.docUrlDb.get info.id =
          ((ExtractorState.read c app db ids).steps before).db.docUrlDb.get info.id) →
      s.db.docUrlDb.get info.id = db.docUrlDb.get info.id := by
    intro hsteps
    have hall : ∀ before after, events = before ++ after →
        ((ExtractorState.read c app db ids).steps before).db.docUrlDb.get info.id =
          db.docUrlDb.get info.id := by
      intro before
      induction before using List.reverseRecOn with
      | nil => exact fun after _ => rfl
      | append_singleton before event ih =>
        intro after heq
        rw [List.append_assoc, List.singleton_append] at heq
        rw [hsteps before event after heq, ih (event :: after) heq]
    exact hall events [] (List.append_nil _).symm
  change _ ∈ (s.app.run call s.db).2.2 at hacted
  have hknown := hinformed.known
  rw [App.run] at hacted
  split at hacted
  · exact absurd hacted List.not_mem_nil
  · -- the effect comes from writing an entry
    have hlooked := hknown.indexNext call
    have hwritten : .acted info action ∈
        (writeAll { dbis := s.db } (indexNext call.env s.app.batch).1).2.2 := by
      have hnot := @not_acted_indexNext info call.env s.app.batch action
      have hcases := processNextFile_cases call s.app s.db
      generalize s.app.processNextFile call s.db = result at hacted hcases
      dsimp only at hcases
      rcases hcases with ⟨-, rfl⟩ | ⟨-, rfl⟩ | ⟨code, rfl⟩ | ⟨-, rfl⟩ | ⟨-, rfl⟩
      · exact absurd hacted hnot
      · exact absurd hacted hnot
      · exact absurd hacted hnot
      · exact (List.mem_append.mp hacted).resolve_left hnot
      · rcases List.mem_append.mp hacted with hacted | hacted
        · exact (List.mem_append.mp hacted).resolve_left hnot
        · cases List.mem_singleton.mp hacted
    obtain ⟨info', hinfo', tr', hreduced, heffect⟩ := exists_of_mem_writeAll hlooked.result hwritten
    obtain ⟨rfl, hremove, hreplace⟩ := acted_of_mem_write heffect
    refine ⟨fun haction => ?_, fun haction => ?_⟩
    · have hremoves := hremove haction
      refine ⟨hremoves, hlooked.found info hinfo' (.inl hremoves), fun hsteps => ?_⟩
      rw [hlooked.path info hinfo' (.inr hremoves)]
      exact hsame hsteps
    · obtain ⟨hsucceeded, hqueue, hdocument, hurl⟩ := hreplace haction
      refine ⟨hsucceeded, hlooked.found info hinfo' (.inr hsucceeded), hreduced.queue _ hqueue,
        hreduced.pruned.contains hdocument, ?_⟩
      have hne : info.path ≠ [] := by
        obtain ⟨c', -, hfound⟩ := hlooked.found info hinfo' (.inr hsucceeded)
        obtain ⟨result, hresult⟩ := IndexState.isSucceeded_iff.mp hsucceeded
        have hindexed := index_indexed c'.env { info with state := .pending }
        rw [hfound] at hindexed
        exact (hindexed.succeeded result hresult).2
      rw [hreduced.pruned.get_eq (by rw [← WriteTransaction.documentUrl, hurl]; exact hne)]
      exact hurl
  · exact absurd hacted List.not_mem_nil
  · exact absurd hacted List.not_mem_nil

/-- The directory `/p`, and `/p/b` in it. -/
def onlyB : Snapshot :=
  .ofEntries [{ components := [[112]], id := 5, stat := { isDir := true } },
    { components := [[112], [98]], id := 1, stat := { size := 1 } }] (by decide)

/-- The file is still known as `/p/a`, and waits. -/
def knownAsA : Database where
  docUrlDb := (({} : DocumentUrlDB).add 5 0 [112]).add 1 5 [97]
  contentIndexingDb := (∅ : DocumentIdDB).put 1

/-- The daemon has entered its new name. -/
def renamedToB : Database :=
  (({ dbis := knownAsA } : WriteTransaction).replaceDocument
    { id := 1, parentId := 5, url := [47, 112, 47, 98] } { fileNameTerms := true, documentUrl := true }).dbis

/-- The extractor looks at the files as they are now. -/
def lookAtB : Call := { env := plainFiles onlyB, timeout := false }

/-- The batch with the file, read from the index. -/
def readA : ExtractorState := .read lookAtB { scheduled := .slotNewBatch [1] } knownAsA [1]

/-- The document of `/p/a` is removed. -/
def removesA : ExtractorEffect → Bool
  | .acted info action => info.id = 1 && info.path = [47, 112, 47, 97] && action = .remove
  | _ => false

theorem exists_removesA {effects : List ExtractorEffect} (h : 0 < effects.countP removesA) :
    ∃ info, .acted info .remove ∈ effects ∧ info.id = 1 ∧ info.path = [47, 112, 47, 97] := by
  obtain ⟨effect, hmem, heffect⟩ := List.countP_pos_iff.mp h
  cases effect with
  | acted info action =>
    simp only [removesA, Bool.and_eq_true, decide_eq_true_iff] at heffect
    obtain ⟨⟨hid, hpath⟩, rfl⟩ := heffect
    exact ⟨info, hmem, hid, hpath⟩
  | _ => cases heffect

theorem removal_current_readA :
    (readA.steps [.run lookAtB]).db.docUrlDb.get 1 = [47, 112, 47, 97] := by
  obtain ⟨info, hacted, hid, hpath⟩ := @exists_removesA
    ((readA.steps [.run lookAtB]).app.run lookAtB (readA.steps [.run lookAtB]).db).2.2 (by decide +kernel)
  have hcurrent := ((@removal_current lookAtB { scheduled := .slotNewBatch [1] } knownAsA [1] rfl
    (by decide +kernel) [.run lookAtB] lookAtB info .remove hacted).1 rfl).2.2
  rw [← hid, ← hpath]
  refine hcurrent fun before event after heq => ?_
  obtain ⟨rfl, rfl, rfl⟩ : before = [] ∧ event = .run lookAtB ∧ after = [] := by
    rcases before with _ | ⟨first, before⟩
    · obtain ⟨rfl, rfl⟩ := List.cons.inj heq
      exact ⟨rfl, rfl, rfl⟩
    · have hlen := congrArg List.length heq
      simp at hlen
  rw [hid]
  decide +kernel

/-- A file that has been renamed meanwhile is removed from the index. -/
theorem renamed_file_removed : ¬ ∀ (c : Call) (app : App) (db : Database) (ids : List DocId)
    (events : List ExtractorEvent) (call : Call) (info : BatchInfo), app.batch = [] →
    (app.slotNewBatch c db ids).scheduled = .processNextFile →
    .acted info .remove ∈ (((ExtractorState.read c app db ids).steps events).app.run call
      ((ExtractorState.read c app db ids).steps events).db).2.2 →
    ((ExtractorState.read c app db ids).steps events).db.docUrlDb.get info.id = info.path := by
  intro h
  obtain ⟨info, hacted, hid, hpath⟩ := @exists_removesA
    ((readA.steps [.other renamedToB, .run lookAtB]).app.run lookAtB
      (readA.steps [.other renamedToB, .run lookAtB]).db).2.2 (by decide +kernel)
  have hurl := h lookAtB { scheduled := .slotNewBatch [1] } knownAsA [1] [.other renamedToB, .run lookAtB]
    lookAtB info rfl (by decide +kernel) hacted
  rw [hid, hpath] at hurl
  exact absurd hurl (by decide +kernel)

end Baloo
