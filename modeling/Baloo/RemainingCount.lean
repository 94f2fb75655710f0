import Baloo.Halving
import Mathlib.Data.Finset.Card
import Mathlib.Data.Finset.Dedup

/-!
# How many files remain

`FileContentIndexer::run` asks once how many documents wait, and counts the files that the extractor reports as
finished. After each report it says how many remain, and when a batch has failed it goes back to the count before
the batch. Nothing relates the two numbers to the queue. A document that stays in the queue although it has been
reported, because it has been renamed meanwhile, is fetched and reported again, and then fewer than zero files
remain (`progress_wraps`).

As long as the queue does not grow, and every document that has been reported leaves it with its batch, the
documents that still wait fit into what remains (`progress_never_wraps`).
-/

namespace Baloo

/-! ## The counters -/

/-- A call of `m_timeEstimator.setProgress(totalCount - finishedCount)`. -/
structure ProgressCall where
  /-- how many documents waited at the beginning -/
  totalCount : UInt32
  /-- how many have been finished -/
  finishedCount : UInt32
  deriving DecidableEq

/-- What `setProgress` is called with. -/
def ProgressCall.remainingCount (call : ProgressCall) : UInt32 := call.totalCount - call.finishedCount

/-- `FileContentIndexer::run` with its counters. -/
structure CountingIndexer where
  /-- the thread -/
  indexer : FileContentIndexer
  /-- the database -/
  db : Database
  /-- `totalCount` -/
  totalCount : UInt32 := 0
  /-- `finishedCount` -/
  finishedCount : UInt32 := 0
  /-- `batchStartCount` -/
  batchStartCount : UInt32 := 0
  /-- the documents of the batch that have not been reported as finished -/
  unfinished : List DocId := []
  /-- the calls of `setProgress`, the last one at the end -/
  calls : List ProgressCall := []

namespace CountingIndexer

/-- `m_timeEstimator.setProgress(totalCount - finishedCount)`. -/
def setProgress (s : CountingIndexer) : CountingIndexer :=
  { s with calls := s.calls ++ [{ totalCount := s.totalCount, finishedCount := s.finishedCount }] }

/-- Between these places the counters stay what they are. -/
def Silent (indexer indexer' : FileContentIndexer) : Prop :=
  match indexer.pc with
  | .queued | .indexing _ => False
  | .finished _ hadErrors => ¬ (hadErrors = true ∧ indexer.stop = false) ∨ indexer'.pc = .exited
  | _ => True

end CountingIndexer

/-- The steps of `run`, of its signal handlers, and of others. A document of a batch is reported once at most. -/
inductive CountStep (env : Environment) : CountingIndexer → CountingIndexer → Prop
  /-- `uint finishedCount = 0; uint totalCount = m_provider->size();` -/
  | begin {s : CountingIndexer} {indexer' : FileContentIndexer} {db' : Database} {activities : List Activity} :
    s.indexer.pc = .queued → WorkerStep env (s.indexer, s.db) activities (indexer', db') →
    CountStep env s { s with
      indexer := indexer', db := db', finishedCount := 0
      totalCount := UInt32.ofNat (FileContentIndexerProvider.size s.db) }
  /-- `uint batchStartCount = finishedCount; process.index(idList);` -/
  | index {s : CountingIndexer} {indexer' : FileContentIndexer} {db' : Database} {activities : List Activity}
    (idList : List DocId) :
    s.indexer.pc = .indexing idList → WorkerStep env (s.indexer, s.db) activities (indexer', db') →
    CountStep env s { s with
      indexer := indexer', db := db', batchStartCount := s.finishedCount, unfinished := idList }
  /-- `onFileFinished` -/
  | fileFinished {s : CountingIndexer} (idList : List DocId) (id : DocId) :
    s.indexer.pc = .waiting idList → id ∈ s.unfinished →
    CountStep env s
      { s with finishedCount := s.finishedCount + 1, unfinished := s.unfinished.erase id }.setProgress
  /-- `finishedCount = batchStartCount`, after errors -/
  | reset {s : CountingIndexer} {indexer' : FileContentIndexer} {db' : Database} {activities : List Activity}
    (idList : List DocId) :
    s.indexer.pc = .finished idList true → s.indexer.stop = false → indexer'.pc ≠ .exited →
    WorkerStep env (s.indexer, s.db) activities (indexer', db') →
    CountStep env s { s with indexer := indexer', db := db', finishedCount := s.batchStartCount }.setProgress
  /-- any other step of `run` -/
  | pass {s : CountingIndexer} {indexer' : FileContentIndexer} {db' : Database} {activities : List Activity} :
    CountingIndexer.Silent s.indexer indexer' → WorkerStep env (s.indexer, s.db) activities (indexer', db') →
    CountStep env s { s with indexer := indexer', db := db' }
  /-- another thread calls `quit` -/
  | quit {s : CountingIndexer} : CountStep env s { s with indexer := s.indexer.quit }
  /-- another process changes the database -/
  | database {s : CountingIndexer} (db' : Database) : CountStep env s { s with db := db' }

namespace CountingIndexer

/-- What is asked of a step: not too many documents wait at the beginning, later none are added, and a batch that is
done leaves none in the queue that has been reported. -/
structure Orderly (s s' : CountingIndexer) : Prop where
  /-- `run` begins -/
  few : s.indexer.pc = .queued → s'.indexer.pc ≠ .queued → FileContentIndexerProvider.size s.db < 2 ^ 32
  /-- `run` has begun -/
  noneAdded : s.indexer.pc ≠ .queued → ∀ id, s'.db.Waits id → s.db.Waits id
  /-- a batch is done -/
  taken : ∀ idList, s.indexer.pc = .waiting idList → s'.indexer.pc = .finished idList false →
    ∀ id ∈ idList, id ∉ s.unfinished → ¬ s'.db.Waits id

/-- A step of which this holds. -/
def OrderlyStep (env : Environment) (s s' : CountingIndexer) : Prop := CountStep env s s' ∧ s.Orderly s'

/-- `run` is about to begin. -/
structure Starts (s : CountingIndexer) : Prop where
  /-- the job is in the thread pool -/
  queued : s.indexer.pc = .queued
  /-- `setProgress` has not been called -/
  calls : s.calls = []

/-! ## What waits fits into what remains -/

/-- The documents that wait, and those of the batch, are among so many that they fit into what remains. -/
def Fits (s : CountingIndexer) (count : UInt32) (idList : List DocId) : Prop :=
  ∃ Q : Finset DocId, count.toNat + Q.card ≤ s.totalCount.toNat ∧ (∀ id, s.db.Waits id → id ∈ Q) ∧
    (∀ id ∈ idList, id ∈ Q) ∧ idList.Nodup

/-- What holds at a place of `run`. -/
def Room (s : CountingIndexer) : Prop :=
  match s.indexer.pc with
  | .fetching _ => s.indexer.stop = true ∨ s.Fits s.finishedCount []
  | .checking idList => s.indexer.stop = true ∨ s.Fits s.finishedCount idList
  | .indexing idList => s.Fits s.finishedCount idList
  | .waiting idList => s.Fits s.batchStartCount idList ∧ s.unfinished.Nodup ∧ (∀ id ∈ s.unfinished, id ∈ idList) ∧
      s.finishedCount.toNat + s.unfinished.length = s.batchStartCount.toNat + idList.length
  | .finished _ hadErrors => s.Fits (if hadErrors then s.batchStartCount else s.finishedCount) []
  | _ => True

/-- What holds in every state of an orderly run. -/
structure Counted (s : CountingIndexer) : Prop where
  /-- all calls are right -/
  calls : ∀ call ∈ s.calls, call.finishedCount ≤ call.totalCount
  /-- and there is room for the next ones -/
  room : s.Room

variable {env : Environment} {s s' : CountingIndexer} {count : UInt32} {idList : List DocId}

theorem Fits.nodup (h : s.Fits count idList) : idList.Nodup := h.choose_spec.2.2.2

/-- The whole batch fits into what remains. -/
theorem Fits.add_length_le (h : s.Fits count idList) : count.toNat + idList.length ≤ s.totalCount.toNat := by
  obtain ⟨Q, hcard, -, hbatch, hids⟩ := h
  have hlen : idList.length ≤ Q.card := by
    rw [← List.toFinset_card_of_nodup hids]
    exact Finset.card_le_card fun id hid => hbatch id (List.mem_toFinset.mp hid)
  omega

theorem Fits.count_le (h : s.Fits count idList) : count ≤ s.totalCount := by
  have hle := h.add_length_le
  rw [UInt32.le_iff_toNat_le]
  omega

/-- Fewer documents fit as well. -/
theorem Fits.mono {idList' : List DocId} (h : s.Fits count idList) (htotal : s'.totalCount = s.totalCount)
    (hwaits : ∀ id, s'.db.Waits id → s.db.Waits id) (hids : ∀ id ∈ idList', id ∈ idList ∨ s.db.Waits id)
    (hnodup : idList'.Nodup) : s'.Fits count idList' := by
  obtain ⟨Q, hcard, hqueue, hbatch, -⟩ := h
  refine ⟨Q, htotal ▸ hcard, fun id hid => hqueue id (hwaits id hid), fun id hid => ?_, hnodup⟩
  exact (hids id hid).elim (hbatch id) (hqueue id)

/-- The batch still fits when no documents are added. -/
theorem Fits.keep (h : s.Fits count idList) (htotal : s'.totalCount = s.totalCount)
    (hwaits : ∀ id, s'.db.Waits id → s.db.Waits id) : s'.Fits count idList :=
  h.mono htotal hwaits (fun _ hid => .inl hid) h.nodup

/-- Without the batch there is room as well. -/
theorem Fits.leave (h : s.Fits count idList) (htotal : s'.totalCount = s.totalCount)
    (hwaits : ∀ id, s'.db.Waits id → s.db.Waits id) : s'.Fits count [] :=
  h.mono htotal hwaits (fun _ hid => absurd hid List.not_mem_nil) List.nodup_nil

/-- A batch is taken from the queue. -/
theorem mem_fetch_waits {db : Database} {size : ℕ} {id : DocId}
    (h : id ∈ FileContentIndexerProvider.fetch db size) : db.Waits id :=
  OrdMap.contains_iff_mem_keys.mpr (List.mem_of_mem_take h)

theorem nodup_fetch {db : Database} {size : ℕ} : (FileContentIndexerProvider.fetch db size).Nodup :=
  (OrdMap.keys_nodup db.contentIndexingDb).take

/-- At the beginning everything that waits is counted. -/
theorem fits_size (htotal : s.totalCount = UInt32.ofNat (FileContentIndexerProvider.size s.db))
    (hfew : FileContentIndexerProvider.size s.db < 2 ^ 32) : s.Fits 0 [] := by
  refine ⟨(OrdMap.keys s.db.contentIndexingDb).toFinset, ?_, fun id hid => ?_, by simp, List.nodup_nil⟩
  · have hsize : s.totalCount.toNat = FileContentIndexerProvider.size s.db := by
      rw [htotal, UInt32.toNat_ofNat', Nat.mod_eq_of_lt hfew]
    rw [hsize, UInt32.toNat_zero, Nat.zero_add]
    exact List.toFinset_card_le _
  · exact List.mem_toFinset.mpr (OrdMap.contains_iff_mem_keys.mp hid)

/-- What has been reported leaves the queue, and makes room for itself. -/
theorem Fits.taken {unfinished : List DocId} {finishedCount : UInt32} (h : s.Fits count idList)
    (htotal : s'.totalCount = s.totalCount) (hwaits : ∀ id, s'.db.Waits id → s.db.Waits id)
    (htaken : ∀ id ∈ idList, id ∉ unfinished → ¬ s'.db.Waits id) (hnodup : unfinished.Nodup)
    (hsub : ∀ id ∈ unfinished, id ∈ idList)
    (hcount : finishedCount.toNat + unfinished.length = count.toNat + idList.length) :
    s'.Fits finishedCount [] := by
  obtain ⟨Q, hcard, hqueue, hbatch, hids⟩ := h
  have hsub' : unfinished.toFinset ⊆ idList.toFinset := fun id hid =>
    List.mem_toFinset.mpr (hsub id (List.mem_toFinset.mp hid))
  have hbatch' : idList.toFinset \ unfinished.toFinset ⊆ Q := fun id hid =>
    hbatch id (List.mem_toFinset.mp (Finset.mem_sdiff.mp hid).1)
  refine ⟨Q \ (idList.toFinset \ unfinished.toFinset), ?_, fun id hid => ?_, by simp, List.nodup_nil⟩
  · have hle := Finset.card_le_card hbatch'
    have hlen := Finset.card_le_card hsub'
    rw [Finset.card_sdiff_of_subset hsub'] at hle
    rw [Finset.card_sdiff_of_subset hbatch', Finset.card_sdiff_of_subset hsub', htotal]
    rw [List.toFinset_card_of_nodup hids, List.toFinset_card_of_nodup hnodup] at hle hlen ⊢
    omega
  · rw [Finset.mem_sdiff, Finset.mem_sdiff, List.mem_toFinset, List.mem_toFinset]
    exact ⟨hqueue id (hwaits id hid), fun hreported => htaken id hreported.1 hreported.2 hid⟩

/-! ## The steps -/

theorem Starts.counted (h : s.Starts) : s.Counted where
  calls call hcall := by
    rw [h.calls] at hcall
    cases hcall
  room := by
    rw [Room, h.queued]
    trivial

/-- A call of `setProgress` at a moment when there is room. -/
theorem Counted.setProgress (h : s.Counted) (hcalls : s'.calls = s.calls) (hroom : s'.Room)
    (hle : s'.finishedCount ≤ s'.totalCount) : s'.setProgress.Counted where
  calls call hcall := by
    rcases List.mem_append.mp hcall with hcall | hcall
    · rw [hcalls] at hcall
      exact h.calls call hcall
    · rw [List.mem_singleton.mp hcall]
      exact hle
  room := hroom

theorem Counted.begin (h : s.Counted) (hpc : s.indexer.pc = .queued) {indexer' : FileContentIndexer}
    {db' : Database} {activities : List Activity} (hstep : WorkerStep env (s.indexer, s.db) activities (indexer', db'))
    (hfew : indexer'.pc ≠ .queued → FileContentIndexerProvider.size s.db < 2 ^ 32) :
    Counted { s with
      indexer := indexer', db := db', finishedCount := 0
      totalCount := UInt32.ofNat (FileContentIndexerProvider.size s.db) } where
  calls := h.calls
  room := by
    cases hstep with
    | begin => exact Or.inr (fits_size rfl (hfew (by simp)))
    | fetch _ hpc' | check _ hpc' | index _ hpc' | proceed _ _ hpc' | halve _ hpc' | markFailed _ hpc'
    | exit _ hpc' => cases hpc.symm.trans hpc'
    | extracted _ _ _ hpc' => cases hpc.symm.trans hpc'

theorem Counted.index (h : s.Counted) (hpc : s.indexer.pc = .indexing idList) {indexer' : FileContentIndexer}
    {db' : Database} {activities : List Activity}
    (hstep : WorkerStep env (s.indexer, s.db) activities (indexer', db')) :
    Counted { s with
      indexer := indexer', db := db', batchStartCount := s.finishedCount, unfinished := idList } where
  calls := h.calls
  room := by
    have hroom : s.Fits s.finishedCount idList := by
      have hroom := h.room
      rwa [Room, hpc] at hroom
    cases hstep with
    | index _ hpc' =>
      obtain rfl := Pc.indexing.inj (hpc.symm.trans hpc')
      exact ⟨hroom.keep rfl (fun _ hid => hid), hroom.nodup, fun _ hid => hid, rfl⟩
    | begin hpc' | fetch _ hpc' | check _ hpc' | proceed _ _ hpc' | halve _ hpc' | markFailed _ hpc'
    | exit _ hpc' => cases hpc.symm.trans hpc'
    | extracted _ _ _ hpc' => cases hpc.symm.trans hpc'

/-- A document of the batch is reported: fewer than in the whole batch have been so far. -/
theorem Counted.fileFinished (h : s.Counted) (hpc : s.indexer.pc = .waiting idList) {id : DocId}
    (hid : id ∈ s.unfinished) :
    { s with
      finishedCount := s.finishedCount + 1, unfinished := s.unfinished.erase id }.setProgress.Counted := by
  have hroom := h.room
  rw [Room, hpc] at hroom
  obtain ⟨hfits, hnodup, hsub, hcount⟩ := hroom
  have hle := hfits.add_length_le
  have hpos : 0 < s.unfinished.length := List.length_pos_of_mem hid
  have hlt := s.totalCount.toNat_lt
  have hsucc : (s.finishedCount + 1).toNat = s.finishedCount.toNat + 1 := by
    rw [UInt32.toNat_add, UInt32.toNat_one]
    exact Nat.mod_eq_of_lt (by omega)
  refine h.setProgress rfl ?_ ?_
  · rw [Room]
    simp only [hpc]
    refine ⟨hfits.keep rfl (fun _ hid => hid), hnodup.erase id, fun id' hid' => hsub id' (List.mem_of_mem_erase hid'),
      ?_⟩
    rw [hsucc, List.length_erase_of_mem hid]
    omega
  · rw [UInt32.le_iff_toNat_le]
    show (s.finishedCount + 1).toNat ≤ s.totalCount.toNat
    omega

/-- After errors the documents of the batch still wait, or one of them has failed. -/
theorem Counted.reset (h : s.Counted) (hpc : s.indexer.pc = .finished idList true) (hstop : s.indexer.stop = false)
    {indexer' : FileContentIndexer} {db' : Database} {activities : List Activity} (hnot : indexer'.pc ≠ .exited)
    (hstep : WorkerStep env (s.indexer, s.db) activities (indexer', db'))
    (hadded : ∀ id, db'.Waits id → s.db.Waits id) :
    { s with indexer := indexer', db := db', finishedCount := s.batchStartCount }.setProgress.Counted := by
  have hroom : s.Fits s.batchStartCount [] := by
    have hroom := h.room
    rwa [Room, hpc] at hroom
  refine h.setProgress rfl ?_ hroom.count_le
  have hfits : Fits { s with indexer := indexer', db := db', finishedCount := s.batchStartCount }
      s.batchStartCount [] := hroom.leave rfl hadded
  cases hstep with
  | halve => exact Or.inr hfits
  | markFailed => exact Or.inr hfits
  | proceed _ hadErrors hpc' herrors =>
    obtain ⟨-, rfl⟩ := Pc.finished.inj (hpc.symm.trans hpc')
    exact absurd ⟨rfl, hstop⟩ herrors
  | exit => exact absurd rfl hnot
  | begin hpc' | fetch _ hpc' | check _ hpc' | index _ hpc' => cases hpc.symm.trans hpc'
  | extracted _ _ _ hpc' => cases hpc.symm.trans hpc'

/-- The other steps of `run` do not count. -/
theorem Counted.pass (h : s.Counted) {indexer' : FileContentIndexer} {db' : Database} {activities : List Activity}
    (hsilent : Silent s.indexer indexer') (hstep : WorkerStep env (s.indexer, s.db) activities (indexer', db'))
    (hadded : ∀ id, db'.Waits id → s.db.Waits id)
    (htaken : ∀ idList, s.indexer.pc = .waiting idList → indexer'.pc = .finished idList false →
      ∀ id ∈ idList, id ∉ s.unfinished → ¬ db'.Waits id) :
    Counted { s with indexer := indexer', db := db' } where
  calls := h.calls
  room := by
    have hroom := h.room
    rw [Room] at hroom
    rw [Silent] at hsilent
    cases hstep with
    | begin hpc => exact absurd hsilent (by simp [hpc])
    | fetch _ hpc =>
      rw [hpc] at hroom
      refine hroom.imp id fun hfits => ?_
      exact hfits.mono rfl hadded (fun _ hid => .inr (mem_fetch_waits hid)) nodup_fetch
    | check idList hpc =>
      rw [hpc] at hroom
      rw [Room]
      by_cases hdone : idList = [] ∨ s.indexer.stop = true
      · simp only [if_pos hdone]
      · have hfits := hroom.resolve_left fun hstop => hdone (.inr hstop)
        simp only [if_neg hdone]
        exact hfits.keep rfl hadded
    | index _ hpc => exact absurd hsilent (by simp [hpc])
    | extracted idList _ hadErrors hpc =>
      rw [hpc] at hroom
      obtain ⟨hfits, hnodup, hsub, hcount⟩ := hroom
      cases hadErrors with
      | true => exact hfits.leave rfl hadded
      | false => exact hfits.taken rfl hadded (htaken idList hpc rfl) hnodup hsub hcount
    | proceed _ hadErrors hpc herrors =>
      rw [hpc] at hroom
      cases hadErrors with
      | true =>
        refine Or.inl ?_
        by_contra hstop
        exact herrors ⟨rfl, by simpa using hstop⟩
      | false => exact Or.inr (hroom.leave rfl hadded)
    | halve _ hpc hstop | markFailed _ hpc hstop =>
      rw [hpc] at hsilent
      exact absurd hsilent (by simp [hstop])
    | exit => trivial

/-- Others may stop `run`, and take documents from the queue. -/
theorem Room.others (h : s.Room) {indexer' : FileContentIndexer} {db' : Database}
    (hpc : indexer'.pc = s.indexer.pc) (hstop : s.indexer.stop = true → indexer'.stop = true)
    (hadded : s.indexer.pc ≠ .queued → ∀ id, db'.Waits id → s.db.Waits id) :
    Room { s with indexer := indexer', db := db' } := by
  have hfits : s.indexer.pc ≠ .queued → ∀ (count : UInt32) (idList : List DocId), s.Fits count idList →
      Fits { s with indexer := indexer', db := db' } count idList := fun hnot count idList hfits =>
    hfits.keep rfl (hadded hnot)
  rw [Room] at h ⊢
  cases hplace : s.indexer.pc with
  | fetching | checking =>
    rw [hplace] at h hpc hfits
    simp only [hpc]
    exact h.imp hstop (hfits (by simp) _ _)
  | indexing | finished =>
    rw [hplace] at h hpc hfits
    simp only [hpc]
    exact hfits (by simp) _ _ h
  | waiting =>
    rw [hplace] at h hpc hfits
    simp only [hpc]
    exact ⟨hfits (by simp) _ _ h.1, h.2⟩
  | idle | queued | done | exited =>
    rw [hplace] at hpc
    simp only [hpc]

theorem Counted.step (h : s.Counted) (hstep : OrderlyStep env s s') : s'.Counted := by
  obtain ⟨hstep, horderly⟩ := hstep
  cases hstep with
  | begin hpc hworker => exact h.begin hpc hworker (horderly.few hpc)
  | index idList hpc hworker => exact h.index hpc hworker
  | fileFinished idList id hpc hid => exact h.fileFinished hpc hid
  | reset idList hpc hstop hnot hworker =>
    exact h.reset hpc hstop hnot hworker (horderly.noneAdded (by simp [hpc]))
  | pass hsilent hworker =>
    have hpc : s.indexer.pc ≠ .queued := fun hpc => by
      rw [Silent, hpc] at hsilent
      exact hsilent
    exact h.pass hsilent hworker (horderly.noneAdded hpc) horderly.taken
  | quit => exact ⟨h.calls, Room.others h.room rfl (fun _ => rfl) fun _ _ hid => hid⟩
  | database db' => exact ⟨h.calls, Room.others h.room rfl id horderly.noneAdded⟩

/-- As long as no documents are added, and every document that was reported leaves the queue with its batch, the
finished documents are never more than all documents, and their difference is the number of those that remain. -/
theorem progress_never_wraps (h : s.Starts) (hrun : Relation.ReflTransGen (OrderlyStep env) s s') :
    ∀ call ∈ s'.calls, call.finishedCount ≤ call.totalCount ∧
      call.remainingCount.toNat = call.totalCount.toNat - call.finishedCount.toNat := by
  intro call hcall
  have hcounted : s'.Counted := Transition.invariant (fun _ _ h hstep => h.step hstep) h.counted hrun
  have hle := hcounted.calls call hcall
  exact ⟨hle, UInt32.toNat_sub_of_le _ _ hle⟩

/-! ## A document that is renamed while it is extracted -/

/-- An extractor that commits some documents of the batch. Those that have been renamed meanwhile stay in the queue. -/
def leavesRenamed : Environment where
  extracts db idList ids db' hadErrors :=
    hadErrors = false ∧ ids ⊆ idList ∧ db'.contentIndexingDb = ids.foldl OrdMap.del db.contentIndexingDb
  commits ok := ok = true

/-- One document waits, and `run` is at this place. -/
def atPlace (pc : Pc) (finishedCount batchStartCount : UInt32) (unfinished : List DocId) (calls : List ProgressCall) :
    CountingIndexer where
  indexer := { batchSize := 40, pc := pc }
  db := oneWaits
  totalCount := 1
  finishedCount := finishedCount
  batchStartCount := batchStartCount
  unfinished := unfinished
  calls := calls

/-- As long as the queue stays what it is, and the batch is not done, a step is orderly. -/
theorem orderlyStep (hstep : CountStep env s s') (hdb : s'.db = s.db)
    (hfew : FileContentIndexerProvider.size s.db < 2 ^ 32) (hpc : ∀ idList, s'.indexer.pc ≠ .finished idList false) :
    OrderlyStep env s s' :=
  ⟨hstep, fun _ _ => hfew, fun _ _ hid => hdb ▸ hid, fun idList _ hfinished => absurd hfinished (hpc idList)⟩

/-- The document is fetched, given to the extractor and reported. -/
theorem reported (size : ℕ) (hsize : FileContentIndexerProvider.fetch oneWaits size = [7])
    (finishedCount batchStartCount : UInt32) (calls : List ProgressCall) :
    Relation.ReflTransGen (OrderlyStep leavesRenamed) (atPlace (.fetching size) finishedCount batchStartCount [] calls)
      (atPlace (.waiting [7]) (finishedCount + 1) finishedCount []
        (calls ++ [{ totalCount := 1, finishedCount := finishedCount + 1 }])) := by
  have hfew : FileContentIndexerProvider.size oneWaits < 2 ^ 32 := by decide
  have hfetch : OrderlyStep leavesRenamed (atPlace (.fetching size) finishedCount batchStartCount [] calls)
      (atPlace (.checking [7]) finishedCount batchStartCount [] calls) := by
    have hworker : WorkerStep leavesRenamed ((atPlace (.fetching size) 0 0 [] []).indexer, oneWaits) _ _ :=
      .fetch size rfl
    rw [hsize] at hworker
    exact orderlyStep (.pass trivial hworker) rfl hfew (by simp [atPlace])
  have hcheck : OrderlyStep leavesRenamed (atPlace (.checking [7]) finishedCount batchStartCount [] calls)
      (atPlace (.indexing [7]) finishedCount batchStartCount [] calls) :=
    orderlyStep (.pass trivial (.check [7] rfl)) rfl hfew (by simp [atPlace])
  have hindex : OrderlyStep leavesRenamed (atPlace (.indexing [7]) finishedCount batchStartCount [] calls)
      (atPlace (.waiting [7]) finishedCount finishedCount [7] calls) :=
    orderlyStep (.index [7] rfl (.index [7] rfl)) rfl hfew (by simp [atPlace])
  exact .tail (.tail (.tail (.single hfetch) hcheck) hindex)
    (orderlyStep (.fileFinished [7] 7 rfl (by simp [atPlace])) rfl hfew (by simp [atPlace]))

/-- The only document is reported: none remains. -/
theorem progress_never_wraps_one : ∃ s' : CountingIndexer, s'.calls = [⟨1, 1⟩] ∧
    ∀ call ∈ s'.calls, call.finishedCount ≤ call.totalCount ∧
      call.remainingCount.toNat = call.totalCount.toNat - call.finishedCount.toNat := by
  let s : CountingIndexer := { indexer := { batchSize := 40, pc := .queued }, db := oneWaits }
  have hbegin : OrderlyStep leavesRenamed s (atPlace (.fetching 40) 0 0 [] []) :=
    orderlyStep (.begin rfl (.begin rfl)) rfl (by decide) (by simp [atPlace])
  exact ⟨_, rfl, progress_never_wraps (s := s) ⟨rfl, rfl⟩ (.head hbegin (reported 40 (by decide) 0 0 []))⟩

/-- The only document is reported, stays in the queue because it has been renamed, and is reported again: 2³² - 1
documents remain. -/
theorem progress_wraps : ∃ s s' : CountingIndexer, s.Starts ∧
    Relation.ReflTransGen (CountStep leavesRenamed) s s' ∧ ∃ call ∈ s'.calls,
      call.totalCount < call.finishedCount ∧ call.remainingCount.toNat = 2 ^ 32 - 1 := by
  let s : CountingIndexer := { indexer := { batchSize := 40, pc := .queued }, db := oneWaits }
  have steps {a b : CountingIndexer} (hrun : Relation.ReflTransGen (OrderlyStep leavesRenamed) a b) :
      Relation.ReflTransGen (CountStep leavesRenamed) a b := hrun.lift id fun _ _ => And.left
  have hbegin : CountStep leavesRenamed s (atPlace (.fetching 40) 0 0 [] []) := .begin rfl (.begin rfl)
  have hextracted : CountStep leavesRenamed (atPlace (.waiting [7]) 1 0 [] [⟨1, 1⟩])
      (atPlace (.finished [7] false) 1 0 [] [⟨1, 1⟩]) :=
    .pass trivial (.extracted [7] [] false rfl ⟨rfl, by simp, rfl⟩)
  have hproceed : CountStep leavesRenamed (atPlace (.finished [7] false) 1 0 [] [⟨1, 1⟩])
      (atPlace (.fetching 1) 1 0 [] [⟨1, 1⟩]) :=
    .pass (.inl (by simp)) (.proceed [7] false rfl (by simp))
  have hfirst := Relation.ReflTransGen.head hbegin (steps (reported 40 (by decide) 0 0 []))
  have hsecond := Relation.ReflTransGen.head hproceed (steps (reported 1 (by decide) 1 0 [⟨1, 1⟩]))
  exact ⟨s, _, ⟨rfl, rfl⟩, hfirst.trans (.head hextracted hsecond), ⟨1, 2⟩, by simp [atPlace], by decide, by decide⟩

end CountingIndexer

end Baloo
