import Baloo.FileContentIndexer
import Baloo.Lib.Transition
import Mathlib.Data.Prod.Lex

/-!
# Halving isolates the bad files

A batch with a file the extractor cannot read fails as a whole, perhaps after some of its good files
were committed. The indexer then halves the batch, down to a single file, which it marks as failed.
This ends, with all good files committed and exactly the bad ones marked, as long as the batch size
fits the `int` that the table is asked for.
-/

namespace Baloo

/-- An extractor that fails on the bad documents and on no others. When it fails, it may have
committed some of the good documents of the batch. Commits succeed. -/
def extractor (bad : DocId → Prop) : Environment where
  extracts db idList ids db' hadErrors :=
    (hadErrors = true ↔ ∃ id ∈ idList, bad id) ∧
    (∀ id ∈ ids, id ∈ idList ∧ ¬ bad id) ∧ (hadErrors = false → idList ⊆ ids) ∧
    db'.contentIndexingDb = ids.foldl OrdMap.del db.contentIndexingDb ∧
    db'.failedIdDb = db.failedIdDb
  commits ok := ok = true

/-- The indexer, the database and what has been seen. -/
abbrev IndexerRun : Type := (FileContentIndexer × Database) × List Activity

/-- The steps of an indexer that nobody asks to stop. -/
def IndexerStep (env : Environment) (a b : IndexerRun) : Prop :=
  ∃ activities, WorkerStep env a.1 activities b.1 ∧ b.2 = a.2 ++ activities

/-- The document waits for content indexing. -/
def Database.Waits (db : Database) (id : DocId) : Prop := db.contentIndexingDb.contains id = true

instance (db : Database) (id : DocId) : Decidable (db.Waits id) :=
  inferInstanceAs (Decidable (_ = true))

/-- The document has been committed. -/
def HasCommitted (trace : List Activity) (id : DocId) : Prop :=
  ∃ ids, .committed ids ∈ trace ∧ id ∈ ids

/-! ## Fetching -/

namespace FileContentIndexerProvider

variable {db : Database} {size : ℕ}

/-- Sizes that fit an `int` are passed on as they are. -/
theorem fetch_eq_take (hsize : size < 2 ^ 31) :
    fetch db size = (OrdMap.keys db.contentIndexingDb).take size := by
  have hbmod : ((size : ℤ).bmod (2 ^ 32)).toNat = size := by
    rw [Int.bmod_eq_of_le (by omega) (by omega)]
    rfl
  rw [fetch, DocumentIdDB.fetchItems, hbmod]

/-- Other sizes become negative, and nothing is fetched. -/
theorem fetch_eq_nil_of_le (hsize : 2 ^ 31 ≤ size) (hsize' : size < 2 ^ 32) :
    fetch db size = [] := by
  have hbmod : (size : ℤ).bmod (2 ^ 32) = size - 2 ^ 32 := by
    rw [← Int.sub_bmod_right, Int.bmod_eq_of_le (by omega) (by omega)]
    rfl
  rw [fetch, DocumentIdDB.fetchItems, hbmod, Int.toNat_of_nonpos (by omega)]
  rfl

theorem mem_fetch (hsize : size < 2 ^ 31) {id : DocId} (h : id ∈ fetch db size) : db.Waits id := by
  rw [fetch_eq_take hsize] at h
  exact OrdMap.contains_iff_mem_keys.mpr (List.mem_of_mem_take h)

theorem length_fetch_le (hsize : size < 2 ^ 31) : (fetch db size).length ≤ size := by
  rw [fetch_eq_take hsize]
  exact List.length_take_le ..

/-- Nothing is fetched only if nothing waits. -/
theorem fetch_eq_nil (hpos : 1 ≤ size) (hsize : size < 2 ^ 31) (h : fetch db size = []) :
    OrdMap.keys db.contentIndexingDb = [] := by
  rw [fetch_eq_take hsize, List.take_eq_nil_iff] at h
  exact h.resolve_left (by omega)

end FileContentIndexerProvider

/-! ## The invariant -/

/-- What holds of the indexer at each place in `run`. -/
def Pc.Sound (bad : DocId → Prop) (db : Database) : Pc → Prop
  | .idle | .exited => False
  | .queued => True
  | .fetching size => 1 ≤ size ∧ size < 2 ^ 31
  | .checking idList =>
    (idList = [] → OrdMap.keys db.contentIndexingDb = []) ∧ idList.length < 2 ^ 31 ∧
      ∀ id ∈ idList, db.Waits id
  | .indexing idList | .waiting idList =>
    idList ≠ [] ∧ idList.length < 2 ^ 31 ∧ ∀ id ∈ idList, db.Waits id
  | .finished idList hadErrors =>
    idList ≠ [] ∧ idList.length < 2 ^ 31 ∧
      (hadErrors = true → ∀ id ∈ idList, bad id → db.Waits id) ∧
      (hadErrors = true ↔ ∃ id ∈ idList, bad id)
  | .done => OrdMap.keys db.contentIndexingDb = []

/-- The invariant of a run on the database `db₀`: every document that waited still waits, or was good
and is committed, or was bad and is marked. -/
structure Isolates (bad : DocId → Prop) (db₀ : Database) (run : IndexerRun) : Prop where
  /-- the configured size is positive and fits -/
  batchSize : 1 ≤ run.1.1.batchSize ∧ run.1.1.batchSize < 2 ^ 31
  /-- nobody has asked to stop -/
  stop : run.1.1.pc = .queued ∨ run.1.1.stop = false
  /-- the place in `run` -/
  sound : run.1.1.pc.Sound bad run.1.2
  /-- every document is accounted for -/
  account : ∀ id, db₀.Waits id ↔
    run.1.2.Waits id ∨ HasCommitted run.2 id ∨ .markFailed id ∈ run.2
  /-- only good documents are committed -/
  good : ∀ id, HasCommitted run.2 id → ¬ bad id
  /-- only bad documents are marked -/
  bad : ∀ id, .markFailed id ∈ run.2 → bad id
  /-- and they are recorded -/
  failed : ∀ id, run.1.2.failedIdDb.contains id = true ↔
    db₀.failedIdDb.contains id = true ∨ .markFailed id ∈ run.2
  /-- something was asked for at each fetch -/
  fetched : ∀ size, .fetch size ∈ run.2 → 1 ≤ size

theorem hasCommitted_append {trace activities : List Activity} {id : DocId} :
    HasCommitted (trace ++ activities) id ↔ HasCommitted trace id ∨ HasCommitted activities id := by
  simp only [HasCommitted, List.mem_append, or_and_right, exists_or]

namespace Isolates

variable {bad : DocId → Prop} {db₀ db : Database} {indexer : FileContentIndexer}
  {trace : List Activity}

theorem initial (indexer : FileContentIndexer) (hpc : indexer.pc = .queued)
    (hpos : 1 ≤ indexer.batchSize) (hsize : indexer.batchSize < 2 ^ 31) :
    Isolates bad db₀ ((indexer, db₀), []) where
  batchSize := ⟨hpos, hsize⟩
  stop := Or.inl hpc
  sound := by
    show indexer.pc.Sound bad db₀
    rw [hpc]
    trivial
  account id := by simp [HasCommitted]
  good id h := by simp [HasCommitted] at h
  bad id h := by simp at h
  failed id := by simp
  fetched size h := by simp at h

/-- A step that fetches or hands over a batch, or moves on in `run`. -/
theorem move (h : Isolates bad db₀ ((indexer, db), trace)) {pc : Pc} {stop : Bool}
    {activities : List Activity} (hstop : pc = .queued ∨ stop = false) (hsound : pc.Sound bad db)
    (hactivities : ∀ a ∈ activities,
      (∃ size, a = .fetch size ∧ 1 ≤ size) ∨ ∃ idList, a = .index idList) :
    Isolates bad db₀ (({ indexer with pc, stop }, db), trace ++ activities) := by
  have hcommitted : ∀ id, HasCommitted (trace ++ activities) id ↔ HasCommitted trace id := by
    intro id
    rw [hasCommitted_append, or_iff_left]
    rintro ⟨ids, hmem, -⟩
    rcases hactivities _ hmem with ⟨_, heq, -⟩ | ⟨_, heq⟩ <;> cases heq
  have hmarked : ∀ id, .markFailed id ∈ trace ++ activities ↔ .markFailed id ∈ trace := by
    intro id
    rw [List.mem_append, or_iff_left]
    intro hmem
    rcases hactivities _ hmem with ⟨_, heq, -⟩ | ⟨_, heq⟩ <;> cases heq
  refine ⟨h.batchSize, hstop, hsound, fun id => ?_, fun id hid => ?_, fun id hid => ?_,
    fun id => ?_, fun size hsize => ?_⟩
  · rw [hcommitted, hmarked]
    exact h.account id
  · exact h.good id ((hcommitted id).mp hid)
  · exact h.bad id ((hmarked id).mp hid)
  · rw [hmarked]
    exact h.failed id
  · rcases List.mem_append.mp hsize with hsize | hsize
    · exact h.fetched size hsize
    · rcases hactivities _ hsize with ⟨_, heq, hpos⟩ | ⟨_, heq⟩
      · cases heq
        exact hpos
      · cases heq

/-- The extractor is done with a batch. -/
theorem extracted (h : Isolates bad db₀ ((indexer, db), trace)) {db' : Database}
    {idList ids : List DocId} {hadErrors : Bool} (hstop : indexer.stop = false)
    (hne : idList ≠ []) (hlen : idList.length < 2 ^ 31) (hwaits : ∀ id ∈ idList, db.Waits id)
    (hextracts : (extractor bad).extracts db idList ids db' hadErrors) :
    Isolates bad db₀
      (({ indexer with pc := .finished idList hadErrors }, db'), trace ++ [.committed ids]) := by
  obtain ⟨herrors, hids, -, hdb, hfailed⟩ := hextracts
  have hwaits' : ∀ id, db'.Waits id ↔ id ∉ ids ∧ db.Waits id := fun id => by
    rw [Database.Waits, hdb, OrdMap.contains_foldl_del]
    rfl
  have hcommitted : ∀ id, HasCommitted [.committed ids] id ↔ id ∈ ids := fun id => by
    simp [HasCommitted]
  refine ⟨h.batchSize, Or.inr hstop, ⟨hne, hlen, fun _ id hid hbad => ?_, herrors⟩, fun id => ?_,
    fun id hid => ?_, fun id hid => ?_, fun id => ?_, fun size hsize => ?_⟩
  · exact (hwaits' id).mpr ⟨fun hmem => (hids id hmem).2 hbad, hwaits id hid⟩
  · have hwaited : id ∈ ids → db.Waits id := fun hid => hwaits id (hids id hid).1
    simp only [hasCommitted_append, hcommitted, hwaits', List.mem_append, List.mem_singleton,
      reduceCtorEq, or_false]
    rw [h.account]
    grind
  · rcases hasCommitted_append.mp hid with hid | hid
    · exact h.good id hid
    · exact (hids id ((hcommitted id).mp hid)).2
  · exact h.bad id (by simpa using hid)
  · simp only [List.mem_append, List.mem_singleton, reduceCtorEq, or_false, hfailed]
    exact h.failed id
  · exact h.fetched size (by simpa using hsize)

/-- A single document has failed, and it is marked. -/
theorem markFailed (h : Isolates bad db₀ ((indexer, db), trace)) {failedId : DocId}
    (hstop : indexer.stop = false) (hbad : bad failedId) (hwaits : db.Waits failedId) :
    Isolates bad db₀ (({ indexer with pc := .fetching indexer.batchSize },
      FileContentIndexerProvider.markFailed db failedId), trace ++ [.markFailed failedId]) := by
  have hwaits' : ∀ id, (FileContentIndexerProvider.markFailed db failedId).Waits id ↔
      id ≠ failedId ∧ db.Waits id := fun id => by
    simp [Database.Waits, FileContentIndexerProvider.markFailed]
  have hfailed : ∀ id,
      (FileContentIndexerProvider.markFailed db failedId).failedIdDb.contains id = true ↔
        id = failedId ∨ db.failedIdDb.contains id = true := fun id => by
    rw [FileContentIndexerProvider.markFailed]
    dsimp only
    split
    · next hhas =>
      refine ⟨Or.inr, ?_⟩
      rintro (rfl | hid)
      · exact hhas
      · exact hid
    · simp [DocumentIdDB.put]
  have hcommitted : ∀ id, HasCommitted (trace ++ [.markFailed failedId]) id ↔
      HasCommitted trace id := fun id => by
    simp [HasCommitted]
  refine ⟨h.batchSize, Or.inr hstop, h.batchSize, fun id => ?_, fun id hid => ?_,
    fun id hid => ?_, fun id => ?_, fun size hsize => ?_⟩
  · rw [hcommitted, hwaits', h.account, List.mem_append, List.mem_singleton,
      Activity.markFailed.injEq]
    rcases eq_or_ne id failedId with rfl | hne
    · simp [hwaits]
    · simp [hne]
  · exact h.good id ((hcommitted id).mp hid)
  · rw [List.mem_append, List.mem_singleton, Activity.markFailed.injEq] at hid
    rcases hid with hid | rfl
    · exact h.bad id hid
    · exact hbad
  · rw [hfailed, h.failed, List.mem_append, List.mem_singleton, Activity.markFailed.injEq]
    grind
  · exact h.fetched size (by simpa using hsize)

end Isolates

/-! ## Progress -/

/-- How far a run still has to go: first the documents that wait, then the size of the batch, then
the place in the loop. A batch without errors has made one document less wait, so until the next
fetch it may count as one more. -/
def progress (run : IndexerRun) : ℕ ×ₗ ℕ ×ₗ ℕ :=
  let queue := run.1.2.contentIndexingDb.size
  match run.1.1.pc with
  | .queued | .finished _ false => toLex (queue + 1, toLex (0, 0))
  | .fetching size => toLex (queue, toLex (size, 4))
  | .checking idList => toLex (queue, toLex (idList.length, 3))
  | .indexing idList => toLex (queue, toLex (idList.length, 2))
  | .waiting idList => toLex (queue, toLex (idList.length, 1))
  | .finished idList true => toLex (queue, toLex (idList.length, 0))
  | .idle | .done | .exited => toLex (queue, toLex (0, 0))

theorem lex_lt {a b c a' b' c' : ℕ} (h : a < a' ∨ a = a' ∧ (b < b' ∨ b = b' ∧ c < c')) :
    (toLex (a, toLex (b, c)) : ℕ ×ₗ ℕ ×ₗ ℕ) < toLex (a', toLex (b', c')) := by
  rw [Prod.Lex.toLex_lt_toLex, Prod.Lex.toLex_lt_toLex]
  exact h

/-- **One step keeps the invariant and makes progress.** -/
theorem Isolates.step {bad : DocId → Prop} {db₀ : Database} {a b : IndexerRun}
    (h : Isolates bad db₀ a) (hstep : IndexerStep (extractor bad) a b) :
    Isolates bad db₀ b ∧ progress b < progress a := by
  obtain ⟨⟨⟨limit, stop, pc⟩, db⟩, trace⟩ := a
  obtain ⟨⟨indexer', db'⟩, trace'⟩ := b
  obtain ⟨activities, hworker, rfl⟩ := hstep
  have hsound : pc.Sound bad db := h.sound
  have hgoing : pc = .queued ∨ stop = false := h.stop
  cases hworker with
  | begin hpc =>
    obtain rfl : pc = .queued := hpc
    exact ⟨h.move (Or.inr rfl) h.batchSize (by simp), lex_lt (Or.inl (Nat.lt_succ_self _))⟩
  | fetch size hpc =>
    obtain rfl : pc = .fetching size := hpc
    obtain ⟨hpos, hsize⟩ := hsound
    have hle : (FileContentIndexerProvider.fetch db size).length ≤ size :=
      FileContentIndexerProvider.length_fetch_le hsize
    refine ⟨h.move (hgoing.imp_left nofun) ⟨?_, ?_, ?_⟩ ?_, lex_lt (Or.inr ⟨rfl, ?_⟩)⟩
    · exact FileContentIndexerProvider.fetch_eq_nil hpos hsize
    · exact Nat.lt_of_le_of_lt hle hsize
    · exact fun id => FileContentIndexerProvider.mem_fetch hsize
    · exact fun a ha => Or.inl ⟨size, List.mem_singleton.mp ha, hpos⟩
    · exact (Nat.lt_or_eq_of_le hle).imp_right fun heq => ⟨heq, by decide⟩
  | check idList hpc =>
    obtain rfl : pc = .checking idList := hpc
    obtain ⟨hempty, hlen, hwaits⟩ := hsound
    obtain rfl : stop = false := hgoing.resolve_left nofun
    rcases eq_or_ne idList [] with rfl | hne
    · exact ⟨h.move (Or.inr rfl) (hempty rfl) (by simp),
        lex_lt (Or.inr ⟨rfl, Or.inr ⟨rfl, by decide⟩⟩)⟩
    · simp only [hne, Bool.false_eq_true, or_self, if_false]
      exact ⟨h.move (Or.inr rfl) ⟨hne, hlen, hwaits⟩ (by simp),
        lex_lt (Or.inr ⟨rfl, Or.inr ⟨rfl, by decide⟩⟩)⟩
  | index idList hpc =>
    obtain rfl : pc = .indexing idList := hpc
    exact ⟨h.move (hgoing.imp_left nofun) hsound fun a ha =>
      Or.inr ⟨idList, List.mem_singleton.mp ha⟩, lex_lt (Or.inr ⟨rfl, Or.inr ⟨rfl, by decide⟩⟩)⟩
  | extracted idList ids hadErrors hpc hextracts =>
    obtain rfl : pc = .waiting idList := hpc
    obtain ⟨hne, hlen, hwaits⟩ := hsound
    obtain rfl : stop = false := hgoing.resolve_left nofun
    refine ⟨h.extracted rfl hne hlen hwaits hextracts, ?_⟩
    obtain ⟨-, -, hall, hdb, -⟩ := hextracts
    have hsub : ∀ id, db'.contentIndexingDb.contains id = true →
        db.contentIndexingDb.contains id = true := fun id hid =>
      (OrdMap.contains_foldl_del.mp (hdb ▸ hid)).2
    rcases hadErrors with _ | _
    · -- everything is committed, so there is less to do
      obtain ⟨id, hid⟩ := List.exists_mem_of_ne_nil idList hne
      have hgone : db'.contentIndexingDb.contains id = false := by
        rw [Bool.eq_false_iff, hdb]
        exact fun hcontains => (OrdMap.contains_foldl_del.mp hcontains).1 (hall rfl hid)
      have hlt := OrdMap.length_keys_lt hsub (hwaits id hid) hgone
      exact lex_lt ((Nat.lt_or_eq_of_le hlt).imp_right fun heq =>
        ⟨heq, Or.inl (List.length_pos_iff.mpr hne)⟩)
    · have hle := OrdMap.length_keys_le hsub
      exact lex_lt ((Nat.lt_or_eq_of_le hle).imp_right fun heq =>
        ⟨heq, Or.inr ⟨rfl, by decide⟩⟩)
  | proceed idList hadErrors hpc hno =>
    obtain rfl : pc = .finished idList hadErrors := hpc
    obtain ⟨hne, hlen, -, -⟩ := hsound
    obtain rfl : stop = false := hgoing.resolve_left nofun
    obtain rfl : hadErrors = false := by simpa using hno
    exact ⟨h.move (Or.inr rfl) ⟨List.length_pos_iff.mpr hne, hlen⟩ (by simp),
      lex_lt (Or.inl (Nat.lt_succ_self _))⟩
  | halve idList hpc hstop hlen =>
    obtain rfl : pc = .finished idList true := hpc
    obtain ⟨hne, hlt, -, -⟩ := hsound
    have hpos := List.length_pos_iff.mpr hne
    have hhalf : 1 ≤ idList.length / 2 ∧ idList.length / 2 < 2 ^ 31 := by omega
    exact ⟨h.move (Or.inr hstop) hhalf (by simp), lex_lt (Or.inr ⟨rfl, Or.inl (by omega)⟩)⟩
  | markFailed failedId hpc hstop hcommits =>
    obtain rfl : pc = .finished [failedId] true := hpc
    obtain ⟨-, -, hwaits, herrors⟩ := hsound
    obtain ⟨id, hid, hbad⟩ := herrors.mp rfl
    obtain rfl := List.mem_singleton.mp hid
    have hid' := hwaits rfl id hid hbad
    refine ⟨h.markFailed hstop hbad hid', lex_lt (Or.inl ?_)⟩
    refine OrdMap.length_keys_lt (fun a ha => ?_) hid' ?_
    · simp only [FileContentIndexerProvider.markFailed, OrdMap.contains_del,
        Bool.and_eq_true] at ha
      exact ha.2
    · simp [FileContentIndexerProvider.markFailed]
  | exit failedId hpc hstop hcommits => cases hcommits

/-- The extractor has an answer to every batch. -/
theorem exists_extracts (bad : DocId → Prop) (db : Database) (idList : List DocId) :
    ∃ ids db' hadErrors, (extractor bad).extracts db idList ids db' hadErrors := by
  rcases Classical.em (∃ id ∈ idList, bad id) with hbad | hgood
  · exact ⟨[], db, true, ⟨fun _ => hbad, fun _ => rfl⟩, nofun, nofun, rfl, rfl⟩
  · refine ⟨idList, { db with
      contentIndexingDb := idList.foldl OrdMap.del db.contentIndexingDb }, false,
      ⟨nofun, fun hbad => absurd hbad hgood⟩, fun id hid => ⟨hid, fun hbad => hgood ⟨id, hid, hbad⟩⟩,
      fun _ => List.Subset.refl idList, rfl, rfl⟩

/-- As long as `run` has not ended, it can go on. -/
theorem Isolates.exists_step {bad : DocId → Prop} {db₀ : Database} {a : IndexerRun}
    (h : Isolates bad db₀ a) (hstuck : ∀ b, ¬ IndexerStep (extractor bad) a b) :
    a.1.1.pc = .done := by
  obtain ⟨⟨⟨limit, stop, pc⟩, db⟩, trace⟩ := a
  have hsound : pc.Sound bad db := h.sound
  have hgoing : pc = .queued ∨ stop = false := h.stop
  cases pc with
  | idle => exact hsound.elim
  | exited => exact hsound.elim
  | done => rfl
  | queued => exact absurd ⟨_, .begin rfl, rfl⟩ (hstuck (_, _))
  | fetching size => exact absurd ⟨_, .fetch size rfl, rfl⟩ (hstuck (_, _))
  | checking idList => exact absurd ⟨_, .check idList rfl, rfl⟩ (hstuck (_, _))
  | indexing idList => exact absurd ⟨_, .index idList rfl, rfl⟩ (hstuck (_, _))
  | waiting idList =>
    obtain ⟨ids, db', hadErrors, hextracts⟩ := exists_extracts bad db idList
    exact absurd ⟨_, .extracted idList ids hadErrors rfl hextracts, rfl⟩ (hstuck (_, _))
  | finished idList hadErrors =>
    obtain rfl : stop = false := hgoing.resolve_left nofun
    rcases hadErrors with _ | _
    · exact absurd ⟨_, .proceed idList false rfl (by simp), rfl⟩ (hstuck (_, _))
    · rcases eq_or_ne idList.length 1 with hlen | hlen
      · obtain ⟨failedId, rfl⟩ := List.length_eq_one_iff.mp hlen
        exact absurd ⟨_, .markFailed failedId rfl rfl rfl, rfl⟩ (hstuck (_, _))
      · exact absurd ⟨_, .halve idList rfl rfl hlen, rfl⟩ (hstuck (_, _))

/-- **Halving isolates exactly the bad files.** The loop ends; every fetch asks for something; and when
the loop has ended, nothing waits any more, the documents marked as failed are the bad ones that
waited, and the good ones have been committed and are not marked. -/
theorem batches_isolate {bad : DocId → Prop} {batchSize : ℕ} {stop : Bool} {db₀ : Database}
    (hpos : 1 ≤ batchSize) (hsize : batchSize < 2 ^ 31) :
    Transition.Terminates (IndexerStep (extractor bad)) ((⟨batchSize, stop, .queued⟩, db₀), []) ∧
    ∀ run, Relation.ReflTransGen (IndexerStep (extractor bad))
        ((⟨batchSize, stop, .queued⟩, db₀), []) run →
      (∀ size, .fetch size ∈ run.2 → 1 ≤ size) ∧
      ((∀ next, ¬ IndexerStep (extractor bad) run next) →
        run.1.1.pc = .done ∧ OrdMap.keys run.1.2.contentIndexingDb = [] ∧
        (∀ id, .markFailed id ∈ run.2 ↔ db₀.Waits id ∧ bad id) ∧
        (∀ id, run.1.2.failedIdDb.contains id = true ↔
          db₀.failedIdDb.contains id = true ∨ db₀.Waits id ∧ bad id) ∧
        ∀ id, db₀.Waits id → ¬ bad id → HasCommitted run.2 id ∧ .markFailed id ∉ run.2) := by
  have hinitial : Isolates bad db₀ ((⟨batchSize, stop, .queued⟩, db₀), []) :=
    .initial _ rfl hpos hsize
  refine ⟨Transition.terminates progress (fun a b h hstep => h.step hstep) hinitial,
    fun run hrun => ?_⟩
  have h := Transition.invariant (I := Isolates bad db₀) (fun a b h hstep => (h.step hstep).1)
    hinitial hrun
  refine ⟨h.fetched, fun hstuck => ?_⟩
  have hdone := h.exists_step hstuck
  have hempty : OrdMap.keys run.1.2.contentIndexingDb = [] := by
    have hsound := h.sound
    rw [hdone] at hsound
    exact hsound
  have hnone : ∀ id, ¬ run.1.2.Waits id := fun id hwaits =>
    List.not_mem_nil (hempty ▸ OrdMap.contains_iff_mem_keys.mp hwaits)
  have hmarked : ∀ id, .markFailed id ∈ run.2 ↔ db₀.Waits id ∧ bad id := by
    intro id
    refine ⟨fun hmem => ⟨(h.account id).mpr (Or.inr (Or.inr hmem)), h.bad id hmem⟩, ?_⟩
    rintro ⟨hwaits, hbad⟩
    rcases (h.account id).mp hwaits with hwaits | hcommitted | hmem
    · exact absurd hwaits (hnone id)
    · exact absurd hbad (h.good id hcommitted)
    · exact hmem
  refine ⟨hdone, hempty, hmarked, fun id => ?_, fun id hwaits hgood => ?_⟩
  · rw [h.failed, hmarked]
  · have hnot : .markFailed id ∉ run.2 := fun hmem => hgood (h.bad id hmem)
    rcases (h.account id).mp hwaits with hwaits | hcommitted | hmem
    · exact absurd hwaits (hnone id)
    · exact ⟨hcommitted, hnot⟩
    · exact absurd hmem hnot

/-- The database has one document, and it waits. -/
def oneWaits : Database := { contentIndexingDb := OrdMap.put ∅ 7 () }

/-- The configured batch size is 40; document 7 is bad. -/
theorem batches_isolate_forty : ∃ run : IndexerRun,
    Relation.ReflTransGen (IndexerStep (extractor (· = 7))) ((⟨40, true, .queued⟩, oneWaits), [])
      run ∧ .markFailed 7 ∈ run.2 := by
  obtain ⟨hterminates, hruns⟩ :=
    @batches_isolate (· = 7) 40 true oneWaits (by decide) (by decide)
  obtain ⟨run, hrun, hstuck⟩ := hterminates.exists_stuck
  exact ⟨run, hrun, (((hruns run hrun).2 hstuck).2.2.1 7).mpr ⟨by decide, rfl⟩⟩

/-- A batch size that is no `int` fetches nothing: `run` ends while a document waits. -/
theorem huge_batch_size_fetches_nothing :
    Relation.ReflTransGen (IndexerStep (extractor fun _ => False))
      ((⟨2 ^ 31, false, .queued⟩, oneWaits), [])
      ((⟨2 ^ 31, false, .done⟩, oneWaits), [.fetch (2 ^ 31)]) ∧ oneWaits.Waits 7 := by
  let indexer (pc : Pc) : FileContentIndexer := ⟨2 ^ 31, false, pc⟩
  have hfetch : IndexerStep (extractor fun _ => False)
      ((indexer (.fetching (2 ^ 31)), oneWaits), [])
      ((indexer (.checking []), oneWaits), [.fetch (2 ^ 31)]) := by
    have hstep : WorkerStep (extractor fun _ => False) (indexer (.fetching (2 ^ 31)), oneWaits) _ _ :=
      .fetch (2 ^ 31) rfl
    rw [FileContentIndexerProvider.fetch_eq_nil_of_le (by decide) (by decide)] at hstep
    exact ⟨_, hstep, rfl⟩
  have hcheck : IndexerStep (extractor fun _ => False)
      ((indexer (.checking []), oneWaits), [.fetch (2 ^ 31)])
      ((indexer .done, oneWaits), [.fetch (2 ^ 31)]) :=
    ⟨[], .check [] rfl, rfl⟩
  exact ⟨.tail (.tail (.tail .refl ⟨[], .begin rfl, rfl⟩) hfetch) hcheck, by decide⟩

end Baloo
