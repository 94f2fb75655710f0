import Baloo.Indexers
import Baloo.MTimeIndex

/-!
# When the check for unindexed files settles

The check compares the times the file system gives, 64-bit numbers, with the times of the record, which
have been stored as 32-bit numbers. A path that has been indexed is up to date for the check exactly if
its times have come through unchanged: the change time, and for a file the modification time as well.
The check of `UnIndexedFileIterator` and that of `ModifiedFileIndexer` are two pieces of code; on an
index in which only stored entries have records they agree (`settled_iff`).

So a file from before 1970 or after 2106 is indexed again by every check (`late_file_checked_again`), and
so is an entry of the root directory, for which `BasicIndexingJob` asks `lstat` for the empty path.
Everything else settles (`index_settles_iff`).
-/

namespace Baloo

/-! ## Records belong to stored entries -/

/-- Only stored entries have records of times. -/
def TimesStored (db : Database) : Prop :=
  ∀ i, db.docTimeDb.contains i = true → db.docUrlDb.contains i = true

section

variable {w w' : WriteTransaction} {admits : Database → Document → DocumentOperations → Prop}

theorem contains_addUrl (fs : FileSystem) (db : DocumentUrlDB) (doc : Document) :
    (∀ i, db.contains i = true → (WriteTransaction.addUrl fs db doc).1.contains i = true) ∧
    ((WriteTransaction.addUrl fs db doc).2 = true →
      (WriteTransaction.addUrl fs db doc).1.contains doc.id = true) := by
  have hpath : ∀ i, db.contains i = true →
      (if 0 < lastIndexOf slash doc.url then
        (db.addPath fs (left doc.url (lastIndexOf slash doc.url))).1 else db).contains i = true := by
    intro i hi
    split
    · simp only [DocumentUrlDB.contains, Bool.and_eq_true] at hi ⊢
      exact ⟨hi.1, DocumentUrlDB.contains_addPath fs hi.2 _⟩
    · exact hi
  rw [WriteTransaction.addUrl]
  generalize (if 0 < lastIndexOf slash doc.url then
    (db.addPath fs (left doc.url (lastIndexOf slash doc.url))).1 else db) = db' at hpath ⊢
  rcases hput : db'.put doc.id _ _ with _ | db''
  · exact ⟨hpath, fun h => absurd h Bool.false_ne_true⟩
  · have hne : doc.id ≠ 0 := by
      rintro hzero
      simp [DocumentUrlDB.put, DocumentUrlDB.canPut, hzero] at hput
    refine ⟨fun i hi => ?_, fun _ => ?_⟩
    · have hi' := hpath i hi
      simp only [DocumentUrlDB.contains, Bool.and_eq_true] at hi' ⊢
      exact ⟨hi'.1, by rw [DocumentUrlDB.contains_put hput, hi'.2, Bool.or_true]⟩
    · simp [DocumentUrlDB.contains, DocumentUrlDB.contains_put hput, hne]

theorem TimesStored.addDocument (h : TimesStored w.dbis) (fs : FileSystem) (doc : Document) :
    TimesStored (w.addDocument fs doc).dbis := by
  obtain ⟨hkept, hstored⟩ := contains_addUrl fs w.dbis.docUrlDb doc
  intro i hi
  rw [WriteTransaction.addDocument] at hi ⊢
  dsimp only at hi ⊢
  split at hi
  · next hurl =>
    rw [if_pos hurl]
    change (w.dbis.docTimeDb.put doc.id _).contains i = true at hi
    rw [OrdMap.contains_put, Bool.or_eq_true, decide_eq_true_iff] at hi
    rcases hi with rfl | hi
    · exact hstored hurl
    · exact hkept i (h i hi)
  · next hurl =>
    rw [if_neg hurl]
    exact hkept i (h i hi)

theorem TimesStored.replaceDocument (h : TimesStored w.dbis) {doc : Document}
    {operations : DocumentOperations} (hid : w.dbis.docUrlDb.contains doc.id = true) :
    TimesStored (w.replaceDocument doc operations).dbis := by
  obtain ⟨docTermsDb, docXattrTermsDb, docFilenameTermsDb, hframe⟩ := w.replaceDocument_frame doc operations
  intro i hi
  rw [hframe, WriteTransaction.replaceData] at hi ⊢
  have hcontains : w.dbis.docUrlDb.contains i = true := by
    dsimp only at hi
    split at hi
    · rw [OrdMap.contains_put, Bool.or_eq_true, decide_eq_true_iff] at hi
      rcases hi with rfl | hi
      · exact hid
      · exact h i hi
    · exact h i hi
  dsimp only
  split
  · simp only [DocumentUrlDB.contains, Bool.and_eq_true] at hcontains ⊢
    exact ⟨hcontains.1, DocumentUrlDB.contains_updateUrl hcontains.2⟩
  · exact hcontains

theorem TimesStored.removeDocument (w : WriteTransaction) (id : DocId) (h : TimesStored w.dbis) :
    TimesStored (w.removeDocument id).dbis := by
  intro i hi
  change (w.dbis.docTimeDb.del id).contains i = true at hi
  change (w.dbis.docUrlDb.del id).contains i = true
  rw [OrdMap.contains_del, Bool.and_eq_true, Bool.not_eq_true', decide_eq_false_iff_not] at hi
  have hcontains := h i hi.2
  rw [DocumentUrlDB.del]
  split
  · exact hcontains
  · simpa [DocumentUrlDB.contains, hi.1] using hcontains

/-- Every operation keeps the records with stored entries. -/
theorem TimesStored.step (h : TimesStored w.dbis) (hstep : TimeStep admits w w') : TimesStored w'.dbis := by
  cases hstep with
  | addDocument fs doc _ => exact h.addDocument fs doc
  | replaceDocument doc operations hid _ => exact h.replaceDocument hid
  | removeDocument id => exact removeDocument w id h
  | removeRecursively fuel id hw =>
    exact removeRecursively_preserves (P := fun w => TimesStored w.dbis) removeDocument h hw
  | removeRecursivelyIf shouldDelete fuel id gone hw =>
    exact removeRecursivelyIf_preserves (P := fun w => TimesStored w.dbis) removeDocument h hw
  | commit order =>
    rw [TimesStored, docUrlDb_commit, docTimeDb_commit]
    exact h

theorem TimesStored.run (hrun : Relation.ReflTransGen (TimeStep admits) {} w) : TimesStored w.dbis := by
  induction hrun with
  | refl =>
    intro i hi
    change (∅ : DocumentTimeDB).contains i = true at hi
    rw [OrdMap.contains_empty] at hi
    cases hi
  | tail _ hstep ih => exact ih.step hstep

end

/-! ## What the two checks say -/

/-- The path is stored and its record has the times that count: the change time, and for a file the
modification time. -/
structure UpToDate (db : Database) (stat : Stat) (id : DocId) : Prop where
  /-- it is stored -/
  stored : db.docUrlDb.contains id = true
  /-- the change time -/
  cTime : ((db.docTimeDb.get id).cTime : ℤ) = stat.cTime
  /-- the modification time of a file -/
  mTime : stat.isDir = false → ((db.docTimeDb.get id).mTime : ℤ) = stat.mTime

section

variable {lib : Libraries} {config : FileIndexerConfig} {onlyBasicIndexing : Bool} {fs : Snapshot}
  {db : Database} {path : QByteArray} {id : DocId}

/-- Neither check selects the path. -/
def Settled (lib : Libraries) (config : FileIndexerConfig) (onlyBasicIndexing : Bool) (fs : Snapshot)
    (db : Database) (path : QByteArray) : Prop :=
  (UnIndexedFileIterator.check lib fs db path).shouldIndex = false ∧
    ModifiedFileIndexer.decide lib config onlyBasicIndexing fs db (chop path) = .skip

/-- An entry that is not stored has no times. -/
theorem TimesStored.unknown (h : TimesStored db) :
    ((db.docTimeDb.get id).mTime = 0 ∧ (db.docTimeDb.get id).cTime = 0 ∧
      (!db.docUrlDb.contains id) = true) ↔ db.docUrlDb.contains id = false := by
  refine ⟨fun hunknown => by simpa using hunknown.2.2, fun hnot => ?_⟩
  have hnone : OrdMap.get db.docTimeDb id = none := by
    rw [← Option.not_isSome_iff_eq_none]
    intro hsome
    exact absurd ((h id hsome).symm.trans hnot) (by simp)
  rw [DocumentTimeDB.get, hnone, Option.getD_none, hnot]
  exact ⟨rfl, rfl, rfl⟩

theorem check_iff (h : TimesStored db) (hid : fs.lstat (chop path) = some id) :
    (UnIndexedFileIterator.check lib fs db path).shouldIndex = false ↔
      UpToDate db (fs.stat (chop path)) id := by
  rw [UnIndexedFileIterator.check, hid]
  dsimp only
  simp only [h.unknown]
  rcases hstored : db.docUrlDb.contains id with _ | _
  · refine ⟨fun hcheck => ?_, fun hdate => absurd (hstored.symm.trans hdate.stored) Bool.false_ne_true⟩
    split at hcheck <;> simp at hcheck
  · rcases hdir : (fs.stat (chop path)).isDir with _ | _
    · simp only [Bool.false_eq_true, if_false, Bool.true_eq_false, false_or, Bool.or_eq_false_iff,
        decide_eq_false_iff_not, not_not]
      refine ⟨fun hcheck => ?_, fun hdate => ⟨hdate.mTime hdir, hdate.cTime⟩⟩
      obtain ⟨hm, hc⟩ := hcheck
      exact ⟨hstored, hc, fun _ => hm⟩
    · simp only [if_true, Bool.true_eq_false, false_or, decide_eq_false_iff_not, not_not]
      exact ⟨fun hc => ⟨hstored, hc, fun hfile => absurd (hdir.symm.trans hfile) (by simp)⟩, UpToDate.cTime⟩

theorem decide_iff (hid : fs.lstat (chop path) = some id) (hlink : (fs.stat (chop path)).isSymLink = false)
    (haccepts : config.shouldFileBeIndexed (decodedName lib (chop path)) = true) :
    ModifiedFileIndexer.decide lib config onlyBasicIndexing fs db (chop path) = .skip ↔
      UpToDate db (fs.stat (chop path)) id := by
  -- skipped are paths without a change, and directories without a change of the change time
  have hskip : ∀ (m c dir : Bool) (doc : Document) (mimetype : List QChar) (known : Bool),
      (if (!m && !c) = true then ModifiedFileIndexer.Decision.skip
        else if (!c && dir) = true then .skip
        else if (!c && indexingLevel onlyBasicIndexing = .MarkForContentIndexing) = true then .defer doc
        else .index mimetype known id) = .skip ↔ c = false ∧ (m = false ∨ dir = true) := by
    intro m c dir doc mimetype known
    cases m <;> cases c <;> cases dir <;> simp
    split <;> simp
  rw [ModifiedFileIndexer.decide, hid, haccepts]
  simp only [hlink, Bool.not_true, Bool.false_eq_true, if_false, hskip, decide_eq_false_iff_not, not_or,
    Bool.not_eq_true', Bool.not_eq_false, not_not]
  refine ⟨fun hskipped => ?_, fun hdate => ⟨⟨hdate.stored, hdate.cTime⟩, ?_⟩⟩
  · obtain ⟨⟨hstored, hc⟩, hm⟩ := hskipped
    refine ⟨hstored, hc, fun hdir => ?_⟩
    exact (hm.resolve_right fun h => absurd (hdir.symm.trans h) Bool.false_ne_true).2
  · rcases hdir : (fs.stat (chop path)).isDir with _ | _
    · exact Or.inl ⟨hdate.stored, hdate.mTime hdir⟩
    · exact Or.inr rfl

/-- What `ModifiedFileIndexer` does with a path whose name it wants. -/
theorem decide_cases (hid : fs.lstat (chop path) = some id)
    (hlink : (fs.stat (chop path)).isSymLink = false)
    (haccepts : config.shouldFileBeIndexed (decodedName lib (chop path)) = true) :
    UpToDate db (fs.stat (chop path)) id ∧
      ModifiedFileIndexer.decide lib config onlyBasicIndexing fs db (chop path) = .skip ∨
    ¬ UpToDate db (fs.stat (chop path)) id ∧
      ((db.docUrlDb.contains id = true ∧
        ModifiedFileIndexer.decide lib config onlyBasicIndexing fs db (chop path) = .defer
          { id := id, mTime := toQuint32 (fs.stat (chop path)).mTime
            cTime := toQuint32 (fs.stat (chop path)).cTime, contentIndexing := true }) ∨
      ∃ mimetype, ModifiedFileIndexer.decide lib config onlyBasicIndexing fs db (chop path) =
        .index mimetype (db.docUrlDb.contains id) id) := by
  by_cases hdate : UpToDate db (fs.stat (chop path)) id
  · exact Or.inl ⟨hdate, (decide_iff hid hlink haccepts).mpr hdate⟩
  · refine Or.inr ⟨hdate, ?_⟩
    have hskip := (@decide_iff lib config onlyBasicIndexing fs db path id hid hlink haccepts).not.mpr hdate
    revert hskip
    rw [ModifiedFileIndexer.decide, hid, haccepts]
    simp only [hlink, Bool.not_true, Bool.false_eq_true, if_false]
    intro hskip
    split at hskip
    · exact absurd rfl hskip
    · next hchanged =>
      rw [if_neg hchanged]
      split at hskip
      · exact absurd rfl hskip
      · next hfolder =>
        rw [if_neg hfolder]
        split
        · next hdefer =>
          simp only [Bool.and_eq_true, Bool.not_eq_true', decide_eq_false_iff_not, not_or,
            Bool.not_eq_false] at hdefer
          exact Or.inl ⟨hdefer.1.1, rfl⟩
        · exact Or.inr ⟨_, rfl⟩

/-- **The two checks agree** on a file or directory, as far as `ModifiedFileIndexer` wants its name. -/
theorem settled_iff (h : TimesStored db) (hid : fs.lstat (chop path) = some id)
    (hlink : (fs.stat (chop path)).isSymLink = false) :
    Settled lib config onlyBasicIndexing fs db path ↔ UpToDate db (fs.stat (chop path)) id := by
  rw [Settled, check_iff h hid]
  refine ⟨And.left, fun hdate => ⟨hdate, ?_⟩⟩
  rcases haccepts : config.shouldFileBeIndexed (decodedName lib (chop path)) with _ | _
  · rw [ModifiedFileIndexer.decide, haccepts]
    rfl
  · exact (decide_iff hid hlink haccepts).mpr hdate

/-- The times that count survive being stored as 32-bit numbers. -/
structure Fits (stat : Stat) : Prop where
  /-- the change time -/
  cTime : 0 ≤ stat.cTime ∧ stat.cTime < 2 ^ 32
  /-- the modification time of a file -/
  mTime : stat.isDir = false → 0 ≤ stat.mTime ∧ stat.mTime < 2 ^ 32

theorem toQuint32_eq_iff (t : ℤ) : (toQuint32 t : ℤ) = t ↔ 0 ≤ t ∧ t < 2 ^ 32 := by
  rw [toQuint32]
  omega

/-- A path whose times have just been recorded is up to date if they fit. -/
theorem upToDate_recorded {stat : Stat} (hstored : db.docUrlDb.contains id = true)
    (htimes : db.docTimeDb.get id = { mTime := toQuint32 stat.mTime, cTime := toQuint32 stat.cTime }) :
    UpToDate db stat id ↔ Fits stat := by
  constructor
  · rintro ⟨-, hc, hm⟩
    rw [htimes] at hc hm
    exact ⟨(toQuint32_eq_iff _).mp hc, fun hdir => (toQuint32_eq_iff _).mp (hm hdir)⟩
  · rintro ⟨hc, hm⟩
    refine ⟨hstored, ?_, fun hdir => ?_⟩
    · rw [htimes]
      exact (toQuint32_eq_iff _).mpr hc
    · rw [htimes]
      exact (toQuint32_eq_iff _).mpr (hm hdir)

/-! ## What the jobs record -/

variable {w : WriteTransaction} {doc : Document} {mimetype : List QChar}

/-- The document has been written with its times. -/
structure Recorded (db : Database) (doc : Document) : Prop where
  /-- it is stored -/
  stored : db.docUrlDb.contains doc.id = true
  /-- its record -/
  times : db.docTimeDb.get doc.id = { mTime := doc.mTime, cTime := doc.cTime }

theorem recorded_addDocument (h : BasicIndexingJob.Describes lib fs path mimetype doc) :
    Recorded (w.addDocument fs.toFileSystem doc).dbis doc := by
  obtain ⟨dir, name, -, hurl, hname, hslash, hdir, hid, -⟩ := h.split
  have hadd := addUrl_eq fs.toFileSystem w.dbis.docUrlDb hurl hdir hname hslash hid
  have hstored := (contains_addUrl fs.toFileSystem w.dbis.docUrlDb doc).2
  rw [hadd] at hstored
  rw [WriteTransaction.addDocument]
  dsimp only
  rw [hadd]
  refine ⟨hstored rfl, ?_⟩
  change DocumentTimeDB.get (w.dbis.docTimeDb.put doc.id _) doc.id = _
  rw [DocumentTimeDB.get, OrdMap.get_put, if_pos rfl, Option.getD_some]

theorem recorded_replaceDocument {operations : DocumentOperations} (htime : operations.documentTime = true)
    (hstored : w.dbis.docUrlDb.contains doc.id = true) :
    Recorded (w.replaceDocument doc operations).dbis doc := by
  obtain ⟨docTermsDb, docXattrTermsDb, docFilenameTermsDb, hframe⟩ := w.replaceDocument_frame doc operations
  rw [hframe, WriteTransaction.replaceData]
  constructor
  · dsimp only
    split
    · simp only [DocumentUrlDB.contains, Bool.and_eq_true] at hstored ⊢
      exact ⟨hstored.1, DocumentUrlDB.contains_updateUrl hstored.2⟩
    · exact hstored
  · dsimp only
    rw [if_pos htime, DocumentTimeDB.get, OrdMap.get_put, if_pos rfl, Option.getD_some]

theorem Recorded.upToDate_iff (h : Recorded db doc)
    (hdoc : BasicIndexingJob.Describes lib fs path mimetype doc) :
    UpToDate db (fs.stat (chop path)) doc.id ↔ Fits (fs.stat (chop path)) :=
  upToDate_recorded h.stored (by rw [h.times, hdoc.mTime, hdoc.cTime])

/-- The directory of the path exists, and it is not the root. -/
def HasDirectory (fs : Snapshot) (path : QByteArray) : Prop :=
  fs.lstat (left (chop path) (lastIndexOf slash (chop path))) ≠ none

/-- What `UnindexedFileIndexer` leaves. -/
theorem upToDate_visitUnindexed (h : TimesStored w.dbis) (hid : fs.lstat (chop path) = some id) :
    UpToDate (UnindexedFileIndexer.visit lib onlyBasicIndexing fs w path).dbis (fs.stat (chop path)) id ↔
      UpToDate w.dbis (fs.stat (chop path)) id ∨ HasDirectory fs path ∧ Fits (fs.stat (chop path)) := by
  rw [UnindexedFileIndexer.visit]
  rcases hcheck : (UnIndexedFileIterator.check lib fs w.dbis path).shouldIndex with _ | _
  · have hdate := (check_iff h hid).mp hcheck
    rw [if_neg Bool.false_ne_true]
    exact ⟨Or.inl, fun _ => hdate⟩
  · have hnot : ¬ UpToDate w.dbis (fs.stat (chop path)) id := fun hdate =>
      Bool.false_ne_true (((check_iff h hid).mpr hdate).symm.trans hcheck)
    rw [if_pos rfl, or_iff_right hnot]
    split
    · next hnone =>
      have hdirectory : ¬ HasDirectory fs path := by
        rcases BasicIndexingJob.index_eq_none.mp hnone with hdir | hpath
        · exact not_not.mpr hdir
        · rw [hid] at hpath
          cases hpath
      exact ⟨fun hdate => absurd hdate hnot, fun hdir => absurd hdir.1 hdirectory⟩
    · next doc hdoc =>
      have hdescribes := BasicIndexingJob.index_describes hdoc
      obtain rfl : doc.id = id := Option.some.inj (hdescribes.id.symm.trans hid)
      have hdirectory : HasDirectory fs path := by
        rw [HasDirectory, hdescribes.parentId]
        exact Option.some_ne_none _
      rw [and_iff_right hdirectory]
      split
      · next hstored => exact (recorded_replaceDocument rfl hstored).upToDate_iff hdescribes
      · exact (recorded_addDocument hdescribes).upToDate_iff hdescribes

/-- What `ModifiedFileIndexer` leaves of a path whose name it wants. -/
theorem upToDate_visitModified (hid : fs.lstat (chop path) = some id)
    (hlink : (fs.stat (chop path)).isSymLink = false)
    (haccepts : config.shouldFileBeIndexed (decodedName lib (chop path)) = true) :
    UpToDate (ModifiedFileIndexer.visit lib config onlyBasicIndexing fs w path).dbis
        (fs.stat (chop path)) id ↔
      UpToDate w.dbis (fs.stat (chop path)) id ∨ Fits (fs.stat (chop path)) ∧ (HasDirectory fs path ∨
        ∃ doc, ModifiedFileIndexer.decide lib config onlyBasicIndexing fs w.dbis (chop path) = .defer doc) := by
  rw [ModifiedFileIndexer.visit]
  rcases decide_cases hid hlink haccepts with ⟨hdate, hskip⟩ | ⟨hnot, ⟨hstored, hdefer⟩ | ⟨mimetype, hindex⟩⟩
  · rw [hskip]
    exact ⟨Or.inl, fun _ => hdate⟩
  · rw [hdefer, or_iff_right hnot, and_iff_left (Or.inr ⟨_, rfl⟩)]
    have hrecorded := @recorded_replaceDocument w
      { id := id, mTime := toQuint32 (fs.stat (chop path)).mTime
        cTime := toQuint32 (fs.stat (chop path)).cTime, contentIndexing := true }
      { documentTime := true } rfl hstored
    exact upToDate_recorded hrecorded.stored hrecorded.times
  · rw [hindex, or_iff_right hnot]
    dsimp only
    rw [BasicIndexingJob.index_chop (chop_of_isPath (fs.isPath _ _ hid))]
    split
    · next hnone =>
      have hdirectory : ¬ HasDirectory fs path := by
        rcases BasicIndexingJob.index_eq_none.mp hnone with hdir | hpath
        · exact not_not.mpr hdir
        · rw [hid] at hpath
          cases hpath
      refine ⟨fun hdate => absurd hdate hnot, fun hfits => ?_⟩
      rcases hfits.2 with hdir | ⟨doc, hdoc⟩
      · exact absurd hdir hdirectory
      · cases hdoc
    · next doc hdoc =>
      have hdescribes := BasicIndexingJob.index_describes hdoc
      obtain rfl : doc.id = id := Option.some.inj (hdescribes.id.symm.trans hid)
      have hdirectory : HasDirectory fs path := by
        rw [HasDirectory, hdescribes.parentId]
        exact Option.some_ne_none _
      rw [and_iff_left (Or.inl hdirectory)]
      split
      · next hstored =>
        rw [Bool.and_eq_true] at hstored
        exact (recorded_replaceDocument rfl hstored.1).upToDate_iff hdescribes
      · exact (recorded_addDocument hdescribes).upToDate_iff hdescribes

theorem TimesStored.visitUnindexed (h : TimesStored w.dbis) :
    TimesStored (UnindexedFileIndexer.visit lib onlyBasicIndexing fs w path).dbis := by
  rw [UnindexedFileIndexer.visit]
  split
  · split
    · exact h
    · split
      · next hstored => exact h.replaceDocument hstored
      · exact h.addDocument fs.toFileSystem _
  · exact h

theorem TimesStored.visitModified (h : TimesStored w.dbis) (hid : fs.lstat (chop path) = some id)
    (hlink : (fs.stat (chop path)).isSymLink = false)
    (haccepts : config.shouldFileBeIndexed (decodedName lib (chop path)) = true) :
    TimesStored (ModifiedFileIndexer.visit lib config onlyBasicIndexing fs w path).dbis := by
  rw [ModifiedFileIndexer.visit]
  rcases decide_cases hid hlink haccepts with ⟨-, hskip⟩ | ⟨-, ⟨hstored, hdefer⟩ | ⟨mimetype, hindex⟩⟩
  · rw [hskip]
    exact h
  · rw [hdefer]
    exact h.replaceDocument hstored
  · rw [hindex]
    dsimp only
    split
    · exact h
    · next doc hdoc =>
      split
      · next hknown =>
        rw [Bool.and_eq_true, decide_eq_true_iff] at hknown
        exact h.replaceDocument (hknown.2 ▸ hknown.1)
      · exact h.addDocument fs.toFileSystem _

/-! ## Later steps -/

/-- A step that does not touch the document `i`. -/
inductive OtherStep (i : DocId) : WriteTransaction → WriteTransaction → Prop
  /-- another document is added -/
  | addDocument {w : WriteTransaction} (fs : FileSystem) (doc : Document) :
    doc.id ≠ i → OtherStep i w (w.addDocument fs doc)
  /-- another document is replaced -/
  | replaceDocument {w : WriteTransaction} (doc : Document) (operations : DocumentOperations) :
    w.dbis.docUrlDb.contains doc.id = true → doc.id ≠ i →
    OtherStep i w (w.replaceDocument doc operations)
  /-- another document is removed -/
  | removeDocument {w : WriteTransaction} (id : DocId) : id ≠ i → OtherStep i w (w.removeDocument id)
  /-- the transaction is committed and the next one begins -/
  | commit {w : WriteTransaction} (order : List Term) : OtherStep i w { dbis := w.commit order }

theorem OtherStep.timesStored {w' : WriteTransaction} (hstep : OtherStep id w w') (h : TimesStored w.dbis) :
    TimesStored w'.dbis := by
  cases hstep with
  | addDocument fs doc _ => exact h.addDocument fs doc
  | replaceDocument doc operations hstored _ => exact h.replaceDocument hstored
  | removeDocument id _ => exact TimesStored.removeDocument w id h
  | commit order =>
    rw [TimesStored, docUrlDb_commit, docTimeDb_commit]
    exact h

/-- A document that is not touched stays up to date. -/
theorem OtherStep.upToDate {w' : WriteTransaction} {stat : Stat} (hstep : OtherStep id w w')
    (h : UpToDate w.dbis stat id) : UpToDate w'.dbis stat id := by
  -- it stays stored with its record
  suffices hkept : w'.dbis.docUrlDb.contains id = true ∧ w'.dbis.docTimeDb.get id = w.dbis.docTimeDb.get id by
    refine ⟨hkept.1, ?_, fun hdir => ?_⟩
    · rw [hkept.2]
      exact h.cTime
    · rw [hkept.2]
      exact h.mTime hdir
  cases hstep with
  | addDocument fs doc hne =>
    have hcontains := (contains_addUrl fs w.dbis.docUrlDb doc).1 id h.stored
    rw [WriteTransaction.addDocument]
    dsimp only
    split
    · refine ⟨hcontains, ?_⟩
      change DocumentTimeDB.get (w.dbis.docTimeDb.put doc.id _) id = _
      rw [DocumentTimeDB.get, OrdMap.get_put, if_neg hne.symm, DocumentTimeDB.get]
    · exact ⟨hcontains, rfl⟩
  | replaceDocument doc operations _ hne =>
    obtain ⟨docTermsDb, docXattrTermsDb, docFilenameTermsDb, hframe⟩ :=
      w.replaceDocument_frame doc operations
    rw [hframe, WriteTransaction.replaceData]
    constructor
    · dsimp only
      split
      · have hstored := h.stored
        simp only [DocumentUrlDB.contains, Bool.and_eq_true] at hstored ⊢
        exact ⟨hstored.1, DocumentUrlDB.contains_updateUrl hstored.2⟩
      · exact h.stored
    · dsimp only
      split
      · rw [DocumentTimeDB.get, OrdMap.get_put, if_neg hne.symm, DocumentTimeDB.get]
      · rfl
  | removeDocument id' hne =>
    constructor
    · change (w.dbis.docUrlDb.del id').contains id = true
      rw [DocumentUrlDB.del]
      split
      · exact h.stored
      · simpa [DocumentUrlDB.contains, hne.symm] using h.stored
    · change DocumentTimeDB.get (w.dbis.docTimeDb.del id') id = _
      rw [DocumentTimeDB.get, OrdMap.get_del, if_neg hne.symm, DocumentTimeDB.get]
  | commit order =>
    rw [docUrlDb_commit, docTimeDb_commit]
    exact ⟨h.stored, rfl⟩

/-- Whatever is done to other documents, the path stays settled. -/
theorem Settled.stays {w' : WriteTransaction} (hrun : Relation.ReflTransGen (OtherStep id) w w')
    (h : TimesStored w.dbis) (hid : fs.lstat (chop path) = some id)
    (hlink : (fs.stat (chop path)).isSymLink = false)
    (hsettled : Settled lib config onlyBasicIndexing fs w.dbis path) :
    Settled lib config onlyBasicIndexing fs w'.dbis path := by
  have hkept : TimesStored w'.dbis ∧ UpToDate w'.dbis (fs.stat (chop path)) id := by
    induction hrun with
    | refl => exact ⟨h, (settled_iff h hid hlink).mp hsettled⟩
    | tail _ hstep ih => exact ⟨hstep.timesStored ih.1, hstep.upToDate ih.2⟩
  exact (settled_iff hkept.1 hid hlink).mpr hkept.2

/-- **When the index settles.** After a path has been processed by one of the two jobs, and as long as it
is not touched again, neither check selects it, exactly if it was up to date before, or else its times
fit into 32 bits and it has been indexed: its directory exists, or `ModifiedFileIndexer` has only written
its times. -/
theorem index_settles_iff {admits : Database → Document → DocumentOperations → Prop}
    (hrun : Relation.ReflTransGen (TimeStep admits) {} w) (hid : fs.lstat (chop path) = some id)
    (hlink : (fs.stat (chop path)).isSymLink = false) :
    ((∀ w', Relation.ReflTransGen (OtherStep id)
        (UnindexedFileIndexer.visit lib onlyBasicIndexing fs w path) w' →
        Settled lib config onlyBasicIndexing fs w'.dbis path) ↔
      Settled lib config onlyBasicIndexing fs w.dbis path ∨
        HasDirectory fs path ∧ Fits (fs.stat (chop path))) ∧
    (config.shouldFileBeIndexed (decodedName lib (chop path)) = true →
      ((∀ w', Relation.ReflTransGen (OtherStep id)
        (ModifiedFileIndexer.visit lib config onlyBasicIndexing fs w path) w' →
        Settled lib config onlyBasicIndexing fs w'.dbis path) ↔
      Settled lib config onlyBasicIndexing fs w.dbis path ∨ Fits (fs.stat (chop path)) ∧
        (HasDirectory fs path ∨ ∃ doc,
          ModifiedFileIndexer.decide lib config onlyBasicIndexing fs w.dbis (chop path) = .defer doc))) := by
  have htimes : TimesStored w.dbis := TimesStored.run hrun
  have hlater : ∀ {v : WriteTransaction}, TimesStored v.dbis →
      ((∀ w', Relation.ReflTransGen (OtherStep id) v w' →
          Settled lib config onlyBasicIndexing fs w'.dbis path) ↔
        UpToDate v.dbis (fs.stat (chop path)) id) := fun {v} hv =>
    ⟨fun h => (settled_iff hv hid hlink).mp (h v .refl),
      fun hdate w' hrun' => Settled.stays hrun' hv hid hlink ((settled_iff hv hid hlink).mpr hdate)⟩
  rw [settled_iff htimes hid hlink]
  refine ⟨?_, fun haccepts => ?_⟩
  · rw [hlater htimes.visitUnindexed, upToDate_visitUnindexed htimes hid]
  · rw [hlater (htimes.visitModified hid hlink haccepts), upToDate_visitModified hid hlink haccepts]

end

/-- The directory `/p` with the file `/p/d`. -/
def pAndD : Snapshot :=
  .ofEntries [{ components := [[112]], id := 5 }, { components := [[112], [100]], id := 7 }] (by decide)

/-- The file has been modified at the given time. -/
def fileModifiedAt (mTime : ℤ) : Snapshot where
  toFileSystem := pAndD.toFileSystem
  stat path :=
    if path = [47, 112] then { isDir := true, mTime := 4, cTime := 4 }
    else { size := 1, mTime := mTime, cTime := 4 }

/-- A configuration without folders and filters. -/
def noFolders : FileIndexerConfig :=
  .load id { folders := [], excludedFolders := [], indexHiddenFolders := false } [] fun _ => false

theorem index_settles_iff_fileModifiedAt : Settled asciiLibraries noFolders false (fileModifiedAt 9)
    (UnindexedFileIndexer.visit asciiLibraries false (fileModifiedAt 9) {} [47, 112, 47, 100]).dbis
    [47, 112, 47, 100] := by
  have hfits : Fits ((fileModifiedAt 9).stat (chop [47, 112, 47, 100])) :=
    ⟨⟨by decide, by decide⟩, fun _ => ⟨by decide, by decide⟩⟩
  have hdirectory : HasDirectory (fileModifiedAt 9) [47, 112, 47, 100] := by
    intro hnone
    exact absurd hnone (by decide)
  exact (@index_settles_iff asciiLibraries noFolders false (fileModifiedAt 9) [47, 112, 47, 100] 7 {}
    (fun _ _ _ => True) .refl (by decide) (by decide)).1.mpr (Or.inr ⟨hdirectory, hfits⟩) _ .refl

/-- A file modified in 2106 or later is selected again by the check after it has been indexed. -/
theorem late_file_checked_again : ¬ ∀ (fs : Snapshot) (path : QByteArray),
    fs.lstat (chop path) ≠ none → (fs.stat (chop path)).isSymLink = false →
    Settled asciiLibraries noFolders false fs
      (UnindexedFileIndexer.visit asciiLibraries false fs {} path).dbis path := by
  intro h
  have hsettled := h (fileModifiedAt 4294967296) [47, 112, 47, 100] (by decide) (by decide)
  exact absurd hsettled.1 (by decide)

end Baloo
