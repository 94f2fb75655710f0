import Baloo.PostingEnumeration
import Baloo.Transactions
import Baloo.UrlForest

/-!
# The index of modification times

`DocumentTimeDB` holds the times of a document, `MTimeDB` holds the documents of a modification time;
a date search reads the second table. The writing functions keep the pairs of `MTimeDB` in step with
the records: they drop the pair of the time before and add the pair of the new one. The time before is
read with the default `0` for a document without a record, and if it is the new one nothing is done.
So a document that gets its first record by `replaceDocument`, as an entry does that has been stored as
a directory above another document only, gets no pair if its time is `0` (`epoch_pair_missing`). As long
as no record starts that way, the two tables agree (`mtime_index`).
-/

namespace Baloo

open PostingIterator (Answers)
open SortedSeq (Ascending)

/-! ## Reading a range of times -/

/-- `MTimeDB::iterRange`. The cursor stands at the first time that is not below `beginTime`; the
documents of a time follow one another. -/
def MTimeDB.iterRange (t : MTimeDB) (beginTime endTime : ℕ) : Option PostingIterator :=
  if endTime < beginTime then none
  else
    let results := ((t.toList.dropWhile fun entry => decide (entry.1 < beginTime)).takeWhile
      fun entry => decide (entry.1 ≤ endTime)).flatMap Prod.snd
    if results = [] then none else some (.vector (SortedSeq.sortUnique results) (-1))

namespace MTimeDB

variable {t : MTimeDB} {m m' : ℕ} {i j : DocId}

/-- The documents of a time are kept in order. -/
def Sorted (t : MTimeDB) : Prop := ∀ m, Ascending id (OrdMap.values t m)

theorem values_put (hi : i ≠ 0) (m m' : ℕ) : OrdMap.values (t.put m i) m' =
    if m' = m then sortedIdInsert (OrdMap.values t m) i else OrdMap.values t m' := by
  rw [put, if_neg hi, OrdMap.values, OrdMap.get_put]
  split <;> rfl

theorem values_del (m m' : ℕ) : OrdMap.values (t.del m i) m' =
    if m' = m then sortedIdRemove (OrdMap.values t m) i else OrdMap.values t m' := by
  rw [del]
  by_cases hempty : sortedIdRemove (OrdMap.values t m) i = []
  · rw [if_pos hempty, OrdMap.values, OrdMap.get_del]
    split
    · exact hempty.symm
    · rfl
  · rw [if_neg hempty, OrdMap.values, OrdMap.get_put]
    split <;> rfl

theorem Sorted.put (h : t.Sorted) (m : ℕ) (i : DocId) : (t.put m i).Sorted := by
  intro m'
  by_cases hi : i = 0
  · rw [MTimeDB.put, if_pos hi]
    exact h m'
  · rw [values_put hi]
    split
    · exact SortedSeq.ascending_insert (h m)
    · exact h m'

theorem Sorted.del (h : t.Sorted) (m : ℕ) (i : DocId) : (t.del m i).Sorted := by
  intro m'
  rw [values_del]
  split
  · exact SortedSeq.ascending_erase (h m)
  · exact h m'

theorem mem_put (h : t.Sorted) (hi : i ≠ 0) :
    j ∈ OrdMap.values (t.put m i) m' ↔ (m' = m ∧ j = i) ∨ j ∈ OrdMap.values t m' := by
  rw [values_put hi]
  split
  · next heq =>
    subst heq
    rw [sortedIdInsert, SortedSeq.mem_insert (h m')]
    simp
  · next hne => simp [hne]

theorem mem_del (h : t.Sorted) :
    j ∈ OrdMap.values (t.del m i) m' ↔ ¬ (m' = m ∧ j = i) ∧ j ∈ OrdMap.values t m' := by
  rw [values_del]
  split
  · next heq =>
    subst heq
    rw [sortedIdRemove, SortedSeq.mem_erase (h m')]
    simp
  · next hne => simp [hne]

/-- A table of LMDB: the documents of a time are in order, and a time without documents is no key. -/
structure InOrder (t : MTimeDB) : Prop where
  sorted : t.Sorted
  nonempty : ∀ m, OrdMap.get t m ≠ some []

theorem InOrder.del (h : t.InOrder) (m : ℕ) (i : DocId) : (t.del m i).InOrder := by
  refine ⟨h.sorted.del m i, fun m' hm' => ?_⟩
  rw [MTimeDB.del] at hm'
  split at hm'
  · rw [OrdMap.get_del] at hm'
    split at hm'
    · cases hm'
    · exact h.nonempty m' hm'
  · next hne =>
    rw [OrdMap.get_put] at hm'
    split at hm'
    · exact hne (Option.some.inj hm')
    · exact h.nonempty m' hm'

theorem InOrder.put (h : t.InOrder) (m : ℕ) (i : DocId) : (t.put m i).InOrder := by
  refine ⟨h.sorted.put m i, fun m' hm' => ?_⟩
  rw [MTimeDB.put] at hm'
  split at hm'
  · exact h.nonempty m' hm'
  · rw [OrdMap.get_put] at hm'
    split at hm'
    · exact SortedSeq.insert_ne_nil i _ (Option.some.inj hm')
    · exact h.nonempty m' hm'

theorem InOrder.ext {t t' : MTimeDB} (h : t.InOrder) (h' : t'.InOrder)
    (hvalues : ∀ m, OrdMap.values t m = OrdMap.values t' m) : t = t' :=
  OrdMap.ext fun m => get_eq_of_values (h.nonempty m) (h'.nonempty m) (hvalues m)

/-- Dropping a pair that is not there changes nothing. -/
theorem InOrder.del_eq_self (h : t.InOrder) (hnot : i ∉ OrdMap.values t m) : t.del m i = t := by
  apply (h.del m i).ext h
  intro m'
  rw [values_del]
  split
  · next hm =>
    rw [hm]
    apply List.eraseP_of_forall_not
    intro j hj
    have hne : j ≠ i := fun heq => hnot (heq ▸ hj)
    simpa using hne
  · rfl

/-- Dropping a pair undoes adding it. -/
theorem InOrder.del_put (h : t.InOrder) (hi : i ≠ 0) (hnot : i ∉ OrdMap.values t m) : (t.put m i).del m i = t := by
  apply ((h.put m i).del m i).ext h
  intro m'
  rw [values_del, values_put hi, values_put hi, if_pos rfl]
  split
  · next hm =>
    rw [hm]
    exact SortedSeq.erase_insert (h.sorted m) hnot
  · rfl

/-- And adding it undoes dropping it. -/
theorem InOrder.put_del (h : t.InOrder) (hi : i ≠ 0) (hmem : i ∈ OrdMap.values t m) : (t.del m i).put m i = t := by
  apply ((h.del m i).put m i).ext h
  intro m'
  rw [values_put hi, values_del, values_del, if_pos rfl]
  split
  · next hm =>
    rw [hm]
    exact SortedSeq.insert_erase (h.sorted m) hmem
  · rfl

/-- What `iterRange` collects. -/
theorem mem_range (t : MTimeDB) (a b : ℕ) (i : DocId) :
    i ∈ ((t.toList.dropWhile fun entry => decide (entry.1 < a)).takeWhile
        fun entry => decide (entry.1 ≤ b)).flatMap Prod.snd ↔
      ∃ m, a ≤ m ∧ m ≤ b ∧ i ∈ OrdMap.values t m := by
  have hascending : Ascending Prod.fst t.toList := by
    have hkeys := t.keys_ascending
    rw [← OrdMap.map_fst_toList, List.pairwise_map] at hkeys
    exact hkeys.imp fun hlt => Nat.compare_eq_lt.mp hlt
  simp only [List.mem_flatMap, SortedSeq.mem_takeWhile (hascending.dropWhile _),
    SortedSeq.mem_dropWhile hascending]
  constructor
  · rintro ⟨⟨m, list⟩, ⟨⟨hmem, ha⟩, hb⟩, hi⟩
    refine ⟨m, ha, hb, ?_⟩
    rw [OrdMap.values, OrdMap.mem_toList.mp hmem]
    exact hi
  · rintro ⟨m, ha, hb, hi⟩
    rcases hget : OrdMap.get t m with _ | list
    · rw [OrdMap.values, hget] at hi
      exact absurd hi List.not_mem_nil
    · rw [OrdMap.values, hget] at hi
      exact ⟨(m, list), ⟨⟨OrdMap.mem_toList.mpr hget, ha⟩, hb⟩, hi⟩

/-- **`iterRange` answers the documents with a time in the range**; it is a null pointer if there are
none. -/
theorem iterRange_answers (a b : ℕ) (hzero : ∀ m, 0 ∉ OrdMap.values t m) :
    (t.iterRange a b = none ↔ ∀ i m, a ≤ m → m ≤ b → i ∉ OrdMap.values t m) ∧
    Answers (t.iterRange a b) {i | ∃ m, a ≤ m ∧ m ≤ b ∧ i ∈ OrdMap.values t m} := by
  have hempty : (∀ i m, a ≤ m → m ≤ b → i ∉ OrdMap.values t m) →
      Answers none {i | ∃ m, a ≤ m ∧ m ≤ b ∧ i ∈ OrdMap.values t m} := fun hnone =>
    Set.eq_empty_of_forall_notMem fun i ⟨m, ha, hb, hi⟩ => hnone i m ha hb hi
  rw [iterRange]
  split
  · next hba =>
    have hnone : ∀ i m, a ≤ m → m ≤ b → i ∉ OrdMap.values t m := fun i m ha hb _ =>
      absurd (ha.trans hb) (not_le.mpr hba)
    exact ⟨⟨fun _ => hnone, fun _ => rfl⟩, hempty hnone⟩
  · dsimp only
    split
    · next hnil =>
      have hnone : ∀ i m, a ≤ m → m ≤ b → i ∉ OrdMap.values t m := fun i m ha hb hi => by
        have hmem := (mem_range t a b i).mpr ⟨m, ha, hb, hi⟩
        rw [hnil] at hmem
        exact absurd hmem List.not_mem_nil
      exact ⟨⟨fun _ => hnone, fun _ => rfl⟩, hempty hnone⟩
    · next hne =>
      obtain ⟨i, hi⟩ := List.exists_mem_of_ne_nil _ hne
      obtain ⟨m, ha, hb, him⟩ := (mem_range t a b i).mp hi
      refine ⟨⟨fun h => (by cases h), fun hnone => absurd him (hnone i m ha hb)⟩, ?_⟩
      have hids : {i | ∃ m, a ≤ m ∧ m ≤ b ∧ i ∈ OrdMap.values t m} = {i | i ∈ SortedSeq.sortUnique _} :=
        Set.ext fun i => ((SortedSeq.mem_sortUnique).trans (mem_range t a b i)).symm
      rw [hids]
      refine PostingIterator.answers_vector (SortedSeq.ascending_sortUnique _) fun hmem => ?_
      obtain ⟨m, -, -, h0⟩ := (mem_range t a b 0).mp (SortedSeq.mem_sortUnique.mp hmem)
      exact hzero m h0

end MTimeDB

/-! ## The two tables -/

/-- The two tables of times agree: the pairs of `MTimeDB` are those of the records. -/
structure TimesAgree (docTimeDb : DocumentTimeDB) (mtimeDb : MTimeDB) : Prop where
  /-- a document is listed under the time of its record -/
  pair : ∀ m i, i ∈ OrdMap.values mtimeDb m ↔
    ∃ info, OrdMap.get docTimeDb i = some info ∧ info.mTime = m
  /-- the lists are ascending -/
  sorted : mtimeDb.Sorted
  /-- `0` has no record -/
  zero : OrdMap.get docTimeDb 0 = none

section

variable {docTimeDb : DocumentTimeDB} {mtimeDb mtimeDb' : MTimeDB} {i : DocId}

/-- The documents listed in a range of times are those with a record in it. -/
theorem TimesAgree.range (h : TimesAgree docTimeDb mtimeDb) (a b : ℕ) :
    {i | ∃ m, a ≤ m ∧ m ≤ b ∧ i ∈ OrdMap.values mtimeDb m} =
      {i | ∃ info, OrdMap.get docTimeDb i = some info ∧ a ≤ info.mTime ∧ info.mTime ≤ b} := by
  ext i
  constructor
  · rintro ⟨m, ha, hb, hi⟩
    obtain ⟨info, hinfo, rfl⟩ := (h.pair m i).mp hi
    exact ⟨info, hinfo, ha, hb⟩
  · rintro ⟨info, hinfo, ha, hb⟩
    exact ⟨info.mTime, ha, hb, (h.pair _ i).mpr ⟨info, hinfo, rfl⟩⟩

theorem TimesAgree.empty : TimesAgree ∅ ∅ :=
  ⟨fun m i => by simp [OrdMap.values], fun _ => SortedSeq.ascending_nil, OrdMap.get_empty 0⟩

theorem TimesAgree.zero_notMem (h : TimesAgree docTimeDb mtimeDb) (m : ℕ) :
    0 ∉ OrdMap.values mtimeDb m := by
  intro hmem
  obtain ⟨info, hinfo, -⟩ := (h.pair m 0).mp hmem
  rw [h.zero] at hinfo
  cases hinfo

/-- A document that is listed is listed under the time that is read for it. -/
theorem TimesAgree.eq_mTime (h : TimesAgree docTimeDb mtimeDb) {m : ℕ}
    (hi : i ∈ OrdMap.values mtimeDb m) : m = (docTimeDb.get i).mTime := by
  obtain ⟨info, hinfo, rfl⟩ := (h.pair m i).mp hi
  rw [DocumentTimeDB.get, hinfo, Option.getD_some]

/-- A document gets a record, and its pair takes the place of its pairs before. -/
theorem TimesAgree.record (h : TimesAgree docTimeDb mtimeDb) (hi : i ≠ 0) (info : TimeInfo)
    (hsorted : mtimeDb'.Sorted) (hpairs : ∀ m j, j ∈ OrdMap.values mtimeDb' m ↔
      (m = info.mTime ∧ j = i) ∨ (j ≠ i ∧ j ∈ OrdMap.values mtimeDb m)) :
    TimesAgree (docTimeDb.put i info) mtimeDb' := by
  refine ⟨fun m j => ?_, hsorted, ?_⟩
  · rw [hpairs, h.pair, OrdMap.get_put]
    by_cases hj : j = i
    · simp [hj, eq_comm]
    · simp [hj]
  · rw [OrdMap.get_put, if_neg hi.symm]
    exact h.zero

/-- `put` for a document without a record. -/
theorem TimesAgree.put (h : TimesAgree docTimeDb mtimeDb) (hi : i ≠ 0)
    (hfresh : docTimeDb.contains i = false) (info : TimeInfo) :
    TimesAgree (docTimeDb.put i info) (mtimeDb.put info.mTime i) := by
  refine h.record hi info (h.sorted.put _ _) fun m j => ?_
  rw [MTimeDB.mem_put h.sorted hi]
  refine or_congr_right (iff_and_self.mpr fun hj => ?_)
  rintro rfl
  obtain ⟨_, hget, -⟩ := (h.pair m j).mp hj
  rw [OrdMap.contains, hget] at hfresh
  cases hfresh

/-- `del` and `put`, when the time has changed. -/
theorem TimesAgree.change (h : TimesAgree docTimeDb mtimeDb) (hi : i ≠ 0) (info : TimeInfo) :
    TimesAgree (docTimeDb.put i info)
      ((mtimeDb.del (docTimeDb.get i).mTime i).put info.mTime i) := by
  refine h.record hi info ((h.sorted.del _ _).put _ _) fun m j => ?_
  rw [MTimeDB.mem_put (h.sorted.del _ _) hi, MTimeDB.mem_del h.sorted]
  refine or_congr_right (and_congr_left fun hj => ⟨?_, ?_⟩)
  · rintro hnot rfl
    exact hnot ⟨h.eq_mTime hj, rfl⟩
  · rintro hne ⟨-, rfl⟩
    exact hne rfl

/-- Nothing is done to the pairs when the time is the one of the record. -/
theorem TimesAgree.same (h : TimesAgree docTimeDb mtimeDb) (hi : i ≠ 0)
    (hrecord : docTimeDb.contains i = true) {info : TimeInfo}
    (heq : (docTimeDb.get i).mTime = info.mTime) : TimesAgree (docTimeDb.put i info) mtimeDb := by
  refine h.record hi info h.sorted fun m j => ⟨fun hj => ?_, ?_⟩
  · by_cases hji : j = i
    · subst hji
      exact Or.inl ⟨(h.eq_mTime hj).trans heq, rfl⟩
    · exact Or.inr ⟨hji, hj⟩
  · rintro (⟨rfl, rfl⟩ | ⟨-, hj⟩)
    · obtain ⟨info', hinfo'⟩ := OrdMap.contains_iff.mp hrecord
      refine (h.pair _ _).mpr ⟨info', hinfo', ?_⟩
      rw [← heq, DocumentTimeDB.get, hinfo', Option.getD_some]
    · exact hj

/-- Both are dropped. -/
theorem TimesAgree.del (h : TimesAgree docTimeDb mtimeDb) (i : DocId) :
    TimesAgree (docTimeDb.del i) (mtimeDb.del (docTimeDb.get i).mTime i) := by
  refine ⟨fun m j => ?_, h.sorted.del _ _, ?_⟩
  · rw [MTimeDB.mem_del h.sorted, OrdMap.get_del]
    by_cases hj : j = i
    · subst hj
      simp only [if_true, reduceCtorEq, false_and, exists_false, iff_false, and_true]
      rintro ⟨hnot, hmem⟩
      exact hnot (h.eq_mTime hmem)
    · simp [hj, h.pair]
  · rw [OrdMap.get_del, h.zero, ite_self]

end

/-! ## Runs -/

/-- One writing operation, as far as the times are concerned. `admits` is a condition on the
documents that `replaceDocument` gets. -/
inductive TimeStep (admits : Database → Document → DocumentOperations → Prop) :
    WriteTransaction → WriteTransaction → Prop
  /-- a document without a record is added -/
  | addDocument {w : WriteTransaction} (fs : FileSystem) (doc : Document) :
    w.dbis.docTimeDb.contains doc.id = false → TimeStep admits w (w.addDocument fs doc)
  /-- an entry of the URL table is replaced -/
  | replaceDocument {w : WriteTransaction} (doc : Document) (operations : DocumentOperations) :
    w.dbis.docUrlDb.contains doc.id = true → admits w.dbis doc operations →
    TimeStep admits w (w.replaceDocument doc operations)
  /-- a document is removed -/
  | removeDocument {w : WriteTransaction} (id : DocId) : TimeStep admits w (w.removeDocument id)
  /-- a directory is removed -/
  | removeRecursively {w w' : WriteTransaction} (fuel : ℕ) (id : DocId) :
    w.removeRecursively fuel id = some w' → TimeStep admits w w'
  /-- a directory is removed as far as a predicate says -/
  | removeRecursivelyIf {w w' : WriteTransaction} (shouldDelete : QByteArray → Bool) (fuel : ℕ)
    (id : DocId) (gone : Bool) :
    w.removeRecursivelyIf shouldDelete fuel id = some (w', gone) → TimeStep admits w w'
  /-- the transaction is committed and the next one begins -/
  | commit {w : WriteTransaction} (order : List Term) : TimeStep admits w { dbis := w.commit order }

/-- The first record of a document does not come with the time `0` from `replaceDocument`. -/
def NotFirstAtEpoch (db : Database) (doc : Document) (operations : DocumentOperations) : Prop :=
  operations.documentTime = true → db.docTimeDb.contains doc.id = false → doc.mTime ≠ 0

/-- The tables of times of a transaction agree. -/
abbrev AgreeOnTimes (w : WriteTransaction) : Prop := TimesAgree w.dbis.docTimeDb w.dbis.mtimeDb

section

variable {w w' : WriteTransaction} {doc : Document} {operations : DocumentOperations}

theorem AgreeOnTimes.addDocument (h : AgreeOnTimes w) (fs : FileSystem)
    (hfresh : w.dbis.docTimeDb.contains doc.id = false) : AgreeOnTimes (w.addDocument fs doc) := by
  rw [WriteTransaction.addDocument]
  dsimp only
  split
  · next hurl =>
    have hid : doc.id ≠ 0 := by
      rintro hzero
      simp [WriteTransaction.addUrl, DocumentUrlDB.put, DocumentUrlDB.canPut, hzero] at hurl
    exact TimesAgree.put h hid hfresh { mTime := doc.mTime, cTime := doc.cTime }
  · exact h

theorem AgreeOnTimes.replaceDocument (h : AgreeOnTimes w) (hid : w.dbis.docUrlDb.contains doc.id = true)
    (hadmits : NotFirstAtEpoch w.dbis doc operations) :
    AgreeOnTimes (w.replaceDocument doc operations) := by
  have hne : doc.id ≠ 0 := by
    rintro hzero
    simp [DocumentUrlDB.contains, hzero] at hid
  obtain ⟨docTermsDb, docXattrTermsDb, docFilenameTermsDb, hframe⟩ := w.replaceDocument_frame doc operations
  rw [AgreeOnTimes, hframe]
  dsimp only [WriteTransaction.replaceData]
  rcases htime : operations.documentTime with _ | _
  · simpa using h
  · by_cases hsame : (w.dbis.docTimeDb.get doc.id).mTime = doc.mTime
    · have hrecord : w.dbis.docTimeDb.contains doc.id = true := by
        by_contra hnone
        refine hadmits htime (Bool.eq_false_iff.mpr hnone) ?_
        rw [← hsame, DocumentTimeDB.get, Option.not_isSome_iff_eq_none.mp hnone, Option.getD_none]
      simpa [hsame] using @TimesAgree.same _ _ _ h hne hrecord ⟨doc.mTime, doc.cTime⟩ hsame
    · simpa [hsame] using TimesAgree.change h hne ⟨doc.mTime, doc.cTime⟩

theorem AgreeOnTimes.removeDocument (w : WriteTransaction) (id : DocId) (h : AgreeOnTimes w) :
    AgreeOnTimes (w.removeDocument id) := TimesAgree.del h id

/-- **Every operation keeps the tables of times in agreement**, if no first record comes with the
time `0` from `replaceDocument`. -/
theorem AgreeOnTimes.step (h : AgreeOnTimes w) (hstep : TimeStep NotFirstAtEpoch w w') :
    AgreeOnTimes w' := by
  cases hstep with
  | addDocument fs doc hfresh => exact h.addDocument fs hfresh
  | replaceDocument doc operations hid hadmits => exact h.replaceDocument hid hadmits
  | removeDocument id => exact removeDocument w id h
  | removeRecursively fuel id hw => exact removeRecursively_preserves removeDocument h hw
  | removeRecursivelyIf shouldDelete fuel id gone hw =>
    exact removeRecursivelyIf_preserves removeDocument h hw
  | commit order =>
    rw [AgreeOnTimes, docTimeDb_commit, mtimeDb_commit]
    exact h

theorem AgreeOnTimes.run (h : AgreeOnTimes w)
    (hrun : Relation.ReflTransGen (TimeStep NotFirstAtEpoch) w w') : AgreeOnTimes w' := by
  induction hrun with
  | refl => exact h
  | tail _ hstep ih => exact ih.step hstep

theorem AgreeOnTimes.empty : AgreeOnTimes {} := TimesAgree.empty

end

/-- **The index of modification times is exact.** After every operation a document is listed under a
time exactly if its record has this time, and a range of times is answered by the documents with a
recorded time in it. -/
theorem mtime_index {w : WriteTransaction} (h : Relation.ReflTransGen (TimeStep NotFirstAtEpoch) {} w) :
    (∀ m i, i ∈ OrdMap.values w.dbis.mtimeDb m ↔
      ∃ info, OrdMap.get w.dbis.docTimeDb i = some info ∧ info.mTime = m) ∧
    ∀ a b, (w.dbis.mtimeDb.iterRange a b = none ↔
        ∀ i info, OrdMap.get w.dbis.docTimeDb i = some info → ¬ (a ≤ info.mTime ∧ info.mTime ≤ b)) ∧
      Answers (w.dbis.mtimeDb.iterRange a b)
        {i | ∃ info, OrdMap.get w.dbis.docTimeDb i = some info ∧ a ≤ info.mTime ∧ info.mTime ≤ b} := by
  have hagree : AgreeOnTimes w := AgreeOnTimes.empty.run h
  refine ⟨hagree.pair, fun a b => ?_⟩
  obtain ⟨hnone, hanswers⟩ := MTimeDB.iterRange_answers a b hagree.zero_notMem
  refine ⟨hnone.trans ⟨fun hno i info hinfo hab => ?_, fun hno i m ha hb hi => ?_⟩, ?_⟩
  · exact hno i info.mTime hab.1 hab.2 ((hagree.pair _ i).mpr ⟨info, hinfo, rfl⟩)
  · obtain ⟨info, hinfo, rfl⟩ := (hagree.pair m i).mp hi
    exact hno i info hinfo ⟨ha, hb⟩
  · exact hagree.range a b ▸ hanswers

/-- The directory `/p` gets its first record, with the given time, after the file in it has been
added. -/
def recordingP (mTime : ℕ) : WriteTransaction :=
  (({} : WriteTransaction).addDocument onlyP (fileD 7)).replaceDocument
    { id := 5, url := [slash, 112], mTime := mTime, cTime := 3 } { documentTime := true }

theorem recordingP_run {admits : Database → Document → DocumentOperations → Prop} (mTime : ℕ)
    (hadmits : ∀ db doc operations, doc.mTime = mTime → admits db doc operations) :
    Relation.ReflTransGen (TimeStep admits) {} (recordingP mTime) := by
  have hstored : (({} : WriteTransaction).addDocument onlyP (fileD 7)).dbis.docUrlDb.contains 5 = true := by
    decide
  refine .tail (.single (.addDocument onlyP (fileD 7) (by decide))) (.replaceDocument _ _ hstored ?_)
  exact hadmits _ _ _ rfl

theorem mtime_index_recordingP : 5 ∈ OrdMap.values (recordingP 9).dbis.mtimeDb 9 := by
  have hrun : Relation.ReflTransGen (TimeStep NotFirstAtEpoch) {} (recordingP 9) :=
    recordingP_run 9 fun db doc operations hdoc _ _ => by
      rw [hdoc]
      decide
  exact ((mtime_index hrun).1 9 5).mpr ⟨{ mTime := 9, cTime := 3 }, by decide, rfl⟩

/-- A directory with the modification time `0` gets a record but no pair, when it has been stored as a
path only before. -/
theorem epoch_pair_missing : ¬ ∀ w, Relation.ReflTransGen (TimeStep fun _ _ _ => True) {} w → ∀ m i,
    i ∈ OrdMap.values w.dbis.mtimeDb m ↔
      ∃ info, OrdMap.get w.dbis.docTimeDb i = some info ∧ info.mTime = m := by
  intro h
  have hrun : Relation.ReflTransGen (TimeStep fun _ _ _ => True) {} (recordingP 0) :=
    recordingP_run 0 fun _ _ _ _ => trivial
  have hmem := (h _ hrun 0 5).mpr ⟨{ mTime := 0, cTime := 3 }, by decide, rfl⟩
  exact absurd hmem (by decide)

end Baloo
