import Baloo.DatabaseSanitizer
import Baloo.FolderQuery

/-!
# Clearing entries by hand

`balooctl clear` removes the documents of the files it is given, one after the other, in one transaction. A file
that is there is removed under its id; a file that is gone is looked up in the index by its path. Once a
directory has been removed, what was below it is still stored, but no path leads there any more. So a file that
is gone has to be given before the directories it was in (`clear_spec`).
-/

namespace Baloo

open Forest (Above)

/-- What the commands find on the disk. -/
structure EntryFiles extends FileSystem where
  /-- `QFileInfo::canonicalFilePath`, empty for a file that does not exist -/
  canonicalFilePath : QByteArray → QByteArray

/-- A line that is printed. -/
inductive ClearLine where
  /-- "Enter a filename to index" -/
  | enterFilename
  /-- "Baloo Index could not be opened" -/
  | notOpened
  /-- "Clearing" -/
  | clearing (canonicalPath : QByteArray)
  /-- "File has been deleted, clearing from DB" -/
  | deleted (fileName : QByteArray)
  /-- "File not found on filesystem or in DB" -/
  | notFound (fileName : QByteArray)
  /-- "File(s) cleared" -/
  | cleared
  deriving DecidableEq

/-- `ClearEntry::clearEntryNow`: the transaction, the line that is printed, and the result. -/
def ClearEntry.clearEntryNow (files : EntryFiles) (w : WriteTransaction) (fileName : QByteArray) :
    WriteTransaction × ClearLine × Bool :=
  let canonicalPath := files.canonicalFilePath fileName
  let id := files.filePathToId canonicalPath
  if id ≠ 0 then (w.removeDocument id, .clearing canonicalPath, true)
  else
    let id := w.dbis.docUrlDb.documentId fileName
    if id = 0 then (w, .notFound fileName, false)
    else (w.removeDocument id, .deleted fileName, true)

namespace ClearCommand

/-- The loop of `ClearCommand::exec`. -/
def clearAll (files : EntryFiles) : WriteTransaction → List QByteArray → WriteTransaction × List ClearLine
  | w, [] => (w, [])
  | w, fileName :: arguments =>
    let r := ClearEntry.clearEntryNow files w fileName
    let rest := clearAll files r.1 arguments
    (rest.1, r.2.1 :: rest.2)

/-- `ClearCommand::exec` with the arguments behind the command: the index, what is printed, and the status.
`opens` says that the index can be opened, `order` is the order in which the commit visits the terms. -/
def exec (files : EntryFiles) (opens : Bool) (db : Database) (arguments : List QByteArray) (order : List Term) :
    Database × List ClearLine × ℕ :=
  if arguments = [] then (db, [.enterFilename], 1)
  else if !opens then (db, [.notOpened], 1)
  else
    let r := clearAll files { dbis := db } arguments
    (r.1.commit order, r.2 ++ [.cleared], 0)

end ClearCommand

/-! ## A URL tree without some entries -/

namespace DocumentUrlDB

variable {db db' : DocumentUrlDB} {R : DocId → Prop} {n : ℕ} {i : DocId} {url path : QByteArray}

/-- The entries are gone, and the others are as they were. -/
structure Without (R : DocId → Prop) (db db' : DocumentUrlDB) : Prop where
  gone : ∀ i, R i → db'.idFilenameDb.get i = none
  kept : ∀ i, ¬ R i → db'.idFilenameDb.get i = db.idFilenameDb.get i

theorem Without.get_of_some (h : Without R db db') {place : FilePath} (hi : db'.idFilenameDb.get i = some place) :
    ¬ R i ∧ db.idFilenameDb.get i = some place := by
  have hnot : ¬ R i := by
    intro hR
    rw [h.gone i hR] at hi
    cases hi
  exact ⟨hnot, (h.kept i hnot).symm.trans hi⟩

/-- An entry stays where it is, unless one of the entries above is gone. -/
theorem Without.located_iff (h : Without R db db') (hR : ¬ R 0) (hzero : db.parent 0 = none) :
    db'.Located n i url ↔ db.Located n i url ∧ ∀ a, R a → ¬ Above db.parent a i := by
  constructor
  · intro hi
    induction hi with
    | root =>
      refine ⟨.root, fun a ha habove => ?_⟩
      rcases Relation.ReflTransGen.cases_head habove with rfl | ⟨q, hq, -⟩
      · exact hR ha
      · rw [hzero] at hq
        cases hq
    | entry hne hget _ ih =>
      obtain ⟨hnot, hget⟩ := h.get_of_some hget
      refine ⟨.entry hne hget ih.1, fun a ha habove => ?_⟩
      rcases Relation.ReflTransGen.cases_head habove with rfl | ⟨q, hq, hrest⟩
      · exact hnot ha
      · rw [parent, hget] at hq
        obtain rfl := Option.some.inj hq
        exact ih.2 a ha hrest
  · rintro ⟨hi, hfree⟩
    induction hi with
    | root => exact .root
    | @entry n i place url hne hget _ ih =>
      have hparent : db.parent i = some place.parentId := by rw [parent, hget]; rfl
      refine .entry hne ((h.kept i fun hi => hfree i hi .refl).trans hget) (ih fun a ha habove => ?_)
      exact hfree a ha (.head hparent habove)

theorem Without.wellNamed (h : Without R db db') (hn : db.WellNamed) : db'.WellNamed :=
  fun i place hi => hn i place (h.get_of_some hi).2

theorem Without.distinct (h : Without R db db') (hd : db.Distinct) : db'.Distinct :=
  fun i j place hi hj => hd i j place (h.get_of_some hi).2 (h.get_of_some hj).2

/-- What is found by its path is what was found before. -/
theorem Without.documentId_of_ne (h : Without R db db') (hR : ¬ R 0) (hc : db.Consistent) (hc' : db'.Consistent)
    (hn : db.WellNamed) (hd : db.Distinct) (hne : db'.documentId path ≠ 0) :
    db'.documentId path = db.documentId path ∧ ∀ a, R a → ¬ Above db.parent a (db.documentId path) := by
  rw [← documentId_normalized] at hne ⊢
  rw [← documentId_normalized db]
  have hpath : normalized path ≠ [] := by
    intro hempty
    rw [hempty] at hne
    exact hne rfl
  obtain ⟨n, hlocated⟩ := located_documentId hc' (isPath_normalized hpath) hne
  obtain ⟨hlocated, hfree⟩ := (h.located_iff hR hc.zero).mp hlocated
  rw [hlocated.documentId_eq hc hn hd]
  exact ⟨rfl, hfree⟩

/-- An entry with nothing gone above it is found. -/
theorem Without.documentId_eq (h : Without R db db') (hR : ¬ R 0) (hc : db.Consistent) (hc' : db'.Consistent)
    (hn : db.WellNamed) (hd : db.Distinct) (hfree : ∀ a, R a → ¬ Above db.parent a (db.documentId path)) :
    db'.documentId path = db.documentId path := by
  by_cases hne : db.documentId path = 0
  · by_contra hfound
    rw [hne] at hfound
    exact hfound ((h.documentId_of_ne hR hc hc' hn hd hfound).1.trans hne)
  · rw [← documentId_normalized db] at hne hfree ⊢
    rw [← documentId_normalized db']
    have hpath : normalized path ≠ [] := by
      intro hempty
      rw [hempty] at hne
      exact hne rfl
    obtain ⟨n, hlocated⟩ := located_documentId hc (isPath_normalized hpath) hne
    exact ((h.located_iff hR hc.zero).mpr ⟨hlocated, hfree⟩).documentId_eq hc' (h.wellNamed hn) (h.distinct hd)

open Classical in
/-- Below an entry that is gone nothing has a path. -/
theorem Without.get_eq (h : Without R db db') (hR : ¬ R 0) (hzero : db.parent 0 = none) (i : DocId) :
    db'.get i = if ∃ a, R a ∧ Above db.parent a i then [] else db.get i := by
  have hget : db'.get i ≠ [] → db'.get i = db.get i ∧ ∀ a, R a → ¬ Above db.parent a i := by
    intro hne
    obtain ⟨n, hn, hlocated⟩ := located_of_get hne
    obtain ⟨hlocated, hfree⟩ := (h.located_iff hR hzero).mp hlocated
    exact ⟨(hlocated.get hn).symm, hfree⟩
  split
  · next hgone =>
    obtain ⟨a, ha, habove⟩ := hgone
    by_contra hne
    exact (hget hne).2 a ha habove
  · next hfree =>
    by_cases hne : db.get i = []
    · by_contra hne'
      rw [hne] at hne'
      exact hne' ((hget hne').1.trans hne)
    · obtain ⟨n, hn, hlocated⟩ := located_of_get hne
      have hlocated' := (h.located_iff hR hzero).mpr ⟨hlocated, fun a ha habove => hfree ⟨a, ha, habove⟩⟩
      exact hlocated'.get hn

theorem without_foldl_del {ids : List DocId} (hids : 0 ∉ ids) (db : DocumentUrlDB) :
    Without (· ∈ ids) db (ids.foldl del db) := by
  induction ids generalizing db with
  | nil => exact ⟨fun _ hi => absurd hi List.not_mem_nil, fun _ _ => rfl⟩
  | cons id ids ih =>
    have hid : id ≠ 0 := fun h => hids (h ▸ List.mem_cons_self)
    obtain ⟨hgone, hkept⟩ := ih (fun h => hids (List.mem_cons_of_mem _ h)) (db.del id)
    rw [List.foldl_cons]
    constructor
    · intro i hi
      by_cases hrest : i ∈ ids
      · exact hgone i hrest
      · rw [hkept i hrest, idFilenameDb_del, if_pos ⟨(List.mem_cons.mp hi).resolve_right hrest, hid⟩]
    · intro i hi
      rw [hkept i fun h => hi (List.mem_cons_of_mem _ h), idFilenameDb_del, if_neg]
      rintro ⟨rfl, -⟩
      exact hi List.mem_cons_self

theorem Consistent.foldl_del (hc : db.Consistent) (ids : List DocId) : (ids.foldl DocumentUrlDB.del db).Consistent := by
  induction ids generalizing db with
  | nil => exact hc
  | cons id ids ih => exact ih hc.del

end DocumentUrlDB

theorem docUrlDb_foldl_removeDocument (ids : List DocId) (w : WriteTransaction) :
    (ids.foldl WriteTransaction.removeDocument w).dbis.docUrlDb = ids.foldl DocumentUrlDB.del w.dbis.docUrlDb := by
  induction ids generalizing w with
  | nil => rfl
  | cons id ids ih => exact ih (w.removeDocument id)

/-! ## What is cleared -/

namespace ClearCommand

variable {files : EntryFiles} {w : WriteTransaction} {db : DocumentUrlDB} {arguments : List QByteArray}
  {fileName : QByteArray} {i : DocId}

/-- There is a file. -/
def OnDisk (files : EntryFiles) (fileName : QByteArray) : Prop :=
  files.filePathToId (files.canonicalFilePath fileName) ≠ 0

instance (files : EntryFiles) (fileName : QByteArray) : Decidable (OnDisk files fileName) :=
  inferInstanceAs (Decidable (_ ≠ 0))

/-- The entry of the file, or else the entry with the path. -/
def entry (files : EntryFiles) (db : DocumentUrlDB) (fileName : QByteArray) : DocId :=
  if OnDisk files fileName then files.filePathToId (files.canonicalFilePath fileName)
  else db.documentId fileName

/-- The argument stands for this entry or for a directory above it. -/
def Covers (files : EntryFiles) (db : DocumentUrlDB) (fileName : QByteArray) (i : DocId) : Prop :=
  entry files db fileName ≠ 0 ∧ Above db.parent (entry files db fileName) i

/-- An argument stands for the entry; and if the file is gone, no argument before has been in the way. -/
def Cleared (files : EntryFiles) (db : DocumentUrlDB) (arguments : List QByteArray) (i : DocId) : Prop :=
  ∃ before fileName after, arguments = before ++ fileName :: after ∧ entry files db fileName = i ∧ i ≠ 0 ∧
    (OnDisk files fileName ∨ ∀ argument ∈ before, ¬ Covers files db argument i)

theorem not_cleared_zero : ¬ Cleared files db arguments 0 := by
  rintro ⟨_, _, _, -, -, hne, -⟩
  exact hne rfl

theorem cleared_append : Cleared files db (arguments ++ [fileName]) i ↔ Cleared files db arguments i ∨
    (entry files db fileName = i ∧ i ≠ 0 ∧
      (OnDisk files fileName ∨ ∀ argument ∈ arguments, ¬ Covers files db argument i)) := by
  constructor
  · rintro ⟨before, name, after, hsplit, hrest⟩
    obtain rfl | ⟨after', last, rfl⟩ := List.eq_nil_or_concat' after
    · obtain ⟨rfl, hname⟩ := List.append_inj' hsplit rfl
      obtain rfl := List.singleton_inj.mp hname
      exact .inr hrest
    · rw [← List.cons_append, ← List.append_assoc] at hsplit
      exact .inl ⟨before, name, after', (List.append_inj' hsplit rfl).1, hrest⟩
  · rintro (⟨before, name, after, rfl, hrest⟩ | hlast)
    · exact ⟨before, name, after ++ [fileName], by simp, hrest⟩
    · exact ⟨arguments, fileName, [], rfl, hlast⟩

/-- Something is cleared at an entry or above it exactly if an argument covers it: the first one that does is
found. -/
theorem exists_cleared_iff : (∃ a, Cleared files db arguments a ∧ Above db.parent a i) ↔
    ∃ argument ∈ arguments, Covers files db argument i := by
  constructor
  · rintro ⟨a, ⟨before, fileName, after, rfl, rfl, hne, -⟩, habove⟩
    exact ⟨fileName, by simp, hne, habove⟩
  · induction arguments using List.reverseRecOn with
    | nil => simp
    | append_singleton arguments last ih =>
      intro hcovered
      by_cases hbefore : ∃ argument ∈ arguments, Covers files db argument i
      · obtain ⟨a, ha, habove⟩ := ih hbefore
        exact ⟨a, cleared_append.mpr (.inl ha), habove⟩
      · obtain ⟨argument, hmem, hne, habove⟩ := hcovered
        rcases List.mem_append.mp hmem with hmem | hmem
        · exact absurd ⟨argument, hmem, hne, habove⟩ hbefore
        · obtain rfl := List.mem_singleton.mp hmem
          refine ⟨_, cleared_append.mpr (.inr ⟨rfl, hne, .inr fun earlier hearlier hcovers => ?_⟩), habove⟩
          exact hbefore ⟨earlier, hearlier, hcovers.1, hcovers.2.trans habove⟩

theorem clearAll_append (w : WriteTransaction) (before after : List QByteArray) :
    clearAll files w (before ++ after) =
      ((clearAll files (clearAll files w before).1 after).1,
        (clearAll files w before).2 ++ (clearAll files (clearAll files w before).1 after).2) := by
  induction before generalizing w with
  | nil => rfl
  | cons fileName before ih =>
    rw [List.cons_append, clearAll, ih]
    rfl

theorem length_clearAll (w : WriteTransaction) (arguments : List QByteArray) :
    (clearAll files w arguments).2.length = arguments.length := by
  induction arguments generalizing w with
  | nil => rfl
  | cons fileName arguments ih => exact congrArg (· + 1) (ih _)

/-- A file that is there is removed without a look at the index. -/
theorem clearEntryNow_of_onDisk (h : OnDisk files fileName) (w : WriteTransaction) :
    ClearEntry.clearEntryNow files w fileName =
      (w.removeDocument (files.filePathToId (files.canonicalFilePath fileName)),
        .clearing (files.canonicalFilePath fileName), true) := if_pos h

theorem clearEntryNow_of_not_onDisk (h : ¬ OnDisk files fileName) (w : WriteTransaction) :
    ClearEntry.clearEntryNow files w fileName =
      if w.dbis.docUrlDb.documentId fileName = 0 then (w, .notFound fileName, false)
      else (w.removeDocument (w.dbis.docUrlDb.documentId fileName), .deleted fileName, true) := if_neg h

/-- The URL tree as far as the loop has come. -/
structure Clears (files : EntryFiles) (w : WriteTransaction) (arguments : List QByteArray) (ids : List DocId) :
    Prop where
  removed : (clearAll files w arguments).1 = ids.foldl WriteTransaction.removeDocument w
  mem_iff : ∀ i, i ∈ ids ↔ Cleared files w.dbis.docUrlDb arguments i

theorem Clears.zero {ids : List DocId} (h : Clears files w arguments ids) : 0 ∉ ids :=
  fun hzero => not_cleared_zero ((h.mem_iff 0).mp hzero)

theorem Clears.without {ids : List DocId} (h : Clears files w arguments ids) :
    DocumentUrlDB.Without (Cleared files w.dbis.docUrlDb arguments) w.dbis.docUrlDb
      (clearAll files w arguments).1.dbis.docUrlDb := by
  rw [h.removed, docUrlDb_foldl_removeDocument, ← funext fun i => propext (h.mem_iff i)]
  exact DocumentUrlDB.without_foldl_del h.zero _

/-- A file that is gone is found exactly if no argument before has covered it. -/
theorem Clears.documentId {ids : List DocId} (h : Clears files w arguments ids) (hc : w.dbis.docUrlDb.Consistent)
    (hn : w.dbis.docUrlDb.WellNamed) (hd : w.dbis.docUrlDb.Distinct) (hgone : ¬ OnDisk files fileName) :
    ((clearAll files w arguments).1.dbis.docUrlDb.documentId fileName ≠ 0 ↔
      entry files w.dbis.docUrlDb fileName ≠ 0 ∧ ∀ argument ∈ arguments,
        ¬ Covers files w.dbis.docUrlDb argument (entry files w.dbis.docUrlDb fileName)) ∧
    ((clearAll files w arguments).1.dbis.docUrlDb.documentId fileName ≠ 0 →
      (clearAll files w arguments).1.dbis.docUrlDb.documentId fileName = entry files w.dbis.docUrlDb fileName) := by
  have hc' : (clearAll files w arguments).1.dbis.docUrlDb.Consistent := by
    rw [h.removed, docUrlDb_foldl_removeDocument]
    exact hc.foldl_del ids
  have hentry : entry files w.dbis.docUrlDb fileName = w.dbis.docUrlDb.documentId fileName := if_neg hgone
  have hfree : (∀ argument ∈ arguments,
      ¬ Covers files w.dbis.docUrlDb argument (entry files w.dbis.docUrlDb fileName)) ↔
      ∀ a, Cleared files w.dbis.docUrlDb arguments a →
        ¬ Above w.dbis.docUrlDb.parent a (entry files w.dbis.docUrlDb fileName) := by
    rw [← not_iff_not]
    push Not
    exact exists_cleared_iff.symm
  have hfound : (clearAll files w arguments).1.dbis.docUrlDb.documentId fileName ≠ 0 → _ :=
    fun hne => h.without.documentId_of_ne not_cleared_zero hc hc' hn hd hne
  rw [hfree, hentry]
  refine ⟨⟨fun hne => ?_, ?_⟩, fun hne => (hfound hne).1⟩
  · obtain ⟨heq, hfree⟩ := hfound hne
    exact ⟨heq ▸ hne, hfree⟩
  · rintro ⟨hne, hfree⟩
    rwa [h.without.documentId_eq not_cleared_zero hc hc' hn hd hfree]

/-- One more argument. -/
theorem clearAll_concat (w : WriteTransaction) (arguments : List QByteArray) (fileName : QByteArray) :
    (clearAll files w (arguments ++ [fileName])).1 =
      (ClearEntry.clearEntryNow files (clearAll files w arguments).1 fileName).1 := by
  rw [clearAll_append]
  rfl

theorem Clears.removeDocument {ids : List DocId} {id : DocId} (h : Clears files w arguments ids)
    (hremoved : (ClearEntry.clearEntryNow files (clearAll files w arguments).1 fileName).1 =
      (clearAll files w arguments).1.removeDocument id)
    (hentry : entry files w.dbis.docUrlDb fileName = id) (hne : id ≠ 0)
    (hfound : OnDisk files fileName ∨ ∀ argument ∈ arguments, ¬ Covers files w.dbis.docUrlDb argument id) :
    Clears files w (arguments ++ [fileName]) (ids ++ [id]) where
  removed := by
    rw [clearAll_concat, hremoved, h.removed, List.foldl_append]
    rfl
  mem_iff i := by
    rw [cleared_append, List.mem_append, h.mem_iff, List.mem_singleton, hentry]
    constructor
    · rintro (hi | rfl)
      · exact .inl hi
      · exact .inr ⟨rfl, hne, hfound⟩
    · exact Or.imp_right fun hi => hi.1.symm

/-- **The loop removes the entries that are cleared.** -/
theorem exists_clears (files : EntryFiles) (hc : w.dbis.docUrlDb.Consistent) (hn : w.dbis.docUrlDb.WellNamed)
    (hd : w.dbis.docUrlDb.Distinct) (arguments : List QByteArray) : ∃ ids, Clears files w arguments ids := by
  induction arguments using List.reverseRecOn with
  | nil => exact ⟨[], rfl, fun i => by simp [Cleared]⟩
  | append_singleton arguments fileName ih =>
    obtain ⟨ids, h⟩ := ih
    by_cases hdisk : OnDisk files fileName
    · exact ⟨_, h.removeDocument (congrArg Prod.fst (clearEntryNow_of_onDisk hdisk _)) (if_pos hdisk) hdisk
        (.inl hdisk)⟩
    · obtain ⟨hiff, hsame⟩ := h.documentId hc hn hd hdisk
      by_cases hfound : (clearAll files w arguments).1.dbis.docUrlDb.documentId fileName = 0
      · -- nothing is found, so nothing more is cleared
        refine ⟨ids, ?_, fun i => ?_⟩
        · rw [clearAll_concat, clearEntryNow_of_not_onDisk hdisk, if_pos hfound, h.removed]
        · rw [h.mem_iff, cleared_append]
          refine (or_iff_left ?_).symm
          rintro ⟨rfl, hne, hdisk' | hfree⟩
          · exact hdisk hdisk'
          · exact hiff.mpr ⟨hne, hfree⟩ hfound
      · refine ⟨_, h.removeDocument ?_ rfl (hiff.mp hfound).1 (.inr (hiff.mp hfound).2)⟩
        rw [clearEntryNow_of_not_onDisk hdisk, if_neg hfound, hsame hfound]

/-- The line for an argument. -/
theorem clearAll_line (w : WriteTransaction) (before : List QByteArray) (fileName : QByteArray)
    (after : List QByteArray) : (clearAll files w (before ++ fileName :: after)).2[before.length]? =
      some (ClearEntry.clearEntryNow files (clearAll files w before).1 fileName).2.1 := by
  have hlength := @length_clearAll files w before
  rw [clearAll_append]
  dsimp only
  rw [List.getElem?_append_right hlength.le, hlength, Nat.sub_self]
  rfl

/-- "File not found" is printed if the path does not lead to an entry any more. -/
theorem clearEntryNow_notFound_iff {before : List QByteArray} {ids : List DocId} (h : Clears files w before ids)
    (hc : w.dbis.docUrlDb.Consistent) (hn : w.dbis.docUrlDb.WellNamed) (hd : w.dbis.docUrlDb.Distinct) :
    (ClearEntry.clearEntryNow files (clearAll files w before).1 fileName).2.1 = .notFound fileName ↔
      ¬ OnDisk files fileName ∧ (entry files w.dbis.docUrlDb fileName = 0 ∨ ∃ argument ∈ before,
        Covers files w.dbis.docUrlDb argument (entry files w.dbis.docUrlDb fileName)) := by
  by_cases hdisk : OnDisk files fileName
  · rw [clearEntryNow_of_onDisk hdisk]
    simp [hdisk]
  · have hiff := not_congr (h.documentId hc hn hd hdisk).1
    push Not at hiff
    rw [clearEntryNow_of_not_onDisk hdisk, or_iff_not_imp_left, ← hiff]
    split
    · next hzero => simp [hdisk, hzero]
    · next hne => simp [hne]

/-- All files are gone. -/
def goneFiles : EntryFiles := { noFiles with canonicalFilePath := fun _ => [] }

end ClearCommand

end Baloo
