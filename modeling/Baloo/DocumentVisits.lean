import Baloo.Agreement
import Baloo.Lib.Since
import Baloo.Settling

/-!
# Which paths get a document

`FirstRunIndexer` and `NewFileIndexer` skip a path whose id is stored, so as not to add a document twice.
But an id is also stored when something below its path has been added: `addPath` enters the directories
above. So a path gets its document if it is reached before everything below it. Otherwise it stays without
content terms, unless the check for unindexed files replaces them, which it only does if nothing but the
basic indexing is wanted (`document_visits`).
-/

namespace Baloo

/-! ## Entering a path -/

/-- Where a path belongs: the id of its directory, `0` for the root, and its name. -/
def FileSystem.place (fs : FileSystem) (path : QByteArray) : FilePath :=
  let pos := lastIndexOf slash path
  { parentId := fs.filePathToId (left path pos), name := mid path (pos + 1) }

section Paths

variable {fs : FileSystem} {path dir name p : QByteArray} {id i : DocId}

theorem FileSystem.lstat_nil (fs : FileSystem) : fs.lstat [] = none := by
  rcases h : fs.lstat [] with _ | id
  · rfl
  · exact absurd rfl (fs.isPath [] id h).ne_nil

theorem FileSystem.place_append (hslash : slash ∉ name) :
    fs.place (dir ++ slash :: name) = { parentId := fs.filePathToId dir, name := name } := by
  simp only [place, lastIndexOf_append hslash, left_append, mid_append]

theorem IsAncestor.length_lt (h : IsAncestor p path) : p.length < path.length := by
  obtain ⟨-, rest, rfl⟩ := h
  rw [List.length_append, List.length_cons]
  omega

/-- Above an entry of a directory are the directory and what is above it. -/
theorem isAncestor_append (hslash : slash ∉ name) :
    IsAncestor p (dir ++ slash :: name) ↔ p ≠ [] ∧ p = dir ∨ IsAncestor p dir := by
  constructor
  · rintro ⟨hne, rest, hrest⟩
    rcases List.append_eq_append_iff.mp hrest with ⟨mid, rfl, hmid⟩ | ⟨mid, rfl, hmid⟩
    · rcases mid with _ | ⟨b, mid⟩
      · exact .inl ⟨hne, by simp⟩
      · -- the slash after `p` would be in the name
        obtain ⟨-, rfl⟩ := List.cons.inj hmid
        exact absurd (List.mem_append_right mid List.mem_cons_self) hslash
    · rcases mid with _ | ⟨b, mid⟩
      · exact .inl ⟨hne, by simp⟩
      · obtain ⟨rfl, -⟩ := List.cons.inj hmid
        exact .inr ⟨hne, mid, rfl⟩
  · rintro (⟨hne, rfl⟩ | ⟨hne, rest, rfl⟩)
    · exact ⟨hne, name, rfl⟩
    · exact ⟨hne, rest ++ slash :: name, by simp⟩

end Paths

namespace DocumentUrlDB

variable {fs : FileSystem} {db : DocumentUrlDB} {arr : QByteArray} {id : DocId}

theorem idFilenameDb_add {parentId : DocId} {name : QByteArray} (hid : id ≠ 0) (hname : name ≠ [])
    (i : DocId) : (db.add id parentId name).idFilenameDb.get i =
      if i = id then some { parentId := parentId, name := name } else db.idFilenameDb.get i := by
  rw [add, if_neg (not_or.mpr ⟨hid, hname⟩), OrdMap.get_put]

/-- The entry of the id is as it was, or it is new and says where a path on the way to `arr` belongs. -/
def EntersAbove (fs : FileSystem) (arr : QByteArray) (db db' : DocumentUrlDB) (i : DocId) : Prop :=
  db'.idFilenameDb.get i = db.idFilenameDb.get i ∨
    db.idFilenameDb.get i = none ∧ ∃ p, (p = arr ∨ IsAncestor p arr) ∧ fs.lstat p = some i ∧
      db'.idFilenameDb.get i = some (fs.place p)

theorem addPathLoop_enters {rounds : ℕ} (hid : fs.lstat arr = some id) (i : DocId) :
    EntersAbove fs arr db (addPathLoop fs rounds db arr id).1 i := by
  induction rounds generalizing db arr id with
  | zero => exact .inl rfl
  | succ rounds ih =>
    have hid0 : id ≠ 0 := fun h0 => fs.ne_zero arr (h0 ▸ hid)
    rw [addPathLoop, if_neg hid0]
    by_cases hstored : db.idFilenameDb.contains id = true
    · rw [if_pos hstored]
      exact .inl rfl
    · have hfresh : db.idFilenameDb.get id = none := by
        rw [OrdMap.contains, Option.not_isSome_iff_eq_none] at hstored
        exact hstored
      obtain ⟨dir, name, rfl, hname, hslash⟩ := (fs.isPath arr id hid).split
      rw [if_neg hstored, lastIndexOf_append hslash]
      simp only [left_append, mid_append]
      -- the entry that is added says where `arr` belongs
      have hadd : ∀ db', db'.idFilenameDb.get i =
          (db.add id (fs.filePathToId dir) name).idFilenameDb.get i →
          EntersAbove fs (dir ++ slash :: name) db db' i := by
        intro db' hget
        rw [idFilenameDb_add hid0 hname] at hget
        by_cases hi : i = id
        · rw [if_pos hi] at hget
          subst hi
          exact .inr ⟨hfresh, _, .inl rfl, hid, hget.trans (by rw [fs.place_append hslash])⟩
        · rw [if_neg hi] at hget
          exact .inl hget
      rcases eq_or_ne dir [] with rfl | hdir
      · rw [if_pos (by simp)]
        refine hadd _ ?_
        rw [FileSystem.filePathToId, fs.lstat_nil, Option.getD_none]
      · rw [if_neg (by simpa using hdir)]
        split
        · exact .inl rfl
        · next hparent =>
          obtain ⟨parentId, hparentId⟩ : ∃ parentId, fs.lstat dir = some parentId := by
            rcases hlstat : fs.lstat dir with _ | parentId
            · rw [FileSystem.filePathToId, hlstat] at hparent
              exact absurd rfl hparent
            · exact ⟨parentId, rfl⟩
          rw [fs.filePathToId_eq hparentId] at hadd ⊢
          rcases @ih (db.add id parentId name) dir parentId hparentId with hsame | ⟨hnone, p, hp, hpi, hget⟩
          · exact hadd _ hsame
          · rw [idFilenameDb_add hid0 hname] at hnone
            split at hnone
            · cases hnone
            · refine .inr ⟨hnone, p, .inr ?_, hpi, hget⟩
              refine (isAncestor_append hslash).mpr ?_
              rcases hp with rfl | hp
              · exact .inl ⟨hdir, rfl⟩
              · exact .inr hp

/-- After the loop the path and the directories above it are stored, if for stored paths that are not
longer the directories above them are. -/
theorem addPathLoop_stores {rounds : ℕ} (hid : fs.lstat arr = some id) (hrounds : arr.length < rounds)
    (hexists : ∀ dir, IsAncestor dir arr → ∃ i, fs.lstat dir = some i)
    (hclosed : ∀ p i, p.length ≤ arr.length → fs.lstat p = some i → db.idFilenameDb.contains i = true →
      ∀ d j, IsAncestor d p → fs.lstat d = some j → db.idFilenameDb.contains j = true)
    {p : QByteArray} {i : DocId} (hp : p = arr ∨ IsAncestor p arr) (hpi : fs.lstat p = some i) :
    (addPathLoop fs rounds db arr id).1.idFilenameDb.contains i = true := by
  induction rounds generalizing db arr id with
  | zero => exact absurd hrounds (Nat.not_lt_zero _)
  | succ rounds ih =>
    have hid0 : id ≠ 0 := fun h0 => fs.ne_zero arr (h0 ▸ hid)
    rw [addPathLoop, if_neg hid0]
    by_cases hstored : db.idFilenameDb.contains id = true
    · rw [if_pos hstored]
      rcases hp with rfl | hp
      · rwa [Option.some.inj (hpi.symm.trans hid)]
      · exact hclosed arr id (Nat.le_refl _) hid hstored p i hp hpi
    · obtain ⟨dir, name, rfl, hname, hslash⟩ := (fs.isPath arr id hid).split
      rw [if_neg hstored, lastIndexOf_append hslash]
      simp only [left_append, mid_append]
      have hself : ∀ parentId, (db.add id parentId name).idFilenameDb.contains id = true := by
        intro parentId
        rw [OrdMap.contains, idFilenameDb_add hid0 hname, if_pos rfl]
        rfl
      rcases eq_or_ne dir [] with rfl | hdir
      · rw [if_pos (by simp)]
        rcases hp with rfl | hp
        · rw [Option.some.inj (hpi.symm.trans hid)]
          exact hself 0
        · rcases (isAncestor_append hslash).mp hp with ⟨hne, rfl⟩ | ⟨hne, rest, hnil⟩
          · exact absurd rfl hne
          · exact absurd (congrArg List.length hnil) (by simp)
      · obtain ⟨parentId, hparentId⟩ := hexists dir ((isAncestor_append hslash).mpr (.inl ⟨hdir, rfl⟩))
        have hparentId0 : parentId ≠ 0 := fun h0 => fs.ne_zero dir (h0 ▸ hparentId)
        rw [if_neg (by simpa using hdir), fs.filePathToId_eq hparentId, if_neg hparentId0]
        have hlength : dir.length < (dir ++ slash :: name).length := by
          rw [List.length_append, List.length_cons]
          omega
        rcases hp with rfl | hp
        · rw [Option.some.inj (hpi.symm.trans hid)]
          exact contains_addPathLoop fs rounds (hself parentId) dir parentId
        · refine ih hparentId (by omega) (fun d hd => hexists d ((isAncestor_append hslash).mpr (.inr hd)))
            (fun q j hq hqj hcontains d k hd hdk => contains_add ?_) ?_
          · -- what is stored and not longer than the directory has been stored before
            have hne : j ≠ id := by
              rintro rfl
              rw [fs.injective q _ j hqj hid] at hq
              omega
            rw [OrdMap.contains, idFilenameDb_add hid0 hname, if_neg hne] at hcontains
            exact hclosed q j (by omega) hqj hcontains d k hd hdk
          · exact ((isAncestor_append hslash).mp hp).imp_left And.right

end DocumentUrlDB

namespace BasicIndexingJob.Describes

variable {lib : Libraries} {fs : Snapshot} {filePath : QByteArray} {mimetype : List QChar} {doc : Document}
  {db : DocumentUrlDB}

/-- The place of the path is what the document says. -/
theorem place_url (h : Describes lib fs filePath mimetype doc) :
    fs.place doc.url = { parentId := doc.parentId, name := mid doc.url (lastIndexOf slash doc.url + 1) } := by
  rw [FileSystem.place, h.url, fs.filePathToId_eq h.parentId]

theorem addUrl_enters (h : Describes lib fs filePath mimetype doc)
    (hfresh : db.idFilenameDb.get doc.id = none) (i : DocId) :
    DocumentUrlDB.EntersAbove fs.toFileSystem doc.url db
      (WriteTransaction.addUrl fs.toFileSystem db doc).1 i := by
  have hplace := h.place_url
  obtain ⟨dir, name, -, hurl, hname, hslash, hdir, hid, hparentId, hdocId⟩ := h.split
  rw [hurl, lastIndexOf_append hslash, mid_append] at hplace
  rw [addUrl_eq _ _ hurl hdir hname hslash hid, DocumentUrlDB.addPath_eq hparentId, hurl]
  dsimp only
  rw [DocumentUrlDB.EntersAbove, DocumentUrlDB.idFilenameDb_add hid hname]
  by_cases hi : i = doc.id
  · subst hi
    refine .inr ⟨hfresh, _, .inl rfl, hdocId, ?_⟩
    rw [if_pos rfl, hplace]
  · rw [if_neg hi]
    refine (DocumentUrlDB.addPathLoop_enters hparentId i).imp_right fun ⟨hnone, p, hp, hpi, hget⟩ => ?_
    refine ⟨hnone, p, .inr ((isAncestor_append hslash).mpr ?_), hpi, hget⟩
    rcases hp with rfl | hp
    · exact .inl ⟨hdir, rfl⟩
    · exact .inr hp

theorem addUrl_stores (h : Describes lib fs filePath mimetype doc)
    (hexists : ∀ dir, IsAncestor dir doc.url → ∃ i, fs.lstat dir = some i)
    (hclosed : ∀ p i, fs.lstat p = some i → db.idFilenameDb.contains i = true →
      ∀ d j, IsAncestor d p → fs.lstat d = some j → db.idFilenameDb.contains j = true)
    {p : QByteArray} {i : DocId} (hp : p = doc.url ∨ IsAncestor p doc.url) (hpi : fs.lstat p = some i) :
    (WriteTransaction.addUrl fs.toFileSystem db doc).1.idFilenameDb.contains i = true := by
  obtain ⟨dir, name, -, hurl, hname, hslash, hdir, hid, hparentId, hdocId⟩ := h.split
  rw [addUrl_eq _ _ hurl hdir hname hslash hid, DocumentUrlDB.addPath_eq hparentId]
  rw [hurl] at hexists hp
  rcases hp with rfl | hp
  · rw [Option.some.inj (hpi.symm.trans hdocId)]
    dsimp only
    rw [OrdMap.contains, DocumentUrlDB.idFilenameDb_add hid hname, if_pos rfl]
    rfl
  · refine DocumentUrlDB.contains_add (DocumentUrlDB.addPathLoop_stores hparentId (Nat.lt_succ_self _)
      (fun d hd => hexists d ((isAncestor_append hslash).mpr (.inr hd)))
      (fun q j _ => hclosed q j) ?_ hpi)
    exact ((isAncestor_append hslash).mp hp).imp_left And.right

end BasicIndexingJob.Describes

/-! ## The terms that are written -/

/-- What a table of terms holds for a list. -/
def termsEntry (list : List Term) : Option QByteArray :=
  if list = [] then none else some (DocTermsCodec.encode list)

section Terms

variable {w : WriteTransaction} {doc : Document}

theorem get_replaceFamily (w : WriteTransaction) (id : DocId) (f : Family) (terms : OrdMap Term TermData)
    (g : Family) (i : DocId) :
    OrdMap.get ((w.replaceFamily id f terms).dbis.termsDb g) i = OrdMap.get (w.dbis.termsDb g) i ∧
        (g = f → i = id → OrdMap.get (w.dbis.termsDb g) i = none → terms.keys = []) ∨
      g = f ∧ i = id ∧ OrdMap.get ((w.replaceFamily id f terms).dbis.termsDb g) i = termsEntry terms.keys := by
  rw [termsDb_replaceFamily]
  by_cases hg : g = f
  · subst hg
    rw [if_pos rfl]
    split
    · by_cases hi : i = id
      · refine .inr ⟨rfl, hi, ?_⟩
        by_cases hnil : terms.keys = []
        · rw [termsEntry, if_neg (not_not.mpr hnil), if_pos hnil, OrdMap.get_del, if_pos hi]
        · rw [termsEntry, if_pos hnil, if_neg hnil, DocumentDB.put, OrdMap.get_put, if_pos hi]
      · refine .inl ⟨?_, fun _ hi' => absurd hi' hi⟩
        split
        · rw [DocumentDB.put, OrdMap.get_put, if_neg hi]
        · rw [OrdMap.get_del, if_neg hi]
    · next hsame =>
      refine .inl ⟨rfl, fun _ hi hnone => ?_⟩
      rw [not_not.mp hsame, DocumentDB.get, ← hi, hnone]
  · rw [if_neg hg]
    exact .inl ⟨rfl, fun hg' => absurd hg' hg⟩

/-- Replacing a document writes the tables of the families that are replaced, for the document only; what
is there stays if it is the same. -/
theorem get_replaceDocument (w : WriteTransaction) (hne : doc.terms.keys ≠ [])
    (operations : DocumentOperations) (f : Family) (i : DocId) :
    OrdMap.get ((w.replaceDocument doc operations).dbis.termsDb f) i = OrdMap.get (w.dbis.termsDb f) i ∧
        (operations.replaces f = true → i = doc.id → OrdMap.get (w.dbis.termsDb f) i = none →
          (doc.family f).keys = []) ∨
      i = doc.id ∧ operations.replaces f = true ∧
        OrdMap.get ((w.replaceDocument doc operations).dbis.termsDb f) i = termsEntry (doc.family f).keys := by
  -- a block for another family leaves the table alone
  have hother : ∀ (v : WriteTransaction) (g : Family), g ≠ f →
      OrdMap.get ((if operations.replaces g then v.replaceFamily doc.id g (doc.family g) else v).dbis.termsDb f) i =
        OrdMap.get (v.dbis.termsDb f) i := by
    intro v g hg
    split
    · rcases get_replaceFamily v doc.id g (doc.family g) f i with ⟨hsame, -⟩ | ⟨hf, -⟩
      · exact hsame
      · exact absurd hf.symm hg
    · rfl
  have hown : ∀ v : WriteTransaction, OrdMap.get (v.dbis.termsDb f) i = OrdMap.get (w.dbis.termsDb f) i →
      ∀ x, x = OrdMap.get
        ((if operations.replaces f then v.replaceFamily doc.id f (doc.family f) else v).dbis.termsDb f) i →
      x = OrdMap.get (w.dbis.termsDb f) i ∧ (operations.replaces f = true → i = doc.id →
          OrdMap.get (w.dbis.termsDb f) i = none → (doc.family f).keys = []) ∨
        i = doc.id ∧ operations.replaces f = true ∧ x = termsEntry (doc.family f).keys := by
    rintro v hv x rfl
    split
    · next hreplaces =>
      rcases get_replaceFamily v doc.id f (doc.family f) f i with ⟨hsame, hnil⟩ | ⟨-, hi, hget⟩
      · rw [hv] at hsame hnil
        exact .inl ⟨hsame, fun _ => hnil rfl⟩
      · exact .inr ⟨hi, hreplaces, hget⟩
    · next hkept => exact .inl ⟨hv, fun hreplaces => absurd hreplaces hkept⟩
  have hterms : ∀ v : WriteTransaction, v.replaceDocumentTerms doc = v.replaceFamily doc.id .terms doc.terms :=
    fun v => replaceDocumentTerms_eq v hne
  have hdata : ∀ (v : WriteTransaction), (WriteTransaction.replaceData v.dbis doc operations).termsDb f =
      v.dbis.termsDb f := fun v => by cases f <;> rfl
  simp only [WriteTransaction.replaceDocument, hdata, hterms, replaceXattrTerms_eq, replaceFileNameTerms_eq]
  cases f with
  | terms =>
    refine hown w rfl _ ?_
    exact ((hother _ .fileNameTerms Family.noConfusion).trans (hother _ .xattrTerms Family.noConfusion))
  | xattrTerms =>
    refine hown _ (hother w .terms Family.noConfusion) _ ?_
    exact hother _ .fileNameTerms Family.noConfusion
  | fileNameTerms =>
    refine hown _ ?_ _ rfl
    exact (hother _ .xattrTerms Family.noConfusion).trans (hother w .terms Family.noConfusion)

/-- Adding a document writes its tables, for the document only. -/
theorem get_addDocument {fs : FileSystem} (hurl : (WriteTransaction.addUrl fs w.dbis.docUrlDb doc).2 = true)
    (hne : doc.terms.keys ≠ []) (f : Family) (i : DocId)
    (hfresh : OrdMap.get (w.dbis.termsDb f) doc.id = none) :
    OrdMap.get ((w.addDocument fs doc).dbis.termsDb f) i =
      if i = doc.id then termsEntry (doc.family f).keys else OrdMap.get (w.dbis.termsDb f) i := by
  -- a family without terms is not written
  have hput : ∀ (table : DocumentDB) (list : List Term), OrdMap.get table doc.id = none →
      OrdMap.get (if list ≠ [] then table.put doc.id list else table) i =
        if i = doc.id then termsEntry list else OrdMap.get table i := by
    intro table list hnone
    rw [termsEntry]
    by_cases hlist : list = []
    · rw [if_neg (not_not.mpr hlist), if_pos hlist]
      split
      · next hi => rw [hi, hnone]
      · rfl
    · rw [if_pos hlist, if_neg hlist, DocumentDB.put, OrdMap.get_put]
  simp only [WriteTransaction.addDocument, hurl, if_true]
  cases f with
  | terms =>
    have h := hput w.dbis.docTermsDb doc.terms.keys hfresh
    rw [if_pos hne] at h
    exact h
  | xattrTerms => exact hput w.dbis.docXattrTermsDb doc.xattrTerms.keys hfresh
  | fileNameTerms => exact hput w.dbis.docFilenameTermsDb doc.fileNameTerms.keys hfresh

/-- Replacing a stored document neither adds entries nor removes any. -/
theorem contains_replaceDocument (hstored : w.dbis.docUrlDb.contains doc.id = true)
    (operations : DocumentOperations) (i : DocId) :
    (w.replaceDocument doc operations).dbis.docUrlDb.contains i = w.dbis.docUrlDb.contains i := by
  obtain ⟨docTermsDb, docXattrTermsDb, docFilenameTermsDb, hframe⟩ := w.replaceDocument_frame doc operations
  rw [hframe, WriteTransaction.replaceData]
  dsimp only
  split
  · rw [DocumentUrlDB.contains, Bool.and_eq_true] at hstored
    rw [DocumentUrlDB.contains, DocumentUrlDB.contains, DocumentUrlDB.updateUrl]
    dsimp only
    split
    · rw [OrdMap.contains_put]
      by_cases hi : i = doc.id
      · rw [hi, hstored.2, Bool.or_true]
      · rw [decide_eq_false hi, Bool.false_or]
    · rfl
  · rfl

end Terms

/-! ## Visits -/

/-- The jobs that enter the paths they are given or that their walks yield. -/
inductive VisitingJob where
  | firstRunIndexer
  | newFileIndexer
  | unindexedFileIndexer
  deriving DecidableEq

/-- A path is handed to one of the jobs. -/
structure Visit where
  job : VisitingJob
  path : QByteArray

namespace Visit

variable (lib : Libraries) (config : FileIndexerConfig) (onlyBasicIndexing : Bool) (fs : Snapshot)

/-- What the job does. -/
def visit (w : WriteTransaction) (v : Visit) : WriteTransaction :=
  match v.job with
  | .firstRunIndexer => FirstRunIndexer.visit lib onlyBasicIndexing fs w v.path
  | .newFileIndexer => NewFileIndexer.visit lib config onlyBasicIndexing fs w v.path
  | .unindexedFileIndexer => UnindexedFileIndexer.visit lib onlyBasicIndexing fs w v.path

/-- What the jobs do with the paths one after another. -/
def run (visits : List Visit) : WriteTransaction := visits.foldl (visit lib config onlyBasicIndexing fs) {}

/-- The path as it is handed to `BasicIndexingJob`. -/
def filePath (v : Visit) : QByteArray :=
  match v.job with
  | .newFileIndexer => chop v.path
  | _ => v.path

/-- The path that is to be indexed. -/
def target (v : Visit) : QByteArray := chop v.filePath

/-- The job wants the path: `NewFileIndexer` asks the configuration, the others take what their walks
yield. -/
def Wanted (v : Visit) : Prop :=
  v.job = .newFileIndexer →
    ¬ (fs.lstat v.filePath ≠ none ∧ (fs.stat v.filePath).isSymLink = true) ∧
      if fs.lstat v.filePath ≠ none ∧ (fs.stat v.filePath).isDir = true then
        config.shouldFolderBeIndexed (lib.decodeName v.filePath) = true
      else config.shouldFileBeIndexed (decodedName lib v.filePath) = true

/-- The job wants the path, and the path and its directory exist. -/
structure Reaches (v : Visit) : Prop where
  wanted : v.Wanted lib config fs
  lstat : fs.lstat v.target ≠ none
  directory : fs.lstat (left v.target (lastIndexOf slash v.target)) ≠ none

/-- The path is reached, and before that no path below it has been. -/
def ReachedFirst (visits : List Visit) (path : QByteArray) : Prop :=
  ∃ before v after, visits = before ++ v :: after ∧ v.Reaches lib config fs ∧ v.target = path ∧
    ∀ u ∈ before, u.Reaches lib config fs → ¬ IsAncestor path u.target

/-- What the check for unindexed files replaces in a stored document; nothing if it does not select the
path. -/
def operations (db : Database) (v : Visit) : DocumentOperations :=
  let it := UnIndexedFileIterator.check lib fs db v.path
  if it.shouldIndex then
    UnindexedFileIndexer.operations onlyBasicIndexing db it (fs.filePathToId v.target) v.path
  else {}

/-- The check for unindexed files is to replace a family of the terms of the path. -/
def Replaced (visits : List Visit) (path : QByteArray) (f : Family) : Prop :=
  ∃ before v after, visits = before ++ v :: after ∧ v.Reaches lib config fs ∧ v.target = path ∧
    v.job = .unindexedFileIndexer ∧
    (v.operations lib onlyBasicIndexing fs (run lib config onlyBasicIndexing fs before).dbis).replaces f = true

/-- A family of the terms of the path is written. -/
def Written (visits : List Visit) (path : QByteArray) (f : Family) : Prop :=
  ReachedFirst lib config fs visits path ∨ Replaced lib config onlyBasicIndexing fs visits path f

end Visit

/-- The terms of a name. -/
def nameTerms (lib : Libraries) (path : QByteArray) : List Term :=
  (fileNameTerms lib.tokens (decodedName lib path)).keys

/-- The entry of a family in its table is what the jobs make of the path: some terms, and the terms of its
name. -/
def RightTerms (lib : Libraries) (path : QByteArray) : Family → Option QByteArray → Prop
  | .terms, entry => ∃ list, list ≠ [] ∧ entry = termsEntry list
  | .xattrTerms, _ => True
  | .fileNameTerms, entry => entry = termsEntry (nameTerms lib path)

/-- The tables hold the terms of a document: some terms, and those of its name. -/
def Documented (lib : Libraries) (db : Database) (id : DocId) (path : QByteArray) : Prop :=
  ∀ f, RightTerms lib path f (OrdMap.get (db.termsDb f) id)

namespace Visit

variable {lib : Libraries} {config : FileIndexerConfig} {onlyBasicIndexing : Bool} {fs : Snapshot}
  {w : WriteTransaction} {v : Visit} {visits : List Visit} {path : QByteArray}

theorem reachedFirst_append : ReachedFirst lib config fs (visits ++ [v]) path ↔
    ReachedFirst lib config fs visits path ∨ v.Reaches lib config fs ∧ v.target = path ∧
      ∀ u ∈ visits, u.Reaches lib config fs → ¬ IsAncestor path u.target :=
  Since.exists_split_snoc (P := fun before (u : Visit) => u.Reaches lib config fs ∧ u.target = path ∧
    ∀ u' ∈ before, u'.Reaches lib config fs → ¬ IsAncestor path u'.target)

theorem replaced_append {f : Family} : Replaced lib config onlyBasicIndexing fs (visits ++ [v]) path f ↔
    Replaced lib config onlyBasicIndexing fs visits path f ∨ v.Reaches lib config fs ∧ v.target = path ∧
      v.job = .unindexedFileIndexer ∧
      (v.operations lib onlyBasicIndexing fs (run lib config onlyBasicIndexing fs visits).dbis).replaces f =
        true :=
  Since.exists_split_snoc (P := fun before (u : Visit) => u.Reaches lib config fs ∧ u.target = path ∧
    u.job = .unindexedFileIndexer ∧
    (u.operations lib onlyBasicIndexing fs (run lib config onlyBasicIndexing fs before).dbis).replaces f = true)

/-- If a path is reached and nothing below it is, it is reached first. -/
theorem reachedFirst_of_mem (hv : v ∈ visits) (hreaches : v.Reaches lib config fs)
    (hbelow : ∀ u ∈ visits, u.Reaches lib config fs → ¬ IsAncestor v.target u.target) :
    ReachedFirst lib config fs visits v.target := by
  obtain ⟨before, after, rfl⟩ := List.append_of_mem hv
  exact ⟨before, v, after, rfl, hreaches, rfl, fun u hu => hbelow u (List.mem_append_left _ hu)⟩

/-- An entry that is not stored is selected by the check. -/
theorem check_fresh {db : Database} {path : QByteArray} {id : DocId} (h : TimesStored db)
    (hid : fs.lstat (chop path) = some id) (hfresh : db.docUrlDb.contains id = false) :
    (UnIndexedFileIterator.check lib fs db path).shouldIndex = true := by
  by_contra hnot
  rw [Bool.not_eq_true, check_iff h hid] at hnot
  exact absurd (hfresh.symm.trans hnot.stored) Bool.false_ne_true

/-- The mimetypes the jobs ask for have terms. -/
theorem terms_of_describes {mimetype : List QChar} {filePath : QByteArray} {doc : Document}
    (hdescribes : BasicIndexingJob.Describes lib fs filePath mimetype doc)
    (hmimetype : (fs.stat (chop filePath)).isDir = true ∨ mimetype = lib.mimeTypeForFile filePath) :
    doc.terms.keys ≠ [] :=
  hdescribes.terms (hmimetype.imp_right fun h => by rw [h]; exact lib.mimetypeTerms filePath)

/-- What a job does with a path: nothing if the path is not reached; otherwise it adds the document, unless
the id is stored. Then the check for unindexed files may replace the document. -/
inductive Visited (lib : Libraries) (config : FileIndexerConfig) (onlyBasicIndexing : Bool) (fs : Snapshot)
    (v : Visit) (w : WriteTransaction) : WriteTransaction → Prop
  | skipped : ¬ v.Reaches lib config fs → Visited lib config onlyBasicIndexing fs v w w
  | added (mimetype : List QChar) (doc : Document) :
    v.Reaches lib config fs → BasicIndexingJob.Describes lib fs v.filePath mimetype doc →
    doc.terms.keys ≠ [] → w.dbis.docUrlDb.contains doc.id = false →
    Visited lib config onlyBasicIndexing fs v w (w.addDocument fs.toFileSystem doc)
  | known (mimetype : List QChar) (doc : Document) :
    v.Reaches lib config fs → BasicIndexingJob.Describes lib fs v.filePath mimetype doc →
    w.dbis.docUrlDb.contains doc.id = true →
    (v.job = .unindexedFileIndexer → v.operations lib onlyBasicIndexing fs w.dbis = {}) →
    Visited lib config onlyBasicIndexing fs v w w
  | replaced (mimetype : List QChar) (doc : Document) :
    v.Reaches lib config fs → BasicIndexingJob.Describes lib fs v.filePath mimetype doc →
    doc.terms.keys ≠ [] → w.dbis.docUrlDb.contains doc.id = true → v.job = .unindexedFileIndexer →
    Visited lib config onlyBasicIndexing fs v w
      (w.replaceDocument doc (v.operations lib onlyBasicIndexing fs w.dbis))

/-- A job adds a document unless its id is stored. -/
theorem Visited.of_document {mimetype : List QChar} {doc : Document} (hreaches : v.Reaches lib config fs)
    (hdescribes : BasicIndexingJob.Describes lib fs v.filePath mimetype doc) (hterms : doc.terms.keys ≠ [])
    (hjob : v.job ≠ .unindexedFileIndexer) : Visited lib config onlyBasicIndexing fs v w
      (if w.dbis.docUrlDb.contains doc.id then w else w.addDocument fs.toFileSystem doc) := by
  split
  · next hstored => exact .known mimetype doc hreaches hdescribes hstored fun h => absurd h hjob
  · next hfresh => exact .added mimetype doc hreaches hdescribes hterms (Bool.eq_false_iff.mpr hfresh)

/-- The document is made only if the path and its directory exist. -/
theorem not_reaches_of_index {mimetype : List QChar} {level : IndexingLevel}
    (hindex : BasicIndexingJob.index lib fs v.filePath mimetype level = none) : ¬ v.Reaches lib config fs := by
  intro hreaches
  rcases BasicIndexingJob.index_eq_none.mp hindex with hdir | hpath
  · exact hreaches.directory hdir
  · exact hreaches.lstat hpath

theorem reaches_of_index {mimetype : List QChar} {level : IndexingLevel} {doc : Document}
    (hindex : BasicIndexingJob.index lib fs v.filePath mimetype level = some doc)
    (hwanted : v.Wanted lib config fs) : v.Reaches lib config fs := by
  have hdescribes := BasicIndexingJob.index_describes hindex
  refine ⟨hwanted, ?_, ?_⟩
  · rw [target, hdescribes.id]
    exact Option.some_ne_none _
  · rw [target, hdescribes.parentId]
    exact Option.some_ne_none _

theorem visited_firstRun (path : QByteArray) : Visited lib config onlyBasicIndexing fs ⟨.firstRunIndexer, path⟩ w
    (visit lib config onlyBasicIndexing fs w ⟨.firstRunIndexer, path⟩) := by
  have hwanted : Visit.Wanted lib config fs ⟨.firstRunIndexer, path⟩ := VisitingJob.noConfusion
  rw [visit, FirstRunIndexer.visit]
  dsimp only
  split
  · next hindex => exact .skipped (not_reaches_of_index hindex)
  · next doc hindex =>
    have hdescribes := BasicIndexingJob.index_describes hindex
    refine .of_document (reaches_of_index hindex hwanted) hdescribes (terms_of_describes hdescribes ?_)
      VisitingJob.noConfusion
    split
    · next hdir => exact .inl hdir
    · exact .inr rfl

theorem visited_newFile (path : QByteArray) : Visited lib config onlyBasicIndexing fs ⟨.newFileIndexer, path⟩ w
    (visit lib config onlyBasicIndexing fs w ⟨.newFileIndexer, path⟩) := by
  -- what is done with a path that is wanted
  have hadd : ∀ mimetype, Visit.Wanted lib config fs ⟨.newFileIndexer, path⟩ →
      ((fs.stat (chop (chop path))).isDir = true ∨ mimetype = lib.mimeTypeForFile (chop path)) →
      Visited lib config onlyBasicIndexing fs ⟨.newFileIndexer, path⟩ w
        (NewFileIndexer.visit.add lib onlyBasicIndexing fs w mimetype (chop path)) := by
    intro mimetype hwanted hmimetype
    rw [NewFileIndexer.visit.add]
    split
    · next hindex => exact .skipped (not_reaches_of_index hindex)
    · next doc hindex =>
      have hdescribes := BasicIndexingJob.index_describes hindex
      exact .of_document (reaches_of_index hindex hwanted) hdescribes (terms_of_describes hdescribes hmimetype)
        VisitingJob.noConfusion
  rw [visit, NewFileIndexer.visit]
  dsimp only
  by_cases hlink : fs.lstat (chop path) ≠ none ∧ (fs.stat (chop path)).isSymLink = true
  · rw [if_pos hlink]
    exact .skipped fun hreaches => (hreaches.wanted rfl).1 hlink
  · rw [if_neg hlink]
    by_cases hdir : fs.lstat (chop path) ≠ none ∧ (fs.stat (chop path)).isDir = true
    · rw [if_pos hdir]
      rcases hfolder : config.shouldFolderBeIndexed (lib.decodeName (chop path)) with _ | _
      · refine .skipped fun hreaches => ?_
        have hwanted := (hreaches.wanted rfl).2
        rw [filePath, if_pos hdir, hfolder] at hwanted
        cases hwanted
      · refine hadd directoryMimetype (fun _ => ⟨hlink, ?_⟩) (.inl ?_)
        · rw [filePath, if_pos hdir]
          exact hfolder
        · obtain ⟨id, hid⟩ := Option.ne_none_iff_exists'.mp hdir.1
          rw [chop_of_isPath (fs.isPath _ _ hid)]
          exact hdir.2
    · rw [if_neg hdir]
      rcases hfile : config.shouldFileBeIndexed (decodedName lib (chop path)) with _ | _
      · refine .skipped fun hreaches => ?_
        have hwanted := (hreaches.wanted rfl).2
        rw [filePath, if_neg hdir, hfile] at hwanted
        cases hwanted
      · refine hadd _ (fun _ => ⟨hlink, ?_⟩) (.inr rfl)
        rw [filePath, if_neg hdir]
        exact hfile

theorem visited_unindexed (htimes : TimesStored w.dbis) (path : QByteArray) :
    Visited lib config onlyBasicIndexing fs ⟨.unindexedFileIndexer, path⟩ w
      (visit lib config onlyBasicIndexing fs w ⟨.unindexedFileIndexer, path⟩) := by
  have hwanted : Visit.Wanted lib config fs ⟨.unindexedFileIndexer, path⟩ := VisitingJob.noConfusion
  rw [visit, UnindexedFileIndexer.visit]
  dsimp only
  by_cases hindexed : (UnIndexedFileIterator.check lib fs w.dbis path).shouldIndex = true
  · rw [if_pos hindexed]
    split
    · next hindex => exact .skipped (not_reaches_of_index hindex)
    · next doc hindex =>
      have hdescribes := BasicIndexingJob.index_describes hindex
      have hreaches := reaches_of_index hindex hwanted
      have hterms : doc.terms.keys ≠ [] := by
        refine terms_of_describes hdescribes ?_
        rw [UnIndexedFileIterator.check, hdescribes.id]
        dsimp only
        split
        · next hdir => exact .inl hdir
        · exact .inr rfl
      have hoperations : UnindexedFileIndexer.operations onlyBasicIndexing w.dbis
          (UnIndexedFileIterator.check lib fs w.dbis path) doc.id path =
            Visit.operations lib onlyBasicIndexing fs w.dbis ⟨.unindexedFileIndexer, path⟩ := by
        have hid : fs.filePathToId (Visit.target ⟨.unindexedFileIndexer, path⟩) = doc.id :=
          fs.filePathToId_eq hdescribes.id
        rw [operations, if_pos hindexed, hid]
      rw [hoperations]
      split
      · next hstored => exact .replaced _ doc hreaches hdescribes hterms hstored rfl
      · next hfresh => exact .added _ doc hreaches hdescribes hterms (Bool.eq_false_iff.mpr hfresh)
  · rw [if_neg hindexed]
    by_cases hreaches : Visit.Reaches lib config fs ⟨.unindexedFileIndexer, path⟩
    · -- an entry that is not selected is stored
      rcases hindex : BasicIndexingJob.index lib fs path (lib.mimeTypeForFile path)
        (indexingLevel onlyBasicIndexing) with _ | doc
      · exact absurd hreaches (not_reaches_of_index hindex)
      · have hdescribes := BasicIndexingJob.index_describes hindex
        refine .known _ doc hreaches hdescribes ?_ fun _ => ?_
        · by_contra hfresh
          exact hindexed (check_fresh htimes hdescribes.id (Bool.eq_false_iff.mpr hfresh))
        · rw [operations, if_neg hindexed]
    · exact .skipped hreaches

theorem visited_visit (lib : Libraries) (config : FileIndexerConfig) (onlyBasicIndexing : Bool) (fs : Snapshot)
    (htimes : TimesStored w.dbis) : ∀ v : Visit,
    Visited lib config onlyBasicIndexing fs v w (v.visit lib config onlyBasicIndexing fs w)
  | ⟨.firstRunIndexer, path⟩ => visited_firstRun path
  | ⟨.newFileIndexer, path⟩ => visited_newFile path
  | ⟨.unindexedFileIndexer, path⟩ => visited_unindexed htimes path

/-! ## What the visits leave -/

/-- What the index holds after some visits. -/
structure Tracks (lib : Libraries) (config : FileIndexerConfig) (onlyBasicIndexing : Bool)
    (tree : DirectoryTree) (visits : List Visit) (w : WriteTransaction) : Prop where
  /-- only stored entries have records of times -/
  times : TimesStored w.dbis
  /-- stored are the paths that have been reached, and the directories above them -/
  stored : ∀ p i, tree.lstat p = some i → (w.dbis.docUrlDb.contains i = true ↔
    ∃ v ∈ visits, v.Reaches lib config tree.toSnapshot ∧ (p = v.target ∨ IsAncestor p v.target))
  /-- what is not stored has no terms -/
  unknown : ∀ i, w.dbis.docUrlDb.contains i = false → ∀ f, OrdMap.get (w.dbis.termsDb f) i = none
  /-- a family that has been written is right -/
  written : ∀ p i f, tree.lstat p = some i → Written lib config onlyBasicIndexing tree.toSnapshot visits p f →
    RightTerms lib p f (OrdMap.get (w.dbis.termsDb f) i)
  /-- a family that has not been written is not there -/
  pathOnly : ∀ p i f, tree.lstat p = some i →
    ¬ Written lib config onlyBasicIndexing tree.toSnapshot visits p f → OrdMap.get (w.dbis.termsDb f) i = none

variable {tree : DirectoryTree} {p : QByteArray} {i : DocId}

theorem Tracks.nil : Tracks lib config onlyBasicIndexing tree [] {} where
  times i hi := by
    change (∅ : DocumentTimeDB).contains i = true at hi
    rw [OrdMap.contains_empty] at hi
    cases hi
  stored p i _ := by
    refine iff_of_false ?_ (by simp)
    rw [Bool.not_eq_true, DocumentUrlDB.contains]
    exact Bool.and_eq_false_imp.mpr fun _ => OrdMap.contains_empty i
  unknown i _ f := by cases f <;> exact OrdMap.get_empty i
  written p i f _ h := by
    rcases h with ⟨before, v, after, heq, -⟩ | ⟨before, v, after, heq, -⟩ <;> simp at heq
  pathOnly p i f _ _ := by cases f <;> exact OrdMap.get_empty i

/-- A visit to a path that is stored, or not reached, does not change what has been reached first. -/
theorem Tracks.reachedFirst_append_iff (h : Tracks lib config onlyBasicIndexing tree visits w)
    (hv : v.Reaches lib config tree.toSnapshot →
      ∃ i, tree.lstat v.target = some i ∧ w.dbis.docUrlDb.contains i = true) :
    ReachedFirst lib config tree.toSnapshot (visits ++ [v]) p ↔
      ReachedFirst lib config tree.toSnapshot visits p := by
  refine reachedFirst_append.trans (or_iff_left_of_imp ?_)
  rintro ⟨hreaches, rfl, hbelow⟩
  obtain ⟨i, hid, hstored⟩ := hv hreaches
  obtain ⟨u, hu, hureaches, htarget | habove⟩ := (h.stored _ i hid).mp hstored
  · rw [htarget] at hbelow ⊢
    exact reachedFirst_of_mem hu hureaches hbelow
  · exact absurd habove (hbelow u hu hureaches)

/-- Nor does it change what is stored. -/
theorem Tracks.stored_append (h : Tracks lib config onlyBasicIndexing tree visits w)
    (hv : v.Reaches lib config tree.toSnapshot →
      ∃ i, tree.lstat v.target = some i ∧ w.dbis.docUrlDb.contains i = true)
    (hid : tree.lstat p = some i) : w.dbis.docUrlDb.contains i = true ↔
      ∃ u ∈ visits ++ [v], u.Reaches lib config tree.toSnapshot ∧ (p = u.target ∨ IsAncestor p u.target) := by
  rw [h.stored p i hid]
  constructor
  · rintro ⟨u, hu, hrest⟩
    exact ⟨u, List.mem_append_left _ hu, hrest⟩
  · rintro ⟨u, hu, hreaches, hp⟩
    rcases List.mem_append.mp hu with hu | hu
    · exact ⟨u, hu, hreaches, hp⟩
    · obtain rfl := List.mem_singleton.mp hu
      obtain ⟨j, hj, hstored⟩ := hv hreaches
      obtain ⟨u', hu', hreaches', htarget | habove⟩ := (h.stored _ j hj).mp hstored
      · rw [htarget] at hp
        exact ⟨u', hu', hreaches', hp⟩
      · refine ⟨u', hu', hreaches', .inr ?_⟩
        rcases hp with rfl | hp
        · exact habove
        · exact hp.trans habove

/-- A visit to a path that is stored, or not reached, without anything to replace. -/
theorem Tracks.same (h : Tracks lib config onlyBasicIndexing tree visits w)
    (hv : v.Reaches lib config tree.toSnapshot →
      ∃ i, tree.lstat v.target = some i ∧ w.dbis.docUrlDb.contains i = true)
    (hoperations : v.Reaches lib config tree.toSnapshot → v.job = .unindexedFileIndexer →
      v.operations lib onlyBasicIndexing tree.toSnapshot
        (Visit.run lib config onlyBasicIndexing tree.toSnapshot visits).dbis = {}) :
    Tracks lib config onlyBasicIndexing tree (visits ++ [v]) w := by
  have hwritten : ∀ p f, Written lib config onlyBasicIndexing tree.toSnapshot (visits ++ [v]) p f ↔
      Written lib config onlyBasicIndexing tree.toSnapshot visits p f := by
    intro p f
    refine or_congr (h.reachedFirst_append_iff hv) (replaced_append.trans (or_iff_left ?_))
    rintro ⟨hreaches, -, hjob, hreplaces⟩
    rw [hoperations hreaches hjob] at hreplaces
    cases f <;> cases hreplaces
  exact ⟨h.times, fun p i hid => h.stored_append hv hid, h.unknown,
    fun p i f hid hnew => h.written p i f hid ((hwritten p f).mp hnew),
    fun p i f hid hnot => h.pathOnly p i f hid fun hold => hnot ((hwritten p f).mpr hold)⟩

/-- What a document of a path brings is right. -/
theorem rightTerms_of_describes {mimetype : List QChar} {filePath : QByteArray} {doc : Document}
    (hdescribes : BasicIndexingJob.Describes lib fs filePath mimetype doc) (hterms : doc.terms.keys ≠ [])
    (f : Family) : RightTerms lib (chop filePath) f (termsEntry (doc.family f).keys) := by
  cases f with
  | terms => exact ⟨_, hterms, rfl⟩
  | xattrTerms => trivial
  | fileNameTerms =>
    rw [RightTerms, Document.family, hdescribes.fileNameTerms]
    rfl

/-- A document is replaced with what its path says. -/
theorem Tracks.replaced (h : Tracks lib config onlyBasicIndexing tree visits w) {mimetype : List QChar}
    {doc : Document} (hw : w = Visit.run lib config onlyBasicIndexing tree.toSnapshot visits)
    (hreaches : v.Reaches lib config tree.toSnapshot)
    (hdescribes : BasicIndexingJob.Describes lib tree.toSnapshot v.filePath mimetype doc)
    (hterms : doc.terms.keys ≠ []) (hstored : w.dbis.docUrlDb.contains doc.id = true)
    (hjob : v.job = .unindexedFileIndexer) : Tracks lib config onlyBasicIndexing tree (visits ++ [v])
      (w.replaceDocument doc (v.operations lib onlyBasicIndexing tree.toSnapshot w.dbis)) where
  times := h.times.replaceDocument hstored
  stored p i hid := by
    rw [contains_replaceDocument hstored]
    exact h.stored_append (fun _ => ⟨doc.id, hdescribes.id, hstored⟩) hid
  unknown i hi f := by
    rw [contains_replaceDocument hstored] at hi
    rcases get_replaceDocument w hterms (v.operations lib onlyBasicIndexing tree.toSnapshot w.dbis) f i with
      ⟨hsame, -⟩ | ⟨rfl, -⟩
    · rw [hsame]
      exact h.unknown i hi f
    · exact absurd (hi.symm.trans hstored) Bool.false_ne_true
  written p i f hid hnew := by
    rcases get_replaceDocument w hterms (v.operations lib onlyBasicIndexing tree.toSnapshot w.dbis) f i with
      ⟨hsame, hnil⟩ | ⟨rfl, -, hget⟩
    · rw [hsame]
      by_cases hold : Written lib config onlyBasicIndexing tree.toSnapshot visits p f
      · exact h.written p i f hid hold
      · -- nothing was there, and nothing is to be written
        have hnone := h.pathOnly p i f hid hold
        have hv := h.reachedFirst_append_iff (p := p) fun _ => ⟨doc.id, hdescribes.id, hstored⟩
        obtain ⟨-, rfl, -, hreplaces⟩ := ((replaced_append.mp
          (hnew.resolve_left fun hfirst => hold (.inl (hv.mp hfirst)))).resolve_left fun hr => hold (.inr hr))
        obtain rfl : i = doc.id := Option.some.inj (hid.symm.trans hdescribes.id)
        have hright := rightTerms_of_describes hdescribes hterms f
        rw [hnil (hw ▸ hreplaces) rfl hnone, termsEntry, if_pos rfl] at hright
        rw [hnone]
        exact hright
    · obtain rfl := tree.injective _ _ _ hid hdescribes.id
      rw [hget]
      exact rightTerms_of_describes hdescribes hterms f
  pathOnly p i f hid hnot := by
    rcases get_replaceDocument w hterms (v.operations lib onlyBasicIndexing tree.toSnapshot w.dbis) f i with
      ⟨hsame, -⟩ | ⟨rfl, hreplaces, -⟩
    · rw [hsame]
      refine h.pathOnly p i f hid fun hold => hnot ?_
      rcases hold with hfirst | hreplaced
      · exact .inl (reachedFirst_append.mpr (.inl hfirst))
      · exact .inr (replaced_append.mpr (.inl hreplaced))
    · obtain rfl := tree.injective _ _ _ hid hdescribes.id
      exact absurd (.inr (replaced_append.mpr (.inr ⟨hreaches, rfl, hjob, hw ▸ hreplaces⟩))) hnot

/-- Adding a document stores its path, and the directories above it. -/
theorem Tracks.stored_added (h : Tracks lib config onlyBasicIndexing tree visits w) {mimetype : List QChar}
    {doc : Document} (hreaches : v.Reaches lib config tree.toSnapshot)
    (hdescribes : BasicIndexingJob.Describes lib tree.toSnapshot v.filePath mimetype doc)
    (hfresh : w.dbis.docUrlDb.contains doc.id = false) (hid : tree.lstat p = some i) :
    (WriteTransaction.addUrl tree.toFileSystem w.dbis.docUrlDb doc).1.contains i = true ↔
      ∃ u ∈ visits ++ [v], u.Reaches lib config tree.toSnapshot ∧ (p = u.target ∨ IsAncestor p u.target) := by
  have hurl : doc.url = v.target := hdescribes.url
  have hne : doc.id ≠ 0 := fun h0 => tree.ne_zero _ (h0 ▸ hdescribes.id)
  obtain ⟨hkept, -⟩ := contains_addUrl tree.toFileSystem w.dbis.docUrlDb doc
  have hi : i ≠ 0 := fun h0 => tree.ne_zero _ (h0 ▸ hid)
  constructor
  · intro hcontains
    by_cases hold : w.dbis.docUrlDb.contains i = true
    · obtain ⟨u, hu, hrest⟩ := (h.stored p i hid).mp hold
      exact ⟨u, List.mem_append_left _ hu, hrest⟩
    · refine ⟨v, by simp, hreaches, ?_⟩
      rw [← hurl]
      have hnone : w.dbis.docUrlDb.idFilenameDb.get doc.id = none := by
        rw [DocumentUrlDB.contains, decide_eq_true hne, Bool.true_and, OrdMap.contains] at hfresh
        exact Option.isNone_iff_eq_none.mp (Option.isSome_eq_false_iff.mp hfresh)
      rcases hdescribes.addUrl_enters hnone i with hsame | ⟨-, q, hq, hqi, -⟩
      · rw [DocumentUrlDB.contains, OrdMap.contains, hsame] at hcontains
        exact absurd hcontains hold
      · rwa [tree.injective _ _ _ hid hqi]
  · rintro ⟨u, hu, hureaches, hp⟩
    rcases List.mem_append.mp hu with hu | hu
    · exact hkept i ((h.stored p i hid).mpr ⟨u, hu, hureaches, hp⟩)
    · obtain rfl := List.mem_singleton.mp hu
      rw [← hurl] at hp
      rw [DocumentUrlDB.contains, decide_eq_true hi, Bool.true_and]
      refine hdescribes.addUrl_stores (fun d hd => ?_) (fun q j hq hj d k hd hk => ?_) hp hid
      · rw [hurl] at hd
        exact tree.closed _ _ hdescribes.id d hd
      · have hj0 : j ≠ 0 := fun h0 => tree.ne_zero _ (h0 ▸ hq)
        have hj' : w.dbis.docUrlDb.contains j = true := by
          rw [DocumentUrlDB.contains, hj, decide_eq_true hj0]
          rfl
        obtain ⟨u', hu', hreaches', hq'⟩ := (h.stored q j hq).mp hj'
        have hk' := (h.stored d k hk).mpr ⟨u', hu', hreaches', .inr ?_⟩
        · rw [DocumentUrlDB.contains, Bool.and_eq_true] at hk'
          exact hk'.2
        · rcases hq' with rfl | hq'
          · exact hd
          · exact hd.trans hq'

/-- A document that is not stored is added. -/
theorem Tracks.added (h : Tracks lib config onlyBasicIndexing tree visits w) {mimetype : List QChar}
    {doc : Document} (hreaches : v.Reaches lib config tree.toSnapshot)
    (hdescribes : BasicIndexingJob.Describes lib tree.toSnapshot v.filePath mimetype doc)
    (hterms : doc.terms.keys ≠ []) (hfresh : w.dbis.docUrlDb.contains doc.id = false) :
    Tracks lib config onlyBasicIndexing tree (visits ++ [v]) (w.addDocument tree.toFileSystem doc) := by
  have hflag : (WriteTransaction.addUrl tree.toFileSystem w.dbis.docUrlDb doc).2 = true := by
    obtain ⟨dir, name, -, hdocUrl, hname, hslash, hdir, hid, -⟩ := hdescribes.split
    rw [addUrl_eq _ _ hdocUrl hdir hname hslash hid]
  have hdb : (w.addDocument tree.toFileSystem doc).dbis.docUrlDb =
      (WriteTransaction.addUrl tree.toFileSystem w.dbis.docUrlDb doc).1 := docUrlDb_addDocument _ _ _
  obtain ⟨hkept, hself⟩ := contains_addUrl tree.toFileSystem w.dbis.docUrlDb doc
  have hget := fun f i => @get_addDocument w doc tree.toFileSystem hflag hterms f i (h.unknown _ hfresh f)
  have hnew : ∀ {p i}, tree.lstat p = some i → (p = v.target ↔ i = doc.id) := fun {p i} hid =>
    ⟨fun hp => Option.some.inj (hid.symm.trans (hp ▸ hdescribes.id)),
      fun hi => tree.injective _ _ _ hid (hi ▸ hdescribes.id)⟩
  -- the path has not been reached before
  have hfirst : ReachedFirst lib config tree.toSnapshot (visits ++ [v]) v.target := by
    refine reachedFirst_append.mpr (.inr ⟨hreaches, rfl, fun u hu hureaches habove => ?_⟩)
    have hstored := (h.stored _ _ hdescribes.id).mpr ⟨u, hu, hureaches, .inr habove⟩
    exact absurd (hfresh.symm.trans hstored) Bool.false_ne_true
  refine ⟨h.times.addDocument tree.toFileSystem doc, fun p i hid => ?_, fun i hi f => ?_,
    fun p i f hid hwritten => ?_, fun p i f hid hnot => ?_⟩
  · rw [hdb]
    exact h.stored_added hreaches hdescribes hfresh hid
  · rw [hdb] at hi
    have hne' : i ≠ doc.id := by
      rintro rfl
      exact absurd (hi.symm.trans (hself hflag)) Bool.false_ne_true
    rw [hget, if_neg hne']
    refine h.unknown i ?_ f
    by_contra hold
    rw [Bool.not_eq_false] at hold
    exact absurd (hi.symm.trans (hkept i hold)) Bool.false_ne_true
  · rw [hget]
    split
    · next hi =>
      obtain rfl := (hnew hid).mpr hi
      exact rightTerms_of_describes hdescribes hterms f
    · next hi =>
      refine h.written p i f hid ?_
      rcases hwritten with hwritten | hwritten
      · rcases reachedFirst_append.mp hwritten with hold | ⟨-, htarget, -⟩
        · exact .inl hold
        · exact absurd ((hnew hid).mp htarget.symm) hi
      · rcases replaced_append.mp hwritten with hold | ⟨-, htarget, -⟩
        · exact .inr hold
        · exact absurd ((hnew hid).mp htarget.symm) hi
  · have hi : i ≠ doc.id := by
      intro hi
      obtain rfl := (hnew hid).mpr hi
      exact hnot (.inl hfirst)
    rw [hget, if_neg hi]
    refine h.pathOnly p i f hid fun hold => hnot ?_
    rcases hold with hold | hold
    · exact .inl (reachedFirst_append.mpr (.inl hold))
    · exact .inr (replaced_append.mpr (.inl hold))

/-- One visit. -/
theorem Tracks.visit
    (h : Tracks lib config onlyBasicIndexing tree visits
      (Visit.run lib config onlyBasicIndexing tree.toSnapshot visits)) (v : Visit) :
    Tracks lib config onlyBasicIndexing tree (visits ++ [v])
      (Visit.run lib config onlyBasicIndexing tree.toSnapshot (visits ++ [v])) := by
  have hrun : Visit.run lib config onlyBasicIndexing tree.toSnapshot (visits ++ [v]) =
      v.visit lib config onlyBasicIndexing tree.toSnapshot
        (Visit.run lib config onlyBasicIndexing tree.toSnapshot visits) := List.foldl_append
  rw [hrun]
  have hstep := visited_visit lib config onlyBasicIndexing tree.toSnapshot h.times v
  generalize v.visit lib config onlyBasicIndexing tree.toSnapshot _ = w' at hstep ⊢
  cases hstep with
  | skipped hnot =>
    exact h.same (fun hreaches => absurd hreaches hnot) fun hreaches => absurd hreaches hnot
  | added mimetype doc hreaches hdescribes hterms hfresh => exact h.added hreaches hdescribes hterms hfresh
  | known mimetype doc _ hdescribes hstored hoperations =>
    exact h.same (fun _ => ⟨doc.id, hdescribes.id, hstored⟩) fun _ => hoperations
  | replaced mimetype doc hreaches hdescribes hterms hstored hjob =>
    exact h.replaced rfl hreaches hdescribes hterms hstored hjob

/-- The invariant of the runs. -/
theorem Tracks.run (lib : Libraries) (config : FileIndexerConfig) (onlyBasicIndexing : Bool)
    (tree : DirectoryTree) (visits : List Visit) : Tracks lib config onlyBasicIndexing tree visits
      (Visit.run lib config onlyBasicIndexing tree.toSnapshot visits) := by
  induction visits using List.reverseRecOn with
  | nil => exact .nil
  | append_singleton visits v ih => exact ih.visit v

end Visit

/-- **Which paths get a document.** A path has its document in the end, with content terms and the terms of
its name, exactly if it is reached before everything below it, or else the check for unindexed files
replaces its content terms and the terms of its name, if there are any. -/
theorem document_visits (lib : Libraries) (config : FileIndexerConfig) (onlyBasicIndexing : Bool)
    (tree : DirectoryTree) (visits : List Visit) {path : QByteArray} {id : DocId}
    (hid : tree.lstat path = some id) :
    Documented lib (Visit.run lib config onlyBasicIndexing tree.toSnapshot visits).dbis id path ↔
      Visit.ReachedFirst lib config tree.toSnapshot visits path ∨
      Visit.Replaced lib config onlyBasicIndexing tree.toSnapshot visits path .terms ∧
        (nameTerms lib path = [] ∨
          Visit.Replaced lib config onlyBasicIndexing tree.toSnapshot visits path .fileNameTerms) := by
  have htracks := Visit.Tracks.run lib config onlyBasicIndexing tree visits
  have hright := fun f => htracks.written path id f hid
  have hnone := fun f => htracks.pathOnly path id f hid
  constructor
  · intro hdocumented
    by_cases hfirst : Visit.ReachedFirst lib config tree.toSnapshot visits path
    · exact .inl hfirst
    · refine .inr ⟨?_, ?_⟩
      · by_contra hnot
        obtain ⟨list, hne, hlist⟩ := hdocumented .terms
        rw [hnone .terms (not_or.mpr ⟨hfirst, hnot⟩), termsEntry, if_neg hne] at hlist
        cases hlist
      · by_contra hnot
        obtain ⟨hne, hnot⟩ := not_or.mp hnot
        have hnames : OrdMap.get _ id = termsEntry (nameTerms lib path) := hdocumented .fileNameTerms
        rw [hnone .fileNameTerms (not_or.mpr ⟨hfirst, hnot⟩), termsEntry, if_neg hne] at hnames
        cases hnames
  · rintro (hfirst | ⟨hterms, hnames⟩) f
    · exact hright f (.inl hfirst)
    · cases f with
      | terms => exact hright .terms (.inr hterms)
      | xattrTerms => trivial
      | fileNameTerms =>
        by_cases hwritten : Visit.Written lib config onlyBasicIndexing tree.toSnapshot visits path .fileNameTerms
        · exact hright .fileNameTerms hwritten
        · have hnil := hnames.resolve_right fun hreplaced => hwritten (.inr hreplaced)
          rw [RightTerms, hnone .fileNameTerms hwritten, hnil]
          rfl

/-- The directories `/p`, `/p/d` and `/p/d/x`. -/
def dAndX : DirectoryTree :=
  .ofEntries [{ components := [[112]], id := 5, stat := { isDir := true, mTime := 1, cTime := 1 } },
    { components := [[112], [100]], id := 1, stat := { isDir := true, mTime := 1, cTime := 1 } },
    { components := [[112], [100], [120]], id := 2, stat := { isDir := true, mTime := 1, cTime := 1 } }]
    (by decide) (by decide)

theorem document_visits_dAndX : Documented asciiLibraries
    (Visit.run asciiLibraries noFolders false dAndX.toSnapshot
      [⟨.firstRunIndexer, [47, 112, 47, 100, 47]⟩, ⟨.firstRunIndexer, [47, 112, 47, 100, 47, 120]⟩]).dbis 1
    [47, 112, 47, 100] := by
  have hreaches : Visit.Reaches asciiLibraries noFolders dAndX.toSnapshot
      ⟨.firstRunIndexer, [47, 112, 47, 100, 47]⟩ := ⟨VisitingJob.noConfusion, by decide, by decide⟩
  refine (document_visits asciiLibraries noFolders false dAndX _ (by decide)).mpr (.inl ?_)
  exact ⟨[], _, _, rfl, hreaches, by decide, fun u hu => absurd hu List.not_mem_nil⟩

/-- `/p/d` and `/p/d/x` are included. -/
def nestedFolders : FileIndexerConfig :=
  .load id { folders := [[47, 112, 47, 100], [47, 112, 47, 100, 47, 120]], excludedFolders := []
             indexHiddenFolders := false } [] fun _ => false

/-- The walks of the first run, the outer folder once more as a new path, and the walks of the check. -/
def nestedVisits : List Visit :=
  [⟨.firstRunIndexer, [47, 112, 47, 100, 47, 120, 47]⟩, ⟨.firstRunIndexer, [47, 112, 47, 100, 47]⟩,
    ⟨.firstRunIndexer, [47, 112, 47, 100, 47, 120]⟩, ⟨.newFileIndexer, [47, 112, 47, 100]⟩,
    ⟨.unindexedFileIndexer, [47, 112, 47, 100, 47, 120, 47]⟩,
    ⟨.unindexedFileIndexer, [47, 112, 47, 100, 47]⟩, ⟨.unindexedFileIndexer, [47, 112, 47, 100, 47, 120]⟩]

/-- The walk through the inner folder comes first and enters the path of the outer one, which none of the
jobs makes a document of then. -/
theorem outer_folder_skipped :
    nestedFolders.includeFolders = [[47, 112, 47, 100, 47, 120, 47], [47, 112, 47, 100, 47]] ∧
    ¬ ∀ v ∈ nestedVisits, v.Wanted asciiLibraries nestedFolders dAndX.toSnapshot →
      ∀ id, dAndX.lstat v.target = some id →
      Documented asciiLibraries
        (Visit.run asciiLibraries nestedFolders false dAndX.toSnapshot nestedVisits).dbis id v.target := by
  refine ⟨by decide, fun h => ?_⟩
  have hdocumented := h ⟨.firstRunIndexer, [47, 112, 47, 100, 47]⟩ (by simp [nestedVisits])
    VisitingJob.noConfusion 1 (by decide)
  obtain ⟨list, hne, hlist⟩ := hdocumented .terms
  have hnone : OrdMap.get ((Visit.run asciiLibraries nestedFolders false dAndX.toSnapshot
      nestedVisits).dbis.termsDb .terms) 1 = none := by decide +kernel
  rw [hnone, termsEntry, if_neg hne] at hlist
  cases hlist

end Baloo
