import Baloo.DocumentVisits
import Baloo.PathLookup
import Baloo.Reindexing

/-!
# One path, one document

`UnindexedFileIndexer` decides by the id of a path whether it adds a document or replaces one. A file that
has been replaced by another one, while nobody was watching, comes with a new id; the entry of the old one
stays at its place. So after the check exactly one entry is at every path that it yielded, if there is no
such entry (`one_path`), as long as what the check does not yield is where it belongs, and what it yields is
written where it belongs.
-/

namespace Baloo

section Places

variable {fs : FileSystem} {path path' : QByteArray} {i j : DocId}

/-- Different paths have different places. -/
theorem FileSystem.place_inj (hi : fs.lstat path = some i) (hj : fs.lstat path' = some j)
    (hdir : ∀ dir, IsAncestor dir path → fs.lstat dir ≠ none)
    (hdir' : ∀ dir, IsAncestor dir path' → fs.lstat dir ≠ none) (h : fs.place path = fs.place path') :
    path = path' := by
  obtain ⟨dir, name, rfl, -, hslash⟩ := (fs.isPath path i hi).split
  obtain ⟨dir', name', rfl, -, hslash'⟩ := (fs.isPath path' j hj).split
  rw [fs.place_append hslash, fs.place_append hslash', FilePath.mk.injEq] at h
  obtain ⟨hparent, rfl⟩ := h
  -- a directory has an id, which the root has not
  have hid : ∀ {d n}, (∀ dir, IsAncestor dir (d ++ slash :: n) → fs.lstat dir ≠ none) → d ≠ [] →
      fs.lstat d = some (fs.filePathToId d) := by
    intro d n hd hne
    obtain ⟨k, hk⟩ := Option.ne_none_iff_exists'.mp (hd d ⟨hne, n, rfl⟩)
    rw [fs.filePathToId_eq hk, hk]
  have hroot : fs.filePathToId [] = 0 := by rw [filePathToId, fs.lstat_nil, Option.getD_none]
  by_cases hne : dir = []
  · by_cases hne' : dir' = []
    · rw [hne, hne']
    · have hlstat := hid hdir' hne'
      rw [← hparent, hne, hroot] at hlstat
      exact absurd hlstat (fs.ne_zero dir')
  · have hlstat := hid hdir hne
    by_cases hne' : dir' = []
    · rw [hparent, hne', hroot] at hlstat
      exact absurd hlstat (fs.ne_zero dir)
    · have hlstat' := hid hdir' hne'
      rw [← hparent] at hlstat'
      rw [fs.injective _ _ _ hlstat hlstat']

end Places

namespace DocumentUrlDB

variable {db : DocumentUrlDB} {fs : FileSystem} {arr : QByteArray} {id : DocId}

/-- The entries of a directory have a directory, as far as `P` does not promise one. -/
def Grounded (P : DocId → Prop) (db : DocumentUrlDB) : Prop :=
  ∀ i path, db.idFilenameDb.get i = some path →
    path.parentId = 0 ∨ db.idFilenameDb.contains path.parentId = true ∨ P path.parentId

theorem Grounded.add {P : DocId → Prop} {parentId : DocId} {name : QByteArray} (h : db.Grounded P) (hid : id ≠ 0)
    (hname : name ≠ []) (hparent : parentId = 0 ∨ db.idFilenameDb.contains parentId = true ∨ P parentId) :
    (db.add id parentId name).Grounded P := by
  intro i path hi
  rw [idFilenameDb_add hid hname] at hi
  have hold : path.parentId = 0 ∨ db.idFilenameDb.contains path.parentId = true ∨ P path.parentId := by
    split at hi
    · obtain rfl := Option.some.inj hi
      exact hparent
    · exact h i path hi
  exact hold.imp_right (Or.imp_left contains_add)

/-- The loop of `addPath` enters the path if the directories above it exist, keeps the tables in step, and
gives every entry a directory. -/
structure AddsPath (P : DocId → Prop) (id : DocId) (db' : DocumentUrlDB) : Prop where
  consistent : db'.Consistent
  stored : db'.idFilenameDb.contains id = true
  grounded : db'.Grounded P

/-- While the loop runs, the directory that comes next is promised. -/
theorem addPathLoop_adds {P : DocId → Prop} {rounds : ℕ} (hc : db.Consistent)
    (hg : db.Grounded fun p => P p ∨ p = id)
    (hid : fs.lstat arr = some id) (hrounds : arr.length < rounds)
    (hexists : ∀ dir, IsAncestor dir arr → ∃ i, fs.lstat dir = some i) :
    AddsPath P id (addPathLoop fs rounds db arr id).1 := by
  induction rounds generalizing db arr id with
  | zero => exact absurd hrounds (Nat.not_lt_zero _)
  | succ rounds ih =>
    have hid0 : id ≠ 0 := fun h0 => fs.ne_zero arr (h0 ▸ hid)
    rw [addPathLoop, if_neg hid0]
    by_cases hstored : db.idFilenameDb.contains id = true
    · rw [if_pos hstored]
      refine ⟨hc, hstored, fun i path hi => ?_⟩
      rcases hg i path hi with hzero | hcontains | hP | rfl
      · exact .inl hzero
      · exact .inr (.inl hcontains)
      · exact .inr (.inr hP)
      · exact .inr (.inl hstored)
    · have hfresh : db.parent id = none := parent_eq_none.mpr (Bool.eq_false_iff.mpr hstored)
      obtain ⟨dir, name, rfl, hname, hslash⟩ := (fs.isPath arr id hid).split
      rw [if_neg hstored, lastIndexOf_append hslash]
      simp only [left_append, mid_append]
      have hself : ∀ parentId, (db.add id parentId name).idFilenameDb.contains id = true := by
        intro parentId
        rw [OrdMap.contains, idFilenameDb_add hid0 hname, if_pos rfl]
        rfl
      -- with the entry added, nothing is missing but its directory
      have hadd : ∀ parentId, (db.add id parentId name).Grounded fun p => P p ∨ p = parentId := by
        intro parentId i path hi
        rw [idFilenameDb_add hid0 hname] at hi
        split at hi
        · obtain rfl := Option.some.inj hi
          exact .inr (.inr (.inr rfl))
        · rcases hg i path hi with hzero | hcontains | hP | hpath
          · exact .inl hzero
          · exact .inr (.inl (contains_add hcontains))
          · exact .inr (.inr (.inl hP))
          · exact .inr (.inl (hpath ▸ hself parentId))
      rcases eq_or_ne dir [] with rfl | hdir
      · rw [if_pos (by simp)]
        refine ⟨hc.add hid0 hname hfresh, hself 0, fun i path hi => ?_⟩
        rcases hadd 0 i path hi with hzero | hcontains | hP | hzero
        · exact .inl hzero
        · exact .inr (.inl hcontains)
        · exact .inr (.inr hP)
        · exact .inl hzero
      · obtain ⟨parentId, hparentId⟩ := hexists dir ((isAncestor_append hslash).mpr (.inl ⟨hdir, rfl⟩))
        have hparentId0 : parentId ≠ 0 := fun h0 => fs.ne_zero dir (h0 ▸ hparentId)
        rw [if_neg (by simpa using hdir), fs.filePathToId_eq hparentId, if_neg hparentId0]
        have hlength : dir.length < rounds := by
          rw [List.length_append, List.length_cons] at hrounds
          omega
        have hdirs := fun d hd => hexists d ((isAncestor_append hslash).mpr (.inr hd))
        obtain ⟨hc', -, hg'⟩ := ih (hc.add hid0 hname hfresh) (hadd parentId) hparentId hlength hdirs
        exact ⟨hc', contains_addPathLoop fs rounds (hself parentId) dir parentId, hg'⟩

end DocumentUrlDB

namespace BasicIndexingJob.Describes

variable {lib : Libraries} {fs : Snapshot} {filePath : QByteArray} {mimetype : List QChar} {doc : Document}
  {db : DocumentUrlDB}

/-- Entering the path of a document. -/
theorem addUrl_adds {P : DocId → Prop} (h : Describes lib fs filePath mimetype doc) (hc : db.Consistent)
    (hg : db.Grounded P) (hfresh : db.idFilenameDb.get doc.id = none)
    (hexists : ∀ dir, IsAncestor dir doc.url → ∃ i, fs.lstat dir = some i) :
    DocumentUrlDB.AddsPath P doc.id (WriteTransaction.addUrl fs.toFileSystem db doc).1 := by
  obtain ⟨dir, name, -, hurl, hname, hslash, hdir, hid, hparentId, hdocId⟩ := h.split
  rw [hurl] at hexists
  rw [addUrl_eq _ _ hurl hdir hname hslash hid, DocumentUrlDB.addPath_eq hparentId]
  obtain ⟨hc', hstored, hg'⟩ := DocumentUrlDB.addPathLoop_adds (P := P) hc
    (fun i path hi => (hg i path hi).imp_right (Or.imp_right .inl)) hparentId (Nat.lt_succ_self _)
    fun d hd => hexists d ((isAncestor_append hslash).mpr (.inr hd))
  -- the document itself is not among the directories
  have hfresh' : (DocumentUrlDB.addPathLoop fs.toFileSystem (dir.length + 1) db dir
      doc.parentId).1.idFilenameDb.get doc.id = none := by
    have henters : DocumentUrlDB.EntersAbove fs.toFileSystem dir db (DocumentUrlDB.addPathLoop fs.toFileSystem
        (dir.length + 1) db dir doc.parentId).1 doc.id := DocumentUrlDB.addPathLoop_enters hparentId doc.id
    rcases henters with hsame | ⟨-, p, hp, hpi, -⟩
    · exact hsame.trans hfresh
    · rw [fs.injective _ _ _ hpi hdocId] at hp
      have hlength : (dir ++ slash :: name).length ≤ dir.length := by
        rcases hp with hp | hp
        · rw [hp]
        · exact Nat.le_of_lt hp.length_lt
      rw [List.length_append, List.length_cons] at hlength
      omega
  refine ⟨hc'.add hid hname (by rw [DocumentUrlDB.parent, hfresh']; rfl), ?_,
    hg'.add hid hname (.inr (.inl hstored))⟩
  dsimp only
  rw [OrdMap.contains, DocumentUrlDB.idFilenameDb_add hid hname, if_pos rfl]
  rfl

end BasicIndexingJob.Describes

/-! ## The check -/

namespace UnindexedFileIndexer

variable (lib : Libraries) (onlyBasicIndexing : Bool) (fs : Snapshot)

/-- `UnindexedFileIndexer::run`, on the paths that its walks come to. -/
def run (w : WriteTransaction) (paths : List QByteArray) : WriteTransaction :=
  paths.foldl (visit lib onlyBasicIndexing fs) w

/-- The check yields a path: it selects it when its turn comes. -/
def Yields (w : WriteTransaction) (paths : List QByteArray) (path : QByteArray) : Prop :=
  ∃ before raw after, paths = before ++ raw :: after ∧ chop raw = path ∧
    (UnIndexedFileIterator.check lib fs (run lib onlyBasicIndexing fs w before).dbis raw).shouldIndex = true

/-- An entry whose id has been at the place of a path is not the entry of the path, and not of another path
that the check yields. -/
def Leftover (w : WriteTransaction) (paths : List QByteArray) (path : QByteArray) : Prop :=
  ∃ j, w.dbis.docUrlDb.idFilenameDb.get j = some (fs.place path) ∧ fs.lstat path ≠ some j ∧
    ∀ q, Yields lib onlyBasicIndexing fs w paths q → fs.lstat q ≠ some j

/-- The directories above the yielded paths that are not yielded themselves are stored where they belong, if
they are stored, and no other entry has been left at their place. -/
def Upheld (w : WriteTransaction) (paths : List QByteArray) : Prop :=
  ∀ path dir i, Yields lib onlyBasicIndexing fs w paths path → IsAncestor dir path →
    ¬ Yields lib onlyBasicIndexing fs w paths dir → fs.lstat dir = some i →
    (∀ place, w.dbis.docUrlDb.idFilenameDb.get i = some place → place = fs.place dir) ∧
      ¬ Leftover lib onlyBasicIndexing fs w paths dir

/-- The check writes the place of what it yields: a new document has a directory; a known one is where it
belongs, or else its change time and its path have changed and its directory is stored or yielded. -/
def Places (w : WriteTransaction) (paths : List QByteArray) : Prop :=
  ∀ before raw after i, paths = before ++ raw :: after → fs.lstat (chop raw) = some i →
    let db := (run lib onlyBasicIndexing fs w before).dbis
    let it := UnIndexedFileIterator.check lib fs db raw
    let dir := left (chop raw) (lastIndexOf slash (chop raw))
    it.shouldIndex = true →
    db.docUrlDb.contains i = false ∧ HasDirectory fs raw ∨
    db.docUrlDb.idFilenameDb.get i = some (fs.place (chop raw)) ∨
    HasDirectory fs raw ∧ it.cTimeChanged = true ∧ db.docUrlDb.get i ≠ raw ∧
      (db.docUrlDb.idFilenameDb.contains (fs.filePathToId dir) = true ∨
        Yields lib onlyBasicIndexing fs w paths dir)

/-- Exactly one stored entry is at the path, its id is that of the path, and `documentId` finds it. -/
def OnePath (db : DocumentUrlDB) (path : QByteArray) : Prop :=
  ∃ id, fs.lstat path = some id ∧ (∀ j, db.contains j = true ∧ db.get j = path ↔ j = id) ∧
    db.documentId path = id

variable {lib onlyBasicIndexing fs} {w : WriteTransaction} {raw : QByteArray}

/-- What a visit does to the URL tree: nothing, or it adds the path, or it writes the place of the path. -/
inductive UrlVisit (lib : Libraries) (fs : Snapshot) (db : Database) (raw : QByteArray) : DocumentUrlDB → Prop
  | skipped : (UnIndexedFileIterator.check lib fs db raw).shouldIndex = false ∨ ¬ HasDirectory fs raw →
    UrlVisit lib fs db raw db.docUrlDb
  | added (mimetype : List QChar) (doc : Document) :
    (UnIndexedFileIterator.check lib fs db raw).shouldIndex = true →
    BasicIndexingJob.Describes lib fs raw mimetype doc → db.docUrlDb.contains doc.id = false →
    UrlVisit lib fs db raw (WriteTransaction.addUrl fs.toFileSystem db.docUrlDb doc).1
  | known (mimetype : List QChar) (doc : Document) :
    BasicIndexingJob.Describes lib fs raw mimetype doc → db.docUrlDb.contains doc.id = true →
    ¬ ((UnIndexedFileIterator.check lib fs db raw).cTimeChanged = true ∧ db.docUrlDb.get doc.id ≠ raw) →
    UrlVisit lib fs db raw db.docUrlDb
  | moved (mimetype : List QChar) (doc : Document) :
    (UnIndexedFileIterator.check lib fs db raw).shouldIndex = true →
    BasicIndexingJob.Describes lib fs raw mimetype doc → db.docUrlDb.contains doc.id = true →
    UrlVisit lib fs db raw (db.docUrlDb.updateUrl doc.id doc.parentId
      (mid doc.url (lastIndexOf slash doc.url + 1)))

theorem urlVisit (lib : Libraries) (onlyBasicIndexing : Bool) (fs : Snapshot) (w : WriteTransaction)
    (raw : QByteArray) :
    UrlVisit lib fs w.dbis raw (visit lib onlyBasicIndexing fs w raw).dbis.docUrlDb := by
  rw [visit]
  by_cases hindexed : (UnIndexedFileIterator.check lib fs w.dbis raw).shouldIndex = true
  · rw [if_pos hindexed]
    split
    · next hnone =>
      refine .skipped ((BasicIndexingJob.index_eq_none.mp hnone).elim (fun hdir => .inr (not_not.mpr hdir)) ?_)
      -- a path that does not exist is not selected
      intro hpath
      rw [UnIndexedFileIterator.check, hpath] at hindexed
      cases hindexed
    · next doc hdoc =>
      have hdescribes := BasicIndexingJob.index_describes hdoc
      split
      · next hstored =>
        by_cases hmoved : (UnIndexedFileIterator.check lib fs w.dbis raw).cTimeChanged = true ∧
            w.dbis.docUrlDb.get doc.id ≠ raw
        · rw [docUrlDb_replaceDocument w doc (by simpa [operations] using hmoved)]
          exact .moved _ doc hindexed hdescribes hstored
        · obtain ⟨docTermsDb, docXattrTermsDb, docFilenameTermsDb, hframe⟩ := w.replaceDocument_frame doc
            (operations onlyBasicIndexing w.dbis (UnIndexedFileIterator.check lib fs w.dbis raw) doc.id raw)
          have hurl : (operations onlyBasicIndexing w.dbis (UnIndexedFileIterator.check lib fs w.dbis raw)
              doc.id raw).documentUrl = false := by
            rw [← Bool.not_eq_true]
            simpa [operations] using hmoved
          rw [hframe, WriteTransaction.replaceData]
          dsimp only
          rw [hurl, if_neg Bool.false_ne_true]
          exact .known _ doc hdescribes hstored hmoved
      · next hfresh =>
        rw [docUrlDb_addDocument]
        exact .added _ doc hindexed hdescribes (Bool.eq_false_iff.mpr hfresh)
  · rw [if_neg hindexed]
    exact .skipped (.inl (Bool.eq_false_iff.mpr hindexed))

/-! ## What the check leaves behind -/

/-- The URL tree while the check is under way, after the paths `before`. -/
structure Trail (lib : Libraries) (onlyBasicIndexing : Bool) (tree : DirectoryTree) (w : WriteTransaction)
    (paths before : List QByteArray) (db : DocumentUrlDB) : Prop where
  /-- the two tables agree -/
  consistent : db.Consistent
  /-- names are names -/
  wellNamed : db.WellNamed
  /-- an entry is as it was, or where a path belongs that has been yielded or is new -/
  changed : ∀ i, db.idFilenameDb.get i = w.dbis.docUrlDb.idFilenameDb.get i ∨
    ∃ p, tree.lstat p = some i ∧ db.idFilenameDb.get i = some (tree.place p) ∧
      (Yields lib onlyBasicIndexing tree.toSnapshot w paths p ∨ w.dbis.docUrlDb.idFilenameDb.get i = none)
  /-- what has been yielded is where it belongs -/
  placed : ∀ p i, Yields lib onlyBasicIndexing tree.toSnapshot w before p → tree.lstat p = some i →
    db.idFilenameDb.get i = some (tree.place p)
  /-- the directories of entries are stored, or they are yielded -/
  grounded : db.Grounded fun p => ∃ d, Yields lib onlyBasicIndexing tree.toSnapshot w paths d ∧
    tree.lstat d = some p

variable {tree : DirectoryTree} {paths before after : List QByteArray} {p : QByteArray} {i : DocId}

theorem yields_append_singleton : Yields lib onlyBasicIndexing fs w (before ++ [raw]) p ↔
    Yields lib onlyBasicIndexing fs w before p ∨ chop raw = p ∧ (UnIndexedFileIterator.check lib fs
      (run lib onlyBasicIndexing fs w before).dbis raw).shouldIndex = true :=
  Since.exists_split_snoc (P := fun before raw => chop raw = p ∧ (UnIndexedFileIterator.check lib fs
    (run lib onlyBasicIndexing fs w before).dbis raw).shouldIndex = true)

/-- A visit that enters a path. -/
theorem Trail.add {mimetype : List QChar} {doc : Document} {db : DocumentUrlDB}
    (h : Trail lib onlyBasicIndexing tree w paths before db)
    (hdescribes : BasicIndexingJob.Describes lib tree.toSnapshot raw mimetype doc)
    (hfresh : db.contains doc.id = false) : Trail lib onlyBasicIndexing tree w paths (before ++ [raw])
      (WriteTransaction.addUrl tree.toFileSystem db doc).1 := by
  have hurl : doc.url = chop raw := hdescribes.url
  have hne : doc.id ≠ 0 := fun h0 => tree.ne_zero _ (h0 ▸ hdescribes.id)
  have hnone : db.idFilenameDb.get doc.id = none := by
    rw [DocumentUrlDB.contains, decide_eq_true hne, Bool.true_and, OrdMap.contains] at hfresh
    exact Option.isNone_iff_eq_none.mp (Option.isSome_eq_false_iff.mp hfresh)
  obtain ⟨hc, hstored, hg⟩ := hdescribes.addUrl_adds h.consistent h.grounded hnone
    fun d hd => tree.closed _ _ hdescribes.id d (hurl ▸ hd)
  have henters := hdescribes.addUrl_enters hnone
  refine ⟨hc, fun i path hi => ?_, fun i => ?_, fun p i hp hid => ?_, hg⟩
  · rcases henters i with hsame' | ⟨-, p, -, hpi, hget⟩
    · exact h.wellNamed i path (hsame'.symm.trans hi)
    · obtain ⟨dir, name, rfl, hname, hslash⟩ := (tree.isPath _ _ hpi).split
      rw [hget, tree.place_append hslash, Option.some.injEq] at hi
      rw [← hi]
      exact ⟨hname, hslash⟩
  · rcases henters i with hsame' | ⟨hold, p, -, hpi, hget⟩
    · rw [hsame']
      exact h.changed i
    · refine .inr ⟨p, hpi, hget, .inr ?_⟩
      rcases h.changed i with hw | ⟨q, -, hsome, -⟩
      · exact hw.symm.trans hold
      · rw [hold] at hsome
        cases hsome
  · rcases yields_append_singleton.mp hp with hyielded | ⟨rfl, -⟩
    · have hplaced := h.placed p i hyielded hid
      rcases henters i with hsame' | ⟨hold, -⟩
      · exact hsame'.trans hplaced
      · rw [hold] at hplaced
        cases hplaced
    · obtain rfl : doc.id = i := Option.some.inj (hdescribes.id.symm.trans hid)
      rcases henters doc.id with hsame' | ⟨-, q, -, hqi, hget⟩
      · rw [OrdMap.contains, hsame', hnone] at hstored
        cases hstored
      · rw [hget, tree.injective _ _ _ hqi hid]

/-- A visit that writes the place of a path: it is there already, or its directory is stored or yielded. -/
theorem Trail.move {mimetype : List QChar} {doc : Document} {db : DocumentUrlDB}
    (h : Trail lib onlyBasicIndexing tree w paths before db)
    (hdescribes : BasicIndexingJob.Describes lib tree.toSnapshot raw mimetype doc)
    (hstored : db.contains doc.id = true) (hyields : Yields lib onlyBasicIndexing tree.toSnapshot w paths (chop raw))
    (hplace : db.idFilenameDb.get doc.id = some (tree.place (chop raw)) ∨
      (db.idFilenameDb.contains (tree.filePathToId (left (chop raw) (lastIndexOf slash (chop raw)))) = true ∨
        Yields lib onlyBasicIndexing tree.toSnapshot w paths (left (chop raw) (lastIndexOf slash (chop raw))))) :
    Trail lib onlyBasicIndexing tree w paths (before ++ [raw])
      (db.updateUrl doc.id doc.parentId (mid doc.url (lastIndexOf slash doc.url + 1))) := by
  have hurl : doc.url = chop raw := hdescribes.url
  rw [DocumentUrlDB.contains, Bool.and_eq_true] at hstored
  obtain ⟨path, hpath⟩ := OrdMap.contains_iff.mp hstored.2
  have hget := fun i => @DocumentUrlDB.idFilenameDb_updateUrl _ doc.id path doc.parentId
    (mid doc.url (lastIndexOf slash doc.url + 1)) hpath i
  rw [← hdescribes.place_url, hurl] at hget
  have hmem : ∀ {q i}, tree.lstat q = some i → (i = doc.id ↔ q = chop raw) := fun {q i} hid =>
    ⟨fun hi => tree.injective _ _ _ hid (hi ▸ hdescribes.id),
      fun hq => Option.some.inj (hid.symm.trans (hq ▸ hdescribes.id))⟩
  rw [hurl]
  refine ⟨h.consistent.updateUrl (q := path.parentId) (by rw [DocumentUrlDB.parent, hpath]; rfl),
    fun i place hi => ?_, fun i => ?_, fun p i hp hid => ?_, fun i place hi => ?_⟩
  · rw [hget] at hi
    split at hi
    · obtain ⟨dir, name, hsplit, hname, hslash⟩ := (tree.isPath _ _ hdescribes.id).split
      rw [hsplit, tree.place_append hslash, Option.some.injEq] at hi
      rw [← hi]
      exact ⟨hname, hslash⟩
    · exact h.wellNamed i place hi
  · rw [hget]
    split
    · next hi => exact .inr ⟨_, hi ▸ hdescribes.id, rfl, .inl hyields⟩
    · exact h.changed i
  · rw [hget]
    split
    · next hi => rw [(hmem hid).mp hi]
    · next hi =>
      rcases yields_append_singleton.mp hp with hyielded | ⟨hraw, -⟩
      · exact h.placed p i hyielded hid
      · exact absurd ((hmem hid).mpr hraw.symm) hi
  · have hkept : ∀ j, db.idFilenameDb.contains j =
        true → (db.updateUrl doc.id doc.parentId
          (mid (chop raw) (lastIndexOf slash (chop raw) + 1))).idFilenameDb.contains j = true :=
      fun j => DocumentUrlDB.contains_updateUrl
    rw [hget] at hi
    split at hi
    · next hi' =>
      rcases hplace with hright | hdir
      · exact (h.grounded doc.id place (hright.trans hi)).imp_right (Or.imp_left (hkept _))
      · obtain rfl := Option.some.inj hi
        rw [FileSystem.place, tree.filePathToId_eq hdescribes.parentId] at *
        dsimp only at *
        exact .inr (hdir.imp (hkept _) fun hyielded => ⟨_, hyielded, hdescribes.parentId⟩)
    · exact (h.grounded i place hi).imp_right (Or.imp_left (hkept _))

/-- One visit of a check that writes the places of what it yields. -/
theorem Trail.step (hplaces : Places lib onlyBasicIndexing tree.toSnapshot w paths)
    (hpaths : paths = before ++ raw :: after)
    (h : Trail lib onlyBasicIndexing tree w paths before
      (run lib onlyBasicIndexing tree.toSnapshot w before).dbis.docUrlDb) :
    Trail lib onlyBasicIndexing tree w paths (before ++ [raw])
      (run lib onlyBasicIndexing tree.toSnapshot w (before ++ [raw])).dbis.docUrlDb := by
  have hrun : run lib onlyBasicIndexing tree.toSnapshot w (before ++ [raw]) =
      visit lib onlyBasicIndexing tree.toSnapshot (run lib onlyBasicIndexing tree.toSnapshot w before) raw :=
    List.foldl_append
  rw [hrun]
  have hvisit := urlVisit lib onlyBasicIndexing tree.toSnapshot
    (run lib onlyBasicIndexing tree.toSnapshot w before) raw
  have hplace := fun i => hplaces before raw after i hpaths
  generalize (UnindexedFileIndexer.visit lib onlyBasicIndexing tree.toSnapshot _ raw).dbis.docUrlDb = db' at hvisit ⊢
  -- a visit that changes nothing
  have hsame : (∀ i, tree.lstat (chop raw) = some i → (UnIndexedFileIterator.check lib tree.toSnapshot
      (run lib onlyBasicIndexing tree.toSnapshot w before).dbis raw).shouldIndex = true →
      (run lib onlyBasicIndexing tree.toSnapshot w before).dbis.docUrlDb.idFilenameDb.get i =
        some (tree.place (chop raw))) →
      Trail lib onlyBasicIndexing tree w paths (before ++ [raw])
        (run lib onlyBasicIndexing tree.toSnapshot w before).dbis.docUrlDb := by
    intro hright
    refine ⟨h.consistent, h.wellNamed, h.changed, fun p i hp hid => ?_, h.grounded⟩
    rcases yields_append_singleton.mp hp with hold | ⟨rfl, hindexed⟩
    · exact h.placed p i hold hid
    · exact hright i hid hindexed
  cases hvisit with
  | skipped hnot =>
    refine hsame fun i hid hindexed => ?_
    have hdir : ¬ HasDirectory tree.toSnapshot raw := hnot.resolve_left (by simp [hindexed])
    rcases hplace i hid hindexed with ⟨-, hdir'⟩ | hright | ⟨hdir', -⟩
    · exact absurd hdir' hdir
    · exact hright
    · exact absurd hdir' hdir
  | known mimetype doc hdescribes hstored hnot =>
    refine hsame fun i hid hindexed => ?_
    obtain rfl : doc.id = i := Option.some.inj (hdescribes.id.symm.trans hid)
    rcases hplace _ hid hindexed with ⟨hfresh, -⟩ | hright | ⟨-, hctime, hmoved, -⟩
    · exact absurd (hfresh.symm.trans hstored) Bool.false_ne_true
    · exact hright
    · exact absurd ⟨hctime, hmoved⟩ hnot
  | added mimetype doc hindexed hdescribes hfresh => exact h.add hdescribes hfresh
  | moved mimetype doc hindexed hdescribes hstored =>
    refine h.move hdescribes hstored ⟨before, raw, after, hpaths, rfl, hindexed⟩ ?_
    rcases hplace _ hdescribes.id hindexed with ⟨hfresh, -⟩ | hright | ⟨-, -, -, hdir⟩
    · exact absurd (hfresh.symm.trans hstored) Bool.false_ne_true
    · exact .inl hright
    · exact .inr hdir

/-- A check that writes the places of what it yields. -/
theorem Trail.run (hforest : UrlForest w) (hnamed : w.dbis.docUrlDb.WellNamed)
    (hplaces : Places lib onlyBasicIndexing tree.toSnapshot w paths) :
    Trail lib onlyBasicIndexing tree w paths paths
      (UnindexedFileIndexer.run lib onlyBasicIndexing tree.toSnapshot w paths).dbis.docUrlDb := by
  suffices h : ∀ before after, paths = before ++ after → Trail lib onlyBasicIndexing tree w paths before
      (UnindexedFileIndexer.run lib onlyBasicIndexing tree.toSnapshot w before).dbis.docUrlDb from
    h paths [] (List.append_nil _).symm
  intro before
  induction before using List.reverseRecOn with
  | nil =>
    refine fun _ _ => ⟨hforest.toConsistent, hnamed, fun _ => .inl rfl, fun p i hp => ?_, fun i path hi => ?_⟩
    · obtain ⟨before, raw, after, heq, -⟩ := hp
      simp at heq
    · -- the directory of an entry is the root or an entry
      change w.dbis.docUrlDb.idFilenameDb.get i = some path at hi
      have hparent : w.dbis.docUrlDb.parent i = some path.parentId := by rw [DocumentUrlDB.parent, hi]; rfl
      have habove := (hforest.rooted i _ hparent).above (.single hparent) hforest.zero
      exact habove.imp_right fun hp => .inl (DocumentUrlDB.exists_parent.mp hp)
  | append_singleton before raw ih =>
    intro after heq
    rw [List.append_assoc, List.singleton_append] at heq
    exact (ih _ heq).step hplaces heq

/-! ## Where everything is in the end -/

section Ends

variable {db : DocumentUrlDB} (h : Trail lib onlyBasicIndexing tree w paths paths db)

include h

/-- The directory of what is where it belongs is where it belongs. -/
theorem Trail.dir (hupheld : Upheld lib onlyBasicIndexing tree.toSnapshot w paths) {dir name : QByteArray}
    {k : DocId} (hp : Yields lib onlyBasicIndexing tree.toSnapshot w paths p)
    (hchain : dir ++ slash :: name = p ∨ IsAncestor (dir ++ slash :: name) p) (hslash : slash ∉ name)
    (hk : tree.lstat dir = some k)
    (hi : db.idFilenameDb.get i = some (tree.place (dir ++ slash :: name))) :
    db.idFilenameDb.get k = some (tree.place dir) := by
  have hdir : dir ≠ [] := by
    rintro rfl
    rw [tree.lstat_nil] at hk
    cases hk
  by_cases hyields : Yields lib onlyBasicIndexing tree.toSnapshot w paths dir
  · exact h.placed dir k hyields hk
  · have habove : IsAncestor dir p := by
      have hself : IsAncestor dir (dir ++ slash :: name) := ⟨hdir, name, rfl⟩
      rcases hchain with rfl | hchain
      · exact hself
      · exact hself.trans hchain
    -- it is stored, as it was or new
    rw [tree.place_append hslash, tree.filePathToId_eq hk] at hi
    rcases h.grounded i _ hi with hzero | hcontains | ⟨d, hd, hdk⟩
    · exact absurd (hzero ▸ hk) (tree.ne_zero dir)
    · obtain ⟨place, hplace⟩ := OrdMap.contains_iff.mp hcontains
      dsimp only at hplace
      rcases h.changed k with hsame | ⟨q, hqk, hget, -⟩
      · rw [hplace, (hupheld p dir k hp habove hyields hk).1 place (hsame.symm.trans hplace)]
      · rw [hget, tree.injective _ _ _ hqk hk]
    · rw [tree.injective _ _ _ hdk hk] at hd
      exact absurd hd hyields

/-- Where something belongs, nothing else is. -/
theorem Trail.place_unique {q : QByteArray} {j : DocId} (hq : tree.lstat q = some i)
    (hclean : ¬ Leftover lib onlyBasicIndexing tree.toSnapshot w paths q)
    (hj : db.idFilenameDb.get j = some (tree.place q)) : j = i := by
  have hexists : ∀ {q i}, tree.lstat q = some i → ∀ dir, IsAncestor dir q → tree.lstat dir ≠ none :=
    fun hid dir hdir => Option.ne_none_iff_exists'.mpr (tree.closed _ _ hid dir hdir)
  rcases h.changed j with hsame | ⟨q', hq', hget, -⟩
  · by_contra hne
    refine hclean ⟨j, hsame.symm.trans hj, fun hqj => hne (Option.some.inj (hqj.symm.trans hq)), ?_⟩
    intro q' hyields hq'
    have hplace := Option.some.inj ((h.placed q' j hyields hq').symm.trans hj)
    rw [tree.place_inj hq' hq (hexists hq') (hexists hq) hplace] at hq'
    exact hne (Option.some.inj (hq'.symm.trans hq))
  · have hplace := Option.some.inj (hget.symm.trans hj)
    rw [tree.place_inj hq' hq (hexists hq') (hexists hq) hplace] at hq'
    exact Option.some.inj (hq'.symm.trans hq)

/-- What is yielded, and the directories above it, are at their paths. -/
theorem Trail.located (hupheld : Upheld lib onlyBasicIndexing tree.toSnapshot w paths)
    (hp : Yields lib onlyBasicIndexing tree.toSnapshot w paths p) {q : QByteArray}
    (hchain : q = p ∨ IsAncestor q p) (hid : tree.lstat q = some i)
    (hi : db.idFilenameDb.get i = some (tree.place q)) : ∃ n, db.Located n i q := by
  induction hlength : q.length using Nat.strong_induction_on generalizing q i with
  | _ length ih =>
    have hne : i ≠ 0 := fun h0 => tree.ne_zero q (h0 ▸ hid)
    obtain ⟨dir, name, rfl, hname, hslash⟩ := (tree.isPath q i hid).split
    have hplace : tree.place (dir ++ slash :: name) = _ := tree.place_append hslash
    by_cases hdir : dir = []
    · subst hdir
      rw [hplace, FileSystem.filePathToId, tree.lstat_nil, Option.getD_none] at hi
      exact ⟨1, .entry hne hi .root⟩
    · have hself : IsAncestor dir (dir ++ slash :: name) := ⟨hdir, name, rfl⟩
      obtain ⟨k, hk⟩ := tree.closed _ _ hid dir hself
      have hshorter := hself.length_lt
      have habove : IsAncestor dir p := by
        rcases hchain with rfl | hchain
        · exact hself
        · exact hself.trans hchain
      obtain ⟨n, hn⟩ := ih dir.length (by omega) (.inr habove) hk (h.dir hupheld hp hchain hslash hk hi) rfl
      rw [hplace, tree.filePathToId_eq hk] at hi
      exact ⟨n + 1, .entry hne hi hn⟩

/-- No other entry is at such a path, if nothing has been left over there. -/
theorem Trail.located_unique (hupheld : Upheld lib onlyBasicIndexing tree.toSnapshot w paths)
    (hclean : ∀ q, Yields lib onlyBasicIndexing tree.toSnapshot w paths q →
      ¬ Leftover lib onlyBasicIndexing tree.toSnapshot w paths q)
    (hp : Yields lib onlyBasicIndexing tree.toSnapshot w paths p) {q : QByteArray} {n : ℕ} {a : DocId}
    (hchain : q = p ∨ IsAncestor q p) (hid : tree.lstat q = some i) (hlocated : db.Located n a q) :
    a = i ∧ db.idFilenameDb.get a = some (tree.place q) := by
  induction hlength : q.length using Nat.strong_induction_on generalizing q i n a with
  | _ length ih =>
    obtain ⟨dir, name, rfl, hname, hslash⟩ := (tree.isPath q i hid).split
    obtain ⟨m, path, -, -, hget, rfl, hparent⟩ := hlocated.split hslash h.wellNamed
    have hplace : path = tree.place (dir ++ slash :: path.name) := by
      rw [tree.place_append hslash]
      by_cases hdir : dir = []
      · subst hdir
        rw [FileSystem.filePathToId, tree.lstat_nil, Option.getD_none, ← hparent.eq_zero]
      · have hself : IsAncestor dir (dir ++ slash :: path.name) := ⟨hdir, path.name, rfl⟩
        obtain ⟨k, hk⟩ := tree.closed _ _ hid dir hself
        have hshorter := hself.length_lt
        have habove : IsAncestor dir p := by
          rcases hchain with rfl | hchain
          · exact hself
          · exact hself.trans hchain
        rw [tree.filePathToId_eq hk, ← (ih dir.length (by omega) (.inr habove) hk hparent rfl).1]
    rw [← hplace]
    refine ⟨h.place_unique hid ?_ (hget.trans (congrArg some hplace)), hget⟩
    by_cases hyields : Yields lib onlyBasicIndexing tree.toSnapshot w paths (dir ++ slash :: path.name)
    · exact hclean _ hyields
    · rcases hchain with rfl | hchain
      · exact absurd hp hyields
      · exact (hupheld p _ i hp hchain hyields hid).2

/-- A path that is yielded has its entry, and only this one, exactly if nothing has been left over at its
place and it is not too deep. -/
theorem Trail.onePath (hupheld : Upheld lib onlyBasicIndexing tree.toSnapshot w paths)
    (hclean : ∀ q, Yields lib onlyBasicIndexing tree.toSnapshot w paths q →
      ¬ Leftover lib onlyBasicIndexing tree.toSnapshot w paths q)
    (hp : Yields lib onlyBasicIndexing tree.toSnapshot w paths p) (hid : tree.lstat p = some i)
    (hdepth : p.count slash ≤ 513) : OnePath tree.toSnapshot db p := by
  have hplaced := h.placed p i hp hid
  obtain ⟨n, hn⟩ := h.located hupheld hp (.inl rfl) hid hplaced
  have hpath : p ≠ [] := by
    rintro rfl
    rw [tree.lstat_nil] at hid
    cases hid
  refine ⟨i, hid, fun j => ⟨?_, ?_⟩, hn.documentId h.consistent h.wellNamed ?_⟩
  · rintro ⟨-, hj⟩
    obtain ⟨m, -, hm⟩ := DocumentUrlDB.located_of_get (hj ▸ hpath)
    rw [hj] at hm
    exact (h.located_unique hupheld hclean hp (.inl rfl) hid hm).1
  · rintro rfl
    refine ⟨?_, hn.get (hn.count h.wellNamed ▸ hdepth)⟩
    have hi0 : j ≠ 0 := fun h0 => tree.ne_zero p (h0 ▸ hid)
    rw [DocumentUrlDB.contains, OrdMap.contains, hplaced]
    simpa using hi0
  · intro m a q path hlocated hchain hget j hj
    obtain ⟨k, hk⟩ : ∃ k, tree.lstat q = some k := by
      rcases hchain with rfl | hchain
      · exact ⟨i, hid⟩
      · exact tree.closed _ _ hid q hchain
    obtain ⟨rfl, hplace⟩ := h.located_unique hupheld hclean hp hchain hk hlocated
    rw [hget] at hplace
    refine h.place_unique hk ?_ (hj.trans hplace)
    by_cases hyields : Yields lib onlyBasicIndexing tree.toSnapshot w paths q
    · exact hclean q hyields
    · rcases hchain with rfl | hchain
      · exact absurd hp hyields
      · exact (hupheld p q a hp hchain hyields hk).2

/-- What has been left over at the place of a path is at the path. -/
theorem Trail.leftover (hp : Yields lib onlyBasicIndexing tree.toSnapshot w paths p)
    (hone : OnePath tree.toSnapshot db p) : ¬ Leftover lib onlyBasicIndexing tree.toSnapshot w paths p := by
  rintro ⟨j, hj, hne, hother⟩
  obtain ⟨i, hid, honly, -⟩ := hone
  have hplaced := h.placed p i hp hid
  have hsame : db.idFilenameDb.get j = some (tree.place p) := by
    rcases h.changed j with hsame | ⟨q, hq, -, hyields | hnone⟩
    · exact hsame.trans hj
    · exact absurd hq (hother q hyields)
    · rw [hj] at hnone
      cases hnone
  have hj0 : j ≠ 0 := by
    rintro rfl
    have hzero := h.consistent.zero
    rw [DocumentUrlDB.parent, hsame] at hzero
    cases hzero
  have hi0 : i ≠ 0 := fun h0 => tree.ne_zero p (h0 ▸ hid)
  -- the two entries have the same path
  have hget : db.get j = db.get i := by
    rw [DocumentUrlDB.get, DocumentUrlDB.get, if_neg hj0, if_neg hi0, hsame, hplaced]
  have hcontains : db.contains j = true := by
    rw [DocumentUrlDB.contains, OrdMap.contains, hsame]
    simpa using hj0
  have hji := (honly j).mp ⟨hcontains, hget.trans ((honly i).mpr rfl).2⟩
  exact hne (hji ▸ hid)

end Ends

end UnindexedFileIndexer

open UnindexedFileIndexer in
/-- **One path, one document.** If the check writes the place of what it yields, and the directories above
that it does not yield are where they belong, then exactly one entry is at every path that it yields, with
the id of the path, and `documentId` finds it, exactly if no other entry has been left over at the place of
such a path and none is more than 513 levels deep. -/
theorem one_path (lib : Libraries) (onlyBasicIndexing : Bool) (tree : DirectoryTree) {w : WriteTransaction}
    (hforest : UrlForest w) (hnamed : w.dbis.docUrlDb.WellNamed) {paths : List QByteArray}
    (hupheld : Upheld lib onlyBasicIndexing tree.toSnapshot w paths)
    (hplaces : Places lib onlyBasicIndexing tree.toSnapshot w paths) :
    (∀ path, UnindexedFileIndexer.Yields lib onlyBasicIndexing tree.toSnapshot w paths path → OnePath tree.toSnapshot
      (UnindexedFileIndexer.run lib onlyBasicIndexing tree.toSnapshot w paths).dbis.docUrlDb path) ↔
    ∀ path, UnindexedFileIndexer.Yields lib onlyBasicIndexing tree.toSnapshot w paths path →
      ¬ Leftover lib onlyBasicIndexing tree.toSnapshot w paths path ∧ path.count slash ≤ 513 := by
  have htrail := Trail.run hforest hnamed hplaces
  refine ⟨fun hone path hp => ⟨htrail.leftover hp (hone path hp), ?_⟩, fun hclean path hp => ?_⟩
  · obtain ⟨i, hid, honly, -⟩ := hone path hp
    have hget := ((honly i).mpr rfl).2
    have hpath : path ≠ [] := by
      rintro rfl
      rw [tree.lstat_nil] at hid
      cases hid
    obtain ⟨n, hn, hlocated⟩ := DocumentUrlDB.located_of_get (hget.symm ▸ hpath)
    rw [hget] at hlocated
    rw [hlocated.count htrail.wellNamed]
    exact hn
  · obtain ⟨i, hid⟩ : ∃ i, tree.lstat path = some i := by
      obtain ⟨before, raw, after, -, rfl, hindexed⟩ := hp
      rcases hid : tree.lstat (chop raw) with _ | i
      · rw [UnIndexedFileIterator.check, hid] at hindexed
        cases hindexed
      · exact ⟨i, rfl⟩
    exact htrail.onePath hupheld (fun q hq => (hclean q hq).1) hp hid (hclean path hp).2

theorem abKnown_get {i : DocId} {path : FilePath}
    (h : abKnown.dbis.docUrlDb.idFilenameDb.get i = some path) : i = 1 ∨ i = 2 ∨ i = 5 := by
  have hkeys : OrdMap.keys abKnown.dbis.docUrlDb.idFilenameDb = [1, 2, 5] := by decide
  have hmem := OrdMap.contains_iff_mem_keys.mp (OrdMap.contains_iff.mpr ⟨path, h⟩)
  simpa [hkeys] using hmem

theorem abKnown_wellNamed : abKnown.dbis.docUrlDb.WellNamed := by
  intro i path h
  rcases abKnown_get h with rfl | rfl | rfl
  all_goals
    obtain rfl := Option.some.inj (h.symm.trans rfl)
    decide

/-- A new directory beside those that the index knows. -/
def abAndC : DirectoryTree :=
  .ofEntries [{ components := [[112]], id := 5, stat := { isDir := true } },
    { components := [[112], [97]], id := 1, stat := { isDir := true } },
    { components := [[112], [97], [98]], id := 2, stat := { isDir := true } },
    { components := [[112], [97], [99]], id := 3, stat := { isDir := true } }] (by decide) (by decide)

theorem one_path_abAndC : UnindexedFileIndexer.OnePath abAndC.toSnapshot
    (UnindexedFileIndexer.run asciiLibraries false abAndC.toSnapshot abKnown
      [[47, 112, 47, 97, 47, 99]]).dbis.docUrlDb [47, 112, 47, 97, 47, 99] := by
  have hsplit : ∀ {before after : List QByteArray} {raw : QByteArray},
      [[47, 112, 47, 97, 47, 99]] = before ++ raw :: after → before = [] ∧ raw = [47, 112, 47, 97, 47, 99] := by
    intro before after raw heq
    rcases before with _ | ⟨first, before⟩
    · exact ⟨rfl, (List.cons.inj heq).1.symm⟩
    · have hlen := congrArg List.length heq
      simp at hlen
  have hyields : ∀ {path}, UnindexedFileIndexer.Yields asciiLibraries false abAndC.toSnapshot abKnown
      [[47, 112, 47, 97, 47, 99]] path → path = [47, 112, 47, 97, 47, 99] := by
    rintro path ⟨before, raw, after, heq, rfl, -⟩
    obtain ⟨-, rfl⟩ := hsplit heq
    rfl
  -- the entries that are stored are where they belong
  have hclean : ∀ path, (∀ i ∈ [1, 2, 5], abKnown.dbis.docUrlDb.idFilenameDb.get i = some (abAndC.place path) →
      abAndC.lstat path = some i) →
      ¬ UnindexedFileIndexer.Leftover asciiLibraries false abAndC.toSnapshot abKnown
        [[47, 112, 47, 97, 47, 99]] path := by
    rintro path hplaces ⟨j, hj, hne, -⟩
    exact hne (hplaces j (by simpa using abKnown_get hj) hj)
  have hself : UnindexedFileIndexer.Yields asciiLibraries false abAndC.toSnapshot abKnown
      [[47, 112, 47, 97, 47, 99]] [47, 112, 47, 97, 47, 99] := ⟨[], _, [], rfl, by decide, by decide⟩
  refine (one_path asciiLibraries false abAndC abKnown_forest abKnown_wellNamed ?_ ?_).mpr
    (fun path hp => ?_) _ hself
  · intro path dir i hp hdir _ hid
    obtain rfl := hyields hp
    -- the directories above are `/p` and `/p/a`
    have hcases : dir = [47, 112] ∨ dir = [47, 112, 47, 97] := by
      have habove := (@isAncestor_append [47, 112, 47, 97] [99] dir (by decide)).mp hdir
      rcases habove with ⟨-, rfl⟩ | habove
      · exact .inr rfl
      · rcases (@isAncestor_append [47, 112] [97] dir (by decide)).mp habove with ⟨-, rfl⟩ | habove
        · exact .inl rfl
        · rcases (@isAncestor_append [] [112] dir (by decide)).mp habove with ⟨hne, rfl⟩ | ⟨hne, rest, hnil⟩
          · exact absurd rfl hne
          · exact absurd (congrArg List.length hnil) (by simp)
    rcases hcases with rfl | rfl
    · obtain rfl : 5 = i := Option.some.inj hid
      refine ⟨fun place hplace => ?_, hclean _ (by decide)⟩
      exact Option.some.inj (hplace.symm.trans rfl)
    · obtain rfl : 1 = i := Option.some.inj hid
      refine ⟨fun place hplace => ?_, hclean _ (by decide)⟩
      exact Option.some.inj (hplace.symm.trans rfl)
  · intro before raw after i heq hid
    obtain ⟨rfl, rfl⟩ := hsplit heq
    obtain rfl : 3 = i := Option.some.inj hid
    exact fun _ => .inl ⟨by decide, fun hnone => absurd hnone (by decide)⟩
  · obtain rfl := hyields hp
    exact ⟨hclean _ (by decide), by decide⟩

/-- `/p/a/b` has been replaced by another directory. -/
def abReplaced : DirectoryTree :=
  .ofEntries [{ components := [[112]], id := 5, stat := { isDir := true } },
    { components := [[112], [97]], id := 1, stat := { isDir := true } },
    { components := [[112], [97], [98]], id := 3, stat := { isDir := true } }] (by decide) (by decide)

/-- The entry of the old directory stays, and it is the one that `documentId` finds. -/
theorem replaced_path_twice : ¬ ∀ (tree : DirectoryTree) (w : WriteTransaction) (paths : List QByteArray),
    UrlForest w → w.dbis.docUrlDb.WellNamed → w.dbis.docUrlDb.Distinct →
    ∀ path, UnindexedFileIndexer.Yields asciiLibraries false tree.toSnapshot w paths path →
      UnindexedFileIndexer.OnePath tree.toSnapshot
        (UnindexedFileIndexer.run asciiLibraries false tree.toSnapshot w paths).dbis.docUrlDb path := by
  intro h
  have hdistinct : abKnown.dbis.docUrlDb.Distinct := by
    have hall : ∀ i ∈ [1, 2, 5], ∀ j ∈ [1, 2, 5], abKnown.dbis.docUrlDb.idFilenameDb.get i =
        abKnown.dbis.docUrlDb.idFilenameDb.get j → i = j := by decide
    intro i j path hi hj
    exact hall i (by simpa using abKnown_get hi) j (by simpa using abKnown_get hj) (hi.trans hj.symm)
  obtain ⟨id, hid, -, hfound⟩ := h abReplaced abKnown [[47, 112, 47, 97, 47], [47, 112, 47, 97, 47, 98]]
    abKnown_forest abKnown_wellNamed hdistinct [47, 112, 47, 97, 47, 98]
    ⟨[[47, 112, 47, 97, 47]], _, [], rfl, by decide, by decide +kernel⟩
  obtain rfl : 3 = id := Option.some.inj hid
  exact absurd hfound (by decide +kernel)

end Baloo
