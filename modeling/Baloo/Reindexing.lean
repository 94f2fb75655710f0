import Baloo.Settling

/-!
# Re-indexing what has been moved

For a known id the jobs for modified files and for changed attributes write the place where the path is
now: the name, and the id that `lstat` gives for the directory. They do not look at what the index has
under this id. If the directory is stored, not below the entry that is moved, and not too deep, the URL
tree stays a forest and the entry gets its path; otherwise it does not (`reindex_forest`). The index lags
behind the disk, so the directory may still be recorded below the entry (`moved_below_itself`).
-/

namespace Baloo

open Forest (Rooted Above Depth)

/-- The jobs that write the place of a known id. -/
inductive ReindexJob where
  | modifiedFileIndexer
  | xattrIndexer

/-- A path is handed to one of the jobs. -/
structure Reindex where
  job : ReindexJob
  tree : DirectoryTree
  path : QByteArray

namespace Reindex

variable (lib : Libraries) (config : FileIndexerConfig) (onlyBasicIndexing : Bool)

/-- What the job does. -/
def visit (step : Reindex) (w : WriteTransaction) : WriteTransaction :=
  match step.job with
  | .modifiedFileIndexer =>
    ModifiedFileIndexer.visit lib config onlyBasicIndexing step.tree.toSnapshot w step.path
  | .xattrIndexer => XAttrIndexer.visit lib config onlyBasicIndexing step.tree.toSnapshot w step.path

/-- The document whose place the job writes, if it does. -/
def moved (step : Reindex) (db : Database) : Option Document :=
  let filePath := chop step.path
  match step.job with
  | .modifiedFileIndexer =>
    match ModifiedFileIndexer.decide lib config onlyBasicIndexing step.tree.toSnapshot db filePath with
    | .index mimetype true _ =>
      BasicIndexingJob.index lib step.tree.toSnapshot filePath mimetype (indexingLevel onlyBasicIndexing)
    | _ => none
  | .xattrIndexer =>
    if !config.shouldFileBeIndexed (decodedName lib filePath) then none
    else
      (BasicIndexingJob.index lib step.tree.toSnapshot filePath (lib.mimeTypeForFile filePath) .NoLevel).filter
        fun doc => db.docUrlDb.contains doc.id

/-- The directory of the document is stored within the depth that paths may have, and it is not the
document itself or below it. -/
def Safe (step : Reindex) (db : Database) : Prop :=
  ∀ doc, step.moved lib config onlyBasicIndexing db = some doc →
    (∃ n, n ≤ 512 ∧ Depth db.docUrlDb.parent 0 n doc.parentId) ∧
      ¬ Above db.docUrlDb.parent doc.id doc.parentId

/-- The tree is a forest, and the document that was moved has a path that ends in its name, with all the
entries above it stored. -/
def Sound (step : Reindex) (db : Database) (w' : WriteTransaction) : Prop :=
  UrlForest w' ∧ ∀ doc, step.moved lib config onlyBasicIndexing db = some doc →
    (∃ dir, w'.dbis.docUrlDb.get doc.id = dir ++ slash :: mid doc.url (lastIndexOf slash doc.url + 1)) ∧
    ∀ a, Above w'.dbis.docUrlDb.parent a doc.id → a = 0 ∨ w'.dbis.docUrlDb.idFilenameDb.contains a = true

end Reindex

/-! ## What a step does to the URL tree -/

theorem decide_index {lib : Libraries} {config : FileIndexerConfig} {onlyBasicIndexing : Bool}
    {fs : Snapshot} {db : Database} {filePath : QByteArray} {mimetype : List QChar} {isKnownFile : Bool}
    {fileId : DocId}
    (h : ModifiedFileIndexer.decide lib config onlyBasicIndexing fs db filePath =
      .index mimetype isKnownFile fileId) :
    fs.lstat filePath = some fileId ∧ isKnownFile = db.docUrlDb.contains fileId := by
  rw [ModifiedFileIndexer.decide] at h
  split at h
  · cases h
  · split at h
    · cases h
    · next id hid =>
      dsimp only at h
      split_ifs at h
      · cases h
        exact ⟨hid, rfl⟩
      · cases h
        exact ⟨hid, rfl⟩

namespace Reindex

variable {lib : Libraries} {config : FileIndexerConfig} {onlyBasicIndexing : Bool} {step : Reindex}
  {w : WriteTransaction}

/-- A job leaves the URL tree alone, adds an entry that is not stored, or writes the place of one that
is. -/
theorem visit_cases (lib : Libraries) (config : FileIndexerConfig) (onlyBasicIndexing : Bool)
    (step : Reindex) (w : WriteTransaction) :
    step.moved lib config onlyBasicIndexing w.dbis = none ∧
        (step.visit lib config onlyBasicIndexing w).dbis.docUrlDb = w.dbis.docUrlDb ∨
      (∃ mimetype doc, step.moved lib config onlyBasicIndexing w.dbis = none ∧
        BasicIndexingJob.Describes lib step.tree.toSnapshot (chop step.path) mimetype doc ∧
        w.dbis.docUrlDb.contains doc.id = false ∧
        (step.visit lib config onlyBasicIndexing w).dbis.docUrlDb =
          (WriteTransaction.addUrl step.tree.toFileSystem w.dbis.docUrlDb doc).1) ∨
      ∃ mimetype doc, step.moved lib config onlyBasicIndexing w.dbis = some doc ∧
        BasicIndexingJob.Describes lib step.tree.toSnapshot (chop step.path) mimetype doc ∧
        w.dbis.docUrlDb.contains doc.id = true ∧
        (step.visit lib config onlyBasicIndexing w).dbis.docUrlDb =
          w.dbis.docUrlDb.updateUrl doc.id doc.parentId (mid doc.url (lastIndexOf slash doc.url + 1)) := by
  obtain ⟨job, tree, path⟩ := step
  cases job with
  | modifiedFileIndexer =>
    simp only [visit, moved, ModifiedFileIndexer.visit]
    rcases hdecide : ModifiedFileIndexer.decide lib config onlyBasicIndexing tree.toSnapshot w.dbis (chop path)
      with _ | doc | ⟨mimetype, isKnownFile, fileId⟩
    · exact .inl ⟨rfl, rfl⟩
    · obtain ⟨docTermsDb, docXattrTermsDb, docFilenameTermsDb, hframe⟩ :=
        w.replaceDocument_frame doc { documentTime := true }
      exact .inl ⟨rfl, by dsimp only; rw [hframe]; rfl⟩
    · obtain ⟨hid, hknown⟩ := decide_index hdecide
      dsimp only
      rcases hindex : BasicIndexingJob.index lib tree.toSnapshot (chop path) mimetype
        (indexingLevel onlyBasicIndexing) with _ | doc
      · refine .inl ⟨?_, rfl⟩
        cases isKnownFile
        · rfl
        · exact hindex
      · have hdescribes := BasicIndexingJob.index_describes hindex
        have hsame : doc.id = fileId := by
          have hdoc := hdescribes.id
          rw [chop_of_isPath (tree.isPath _ _ hid)] at hdoc
          exact Option.some.inj (hdoc.symm.trans hid)
        dsimp only
        cases isKnownFile with
        | true =>
          refine .inr (.inr ⟨mimetype, doc, hindex, hdescribes, ?_, ?_⟩)
          · rw [hsame]
            exact hknown.symm
          · rw [if_pos (by simp [hsame])]
            exact docUrlDb_replaceDocument w doc rfl
        | false =>
          refine .inr (.inl ⟨mimetype, doc, rfl, hdescribes, ?_, ?_⟩)
          · rw [hsame]
            exact hknown.symm
          · exact docUrlDb_addDocument _ w doc
  | xattrIndexer =>
    simp only [visit, moved, XAttrIndexer.visit]
    split
    · exact .inl ⟨rfl, rfl⟩
    · rcases hindex : BasicIndexingJob.index lib tree.toSnapshot (chop path)
        (lib.mimeTypeForFile (chop path)) .NoLevel with _ | doc
      · exact .inl ⟨rfl, rfl⟩
      · have hdescribes := BasicIndexingJob.index_describes hindex
        dsimp only
        rcases hknown : w.dbis.docUrlDb.contains doc.id with _ | _
        · refine .inr (.inl ⟨lib.mimeTypeForFile (chop path), doc, ?_, hdescribes, hknown, ?_⟩)
          · simp [hknown]
          · exact docUrlDb_addDocument _ w _
        · refine .inr (.inr ⟨lib.mimeTypeForFile (chop path), doc, ?_, hdescribes, hknown, ?_⟩)
          · simp [hknown]
          · exact docUrlDb_replaceDocument w doc rfl

end Reindex

/-! ## The place that is written -/

namespace DocumentUrlDB

variable {db : DocumentUrlDB} {i p q : DocId} {name : QByteArray}

theorem getLoop_of_depth {n limit : ℕ} (h : Depth db.parent 0 n p) (hn : n ≤ limit) (hzero : db.parent 0 = none)
    (ret : QByteArray) : ∃ dir, db.getLoop limit ret p = dir ++ ret := by
  induction h generalizing limit ret with
  | root => exact ⟨[], getLoop_root db limit ret⟩
  | @step n x p hp _ ih =>
    obtain ⟨limit, rfl⟩ : ∃ k, limit = k + 1 := ⟨limit - 1, by omega⟩
    obtain ⟨path, hpath, rfl⟩ := Option.map_eq_some_iff.mp hp
    have hx : x ≠ 0 := by
      rintro rfl
      rw [hzero] at hp
      cases hp
    obtain ⟨dir, hdir⟩ := ih (Nat.le_of_succ_le_succ hn) (slash :: path.name ++ ret)
    refine ⟨dir ++ slash :: path.name, ?_⟩
    rw [getLoop_of_some hx hpath, hdir, List.append_assoc, List.cons_append]

theorem depth_of_getLoop {limit : ℕ} {ret : QByteArray} (h : db.getLoop limit ret p ≠ []) :
    ∃ n, n ≤ limit ∧ Depth db.parent 0 n p := by
  induction limit generalizing ret p with
  | zero =>
    by_cases hp : p = 0
    · rw [hp]
      exact ⟨0, Nat.le_refl 0, .root⟩
    · exact absurd (getLoop_limit db hp ret) h
  | succ limit ih =>
    by_cases hp : p = 0
    · rw [hp]
      exact ⟨0, Nat.zero_le _, .root⟩
    · rcases hget : db.idFilenameDb.get p with _ | path
      · exact absurd (getLoop_of_none hp hget _ ret) h
      · rw [getLoop_of_some hp hget] at h
        obtain ⟨n, hn, hdepth⟩ := ih h
        exact ⟨n + 1, Nat.succ_le_succ hn, .step (by rw [parent, hget]; rfl) hdepth⟩

/-- What is stored for an entry after its place has been written. -/
theorem get_updateUrl (hi : i ≠ 0) (hstored : db.parent i = some q) :
    (db.updateUrl i p name).get i = (db.updateUrl i p name).getLoop 512 (slash :: name) p := by
  obtain ⟨path, hpath, -⟩ := Option.map_eq_some_iff.mp hstored
  rw [get, if_neg hi, idFilenameDb_updateUrl hpath, if_pos rfl]

/-- **Writing the place of an entry** keeps the forest and gives the entry a path exactly if the directory
is stored within the depth that paths may have and is not the entry or below it. -/
theorem updateUrl_iff (h : db.IsForest) (hi : db.parent i = some q) (hp : p ≠ 0) :
    (db.updateUrl i p name).IsForest ∧ (∃ dir, (db.updateUrl i p name).get i = dir ++ slash :: name) ↔
      (∃ n, n ≤ 512 ∧ Depth db.parent 0 n p) ∧ ¬ Above db.parent i p := by
  have hne : i ≠ 0 := h.ne_zero hi
  have hparent := @parent_updateUrl db i p q name hi
  have hkeeps : ∀ {n : ℕ}, ¬ Above db.parent i p → Depth db.parent 0 n p →
      Depth (db.updateUrl i p name).parent 0 n p := by
    intro n hnot hdepth
    refine hdepth.congr fun y hy _ => ?_
    rw [hparent, Function.update_of_ne]
    rintro rfl
    exact hnot hy
  constructor
  · rintro ⟨hforest, dir, hdir⟩
    have hnew : (db.updateUrl i p name).parent i = some p := by rw [hparent, Function.update_self]
    have hnot : ¬ Above db.parent i p := by
      intro habove
      have hmoved := hparent ▸ @Above.move _ _ _ i p p habove
      exact (hforest.rooted i p hnew).not_above hforest.zero hnew hmoved
    have hpath : (db.updateUrl i p name).getLoop 512 (slash :: name) p ≠ [] := by
      rw [← get_updateUrl hne hi, hdir]
      exact List.append_ne_nil_of_right_ne_nil _ (List.cons_ne_nil _ _)
    obtain ⟨n, hn, hdepth⟩ := depth_of_getLoop hpath
    refine ⟨⟨n, hn, hdepth.congr fun y hy _ => ?_⟩, hnot⟩
    rw [hparent, Function.update_of_ne]
    rintro rfl
    exact (hforest.rooted y p hnew).not_above hforest.zero hnew hy
  · rintro ⟨⟨n, hn, hdepth⟩, hnot⟩
    have hstored : p = 0 ∨ ∃ r, db.parent p = some r := by
      cases hdepth with
      | root => exact .inl rfl
      | step hr _ => exact .inr ⟨_, hr⟩
    have hforest : (db.updateUrl i p name).IsForest := h.updateUrl hi hstored hnot
    refine ⟨hforest, ?_⟩
    rw [get_updateUrl hne hi]
    exact getLoop_of_depth (hkeeps hnot hdepth) hn hforest.zero _

end DocumentUrlDB

namespace Reindex

variable {lib : Libraries} {config : FileIndexerConfig} {onlyBasicIndexing : Bool} {w : WriteTransaction}

/-- One step does what it should exactly if it is safe. -/
theorem sound_iff (h : UrlForest w) (step : Reindex) :
    step.Sound lib config onlyBasicIndexing w.dbis (step.visit lib config onlyBasicIndexing w) ↔
      step.Safe lib config onlyBasicIndexing w.dbis := by
  rcases visit_cases lib config onlyBasicIndexing step w with ⟨hmoved, hurl⟩ |
    ⟨mimetype, doc, hmoved, hdescribes, hfresh, hurl⟩ | ⟨mimetype, doc, hmoved, hdescribes, hstored, hurl⟩
  · refine iff_of_true ⟨?_, fun doc hdoc => ?_⟩ fun doc hdoc => ?_
    · rw [UrlForest, hurl]
      exact h
    · rw [hmoved] at hdoc
      cases hdoc
    · rw [hmoved] at hdoc
      cases hdoc
  · refine iff_of_true ⟨?_, fun doc hdoc => ?_⟩ fun doc hdoc => ?_
    · obtain ⟨dir, name, -, hdocUrl, -, hslash, -, hid, hparentId, hdocId⟩ := hdescribes.split
      rw [DocumentUrlDB.contains, decide_eq_true hid, Bool.true_and] at hfresh
      rw [← hdocUrl] at hdocId
      rw [UrlForest, hurl]
      refine h.addUrl (DocumentUrlDB.parent_eq_none.mpr hfresh) (step.tree.closed _ _ hdocId) (fun _ => ?_)
        (OwnId.of_lstat hdocId)
      rw [hdocUrl, lastIndexOf_append hslash, left_append]
      exact hparentId
    · rw [hmoved] at hdoc
      cases hdoc
    · rw [hmoved] at hdoc
      cases hdoc
  · obtain ⟨dir, name, -, -, -, -, -, hid, hparentId, -⟩ := hdescribes.split
    rw [DocumentUrlDB.contains, decide_eq_true hid, Bool.true_and] at hstored
    obtain ⟨q, hq⟩ := DocumentUrlDB.exists_parent.mpr hstored
    have hp : doc.parentId ≠ 0 := fun hzero => step.tree.ne_zero _ (hzero ▸ hparentId)
    have hiff := @DocumentUrlDB.updateUrl_iff w.dbis.docUrlDb doc.id doc.parentId q
      (mid doc.url (lastIndexOf slash doc.url + 1)) h hq hp
    rw [← hurl] at hiff
    constructor
    · rintro ⟨hforest, hpath⟩ doc' hdoc'
      obtain rfl := Option.some.inj (hmoved.symm.trans hdoc')
      exact hiff.mp ⟨hforest, (hpath doc hmoved).1⟩
    · intro hsafe
      obtain ⟨hforest, hpath⟩ := hiff.mpr (hsafe doc hmoved)
      refine ⟨hforest, fun doc' hdoc' => ?_⟩
      obtain rfl := Option.some.inj (hmoved.symm.trans hdoc')
      refine ⟨hpath, fun a ha => ?_⟩
      have hnew : (step.visit lib config onlyBasicIndexing w).dbis.docUrlDb.parent doc.id =
          some doc.parentId := by
        rw [hurl, DocumentUrlDB.parent_updateUrl hq, Function.update_self]
      exact ((hforest.rooted _ _ hnew).above ha hforest.zero).imp_right DocumentUrlDB.exists_parent.mp

/-- What the steps do. -/
def run (lib : Libraries) (config : FileIndexerConfig) (onlyBasicIndexing : Bool) (w : WriteTransaction)
    (steps : List Reindex) : WriteTransaction :=
  steps.foldl (fun w step => step.visit lib config onlyBasicIndexing w) w

end Reindex

/-- **Re-indexing moved entries keeps the URL tree a forest, and gives each entry that was moved its path,
as long as every step is safe**: the directory the entry is moved to is stored, not below the entry, and
not too deep. A step that is not safe does neither. -/
theorem reindex_forest (lib : Libraries) (config : FileIndexerConfig) (onlyBasicIndexing : Bool)
    {w : WriteTransaction} (h : UrlForest w) (steps : List Reindex)
    (hsafe : ∀ before step after, steps = before ++ step :: after →
      step.Safe lib config onlyBasicIndexing (Reindex.run lib config onlyBasicIndexing w before).dbis) :
    (∀ before step after, steps = before ++ step :: after →
      step.Sound lib config onlyBasicIndexing (Reindex.run lib config onlyBasicIndexing w before).dbis
        (Reindex.run lib config onlyBasicIndexing w (before ++ [step]))) ∧
    ∀ step : Reindex,
      step.Sound lib config onlyBasicIndexing (Reindex.run lib config onlyBasicIndexing w steps).dbis
          (Reindex.run lib config onlyBasicIndexing w (steps ++ [step])) ↔
        step.Safe lib config onlyBasicIndexing (Reindex.run lib config onlyBasicIndexing w steps).dbis := by
  have hconcat : ∀ before step, Reindex.run lib config onlyBasicIndexing w (before ++ [step]) =
      step.visit lib config onlyBasicIndexing (Reindex.run lib config onlyBasicIndexing w before) :=
    fun before step => List.foldl_append
  have hforest : ∀ before after, steps = before ++ after →
      UrlForest (Reindex.run lib config onlyBasicIndexing w before) := by
    intro before
    induction before using List.reverseRecOn with
    | nil => exact fun after _ => h
    | append_singleton before step ih =>
      intro after heq
      rw [List.append_assoc, List.singleton_append] at heq
      rw [hconcat]
      exact ((Reindex.sound_iff (ih _ heq) step).mpr (hsafe before step after heq)).1
  refine ⟨fun before step after heq => ?_, fun step => ?_⟩
  · rw [hconcat]
    exact (Reindex.sound_iff (hforest before _ heq) step).mpr (hsafe before step after heq)
  · rw [hconcat]
    exact Reindex.sound_iff (hforest steps [] (List.append_nil _).symm) step

/-- The index knows the directories `/p`, `/p/a` and `/p/a/b`. -/
def abKnown : WriteTransaction where
  dbis := { docUrlDb := ((({} : DocumentUrlDB).add 5 0 [112]).add 1 5 [97]).add 2 1 [98] }

theorem abKnown_forest : UrlForest abKnown := by
  have hp : (({} : DocumentUrlDB).add 5 0 [112]).IsForest :=
    UrlForest.empty.add (by decide) (by decide) (by decide) (.inl rfl)
  have ha : ((({} : DocumentUrlDB).add 5 0 [112]).add 1 5 [97]).IsForest :=
    hp.add (by decide) (by decide) (by decide) (.inr ⟨0, by decide⟩)
  have hb : (((({} : DocumentUrlDB).add 5 0 [112]).add 1 5 [97]).add 2 1 [98]).IsForest :=
    ha.add (by decide) (by decide) (by decide) (.inr ⟨5, by decide⟩)
  exact hb

/-- The disk as the index knows it. -/
def abTree : DirectoryTree :=
  .ofEntries [{ components := [[112]], id := 5, stat := { isDir := true } },
    { components := [[112], [97]], id := 1, stat := { isDir := true } },
    { components := [[112], [97], [98]], id := 2, stat := { isDir := true } }] (by decide) (by decide)

/-- `/p/a/b` has become `/p/b`, and then `/p/a` has become `/p/b/a`. -/
def baTree : DirectoryTree :=
  .ofEntries [{ components := [[112]], id := 5, stat := { isDir := true } },
    { components := [[112], [98]], id := 2, stat := { isDir := true } },
    { components := [[112], [98], [97]], id := 1, stat := { isDir := true } }] (by decide) (by decide)

/-- `/p/b` first: its directory `/p` is where it was. -/
theorem reindex_forest_baTree :
    Reindex.Sound asciiLibraries noFolders false ⟨.xattrIndexer, baTree, [47, 112, 47, 98]⟩ abKnown.dbis
      (Reindex.run asciiLibraries noFolders false abKnown [⟨.xattrIndexer, baTree, [47, 112, 47, 98]⟩]) := by
  refine (reindex_forest asciiLibraries noFolders false abKnown_forest
    [⟨.xattrIndexer, baTree, [47, 112, 47, 98]⟩] ?_).1 [] _ [] rfl
  intro before step after heq
  obtain ⟨rfl, rfl, rfl⟩ : before = [] ∧ step = ⟨.xattrIndexer, baTree, [47, 112, 47, 98]⟩ ∧ after = [] := by
    rcases before with _ | ⟨first, before⟩
    · obtain ⟨rfl, rfl⟩ := List.cons.inj heq
      exact ⟨rfl, rfl, rfl⟩
    · have hlen := congrArg List.length heq
      simp at hlen
  intro doc hdoc
  change Reindex.moved asciiLibraries noFolders false _ abKnown.dbis = some doc at hdoc
  change (∃ n, n ≤ 512 ∧ Depth abKnown.dbis.docUrlDb.parent 0 n doc.parentId) ∧
    ¬ Above abKnown.dbis.docUrlDb.parent doc.id doc.parentId
  have hids : (Reindex.moved asciiLibraries noFolders false ⟨.xattrIndexer, baTree, [47, 112, 47, 98]⟩
      abKnown.dbis).map (fun doc => (doc.id, doc.parentId)) = some (2, 5) := by decide +kernel
  rw [hdoc, Option.map_some, Option.some.injEq, Prod.mk.injEq] at hids
  have hroot : abKnown.dbis.docUrlDb.parent 5 = some 0 := by decide
  rw [hids.1, hids.2]
  refine ⟨⟨1, by decide, .step hroot .root⟩, fun habove => ?_⟩
  -- above `/p` there is nothing
  rcases Relation.ReflTransGen.cases_head habove with heq | ⟨p, hp, hrest⟩
  · cases heq
  · obtain rfl : 0 = p := Option.some.inj (hroot.symm.trans hp)
    rcases Relation.ReflTransGen.cases_head hrest with heq | ⟨q, hq, -⟩
    · cases heq
    · exact absurd (abKnown_forest.zero.symm.trans hq) (Option.some_ne_none q).symm

/-- `/p/b/a` first: its directory is still recorded below it, and the two become each other's
directory. -/
theorem moved_below_itself : ¬ ∀ (lib : Libraries) (config : FileIndexerConfig) (onlyBasicIndexing : Bool)
    (w : WriteTransaction) (earlier : DirectoryTree) (step : Reindex), UrlForest w →
    (∀ i, w.dbis.docUrlDb.idFilenameDb.contains i = true →
      earlier.lstat (w.dbis.docUrlDb.get i) = some i) →
    (∀ path i, earlier.lstat path = some i → ∃ path', step.tree.lstat path' = some i) →
    step.Sound lib config onlyBasicIndexing w.dbis (step.visit lib config onlyBasicIndexing w) := by
  intro h
  have hsound := h asciiLibraries noFolders false abKnown abTree ⟨.xattrIndexer, baTree, [47, 112, 47, 98, 47, 97]⟩
    abKnown_forest ?_ ?_
  · have hids : (Reindex.moved asciiLibraries noFolders false
        ⟨.xattrIndexer, baTree, [47, 112, 47, 98, 47, 97]⟩ abKnown.dbis).map
          (fun doc => (doc.id, doc.parentId)) = some (1, 2) := by decide +kernel
    obtain ⟨doc, hdoc, hpair⟩ := Option.map_eq_some_iff.mp hids
    rw [Prod.mk.injEq] at hpair
    obtain ⟨-, hnot⟩ := (Reindex.sound_iff abKnown_forest _).mp hsound doc hdoc
    rw [hpair.1, hpair.2] at hnot
    exact hnot (.single (by decide))
  · intro i hi
    have hkeys : OrdMap.keys abKnown.dbis.docUrlDb.idFilenameDb = [1, 2, 5] := by decide
    have hcases : i = 1 ∨ i = 2 ∨ i = 5 := by simpa [hkeys] using OrdMap.contains_iff_mem_keys.mp hi
    rcases hcases with rfl | rfl | rfl <;> decide
  · intro path i hi
    -- both trees have the same ids
    obtain ⟨entry, hentry, rfl⟩ := Option.map_eq_some_iff.mp hi
    have hids : entry.id = 5 ∨ entry.id = 1 ∨ entry.id = 2 := by
      have hmem := List.mem_map_of_mem (f := SnapshotEntry.id) (List.mem_of_find?_eq_some hentry)
      simpa using hmem
    rcases hids with hid | hid | hid
    · exact ⟨[47, 112], by rw [hid]; decide⟩
    · exact ⟨[47, 112, 47, 98, 47, 97], by rw [hid]; decide⟩
    · exact ⟨[47, 112, 47, 98], by rw [hid]; decide⟩

end Baloo
