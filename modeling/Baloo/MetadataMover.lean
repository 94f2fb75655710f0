import Baloo.DocumentVisits
import Baloo.PathLookup
import Baloo.Reindexing
import Baloo.SubtreeRemoval

/-!
# Moving the metadata of a file

When a file or a directory has been moved, `MetadataMover` moves its entry. Nobody reports the file that
was overwritten, so what the index has at the target is removed first; then the entry gets its new directory
and its new name, and the terms of the name are replaced. All of it is one transaction.

The entries below a moved directory are not touched: their paths change because their directory has moved
(`Moves.located_below`). So one call moves exactly one subtree (`metadata_moved`), if the index is
`Sound`, and the target is not at, above or below what is moved (`Movable`).
-/

namespace Baloo

open Forest (Above)

/-! ## The job -/

namespace WriteTransaction

/-- `MetadataMover::removeMetadata`. -/
def removeMetadata (fuel : ℕ) (w : WriteTransaction) (url : QByteArray) : Option WriteTransaction :=
  let id := w.dbis.docUrlDb.documentId url
  if id = 0 then some w
  else if url.getLast? ≠ some slash then some (w.removeDocument id)
  else w.removeRecursively fuel id

section

variable (tokens : Tokenizer) (decodeName : QByteArray → List QChar)

/-- `MetadataMover::updateMetadata`. The last slash stays with the path of the directory. -/
def updateMetadata (w : WriteTransaction) (source target : QByteArray) : WriteTransaction :=
  let toPath := chop target
  let fromPath := chop source
  let id := w.dbis.docUrlDb.documentId fromPath
  if id = 0 then w
  else
    let lastSlash := lastIndexOf slash toPath
    let parentPath := left toPath (lastSlash + 1)
    let parentId := w.dbis.docUrlDb.documentId parentPath
    if parentId = 0 then w
    else
      let fileName := mid toPath (lastSlash + 1)
      let doc : Document := { id := id, parentId := parentId, url := toPath }
      let tg := (TermGenerator.mk doc 1).indexFileNameText tokens (decodeName fileName)
      w.replaceDocument tg.doc { documentUrl := true, fileNameTerms := true }

/-- `MetadataMover::moveFileMetadata`, up to the commit. -/
def moveFileMetadata (fuel : ℕ) (w : WriteTransaction) (source target : QByteArray) :
    Option WriteTransaction :=
  (w.removeMetadata fuel target).map fun w => w.updateMetadata tokens decodeName source target

end

end WriteTransaction

/-! ## Paths -/

namespace DocumentUrlDB

variable {db db' : DocumentUrlDB} {n m : ℕ} {id i a : DocId} {url path source target : QByteArray}

theorem documentId_chop (db : DocumentUrlDB) (path : QByteArray) : db.documentId (chop path) = db.documentId path := by
  rw [chop]
  split
  · next hlast =>
    have hpath : path = path.dropLast ++ [slash] := (List.dropLast_append_getLast? slash hlast).symm
    rw [← documentId_slash, ← hpath]
  · rfl

/-- Where siblings have different names, `documentId` finds every entry. -/
theorem Located.documentId_eq (h : db.Located n id url) (hc : db.Consistent) (hn : db.WellNamed)
    (hd : db.Distinct) : db.documentId url = id :=
  h.documentId hc hn fun _ a _ path _ _ ha j hj => hd j a path hj ha

/-- A climb passes the directories above the path. -/
theorem Located.above (h : db.Located n i url) (ha : Above db.parent a i) (hzero : db.parent 0 = none) :
    ∃ m u, db.Located m a u ∧ (a = i ∧ u = url ∨ ∃ rest, url = u ++ slash :: rest) := by
  induction h with
  | root =>
    rcases Relation.ReflTransGen.cases_head ha with rfl | ⟨q, hq, -⟩
    · exact ⟨0, [], .root, .inl ⟨rfl, rfl⟩⟩
    · rw [hzero] at hq
      cases hq
  | @entry n i path url hi hget hparent ih =>
    rcases Relation.ReflTransGen.cases_head ha with rfl | ⟨q, hq, hrest⟩
    · exact ⟨n + 1, _, .entry hi hget hparent, .inl ⟨rfl, rfl⟩⟩
    · obtain rfl : path.parentId = q := by
        rw [DocumentUrlDB.parent, hget] at hq
        exact Option.some.inj hq
      obtain ⟨m, u, hu, ⟨-, rfl⟩ | ⟨rest, rfl⟩⟩ := ih hrest
      · exact ⟨m, u, hu, .inr ⟨path.name, rfl⟩⟩
      · exact ⟨m, u, hu, .inr ⟨rest ++ slash :: path.name, by simp⟩⟩

/-- Where an entry is depends on the entries above it only. -/
theorem Located.congr (h : db.Located n i url)
    (hsame : ∀ a, a ≠ 0 → Above db.parent a i → db'.idFilenameDb.get a = db.idFilenameDb.get a) :
    db'.Located n i url := by
  induction h with
  | root => exact .root
  | @entry n i path url hi hget _ ih =>
    have hparent : db.parent i = some path.parentId := by rw [DocumentUrlDB.parent, hget]; rfl
    refine .entry hi ((hsame i hi .refl).trans hget) (ih fun a ha habove => hsame a ha ?_)
    exact .head hparent habove

/-- What is somewhere is the root or is stored. -/
theorem Located.exists_get (h : db.Located n i url) (hi : i ≠ 0) : ∃ path, db.idFilenameDb.get i = some path := by
  cases h with
  | root => exact absurd rfl hi
  | entry _ hget _ => exact ⟨_, hget⟩

/-- The path of an entry that is too deep is not given. -/
theorem Located.get_eq_nil (h : db.Located n i url) (hn : 513 < n) : db.get i = [] := by
  by_contra hne
  obtain ⟨m, hm, hlocated⟩ := located_of_get hne
  have heq := (h.unique hlocated).1
  omega

/-- Above an entry outside a set of whole subtrees there is no entry of the set. -/
theorem notMem_of_above {S : Set DocId} (hclosed : ∀ i p, db.parent i = some p → p ∈ S → i ∈ S) (hi : i ∉ S)
    (ha : Above db.parent a i) : a ∉ S := by
  induction ha using Relation.ReflTransGen.head_induction_on with
  | refl => exact hi
  | head hp _ ih => exact ih fun hpS => hi (hclosed _ _ hp hpS)

/-! ## An entry gets a new place, and others are gone -/

/-- The entries in `S` are gone, `id` has got a new place, the others are where they were. -/
structure Moves (S : Set DocId) (id : DocId) (place : FilePath) (db db' : DocumentUrlDB) : Prop where
  moved : db'.idFilenameDb.get id = some place
  gone : ∀ i ∈ S, db'.idFilenameDb.get i = none
  kept : ∀ i, i ∉ S → i ≠ id → db'.idFilenameDb.get i = db.idFilenameDb.get i
  /-- what is below an entry that is gone is gone -/
  closed : ∀ i p, db.parent i = some p → p ∈ S → i ∈ S

section Moves

variable {S : Set DocId} {place : FilePath}

/-- Away from the moved entry nothing changes. -/
theorem Moves.located (h : Moves S id place db db') (hi : i ∉ S) (hid : ¬ Above db.parent id i)
    (hlocated : db.Located n i url) : db'.Located n i url :=
  hlocated.congr fun a _ ha => h.kept a (notMem_of_above h.closed hi ha) fun heq => hid (heq ▸ ha)

/-- **Below the moved entry the paths begin with the new one.** -/
theorem Moves.located_below (h : Moves S id place db db') (hid : id ≠ 0) (hzero : db.parent 0 = none)
    (hS : ∀ i, Above db.parent id i → i ∉ S) (hsource : db.Located m id source) {k : ℕ}
    (htarget : db'.Located k id target) (hbelow : Above db.parent id i) (hlocated : db.Located n i url) :
    ∃ l rest, url = source ++ rest ∧ db'.Located l i (target ++ rest) := by
  induction hlocated with
  | root =>
    rcases Relation.ReflTransGen.cases_head hbelow with heq | ⟨q, hq, -⟩
    · exact absurd heq.symm hid
    · rw [hzero] at hq
      cases hq
  | @entry n i path url hi hget hparent ih =>
    by_cases hself : i = id
    · subst hself
      have hlocated : db.Located (n + 1) i (url ++ slash :: path.name) := .entry hi hget hparent
      refine ⟨k, [], ?_, by rwa [List.append_nil]⟩
      rw [List.append_nil]
      exact (hlocated.unique hsource).2
    · rcases Relation.ReflTransGen.cases_head hbelow with heq | ⟨q, hq, hrest⟩
      · exact absurd heq hself
      · obtain rfl : path.parentId = q := by
          rw [DocumentUrlDB.parent, hget] at hq
          exact Option.some.inj hq
        obtain ⟨l, rest, rfl, hl⟩ := ih hrest
        refine ⟨l + 1, rest ++ slash :: path.name, by simp, ?_⟩
        rw [← List.append_assoc]
        exact .entry hi ((h.kept i (hS i hbelow) hself).trans hget) hl

theorem Moves.wellNamed (h : Moves S id place db db') (hn : db.WellNamed)
    (hname : place.name ≠ [] ∧ slash ∉ place.name) : db'.WellNamed := by
  intro i path hi
  by_cases hid : i = id
  · rw [hid, h.moved] at hi
    exact Option.some.inj hi ▸ hname
  · by_cases hS : i ∈ S
    · rw [h.gone i hS] at hi
      cases hi
    · exact hn i path ((h.kept i hS hid).symm.trans hi)

/-- Names stay different, if the new place is free. -/
theorem Moves.distinct (h : Moves S id place db db') (hd : db.Distinct)
    (hfree : ∀ i, i ≠ id → db.idFilenameDb.get i = some place → i ∈ S) : db'.Distinct := by
  -- an entry that stays was there before
  have hold : ∀ {i path}, i ≠ id → db'.idFilenameDb.get i = some path →
      i ∉ S ∧ db.idFilenameDb.get i = some path := by
    intro i path hid hi
    have hS : i ∉ S := fun hS => by
      rw [h.gone i hS] at hi
      cases hi
    exact ⟨hS, (h.kept i hS hid).symm.trans hi⟩
  have hplace : ∀ {i path}, db'.idFilenameDb.get id = some path → i ≠ id →
      db'.idFilenameDb.get i ≠ some path := by
    intro i path hid hne hi
    obtain rfl := Option.some.inj (h.moved.symm.trans hid)
    obtain ⟨hS, hget⟩ := hold hne hi
    exact hS (hfree i hne hget)
  intro i j path hi hj
  by_cases hid : i = id
  · by_cases hjd : j = id
    · rw [hid, hjd]
    · exact absurd hj (hplace (hid ▸ hi) hjd)
  · by_cases hjd : j = id
    · exact absurd hi (hplace (hjd ▸ hj) hid)
    · exact hd i j path (hold hid hi).2 (hold hjd hj).2

/-- What stays away from the moved entry is where it was, and only there. -/
theorem Moves.located_iff (h : Moves S id place db db') (hdb : db.IsForest) (hi : i ∉ S)
    (hid : ¬ Above db.parent id i) : db'.Located n i url ↔ db.Located n i url := by
  refine ⟨fun hlocated => ?_, h.located hi hid⟩
  by_cases hzero : i = 0
  · subst hzero
    obtain ⟨rfl, rfl⟩ := hlocated.unique .root
    exact .root
  · have hne : i ≠ id := fun heq => hid (heq ▸ .refl)
    have hstored : db.idFilenameDb.contains i = true := by
      obtain ⟨path, hget⟩ := hlocated.exists_get hzero
      exact OrdMap.contains_iff.mpr ⟨path, (h.kept i hi hne).symm.trans hget⟩
    obtain ⟨m, url', hlocated'⟩ := hdb.exists_located hstored
    obtain ⟨rfl, rfl⟩ := hlocated.unique (h.located hi hid hlocated')
    exact hlocated'

end Moves

end DocumentUrlDB

/-! ## The terms of the name -/

section Terms

variable {w : WriteTransaction} {id i : DocId} {f : Family} {terms : OrdMap Term TermData} {t : Term}

/-- The URL tree holds no terms. -/
theorem TermsAgree.setUrls (h : TermsAgree w) (urls : DocumentUrlDB) :
    TermsAgree { w with dbis := { w.dbis with docUrlDb := urls } } := by
  refine h.congr rfl ?_ rfl rfl
  funext f
  cases f <;> rfl

/-- The document is posted under the new terms, and under the old ones that are not of the family. -/
theorem posted_replaceFamily : ((w.replaceFamily id f terms).entry t id).posted = true ↔
    t ∈ terms.keys ∨ t ∉ (w.dbis.termsDb f).get id ∧ (w.entry t id).posted = true := by
  rw [entry_replaceFamily, WriteTransaction.replaceTerms, WriteTransaction.entry_addTerms,
    WriteTransaction.entry_removeTerms]
  rcases hget : terms.get t with _ | td
  · have hnot : t ∉ terms.keys := fun ht => by
      obtain ⟨td, htd⟩ := OrdMap.mem_keys.mp ht
      rw [hget] at htd
      cases htd
    by_cases hold : t ∈ (w.dbis.termsDb f).get id
    · simp [hold, hnot]
    · simp [hold, hnot]
  · have ht : t ∈ terms.keys := OrdMap.mem_keys.mpr ⟨td, hget⟩
    simp [ht, Entry.apply]

theorem positions_replaceFamily (hpositions : (w.entry t id).posted = false → (w.entry t id).positions = none)
    (h : ((w.replaceFamily id f terms).entry t id).posted = false) :
    ((w.replaceFamily id f terms).entry t id).positions = none := by
  rw [entry_replaceFamily, WriteTransaction.replaceTerms, WriteTransaction.entry_addTerms,
    WriteTransaction.entry_removeTerms] at h ⊢
  rcases hget : terms.get t with _ | td
  · rw [hget] at h
    dsimp only at h ⊢
    split
    · rfl
    · next hold =>
      rw [if_neg hold] at h
      exact hpositions h
  · rw [hget] at h
    simp [Entry.apply] at h

/-- New terms of the name keep the tables in agreement. -/
theorem TermsAgree.replaceFileNames (h : TermsAgree w) (id : DocId)
    (hclean : ∀ t, terms.contains t = true → DocTermsCodec.Clean t)
    (hnames : ∀ t, terms.contains t = true → TermGenerator.fileNamePrefix <+: t) :
    TermsAgree (w.replaceFamily id .fileNameTerms terms) := by
  have hget := get_termsDb_replaceFamily w id .fileNameTerms hclean
  refine ⟨fun t i => ?_, fun t i => ?_, fun t i f ht => ?_, ?_⟩
  · simp only [hget]
    by_cases hi : i = id
    · subst hi
      rw [posted_replaceFamily, h.posted]
      constructor
      · rintro (ht | ⟨hnot, f, hf⟩)
        · exact ⟨.fileNameTerms, by rwa [if_pos ⟨rfl, rfl⟩]⟩
        · refine ⟨f, ?_⟩
          rw [if_neg]
          · exact hf
          · rintro ⟨rfl, -⟩
            exact hnot hf
      · rintro ⟨f, hf⟩
        by_cases hname : f = .fileNameTerms
        · rw [if_pos ⟨hname, rfl⟩] at hf
          exact .inl hf
        · rw [if_neg fun h => hname h.1] at hf
          -- a term of another family is no term of a name
          refine .inr ⟨fun hold => hname ?_, f, hf⟩
          exact (h.fileName t i f hf).mpr ((h.fileName t i _ hold).mp rfl)
    · simp only [entry_replaceFamily_of_ne hi, hi, and_false, if_false]
      exact h.posted t i
  · by_cases hi : i = id
    · subst hi
      exact positions_replaceFamily (h.positions t i)
    · rw [entry_replaceFamily_of_ne hi]
      exact h.positions t i
  · rw [hget] at ht
    split at ht
    · next hf => exact ⟨fun _ => hnames t (OrdMap.contains_iff_mem_keys.mpr ht), fun _ => hf.1⟩
    · exact h.fileName t i f ht
  · exact Database.ListsSorted.setTermsDb h.sorted _ .fileNameTerms

/-- The terms of a name survive the codec, and they begin with the prefix of names. -/
theorem clean_fileNameTerms {tokens : Tokenizer}
    (hclean : ∀ text, ∀ t ∈ tokens.termList text, DocTermsCodec.Clean t) (name : List QChar) (t : Term)
    (ht : (fileNameTerms tokens name).contains t = true) :
    DocTermsCodec.Clean t ∧ TermGenerator.fileNamePrefix <+: t := by
  obtain ⟨term, hterm, rfl⟩ := (contains_fileNameTerms tokens name t).mp ht
  refine ⟨fun b hb => ?_, List.prefix_append _ _⟩
  rcases List.mem_append.mp hb with hb | hb
  · rw [List.mem_singleton.mp hb]
    decide
  · exact hclean name term hterm b hb

/-- Replacing the path and the terms of the name writes the URL tree and one family. -/
theorem replaceDocument_move (w : WriteTransaction) {doc : Document} (hdoc : doc.contentIndexing = false) :
    w.replaceDocument doc { documentUrl := true, fileNameTerms := true } =
      { w.replaceFamily doc.id .fileNameTerms doc.fileNameTerms with
        dbis := { (w.replaceFamily doc.id .fileNameTerms doc.fileNameTerms).dbis with
          docUrlDb := w.dbis.docUrlDb.updateUrl doc.id doc.parentId
            (mid doc.url (lastIndexOf slash doc.url + 1)) } } := by
  simp only [WriteTransaction.replaceDocument, WriteTransaction.replaceData, replaceFileNameTerms_eq, hdoc,
    if_true, if_false, Bool.false_eq_true, false_and]
  rfl

end Terms

/-! ## What is assumed -/

/-- The tables are in order: the URL tree is a forest with proper names, siblings have different names, the
postings agree with the terms, and the pairs of `MTimeDB` are those of records. -/
structure Database.Sound (db : Database) : Prop where
  forest : db.docUrlDb.IsForest
  wellNamed : db.docUrlDb.WellNamed
  distinct : db.docUrlDb.Distinct
  terms : TermsAgree { dbis := db }
  times : PairsRecorded { dbis := db }

/-- The path of the directory of a path. -/
def parentPath (path : QByteArray) : QByteArray := left path (lastIndexOf slash path)

/-- The last component of a path. -/
def lastName (path : QByteArray) : QByteArray := mid path (lastIndexOf slash path + 1)

/-- A move as the watcher reports it: the paths may end with a slash. -/
structure Movable (db : DocumentUrlDB) (source target : QByteArray) : Prop where
  isPath_source : IsPath (chop source)
  isPath_target : IsPath (chop target)
  /-- what is moved is known -/
  known : db.documentId source ≠ 0
  /-- and so is the new directory -/
  directory : db.documentId (parentPath (chop target)) ≠ 0
  /-- the new directory is not at or below what is moved -/
  directory_apart : parentPath (chop target) ≠ chop source ∧
    ¬ IsAncestor (chop source) (parentPath (chop target))
  /-- the target is not at or above what is moved -/
  target_apart : chop target ≠ chop source ∧ ¬ IsAncestor (chop target) (chop source)
  /-- what is at the target is a directory only if the path says so -/
  leaf : db.documentId target ≠ 0 → target.getLast? ≠ some slash → db.getChildren (db.documentId target) = []

/-- What the index has at the target, and below. -/
def overwritten (db : DocumentUrlDB) (target : QByteArray) : Set DocId :=
  {i | db.documentId target ≠ 0 ∧ Above db.parent (db.documentId target) i}

/-! ## The target is removed -/

section Removal

variable {w w' : WriteTransaction} {fuel : ℕ} {target : QByteArray}

theorem overwritten_closed (db : DocumentUrlDB) (target : QByteArray) (i p : DocId) (hp : db.parent i = some p)
    (h : p ∈ overwritten db target) : i ∈ overwritten db target := ⟨h.1, .head hp h.2⟩

/-- An entry without children is the only one at or below it. -/
theorem above_of_leaf {db : DocumentUrlDB} {id i : DocId} (hc : db.Consistent) (hleaf : db.getChildren id = []) :
    Above db.parent id i ↔ i = id := by
  refine ⟨fun h => ?_, fun h => h ▸ .refl⟩
  rcases Relation.ReflTransGen.cases_tail h with h | ⟨c, -, hc'⟩
  · exact h.symm
  · have hmem : c ∈ db.getChildren id := (hc.listed c id).mpr hc'
    rw [hleaf] at hmem
    exact absurd hmem List.not_mem_nil

/-- **The documents at and below the target are forgotten.** -/
theorem removeMetadata_forgets (hforest : UrlForest w)
    (hleaf : w.dbis.docUrlDb.documentId target ≠ 0 → target.getLast? ≠ some slash →
      w.dbis.docUrlDb.getChildren (w.dbis.docUrlDb.documentId target) = [])
    (hr : w.removeMetadata fuel target = some w') :
    Forgets (overwritten w.dbis.docUrlDb target) w w' ∧ UrlForest w' := by
  rw [WriteTransaction.removeMetadata] at hr
  by_cases hid : w.dbis.docUrlDb.documentId target = 0
  · rw [if_pos hid] at hr
    obtain rfl := Option.some.inj hr
    have hempty : overwritten w.dbis.docUrlDb target = ∅ :=
      Set.eq_empty_of_forall_notMem fun i hi => hi.1 hid
    rw [hempty]
    exact ⟨Forgets.refl w, hforest⟩
  · rw [if_neg hid] at hr
    have hbelow : overwritten w.dbis.docUrlDb target =
        {i | Above w.dbis.docUrlDb.parent (w.dbis.docUrlDb.documentId target) i} :=
      Set.ext fun i => and_iff_right hid
    rw [hbelow]
    by_cases hdir : target.getLast? ≠ some slash
    · rw [if_pos hdir] at hr
      obtain rfl := Option.some.inj hr
      have hself : {i | Above w.dbis.docUrlDb.parent (w.dbis.docUrlDb.documentId target) i} =
          {w.dbis.docUrlDb.documentId target} :=
        Set.ext fun i => above_of_leaf hforest.toConsistent (hleaf hid hdir)
      rw [hself]
      exact ⟨forgets_removeDocument w hid, hforest.del (hleaf hid hdir)⟩
    · rw [if_neg hdir] at hr
      exact ⟨hforest.forgets hid hr, (hforest.removeRecursively hr).1⟩

/-- What every removal of a document preserves, `removeMetadata` preserves. -/
theorem removeMetadata_preserves {P : WriteTransaction → Prop} (hremove : ∀ w id, P w → P (w.removeDocument id))
    (hw : P w) (hr : w.removeMetadata fuel target = some w') : P w' := by
  rw [WriteTransaction.removeMetadata] at hr
  split at hr
  · exact Option.some.inj hr ▸ hw
  · split at hr
    · exact Option.some.inj hr ▸ hremove w _ hw
    · exact removeRecursively_preserves hremove hw hr

theorem removeMetadata_total (hforest : UrlForest w) (target : QByteArray) :
    ∃ fuel w', w.removeMetadata fuel target = some w' := by
  obtain ⟨fuel, ⟨w', hw'⟩, -⟩ := hforest.removal_terminates (fun _ => true) (w.dbis.docUrlDb.documentId target)
  refine ⟨fuel, ?_⟩
  rw [WriteTransaction.removeMetadata]
  split
  · exact ⟨w, rfl⟩
  · split
    · exact ⟨_, rfl⟩
    · exact ⟨w', hw'⟩

end Removal

/-! ## The places -/

section Places

variable {db : DocumentUrlDB} {source target : QByteArray}
  (hforest : db.IsForest) (hnamed : db.WellNamed) (hmove : Movable db source target)
include hforest hmove

theorem Movable.located_source : ∃ n, db.Located n (db.documentId source) (chop source) := by
  have hknown := hmove.known
  rw [← DocumentUrlDB.documentId_chop] at hknown ⊢
  exact DocumentUrlDB.located_documentId hforest.toConsistent hmove.isPath_source hknown

/-- The target is a name in the new directory. -/
theorem Movable.split_target : ∃ dir name n, chop target = dir ++ slash :: name ∧ name ≠ [] ∧ slash ∉ name ∧
    parentPath (chop target) = dir ∧ lastName (chop target) = name ∧ db.Located n (db.documentId dir) dir := by
  obtain ⟨dir, name, htarget, hname, hslash⟩ := hmove.isPath_target.split
  have hlastName : lastName (chop target) = name := by
    rw [lastName, htarget, lastIndexOf_append hslash, mid_append]
  have hparent : parentPath (chop target) = dir := by
    rw [parentPath, htarget, lastIndexOf_append hslash, left_append]
  have hdirectory := hmove.directory
  rw [hparent] at hdirectory
  have hdir : IsPath dir := by
    obtain ⟨components, hne, hnames, hflatten⟩ := hmove.isPath_target
    obtain ⟨init, last, rfl⟩ := (List.eq_nil_or_concat' components).resolve_left hne
    have hpath : dir ++ slash :: name = (init.map (slash :: ·)).flatten ++ slash :: last := by
      rw [← htarget, hflatten]
      simp
    have hlast := (hnames last (by simp)).2
    have hpos := congrArg (lastIndexOf slash) hpath
    rw [lastIndexOf_append hslash, lastIndexOf_append hlast] at hpos
    obtain ⟨rfl, -⟩ := List.append_inj hpath (by exact_mod_cast hpos)
    refine ⟨init, ?_, fun c hc => hnames c (List.mem_append_left _ hc), rfl⟩
    rintro rfl
    exact hdirectory rfl
  obtain ⟨n, hn⟩ := DocumentUrlDB.located_documentId hforest.toConsistent hdir hdirectory
  exact ⟨dir, name, n, htarget, hname, hslash, hparent, hlastName, hn⟩

/-- What is at the path of the new directory is not at or below what is moved. -/
theorem Movable.not_above {j : DocId} {n : ℕ} (hj : db.Located n j (parentPath (chop target))) :
    ¬ Above db.parent (db.documentId source) j := by
  intro habove
  obtain ⟨m, hsource⟩ := hmove.located_source hforest
  obtain ⟨k, u, hu, ⟨-, rfl⟩ | ⟨rest, hrest⟩⟩ := hj.above habove hforest.zero
  · exact hmove.directory_apart.1 (hu.unique hsource).2
  · obtain ⟨-, rfl⟩ := hu.unique hsource
    refine hmove.directory_apart.2 ⟨?_, rest, hrest⟩
    intro hnil
    rw [hnil] at hsource
    exact hmove.known hsource.eq_zero

/-- What is overwritten is at the target. -/
theorem Movable.located_target (hid : db.documentId target ≠ 0) : ∃ n, db.Located n (db.documentId target)
    (chop target) := by
  rw [← DocumentUrlDB.documentId_chop] at hid ⊢
  exact DocumentUrlDB.located_documentId hforest.toConsistent hmove.isPath_target hid

/-- What is moved is not overwritten. -/
theorem Movable.source_notMem : db.documentId source ∉ overwritten db target := by
  rintro ⟨hid, habove⟩
  obtain ⟨n, hsource⟩ := hmove.located_source hforest
  obtain ⟨m, htarget⟩ := hmove.located_target hforest hid
  obtain ⟨k, u, hu, ⟨-, rfl⟩ | ⟨rest, hrest⟩⟩ := hsource.above habove hforest.zero
  · exact hmove.target_apart.1 (htarget.unique hu).2
  · obtain ⟨-, rfl⟩ := hu.unique htarget
    refine hmove.target_apart.2 ⟨?_, rest, hrest⟩
    intro hnil
    rw [hnil] at htarget
    exact hid htarget.eq_zero

/-- The new directory is not overwritten. -/
theorem Movable.directory_notMem : db.documentId (parentPath (chop target)) ∉ overwritten db target := by
  rintro ⟨hid, habove⟩
  obtain ⟨dir, name, m, htarget', -, -, hparent, -, hdir⟩ := hmove.split_target hforest
  obtain ⟨n, htarget⟩ := hmove.located_target hforest hid
  rw [hparent] at habove
  -- the path of the target is longer
  have hlength : (chop target).length ≤ dir.length := by
    obtain ⟨k, u, hu, ⟨-, rfl⟩ | ⟨rest, hrest⟩⟩ := hdir.above habove hforest.zero
    · rw [(htarget.unique hu).2]
    · rw [hrest, (htarget.unique hu).2, List.length_append]
      omega
  rw [htarget', List.length_append, List.length_cons] at hlength
  omega

include hnamed in
/-- Nothing that is moved is overwritten. -/
theorem Movable.below_notMem {i : DocId} (hi : Above db.parent (db.documentId source) i) :
    i ∉ overwritten db target := by
  rintro ⟨hid, hi'⟩
  -- the two entries above `i` are one above the other
  have hunique : Relator.RightUnique fun x p => db.parent x = some p := fun x p q hp hq =>
    Option.some.inj (hp.symm.trans hq)
  rcases Relation.ReflTransGen.total_of_right_unique hunique hi hi' with habove | habove
  · exact hmove.source_notMem hforest ⟨hid, habove⟩
  · obtain ⟨n, hsource⟩ := hmove.located_source hforest
    obtain ⟨m, htarget⟩ := hmove.located_target hforest hid
    rcases Relation.ReflTransGen.cases_head habove with heq | ⟨p, hp, hrest⟩
    · rw [heq] at htarget
      exact hmove.target_apart.1 (htarget.unique hsource).2
    · obtain ⟨dir, name, -, hsplit, -, hslash, hparent, -, -⟩ := hmove.split_target hforest
      rw [hsplit] at htarget
      obtain ⟨k, path, -, -, hget, -, hdir⟩ := htarget.split hslash hnamed
      obtain rfl : path.parentId = p := by
        rw [DocumentUrlDB.parent, hget] at hp
        exact Option.some.inj hp
      rw [← hparent] at hdir
      exact hmove.not_above hforest hdir hrest

include hnamed in
/-- What is at the place that the entry gets is overwritten. -/
theorem Movable.mem_overwritten (hdistinct : db.Distinct) {i : DocId}
    (hi : db.idFilenameDb.get i = some
      { parentId := db.documentId (parentPath (chop target)), name := lastName (chop target) }) :
    i ∈ overwritten db target := by
  obtain ⟨dir, name, n, htarget, -, -, hparent, hlastName, hdir⟩ := hmove.split_target hforest
  rw [hparent, hlastName] at hi
  have hne : i ≠ 0 := by
    have hstored : db.parent i = some (db.documentId dir) := by rw [DocumentUrlDB.parent, hi, Option.map_some]
    exact hforest.ne_zero hstored
  have hlocated : db.Located (n + 1) i (dir ++ slash :: name) := .entry hne hi hdir
  have hfound := hlocated.documentId_eq hforest.toConsistent hnamed hdistinct
  rw [← htarget, DocumentUrlDB.documentId_chop] at hfound
  refine ⟨?_, ?_⟩
  · rw [hfound]
    exact hne
  · rw [hfound]
    exact .refl

end Places

/-! ## The paths afterwards -/

section Found

variable {db urls : DocumentUrlDB} {source target : QByteArray} {i : DocId}
  (hforest : db.IsForest) (hnamed : db.WellNamed) (hmove : Movable db source target)
  (hmoves : DocumentUrlDB.Moves (overwritten db target) (db.documentId source)
    { parentId := db.documentId (parentPath (chop target)), name := lastName (chop target) } db urls)
include hforest hmove hmoves

/-- The entry is at the target. -/
theorem DocumentUrlDB.Moves.located_target : ∃ n, urls.Located n (db.documentId source) (chop target) := by
  obtain ⟨dir, name, n, htarget, -, -, hparent, hlastName, hdir⟩ := hmove.split_target hforest
  have hnotMem := hmove.directory_notMem hforest
  have hpath : db.Located n (db.documentId dir) (parentPath (chop target)) := by
    rw [hparent]
    exact hdir
  have hmoved := hmoves.moved
  rw [hparent] at hnotMem hmoved
  rw [hlastName] at hmoved
  rw [htarget]
  exact ⟨n + 1, .entry hmove.known hmoved (hmoves.located hnotMem (hmove.not_above hforest hpath) hdir)⟩

include hnamed in
/-- What is below the entry is below the target. -/
theorem DocumentUrlDB.Moves.located_moved (hi : Above db.parent (db.documentId source) i) : ∃ n m rest,
    db.Located n i (chop source ++ rest) ∧ urls.Located m i (chop target ++ rest) ∧
      (rest = [] ∨ ∃ rest', rest = slash :: rest') := by
  obtain ⟨k, hsource⟩ := hmove.located_source hforest
  obtain ⟨l, htarget⟩ := hmoves.located_target hforest hmove
  have hstored : db.idFilenameDb.contains i = true := by
    rcases Relation.ReflTransGen.cases_head hi with heq | ⟨p, hp, -⟩
    · obtain ⟨path, hpath⟩ := hsource.exists_get hmove.known
      exact OrdMap.contains_iff.mpr ⟨path, heq ▸ hpath⟩
    · exact DocumentUrlDB.exists_parent.mp ⟨p, hp⟩
  obtain ⟨n, url, hlocated⟩ := hforest.exists_located hstored
  obtain ⟨m, rest, rfl, hmoved⟩ := hmoves.located_below hmove.known hforest.zero
    (fun j hj => hmove.below_notMem hforest hnamed hj) hsource htarget hi hlocated
  refine ⟨n, m, rest, hlocated, hmoved, ?_⟩
  obtain ⟨k', u, hu, ⟨-, heq⟩ | ⟨rest', heq⟩⟩ := hlocated.above hi hforest.zero
  · left
    rw [(hu.unique hsource).2] at heq
    exact List.append_right_eq_self.mp heq.symm
  · right
    rw [(hu.unique hsource).2] at heq
    exact ⟨rest', List.append_cancel_left heq⟩

omit hmove in
/-- Other paths stay. -/
theorem DocumentUrlDB.Moves.get_eq (hi : i ∉ overwritten db target)
    (hid : ¬ Above db.parent (db.documentId source) i) : urls.get i = db.get i := by
  have hne : i ≠ db.documentId source := fun heq => hid (heq ▸ .refl)
  have hplace := hmoves.kept i hi hne
  rcases hget : db.idFilenameDb.get i with _ | path
  · rw [hget] at hplace
    rw [DocumentUrlDB.get, DocumentUrlDB.get, hplace, hget]
  · obtain ⟨n, url, hlocated⟩ := hforest.exists_located (OrdMap.contains_iff.mpr ⟨path, hget⟩)
    have hlocated' := hmoves.located hi hid hlocated
    by_cases hn : n ≤ 513
    · rw [hlocated.get hn, hlocated'.get hn]
    · rw [hlocated.get_eq_nil (not_le.mp hn), hlocated'.get_eq_nil (not_le.mp hn)]

include hnamed in
/-- Nothing is left where the entry was. -/
theorem DocumentUrlDB.Moves.documentId_source (hdistinct : db.Distinct) (hurls : urls.IsForest) :
    urls.documentId source = 0 := by
  by_contra hne
  rw [← documentId_chop] at hne
  obtain ⟨n, hlocated⟩ := located_documentId hurls.toConsistent hmove.isPath_source hne
  obtain ⟨path, hpath⟩ := hlocated.exists_get hne
  generalize urls.documentId (chop source) = i at hne hlocated hpath
  have hi : i ∉ overwritten db target := by
    intro hi
    rw [hmoves.gone i hi] at hpath
    cases hpath
  by_cases hid : Above db.parent (db.documentId source) i
  · -- what is below the entry is below the target, which is not at or above the source
    obtain ⟨-, m, rest, -, hmoved, hrest⟩ := hmoves.located_moved hforest hnamed hmove hid
    have hurl := (hlocated.unique hmoved).2
    rcases hrest with rfl | ⟨rest', rfl⟩
    · rw [List.append_nil] at hurl
      exact hmove.target_apart.1 hurl.symm
    · refine hmove.target_apart.2 ⟨?_, rest', hurl⟩
      intro hnil
      obtain ⟨dir, name, hsplit, -⟩ := hmove.isPath_target.split
      rw [hnil] at hsplit
      exact List.append_ne_nil_of_right_ne_nil dir (List.cons_ne_nil _ _) hsplit.symm
  · have hold := (hmoves.located_iff hforest hi hid).mp hlocated
    have hfound := hold.documentId_eq hforest.toConsistent hnamed hdistinct
    rw [documentId_chop] at hfound
    rw [hfound] at hid
    exact hid .refl

end Found

/-! ## One call -/

section Call

variable {tokens : Tokenizer} {decodeName : QByteArray → List QChar} {source target : QByteArray}

/-- A known entry gets the directory and the name of the target, and the terms of the name. -/
theorem updateMetadata_eq {w : WriteTransaction} (hid : w.dbis.docUrlDb.documentId source ≠ 0)
    (hdir : w.dbis.docUrlDb.documentId (parentPath (chop target)) ≠ 0) (htarget : IsPath (chop target)) :
    w.updateMetadata tokens decodeName source target =
      let terms := fileNameTerms tokens (decodeName (lastName (chop target)))
      let v := w.replaceFamily (w.dbis.docUrlDb.documentId source) .fileNameTerms terms
      { v with
        dbis := { v.dbis with
          docUrlDb := w.dbis.docUrlDb.updateUrl (w.dbis.docUrlDb.documentId source)
            (w.dbis.docUrlDb.documentId (parentPath (chop target))) (lastName (chop target)) } } := by
  obtain ⟨dir, name, hsplit, -, hslash⟩ := htarget.split
  have hleft : left (chop target) (lastIndexOf slash (chop target) + 1) = parentPath (chop target) ++ [slash] := by
    have htake : dir ++ slash :: name = (dir ++ [slash]) ++ name := by simp
    have hlength : ((dir.length : ℤ) + 1).toNat = (dir ++ [slash]).length := by simp
    rw [parentPath, hsplit, lastIndexOf_append hslash, left_append, left, hlength, htake, List.take_left]
  rw [WriteTransaction.updateMetadata]
  simp only [DocumentUrlDB.documentId_chop, hleft, DocumentUrlDB.documentId_slash, if_neg hid, if_neg hdir]
  rw [fileNameTerms_indexFileNameText tokens _ _ rfl, replaceDocument_move w rfl]
  rfl

variable {db : Database} {w : WriteTransaction} (hsound : db.Sound) (hmove : Movable db.docUrlDb source target)
  (hforgets : Forgets (overwritten db.docUrlDb target) { dbis := db } w) (hforest : UrlForest w)
include hforgets

/-- What is stored was stored before. -/
theorem get_of_forgets {i : DocId} {path : FilePath} (hget : w.dbis.docUrlDb.idFilenameDb.get i = some path) :
    db.docUrlDb.idFilenameDb.get i = some path := by
  by_cases hi : i ∈ overwritten db.docUrlDb target
  · have hnone : w.dbis.docUrlDb.idFilenameDb.get i = none := congrArg Record.place (hforgets.gone i hi)
    rw [hnone] at hget
    cases hget
  · have hkept : w.dbis.docUrlDb.idFilenameDb.get i = db.docUrlDb.idFilenameDb.get i :=
      congrArg Record.place (hforgets.record i hi)
    exact hkept.symm.trans hget

include hsound hforest

/-- What is not overwritten is found where it was. -/
theorem documentId_kept {n : ℕ} {i : DocId} {url : QByteArray} (hi : i ∉ overwritten db.docUrlDb target)
    (hlocated : db.docUrlDb.Located n i url) :
    w.dbis.docUrlDb.Located n i url ∧ w.dbis.docUrlDb.documentId url = i := by
  have hlocated' : w.dbis.docUrlDb.Located n i url := hlocated.congr fun a _ ha =>
    congrArg Record.place (hforgets.record a
      (DocumentUrlDB.notMem_of_above (overwritten_closed db.docUrlDb target) hi ha))
  refine ⟨hlocated', hlocated'.documentId_eq hforest.toConsistent ?_ ?_⟩
  · exact fun i path hget => hsound.wellNamed i path (get_of_forgets hforgets hget)
  · exact fun i j path hi hj =>
      hsound.distinct i j path (get_of_forgets hforgets hi) (get_of_forgets hforgets hj)

include hmove

/-- **The call moves one entry.** -/
theorem updateMetadata_moves : ∃ v : WriteTransaction,
    v = w.replaceFamily (db.docUrlDb.documentId source) .fileNameTerms
      (fileNameTerms tokens (decodeName (lastName (chop target)))) ∧
    ∃ urls : DocumentUrlDB,
      w.updateMetadata tokens decodeName source target = { v with dbis := { v.dbis with docUrlDb := urls } } ∧
      urls.IsForest ∧ DocumentUrlDB.Moves (overwritten db.docUrlDb target) (db.docUrlDb.documentId source)
        { parentId := db.docUrlDb.documentId (parentPath (chop target)), name := lastName (chop target) }
        db.docUrlDb urls := by
  obtain ⟨n, hsource⟩ := hmove.located_source hsound.forest
  obtain ⟨dir, name, m, htarget, hname, hslash, hparent, hlastName, hdir⟩ := hmove.split_target hsound.forest
  obtain ⟨hsource', hid⟩ := documentId_kept hsound hforgets hforest (hmove.source_notMem hsound.forest) hsource
  rw [DocumentUrlDB.documentId_chop] at hid
  have hnotMem := hmove.directory_notMem hsound.forest
  have hdirectory := hmove.directory
  rw [hparent] at hnotMem hdirectory
  obtain ⟨hdir', hparentId⟩ := documentId_kept hsound hforgets hforest hnotMem hdir
  have heq := @updateMetadata_eq tokens decodeName source target w (hid ▸ hmove.known)
    (by rw [hparent, hparentId]; exact hdirectory) hmove.isPath_target
  rw [hid, hparent, hparentId] at heq
  obtain ⟨path, hpath⟩ := hsource'.exists_get hmove.known
  refine ⟨_, rfl, _, heq, ?_, ?_⟩
  · have hstored : w.dbis.docUrlDb.parent (db.docUrlDb.documentId source) = some path.parentId := by
      rw [DocumentUrlDB.parent, hpath, Option.map_some]
    obtain ⟨place, hplace⟩ := hdir'.exists_get hdirectory
    refine hforest.updateUrl hstored (.inr ⟨place.parentId, ?_⟩) fun habove => ?_
    · rw [DocumentUrlDB.parent, hplace, Option.map_some]
    · -- the directory has not been below the entry
      have hpath : db.docUrlDb.Located m (db.docUrlDb.documentId dir) (parentPath (chop target)) := by
        rw [hparent]
        exact hdir
      refine hmove.not_above hsound.forest hpath ?_
      refine Relation.ReflTransGen.mono (fun x p hx => ?_) _ _ habove
      obtain ⟨place, hplace, rfl⟩ := Option.map_eq_some_iff.mp hx
      rw [DocumentUrlDB.parent, get_of_forgets hforgets hplace, Option.map_some]
  · have hget := @DocumentUrlDB.idFilenameDb_updateUrl w.dbis.docUrlDb _ path (db.docUrlDb.documentId dir)
      (lastName (chop target)) hpath
    rw [hparent]
    refine ⟨?_, fun i hi => ?_, fun i hi hne => ?_, overwritten_closed db.docUrlDb target⟩
    · rw [hget, if_pos rfl]
    · have hne : i ≠ db.docUrlDb.documentId source := by
        rintro rfl
        exact hmove.source_notMem hsound.forest hi
      rw [hget, if_neg hne]
      exact congrArg Record.place (hforgets.gone i hi)
    · rw [hget, if_neg hne]
      exact congrArg Record.place (hforgets.record i hi)

/-- The tables after the call are in order. -/
theorem updateMetadata_sound (hclean : ∀ text, ∀ t ∈ tokens.termList text, DocTermsCodec.Clean t)
    (hterms : TermsAgree w) (htimes : PairsRecorded w) {order : List Term}
    (horder : order.Perm (w.updateMetadata tokens decodeName source target).pendingOperations.keys) :
    ((w.updateMetadata tokens decodeName source target).commit order).Sound := by
  obtain ⟨v, rfl, urls, heq, hurls, hmoves⟩ :=
    @updateMetadata_moves tokens decodeName _ _ _ _ hsound hmove hforgets hforest
  rw [heq] at horder ⊢
  have hfileName := clean_fileNameTerms hclean (decodeName (lastName (chop target)))
  have hagree := hterms.replaceFileNames (db.docUrlDb.documentId source) (fun t ht => (hfileName t ht).1)
    fun t ht => (hfileName t ht).2
  have hcommit := (hagree.setUrls urls).commit horder
  obtain ⟨postingDb, positionDb, hframe⟩ := WriteTransaction.commit_frame _ order
  rw [hframe] at hcommit ⊢
  obtain ⟨dir, name, m, -, hname, hslash, -, hlastName, -⟩ := hmove.split_target hsound.forest
  refine ⟨hurls, hmoves.wellNamed hsound.wellNamed ?_, hmoves.distinct hsound.distinct ?_, hcommit,
    htimes.pair, htimes.sorted⟩
  · rw [hlastName]
    exact ⟨hname, hslash⟩
  · exact fun i _ hi => hmove.mem_overwritten hsound.forest hsound.wellNamed hsound.distinct hi

/-- The records of other documents stay as the removal has left them. -/
theorem record_updateMetadata (order : List Term) {i : DocId} (hi : i ≠ db.docUrlDb.documentId source) :
    ((w.updateMetadata tokens decodeName source target).commit order).record i = w.dbis.record i := by
  obtain ⟨v, rfl, urls, heq, -, hmoves⟩ :=
    @updateMetadata_moves tokens decodeName _ _ _ _ hsound hmove hforgets hforest
  rw [record_commit, heq]
  have hplace : urls.idFilenameDb.get i = w.dbis.docUrlDb.idFilenameDb.get i := by
    by_cases hS : i ∈ overwritten db.docUrlDb target
    · rw [hmoves.gone i hS]
      exact (congrArg Record.place (hforgets.gone i hS)).symm
    · rw [hmoves.kept i hS hi]
      exact (congrArg Record.place (hforgets.record i hS)).symm
  have hterms : ∀ g, OrdMap.get ((w.replaceFamily (db.docUrlDb.documentId source) .fileNameTerms
      (fileNameTerms tokens (decodeName (lastName (chop target))))).dbis.termsDb g) i =
        OrdMap.get (w.dbis.termsDb g) i := by
    intro g
    rcases get_replaceFamily w (db.docUrlDb.documentId source) .fileNameTerms
      (fileNameTerms tokens (decodeName (lastName (chop target)))) g i with ⟨hsame, -⟩ | ⟨-, heq, -⟩
    · exact hsame
    · exact absurd heq hi
  simp only [Database.record, Record.mk.injEq]
  refine ⟨hplace, ?_, rfl, rfl, rfl, rfl⟩
  funext g
  rw [← hterms g]
  cases g <;> rfl

/-- What is posted for other documents stays as the removal has left it. -/
theorem entry_updateMetadata (hterms : TermsAgree w) {order : List Term}
    (horder : order.Perm (w.updateMetadata tokens decodeName source target).pendingOperations.keys) {i : DocId}
    (hi : i ≠ db.docUrlDb.documentId source) (t : Term) :
    ((w.updateMetadata tokens decodeName source target).commit order).entry t i = w.entry t i := by
  obtain ⟨v, rfl, urls, heq, -, -⟩ :=
    @updateMetadata_moves tokens decodeName _ _ _ _ hsound hmove hforgets hforest
  have hsorted : (w.updateMetadata tokens decodeName source target).dbis.ListsSorted := by
    rw [heq]
    exact ⟨hterms.sorted.posting, hterms.sorted.position⟩
  have hkept : (w.replaceFamily (db.docUrlDb.documentId source) .fileNameTerms
      (fileNameTerms tokens (decodeName (lastName (chop target))))).entry t i = w.entry t i :=
    entry_replaceFamily_of_ne hi
  rw [WriteTransaction.entry_commit hsorted horder, heq]
  exact hkept

end Call

/-! ## The whole call -/

/-- One subtree has been moved from `source` to `target`. -/
structure SubtreeMoved (tokens : Tokenizer) (decodeName : QByteArray → List QChar) (db db' : Database)
    (source target : QByteArray) : Prop where
  /-- what was at the target, and below, is in no table -/
  overwritten : ∀ i ∈ overwritten db.docUrlDb target, Absent db' i
  /-- the entry is at the target -/
  resolves : db'.docUrlDb.documentId target = db.docUrlDb.documentId source
  /-- and no longer where it was -/
  unknown : db'.docUrlDb.documentId source = 0
  /-- what is below it has a path that begins with the target -/
  below : ∀ i, Above db.docUrlDb.parent (db.docUrlDb.documentId source) i → ∃ n m rest,
    db.docUrlDb.Located n i (chop source ++ rest) ∧ db'.docUrlDb.Located m i (chop target ++ rest) ∧
      (m ≤ 513 → db'.docUrlDb.get i = chop target ++ rest)
  /-- its terms are those of its new name -/
  fileNameTerms : db'.docFilenameTermsDb.get (db.docUrlDb.documentId source) =
    (Baloo.fileNameTerms tokens (decodeName (lastName (chop target)))).keys
  /-- under these it is posted -/
  posted : ∀ t, TermGenerator.fileNamePrefix <+: t → (db.docUrlDb.documentId source ∈ db'.postingDb.get t ↔
    t ∈ (Baloo.fileNameTerms tokens (decodeName (lastName (chop target)))).keys)
  /-- other paths stay -/
  located : ∀ i, i ∉ Baloo.overwritten db.docUrlDb target →
    ¬ Above db.docUrlDb.parent (db.docUrlDb.documentId source) i →
    (∀ n url, db'.docUrlDb.Located n i url ↔ db.docUrlDb.Located n i url) ∧ db'.docUrlDb.get i = db.docUrlDb.get i
  /-- other documents keep their records, their postings and positions, and their times -/
  others : ∀ i, i ∉ Baloo.overwritten db.docUrlDb target → i ≠ db.docUrlDb.documentId source →
    db'.record i = db.record i ∧ (∀ t, db'.entry t i = db.entry t i) ∧
      ∀ m, i ∈ OrdMap.values db'.mtimeDb m ↔ i ∈ OrdMap.values db.mtimeDb m
  /-- the tables are in order again -/
  sound : db'.Sound

/-- **A move moves exactly one subtree.** The call ends, and after the commit what was at the target is in
no table, the entry and what is below it are at the target, the terms of its name are those of the new name,
nothing else has changed, and the tables are in order. -/
theorem metadata_moved (tokens : Tokenizer) (decodeName : QByteArray → List QChar)
    (hclean : ∀ text, ∀ t ∈ tokens.termList text, DocTermsCodec.Clean t) {db : Database} (hsound : db.Sound)
    {source target : QByteArray} (hmove : Movable db.docUrlDb source target) :
    (∃ fuel w, WriteTransaction.moveFileMetadata tokens decodeName fuel { dbis := db } source target = some w) ∧
    ∀ fuel w order, WriteTransaction.moveFileMetadata tokens decodeName fuel { dbis := db } source target = some w →
      order.Perm w.pendingOperations.keys → SubtreeMoved tokens decodeName db (w.commit order) source target := by
  have hurlForest : UrlForest { dbis := db } := hsound.forest
  refine ⟨?_, fun fuel w order hcall horder => ?_⟩
  · obtain ⟨fuel, w, hw⟩ := removeMetadata_total hurlForest target
    exact ⟨fuel, _, by rw [WriteTransaction.moveFileMetadata, hw, Option.map_some]⟩
  obtain ⟨v, hremove, rfl⟩ := Option.map_eq_some_iff.mp hcall
  obtain ⟨hforgets, hforest⟩ := removeMetadata_forgets hurlForest hmove.leaf hremove
  have hterms : TermsAgree v := removeMetadata_preserves TermsAgree.removeDocument hsound.terms hremove
  have htimes : PairsRecorded v := removeMetadata_preserves PairsRecorded.removeDocument hsound.times hremove
  have hsound' := updateMetadata_sound hsound hmove hforgets hforest hclean hterms htimes horder
  have hrecord : ∀ i, i ≠ db.docUrlDb.documentId source → _ := fun i hi =>
    @record_updateMetadata tokens decodeName _ _ _ _ hsound hmove hforgets hforest order i hi
  have hentry := fun i t hi =>
    @entry_updateMetadata tokens decodeName _ _ _ _ hsound hmove hforgets hforest hterms order horder i hi t
  obtain ⟨u, hu, urls, heq, -, hmoves⟩ :=
    @updateMetadata_moves tokens decodeName _ _ _ _ hsound hmove hforgets hforest
  -- the tables of the commit
  have hurls : ((v.updateMetadata tokens decodeName source target).commit order).docUrlDb = urls := by
    rw [docUrlDb_commit, heq]
  have hmtime : ((v.updateMetadata tokens decodeName source target).commit order).mtimeDb = v.dbis.mtimeDb := by
    rw [mtimeDb_commit, heq, hu]
    rfl
  have hurlsForest : urls.IsForest := hurls ▸ hsound'.forest
  -- the terms of the name
  have hname : ((v.updateMetadata tokens decodeName source target).commit order).docFilenameTermsDb.get
      (db.docUrlDb.documentId source) = (fileNameTerms tokens (decodeName (lastName (chop target)))).keys := by
    have hfileName := clean_fileNameTerms hclean (decodeName (lastName (chop target)))
    have hget := get_termsDb_replaceFamily v (db.docUrlDb.documentId source) .fileNameTerms
      (fun t ht => (hfileName t ht).1) .fileNameTerms (db.docUrlDb.documentId source)
    rw [if_pos ⟨rfl, rfl⟩, ← hu] at hget
    change (((v.updateMetadata tokens decodeName source target).commit order).termsDb .fileNameTerms).get _ = _
    rw [termsDb_commit, heq]
    exact hget
  constructor
  case overwritten =>
    intro i hi
    have hne : i ≠ db.docUrlDb.documentId source := by
      rintro rfl
      exact hmove.source_notMem hsound.forest hi
    have hzero : i ≠ 0 := by
      rintro rfl
      rcases Relation.ReflTransGen.cases_head hi.2 with heq | ⟨p, hp, -⟩
      · exact hi.1 heq.symm
      · rw [hsound.forest.zero] at hp
        cases hp
    exact absent_of_record hsound'.forest hsound'.terms.agrees hsound'.times hzero
      ((hrecord i hne).trans (hforgets.gone i hi))
  case resolves =>
    obtain ⟨n, htarget⟩ := hmoves.located_target hsound.forest hmove
    have hfound := htarget.documentId_eq hurlsForest.toConsistent (hurls ▸ hsound'.wellNamed)
      (hurls ▸ hsound'.distinct)
    rwa [hurls, ← DocumentUrlDB.documentId_chop]
  case unknown =>
    rw [hurls]
    exact hmoves.documentId_source hsound.forest hsound.wellNamed hmove hsound.distinct hurlsForest
  case below =>
    intro i hi
    obtain ⟨n, m, rest, hold, hnew, -⟩ := hmoves.located_moved hsound.forest hsound.wellNamed hmove hi
    rw [hurls]
    exact ⟨n, m, rest, hold, hnew, hnew.get⟩
  case fileNameTerms => exact hname
  case posted =>
    intro t ht
    rw [hsound'.terms.agrees.postingsAgree.1, ← hname]
    refine ⟨?_, fun hmem => ⟨.fileNameTerms, hmem⟩⟩
    rintro ⟨f, hf⟩
    obtain rfl := (hsound'.terms.fileName t _ f hf).mpr ht
    exact hf
  case located =>
    intro i hi hid
    rw [hurls]
    exact ⟨fun n url => hmoves.located_iff hsound.forest hi hid,
      hmoves.get_eq hsound.forest hi hid⟩
  case others =>
    intro i hi hne
    refine ⟨(hrecord i hne).trans (hforgets.record i hi), fun t => ?_, fun m => ?_⟩
    · exact (hentry i t hne).trans (hforgets.entry i hi t)
    · rw [hmtime]
      exact hforgets.listed i hi m
  case sound => exact hsound'

/-! ## A move over a directory -/

/-- The index knows `/p`, `/p/a`, `/p/a/b` and `/p/d`, but no terms. -/
def adKnown : Database where
  docUrlDb := abKnown.dbis.docUrlDb.add 3 5 [100]

theorem adKnown_forest : adKnown.docUrlDb.IsForest := by
  have h : (abKnown.dbis.docUrlDb.add 3 5 [100]).IsForest :=
    abKnown_forest.add (by decide) (by decide) (by decide) (.inr ⟨0, by decide⟩)
  exact h

theorem adKnown_get {i : DocId} {path : FilePath} (h : adKnown.docUrlDb.idFilenameDb.get i = some path) :
    i ∈ [1, 2, 3, 5] := by
  have hkeys : OrdMap.keys adKnown.docUrlDb.idFilenameDb = [1, 2, 3, 5] := by decide
  rw [← hkeys]
  exact OrdMap.contains_iff_mem_keys.mp (OrdMap.contains_iff.mpr ⟨path, h⟩)

theorem adKnown_wellNamed : adKnown.docUrlDb.WellNamed := by
  have hall : ∀ i ∈ [1, 2, 3, 5], ∀ path ∈ adKnown.docUrlDb.idFilenameDb.get i,
      path.name ≠ [] ∧ slash ∉ path.name := by decide
  exact fun i path h => hall i (adKnown_get h) path h

theorem adKnown_distinct : adKnown.docUrlDb.Distinct := by
  have hall : ∀ i ∈ [1, 2, 3, 5], ∀ j ∈ [1, 2, 3, 5], adKnown.docUrlDb.idFilenameDb.get i =
      adKnown.docUrlDb.idFilenameDb.get j → i = j := by decide
  exact fun i j path hi hj => hall i (adKnown_get hi) j (adKnown_get hj) (hi.trans hj.symm)

/-- `/p/d` is moved over the directory `/p/a`. -/
theorem adKnown_movable : Movable adKnown.docUrlDb [47, 112, 47, 100] [47, 112, 47, 97, 47] where
  isPath_source := ⟨[[112], [100]], by decide, by decide, by decide⟩
  isPath_target := ⟨[[112], [97]], by decide, by decide, by decide⟩
  known := by decide +kernel
  directory := by decide +kernel
  directory_apart := by
    refine ⟨by decide, ?_⟩
    rintro ⟨-, rest, hrest⟩
    have hparent : parentPath (chop [47, 112, 47, 97, 47]) = [47, 112] := by decide
    have hsource : chop [47, 112, 47, 100] = [47, 112, 47, 100] := by decide
    rw [hparent, hsource] at hrest
    exact absurd (congrArg List.length hrest) (by simp)
  target_apart := by
    refine ⟨by decide, ?_⟩
    rintro ⟨-, rest, hrest⟩
    have hsource : chop [47, 112, 47, 100] = [47, 112, 47, 100] := by decide
    have htarget : chop [47, 112, 47, 97, 47] = [47, 112, 47, 97] := by decide
    rw [hsource, htarget] at hrest
    exact absurd (congrArg List.length hrest) (by simp)
  leaf _ hlast := absurd rfl hlast

/-- The words are lower-case letters and digits. -/
theorem clean_asciiWords (text : List QChar) : ∀ t ∈ asciiWords text, DocTermsCodec.Clean t := by
  intro t ht b hb
  obtain ⟨word, hword, rfl⟩ := List.mem_map.mp (List.mem_of_mem_filter ht)
  obtain ⟨c, hc, rfl⟩ := List.mem_map.mp hb
  have hrange := eq_false_of_mem_splitOnP hword hc
  simp only [Bool.not_eq_eq_eq_not, Bool.not_false, Bool.or_eq_true, Bool.and_eq_true, decide_eq_true_eq,
    UInt16.le_iff_toNat_le] at hrange
  have h97 : (97 : UInt16).toNat = 97 := rfl
  have h122 : (122 : UInt16).toNat = 122 := rfl
  have h48 : (48 : UInt16).toNat = 48 := rfl
  have h57 : (57 : UInt16).toNat = 57 := rfl
  rw [h97, h122, h48, h57] at hrange
  have hnat : (UInt8.ofNat c.toNat).toNat = c.toNat := by
    rw [UInt8.toNat_ofNat']
    omega
  constructor
  · intro heq
    rw [heq] at hnat
    change 0 = c.toNat at hnat
    omega
  · intro heq
    rw [heq] at hnat
    change 1 = c.toNat at hnat
    omega

theorem adKnown_sound : adKnown.Sound where
  forest := adKnown_forest
  wellNamed := adKnown_wellNamed
  distinct := adKnown_distinct
  terms := by
    have hterms : ∀ f i, (adKnown.termsDb f).get i = [] := fun f i => by cases f <;> rfl
    refine ⟨fun t i => ?_, fun t i _ => rfl, fun t i f ht => ?_, ?_⟩
    · simp only [hterms, List.not_mem_nil, exists_false, iff_false]
      intro hposted
      have hposting : i ∈ adKnown.postingDb.get t := of_decide_eq_true hposted
      simp [PostingDB.get, OrdMap.values, adKnown] at hposting
    · rw [hterms] at ht
      exact absurd ht List.not_mem_nil
    · exact ⟨fun t list hlist => by simp [adKnown] at hlist, fun t list hlist => by simp [adKnown] at hlist⟩
  times := ⟨fun m i hi => absurd hi List.not_mem_nil, fun m => SortedSeq.ascending_nil⟩

/-- The directory `/p/a` and the file in it are gone, and `/p/a` is what has been `/p/d`. -/
theorem metadata_moved_adKnown : ∃ fuel w, WriteTransaction.moveFileMetadata asciiLibraries.tokens
    asciiLibraries.decodeName fuel { dbis := adKnown } [47, 112, 47, 100] [47, 112, 47, 97, 47] = some w ∧
      SubtreeMoved asciiLibraries.tokens asciiLibraries.decodeName adKnown
        (w.commit w.pendingOperations.keys) [47, 112, 47, 100] [47, 112, 47, 97, 47] := by
  obtain ⟨⟨fuel, w, hw⟩, hmoved⟩ := metadata_moved asciiLibraries.tokens asciiLibraries.decodeName
    clean_asciiWords adKnown_sound adKnown_movable
  exact ⟨fuel, w, hw, hmoved fuel w w.pendingOperations.keys hw (List.Perm.refl _)⟩

/-- The same index, with `/p/d` known under the term `Fd` of its name, which is a content term as well. -/
def adTagged : Database where
  docUrlDb := adKnown.docUrlDb
  docTermsDb := DocumentDB.put ∅ 3 [[70, 100]]
  docFilenameTermsDb := DocumentDB.put ∅ 3 [[70, 100]]
  postingDb := (∅ : PostingDB).put [70, 100] [3]

/-- The same index, with `/p/a/b` listed under a time without having a record. -/
def adListed : Database where
  docUrlDb := adKnown.docUrlDb
  mtimeDb := (∅ : MTimeDB).put 9 2

/-- Postings that agree are not enough. A term of the old name that is also a content term is removed with the
name; and a document that is overwritten stays listed under a time that its record does not have. -/
theorem shared_term_lost : (¬ ∀ (db : Database) (source target : QByteArray), db.docUrlDb.IsForest →
    db.docUrlDb.WellNamed → db.docUrlDb.Distinct → PostingsAgree db → Movable db.docUrlDb source target →
    ∀ fuel w, WriteTransaction.moveFileMetadata asciiLibraries.tokens asciiLibraries.decodeName fuel
        { dbis := db } source target = some w → PostingsAgree (w.commit w.pendingOperations.keys)) ∧
    ¬ ∀ (db : Database) (source target : QByteArray), db.docUrlDb.IsForest →
    db.docUrlDb.WellNamed → db.docUrlDb.Distinct → PostingsAgree db → Movable db.docUrlDb source target →
    ∀ fuel w, WriteTransaction.moveFileMetadata asciiLibraries.tokens asciiLibraries.decodeName fuel
        { dbis := db } source target = some w → ∀ i ∈ overwritten db.docUrlDb target,
      Absent (w.commit w.pendingOperations.keys) i := by
  have hends : ∀ db : Database, (WriteTransaction.moveFileMetadata asciiLibraries.tokens asciiLibraries.decodeName 3
      { dbis := db } [47, 112, 47, 100] [47, 112, 47, 97, 47]).isSome = true →
      ∃ w, WriteTransaction.moveFileMetadata asciiLibraries.tokens asciiLibraries.decodeName 3
        { dbis := db } [47, 112, 47, 100] [47, 112, 47, 97, 47] = some w := fun db => Option.isSome_iff_exists.mp
  refine ⟨fun h => ?_, fun h => ?_⟩
  · have hget : ∀ f i, (adTagged.termsDb f).get i = if i = 3 ∧ f ≠ .xattrTerms then [[70, 100]] else [] := by
      intro f i
      have hdecode : DocTermsCodec.decode (DocTermsCodec.encode [[70, 100]]) = [[70, 100]] := by decide
      by_cases hi : i = 3
      · cases f <;> simp [Database.termsDb, adTagged, DocumentDB.get, DocumentDB.put, hi, hdecode]
      · cases f <;> simp [Database.termsDb, adTagged, DocumentDB.get, DocumentDB.put, hi]
    have hagree : PostingsAgree adTagged := by
      refine ⟨fun t i => ?_, fun t list hlist => ?_, fun t list hlist => by simp [adTagged] at hlist⟩
      · have hposting : adTagged.postingDb.get t = if t = [70, 100] then [3] else [] := by
          rw [PostingDB.get, OrdMap.values, adTagged, OrdMap.get_put]
          split
          · rfl
          · simp
        simp only [hget, hposting]
        by_cases ht : t = [70, 100]
        · by_cases hi : i = 3
          · simpa [ht, hi] using ⟨Family.terms, Family.noConfusion⟩
          · simp [ht, hi]
        · rw [if_neg ht]
          refine ⟨fun hi => absurd hi List.not_mem_nil, ?_⟩
          rintro ⟨f, hf⟩
          split at hf
          · exact absurd (List.mem_singleton.mp hf) ht
          · exact absurd hf List.not_mem_nil
      · rw [adTagged, OrdMap.get_put] at hlist
        split at hlist
        · obtain rfl := Option.some.inj hlist
          exact ⟨List.pairwise_singleton _ _, List.cons_ne_nil _ _⟩
        · simp at hlist
    obtain ⟨w, hw⟩ := hends adTagged (by decide +kernel)
    have hafter := (h adTagged _ _ adKnown_forest adKnown_wellNamed adKnown_distinct hagree adKnown_movable 3 w hw).1
      [70, 100] 3
    have hlost : (WriteTransaction.moveFileMetadata asciiLibraries.tokens asciiLibraries.decodeName 3
        { dbis := adTagged } [47, 112, 47, 100] [47, 112, 47, 97, 47]).map (fun w =>
          (decide (3 ∈ (w.commit w.pendingOperations.keys).postingDb.get [70, 100]),
            decide ([70, 100] ∈ (w.commit w.pendingOperations.keys).docTermsDb.get 3))) = some (false, true) := by
      decide +kernel
    rw [hw, Option.map_some, Option.some.injEq, Prod.mk.injEq, decide_eq_false_iff_not, decide_eq_true_iff] at hlost
    exact hlost.1 (hafter.mpr ⟨.terms, hlost.2⟩)
  · have hagree : PostingsAgree adListed := by
      have hterms : adListed.termsDb = adKnown.termsDb := by
        funext f
        cases f <;> rfl
      obtain ⟨hposting, hsorted⟩ := adKnown_sound.terms.agrees.postingsAgree
      refine ⟨fun t i => ?_, hsorted.posting, hsorted.position⟩
      rw [hterms]
      exact hposting t i
    obtain ⟨w, hw⟩ := hends adListed (by decide +kernel)
    have hover : 2 ∈ overwritten adListed.docUrlDb [47, 112, 47, 97, 47] := by
      refine ⟨by decide +kernel, ?_⟩
      have hfound : adListed.docUrlDb.documentId [47, 112, 47, 97, 47] = 1 := by decide +kernel
      rw [hfound]
      exact .single (by decide)
    have habsent := (h adListed _ _ adKnown_forest adKnown_wellNamed adKnown_distinct hagree adKnown_movable 3 w hw
      2 hover).mtime 9
    have hlisted : (WriteTransaction.moveFileMetadata asciiLibraries.tokens asciiLibraries.decodeName 3
        { dbis := adListed } [47, 112, 47, 100] [47, 112, 47, 97, 47]).map (fun w =>
          decide (2 ∈ OrdMap.values (w.commit w.pendingOperations.keys).mtimeDb 9)) = some true := by
      decide +kernel
    rw [hw, Option.map_some, Option.some.injEq, decide_eq_true_iff] at hlisted
    exact habsent hlisted

end Baloo
