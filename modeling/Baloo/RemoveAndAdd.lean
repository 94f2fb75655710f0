import Baloo.DocumentReplacement
import Baloo.DocumentVisits

/-!
# Adding, removing and replacing a document

A document is spread over the tables by `addDocument`, and `removeDocument` has to find everything again, from
the term lists that are stored. Both sides of an equation of such calls are compared table by table: the
postings by their entries (`CommitsTo.eq_of_entries`), the two tables of the URL tree by the places
(`Consistent.ext`).

So removing undoes adding, in one transaction or in two, except for the directories above that had to be entered
(`remove_undoes_add`), and replacing everything is removing and adding again (`replace_is_remove_add`). The
first needs terms that survive the codec (`unclean_term_stays`), the second that no term moves to a family that
is replaced earlier (`moved_term_differs`).
-/

namespace Baloo

open Forest (Above)
open SortedSeq (Ascending)

/-! ## The tables of the URL tree -/

namespace DocumentUrlDB

variable {db db' : DocumentUrlDB} {fs : FileSystem}

/-- The list tables are determined by the places. -/
theorem Consistent.ext (h : db.Consistent) (h' : db'.Consistent)
    (hplaces : ∀ i, db.idFilenameDb.get i = db'.idFilenameDb.get i) : db = db' := by
  have hparent : db.parent = db'.parent := by
    funext i
    rw [parent, parent, hplaces]
  have htree : db.idTreeDb = db'.idTreeDb := by
    refine OrdMap.ext fun p => ?_
    apply get_eq_of_values (h.nonempty p) (h'.nonempty p)
    apply (h.ascending p).ext (h'.ascending p)
    intro i
    exact (h.listed i p).trans (hparent ▸ (h'.listed i p).symm)
  obtain ⟨tree, places⟩ := db
  obtain ⟨tree', places'⟩ := db'
  exact congrArg₂ DocumentUrlDB.mk htree (OrdMap.ext hplaces)

/-- A name that is empty is not entered. -/
theorem Consistent.add_fresh {i p : DocId} {name : QByteArray} (h : db.Consistent) (hi : i ≠ 0)
    (hfresh : db.idFilenameDb.contains i = false) : (db.add i p name).Consistent := by
  by_cases hname : name = []
  · rw [DocumentUrlDB.add, if_pos (.inr hname)]
    exact h
  · exact h.add hi hname (parent_eq_none.mpr hfresh)

theorem Consistent.addPathLoop {rounds : ℕ} (h : db.Consistent) (arr : QByteArray) (id : DocId) :
    (addPathLoop fs rounds db arr id).1.Consistent := by
  induction rounds generalizing db arr id with
  | zero => exact h
  | succ rounds ih =>
    rw [DocumentUrlDB.addPathLoop]
    split
    · exact h
    · next hid =>
      split
      · exact h
      · next hstored =>
        have hadd : ∀ p name, (db.add id p name).Consistent := fun p name =>
          h.add_fresh hid (Bool.eq_false_iff.mpr hstored)
        dsimp only
        split
        · exact hadd _ _
        · split
          · exact h
          · exact ih (hadd _ _) _ _

theorem Consistent.addPath (h : db.Consistent) (url : QByteArray) : (db.addPath fs url).1.Consistent := by
  rw [DocumentUrlDB.addPath]
  split
  · exact h
  · exact h.addPathLoop _ _

/-- What `addPath` enters are directories on the way to the path. -/
theorem addPath_enters (fs : FileSystem) (db : DocumentUrlDB) (url : QByteArray) (i : DocId) :
    EntersAbove fs url db (db.addPath fs url).1 i := by
  rcases hlstat : fs.lstat url with _ | id
  · left
    rw [addPath]
    split
    · rfl
    · rw [addPathLoop, FileSystem.filePathToId, hlstat, Option.getD_none, if_pos rfl]
  · rw [addPath_eq hlstat]
    exact addPathLoop_enters hlstat i

/-- The URL tree under which `addUrl` enters the document. -/
def withPath (fs : FileSystem) (db : DocumentUrlDB) (url : QByteArray) : DocumentUrlDB :=
  if 0 < lastIndexOf slash url then (db.addPath fs (left url (lastIndexOf slash url))).1 else db

theorem Consistent.withPath (h : db.Consistent) (url : QByteArray) : (db.withPath fs url).Consistent := by
  rw [DocumentUrlDB.withPath]
  split
  · exact h.addPath _
  · exact h

/-- The directory of a path is above it. -/
theorem isAncestor_left {url : QByteArray} (hpos : 0 < lastIndexOf slash url) :
    IsAncestor (left url (lastIndexOf slash url)) url := by
  obtain ⟨dir, name, rfl, hslash⟩ := exists_of_lastIndexOf (Int.le_of_lt hpos)
  rw [lastIndexOf_append hslash] at hpos ⊢
  rw [left_append]
  refine ⟨?_, name, rfl⟩
  rintro rfl
  exact absurd hpos (by simp)

/-- A place is as it was, or it is that of a directory above the path. -/
theorem withPath_enters (fs : FileSystem) (db : DocumentUrlDB) (url : QByteArray) (i : DocId) :
    (db.withPath fs url).idFilenameDb.get i = db.idFilenameDb.get i ∨
      db.idFilenameDb.get i = none ∧ ∃ dir, IsAncestor dir url ∧ fs.lstat dir = some i ∧
        (db.withPath fs url).idFilenameDb.get i = some (fs.place dir) := by
  rw [withPath]
  split
  · next hpos =>
    have habove := isAncestor_left hpos
    rcases addPath_enters fs db (left url (lastIndexOf slash url)) i with hsame | ⟨hnone, dir, hdir, hi, hget⟩
    · exact .inl hsame
    · refine .inr ⟨hnone, dir, ?_, hi, hget⟩
      rcases hdir with rfl | hdir
      · exact habove
      · exact hdir.trans habove
  · exact .inl rfl

/-- `addUrl` enters the document under a directory, or not at all. -/
theorem addUrl_eq (fs : FileSystem) (db : DocumentUrlDB) (doc : Document) : ∃ p name,
    (WriteTransaction.addUrl fs db doc).1 =
      if canPut doc.id name then (db.withPath fs doc.url).add doc.id p name else db.withPath fs doc.url := by
  refine ⟨if 0 < lastIndexOf slash doc.url then doc.parentId else 0, mid doc.url (lastIndexOf slash doc.url + 1), ?_⟩
  simp only [WriteTransaction.addUrl, put]
  by_cases hput : canPut doc.id (mid doc.url (lastIndexOf slash doc.url + 1)) = true
  · rw [if_pos hput, if_pos hput]
    rfl
  · rw [if_neg hput, if_neg hput]
    rfl

end DocumentUrlDB

/-! ## What adding a document writes -/

/-- Two databases have the same tables, those of the postings apart. -/
theorem Database.withoutPostings_iff {db db' : Database} : db.withoutPostings = db'.withoutPostings ↔
    db.termsDb = db'.termsDb ∧ db.docUrlDb = db'.docUrlDb ∧ db.docTimeDb = db'.docTimeDb ∧
      db.docDataDb = db'.docDataDb ∧ db.contentIndexingDb = db'.contentIndexingDb ∧
      db.failedIdDb = db'.failedIdDb ∧ db.mtimeDb = db'.mtimeDb := by
  have hterms : db.termsDb = db'.termsDb ↔ db.docTermsDb = db'.docTermsDb ∧
      db.docXattrTermsDb = db'.docXattrTermsDb ∧ db.docFilenameTermsDb = db'.docFilenameTermsDb := by
    refine ⟨fun h => ⟨congrFun h .terms, congrFun h .xattrTerms, congrFun h .fileNameTerms⟩, fun h => ?_⟩
    obtain ⟨h₁, h₂, h₃⟩ := h
    funext f
    cases f
    · exact h₁
    · exact h₂
    · exact h₃
  rw [hterms]
  simp only [Database.withoutPostings, Database.mk.injEq, true_and]
  constructor
  · rintro ⟨h₁, h₂, h₃, h₄, h₅, h₆, h₇, h₈, h₉⟩
    exact ⟨⟨h₁, h₃, h₂⟩, h₄, h₅, h₆, h₇, h₈, h₉⟩
  · rintro ⟨⟨h₁, h₃, h₂⟩, h₄, h₅, h₆, h₇, h₈, h₉⟩
    exact ⟨h₁, h₂, h₃, h₄, h₅, h₆, h₇, h₈, h₉⟩

section Adding

variable {fs : FileSystem} {w v : WriteTransaction} {doc : Document} {t : Term} {i : DocId}

theorem entry_addTerms_of {id : DocId} {terms : OrdMap Term TermData} (h : i ≠ id ∨ t ∉ terms.keys) :
    (w.addTerms id terms).1.entry t i = w.entry t i := by
  rw [WriteTransaction.entry_addTerms]
  rcases hget : terms.get t with _ | td
  · rfl
  · have hi : i ≠ id := h.resolve_right fun hnot => hnot (OrdMap.mem_keys.mpr ⟨td, hget⟩)
    exact if_neg hi.symm

/-- Adding a document queues additions for its terms. -/
theorem entry_addDocument (hurl : (WriteTransaction.addUrl fs w.dbis.docUrlDb doc).2 = true) (t : Term) (i : DocId) :
    (w.addDocument fs doc).entry t i = (((w.addTerms doc.id (doc.family .terms)).1.addTerms doc.id
      (doc.family .xattrTerms)).1.addTerms doc.id (doc.family .fileNameTerms)).1.entry t i := by
  simp only [WriteTransaction.addDocument, hurl, if_true]
  rfl

/-- Other entries stay. -/
theorem entry_addDocument_of (h : (WriteTransaction.addUrl fs w.dbis.docUrlDb doc).2 = true →
    i ≠ doc.id ∨ ∀ f, t ∉ (doc.family f).keys) : (w.addDocument fs doc).entry t i = w.entry t i := by
  by_cases hurl : (WriteTransaction.addUrl fs w.dbis.docUrlDb doc).2 = true
  · have h := h hurl
    rw [entry_addDocument hurl, entry_addTerms_of (h.imp_right fun h => h .fileNameTerms),
      entry_addTerms_of (h.imp_right fun h => h .xattrTerms), entry_addTerms_of (h.imp_right fun h => h .terms)]
  · simp only [WriteTransaction.addDocument, hurl]
    rfl

/-- A document that was not posted is posted under its terms. -/
theorem entry_addDocument_some (hurl : (WriteTransaction.addUrl fs w.dbis.docUrlDb doc).2 = true)
    (hempty : w.entry t doc.id = { posted := false, positions := none }) {f : Family} {td : TermData}
    (htd : (doc.family f).get t = some td) (hother : ∀ g, g ≠ f → t ∉ (doc.family g).keys) :
    (w.addDocument fs doc).entry t doc.id = Entry.ofTermData (some td) := by
  have hadd : ∀ v : WriteTransaction, v.entry t doc.id = { posted := false, positions := none } →
      (v.addTerms doc.id (doc.family f)).1.entry t doc.id = Entry.ofTermData (some td) := by
    intro v hv
    rw [WriteTransaction.entry_addTerms, htd]
    simp [hv, Entry.apply, Entry.ofTermData]
  have hskip : ∀ (v : WriteTransaction) (g : Family), g ≠ f →
      (v.addTerms doc.id (doc.family g)).1.entry t doc.id = v.entry t doc.id := fun v g hg =>
    entry_addTerms_of (.inr (hother g hg))
  rw [entry_addDocument hurl]
  cases f with
  | terms =>
    rw [hskip _ .fileNameTerms (by decide), hskip _ .xattrTerms (by decide)]
    exact hadd w hempty
  | xattrTerms =>
    rw [hskip _ .fileNameTerms (by decide)]
    apply hadd
    rw [hskip _ .terms (by decide), hempty]
  | fileNameTerms =>
    apply hadd
    rw [hskip _ .xattrTerms (by decide), hskip _ .terms (by decide), hempty]

theorem listsSorted_addDocument (h : w.dbis.ListsSorted) : (w.addDocument fs doc).dbis.ListsSorted := by
  by_cases hurl : (WriteTransaction.addUrl fs w.dbis.docUrlDb doc).2 = true
  · simp only [WriteTransaction.addDocument, hurl, if_true]
    exact ⟨h.posting, h.position⟩
  · simp only [WriteTransaction.addDocument, hurl]
    exact ⟨h.posting, h.position⟩

/-- The term tables of a document that is added. -/
theorem termsDb_addDocument (hurl : (WriteTransaction.addUrl fs w.dbis.docUrlDb doc).2 = true) (f : Family) :
    (w.addDocument fs doc).dbis.termsDb f =
      if f ≠ .terms ∧ (doc.family f).keys = [] then w.dbis.termsDb f
      else (w.dbis.termsDb f).put doc.id (doc.family f).keys := by
  simp only [WriteTransaction.addDocument, hurl, if_true]
  cases f
  · rfl
  · by_cases hnil : doc.xattrTerms.keys = []
    · simp [Database.termsDb, Document.family, hnil, WriteTransaction.addTerms]
    · simp [Database.termsDb, Document.family, hnil, WriteTransaction.addTerms]
  · by_cases hnil : doc.fileNameTerms.keys = []
    · simp [Database.termsDb, Document.family, hnil, WriteTransaction.addTerms]
    · simp [Database.termsDb, Document.family, hnil, WriteTransaction.addTerms]

/-- The tables that are keyed by documents are written for the document. -/
theorem del_addDocument (fs : FileSystem) (w : WriteTransaction) (doc : Document) :
    (∀ f, ((w.addDocument fs doc).dbis.termsDb f).del doc.id = (w.dbis.termsDb f).del doc.id) ∧
      (w.addDocument fs doc).dbis.docTimeDb.del doc.id = w.dbis.docTimeDb.del doc.id ∧
      (w.addDocument fs doc).dbis.docDataDb.del doc.id = w.dbis.docDataDb.del doc.id ∧
      (w.addDocument fs doc).dbis.contentIndexingDb.del doc.id = w.dbis.contentIndexingDb.del doc.id ∧
      (w.addDocument fs doc).dbis.failedIdDb = w.dbis.failedIdDb := by
  by_cases hurl : (WriteTransaction.addUrl fs w.dbis.docUrlDb doc).2 = true
  · refine ⟨fun f => ?_, ?_⟩
    · rw [termsDb_addDocument hurl]
      split
      · rfl
      · exact OrdMap.del_put _ _ _
    · simp only [WriteTransaction.addDocument, hurl, if_true]
      refine ⟨OrdMap.del_put _ _ _, ?_, ?_, rfl⟩
      · split
        · exact OrdMap.del_put _ _ _
        · rfl
      · split
        · exact OrdMap.del_put _ _ _
        · rfl
  · simp only [WriteTransaction.addDocument, hurl]
    exact ⟨fun f => by cases f <;> rfl, rfl, rfl, rfl, rfl⟩

/-- The pair of the document. -/
theorem mtimeDb_addDocument (hmtime : w.dbis.mtimeDb.InOrder) (hid : doc.id ≠ 0)
    (hnot : ∀ m, doc.id ∉ OrdMap.values w.dbis.mtimeDb m) :
    (w.addDocument fs doc).dbis.mtimeDb.del
      ((w.addDocument fs doc).dbis.docTimeDb.get doc.id).mTime doc.id = w.dbis.mtimeDb := by
  by_cases hurl : (WriteTransaction.addUrl fs w.dbis.docUrlDb doc).2 = true
  · simp only [WriteTransaction.addDocument, hurl, if_true]
    have htime : (DocumentTimeDB.get (w.dbis.docTimeDb.put doc.id { mTime := doc.mTime, cTime := doc.cTime })
        doc.id).mTime = doc.mTime := by
      rw [DocumentTimeDB.get, OrdMap.get_put, if_pos rfl, Option.getD_some]
    change (w.dbis.mtimeDb.put doc.mTime doc.id).del (DocumentTimeDB.get (w.dbis.docTimeDb.put doc.id
      { mTime := doc.mTime, cTime := doc.cTime }) doc.id).mTime doc.id = w.dbis.mtimeDb
    rw [htime]
    exact hmtime.del_put hid (hnot doc.mTime)
  · simp only [WriteTransaction.addDocument, hurl]
    exact hmtime.del_eq_self (hnot _)

/-- Dropping the document from the tables leaves them as they were, but for the URL tree. -/
theorem withoutPostings_removeDocument (habsent : Absent w.dbis doc.id) (hmtime : w.dbis.mtimeDb.InOrder)
    (hid : doc.id ≠ 0) (hv : v.dbis.withoutPostings = (w.addDocument fs doc).dbis.withoutPostings) :
    (v.removeDocument doc.id).dbis.withoutPostings = Database.withoutPostings
      { w.dbis with docUrlDb := (WriteTransaction.addUrl fs w.dbis.docUrlDb doc).1.del doc.id } := by
  have hrecord := habsent.record
  have hcontent₀ : OrdMap.get w.dbis.contentIndexingDb doc.id = none :=
    Option.isNone_iff_eq_none.mp (Option.isSome_eq_false_iff.mp (congrArg Record.contentIndexing hrecord))
  have hfailed₀ : OrdMap.get w.dbis.failedIdDb doc.id = none :=
    Option.isNone_iff_eq_none.mp (Option.isSome_eq_false_iff.mp (congrArg Record.failed hrecord))
  obtain ⟨hterms', htime', hdata', hcontent', hfailed'⟩ := del_addDocument fs w doc
  rw [Database.withoutPostings_iff] at hv ⊢
  obtain ⟨hterms, hurls, htime, hdata, hcontent, hfailed, hmtimes⟩ := hv
  refine ⟨?_, ?_, ?_, ?_, ?_, ?_, ?_⟩
  · funext f
    rw [termsDb_removeDocument, hterms, hterms' f, OrdMap.del_eq_self (congrFun (congrArg Record.terms hrecord) f)]
    cases f <;> rfl
  · change v.dbis.docUrlDb.del doc.id = _
    rw [hurls, docUrlDb_addDocument]
  · change v.dbis.docTimeDb.del doc.id = _
    rw [htime, htime', OrdMap.del_eq_self (congrArg Record.times hrecord)]
  · change v.dbis.docDataDb.del doc.id = _
    rw [hdata, hdata', OrdMap.del_eq_self (congrArg Record.data hrecord)]
  · change v.dbis.contentIndexingDb.del doc.id = _
    rw [hcontent, hcontent', OrdMap.del_eq_self hcontent₀]
  · change v.dbis.failedIdDb.del doc.id = _
    rw [hfailed, hfailed', OrdMap.del_eq_self hfailed₀]
  · change v.dbis.mtimeDb.del (v.dbis.docTimeDb.get doc.id).mTime doc.id = _
    rw [hmtimes, htime, mtimeDb_addDocument hmtime hid habsent.mtime]

/-- The entries after the removal are those before the document was added. -/
theorem entry_remove_add (habsent : Absent w.dbis doc.id)
    (hempty : ∀ t, w.entry t doc.id = { posted := false, positions := none })
    (hclean : ∀ f t, (doc.family f).contains t = true → DocTermsCodec.Clean t)
    (hterms : v.dbis.termsDb = (w.addDocument fs doc).dbis.termsDb)
    (hentry : ∀ t i, v.entry t i = (w.addDocument fs doc).entry t i) (t : Term) (i : DocId) :
    (v.removeDocument doc.id).entry t i = w.entry t i := by
  by_cases hi : i = doc.id
  · subst hi
    rw [entry_removeDocument]
    split
    · rw [hempty]
    · next hnot =>
      rw [hentry]
      apply entry_addDocument_of
      intro hurl
      right
      intro f hf
      -- the terms of the document are the terms that are stored
      have hget : (v.dbis.termsDb f).get doc.id = (doc.family f).keys := by
        have hdecode : DocTermsCodec.decode (DocTermsCodec.encode (doc.family f).keys) = (doc.family f).keys :=
          DocTermsCodec.decode_encode_terms fun t ht => hclean f t (OrdMap.contains_iff_mem_keys.mpr ht)
        have hnone : OrdMap.get (w.dbis.termsDb f) doc.id = none := congrFun (congrArg Record.terms habsent.record) f
        rw [hterms, termsDb_addDocument hurl]
        split
        · next hnil => rw [DocumentDB.get, hnone, hnil.2]
        · rw [DocumentDB.get, DocumentDB.put, OrdMap.get_put, if_pos rfl]
          exact hdecode
      rw [← hget] at hf
      apply hnot
      cases f with
      | terms => exact ⟨rfl, .inl hf⟩
      | xattrTerms => exact ⟨rfl, .inr (.inr hf)⟩
      | fileNameTerms => exact ⟨rfl, .inr (.inl hf)⟩
  · rw [entry_removeDocument_of_ne v hi, hentry, entry_addDocument_of fun _ => .inl hi]

end Adding

/-! ## Removing what has been added -/

/-- The URL tree is what it was, but for directories above a path. -/
structure RestoredUrls (fs : FileSystem) (url : QByteArray) (db db' : DocumentUrlDB) : Prop where
  /-- the two tables are views of one tree -/
  consistent : db'.Consistent
  /-- an entry is as it was, or it is a directory above the path that was not stored -/
  place : ∀ i, db'.idFilenameDb.get i = db.idFilenameDb.get i ∧
      (∀ p, i ∈ db'.idTreeDb.get p ↔ i ∈ db.idTreeDb.get p) ∨
    db.idFilenameDb.get i = none ∧ ∃ dir, IsAncestor dir url ∧ fs.lstat dir = some i

section RemoveAdd

variable {fs : FileSystem} {db : Database} {doc : Document}

/-- The URL tree after the document has been added and removed. -/
def urlsRestored (fs : FileSystem) (db : Database) (doc : Document) : DocumentUrlDB :=
  (WriteTransaction.addUrl fs db.docUrlDb doc).1.del doc.id

theorem get_urlsRestored (hid : doc.id ≠ 0) (i : DocId) : (urlsRestored fs db doc).idFilenameDb.get i =
    if i = doc.id then none else (db.docUrlDb.withPath fs doc.url).idFilenameDb.get i := by
  rw [urlsRestored, DocumentUrlDB.idFilenameDb_del]
  by_cases hi : i = doc.id
  · rw [if_pos ⟨hi, hid⟩, if_pos hi]
  · rw [if_neg fun h => hi h.1, if_neg hi]
    obtain ⟨p, name, heq⟩ := DocumentUrlDB.addUrl_eq fs db.docUrlDb doc
    rw [heq]
    split
    · rw [DocumentUrlDB.add]
      split
      · rfl
      · rw [OrdMap.get_put, if_neg hi]
    · rfl

/-- The path does not bring the document itself. -/
theorem withPath_fresh (hown : OwnId fs doc) (hfresh : db.docUrlDb.idFilenameDb.get doc.id = none) :
    (db.docUrlDb.withPath fs doc.url).idFilenameDb.get doc.id = none := by
  rcases DocumentUrlDB.withPath_enters fs db.docUrlDb doc.url doc.id with hsame | ⟨-, dir, hdir, hi, -⟩
  · rw [hsame, hfresh]
  · exact absurd hi (hown dir hdir)

theorem restoredUrls (hc : db.docUrlDb.Consistent) (hid : doc.id ≠ 0) (hown : OwnId fs doc)
    (hfresh : db.docUrlDb.idFilenameDb.get doc.id = none) :
    RestoredUrls fs doc.url db.docUrlDb (urlsRestored fs db doc) := by
  have hpath : (db.docUrlDb.withPath fs doc.url).Consistent := hc.withPath doc.url
  have hconsistent : (urlsRestored fs db doc).Consistent := by
    obtain ⟨p, name, heq⟩ := DocumentUrlDB.addUrl_eq fs db.docUrlDb doc
    rw [urlsRestored, heq]
    split
    · apply (hpath.add_fresh hid _).del
      rw [OrdMap.contains, withPath_fresh hown hfresh]
      rfl
    · exact hpath.del
  refine ⟨hconsistent, fun i => ?_⟩
  have hplace : (urlsRestored fs db doc).idFilenameDb.get i = db.docUrlDb.idFilenameDb.get i ∨
      db.docUrlDb.idFilenameDb.get i = none ∧ ∃ dir, IsAncestor dir doc.url ∧ fs.lstat dir = some i := by
    rw [get_urlsRestored hid]
    split
    · next hi =>
      rw [hi, hfresh]
      exact .inl rfl
    · rcases DocumentUrlDB.withPath_enters fs db.docUrlDb doc.url i with hsame | ⟨hnone, dir, hdir, hi, -⟩
      · exact .inl hsame
      · exact .inr ⟨hnone, dir, hdir, hi⟩
  apply hplace.imp_left
  intro hsame
  refine ⟨hsame, fun p => ?_⟩
  rw [hconsistent.listed, hc.listed, DocumentUrlDB.parent, DocumentUrlDB.parent, hsame]

/-- The document is in no table. -/
theorem absent_urlsRestored (hc : db.docUrlDb.Consistent) (hid : doc.id ≠ 0) (hown : OwnId fs doc)
    (habsent : Absent db doc.id) : Absent { db with docUrlDb := urlsRestored fs db doc } doc.id := by
  have hfresh : db.docUrlDb.idFilenameDb.get doc.id = none := congrArg Record.place habsent.record
  have hurls := restoredUrls hc hid hown hfresh
  have hnone : (urlsRestored fs db doc).idFilenameDb.get doc.id = none := by rw [get_urlsRestored hid, if_pos rfl]
  refine ⟨?_, fun p hp => ?_, ?_, habsent.posting, habsent.position, habsent.mtime⟩
  · have hrecord := habsent.record
    simp only [Database.record, Record.mk.injEq] at hrecord ⊢
    refine ⟨hnone, ?_, hrecord.2.2⟩
    rw [← hrecord.2.1]
    funext f
    cases f <;> rfl
  · have hparent := (hurls.consistent.listed doc.id p).mp hp
    rw [DocumentUrlDB.parent, hnone] at hparent
    cases hparent
  · rcases hget : OrdMap.get (urlsRestored fs db doc).idTreeDb doc.id with _ | list
    · rfl
    rcases list with _ | ⟨c, list⟩
    · exact absurd hget (hurls.consistent.nonempty doc.id)
    have hlisted : c ∈ (urlsRestored fs db doc).idTreeDb.get doc.id := by
      rw [IdTreeDB.get, OrdMap.values, hget]
      exact List.mem_cons_self
    have hc' := (hurls.consistent.listed c doc.id).mp hlisted
    rw [DocumentUrlDB.parent, get_urlsRestored hid] at hc'
    split at hc'
    · cases hc'
    rcases DocumentUrlDB.withPath_enters fs db.docUrlDb doc.url c with hsame | ⟨-, dir, hdir, hci, hplace⟩
    · rw [hsame] at hc'
      have hmem := (hc.listed c doc.id).mpr hc'
      rw [IdTreeDB.get, OrdMap.values, habsent.directory] at hmem
      exact absurd hmem List.not_mem_nil
    · -- the directory above would have the id of the document
      obtain ⟨dir', name, rfl, -, hslash⟩ := (fs.isPath dir c hci).split
      rw [hplace, fs.place_append hslash, Option.map_some, Option.some.injEq] at hc'
      dsimp only at hc'
      rcases hlstat : fs.lstat dir' with _ | j
      · rw [FileSystem.filePathToId, hlstat] at hc'
        exact absurd hc'.symm hid
      · rw [fs.filePathToId_eq hlstat] at hc'
        have hne : dir' ≠ [] := by
          rintro rfl
          rw [fs.lstat_nil] at hlstat
          cases hlstat
        have habove : IsAncestor dir' (dir' ++ slash :: name) := ⟨hne, name, rfl⟩
        exact absurd (hc' ▸ hlstat) (hown dir' (habove.trans hdir))

/-- **Removing undoes adding.** A document whose id is in no table is added and removed, in one transaction or in
two: the tables are what they were, except that the URL tree may have gained directories above the path. -/
theorem remove_undoes_add (fs : FileSystem) (hforest : db.docUrlDb.IsForest) (hagrees : Agrees { dbis := db })
    (hmtime : db.mtimeDb.InOrder) (hid : doc.id ≠ 0) (habsent : Absent db doc.id) (hown : OwnId fs doc)
    (hclean : ∀ f t, (doc.family f).contains t = true → DocTermsCodec.Clean t) :
    ∃ urls, RestoredUrls fs doc.url db.docUrlDb urls ∧ Absent { db with docUrlDb := urls } doc.id ∧
      (∀ db', ((WriteTransaction.addDocument fs { dbis := db } doc).removeDocument doc.id).CommitsTo db' →
        db' = { db with docUrlDb := urls }) ∧
      ∀ db₁ db', (WriteTransaction.addDocument fs { dbis := db } doc).CommitsTo db₁ →
        (WriteTransaction.removeDocument { dbis := db₁ } doc.id).CommitsTo db' →
          db' = { db with docUrlDb := urls } := by
  have hempty : ∀ t, WriteTransaction.entry { dbis := db } t doc.id = { posted := false, positions := none } := by
    intro t
    have hposted : (WriteTransaction.entry { dbis := db } t doc.id).posted = false :=
      decide_eq_false (habsent.posting t)
    exact congrArg₂ Entry.mk hposted (hagrees.positions t doc.id hposted)
  have hsorted : (WriteTransaction.addDocument fs { dbis := db } doc).dbis.ListsSorted :=
    listsSorted_addDocument hagrees.sorted
  -- what a transaction with the tables and the entries of the addition commits to
  have hremove : ∀ (v : WriteTransaction) (db' : Database), v.dbis.ListsSorted →
      v.dbis.withoutPostings = (WriteTransaction.addDocument fs { dbis := db } doc).dbis.withoutPostings →
      (∀ t i, v.entry t i = (WriteTransaction.addDocument fs { dbis := db } doc).entry t i) →
      (v.removeDocument doc.id).CommitsTo db' → db' = { db with docUrlDb := urlsRestored fs db doc } := by
    intro v db' hv hdbis hentry hdb'
    have hend : WriteTransaction.CommitsTo { dbis := { db with docUrlDb := urlsRestored fs db doc } }
        { db with docUrlDb := urlsRestored fs db doc } := ⟨[], .refl _, rfl⟩
    apply hdb'.eq_of_entries hend
    · exact ⟨hv.posting, hv.position⟩
    · exact ⟨hagrees.sorted.posting, hagrees.sorted.position⟩
    · intro t i
      exact entry_remove_add habsent hempty hclean (Database.withoutPostings_iff.mp hdbis).1 hentry t i
    · exact withoutPostings_removeDocument habsent hmtime hid hdbis
  refine ⟨urlsRestored fs db doc, restoredUrls hforest.toConsistent hid hown (congrArg Record.place habsent.record),
    absent_urlsRestored hforest.toConsistent hid hown habsent, fun db' => ?_, fun db₁ db' hdb₁ => ?_⟩
  · exact hremove _ db' hsorted rfl fun t i => rfl
  · obtain ⟨order, horder, rfl⟩ := hdb₁
    apply hremove
    · exact WriteTransaction.listsSorted_commit hsorted horder
    · rw [WriteTransaction.commit_eq]
      rfl
    · exact WriteTransaction.entry_commit hsorted horder

end RemoveAdd

/-! ## Replacing everything -/

/-- `DocumentOperation::Everything`. -/
def DocumentOperations.everything : DocumentOperations where
  documentTerms := true
  fileNameTerms := true
  xattrTerms := true
  documentData := true
  documentTime := true
  documentUrl := true

theorem replaces_everything (f : Family) : DocumentOperations.everything.replaces f = true := by cases f <;> rfl

/-- What is assumed of a document that replaces all of an indexed one. -/
structure ReplacesAll (fs : FileSystem) (db : Database) (doc : Document) : Prop
    extends Replaces db doc .everything where
  /-- the stored terms of the document have been written by the codec -/
  encoded : ∀ f, OrdMap.get (db.termsDb f) doc.id = none ∨ ∃ list, list ≠ [] ∧
    (∀ t ∈ list, DocTermsCodec.Clean t) ∧ OrdMap.get (db.termsDb f) doc.id = some (DocTermsCodec.encode list)
  /-- the lists of `MTimeDB` are in order -/
  mtimes : db.mtimeDb.InOrder
  /-- the path has a directory other than the root, and a name -/
  path : 0 < lastIndexOf slash doc.url ∧ mid doc.url (lastIndexOf slash doc.url + 1) ≠ []
  /-- if the directory exists, its id is that of the document's directory -/
  lstat : ∀ q, fs.lstat (left doc.url (lastIndexOf slash doc.url)) = some q → q = doc.parentId
  /-- properties are not dropped -/
  data : doc.data ≠ [] ∨ OrdMap.get db.docDataDb doc.id = none

section ReplaceAll

variable {fs : FileSystem} {db : Database} {doc : Document}

/-- The directory is stored, so `addPath` has nothing to enter. -/
theorem ReplacesAll.withPath_eq (h : ReplacesAll fs db doc) :
    (db.docUrlDb.del doc.id).withPath fs doc.url = db.docUrlDb.del doc.id := by
  rw [DocumentUrlDB.withPath, if_pos h.path.1, DocumentUrlDB.addPath]
  split
  · rfl
  · rw [DocumentUrlDB.addPathLoop]
    split
    · rfl
    · next hq =>
      rcases hlstat : fs.lstat (left doc.url (lastIndexOf slash doc.url)) with _ | q
      · rw [FileSystem.filePathToId, hlstat] at hq
        exact absurd rfl hq
      · rw [fs.filePathToId_eq hlstat, h.lstat q hlstat] at hq ⊢
        obtain ⟨hp, hnot⟩ := h.directory rfl
        have hne : doc.parentId ≠ doc.id := fun heq => hnot (heq ▸ .refl)
        have hcontains := hp.resolve_left hq
        rw [DocumentUrlDB.contains, Bool.and_eq_true] at hcontains
        rw [if_pos]
        rw [OrdMap.contains, DocumentUrlDB.idFilenameDb_del, if_neg fun hboth => hne hboth.1]
        exact hcontains.2

/-- The document is entered again. -/
theorem ReplacesAll.addUrl_eq (h : ReplacesAll fs db doc) :
    WriteTransaction.addUrl fs (db.docUrlDb.del doc.id) doc = ((db.docUrlDb.del doc.id).add doc.id doc.parentId
      (mid doc.url (lastIndexOf slash doc.url + 1)), true) := by
  have hpath := h.withPath_eq
  rw [DocumentUrlDB.withPath, if_pos h.path.1] at hpath
  obtain ⟨dir, name, hurl, hslash⟩ := exists_of_lastIndexOf (Int.le_of_lt h.path.1)
  have hput : DocumentUrlDB.canPut doc.id (mid doc.url (lastIndexOf slash doc.url + 1)) = true := by
    have hname := h.path.2
    rw [hurl, lastIndexOf_append hslash, mid_append] at hname ⊢
    simp only [DocumentUrlDB.canPut, Bool.and_eq_true, decide_eq_true_eq, Bool.not_eq_true']
    exact ⟨⟨h.ne_zero, hname⟩, by simpa using hslash⟩
  simp only [WriteTransaction.addUrl, if_pos h.path.1, hpath, DocumentUrlDB.put]
  rw [if_pos hput]

theorem ReplacesAll.urls_eq (h : ReplacesAll fs db doc) :
    db.docUrlDb.updateUrl doc.id doc.parentId (mid doc.url (lastIndexOf slash doc.url + 1)) =
      (db.docUrlDb.del doc.id).add doc.id doc.parentId (mid doc.url (lastIndexOf slash doc.url + 1)) := by
  have hstored := h.stored
  rw [DocumentUrlDB.contains, Bool.and_eq_true] at hstored
  obtain ⟨path, hpath⟩ := OrdMap.contains_iff.mp hstored.2
  have hdel := h.forest.toConsistent.del (i := doc.id)
  apply DocumentUrlDB.Consistent.ext
  · apply h.forest.toConsistent.updateUrl (q := path.parentId)
    rw [DocumentUrlDB.parent, hpath, Option.map_some]
  · apply hdel.add_fresh h.ne_zero
    rw [OrdMap.contains, DocumentUrlDB.idFilenameDb_del, if_pos ⟨rfl, h.ne_zero⟩]
    rfl
  · intro i
    rw [DocumentUrlDB.idFilenameDb_updateUrl hpath, DocumentUrlDB.idFilenameDb_add h.ne_zero h.path.2,
      DocumentUrlDB.idFilenameDb_del]
    by_cases hi : i = doc.id
    · rw [if_pos hi, if_pos hi]
    · rw [if_neg hi, if_neg hi, if_neg fun hboth => hi hboth.1]

/-- A family of the document has its terms. -/
theorem ReplacesAll.termsDb_replaceDocument (h : ReplacesAll fs db doc) (f : Family) :
    OrdMap.get ((WriteTransaction.replaceDocument { dbis := db } doc .everything).dbis.termsDb f) doc.id =
      termsEntry (doc.family f).keys := by
  have hkeys : ((WriteTransaction.replaceDocument { dbis := db } doc .everything).dbis.termsDb f).get doc.id =
      (doc.family f).keys := by
    rw [Baloo.termsDb_replaceDocument h.nonempty, h.replaceable.termsDb, if_pos rfl, Document.termsAfter,
      if_pos (replaces_everything f)]
  rcases get_replaceDocument { dbis := db } (h.nonempty rfl) .everything f doc.id with ⟨hsame, hnil⟩ | ⟨-, -, hget⟩
  · rw [DocumentDB.get, hsame] at hkeys
    rcases h.encoded f with hnone | ⟨list, hne, hclean, hsome⟩
    · have hnil := hnil (replaces_everything f) rfl hnone
      rw [hsame, termsEntry, if_pos hnil]
      exact hnone
    · -- the list was stored as the codec writes it
      have hlist : list = (doc.family f).keys := by
        have hsome' : OrdMap.get (Database.termsDb { db with } f) doc.id = some (DocTermsCodec.encode list) := hsome
        rw [hsome'] at hkeys
        dsimp only at hkeys
        rwa [DocTermsCodec.decode_encode_terms hclean] at hkeys
      rw [hsame, termsEntry, if_neg (hlist ▸ hne), ← hlist]
      exact hsome
  · exact hget

/-- **The term tables are the same.** -/
theorem ReplacesAll.termsDb_eq (h : ReplacesAll fs db doc) :
    (WriteTransaction.replaceDocument { dbis := db } doc .everything).dbis.termsDb =
      ((WriteTransaction.removeDocument { dbis := db } doc.id).addDocument fs doc).dbis.termsDb := by
  have hurl : (WriteTransaction.addUrl fs (WriteTransaction.removeDocument { dbis := db } doc.id).dbis.docUrlDb
      doc).2 = true := congrArg Prod.snd h.addUrl_eq
  funext f
  refine OrdMap.ext fun i => ?_
  by_cases hi : i = doc.id
  · subst hi
    rw [h.termsDb_replaceDocument, termsDb_addDocument hurl, termsDb_removeDocument, termsEntry]
    by_cases hnil : (doc.family f).keys = []
    · have hf : f ≠ .terms := by
        rintro rfl
        exact h.nonempty rfl hnil
      rw [if_pos hnil, if_pos ⟨hf, hnil⟩, OrdMap.get_del, if_pos rfl]
    · rw [if_neg hnil, if_neg fun hboth => hnil hboth.2, DocumentDB.put, OrdMap.get_put, if_pos rfl]
  · rw [Baloo.termsDb_replaceDocument h.nonempty, get_replaceBlocks_of_ne fun hboth => hi hboth.2,
      termsDb_addDocument hurl, termsDb_removeDocument]
    split
    · rw [OrdMap.get_del, if_neg hi]
    · rw [DocumentDB.put, OrdMap.get_put, if_neg hi, OrdMap.get_del, if_neg hi]

/-- **The entries are the same.** -/
theorem ReplacesAll.entry_eq (h : ReplacesAll fs db doc) (t : Term) (i : DocId) :
    (WriteTransaction.replaceDocument { dbis := db } doc .everything).entry t i =
      ((WriteTransaction.removeDocument { dbis := db } doc.id).addDocument fs doc).entry t i := by
  have hurl : (WriteTransaction.addUrl fs (WriteTransaction.removeDocument { dbis := db } doc.id).dbis.docUrlDb
      doc).2 = true := congrArg Prod.snd h.addUrl_eq
  rw [entry_replaceDocument h.nonempty]
  by_cases hi : i = doc.id
  · subst hi
    rcases termsAfter_cases db doc DocumentOperations.everything.replaces t with ⟨f, td, hf, htd⟩ | ⟨f, hf, -⟩ | hnone
    · rw [h.replaceable.entry_some h.agrees hf htd,
        entry_addDocument_some hurl (h.agrees.entry_removeDocument_self doc.id t) htd fun g hg hmem => ?_]
      apply Replaceable.other (w := { dbis := db }) h.replaceable hf (OrdMap.mem_keys.mpr ⟨td, htd⟩) hg
      rwa [Document.termsAfter, if_pos (replaces_everything g)]
    · rw [replaces_everything] at hf
      cases hf
    · rw [h.replaceable.entry_none h.agrees hnone, entry_addDocument_of fun _ => .inr fun f => ?_,
        h.agrees.entry_removeDocument_self doc.id t]
      have hnot := hnone f
      rwa [Document.termsAfter, if_pos (replaces_everything f)] at hnot
  · rw [entry_replaceBlocks_of_ne hi, entry_addDocument_of fun _ => .inl hi, entry_removeDocument_of_ne _ hi]

/-- **Replacing everything is removing and adding again**: after the commits the term tables, the postings and
positions, the times, the properties and the URL tree are the same. -/
theorem replace_is_remove_add (h : ReplacesAll fs db doc) {db₁ db₂ : Database}
    (hdb₁ : (WriteTransaction.replaceDocument { dbis := db } doc .everything).CommitsTo db₁)
    (hdb₂ : ((WriteTransaction.removeDocument { dbis := db } doc.id).addDocument fs doc).CommitsTo db₂) :
    db₁.termsDb = db₂.termsDb ∧ db₁.postingDb = db₂.postingDb ∧ db₁.positionDb = db₂.positionDb ∧
      db₁.docTimeDb = db₂.docTimeDb ∧ db₁.mtimeDb = db₂.mtimeDb ∧ db₁.docDataDb = db₂.docDataDb ∧
      db₁.docUrlDb.idTreeDb = db₂.docUrlDb.idTreeDb ∧ db₁.docUrlDb.idFilenameDb = db₂.docUrlDb.idFilenameDb := by
  have hsorted₁ : (WriteTransaction.replaceDocument { dbis := db } doc .everything).dbis.ListsSorted :=
    (h.agrees.replaceDocument h.replaceable h.nonempty).sorted
  have hsorted₂ : ((WriteTransaction.removeDocument { dbis := db } doc.id).addDocument fs doc).dbis.ListsSorted :=
    listsSorted_addDocument ⟨h.agrees.sorted.posting, h.agrees.sorted.position⟩
  obtain ⟨hposting, hposition⟩ := hdb₁.postings_eq hdb₂ hsorted₁ hsorted₂ h.entry_eq
  obtain ⟨hterms₁, hurls₁, htime₁, hdata₁, -, -, hmtime₁⟩ := Database.withoutPostings_iff.mp hdb₁.withoutPostings
  obtain ⟨hterms₂, hurls₂, htime₂, hdata₂, -, -, hmtime₂⟩ := Database.withoutPostings_iff.mp hdb₂.withoutPostings
  have haddUrl := h.addUrl_eq
  have hurl : (WriteTransaction.addUrl fs (WriteTransaction.removeDocument { dbis := db } doc.id).dbis.docUrlDb
      doc).2 = true := congrArg Prod.snd haddUrl
  obtain ⟨a, b, c, heq⟩ := dbis_replaceDocument { dbis := db } doc .everything
  have hurls : (WriteTransaction.replaceDocument { dbis := db } doc .everything).dbis.docUrlDb =
      ((WriteTransaction.removeDocument { dbis := db } doc.id).addDocument fs doc).dbis.docUrlDb := by
    rw [heq, docUrlDb_addDocument]
    exact h.urls_eq.trans (congrArg Prod.fst haddUrl).symm
  refine ⟨hterms₁.trans (h.termsDb_eq.trans hterms₂.symm), hposting, hposition, ?_, ?_, ?_, ?_, ?_⟩
  · rw [htime₁, htime₂, heq]
    simp only [WriteTransaction.addDocument, hurl, if_true]
    exact (OrdMap.put_del db.docTimeDb doc.id { mTime := doc.mTime, cTime := doc.cTime }).symm
  · rw [hmtime₁, hmtime₂, heq]
    simp only [WriteTransaction.addDocument, hurl, if_true]
    change (if DocumentOperations.everything.documentTime = true ∧ (db.docTimeDb.get doc.id).mTime ≠ doc.mTime then
      (db.mtimeDb.del (db.docTimeDb.get doc.id).mTime doc.id).put doc.mTime doc.id else db.mtimeDb) =
        (db.mtimeDb.del (db.docTimeDb.get doc.id).mTime doc.id).put doc.mTime doc.id
    split
    · rfl
    · next hsame =>
      -- the time has not changed, and the document is listed under it
      have hmTime : (db.docTimeDb.get doc.id).mTime = doc.mTime := by
        by_contra hne
        exact hsame ⟨rfl, hne⟩
      obtain ⟨info, hinfo⟩ := OrdMap.contains_iff.mp h.recorded
      rw [hmTime]
      refine (h.mtimes.put_del h.ne_zero ((h.times.pair doc.mTime doc.id).mpr ⟨info, hinfo, ?_⟩)).symm
      rw [← hmTime, DocumentTimeDB.get, hinfo, Option.getD_some]
  · rw [hdata₁, hdata₂, heq]
    simp only [WriteTransaction.addDocument, hurl, if_true]
    change (if DocumentOperations.everything.documentData = true ∧ doc.data ≠ [] then
      db.docDataDb.put doc.id doc.data else db.docDataDb) =
        if doc.data ≠ [] then (db.docDataDb.del doc.id).put doc.id doc.data else db.docDataDb.del doc.id
    by_cases hdata : doc.data = []
    · rw [if_neg fun hboth => hboth.2 hdata, if_neg (not_not.mpr hdata),
        OrdMap.del_eq_self (h.data.resolve_left (not_not.mpr hdata))]
    · rw [if_pos ⟨rfl, hdata⟩, if_pos hdata, OrdMap.put_del]
  · rw [hurls₁, hurls₂, hurls]
  · rw [hurls₁, hurls₂, hurls]

end ReplaceAll

/-! ## A file in a directory -/

/-- The file `/p/d` with the content term `b` and the xattr term `a`. -/
def taggedD : Document := { fileD 7 with
  terms := (∅ : OrdMap Term TermData).put [98] { positions := [2] }
  xattrTerms := (∅ : OrdMap Term TermData).put [97] {}
  mTime := 9
  data := [123, 125] }

/-- The same file with another text, at another time. -/
def rewordedD : Document := { taggedD with
  terms := (∅ : OrdMap Term TermData).put [99] { positions := [3, 5] }
  mTime := 10 }

/-- The same file when the attribute has become a word of its text. -/
def retaggedD : Document := { taggedD with
  terms := (∅ : OrdMap Term TermData).put [97] { positions := [1] }
  xattrTerms := ∅ }

/-- The transaction that adds `taggedD`. -/
def addingD : WriteTransaction := ({} : WriteTransaction).addDocument onlyP taggedD

/-- The index of `taggedD`. -/
def taggedDIndex : Index := Index.keep (Index.replace (fun _ _ => ∅) taggedD fun _ => true) addingD.dbis

/-- The tables with `taggedD`. -/
def taggedDDb : Database := addingD.commit addingD.pendingOperations.keys

theorem holds_taggedD : Holds { dbis := taggedDDb } taggedDIndex := by
  have hadd : Step KeepsApart ({}, fun _ _ => ∅) (addingD, taggedDIndex) :=
    .addDocument onlyP taggedD (by decide) (by decide) (by decide)
      ⟨by decide, fun t f g _ _ _ ht => by simp at ht⟩
  have hcommitted : Committed KeepsApart taggedDDb taggedDIndex := .transaction .empty (.single hadd) (.refl _)
  exact hcommitted.holds

theorem isForest_taggedDDb : taggedDDb.docUrlDb.IsForest := by
  rw [taggedDDb, docUrlDb_commit, addingD, docUrlDb_addDocument]
  apply UrlForest.empty.addUrl
  · simp [DocumentUrlDB.parent]
  · exact fun dir hdir => @exists_onlyP dir 7 hdir
  · exact fun _ => rfl
  · intro dir hdir hid
    rw [@isAncestor_fileD dir 7 hdir] at hid
    cases hid

theorem timesAgree_taggedDDb : TimesAgree taggedDDb.docTimeDb taggedDDb.mtimeDb := by
  have htimes := TimesAgree.empty.put (i := 7) (by decide) (by simp) { mTime := 9, cTime := 0 }
  rw [taggedDDb, docTimeDb_commit, mtimeDb_commit]
  exact htimes

theorem inOrder_empty : MTimeDB.InOrder ∅ := ⟨fun _ => SortedSeq.ascending_nil, fun m => by simp⟩

theorem inOrder_taggedDDb : taggedDDb.mtimeDb.InOrder := by
  rw [taggedDDb, mtimeDb_commit]
  exact inOrder_empty.put 9 7

/-- In a forest nothing is both above an entry and below it. -/
theorem not_above_directory {db : DocumentUrlDB} (h : db.IsForest) {i p : DocId} (hp : db.parent i = some p) :
    ¬ Above db.parent i p := (h.rooted i p hp).not_above h.zero hp

theorem parent_taggedDDb : taggedDDb.docUrlDb.parent 7 = some 5 := by
  rw [taggedDDb, docUrlDb_commit]
  decide

theorem replacesAll_rewordedD : ReplacesAll onlyP taggedDDb rewordedD where
  forest := isForest_taggedDDb
  agrees := holds_taggedD.agrees
  times := timesAgree_taggedDDb
  stored := by rw [taggedDDb, docUrlDb_commit]; decide
  recorded := by rw [taggedDDb, docTimeDb_commit]; decide
  replaceable := by
    have hmoves : ∀ f g : Family, g.rank < f.rank →
        ∀ t ∈ (taggedDIndex 7 f).keys, t ∉ (rewordedD.family g).keys := by
      intro f g
      cases f <;> cases g <;> decide
    refine KeepsApart.replaceable holds_taggedD ⟨by decide, fun t f g _ _ hrank ht => ?_⟩ (by decide)
    apply Bool.eq_false_iff.mpr
    intro hnew
    exact hmoves f g hrank t (OrdMap.contains_iff_mem_keys.mp ht) (OrdMap.contains_iff_mem_keys.mp hnew)
  nonempty := by decide
  directory _ := ⟨.inr (by rw [taggedDDb, docUrlDb_commit]; decide),
    not_above_directory isForest_taggedDDb parent_taggedDDb⟩
  encoded f := by
    cases f with
    | terms => exact .inr ⟨[[98]], by decide, by decide, by decide⟩
    | xattrTerms => exact .inr ⟨[[97]], by decide, by decide, by decide⟩
    | fileNameTerms => exact .inl (by decide)
  mtimes := inOrder_taggedDDb
  path := by decide
  lstat q hq := (Option.some.inj hq).symm
  data := .inl (by decide)

theorem replace_is_remove_add_rewordedD : ∃ db₁ db₂,
    (WriteTransaction.replaceDocument { dbis := taggedDDb } rewordedD .everything).CommitsTo db₁ ∧
      ((WriteTransaction.removeDocument { dbis := taggedDDb } rewordedD.id).addDocument onlyP rewordedD).CommitsTo
        db₂ ∧ db₁.postingDb = db₂.postingDb := by
  obtain ⟨db₁, hdb₁⟩ := WriteTransaction.exists_commitsTo
    (WriteTransaction.replaceDocument { dbis := taggedDDb } rewordedD .everything)
  obtain ⟨db₂, hdb₂⟩ := WriteTransaction.exists_commitsTo
    ((WriteTransaction.removeDocument { dbis := taggedDDb } rewordedD.id).addDocument onlyP rewordedD)
  exact ⟨db₁, db₂, hdb₁, hdb₂, (replace_is_remove_add replacesAll_rewordedD hdb₁ hdb₂).2.1⟩

/-- When a term moves from the attributes to the text, replacing loses its posting and adding again does not. -/
theorem moved_term_differs : ¬ ∀ (fs : FileSystem) (db : Database) (doc : Document), db.docUrlDb.IsForest →
    Agrees { dbis := db } → TimesAgree db.docTimeDb db.mtimeDb → db.docUrlDb.contains doc.id = true →
    db.docTimeDb.contains doc.id = true → Apart doc.family → doc.WellFormed → doc.terms.keys ≠ [] →
    db.docUrlDb.contains doc.parentId = true → ¬ Above db.docUrlDb.parent doc.id doc.parentId →
    fs.lstat (left doc.url (lastIndexOf slash doc.url)) = some doc.parentId → doc.data ≠ [] →
    ∀ db₁ db₂, (WriteTransaction.replaceDocument { dbis := db } doc .everything).CommitsTo db₁ →
      ((WriteTransaction.removeDocument { dbis := db } doc.id).addDocument fs doc).CommitsTo db₂ →
        db₁.postingDb = db₂.postingDb := by
  intro h
  have hstored : taggedDDb.docUrlDb.contains 7 = true ∧ taggedDDb.docUrlDb.contains 5 = true := by
    rw [taggedDDb, docUrlDb_commit]
    decide
  have hrecorded : taggedDDb.docTimeDb.contains 7 = true := by
    rw [taggedDDb, docTimeDb_commit]
    decide
  have hsame := h onlyP taggedDDb retaggedD isForest_taggedDDb holds_taggedD.agrees timesAgree_taggedDDb hstored.1
    hrecorded (by decide) (by decide) (by decide) hstored.2
    (not_above_directory isForest_taggedDDb parent_taggedDDb) rfl (by decide) _ _ ⟨_, .refl _, rfl⟩ ⟨_, .refl _, rfl⟩
  have hposted := congrArg (fun posting => OrdMap.get posting [97]) hsame
  revert hposted
  decide

/-- Another file in the directory, with the text of `rewordedD`. -/
def beside : Document := { rewordedD with
  id := 8
  url := [47, 112, 47, 101] }

theorem absent_beside : Absent taggedDDb 8 := by
  have hpairs : PairsRecorded { dbis := taggedDDb } :=
    ⟨fun m i hm => (timesAgree_taggedDDb.pair m i).mp hm, timesAgree_taggedDDb.sorted⟩
  apply absent_of_record isForest_taggedDDb holds_taggedD.agrees hpairs (by decide)
  have hterms : ∀ f, OrdMap.get (taggedDDb.termsDb f) 8 = none := by
    intro f
    cases f <;> decide
  have hplace : taggedDDb.docUrlDb.idFilenameDb.get 8 = none := by
    rw [taggedDDb, docUrlDb_commit]
    decide
  rw [Database.record, hplace, funext hterms]
  rfl

theorem ownId_beside : OwnId onlyP beside := by
  intro dir _ hdir
  have hid : (if dir = [slash, 112] then some 5 else none) = some 8 := hdir
  split at hid
  · cases hid
  · cases hid

theorem remove_undoes_add_beside : ∃ urls, RestoredUrls onlyP beside.url taggedDDb.docUrlDb urls ∧
    ∀ db', ((WriteTransaction.addDocument onlyP { dbis := taggedDDb } beside).removeDocument 8).CommitsTo db' →
      db' = { taggedDDb with docUrlDb := urls } := by
  have hdoc : beside.WellFormed := by decide
  obtain ⟨urls, hurls, -, hone, -⟩ := remove_undoes_add onlyP isForest_taggedDDb holds_taggedD.agrees
    inOrder_taggedDDb (by decide) absent_beside ownId_beside fun f t ht => (hdoc f t ht).2
  exact ⟨urls, hurls, hone⟩

/-- A term with a byte of the codec is not found again. -/
theorem unclean_term_stays : ¬ ∀ (fs : FileSystem) (db : Database) (doc : Document), db.docUrlDb.IsForest →
    Agrees { dbis := db } → db.mtimeDb.InOrder → doc.id ≠ 0 → Absent db doc.id → OwnId fs doc →
    Apart doc.family → doc.terms.keys ≠ [] → ∀ db₁ db',
      (WriteTransaction.addDocument fs { dbis := db } doc).CommitsTo db₁ →
        (WriteTransaction.removeDocument { dbis := db₁ } doc.id).CommitsTo db' →
          db'.postingDb = db.postingDb := by
  intro h
  have hsame := h onlyP taggedDDb { beside with terms := (∅ : OrdMap Term TermData).put [1] {} } isForest_taggedDDb
    holds_taggedD.agrees inOrder_taggedDDb (by decide) absent_beside ownId_beside (by decide) (by decide) _ _
    ⟨_, .refl _, rfl⟩ ⟨_, .refl _, rfl⟩
  have hposted := congrArg (fun posting => OrdMap.get posting [1]) hsame
  revert hposted
  decide

end Baloo
