import Baloo.PathEntry

/-!
# Entering a document

`addDocument` enters the directories of a document from below, as far as they are not stored, and then the
document. What it leaves behind is described from the other end: an entry is as it was, or it is new and says
where a path on the way to the document belongs (`Extends`). If no stored entry has the place of a path on the
way, the nodes on the way down are the ids that `lstat` gives (`Fits.eq_toId`), so lookups and climbs find
them, and nothing else has moved (`addDocument_resolves`).
-/

namespace Baloo

/-! ## Arbitrary ids -/

namespace WriteTransaction

/-- The first block of `WriteTransaction::addDocument`, where `filePathToId` is any function. -/
def addUrlIds (filePathToId : QByteArray → DocId) (db : DocumentUrlDB) (doc : Document) : DocumentUrlDB × Bool :=
  let pos := lastIndexOf slash doc.url
  let filename := mid doc.url (pos + 1)
  let db' := if 0 < pos then (db.addPathIds filePathToId (left doc.url pos)).1 else db
  let parentId := if 0 < pos then doc.parentId else 0
  match db'.put doc.id parentId filename with
  | none => (db', false)
  | some db'' => (db'', true)

/-- The rest of `WriteTransaction::addDocument`. -/
def addDocumentData (w : WriteTransaction) (doc : Document) : WriteTransaction :=
  let id := doc.id
  let (w, docTerms) := w.addTerms id doc.terms
  let (w, docXattrTerms) := w.addTerms id doc.xattrTerms
  let (w, docFileNameTerms) := w.addTerms id doc.fileNameTerms
  { w with
    dbis := { w.dbis with
      docTermsDb := w.dbis.docTermsDb.put id docTerms
      docXattrTermsDb :=
        if docXattrTerms ≠ [] then w.dbis.docXattrTermsDb.put id docXattrTerms else w.dbis.docXattrTermsDb
      docFilenameTermsDb :=
        if docFileNameTerms ≠ [] then w.dbis.docFilenameTermsDb.put id docFileNameTerms
        else w.dbis.docFilenameTermsDb
      contentIndexingDb :=
        if doc.contentIndexing then w.dbis.contentIndexingDb.put id else w.dbis.contentIndexingDb
      docTimeDb := w.dbis.docTimeDb.put id { mTime := doc.mTime, cTime := doc.cTime }
      mtimeDb := w.dbis.mtimeDb.put doc.mTime id
      docDataDb := if doc.data ≠ [] then w.dbis.docDataDb.put id doc.data else w.dbis.docDataDb } }

/-- `WriteTransaction::addDocument`, where `filePathToId` is any function. -/
def addDocumentIds (filePathToId : QByteArray → DocId) (w : WriteTransaction) (doc : Document) : WriteTransaction :=
  let url := addUrlIds filePathToId w.dbis.docUrlDb doc
  let w := { w with dbis := { w.dbis with docUrlDb := url.1 } }
  if url.2 then w.addDocumentData doc else w

/-- `addDocument` is the case of the ids of a file system. -/
theorem addDocument_eq_ids (fs : FileSystem) (w : WriteTransaction) (doc : Document) :
    w.addDocument fs doc = w.addDocumentIds fs.filePathToId doc := by
  have hpath : DocumentUrlDB.addPath fs = DocumentUrlDB.addPathIds fs.filePathToId :=
    funext₂ (DocumentUrlDB.addPath_eq_ids fs)
  have hurl : addUrlIds fs.filePathToId w.dbis.docUrlDb doc = addUrl fs w.dbis.docUrlDb doc := by
    rw [addUrl, hpath]
    rfl
  rw [addDocumentIds, hurl]
  rfl

theorem docUrlDb_addDocumentIds (toId : QByteArray → DocId) (w : WriteTransaction) (doc : Document) :
    (w.addDocumentIds toId doc).dbis.docUrlDb = (addUrlIds toId w.dbis.docUrlDb doc).1 := by
  rw [addDocumentIds]
  dsimp only
  split <;> rfl

end WriteTransaction

/-- The path itself or a directory above it. -/
def OnWay (p path : QByteArray) : Prop := p = path ∨ IsAncestor p path

/-- Where an entry for a path belongs. -/
def place (toId : QByteArray → DocId) (path : QByteArray) : FilePath :=
  let pos := lastIndexOf slash path
  { parentId := if pos ≤ 0 then 0 else toId (left path pos), name := mid path (pos + 1) }

section Paths

variable {toId : QByteArray → DocId} {dir name p q path : QByteArray}

theorem place_append (toId : QByteArray → DocId) (hslash : slash ∉ name) :
    place toId (dir ++ slash :: name) = { parentId := if dir = [] then 0 else toId dir, name := name } := by
  simp only [place, lastIndexOf_append hslash, left_append, mid_append, Int.natCast_nonpos_iff,
    List.length_eq_zero_iff]

theorem onWay_append (hslash : slash ∉ name) :
    OnWay p (dir ++ slash :: name) ↔ p = dir ++ slash :: name ∨ dir ≠ [] ∧ OnWay p dir := by
  rw [OnWay, isAncestor_append hslash]
  refine or_congr_right ⟨?_, ?_⟩
  · rintro (⟨hne, rfl⟩ | habove)
    · exact ⟨hne, .inl rfl⟩
    · refine ⟨?_, .inr habove⟩
      rintro rfl
      obtain ⟨-, rest, hrest⟩ := habove
      simp at hrest
  · rintro ⟨hne, rfl | habove⟩
    · exact .inl ⟨hne, rfl⟩
    · exact .inr habove

theorem OnWay.length_le (h : OnWay p path) : p.length ≤ path.length := by
  rcases h with rfl | h
  · exact Nat.le_refl _
  · exact h.length_lt.le

theorem OnWay.count_le (h : OnWay p path) : p.count slash ≤ path.count slash := by
  rcases h with rfl | ⟨-, rest, rfl⟩
  · exact Nat.le_refl _
  · rw [List.count_append]
    exact Nat.le_add_right _ _

/-- A path on the way is at the top level or in a directory on the way. -/
theorem OnWay.split (h : OnWay p path) (hpath : IsPath path) :
    ∃ dir name, p = dir ++ slash :: name ∧ name ≠ [] ∧ slash ∉ name ∧ (dir = [] ∨ OnWay dir path) := by
  have hall : ∀ p, OnWay p path → ∃ dir name, p = dir ++ slash :: name ∧ name ≠ [] ∧ slash ∉ name ∧
      (dir = [] ∨ OnWay dir path) := by
    refine hpath.dirInduction (motive := fun path => ∀ p, OnWay p path → ∃ dir name, p = dir ++ slash :: name ∧
      name ≠ [] ∧ slash ∉ name ∧ (dir = [] ∨ OnWay dir path)) ?_ ?_
    · intro name hname hslash p hp
      rcases (onWay_append hslash).mp hp with rfl | ⟨hne, -⟩
      · exact ⟨[], name, rfl, hname, hslash, .inl rfl⟩
      · exact absurd rfl hne
    · intro dir name hdir hname hslash ih p hp
      have hway : ∀ {q}, OnWay q dir → OnWay q (dir ++ slash :: name) :=
        fun hq => (onWay_append hslash).mpr (.inr ⟨hdir.ne_nil, hq⟩)
      rcases (onWay_append hslash).mp hp with rfl | ⟨-, hp⟩
      · exact ⟨dir, name, rfl, hname, hslash, .inr (hway (.inl rfl))⟩
      · obtain ⟨dir', name', rfl, hname', hslash', hdir'⟩ := ih p hp
        exact ⟨dir', name', rfl, hname', hslash', hdir'.imp_right hway⟩
  exact hall p h

end Paths

namespace DocumentUrlDB

variable {toId : QByteArray → DocId} {db db' : DocumentUrlDB} {id i j : DocId} {dir name url arr p q : QByteArray}
  {n m : ℕ}

/-! ## What is written -/

/-- The paths on the way to `arr` have been entered, where they have not been stored. -/
def Extends (toId : QByteArray → DocId) (arr : QByteArray) (db db' : DocumentUrlDB) : Prop :=
  ∀ i, db'.idFilenameDb.get i = db.idFilenameDb.get i ∨
    db.idFilenameDb.get i = none ∧ ∃ p, OnWay p arr ∧ i = toId p ∧ db'.idFilenameDb.get i = some (place toId p)

/-- A new entry for a path, after the entries for paths further down. -/
theorem Extends.head (h : Extends toId dir (db.add (toId (dir ++ slash :: name)) (toId dir) name) db') (hdir : dir ≠ [])
    (hid : toId (dir ++ slash :: name) ≠ 0) (hfresh : db.idFilenameDb.get (toId (dir ++ slash :: name)) = none)
    (hname : name ≠ []) (hslash : slash ∉ name) : Extends toId (dir ++ slash :: name) db db' := by
  intro i
  have hadd := @idFilenameDb_add db _ (toId dir) name hid hname i
  rcases h i with hi | ⟨hi, p, hp, rfl, hget⟩
  · rw [hi, hadd]
    split
    · next heq =>
      rw [heq]
      exact .inr ⟨hfresh, _, .inl rfl, rfl, by rw [place_append toId hslash, if_neg hdir]⟩
    · exact .inl rfl
  · rw [hadd] at hi
    split at hi
    · cases hi
    · exact .inr ⟨hi, p, (onWay_append hslash).mpr (.inr ⟨hdir, hp⟩), rfl, hget⟩

/-- A new entry for a path, after the entries for its directory. -/
theorem Extends.last (h : dir = [] ∧ db' = db ∨ dir ≠ [] ∧ Extends toId dir db db')
    (hid : toId (dir ++ slash :: name) ≠ 0)
    (hfresh : db.idFilenameDb.get (toId (dir ++ slash :: name)) = none) (hname : name ≠ []) (hslash : slash ∉ name) :
    Extends toId (dir ++ slash :: name) db
      (db'.add (toId (dir ++ slash :: name)) (if dir = [] then 0 else toId dir) name) := by
  intro i
  rw [idFilenameDb_add hid hname]
  split
  · next heq =>
    rw [heq]
    exact .inr ⟨hfresh, _, .inl rfl, rfl, by rw [place_append toId hslash]⟩
  · rcases h with ⟨-, rfl⟩ | ⟨hdir, h⟩
    · exact .inl rfl
    · rcases h i with hold | ⟨hi, p, hp, heq, hget⟩
      · exact .inl hold
      · exact .inr ⟨hi, p, (onWay_append hslash).mpr (.inr ⟨hdir, hp⟩), heq, hget⟩

theorem addPathIdsLoop_extends (toId : QByteArray → DocId) (hpath : IsPath arr) (rounds : ℕ) (db : DocumentUrlDB) :
    Extends toId arr db (addPathIdsLoop toId rounds db arr (toId arr)).1 := by
  have hsame : ∀ {arr db}, Extends toId arr db db := fun i => .inl rfl
  -- a round that writes an entry
  have hround : ∀ {arr rounds db}, Extends toId arr db (addPathIdsLoop toId rounds db arr (toId arr)).1 ∨
      ∃ k, rounds = k + 1 ∧ toId arr ≠ 0 ∧ db.idFilenameDb.get (toId arr) = none := by
    intro arr rounds db
    rcases rounds with _ | rounds
    · exact .inl hsame
    · by_cases hid : toId arr = 0
      · rw [hid, addPathIdsLoop_zero]
        exact .inl hsame
      · rcases hget : db.idFilenameDb.get (toId arr) with _ | path
        · exact .inr ⟨rounds, rfl, hid, rfl⟩
        · rw [addPathIdsLoop_stored hid (OrdMap.contains_iff.mpr ⟨path, hget⟩)]
          exact .inl hsame
  have hall : ∀ rounds db, Extends toId arr db (addPathIdsLoop toId rounds db arr (toId arr)).1 := by
    refine hpath.dirInduction (motive := fun arr => ∀ rounds db,
      Extends toId arr db (addPathIdsLoop toId rounds db arr (toId arr)).1) ?_ ?_
    · intro name hname hslash rounds db
      rcases @hround ([] ++ slash :: name) rounds db with h | ⟨k, rfl, hid, hfresh⟩
      · exact h
      · rw [addPathIdsLoop_entry hid (by rw [OrdMap.contains, hfresh]; rfl) hslash, if_pos rfl]
        exact Extends.last (.inl ⟨rfl, rfl⟩) hid hfresh hname hslash
    · intro dir name hdir hname hslash ih rounds db
      rcases @hround (dir ++ slash :: name) rounds db with h | ⟨k, rfl, hid, hfresh⟩
      · exact h
      · rw [addPathIdsLoop_entry hid (by rw [OrdMap.contains, hfresh]; rfl) hslash, if_neg hdir.ne_nil]
        split
        · exact hsame
        · exact (ih k _).head hdir.ne_nil hid hfresh hname hslash
  exact hall rounds db

/-! ## What `lstat` says -/

/-- `lstat` gives the path and the directories above it ids of their own, and the tables have nothing against
these ids. -/
structure Fits (toId : QByteArray → DocId) (db : DocumentUrlDB) (url : QByteArray) : Prop where
  /-- all of them exist -/
  ne_zero : ∀ p, OnWay p url → toId p ≠ 0
  /-- the ids are distinct -/
  injective : ∀ p q, OnWay p url → OnWay q url → toId p = toId q → p = q
  /-- an id that is stored is at its path -/
  get : ∀ p, OnWay p url → db.idFilenameDb.contains (toId p) = true → db.get (toId p) = p
  /-- no other id has its directory and its name -/
  unique : ∀ p, OnWay p url → ∀ j, db.idFilenameDb.get j = some (place toId p) → j = toId p

theorem Fits.directory (h : Fits toId db (dir ++ slash :: name)) (hdir : dir ≠ []) (hslash : slash ∉ name) :
    Fits toId db dir := by
  have hway : ∀ {p}, OnWay p dir → OnWay p (dir ++ slash :: name) :=
    fun hp => (onWay_append hslash).mpr (.inr ⟨hdir, hp⟩)
  exact ⟨fun p hp => h.ne_zero p (hway hp), fun p q hp hq => h.injective p q (hway hp) (hway hq),
    fun p hp => h.get p (hway hp), fun p hp => h.unique p (hway hp)⟩

/-- The id of a path is not the id of a path further up. -/
theorem Fits.ne (h : Fits toId db (dir ++ slash :: name)) (hdir : dir ≠ []) (hslash : slash ∉ name)
    (hp : OnWay p dir) : toId p ≠ toId (dir ++ slash :: name) := by
  intro heq
  have hlength := hp.length_le
  rw [h.injective _ _ ((onWay_append hslash).mpr (.inr ⟨hdir, hp⟩)) (.inl rfl) heq, List.length_append,
    List.length_cons] at hlength
  omega

/-- Such a path can be climbed. -/
theorem Fits.climbs (h : Fits toId db arr) (hpath : IsPath arr) : Climbs toId db [] arr := by
  -- a path that is stored is at its place
  have hround : ∀ {arr seen}, arr ≠ [] → Fits toId db arr → toId arr ∉ seen →
      Climbs toId db seen arr ∨ Unknown toId db seen arr := by
    intro arr seen hne h hnotMem
    have hid := h.ne_zero arr (.inl rfl)
    by_cases hstored : db.idFilenameDb.contains (toId arr) = true
    · have hget := h.get arr (.inl rfl) hstored
      obtain ⟨n, -, hlocated⟩ := located_of_get (hget ▸ hne)
      rw [hget] at hlocated
      exact .inl (.stored hid hlocated)
    · refine .inr ⟨hid, ?_, hnotMem⟩
      rwa [OrdMap.contains, Option.not_isSome_iff_eq_none] at hstored
  have hall : Fits toId db arr → ∀ seen, (∀ p, OnWay p arr → toId p ∉ seen) → Climbs toId db seen arr := by
    refine hpath.dirInduction (motive := fun arr => Fits toId db arr → ∀ seen, (∀ p, OnWay p arr → toId p ∉ seen) →
      Climbs toId db seen arr) ?_ ?_
    · intro name hname hslash h seen hnotMem
      exact (hround (by simp) h (hnotMem _ (.inl rfl))).elim id (.top hname hslash)
    · intro dir name hdir hname hslash ih h seen hnotMem
      refine (hround (by simp) h (hnotMem _ (.inl rfl))).elim id fun hunknown => ?_
      refine .entry hdir.ne_nil hname hslash hunknown (ih (h.directory hdir.ne_nil hslash) _ fun p hp hmem => ?_)
      rcases List.mem_cons.mp hmem with heq | hmem
      · exact h.ne hdir.ne_nil hslash hp heq
      · exact hnotMem p ((onWay_append hslash).mpr (.inr ⟨hdir.ne_nil, hp⟩)) hmem
  exact hall h [] fun _ _ => List.not_mem_nil

/-- Different paths on the way have different places. -/
theorem Fits.eq_of_place (h : Fits toId db url) (hurl : IsPath url) (hp : OnWay p url) (hq : OnWay q url)
    (heq : place toId p = place toId q) : p = q := by
  obtain ⟨dir, name, rfl, -, hslash, hdir⟩ := hp.split hurl
  obtain ⟨dir', name', rfl, -, hslash', hdir'⟩ := hq.split hurl
  rw [place_append toId hslash, place_append toId hslash'] at heq
  obtain ⟨hparent, rfl⟩ := FilePath.mk.inj heq
  rcases hdir with rfl | hdir
  · rcases hdir' with rfl | hdir'
    · rfl
    · by_cases hnil : dir' = []
      · rw [hnil]
      · rw [if_pos rfl, if_neg hnil] at hparent
        exact absurd hparent.symm (h.ne_zero _ hdir')
  · by_cases hnil : dir = []
    · subst hnil
      by_cases hnil' : dir' = []
      · rw [hnil']
      · rw [if_pos rfl, if_neg hnil'] at hparent
        exact absurd hparent.symm (h.ne_zero _ (hdir'.resolve_left hnil'))
    · by_cases hnil' : dir' = []
      · rw [if_neg hnil, if_pos hnil'] at hparent
        exact absurd hparent (h.ne_zero _ hdir)
      · rw [if_neg hnil, if_neg hnil'] at hparent
        rw [h.injective _ _ hdir (hdir'.resolve_left hnil') hparent]

/-! ## The nodes on the way -/

/-- Only the id of a path has the place of the path. -/
theorem Extends.unique (h : Extends toId url db db') (hfits : Fits toId db url) (hurl : IsPath url) (hp : OnWay p url)
    (hj : db'.idFilenameDb.get j = some (place toId p)) : j = toId p := by
  rcases h j with hsame | ⟨-, q, hq, rfl, hget⟩
  · exact hfits.unique p hp j (hsame.symm.trans hj)
  · rw [hfits.eq_of_place hurl hq hp (Option.some.inj (hget.symm.trans hj))]

theorem Extends.distinct (h : Extends toId url db db') (hfits : Fits toId db url) (hurl : IsPath url)
    (hdistinct : db.Distinct) : db'.Distinct := by
  intro i j path hi hj
  rcases h i with hsame | ⟨-, p, hp, rfl, hget⟩
  · rcases h j with hsame' | ⟨-, q, hq, rfl, hget'⟩
    · exact hdistinct i j path (hsame.symm.trans hi) (hsame'.symm.trans hj)
    · exact h.unique hfits hurl hq (hi.trans (hj.symm.trans hget'))
  · exact (h.unique hfits hurl hp (hj.trans (hi.symm.trans hget))).symm

/-- The entry at a path on the way has the id of the path. -/
theorem Extends.eq_toId (h : Extends toId url db db') (hfits : Fits toId db url) (hurl : IsPath url)
    (hn : db'.WellNamed) (hlocated : db'.Located m j p) (hp : OnWay p url) : j = toId p := by
  induction hlocated with
  | root =>
    obtain ⟨dir, name, hnil, -⟩ := hp.split hurl
    simp at hnil
  | @entry m id path u hne hget hparent ih =>
    have hslash := (hn id path hget).2
    obtain ⟨dir, name, heq, -, hslash', hdir⟩ := hp.split hurl
    obtain ⟨rfl, -⟩ := append_slash_inj heq hslash hslash'
    refine h.unique hfits hurl hp (hget.trans ?_)
    rw [place_append toId hslash]
    split
    · next hnil =>
      rw [hnil] at hparent
      rw [← hparent.eq_zero]
    · next hnil => rw [← ih (hdir.resolve_left hnil)]

/-- Stored entries are where they were. -/
theorem Extends.located (h : Extends toId url db db') (hforest : db.IsForest) (hlocated : db.Located n i p) :
    db'.Located n i p := by
  refine hlocated.congr fun a ha habove => (h a).resolve_right ?_
  rintro ⟨hnone, -⟩
  obtain ⟨path, hpath⟩ := hlocated.get_above hforest.zero ha habove
  rw [hnone] at hpath
  cases hpath

/-- The paths on the way to `url` are found, under their ids, and other paths are what they were. -/
structure Resolves (toId : QByteArray → DocId) (url : QByteArray) (db db' : DocumentUrlDB) : Prop where
  /-- from the id to the path -/
  get : ∀ p, OnWay p url → db'.get (toId p) = p
  /-- and from the path to the id -/
  documentId : ∀ p, OnWay p url → db'.documentId p = toId p
  /-- other ids have the paths they had -/
  other : ∀ i, db.idFilenameDb.contains i = true ∨ (∀ p, OnWay p url → i ≠ toId p) → db'.get i = db.get i
  /-- the tables are a tree -/
  isTree : db'.IsTree
  /-- without doubles -/
  distinct : db'.Distinct

theorem Extends.resolves (h : Extends toId url db db') (hdb : db.IsTree) (hdistinct : db.Distinct)
    (hfits : Fits toId db url) (hurl : IsPath url) (hdepth : url.count slash < 512) (hdb' : db'.IsTree)
    (hlocated : db'.Located n (toId url) url) : Resolves toId url db db' := by
  have hdistinct' := h.distinct hfits hurl hdistinct
  have hnode : ∀ p, OnWay p url → ∃ m, db'.Located m (toId p) p := by
    rintro p (rfl | hp)
    · exact ⟨n, hlocated⟩
    · obtain ⟨a, m, -, -, ha⟩ := hlocated.exists_above hdb'.named hp
      rw [h.eq_toId hfits hurl hdb'.named ha (.inr hp)] at ha
      exact ⟨m, ha⟩
  refine ⟨fun p hp => ?_, fun p hp => ?_, fun i hi => ?_, hdb', h.distinct hfits hurl hdistinct⟩
  · obtain ⟨m, hm⟩ := hnode p hp
    have hcount := hm.count hdb'.named
    have hle := hp.count_le
    exact hm.get (by omega)
  · obtain ⟨m, hm⟩ := hnode p hp
    exact hm.documentId_eq hdb'.toConsistent hdb'.named (h.distinct hfits hurl hdistinct)
  · rcases hget : db.idFilenameDb.get i with _ | path
    · rcases h i with hsame | ⟨-, p, hp, rfl, -⟩
      · rw [get_of_none hget, get_of_none (hsame.trans hget)]
      · refine absurd rfl (hi.resolve_left ?_ p hp)
        rw [OrdMap.contains, hget]
        exact Bool.false_ne_true
    · obtain ⟨k, u, hu⟩ := hdb.exists_located (OrdMap.contains_iff.mpr ⟨path, hget⟩)
      exact hu.get_eq (h.located hdb.toIsForest hu)

/-! ## The document -/

/-- `addUrlIds` for a path that is cut at its last slash. -/
theorem addUrlIds_eq (toId : QByteArray → DocId) (db : DocumentUrlDB) {doc : Document}
    (hurl : doc.url = dir ++ slash :: name) (hid : doc.id ≠ 0) (hname : name ≠ []) (hslash : slash ∉ name) :
    (WriteTransaction.addUrlIds toId db doc).1 =
      (if dir = [] then db else (db.addPathIds toId dir).1).add doc.id (if dir = [] then 0 else doc.parentId) name := by
  have hput : canPut doc.id name = true := by simp [canPut, hid, hname, hslash]
  rw [WriteTransaction.addUrlIds, hurl, lastIndexOf_append hslash]
  simp only [left_append, mid_append, Int.natCast_pos, List.length_pos_iff, put, if_pos hput, ite_not]

/-- **A document that is added is found.** Its path and the directories above it resolve to the ids that `lstat`
gives, and back; every other path stays what it was. -/
theorem addDocument_resolves (toId : QByteArray → DocId) (w : WriteTransaction) (doc : Document)
    (hdb : w.dbis.docUrlDb.IsTree) (hdistinct : w.dbis.docUrlDb.Distinct) (hurl : IsPath doc.url)
    (hdepth : doc.url.count slash < 512) (hid : toId doc.url = doc.id)
    (hfresh : w.dbis.docUrlDb.idFilenameDb.contains doc.id = false) (hfits : Fits toId w.dbis.docUrlDb doc.url)
    (hparent : parentPath doc.url ≠ [] → doc.parentId = toId (parentPath doc.url)) :
    Resolves toId doc.url w.dbis.docUrlDb (w.addDocumentIds toId doc).dbis.docUrlDb := by
  rw [WriteTransaction.docUrlDb_addDocumentIds]
  generalize w.dbis.docUrlDb = db at hdb hdistinct hfresh hfits ⊢
  have hne : doc.id ≠ 0 := hid ▸ hfits.ne_zero doc.url (.inl rfl)
  obtain ⟨dir, name, hsplit, hname, hslash, hdir⟩ := hurl.cut
  rw [addUrlIds_eq toId db hsplit hne hname hslash]
  rw [hsplit] at hurl hdepth hid hfits hparent ⊢
  rw [parentPath_append hslash] at hparent
  rw [← hid] at hfresh hne ⊢
  have hget : db.idFilenameDb.get (toId (dir ++ slash :: name)) = none := by
    rwa [OrdMap.contains, Option.isSome_eq_false_iff, Option.isNone_iff_eq_none] at hfresh
  rcases eq_or_ne dir [] with rfl | hdirNe
  · rw [if_pos rfl, if_pos rfl]
    have hextends := Extends.last (.inl ⟨rfl, rfl⟩) hne hget hname hslash
    rw [if_pos rfl] at hextends
    exact hextends.resolves hdb hdistinct hfits hurl hdepth (hdb.add hne hfresh hname hslash (.inl rfl))
      (.entry hne (get_add_self hne hname) .root)
  · rw [if_neg hdirNe, if_neg hdirNe, hparent hdirNe]
    have hdirPath := hdir.resolve_left hdirNe
    have hcall : db.addPathIds toId dir = addPathIdsLoop toId (dir.length + 1) db dir (toId dir) :=
      if_neg (not_or.mpr ⟨hdirPath.ne_nil, hdirPath.getLast?_ne⟩)
    have hdirFits := hfits.directory hdirNe hslash
    have hang := hdb.hanging (toId dir)
    obtain ⟨-, htree, n, hlocated⟩ := (hdirFits.climbs hdirPath).enters hdb hang (Nat.lt_succ_self _)
    have hwritten := addPathIdsLoop_extends toId hdirPath (dir.length + 1) db
    rw [← hcall] at htree hlocated hwritten
    -- the document is not among the directories
    have hfresh' : (db.addPathIds toId dir).1.idFilenameDb.contains (toId (dir ++ slash :: name)) = false := by
      rcases hwritten (toId (dir ++ slash :: name)) with hsame | ⟨-, p, hp, heq, -⟩
      · rw [OrdMap.contains, hsame, ← OrdMap.contains, hfresh]
      · exact absurd heq.symm (hfits.ne hdirNe hslash hp)
    have hstored : (db.addPathIds toId dir).1.idFilenameDb.contains (toId dir) = true :=
      OrdMap.contains_iff.mpr (hlocated.exists_get (hdirFits.ne_zero dir (.inl rfl)))
    have hlocated' := hlocated.add htree.zero hne hname hfresh' (toId dir)
    have hextends := Extends.last (.inr ⟨hdirNe, hwritten⟩) hne hget hname hslash
    rw [if_neg hdirNe] at hextends
    exact hextends.resolves hdb hdistinct hfits hurl hdepth (htree.add hne hfresh' hname hslash (.inr hstored))
      (.entry hne (get_add_self hne hname) hlocated')

/-- `/p/e/x` and its directory `/p/e` are new; `/p` is stored. -/
def newInE (path : QByteArray) : DocId :=
  if path = [47, 112, 47, 101, 47, 120] then 7 else if path = [47, 112, 47, 101] then 8
  else if path = [47, 112] then 5 else 0

theorem fits_newInE : Fits newInE adKnown.docUrlDb [47, 112, 47, 101, 47, 120] := by
  have hway : ∀ p, OnWay p [47, 112, 47, 101, 47, 120] →
      p ∈ [[47, 112, 47, 101, 47, 120], [47, 112, 47, 101], [47, 112]] := by
    intro p hp
    rcases (@onWay_append [47, 112, 47, 101] [120] p (by simp [slash])).mp hp with rfl | ⟨-, hp⟩
    · simp
    rcases (@onWay_append [47, 112] [101] p (by simp [slash])).mp hp with rfl | ⟨-, hp⟩
    · simp
    rcases (@onWay_append [] [112] p (by simp [slash])).mp hp with rfl | ⟨hne, -⟩
    · simp
    · exact absurd rfl hne
  have hunique : ∀ p ∈ [[47, 112, 47, 101, 47, 120], [47, 112, 47, 101], [47, 112]], ∀ j ∈ [1, 2, 3, 5],
      adKnown.docUrlDb.idFilenameDb.get j = some (place newInE p) → j = newInE p := by decide +kernel
  have hget : ∀ p ∈ [[47, 112, 47, 101, 47, 120], [47, 112, 47, 101], [47, 112]],
      adKnown.docUrlDb.idFilenameDb.contains (newInE p) = true → adKnown.docUrlDb.get (newInE p) = p := by
    decide +kernel
  have hinjective : ∀ p ∈ [[47, 112, 47, 101, 47, 120], [47, 112, 47, 101], [47, 112]],
      ∀ q ∈ [[47, 112, 47, 101, 47, 120], [47, 112, 47, 101], [47, 112]], newInE p = newInE q → p = q := by
    decide +kernel
  refine ⟨fun p hp => ?_, fun p q hp hq => hinjective p (hway p hp) q (hway q hq), fun p hp => hget p (hway p hp),
    fun p hp j hj => hunique p (hway p hp) j (adKnown_get hj) hj⟩
  have hmem := hway p hp
  simp only [List.mem_cons, List.not_mem_nil, or_false] at hmem
  rcases hmem with rfl | rfl | rfl <;> simp [newInE]

theorem addDocument_resolves_newInE : Resolves newInE [47, 112, 47, 101, 47, 120] adKnown.docUrlDb
    (WriteTransaction.addDocumentIds newInE { dbis := adKnown }
      { id := 7, parentId := 8, url := [47, 112, 47, 101, 47, 120] }).dbis.docUrlDb :=
  addDocument_resolves newInE { dbis := adKnown } { id := 7, parentId := 8, url := [47, 112, 47, 101, 47, 120] }
    ⟨adKnown_forest, adKnown_wellNamed⟩ adKnown_distinct
    ⟨[[112], [101], [120]], by simp, by simp [slash], rfl⟩ (by decide) rfl rfl fits_newInE (fun _ => rfl)

end DocumentUrlDB

end Baloo
