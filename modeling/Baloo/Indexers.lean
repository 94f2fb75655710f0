import Baloo.FileIndexerConfig
import Baloo.TermGenerator
import Baloo.UrlForest

/-!
# The basic indexers

Five jobs enter files and directories into the index: the first run, new files, modified files,
changed attributes, and the check for unindexed files. Each goes through a list of paths and, for every
path, asks the file system and the index what is to be done, lets `BasicIndexingJob` make a document
and hands it to the transaction. Here a job is the body of its loop, a function on transactions, and
the loop over a list of paths; the commits in between do not matter to what the bodies read.

Paths are the bytes they encode to. What the jobs take from Qt and KFileMetaData is a parameter
(`Libraries`), what they ask of the file system is a `Snapshot`: `lstat` and `QFileInfo` are asked at the
same moment. The root directory is not in it, and `lstat` of a path with a slash at the end is that of
the path without it.
-/

namespace Baloo

/-! ## What the jobs ask -/

/-- `KFileMetaData::UserMetaData`: the extended attributes that are indexed. -/
structure UserMetaData where
  /-- `tags` -/
  tags : List (List QChar) := []
  /-- `rating`, `0` for none -/
  rating : ℕ := 0
  /-- `userComment` -/
  userComment : List QChar := []

/-- What `lstat` and `QFileInfo` tell about an existing path, besides its id. Times are 64-bit numbers
of seconds since the epoch. -/
structure Stat where
  /-- it is a directory -/
  isDir : Bool := false
  /-- it is a symbolic link -/
  isSymLink : Bool := false
  /-- `st_size` -/
  size : ℕ := 0
  /-- `st_mtime`, `QFileInfo::lastModified` -/
  mTime : ℤ := 0
  /-- `st_ctime`, `QFileInfo::metadataChangeTime` -/
  cTime : ℤ := 0
  /-- the extended attributes -/
  userMetaData : UserMetaData := {}

/-- The file system at one moment. -/
structure Snapshot extends FileSystem where
  /-- what is known about an existing path -/
  stat : QByteArray → Stat

/-- `application/x-zerosize`. -/
def zeroSizeMimetype : List QChar := latin1String "application/x-zerosize".toList

/-- What the jobs take from Qt and KFileMetaData. -/
structure Libraries where
  /-- how texts are split into terms -/
  tokens : Tokenizer
  /-- `QFile::decodeName` -/
  decodeName : QByteArray → List QChar
  /-- `QString::toUtf8` -/
  toUtf8 : List QChar → QByteArray
  /-- the serialized object with a mimetype -/
  mimetypeJson : List QChar → QByteArray
  /-- `QMimeDatabase::mimeTypeForFile`, by the extension -/
  mimeTypeForFile : QByteArray → List QChar
  /-- a mimetype has terms -/
  mimetypeTerms : ∀ path, tokens.termList (mimeTypeForFile path) ≠ []
  /-- the mimetype of empty files has terms -/
  zeroSizeTerms : tokens.termList zeroSizeMimetype ≠ []
  /-- `typesForMimeType`, as numbers -/
  typesForMimeType : List QChar → List ℕ
  /-- `KFileMetaData::Type::Folder` -/
  folderType : ℕ

/-- `if (path.endsWith('/')) path.chop(1)`. -/
def chop (path : QByteArray) : QByteArray :=
  if path.getLast? = some slash then path.dropLast else path

theorem chop_of_isPath {path : QByteArray} (h : IsPath path) : chop path = path := if_neg h.getLast?_ne

/-- `QByteArray::number`. -/
def number (n : ℕ) : QByteArray := (Nat.toDigits 10 n).map fun c => UInt8.ofNat c.toNat

/-- A 64-bit number passed as `quint32`. -/
def toQuint32 (t : ℤ) : ℕ := (t % 2 ^ 32).toNat

/-! ## `BasicIndexingJob` -/

/-- `BasicIndexingJob::IndexingLevel`. -/
inductive IndexingLevel where
  | NoLevel
  | MarkForContentIndexing
  deriving DecidableEq

namespace BasicIndexingJob

/-- `indexXAttr`. -/
def indexXAttr (lib : Libraries) (userMetaData : UserMetaData) (doc : Document) : Document :=
  let tg : TermGenerator := { doc := doc }
  let tg := userMetaData.tags.foldl (fun tg tag =>
    let tg := tg.indexXattrText lib.tokens tag [84, 65]
    { tg with doc := tg.doc.addXattrTerm ([84, 65, 71, 45] ++ lib.toUtf8 tag) }) tg
  let tg :=
    if userMetaData.rating ≠ 0 then
      { tg with doc := tg.doc.addXattrTerm ([82] ++ number userMetaData.rating) }
    else tg
  (if userMetaData.userComment ≠ [] then tg.indexXattrText lib.tokens userMetaData.userComment [67]
    else tg).doc

/-- The prefix of the terms for types. -/
def typeTerm (type : ℕ) : Term := [84] ++ number type

/-- The block of `BasicIndexingJob::index` that depends on what the path is: the types, and the mark
for content indexing. -/
def indexType (lib : Libraries) (stat : Stat) (mimetype : List QChar) (level : IndexingLevel)
    (doc : Document) : Document :=
  if stat.isDir then doc.addTerm (typeTerm lib.folderType)
  else if 0 < stat.size then
    let doc := if level = .MarkForContentIndexing then { doc with contentIndexing := true } else doc
    (lib.typesForMimeType mimetype).foldl (fun doc type => doc.addTerm (typeTerm type)) doc
  else doc

/-- `BasicIndexingJob::index`; `none` stands for `false`. -/
def index (lib : Libraries) (fs : Snapshot) (filePath : QByteArray) (mimetype : List QChar)
    (level : IndexingLevel) : Option Document :=
  let url := chop filePath
  let lastSlash := lastIndexOf slash url
  let fileName := mid url (lastSlash + 1)
  match fs.lstat (left url lastSlash) with
  | none => none
  | some parentId =>
    match fs.lstat url with
    | none => none
    | some id =>
      let stat := fs.stat url
      let tg : TermGenerator := { doc := { id := id, parentId := parentId, url := url } }
      let tg := tg.indexFileNameText lib.tokens (lib.decodeName fileName)
      let tg := tg.indexMimetype lib.tokens lib.mimetypeJson
        (if stat.size = 0 then zeroSizeMimetype else mimetype)
      let doc := { tg.doc with mTime := toQuint32 stat.mTime, cTime := toQuint32 stat.cTime }
      some (indexXAttr lib stat.userMetaData (indexType lib stat mimetype level doc))

/-- Only terms and the mark depend on what the path is. -/
theorem indexType_frame (lib : Libraries) (stat : Stat) (mimetype : List QChar) (level : IndexingLevel)
    (doc : Document) : ∃ (types : List Term) (contentIndexing : Bool),
    indexType lib stat mimetype level doc =
      { doc with
        terms := types.foldl Document.touch doc.terms, contentIndexing := contentIndexing } ∧
    (stat.isDir = true → types ≠ []) := by
  rw [indexType]
  split
  · exact ⟨[typeTerm lib.folderType], doc.contentIndexing, rfl, fun _ => List.cons_ne_nil _ _⟩
  · next hdir =>
    split
    · rw [foldl_addTerm]
      split
      · exact ⟨_, true, rfl, fun h => absurd h hdir⟩
      · exact ⟨_, doc.contentIndexing, rfl, fun h => absurd h hdir⟩
    · exact ⟨[], doc.contentIndexing, rfl, fun h => absurd h hdir⟩

theorem indexXattrText_frame (tokens : Tokenizer) (tg : TermGenerator) (text : List QChar)
    (pre : QByteArray) :
    ∃ terms, (tg.indexXattrText tokens text pre).doc = { tg.doc with xattrTerms := terms } := by
  have hfold : ∀ (list : List Term) (tg : TermGenerator), ∃ terms,
      (list.foldl (fun (tg : TermGenerator) term =>
        { doc := tg.doc.addXattrPositionTerm (pre ++ term) tg.position
          position := tg.position + 1 }) tg).doc = { tg.doc with xattrTerms := terms } := by
    intro list
    induction list with
    | nil => exact fun tg => ⟨tg.doc.xattrTerms, rfl⟩
    | cons term list ih =>
      intro tg
      obtain ⟨terms, hterms⟩ := ih { doc := tg.doc.addXattrPositionTerm (pre ++ term) tg.position
                                     position := tg.position + 1 }
      exact ⟨terms, hterms⟩
  rw [TermGenerator.indexXattrText]
  split
  · exact ⟨_, rfl⟩
  · exact hfold _ tg

/-- The attributes become xattr terms and nothing else. -/
theorem indexXAttr_frame (lib : Libraries) (userMetaData : UserMetaData) (doc : Document) :
    ∃ terms, indexXAttr lib userMetaData doc = { doc with xattrTerms := terms } := by
  have htags : ∀ (tags : List (List QChar)) (tg : TermGenerator), ∃ terms,
      (tags.foldl (fun (tg : TermGenerator) tag =>
        let tg := tg.indexXattrText lib.tokens tag [84, 65]
        { tg with doc := tg.doc.addXattrTerm ([84, 65, 71, 45] ++ lib.toUtf8 tag) }) tg).doc =
      { tg.doc with xattrTerms := terms } := by
    intro tags
    induction tags with
    | nil => exact fun tg => ⟨tg.doc.xattrTerms, rfl⟩
    | cons tag tags ih =>
      intro tg
      obtain ⟨terms, htag⟩ := indexXattrText_frame lib.tokens tg tag [84, 65]
      obtain ⟨terms', hterms'⟩ := ih
        { tg.indexXattrText lib.tokens tag [84, 65] with
          doc := (tg.indexXattrText lib.tokens tag [84, 65]).doc.addXattrTerm
            ([84, 65, 71, 45] ++ lib.toUtf8 tag) }
      refine ⟨terms', hterms'.trans ?_⟩
      simp only [Document.addXattrTerm, htag]
  rw [indexXAttr]
  dsimp only
  obtain ⟨terms, hterms⟩ := htags userMetaData.tags { doc := doc }
  generalize userMetaData.tags.foldl _ _ = tg at hterms ⊢
  -- the rating and the comment
  have hrating : ∃ terms, (if userMetaData.rating ≠ 0 then
      { tg with doc := tg.doc.addXattrTerm ([82] ++ number userMetaData.rating) } else tg).doc =
      { doc with xattrTerms := terms } := by
    split
    · refine ⟨Document.touch terms ([82] ++ number userMetaData.rating), ?_⟩
      simp only [Document.addXattrTerm, hterms]
    · exact ⟨terms, hterms⟩
  obtain ⟨terms', hterms'⟩ := hrating
  generalize (if userMetaData.rating ≠ 0 then
      { tg with doc := tg.doc.addXattrTerm ([82] ++ number userMetaData.rating) } else tg) = tg' at hterms' ⊢
  split
  · obtain ⟨terms'', hterms''⟩ := indexXattrText_frame lib.tokens tg' userMetaData.userComment [67]
    exact ⟨terms'', by rw [hterms'', hterms']⟩
  · exact ⟨terms', hterms'⟩

/-- What a document of the job says about the file. -/
structure Describes (lib : Libraries) (fs : Snapshot) (filePath : QByteArray) (mimetype : List QChar)
    (doc : Document) : Prop where
  /-- the path -/
  url : doc.url = chop filePath
  /-- its id -/
  id : fs.lstat (chop filePath) = some doc.id
  /-- the id of its directory -/
  parentId : fs.lstat (left (chop filePath) (lastIndexOf slash (chop filePath))) = some doc.parentId
  /-- the modification time -/
  mTime : doc.mTime = toQuint32 (fs.stat (chop filePath)).mTime
  /-- the change time -/
  cTime : doc.cTime = toQuint32 (fs.stat (chop filePath)).cTime
  /-- the terms of its name -/
  fileNameTerms : doc.fileNameTerms = Baloo.fileNameTerms lib.tokens
    (lib.decodeName (mid (chop filePath) (lastIndexOf slash (chop filePath) + 1)))
  /-- there are terms, if the mimetype given for a file has terms -/
  terms : (fs.stat (chop filePath)).isDir = true ∨ lib.tokens.termList mimetype ≠ [] → doc.terms.keys ≠ []

/-- The job drops a slash at the end itself. -/
theorem index_chop {lib : Libraries} {fs : Snapshot} {filePath : QByteArray} {mimetype : List QChar}
    {level : IndexingLevel} (h : chop (chop filePath) = chop filePath) :
    index lib fs (chop filePath) mimetype level = index lib fs filePath mimetype level := by
  rw [index, index, h]

/-- The job succeeds when the path and its directory exist. -/
theorem index_eq_none {lib : Libraries} {fs : Snapshot} {filePath : QByteArray} {mimetype : List QChar}
    {level : IndexingLevel} : index lib fs filePath mimetype level = none ↔
      fs.lstat (left (chop filePath) (lastIndexOf slash (chop filePath))) = none ∨
        fs.lstat (chop filePath) = none := by
  rw [index]
  dsimp only
  rcases fs.lstat (left (chop filePath) (lastIndexOf slash (chop filePath))) with _ | parentId
  · simp
  · rcases fs.lstat (chop filePath) with _ | id <;> simp

/-- What the job makes of a path, up to the terms, the data and the mark for content indexing. -/
theorem index_describes {lib : Libraries} {fs : Snapshot} {filePath : QByteArray}
    {mimetype : List QChar} {level : IndexingLevel} {doc : Document}
    (h : index lib fs filePath mimetype level = some doc) : Describes lib fs filePath mimetype doc := by
  rw [index] at h
  dsimp only at h
  rcases hparent : fs.lstat (left (chop filePath) (lastIndexOf slash (chop filePath))) with _ | parentId
  · rw [hparent] at h
    cases h
  · rcases hid : fs.lstat (chop filePath) with _ | id
    · rw [hparent, hid] at h
      cases h
    · rw [hparent, hid] at h
      simp only [Option.some.injEq] at h
      obtain ⟨xattrTerms, hxattr⟩ := indexXAttr_frame lib (fs.stat (chop filePath)).userMetaData _
      rw [hxattr] at h
      simp only [TermGenerator.indexMimetype, foldl_addTerm, Document.setMimetype,
        fileNameTerms_indexFileNameText] at h
      obtain ⟨types, contentIndexing, htypes, hdir⟩ :=
        indexType_frame lib (fs.stat (chop filePath)) mimetype level _
      rw [htypes] at h
      subst h
      refine ⟨rfl, hid, hparent, rfl, rfl, rfl, fun hterms => OrdMap.keys_ne_nil.mpr ?_⟩
      -- a type, or a term of one of the two mimetypes
      dsimp only
      simp only [contains_foldl_touch]
      rcases hterms with hterms | hterms
      · obtain ⟨type, htype⟩ := List.exists_mem_of_ne_nil types (hdir hterms)
        exact ⟨type, Or.inl htype⟩
      · have hmimetype : lib.tokens.termList
            (if (fs.stat (chop filePath)).size = 0 then zeroSizeMimetype else mimetype) ≠ [] := by
          split
          · exact lib.zeroSizeTerms
          · exact hterms
        obtain ⟨term, hterm⟩ := List.exists_mem_of_ne_nil _ hmimetype
        exact ⟨_, Or.inr (Or.inl (List.mem_map_of_mem hterm))⟩

variable {lib : Libraries} {fs : Snapshot} {filePath : QByteArray} {mimetype : List QChar} {doc : Document}

/-- The path of a document of the job is that of its directory, a slash and its name. -/
theorem Describes.split (h : Describes lib fs filePath mimetype doc) : ∃ dir name,
    chop filePath = dir ++ slash :: name ∧ doc.url = dir ++ slash :: name ∧ name ≠ [] ∧ slash ∉ name ∧
      dir ≠ [] ∧ doc.id ≠ 0 ∧ fs.lstat dir = some doc.parentId ∧
        fs.lstat (dir ++ slash :: name) = some doc.id := by
  obtain ⟨dir, name, hpath, hname, hslash⟩ := (fs.isPath _ _ h.id).split
  have hparent := h.parentId
  rw [hpath, lastIndexOf_append hslash, left_append] at hparent
  refine ⟨dir, name, hpath, h.url.trans hpath, hname, hslash, ?_, ?_, hparent, hpath ▸ h.id⟩
  · rintro rfl
    obtain ⟨components, hne, -, hnil⟩ := fs.isPath _ _ hparent
    rcases components with _ | ⟨c, components⟩
    · exact hne rfl
    · simp at hnil
  · rintro hzero
    exact fs.ne_zero _ (hzero ▸ h.id)

end BasicIndexingJob

/-- Entering the path of a document that has a directory. -/
theorem addUrl_eq (fs : FileSystem) (db : DocumentUrlDB) {doc : Document} {dir name : QByteArray}
    (hurl : doc.url = dir ++ slash :: name) (hdir : dir ≠ []) (hname : name ≠ []) (hslash : slash ∉ name)
    (hid : doc.id ≠ 0) : WriteTransaction.addUrl fs db doc =
      ((db.addPath fs dir).1.add doc.id doc.parentId name, true) := by
  have hpos : 0 < (dir.length : ℤ) := Int.natCast_pos.mpr (List.length_pos_of_ne_nil hdir)
  have hcan : DocumentUrlDB.canPut doc.id name = true := by
    simp [DocumentUrlDB.canPut, hid, hname, hslash]
  rw [WriteTransaction.addUrl, hurl, lastIndexOf_append hslash]
  rw [if_pos hpos, if_pos hpos, left_append, mid_append, DocumentUrlDB.put, if_pos hcan]

/-- `inode/directory`. -/
def directoryMimetype : List QChar := latin1String "inode/directory".toList

section Jobs

variable (lib : Libraries) (config : FileIndexerConfig) (onlyBasicIndexing : Bool) (fs : Snapshot)

/-- The level the jobs work on. -/
def indexingLevel : IndexingLevel := if onlyBasicIndexing then .NoLevel else .MarkForContentIndexing

/-- The file name of a path, as the configuration wants it. -/
def decodedName (filePath : QByteArray) : List QChar :=
  lib.decodeName (mid filePath (lastIndexOf slash filePath + 1))

/-! ## New files -/

/-- The body of the loop of `NewFileIndexer::run`. -/
def NewFileIndexer.visit (w : WriteTransaction) (path : QByteArray) : WriteTransaction :=
  let filePath := chop path
  let stat := fs.stat filePath
  if fs.lstat filePath ≠ none ∧ stat.isSymLink then w
  else if fs.lstat filePath ≠ none ∧ stat.isDir then
    if !config.shouldFolderBeIndexed (lib.decodeName filePath) then w
    else add directoryMimetype filePath
  else if !config.shouldFileBeIndexed (decodedName lib filePath) then w
  else add (lib.mimeTypeForFile filePath) filePath
where
  /-- what is done with a path that is to be indexed -/
  add (mimetype : List QChar) (filePath : QByteArray) : WriteTransaction :=
    match BasicIndexingJob.index lib fs filePath mimetype (indexingLevel onlyBasicIndexing) with
    | none => w
    | some doc => if w.dbis.docUrlDb.contains doc.id then w else w.addDocument fs.toFileSystem doc

/-- The body of the loop of `FirstRunIndexer::run`, for a path that the iterator gives. -/
def FirstRunIndexer.visit (w : WriteTransaction) (filePath : QByteArray) : WriteTransaction :=
  let mimetype :=
    if (fs.stat (chop filePath)).isDir then directoryMimetype else lib.mimeTypeForFile filePath
  match BasicIndexingJob.index lib fs filePath mimetype (indexingLevel onlyBasicIndexing) with
  | none => w
  | some doc => if w.dbis.docUrlDb.contains doc.id then w else w.addDocument fs.toFileSystem doc

/-! ## Unindexed files -/

/-- What `UnIndexedFileIterator` keeps about the path it is at. -/
structure UnIndexedFileIterator where
  /-- what `shouldIndex` returns -/
  shouldIndex : Bool
  /-- `m_mTimeChanged` -/
  mTimeChanged : Bool
  /-- `m_cTimeChanged` -/
  cTimeChanged : Bool
  /-- `m_mimetype` -/
  mimetype : List QChar

/-- `UnIndexedFileIterator::shouldIndex`. -/
def UnIndexedFileIterator.check (db : Database) (filePath : QByteArray) : UnIndexedFileIterator :=
  let stat := fs.stat (chop filePath)
  match fs.lstat (chop filePath) with
  | none => { shouldIndex := false, mTimeChanged := false, cTimeChanged := false, mimetype := [] }
  | some fileId =>
    let timeInfo := db.docTimeDb.get fileId
    let unknown := timeInfo.mTime = 0 ∧ timeInfo.cTime = 0 ∧ !db.docUrlDb.contains fileId
    let mTimeChanged : Bool := unknown ∨ (timeInfo.mTime : ℤ) ≠ stat.mTime
    let cTimeChanged : Bool := unknown ∨ (timeInfo.cTime : ℤ) ≠ stat.cTime
    if stat.isDir then
      -- the mtime of a folder changes with its entries, there is no need to index it again then
      { shouldIndex := cTimeChanged, mTimeChanged := mTimeChanged, cTimeChanged := cTimeChanged
        mimetype := directoryMimetype }
    else
      { shouldIndex := mTimeChanged || cTimeChanged, mTimeChanged := mTimeChanged
        cTimeChanged := cTimeChanged, mimetype := lib.mimeTypeForFile filePath }

/-- The operations `UnindexedFileIndexer` replaces a document with. -/
def UnindexedFileIndexer.operations (db : Database) (it : UnIndexedFileIterator) (id : DocId)
    (filePath : QByteArray) : DocumentOperations :=
  let moved : Bool := it.cTimeChanged && db.docUrlDb.get id ≠ filePath
  let content := it.mTimeChanged && indexingLevel onlyBasicIndexing ≠ .MarkForContentIndexing
  { documentTime := true, xattrTerms := it.cTimeChanged, fileNameTerms := moved, documentUrl := moved
    documentTerms := content, documentData := content }

/-- The body of the loop of `UnindexedFileIndexer::run`, for a path that the iterator of folders gives.
`job.document()` is a copy, so `setContentIndexing` is without effect. -/
def UnindexedFileIndexer.visit (w : WriteTransaction) (filePath : QByteArray) : WriteTransaction :=
  let it := UnIndexedFileIterator.check lib fs w.dbis filePath
  if it.shouldIndex then
    match BasicIndexingJob.index lib fs filePath it.mimetype (indexingLevel onlyBasicIndexing) with
    | none => w
    | some doc =>
      if w.dbis.docUrlDb.contains doc.id then
        w.replaceDocument doc (operations onlyBasicIndexing w.dbis it doc.id filePath)
      else w.addDocument fs.toFileSystem doc
  else w

/-! ## Modified files -/

/-- What `ModifiedFileIndexer` does with a path. -/
inductive ModifiedFileIndexer.Decision where
  /-- nothing -/
  | skip
  /-- write the times and leave the rest to the content indexer -/
  | defer (doc : Document)
  /-- index it -/
  | index (mimetype : List QChar) (isKnownFile : Bool) (fileId : DocId)

/-- The part of the loop of `ModifiedFileIndexer::run` that decides. -/
def ModifiedFileIndexer.decide (db : Database) (filePath : QByteArray) : Decision :=
  if !config.shouldFileBeIndexed (decodedName lib filePath) then .skip
  else
    match fs.lstat filePath with
    | none => .skip
    | some fileId =>
      let stat := fs.stat filePath
      if stat.isSymLink then .skip
      else
        let isKnownFile := db.docUrlDb.contains fileId
        let timeInfo := db.docTimeDb.get fileId
        let mTimeChanged : Bool := !isKnownFile ∨ (timeInfo.mTime : ℤ) ≠ stat.mTime
        let cTimeChanged : Bool := !isKnownFile ∨ (timeInfo.cTime : ℤ) ≠ stat.cTime
        if !mTimeChanged && !cTimeChanged then .skip
        else if !cTimeChanged && stat.isDir then .skip
        else if !cTimeChanged && indexingLevel onlyBasicIndexing = .MarkForContentIndexing then
          .defer { id := fileId, mTime := toQuint32 stat.mTime, cTime := toQuint32 stat.cTime
                   contentIndexing := true }
        else
          .index (if stat.isDir then directoryMimetype else lib.mimeTypeForFile filePath) isKnownFile
            fileId

/-- The operations `ModifiedFileIndexer` replaces a document with. -/
def ModifiedFileIndexer.operations : DocumentOperations :=
  let content := indexingLevel onlyBasicIndexing ≠ .MarkForContentIndexing
  { xattrTerms := true, documentTime := true, fileNameTerms := true, documentUrl := true
    documentTerms := content, documentData := content }

/-- The body of the loop of `ModifiedFileIndexer::run`. -/
def ModifiedFileIndexer.visit (w : WriteTransaction) (path : QByteArray) : WriteTransaction :=
  let filePath := chop path
  match ModifiedFileIndexer.decide lib config onlyBasicIndexing fs w.dbis filePath with
  | .skip => w
  | .defer doc => w.replaceDocument doc { documentTime := true }
  | .index mimetype isKnownFile fileId =>
    match BasicIndexingJob.index lib fs filePath mimetype (indexingLevel onlyBasicIndexing) with
    | none => w
    | some doc =>
      -- a modified file may not be in the database yet, because its creation was missed
      if isKnownFile && doc.id = fileId then w.replaceDocument doc (operations onlyBasicIndexing)
      else w.addDocument fs.toFileSystem doc

/-! ## Changed attributes -/

/-- The operations `XAttrIndexer` replaces a document with. -/
def XAttrIndexer.operations : DocumentOperations :=
  { xattrTerms := true, documentTime := true, fileNameTerms := true, documentUrl := true }

/-- The body of the loop of `XAttrIndexer::run`. -/
def XAttrIndexer.visit (w : WriteTransaction) (path : QByteArray) : WriteTransaction :=
  let filePath := chop path
  if !config.shouldFileBeIndexed (decodedName lib filePath) then w
  else
    match BasicIndexingJob.index lib fs filePath (lib.mimeTypeForFile filePath) .NoLevel with
    | none => w
    | some doc =>
      if !w.dbis.docUrlDb.contains doc.id then
        w.addDocument fs.toFileSystem
          { doc with contentIndexing := indexingLevel onlyBasicIndexing = .MarkForContentIndexing }
      else w.replaceDocument doc operations

end Jobs

/-! ## File systems given by a list -/

/-- An existing path, by its components. -/
structure SnapshotEntry where
  /-- the components -/
  components : List QByteArray
  /-- the id -/
  id : DocId
  /-- what else is known -/
  stat : Stat := {}

namespace SnapshotEntry

/-- The path of an entry. -/
def path (entry : SnapshotEntry) : QByteArray := (entry.components.map (slash :: ·)).flatten

/-- The list describes a file system: names are names, ids are ids, no id occurs twice. -/
def WellFormed (entries : List SnapshotEntry) : Prop :=
  (∀ entry ∈ entries, entry.components ≠ [] ∧ (∀ name ∈ entry.components, name ≠ [] ∧ slash ∉ name) ∧
    entry.id ≠ 0) ∧ (entries.map SnapshotEntry.id).Nodup

instance (entries : List SnapshotEntry) : Decidable (WellFormed entries) :=
  inferInstanceAs (Decidable (_ ∧ _))

end SnapshotEntry

/-- The file system with the listed paths. -/
def Snapshot.ofEntries (entries : List SnapshotEntry) (h : SnapshotEntry.WellFormed entries) : Snapshot where
  lstat path := (entries.find? fun entry => entry.path = path).map SnapshotEntry.id
  isPath path id hid := by
    obtain ⟨entry, hentry, -⟩ := Option.map_eq_some_iff.mp hid
    have hpath : entry.path = path := by simpa using List.find?_some hentry
    obtain ⟨hne, hnames, -⟩ := h.1 entry (List.mem_of_find?_eq_some hentry)
    exact ⟨entry.components, hne, hnames, hpath.symm⟩
  ne_zero path hzero := by
    obtain ⟨entry, hentry, hid⟩ := Option.map_eq_some_iff.mp hzero
    exact (h.1 entry (List.mem_of_find?_eq_some hentry)).2.2 hid
  injective path path' id hid hid' := by
    obtain ⟨entry, hentry, rfl⟩ := Option.map_eq_some_iff.mp hid
    obtain ⟨entry', hentry', heq⟩ := Option.map_eq_some_iff.mp hid'
    have hpath : entry.path = path := by simpa using List.find?_some hentry
    have hpath' : entry'.path = path' := by simpa using List.find?_some hentry'
    have hsame : entry' = entry := List.inj_on_of_nodup_map h.2 (List.mem_of_find?_eq_some hentry')
      (List.mem_of_find?_eq_some hentry) heq
    rw [← hpath, ← hpath', hsame]
  stat path := ((entries.find? fun entry => entry.path = path).map SnapshotEntry.stat).getD {}

/-- A file system in which the directories above a path exist. -/
structure DirectoryTree extends Snapshot where
  /-- with a path the directories above it exist -/
  closed : ∀ path id, lstat path = some id → ∀ dir, IsAncestor dir path → ∃ i, lstat dir = some i

/-- The listed directories above a listed path are listed. -/
def SnapshotEntry.Closed (entries : List SnapshotEntry) : Prop :=
  ∀ entry ∈ entries, ∀ n < entry.path.length, 0 < n → entry.path[n]? = some slash →
    (entries.find? fun entry' => entry'.path = entry.path.take n).isSome = true

instance (entries : List SnapshotEntry) : Decidable (SnapshotEntry.Closed entries) :=
  inferInstanceAs (Decidable (∀ entry ∈ entries, _))

/-- The tree with the listed paths. -/
def DirectoryTree.ofEntries (entries : List SnapshotEntry) (h : SnapshotEntry.WellFormed entries)
    (hclosed : SnapshotEntry.Closed entries) : DirectoryTree where
  toSnapshot := .ofEntries entries h
  closed path id hid dir hdir := by
    obtain ⟨entry, hentry, -⟩ := Option.map_eq_some_iff.mp hid
    obtain rfl : entry.path = path := by simpa using List.find?_some hentry
    obtain ⟨hne, rest, hrest⟩ := hdir
    have hlength : dir.length < entry.path.length := by simp [hrest]
    have hslash : entry.path[dir.length]? = some slash := by simp [hrest]
    have htake : entry.path.take dir.length = dir := by simp [hrest]
    obtain ⟨entry', hentry'⟩ := Option.isSome_iff_exists.mp
      (hclosed entry (List.mem_of_find?_eq_some hentry) dir.length hlength (List.length_pos_of_ne_nil hne) hslash)
    rw [htake] at hentry'
    exact ⟨entry'.id, Option.map_eq_some_iff.mpr ⟨entry', hentry', rfl⟩⟩

/-- The words of a text in ASCII: runs of lower-case letters and digits. -/
def asciiWords (text : List QChar) : List Term :=
  ((text.splitOnP fun c => !((97 ≤ c && c ≤ 122) || (48 ≤ c && c ≤ 57))).map
    (List.map fun c => UInt8.ofNat c.toNat)).filter (· ≠ [])

/-- Libraries for file names in ASCII, with one mimetype for all files. -/
def asciiLibraries : Libraries where
  tokens := { termList := asciiWords, ne_nil := fun text h => by simp [asciiWords] at h }
  decodeName := List.map fun b => UInt16.ofNat b.toNat
  toUtf8 := List.map fun c => UInt8.ofNat c.toNat
  mimetypeJson mimetype :=
    [123, 34, 77, 34, 58, 34] ++ (mimetype.map fun c => UInt8.ofNat c.toNat) ++ [34, 125]
  mimeTypeForFile _ := latin1String "application/octet-stream".toList
  mimetypeTerms _ := by decide
  zeroSizeTerms := by decide
  typesForMimeType _ := []
  folderType := 9

end Baloo
