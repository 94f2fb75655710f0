import Baloo.Codec
import Baloo.Lib.OrdMap
import Baloo.Lib.SortedSeq
import Mathlib.Data.Nat.Basic

/-!
# The tables of the index

The index is a dozen LMDB tables. LMDB is taken as an ordered finite map from keys to values
(`OrdMap`); the term lists of a document are kept as the bytes the term list codec writes, the other
values as the records the table classes hand out. Each table class of the source is a namespace
here, with the reading and writing functions the rest of the program calls.

A term is a byte string, a document id a 64-bit number of which only equality, order and the
distinguished value `0` (no document) matter.
-/

namespace Baloo

/-- Document ids; `0` is no document. -/
abbrev DocId : Type := ℕ

/-- Terms are byte strings. -/
abbrev Term : Type := QByteArray

/-- The byte `'/'`. -/
abbrev slash : UInt8 := 47

/-- `PositionInfo`: where a term occurs in one document. -/
structure PositionInfo where
  /-- the document -/
  docId : DocId
  /-- the positions of the term in it -/
  positions : List UInt32 := []
  deriving DecidableEq

/-- `IdFilenameDB::FilePath`. -/
structure FilePath where
  /-- the directory the entry is in, `0` at the top level -/
  parentId : DocId := 0
  /-- the last component of the path -/
  name : QByteArray := []
  deriving DecidableEq

/-- `DocumentTimeDB::TimeInfo`, two 32-bit numbers of seconds since the epoch. -/
structure TimeInfo where
  /-- file (data) modification time -/
  mTime : ℕ := 0
  /-- metadata (e.g. XAttr) change time -/
  cTime : ℕ := 0
  deriving DecidableEq

/-- `Document::TermData`. -/
structure TermData where
  /-- the positions of the term, in the order in which they were added -/
  positions : List UInt32 := []
  deriving DecidableEq

/-- `Document`. `data` is what `Document::data()` returns. -/
structure Document where
  /-- the id of the file -/
  id : DocId
  /-- the id of its directory -/
  parentId : DocId := 0
  /-- terms of the content and of its properties -/
  terms : OrdMap Term TermData := ∅
  /-- terms of the extended attributes -/
  xattrTerms : OrdMap Term TermData := ∅
  /-- terms of the file name -/
  fileNameTerms : OrdMap Term TermData := ∅
  /-- the absolute path -/
  url : QByteArray := []
  /-- does the content still have to be indexed? -/
  contentIndexing : Bool := false
  /-- modification time -/
  mTime : ℕ := 0
  /-- inode change time -/
  cTime : ℕ := 0
  /-- serialized properties -/
  data : QByteArray := []

/-- `DocumentOperations`, the flags of `replaceDocument`. -/
structure DocumentOperations where
  /-- replace the content terms -/
  documentTerms : Bool := false
  /-- replace the file name terms -/
  fileNameTerms : Bool := false
  /-- replace the xattr terms -/
  xattrTerms : Bool := false
  /-- replace the serialized properties -/
  documentData : Bool := false
  /-- replace the times -/
  documentTime : Bool := false
  /-- move the document -/
  documentUrl : Bool := false
  deriving DecidableEq

/-! ## Sorted vectors of ids -/

/-- `sortedIdInsert` on vectors of ids. -/
def sortedIdInsert (vec : List DocId) (i : DocId) : List DocId := SortedSeq.insert id i vec

/-- `sortedIdInsert` on position lists, which are compared by `docId` only. -/
def sortedPositionInsert (vec : List PositionInfo) (info : PositionInfo) : List PositionInfo :=
  SortedSeq.insert PositionInfo.docId info vec

/-- `sortedIdRemove` on vectors of ids; also `QVector::removeOne`. -/
def sortedIdRemove (vec : List DocId) (i : DocId) : List DocId := SortedSeq.erase id i vec

/-- `sortedIdRemove` on position lists. -/
def sortedPositionRemove (vec : List PositionInfo) (info : PositionInfo) : List PositionInfo :=
  SortedSeq.erase PositionInfo.docId info vec

/-! ## The table classes -/

/-- `DocumentDB`: the encoded term list of a document. The source has three tables of this class. -/
abbrev DocumentDB : Type := OrdMap DocId QByteArray

namespace DocumentDB

/-- `DocumentDB::get`; a document without an entry has no terms. -/
def get (t : DocumentDB) (docId : DocId) : List Term :=
  match OrdMap.get t docId with
  | none => []
  | some arr => DocTermsCodec.decode arr

/-- `DocumentDB::put`. -/
def put (t : DocumentDB) (docId : DocId) (list : List Term) : DocumentDB :=
  OrdMap.put t docId (DocTermsCodec.encode list)

/-- **A term list is read back as it was written**, whatever its order, its duplicates and its chains
of prefixes, and no other document's list is touched. -/
theorem terms_read_back {first : Term} {terms : List Term}
    (hclean : ∀ term ∈ first :: terms, 0 ∉ term ∧ 1 ∉ term) :
    DocTermsCodec.decode (DocTermsCodec.encode (first :: terms)) = first :: terms ∧
      ∀ (t : DocumentDB) (docId i : DocId),
        (put t docId (first :: terms)).get i = if i = docId then first :: terms else t.get i := by
  have hround : DocTermsCodec.decode (DocTermsCodec.encode (first :: terms)) = first :: terms := by
    refine DocTermsCodec.decode_encode_terms fun term hterm b hb => ⟨?_, ?_⟩
    · rintro rfl
      exact (hclean term hterm).1 hb
    · rintro rfl
      exact (hclean term hterm).2 hb
  refine ⟨hround, fun t docId i => ?_⟩
  by_cases hi : i = docId
  · rw [if_pos hi, get, put, OrdMap.get_put, if_pos hi]
    exact hround
  · rw [if_neg hi, get, put, OrdMap.get_put, if_neg hi, get]

/-- `""`, `"a"`, `"ab"`, `"ab"`, `"a"`: an empty first term, a chain of prefixes, a duplicate. -/
theorem terms_read_back_chain :
    DocTermsCodec.decode (DocTermsCodec.encode [[], [97], [97, 98], [97, 98], [97]]) =
      [[], [97], [97, 98], [97, 98], [97]] :=
  (terms_read_back (by simp)).1

end DocumentDB

/-- `PostingDB`: the documents of a term. -/
abbrev PostingDB : Type := OrdMap Term (List DocId)

/-- `PostingDB::get`. -/
def PostingDB.get (t : PostingDB) (term : Term) : List DocId := OrdMap.values t term

/-- `PositionDB`: the positions of a term, document by document. -/
abbrev PositionDB : Type := OrdMap Term (List PositionInfo)

/-- `PositionDB::get`. -/
def PositionDB.get (t : PositionDB) (term : Term) : List PositionInfo := OrdMap.values t term

/-- `DocumentTimeDB`. -/
abbrev DocumentTimeDB : Type := OrdMap DocId TimeInfo

/-- `DocumentTimeDB::get`; a document without a record has both times `0`. -/
def DocumentTimeDB.get (t : DocumentTimeDB) (docId : DocId) : TimeInfo :=
  (OrdMap.get t docId).getD {}

/-- `DocumentIdDB`: a set of documents. -/
abbrev DocumentIdDB : Type := OrdMap DocId Unit

/-- `DocumentIdDB::put`. -/
def DocumentIdDB.put (t : DocumentIdDB) (docId : DocId) : DocumentIdDB := OrdMap.put t docId ()

/-- `MTimeDB`: the documents of a modification time. LMDB keeps the values of a duplicate-sort table
sorted and once each. -/
abbrev MTimeDB : Type := OrdMap ℕ (List DocId)

namespace MTimeDB

/-- `MTimeDB::put`. -/
def put (t : MTimeDB) (mtime : ℕ) (docId : DocId) : MTimeDB :=
  if docId = 0 then t
  else OrdMap.put t mtime (sortedIdInsert (OrdMap.values t mtime) docId)

/-- `MTimeDB::del`. -/
def del (t : MTimeDB) (mtime : ℕ) (docId : DocId) : MTimeDB :=
  let values := sortedIdRemove (OrdMap.values t mtime) docId
  if values = [] then OrdMap.del t mtime else OrdMap.put t mtime values

end MTimeDB

/-- `IdTreeDB`: the entries of a directory. -/
abbrev IdTreeDB : Type := OrdMap DocId (List DocId)

namespace IdTreeDB

/-- `IdTreeDB::get`. -/
def get (t : IdTreeDB) (docId : DocId) : List DocId := OrdMap.values t docId

/-- `IdTreeDB::set`; an empty directory has no key. -/
def set (t : IdTreeDB) (docId : DocId) (subDocIds : List DocId) : IdTreeDB :=
  if subDocIds = [] then OrdMap.del t docId else OrdMap.put t docId subDocIds

@[simp] theorem get_empty (docId : DocId) : get ∅ docId = [] := rfl

@[simp] theorem get_set (t : IdTreeDB) (docId i : DocId) (subDocIds : List DocId) :
    (t.set docId subDocIds).get i = if i = docId then subDocIds else t.get i := by
  rw [set]
  split
  · next h =>
    subst h
    by_cases hi : i = docId <;> simp [get, OrdMap.values, hi]
  · by_cases hi : i = docId <;> simp [get, OrdMap.values, hi]

end IdTreeDB

/-- `IdFilenameDB`: the directory and the name of an entry. -/
abbrev IdFilenameDB : Type := OrdMap DocId FilePath

end Baloo
