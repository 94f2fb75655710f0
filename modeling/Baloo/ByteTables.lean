import Baloo.FileContentIndexer
import Baloo.Lib.KeyValueStore
import Baloo.MTimeIndex
import Baloo.PositionCodec
import Baloo.TextQueries

/-!
# The tables as LMDB keeps them

LMDB keeps byte strings. The table classes turn ids, times and lists into bytes on the way in and back
on the way out, and what they enumerate they read through a cursor, entry by entry. The functions below
are the table classes at that level, over any store that behaves as LMDB is documented to
(`KeyValueStore`, `DupStore`); the tables the rest of the development works on hold the records
themselves.

Keys come in two kinds. The keys of `PostingDB` and `PositionDB` are terms, compared byte by byte; LMDB
refuses the empty key and keys of more than 511 bytes. The other tables are opened with
`MDB_INTEGERKEY`, their keys are numbers of 64 bits, or of 32 bits in `MTimeDB`, which keeps many
documents under a time.
-/

namespace Baloo

open BigEndian (toBytes ofBytes)
open Fuel (Returns)
open SortedSeq (Ascending)

/-! ## Records as bytes -/

/-- The `width` bytes of a number in memory, the least significant first. -/
def hostBytes (width n : ℕ) : QByteArray := (toBytes width n).reverse

/-- The number in the first `width` bytes. -/
def ofHostBytes (width : ℕ) (arr : QByteArray) : ℕ := ofBytes (arr.take width).reverse

@[simp] theorem length_hostBytes (width n : ℕ) : (hostBytes width n).length = width := by
  simp [hostBytes]

theorem ofHostBytes_append {width n : ℕ} (h : n < 256 ^ width) (rest : QByteArray) :
    ofHostBytes width (hostBytes width n ++ rest) = n := by
  rw [ofHostBytes, List.take_left' (length_hostBytes width n), hostBytes, List.reverse_reverse,
    BigEndian.ofBytes_toBytes width h]

/-- Vectors of ids, as they lie in memory. -/
def idBytes (list : List DocId) : QByteArray := list.flatMap (hostBytes 8)

/-- `memcpy` of `size` ids. -/
def readIds : ℕ → QByteArray → List DocId
  | 0, _ => []
  | size + 1, arr => ofHostBytes 8 arr :: readIds size (arr.drop 8)

theorem length_idBytes (list : List DocId) : (idBytes list).length = 8 * list.length := by
  simp [idBytes, List.length_flatMap, Nat.mul_comm]

theorem readIds_idBytes {list : List DocId} (h : ∀ i ∈ list, i < 2 ^ 64) :
    readIds list.length (idBytes list) = list := by
  induction list with
  | nil => rfl
  | cons i list ih =>
    have hi : i < 256 ^ 8 := h i List.mem_cons_self
    rw [List.length_cons, readIds, idBytes, List.flatMap_cons, ofHostBytes_append hi,
      List.drop_left' (length_hostBytes 8 i)]
    exact congrArg (i :: ·) (ih fun j hj => h j (List.mem_cons_of_mem _ hj))

namespace PostingCodec

/-- `PostingCodec::encode`. -/
def encode (list : List DocId) : QByteArray := idBytes list

/-- `PostingCodec::decode`; a length that is not a multiple of the entry size is not decoded. -/
def decode (arr : QByteArray) : List DocId :=
  if arr.length % 8 ≠ 0 then [] else readIds (arr.length / 8) arr

/-- Postings are read back as they were written. -/
theorem decode_encode_ids {list : List DocId} (h : ∀ i ∈ list, i < 2 ^ 64) : decode (encode list) = list := by
  rw [decode, encode, length_idBytes, if_neg (by simp), Nat.mul_div_cancel_left _ (by norm_num), readIds_idBytes h]

end PostingCodec

/-- The bytes of a `DocumentTimeDB::TimeInfo`. -/
def TimeInfo.bytes (info : TimeInfo) : QByteArray := hostBytes 4 info.mTime ++ hostBytes 4 info.cTime

/-- The `DocumentTimeDB::TimeInfo` in eight bytes. -/
def TimeInfo.ofBytes (arr : QByteArray) : TimeInfo where
  mTime := ofHostBytes 4 arr
  cTime := ofHostBytes 4 (arr.drop 4)

theorem TimeInfo.ofBytes_bytes {info : TimeInfo} (hm : info.mTime < 2 ^ 32) (hc : info.cTime < 2 ^ 32) :
    TimeInfo.ofBytes info.bytes = info := by
  have hm : info.mTime < 256 ^ 4 := hm
  have hc : info.cTime < 256 ^ 4 := hc
  have hrest := ofHostBytes_append hc []
  rw [List.append_nil] at hrest
  rw [TimeInfo.ofBytes, TimeInfo.bytes, ofHostBytes_append hm, List.drop_left' (length_hostBytes 4 _), hrest]

/-- What `IdFilenameDB::put` writes: the id of the directory, then the name. -/
def FilePath.bytes (path : FilePath) : QByteArray := hostBytes 8 path.parentId ++ path.name

/-- What `IdFilenameDB::get` reads; a value of fewer than eight bytes is no path. -/
def FilePath.ofBytes (arr : QByteArray) : Option FilePath :=
  if arr.length < 8 then none else some { parentId := ofHostBytes 8 arr, name := arr.drop 8 }

theorem FilePath.ofBytes_bytes {path : FilePath} (h : path.parentId < 2 ^ 64) :
    FilePath.ofBytes path.bytes = some path := by
  have h : path.parentId < 256 ^ 8 := h
  rw [FilePath.ofBytes, FilePath.bytes, if_neg (by simp), ofHostBytes_append h,
    List.drop_left' (length_hostBytes 8 _)]

/-- What `PositionDB::get` reads. -/
def positionsOfBytes (arr : QByteArray) : List PositionInfo :=
  match PositionCodec.decode arr with
  | .ok list => list
  | .error _ => []

/-- Encoded entries are read one after the other. -/
theorem PositionCodec.decode_flatten {parts : List QByteArray} {list : List PositionInfo}
    (h : List.Forall₂ Coded parts list) : decode parts.flatten = .ok list := by
  have hparts := decodeLoop_parts h [] []
  rw [List.append_nil, List.nil_append] at hparts
  rw [decode, hparts, decodeLoop, if_pos rfl]

theorem positionsOfBytes_encode {list : List PositionInfo}
    (h : ∀ info ∈ list, info.docId < 2 ^ 64 ∧ info.positions.length < 2 ^ 28) :
    positionsOfBytes (PositionCodec.encode list) = list := by
  have hcoded : List.Forall₂ PositionCodec.Coded (list.map PositionCodec.entry) list := by
    rw [List.forall₂_map_left_iff, List.forall₂_same]
    exact fun info hinfo => PositionCodec.coded_entry (h info hinfo).1 (h info hinfo).2
  rw [positionsOfBytes, PositionCodec.encode_eq, PositionCodec.decode_flatten hcoded]

/-! ## The stores -/

/-- What is used of LMDB: stores with byte strings as keys, stores with `MDB_INTEGERKEY`, and stores with
`MDB_INTEGERKEY`, `MDB_DUPSORT`, `MDB_DUPFIXED` and `MDB_INTEGERDUP`. -/
structure Lmdb where
  /-- keys are byte strings -/
  plain : KeyValueStore QByteArray QByteArray
  /-- keys are numbers of 64 bits -/
  integer : KeyValueStore UInt64 QByteArray
  /-- keys are numbers of 32 bits, values numbers of 64 bits -/
  dup : DupStore (Fin (2 ^ 32)) (Fin (2 ^ 64))
  /-- keys have 1 to 511 bytes -/
  accepts_plain : ∀ k : QByteArray, plain.accepts k = decide (0 < k.length ∧ k.length ≤ 511)
  accepts_integer : ∀ k, integer.accepts k = true

/-- Ordered maps and ascending lists are such stores. -/
def Lmdb.reference : Lmdb where
  plain := KeyValueStore.reference QByteArray QByteArray fun k => 0 < k.length ∧ k.length ≤ 511
  integer := KeyValueStore.reference UInt64 QByteArray fun _ => true
  dup := DupStore.reference (Fin (2 ^ 32)) (Fin (2 ^ 64))
  accepts_plain _ := rfl
  accepts_integer _ := rfl

/-- `DatabaseDbis`: the stores of an index. -/
structure DatabaseDbis (L : Lmdb) where
  postingDbi : L.plain.Table := L.plain.empty
  positionDBi : L.plain.Table := L.plain.empty
  docTermsDbi : L.integer.Table := L.integer.empty
  docFilenameTermsDbi : L.integer.Table := L.integer.empty
  docXattrTermsDbi : L.integer.Table := L.integer.empty
  idTreeDbi : L.integer.Table := L.integer.empty
  idFilenameDbi : L.integer.Table := L.integer.empty
  docTimeDbi : L.integer.Table := L.integer.empty
  docDataDbi : L.integer.Table := L.integer.empty
  contentIndexingDbi : L.integer.Table := L.integer.empty
  failedIdDbi : L.integer.Table := L.integer.empty
  mtimeDbi : L.dup.Table := L.dup.empty

namespace Lmdb

/-! ## What the table classes share -/

section Records

variable {K α : Type} [Ord K] [Std.TransOrd K] (S : KeyValueStore K QByteArray)

/-- `put` of a table class: the bytes of the record. -/
def putRecord (bytes : α → QByteArray) (t : S.Table) (key : K) (record : α) : S.Table := S.put t key (bytes record)

/-- `get` of a table class; `missing` is returned for a key that is not there. -/
def getRecord (read : QByteArray → α) (missing : α) (t : S.Table) (key : K) : α :=
  match S.get t key with
  | none => missing
  | some val => read val

/-- `contains` of a table class. -/
def containsKey (t : S.Table) (key : K) : Bool := (S.get t key).isSome

/-- `toTestMap` of a table class: the entries, read one after another into a `QMap`. -/
def toTestMap {K' : Type} [Ord K'] [Std.TransOrd K'] (key : K → K') (read : QByteArray → α) (fuel : ℕ)
    (t : S.Table) : Option (OrdMap K' α) :=
  (S.scan (fun _ => true) fuel (S.first t)).map fun entries =>
    entries.foldl (fun map e => map.put (key e.1) (read e.2)) ∅

end Records

/-! ## The table classes -/

variable (L : Lmdb)

/-- The key of a document. -/
def idKey (docId : DocId) : UInt64 := UInt64.ofNat docId

namespace PostingDB

/-- `PostingDB::put`. -/
def put (t : L.plain.Table) (term : Term) (list : List DocId) : L.plain.Table :=
  putRecord L.plain PostingCodec.encode t term list

/-- `PostingDB::get`. -/
def get (t : L.plain.Table) (term : Term) : List DocId := getRecord L.plain PostingCodec.decode [] t term

/-- `PostingDB::del`. -/
def del (t : L.plain.Table) (term : Term) : L.plain.Table := L.plain.del t term

/-- `PostingDB::fetchTermsStartingWith`. -/
def fetchTermsStartingWith (fuel : ℕ) (t : L.plain.Table) (term : Term) : Option (List Term) :=
  (L.plain.scan (fun e => term.isPrefixOf e.1) fuel (L.plain.setRange t term)).map fun entries => entries.map Prod.fst

/-- `PostingDB::iter` of a term. -/
def iter (t : L.plain.Table) (term : Term) : PostingTree :=
  match L.plain.get t term with
  | none => .null
  | some values => .vector (PostingCodec.decode values)

/-- `PostingDB::iter` of a prefix and a validator. -/
def validIter (fuel : ℕ) (t : L.plain.Table) (pre : QByteArray) (validate : QByteArray → Bool) : Option PostingTree :=
  (L.plain.scan (fun e => pre.isPrefixOf e.1) fuel (L.plain.setRange t pre)).map fun entries =>
    match (entries.filter fun e => validate e.1).map fun e => PostingTree.vector (PostingCodec.decode e.2) with
    | [] => .null
    | termIterators => .or termIterators

/-- `PostingDB::prefixIter`. -/
def prefixIter (fuel : ℕ) (t : L.plain.Table) (pre : QByteArray) : Option PostingTree :=
  validIter L fuel t pre fun _ => true

/-- `PostingDB::regexpIter` and `PostingDB::compIter`: the validator looks at what stands behind the
prefix. -/
def suffixIter (fuel : ℕ) (t : L.plain.Table) (pre : QByteArray) (valid : QByteArray → Bool) : Option PostingTree :=
  validIter L fuel t pre fun arr => valid (arr.drop pre.length)

end PostingDB

namespace PositionDB

/-- `PositionDB::put`. -/
def put (t : L.plain.Table) (term : Term) (list : List PositionInfo) : L.plain.Table :=
  putRecord L.plain PositionCodec.encode t term list

/-- `PositionDB::get`. -/
def get (t : L.plain.Table) (term : Term) : List PositionInfo := getRecord L.plain positionsOfBytes [] t term

/-- `PositionDB::del`. -/
def del (t : L.plain.Table) (term : Term) : L.plain.Table := L.plain.del t term

end PositionDB

namespace DocumentDB

/-- `DocumentDB::put`. -/
def put (t : L.integer.Table) (docId : DocId) (list : List Term) : L.integer.Table :=
  putRecord L.integer DocTermsCodec.encode t (idKey docId) list

/-- `DocumentDB::get`. -/
def get (t : L.integer.Table) (docId : DocId) : List Term :=
  getRecord L.integer DocTermsCodec.decode [] t (idKey docId)

/-- `DocumentDB::del`. -/
def del (t : L.integer.Table) (docId : DocId) : L.integer.Table := L.integer.del t (idKey docId)

/-- `DocumentDB::contains`. -/
def contains (t : L.integer.Table) (docId : DocId) : Bool := containsKey L.integer t (idKey docId)

/-- `DocumentDB::size`. -/
def size (t : L.integer.Table) : ℕ := L.integer.size t

end DocumentDB

namespace IdTreeDB

/-- `IdTreeDB::set`. -/
def set (t : L.integer.Table) (docId : DocId) (subDocIds : List DocId) : L.integer.Table :=
  if subDocIds = [] then L.integer.del t (idKey docId) else putRecord L.integer idBytes t (idKey docId) subDocIds

/-- The ids `IdTreeDB::get` copies. -/
def read (val : QByteArray) : List DocId := readIds (val.length / 8) val

/-- `IdTreeDB::get`. -/
def get (t : L.integer.Table) (docId : DocId) : List DocId := getRecord L.integer read [] t (idKey docId)

end IdTreeDB

namespace IdFilenameDB

/-- `IdFilenameDB::put`. -/
def put (t : L.integer.Table) (docId : DocId) (path : FilePath) : L.integer.Table :=
  putRecord L.integer FilePath.bytes t (idKey docId) path

/-- `IdFilenameDB::get` into a `FilePath`; `none` stands for `false`. -/
def find (t : L.integer.Table) (docId : DocId) : Option FilePath :=
  getRecord L.integer FilePath.ofBytes none t (idKey docId)

/-- `IdFilenameDB::get`. -/
def get (t : L.integer.Table) (docId : DocId) : FilePath := (find L t docId).getD {}

/-- `IdFilenameDB::contains`. -/
def contains (t : L.integer.Table) (docId : DocId) : Bool := containsKey L.integer t (idKey docId)

/-- `IdFilenameDB::del`. -/
def del (t : L.integer.Table) (docId : DocId) : L.integer.Table := L.integer.del t (idKey docId)

end IdFilenameDB

namespace DocumentTimeDB

/-- `DocumentTimeDB::put`. -/
def put (t : L.integer.Table) (docId : DocId) (info : TimeInfo) : L.integer.Table :=
  putRecord L.integer TimeInfo.bytes t (idKey docId) info

/-- `DocumentTimeDB::get`. -/
def get (t : L.integer.Table) (docId : DocId) : TimeInfo := getRecord L.integer TimeInfo.ofBytes {} t (idKey docId)

/-- `DocumentTimeDB::del`. -/
def del (t : L.integer.Table) (docId : DocId) : L.integer.Table := L.integer.del t (idKey docId)

/-- `DocumentTimeDB::contains`. -/
def contains (t : L.integer.Table) (docId : DocId) : Bool := containsKey L.integer t (idKey docId)

end DocumentTimeDB

namespace DocumentDataDB

/-- `DocumentDataDB::put`. -/
def put (t : L.integer.Table) (docId : DocId) (data : QByteArray) : L.integer.Table :=
  putRecord L.integer id t (idKey docId) data

/-- `DocumentDataDB::get`. -/
def get (t : L.integer.Table) (docId : DocId) : QByteArray := getRecord L.integer id [] t (idKey docId)

/-- `DocumentDataDB::del`. -/
def del (t : L.integer.Table) (docId : DocId) : L.integer.Table := L.integer.del t (idKey docId)

/-- `DocumentDataDB::contains`. -/
def contains (t : L.integer.Table) (docId : DocId) : Bool := containsKey L.integer t (idKey docId)

end DocumentDataDB

namespace DocumentIdDB

/-- `DocumentIdDB::put`; the value is empty. -/
def put (t : L.integer.Table) (docId : DocId) : L.integer.Table :=
  putRecord L.integer (fun _ => []) t (idKey docId) ()

/-- `DocumentIdDB::contains`. -/
def contains (t : L.integer.Table) (docId : DocId) : Bool := containsKey L.integer t (idKey docId)

/-- `DocumentIdDB::del`. -/
def del (t : L.integer.Table) (docId : DocId) : L.integer.Table := L.integer.del t (idKey docId)

/-- `DocumentIdDB::fetchItems`; a cursor that is not set is moved to the first entry. -/
def fetchItems (t : L.integer.Table) (size : ℕ) : List DocId :=
  (L.integer.fetch size (L.integer.first t)).map fun e => e.1.toNat

/-- `DocumentIdDB::size`. -/
def size (t : L.integer.Table) : ℕ := L.integer.size t

end DocumentIdDB

namespace MTimeDB

/-- `MTimeDB::put`. -/
def put (t : L.dup.Table) (mtime : ℕ) (docId : DocId) : L.dup.Table :=
  if docId = 0 then t else L.dup.put t (Fin.ofNat _ mtime) (Fin.ofNat _ docId)

/-- `MTimeDB::get`. -/
def get (fuel : ℕ) (t : L.dup.Table) (mtime : ℕ) : Option (List DocId) :=
  (L.dup.values fuel (L.dup.set t (Fin.ofNat _ mtime))).map fun values =>
    SortedSeq.sortUnique (values.map Fin.val)

/-- `MTimeDB::del`. -/
def del (t : L.dup.Table) (mtime : ℕ) (docId : DocId) : L.dup.Table :=
  L.dup.del t (Fin.ofNat _ mtime) (Fin.ofNat _ docId)

/-- `MTimeDB::iterRange`; the inner `none` is the null pointer. -/
def iterRange (fuel : ℕ) (t : L.dup.Table) (beginTime endTime : ℕ) : Option (Option PostingIterator) :=
  if endTime < beginTime then some none
  else
    (L.dup.scan (fun e => e.1.val ≤ endTime) fuel (L.dup.setRange t (Fin.ofNat _ beginTime))).map fun entries =>
      let results := entries.map fun e => e.2.val
      if results = [] then none else some (.vector (SortedSeq.sortUnique results) (-1))

end MTimeDB

end Lmdb

end Baloo
