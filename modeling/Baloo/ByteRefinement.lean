import Baloo.Agreement
import Baloo.ByteTables

/-!
# The stores hold the tables

The functions on tables come in two versions: those of `Baloo.ByteTables` on the stores of LMDB, and those
on maps of records the other modules work with. Here the first are shown to be an implementation of the
second. A store *holds* a table if it has the keys of the table, and their values are read as the records.
Every call that writes keeps this, provided its numbers fit into the widths the source gives them and its
terms are keys that LMDB takes; hence it holds after any run of calls, and then every function that reads
returns the same on both sides, those that go through a cursor included.
-/

namespace Baloo

open Fuel (Returns)
open SortedSeq (Ascending)

/-! ## What a store holds -/

/-- Terms are stored as they are. -/
def termReading {α : Type} (read : QByteArray → α) : Reading Term QByteArray Term α where
  key := id
  value := read
  compare_key _ _ := rfl

/-- Ids are stored as numbers. -/
def idReading {α : Type} (read : QByteArray → α) : Reading UInt64 QByteArray DocId α where
  key := UInt64.toNat
  value := read
  compare_key a b := by
    change compareOfLessAndEq a.toNat b.toNat = compareOfLessAndEq a b
    simp only [compareOfLessAndEq, UInt64.lt_iff_toNat_lt, UInt64.toNat_inj]

namespace Lmdb

open KeyValueStore (Represents)

variable {L : Lmdb}

theorem toNat_idKey {docId : DocId} (h : docId < 2 ^ 64) : (idKey docId).toNat = docId := by
  rw [idKey, UInt64.toNat_ofNat', Nat.mod_eq_of_lt h]

section Records

variable {α : Type} {bytes : α → QByteArray} {read : QByteArray → α} {record : α}

theorem stores_putTerm {t : L.plain.Table} {m : OrdMap Term α} (h : Represents (termReading read) t m) {term : Term}
    (hterm : L.plain.accepts term = true) (hread : read (bytes record) = record) :
    Represents (termReading read) (putRecord L.plain bytes t term record) (m.put term record) := by
  have hput := h.put (v := bytes record) hterm
  rwa [show (termReading read).value (bytes record) = record from hread] at hput

theorem getRecord_term {t : L.plain.Table} {m : OrdMap Term α} (h : Represents (termReading read) t m) (missing : α)
    (term : Term) : getRecord L.plain read missing t term = (m.get term).getD missing := by
  have hget : m.get term = (L.plain.get t term).map read := h.get term
  rw [getRecord, hget]
  cases L.plain.get t term <;> rfl

variable {t : L.integer.Table} {m : OrdMap DocId α} {docId : DocId}

theorem stores_putId (h : Represents (idReading read) t m) (hid : docId < 2 ^ 64)
    (hread : read (bytes record) = record) :
    Represents (idReading read) (putRecord L.integer bytes t (idKey docId) record) (m.put docId record) := by
  have hput := h.put (k := idKey docId) (v := bytes record) (L.accepts_integer _)
  rwa [show (idReading read).value (bytes record) = record from hread,
    show (idReading read).key (idKey docId) = docId from toNat_idKey hid] at hput

theorem stores_delId (h : Represents (idReading read) t m) (hid : docId < 2 ^ 64) :
    Represents (idReading read) (L.integer.del t (idKey docId)) (m.del docId) := by
  have hdel := h.del (idKey docId)
  rwa [show (idReading read).key (idKey docId) = docId from toNat_idKey hid] at hdel

theorem get_id (h : Represents (idReading read) t m) (hid : docId < 2 ^ 64) :
    m.get docId = (L.integer.get t (idKey docId)).map read := by
  have hget := h.get (idKey docId)
  rwa [show (idReading read).key (idKey docId) = docId from toNat_idKey hid] at hget

theorem getRecord_id (h : Represents (idReading read) t m) (hid : docId < 2 ^ 64) (missing : α) :
    getRecord L.integer read missing t (idKey docId) = (m.get docId).getD missing := by
  rw [getRecord, get_id h hid]
  cases L.integer.get t (idKey docId) <;> rfl

theorem containsKey_id (h : Represents (idReading read) t m) (hid : docId < 2 ^ 64) :
    containsKey L.integer t (idKey docId) = m.contains docId := by
  rw [containsKey, OrdMap.contains, get_id h hid, Option.isSome_map]

end Records

/-- A set of documents is a table without values. -/
theorem stores_putDoc {t : L.integer.Table} {m : Baloo.DocumentIdDB} {docId : DocId}
    (h : Represents (idReading fun _ => ()) t m) (hid : docId < 2 ^ 64) :
    Represents (idReading fun _ => ()) (Lmdb.DocumentIdDB.put L t docId) (m.put docId) :=
  stores_putId h hid rfl

/-- A term list is the same bytes in the table. -/
theorem stores_putTerms {t : L.integer.Table} {m : Baloo.DocumentDB} {docId : DocId} (h : Represents (idReading id) t m)
    (hid : docId < 2 ^ 64) (list : List Term) :
    Represents (idReading id) (Lmdb.DocumentDB.put L t docId list) (m.put docId list) := by
  have hput : Represents (idReading id) (putRecord L.integer id t (idKey docId) (DocTermsCodec.encode list))
      (OrdMap.put m docId (DocTermsCodec.encode list)) := stores_putId h hid rfl
  exact hput

/-- `toTestMap` reads the table. -/
theorem toTestMap_returns {K K' α : Type} [Ord K] [Std.TransOrd K] [Std.LawfulEqOrd K] [Ord K'] [Std.TransOrd K']
    [Std.LawfulEqOrd K'] [DecidableEq K'] {S : KeyValueStore K QByteArray} {R : Reading K QByteArray K' α} {t : S.Table}
    {m : OrdMap K' α} (h : Represents R t m) : Returns (fun fuel => toTestMap S R.key R.value fuel t) m := by
  have hscan := (S.scan_all_returns (S.first t)).map fun entries =>
    entries.foldl (fun (map : OrdMap K' α) e => map.put (R.key e.1) (R.value e.2)) ∅
  rw [S.remaining_first] at hscan
  have hfold : (S.contents t).toList.foldl (fun (map : OrdMap K' α) e => map.put (R.key e.1) (R.value e.2)) ∅ =
      m.toList.foldl (fun map e => map.put e.1 e.2) ∅ := by
    rw [h.toList, List.foldl_map]
  rw [hfold, m.foldl_put_toList] at hscan
  exact hscan

/-- What the store of `MTimeDB` holds: the pairs of the table. -/
structure MTimeStores (t : L.dup.Table) (m : MTimeDB) : Prop where
  mem : ∀ (time : Fin (2 ^ 32)) (i : Fin (2 ^ 64)), (time, i) ∈ L.dup.contents t ↔ i.val ∈ OrdMap.values m time.val
  bounded : ∀ time i, i ∈ OrdMap.values m time → time < 2 ^ 32 ∧ i < 2 ^ 64
  inOrder : m.InOrder

theorem val_ofNat {n x : ℕ} [NeZero n] (h : x < n) : (Fin.ofNat n x).val = x := Nat.mod_eq_of_lt h

theorem MTimeStores.put {t : L.dup.Table} {m : MTimeDB} (h : MTimeStores t m) {mtime : ℕ} {docId : DocId}
    (hm : mtime < 2 ^ 32) (hid : docId < 2 ^ 64) :
    MTimeStores (Lmdb.MTimeDB.put L t mtime docId) (m.put mtime docId) := by
  by_cases hzero : docId = 0
  · rwa [Lmdb.MTimeDB.put, Baloo.MTimeDB.put, if_pos hzero, if_pos hzero]
  rw [Lmdb.MTimeDB.put, if_neg hzero]
  refine ⟨fun time i => ?_, fun time i hi => ?_, h.inOrder.put mtime docId⟩
  · rw [L.dup.mem_put, h.mem, Baloo.MTimeDB.mem_put h.inOrder.sorted hzero, Prod.mk.injEq, Fin.ext_iff, Fin.ext_iff,
      val_ofNat hm, val_ofNat hid]
  · rcases (Baloo.MTimeDB.mem_put h.inOrder.sorted hzero).mp hi with ⟨rfl, rfl⟩ | hi
    · exact ⟨hm, hid⟩
    · exact h.bounded time i hi

theorem MTimeStores.del {t : L.dup.Table} {m : MTimeDB} (h : MTimeStores t m) {mtime : ℕ} {docId : DocId}
    (hm : mtime < 2 ^ 32) (hid : docId < 2 ^ 64) :
    MTimeStores (Lmdb.MTimeDB.del L t mtime docId) (m.del mtime docId) := by
  refine ⟨fun time i => ?_, fun time i hi => ?_, h.inOrder.del mtime docId⟩
  · rw [Lmdb.MTimeDB.del, L.dup.mem_del, h.mem, Baloo.MTimeDB.mem_del h.inOrder.sorted, Ne, Prod.mk.injEq, Fin.ext_iff,
      Fin.ext_iff, val_ofNat hm, val_ofNat hid]
  · exact h.bounded time i ((Baloo.MTimeDB.mem_del h.inOrder.sorted).mp hi).2

end Lmdb

variable {L : Lmdb}

/-- The store of a family. -/
def DatabaseDbis.termsDbi (b : DatabaseDbis L) : Family → L.integer.Table
  | .terms => b.docTermsDbi
  | .xattrTerms => b.docXattrTermsDbi
  | .fileNameTerms => b.docFilenameTermsDbi

/-- Write the store of a family. -/
def DatabaseDbis.setTermsDbi (b : DatabaseDbis L) (t : L.integer.Table) : Family → DatabaseDbis L
  | .terms => { b with docTermsDbi := t }
  | .xattrTerms => { b with docXattrTermsDbi := t }
  | .fileNameTerms => { b with docFilenameTermsDbi := t }

/-- The stores hold the tables of a database. Term lists are bytes in the tables as well. -/
structure DatabaseDbis.Hold (b : DatabaseDbis L) (db : Database) : Prop where
  posting : KeyValueStore.Represents (termReading PostingCodec.decode) b.postingDbi db.postingDb
  position : KeyValueStore.Represents (termReading positionsOfBytes) b.positionDBi db.positionDb
  terms : ∀ f, KeyValueStore.Represents (idReading id) (b.termsDbi f) (db.termsDb f)
  idTree : KeyValueStore.Represents (idReading Lmdb.IdTreeDB.read) b.idTreeDbi db.docUrlDb.idTreeDb
  idFilename : KeyValueStore.Represents (idReading fun arr => (FilePath.ofBytes arr).getD {}) b.idFilenameDbi
    db.docUrlDb.idFilenameDb
  docTime : KeyValueStore.Represents (idReading TimeInfo.ofBytes) b.docTimeDbi db.docTimeDb
  docData : KeyValueStore.Represents (idReading id) b.docDataDbi db.docDataDb
  contentIndexing : KeyValueStore.Represents (idReading fun _ => ()) b.contentIndexingDbi db.contentIndexingDb
  failedId : KeyValueStore.Represents (idReading fun _ => ()) b.failedIdDbi db.failedIdDb
  mtime : Lmdb.MTimeStores b.mtimeDbi db.mtimeDb

/-! ## Calls that write -/

/-- A call of a table class that writes. -/
inductive TableCall where
  | postingPut (term : Term) (list : List DocId)
  | postingDel (term : Term)
  | positionPut (term : Term) (list : List PositionInfo)
  | positionDel (term : Term)
  | termsPut (f : Family) (docId : DocId) (list : List Term)
  | termsDel (f : Family) (docId : DocId)
  | treeSet (docId : DocId) (subDocIds : List DocId)
  | filenamePut (docId : DocId) (path : FilePath)
  | filenameDel (docId : DocId)
  | timePut (docId : DocId) (info : TimeInfo)
  | timeDel (docId : DocId)
  | dataPut (docId : DocId) (data : QByteArray)
  | dataDel (docId : DocId)
  | contentPut (docId : DocId)
  | contentDel (docId : DocId)
  | failedPut (docId : DocId)
  | failedDel (docId : DocId)
  | mtimePut (mtime : ℕ) (docId : DocId)
  | mtimeDel (mtime : ℕ) (docId : DocId)

namespace TableCall

/-- The call on the stores. -/
def onBytes (L : Lmdb) (b : DatabaseDbis L) : TableCall → DatabaseDbis L
  | postingPut term list => { b with postingDbi := Lmdb.PostingDB.put L b.postingDbi term list }
  | postingDel term => { b with postingDbi := Lmdb.PostingDB.del L b.postingDbi term }
  | positionPut term list => { b with positionDBi := Lmdb.PositionDB.put L b.positionDBi term list }
  | positionDel term => { b with positionDBi := Lmdb.PositionDB.del L b.positionDBi term }
  | termsPut f docId list => b.setTermsDbi (Lmdb.DocumentDB.put L (b.termsDbi f) docId list) f
  | termsDel f docId => b.setTermsDbi (Lmdb.DocumentDB.del L (b.termsDbi f) docId) f
  | treeSet docId subDocIds => { b with idTreeDbi := Lmdb.IdTreeDB.set L b.idTreeDbi docId subDocIds }
  | filenamePut docId path => { b with idFilenameDbi := Lmdb.IdFilenameDB.put L b.idFilenameDbi docId path }
  | filenameDel docId => { b with idFilenameDbi := Lmdb.IdFilenameDB.del L b.idFilenameDbi docId }
  | timePut docId info => { b with docTimeDbi := Lmdb.DocumentTimeDB.put L b.docTimeDbi docId info }
  | timeDel docId => { b with docTimeDbi := Lmdb.DocumentTimeDB.del L b.docTimeDbi docId }
  | dataPut docId data => { b with docDataDbi := Lmdb.DocumentDataDB.put L b.docDataDbi docId data }
  | dataDel docId => { b with docDataDbi := Lmdb.DocumentDataDB.del L b.docDataDbi docId }
  | contentPut docId => { b with contentIndexingDbi := Lmdb.DocumentIdDB.put L b.contentIndexingDbi docId }
  | contentDel docId => { b with contentIndexingDbi := Lmdb.DocumentIdDB.del L b.contentIndexingDbi docId }
  | failedPut docId => { b with failedIdDbi := Lmdb.DocumentIdDB.put L b.failedIdDbi docId }
  | failedDel docId => { b with failedIdDbi := Lmdb.DocumentIdDB.del L b.failedIdDbi docId }
  | mtimePut mtime docId => { b with mtimeDbi := Lmdb.MTimeDB.put L b.mtimeDbi mtime docId }
  | mtimeDel mtime docId => { b with mtimeDbi := Lmdb.MTimeDB.del L b.mtimeDbi mtime docId }

/-- The call on the tables. -/
def onRecords (db : Database) : TableCall → Database
  | postingPut term list => { db with postingDb := OrdMap.put db.postingDb term list }
  | postingDel term => { db with postingDb := OrdMap.del db.postingDb term }
  | positionPut term list => { db with positionDb := OrdMap.put db.positionDb term list }
  | positionDel term => { db with positionDb := OrdMap.del db.positionDb term }
  | termsPut f docId list => db.setTermsDb (DocumentDB.put (db.termsDb f) docId list) f
  | termsDel f docId => db.setTermsDb (OrdMap.del (db.termsDb f) docId) f
  | treeSet docId subDocIds =>
    { db with docUrlDb := { db.docUrlDb with idTreeDb := db.docUrlDb.idTreeDb.set docId subDocIds } }
  | filenamePut docId path =>
    { db with docUrlDb := { db.docUrlDb with idFilenameDb := OrdMap.put db.docUrlDb.idFilenameDb docId path } }
  | filenameDel docId =>
    { db with docUrlDb := { db.docUrlDb with idFilenameDb := OrdMap.del db.docUrlDb.idFilenameDb docId } }
  | timePut docId info => { db with docTimeDb := OrdMap.put db.docTimeDb docId info }
  | timeDel docId => { db with docTimeDb := OrdMap.del db.docTimeDb docId }
  | dataPut docId data => { db with docDataDb := OrdMap.put db.docDataDb docId data }
  | dataDel docId => { db with docDataDb := OrdMap.del db.docDataDb docId }
  | contentPut docId => { db with contentIndexingDb := db.contentIndexingDb.put docId }
  | contentDel docId => { db with contentIndexingDb := OrdMap.del db.contentIndexingDb docId }
  | failedPut docId => { db with failedIdDb := db.failedIdDb.put docId }
  | failedDel docId => { db with failedIdDb := OrdMap.del db.failedIdDb docId }
  | mtimePut mtime docId => { db with mtimeDb := db.mtimeDb.put mtime docId }
  | mtimeDel mtime docId => { db with mtimeDb := db.mtimeDb.del mtime docId }

/-- Terms that LMDB takes as keys. -/
def IsKey (term : Term) : Prop := 0 < term.length ∧ term.length ≤ 511

/-- The numbers have the widths of the source, and what is written under a term has a key. -/
def Fits : TableCall → Prop
  | postingPut term list => IsKey term ∧ ∀ i ∈ list, i < 2 ^ 64
  | positionPut term list => IsKey term ∧ ∀ info ∈ list, info.docId < 2 ^ 64 ∧ info.positions.length < 2 ^ 28
  | postingDel _ | positionDel _ => True
  | termsPut _ docId _ | termsDel _ docId | filenameDel docId | timeDel docId | dataPut docId _ | dataDel docId
  | contentPut docId | contentDel docId | failedPut docId | failedDel docId => docId < 2 ^ 64
  | treeSet docId subDocIds => docId < 2 ^ 64 ∧ ∀ i ∈ subDocIds, i < 2 ^ 64
  | filenamePut docId path => docId < 2 ^ 64 ∧ path.parentId < 2 ^ 64
  | timePut docId info => docId < 2 ^ 64 ∧ info.mTime < 2 ^ 32 ∧ info.cTime < 2 ^ 32
  | mtimePut mtime docId | mtimeDel mtime docId => mtime < 2 ^ 32 ∧ docId < 2 ^ 64

end TableCall

namespace DatabaseDbis

open TableCall (Fits IsKey)

variable {b : DatabaseDbis L} {db : Database}

theorem accepts_of_isKey {term : Term} (h : IsKey term) : L.plain.accepts term = true := by
  rw [L.accepts_plain, decide_eq_true_iff]
  exact h

theorem termsDbi_setTermsDbi (b : DatabaseDbis L) (t : L.integer.Table) (f g : Family) :
    (b.setTermsDbi t f).termsDbi g = if g = f then t else b.termsDbi g := by
  cases f <;> cases g <;> rfl

/-- Writing the store and the table of a family. -/
theorem Hold.setTerms (h : b.Hold db) {t : L.integer.Table} {table : DocumentDB} (f : Family)
    (ht : KeyValueStore.Represents (idReading id) t table) : (b.setTermsDbi t f).Hold (db.setTermsDb table f) := by
  have hterms : ∀ g, KeyValueStore.Represents (idReading id) ((b.setTermsDbi t f).termsDbi g)
      ((db.setTermsDb table f).termsDb g) := fun g => by
    rw [termsDbi_setTermsDbi, Database.termsDb_setTermsDb]
    split
    · exact ht
    · exact h.terms g
  cases f <;> exact { h with terms := hterms }

/-- **A call keeps the stores in step with the tables.** -/
theorem Hold.call (h : b.Hold db) {c : TableCall} (hc : c.Fits) : (c.onBytes L b).Hold (c.onRecords db) := by
  cases c with
  | postingPut term list =>
    exact { h with posting :=
      Lmdb.stores_putTerm h.posting (accepts_of_isKey hc.1) (PostingCodec.decode_encode_ids hc.2) }
  | postingDel term => exact { h with posting := h.posting.del term }
  | positionPut term list =>
    exact { h with position := Lmdb.stores_putTerm h.position (accepts_of_isKey hc.1) (positionsOfBytes_encode hc.2) }
  | positionDel term => exact { h with position := h.position.del term }
  | termsPut f docId list => exact h.setTerms f (Lmdb.stores_putTerms (h.terms f) hc list)
  | termsDel f docId => exact h.setTerms f (Lmdb.stores_delId (h.terms f) hc)
  | treeSet docId subDocIds =>
    refine { h with idTree := ?_ }
    change KeyValueStore.Represents _ (Lmdb.IdTreeDB.set L b.idTreeDbi docId subDocIds)
      (db.docUrlDb.idTreeDb.set docId subDocIds)
    rw [Lmdb.IdTreeDB.set, IdTreeDB.set]
    split
    · exact Lmdb.stores_delId h.idTree hc.1
    · refine Lmdb.stores_putId h.idTree hc.1 ?_
      rw [Lmdb.IdTreeDB.read, length_idBytes, Nat.mul_div_cancel_left _ (by norm_num), readIds_idBytes hc.2]
  | filenamePut docId path =>
    refine { h with idFilename := Lmdb.stores_putId h.idFilename hc.1 ?_ }
    rw [FilePath.ofBytes_bytes hc.2, Option.getD_some]
  | filenameDel docId => exact { h with idFilename := Lmdb.stores_delId h.idFilename hc }
  | timePut docId info =>
    exact { h with docTime := Lmdb.stores_putId h.docTime hc.1 (TimeInfo.ofBytes_bytes hc.2.1 hc.2.2) }
  | timeDel docId => exact { h with docTime := Lmdb.stores_delId h.docTime hc }
  | dataPut docId data => exact { h with docData := Lmdb.stores_putId h.docData hc rfl }
  | dataDel docId => exact { h with docData := Lmdb.stores_delId h.docData hc }
  | contentPut docId => exact { h with contentIndexing := Lmdb.stores_putDoc h.contentIndexing hc }
  | contentDel docId => exact { h with contentIndexing := Lmdb.stores_delId h.contentIndexing hc }
  | failedPut docId => exact { h with failedId := Lmdb.stores_putDoc h.failedId hc }
  | failedDel docId => exact { h with failedId := Lmdb.stores_delId h.failedId hc }
  | mtimePut mtime docId => exact { h with mtime := h.mtime.put hc.1 hc.2 }
  | mtimeDel mtime docId => exact { h with mtime := h.mtime.del hc.1 hc.2 }

theorem hold_empty : ({} : DatabaseDbis L).Hold {} where
  posting := KeyValueStore.stores_empty _
  position := KeyValueStore.stores_empty _
  terms f := by cases f <;> exact KeyValueStore.stores_empty _
  idTree := KeyValueStore.stores_empty _
  idFilename := KeyValueStore.stores_empty _
  docTime := KeyValueStore.stores_empty _
  docData := KeyValueStore.stores_empty _
  contentIndexing := KeyValueStore.stores_empty _
  failedId := KeyValueStore.stores_empty _
  mtime := by
    refine ⟨fun time i => ?_, fun time i hi => ?_, fun m => SortedSeq.ascending_nil, fun m => ?_⟩
    · rw [L.dup.contents_empty]
      exact iff_of_false List.not_mem_nil List.not_mem_nil
    · exact absurd hi List.not_mem_nil
    · rw [OrdMap.get_empty]
      nofun

/-- And so does a run of calls. -/
theorem Hold.run (h : b.Hold db) {calls : List TableCall} (hfits : ∀ c ∈ calls, c.Fits) :
    (calls.foldl (TableCall.onBytes L) b).Hold (calls.foldl TableCall.onRecords db) := by
  induction calls generalizing b db with
  | nil => exact h
  | cons c calls ih =>
    exact ih (h.call (hfits c List.mem_cons_self)) fun c' hc' => hfits c' (List.mem_cons_of_mem _ hc')

/-! ## Calls that read -/

/-- Every function that reads returns the same on the stores and on the tables, `i` being an id of 64 bits and
`pre` a key LMDB takes. -/
structure ReadsAs (b : DatabaseDbis L) (db : Database) : Prop where
  posting : ∀ term, Lmdb.PostingDB.get L b.postingDbi term = db.postingDb.get term
  postingIter : ∀ term, Lmdb.PostingDB.iter L b.postingDbi term = db.postingDb.iter term
  termsStartingWith : ∀ pre, IsKey pre →
    Returns (fun fuel => Lmdb.PostingDB.fetchTermsStartingWith L fuel b.postingDbi pre)
    (db.postingDb.keys.filter fun term => pre.isPrefixOf term)
  prefixIter : ∀ pre, IsKey pre → Returns (fun fuel => Lmdb.PostingDB.prefixIter L fuel b.postingDbi pre)
    (db.postingDb.prefixIter pre)
  suffixIter : ∀ pre valid, IsKey pre → Returns (fun fuel => Lmdb.PostingDB.suffixIter L fuel b.postingDbi pre valid)
    (db.postingDb.validIter pre valid)
  position : ∀ term, Lmdb.PositionDB.get L b.positionDBi term = db.positionDb.get term
  terms : ∀ f, ∀ i < 2 ^ 64, Lmdb.DocumentDB.get L (b.termsDbi f) i = (db.termsDb f).get i
  hasTerms : ∀ f, ∀ i < 2 ^ 64, Lmdb.DocumentDB.contains L (b.termsDbi f) i = (db.termsDb f).contains i
  size : ∀ f, Lmdb.DocumentDB.size L (b.termsDbi f) = (db.termsDb f).keys.length
  children : ∀ i < 2 ^ 64, Lmdb.IdTreeDB.get L b.idTreeDbi i = db.docUrlDb.getChildren i
  filePath : ∀ i < 2 ^ 64, Lmdb.IdFilenameDB.get L b.idFilenameDbi i = db.docUrlDb.filePath i
  hasPath : ∀ i < 2 ^ 64, Lmdb.IdFilenameDB.contains L b.idFilenameDbi i = db.docUrlDb.idFilenameDb.contains i
  time : ∀ i < 2 ^ 64, Lmdb.DocumentTimeDB.get L b.docTimeDbi i = db.docTimeDb.get i
  data : ∀ i < 2 ^ 64, Lmdb.DocumentDataDB.get L b.docDataDbi i = DocumentDataDB.get db.docDataDb i
  contentIndexing : ∀ i < 2 ^ 64, Lmdb.DocumentIdDB.contains L b.contentIndexingDbi i = db.contentIndexingDb.contains i
  waiting : ∀ size : ℕ, Lmdb.DocumentIdDB.fetchItems L b.contentIndexingDbi size = db.contentIndexingDb.fetchItems size
  waitingSize : Lmdb.DocumentIdDB.size L b.contentIndexingDbi = db.contentIndexingDb.size
  failed : ∀ i < 2 ^ 64, Lmdb.DocumentIdDB.contains L b.failedIdDbi i = db.failedIdDb.contains i
  failedIds : ∀ size : ℕ, Lmdb.DocumentIdDB.fetchItems L b.failedIdDbi size = db.failedIdDb.fetchItems size
  mtime : ∀ time < 2 ^ 32, Returns (fun fuel => Lmdb.MTimeDB.get L fuel b.mtimeDbi time) (OrdMap.values db.mtimeDb time)
  mtimeRange : ∀ beginTime < 2 ^ 32, ∀ endTime,
    Returns (fun fuel => Lmdb.MTimeDB.iterRange L fuel b.mtimeDbi beginTime endTime)
      (db.mtimeDb.iterRange beginTime endTime)

end DatabaseDbis

namespace Lmdb

open KeyValueStore (Represents)
open TableCall (IsKey)

section Terms

variable {α : Type} {read : QByteArray → α} {t : L.plain.Table} {m : OrdMap Term α} {pre : QByteArray}

/-- What a scan from `pre` on reads. -/
theorem scan_startingWith (h : Represents (termReading read) t m) (hpre : IsKey pre) :
    ∃ entries : List (Term × QByteArray),
    Returns (fun fuel => L.plain.scan (fun e => pre.isPrefixOf e.1) fuel (L.plain.setRange t pre)) entries ∧
      entries.map (fun e => (e.1, read e.2)) = m.startingWith pre := by
  refine ⟨_, L.plain.scan_returns _ _, ?_⟩
  rw [L.plain.remaining_setRange t pre (DatabaseDbis.accepts_of_isKey hpre), OrdMap.startingWith, h.toList,
    List.dropWhile_map, List.takeWhile_map]
  rfl

end Terms

theorem postingIter_eq {t : L.plain.Table} {m : Baloo.PostingDB} (h : Represents (termReading PostingCodec.decode) t m)
    (term : Term) : Lmdb.PostingDB.iter L t term = m.iter term := by
  have hget : OrdMap.get m term = (L.plain.get t term).map PostingCodec.decode := h.get term
  rw [Lmdb.PostingDB.iter, Baloo.PostingDB.iter, hget]
  cases L.plain.get t term <;> rfl

theorem termsStartingWith_returns {t : L.plain.Table} {m : Baloo.PostingDB}
    (h : Represents (termReading PostingCodec.decode) t m) {pre : QByteArray} (hpre : IsKey pre) :
    Returns (fun fuel => Lmdb.PostingDB.fetchTermsStartingWith L fuel t pre)
      (m.keys.filter fun term => pre.isPrefixOf term) := by
  obtain ⟨entries, hscan, hentries⟩ := scan_startingWith h hpre
  have hterms : entries.map Prod.fst = m.keys.filter fun term => pre.isPrefixOf term := by
    calc entries.map Prod.fst = (entries.map fun e => (e.1, PostingCodec.decode e.2)).map Prod.fst := by
          rw [List.map_map]
          rfl
      _ = (m.toList.filter fun e => pre.isPrefixOf e.1).map Prod.fst := by rw [hentries, m.startingWith_eq_filter]
      _ = m.keys.filter fun term => pre.isPrefixOf term := by rw [← m.map_fst_toList, List.filter_map]; rfl
  rw [← hterms]
  exact hscan.map _

theorem suffixIter_returns {t : L.plain.Table} {m : Baloo.PostingDB}
    (h : Represents (termReading PostingCodec.decode) t m)
    {pre : QByteArray} (hpre : IsKey pre) (valid : QByteArray → Bool) :
    Returns (fun fuel => Lmdb.PostingDB.suffixIter L fuel t pre valid) (m.validIter pre valid) := by
  obtain ⟨entries, hscan, hentries⟩ := scan_startingWith h hpre
  have hvectors : (entries.filter fun e => valid (e.1.drop pre.length)).map
        (fun e => PostingTree.vector (PostingCodec.decode e.2)) =
      ((m.startingWith pre).filter fun e => valid (e.1.drop pre.length)).map fun e => PostingTree.vector e.2 := by
    rw [← hentries, List.filter_map, List.map_map]
    rfl
  rw [Baloo.PostingDB.validIter, ← hvectors]
  exact hscan.map _

theorem prefixIter_returns {t : L.plain.Table} {m : Baloo.PostingDB}
    (h : Represents (termReading PostingCodec.decode) t m)
    {pre : QByteArray} (hpre : IsKey pre) :
    Returns (fun fuel => Lmdb.PostingDB.prefixIter L fuel t pre) (m.prefixIter pre) := by
  rw [m.prefixIter_eq]
  exact suffixIter_returns h hpre fun _ => true

section Ids

variable {α : Type} {read : QByteArray → α} {t : L.integer.Table} {m : OrdMap DocId α}

theorem size_eq (h : Represents (idReading read) t m) : L.integer.size t = m.keys.length := by
  rw [L.integer.size_eq, ← m.map_fst_toList, h.toList, List.length_map, List.length_map]

theorem fetchItems_eq {m : Baloo.DocumentIdDB} (h : Represents (idReading fun _ => ()) t m) (size : ℕ) :
    Lmdb.DocumentIdDB.fetchItems L t size = m.fetchItems size := by
  rw [Lmdb.DocumentIdDB.fetchItems, Baloo.DocumentIdDB.fetchItems, L.integer.fetch_eq, L.integer.remaining_first,
    ← m.map_fst_toList, h.toList, List.map_map, Int.toNat_natCast, List.map_take]
  rfl

end Ids

section Times

variable {t : L.dup.Table} {m : Baloo.MTimeDB}

theorem mtime_returns (h : MTimeStores t m) {time : ℕ} (htime : time < 2 ^ 32) :
    Returns (fun fuel => Lmdb.MTimeDB.get L fuel t time) (OrdMap.values m time) := by
  have hvalues : SortedSeq.sortUnique ((((L.dup.contents t).filter fun e => e.1 = Fin.ofNat _ time).map Prod.snd).map
      Fin.val) = OrdMap.values m time := by
    refine (SortedSeq.ascending_sortUnique _).ext (h.inOrder.sorted time) fun i => ?_
    rw [SortedSeq.mem_sortUnique]
    constructor
    · intro hi
      obtain ⟨stored, hstored, rfl⟩ := List.mem_map.mp hi
      obtain ⟨⟨time', _⟩, hfilter, rfl⟩ := List.mem_map.mp hstored
      obtain ⟨hmem, heq⟩ := List.mem_filter.mp hfilter
      obtain rfl : time' = Fin.ofNat _ time := of_decide_eq_true heq
      have hval := (h.mem _ _).mp hmem
      rwa [val_ofNat htime] at hval
    · intro hi
      have hid := (h.bounded time i hi).2
      refine List.mem_map.mpr
        ⟨Fin.ofNat _ i, List.mem_map.mpr ⟨(Fin.ofNat _ time, Fin.ofNat _ i), ?_, rfl⟩, val_ofNat hid⟩
      refine List.mem_filter.mpr ⟨(h.mem _ _).mpr ?_, decide_eq_true rfl⟩
      rwa [val_ofNat htime, val_ofNat hid]
  rw [← hvalues]
  exact (L.dup.values_set t _).map _

/-- The entries a range scan reads have the ids of the range. -/
theorem mem_scan_range (h : MTimeStores t m) {beginTime : ℕ} (hbegin : beginTime < 2 ^ 32) (endTime : ℕ) (i : DocId) :
    i ∈ (((L.dup.contents t).dropWhile fun e => e.1 < Fin.ofNat _ beginTime).takeWhile fun e => e.1.val ≤ endTime).map
        (fun e => e.2.val) ↔
      ∃ time, beginTime ≤ time ∧ time ≤ endTime ∧ i ∈ OrdMap.values m time := by
  rw [DupStore.takeWhile_dropWhile_key (L.dup.keys_sorted t) _ (fun time => decide (time.val ≤ endTime))
    fun a b _ hab hb => decide_eq_true (le_trans (Fin.le_def.mp hab) (of_decide_eq_true hb))]
  simp only [List.mem_map, List.mem_filter, Bool.and_eq_true, decide_eq_true_iff, Fin.le_def, val_ofNat hbegin]
  constructor
  · rintro ⟨⟨time, i⟩, ⟨hmem, hle, hend⟩, rfl⟩
    exact ⟨time, hle, hend, (h.mem _ _).mp hmem⟩
  · rintro ⟨time, hle, hend, hi⟩
    obtain ⟨htime, hid⟩ := h.bounded time i hi
    refine ⟨(⟨time, htime⟩, ⟨i, hid⟩), ⟨(h.mem _ _).mpr hi, hle, hend⟩, rfl⟩

theorem iterRange_returns (h : MTimeStores t m) {beginTime : ℕ} (hbegin : beginTime < 2 ^ 32) (endTime : ℕ) :
    Returns (fun fuel => Lmdb.MTimeDB.iterRange L fuel t beginTime endTime) (m.iterRange beginTime endTime) := by
  simp only [Lmdb.MTimeDB.iterRange, Baloo.MTimeDB.iterRange]
  split
  · exact Returns.pure none
  · have hmem : ∀ i, i ∈ ((L.dup.remaining (L.dup.setRange t (Fin.ofNat _ beginTime))).takeWhile
          fun e => e.1.val ≤ endTime).map (fun e => e.2.val) ↔
        i ∈ ((m.toList.dropWhile fun entry => decide (entry.1 < beginTime)).takeWhile
          fun entry => decide (entry.1 ≤ endTime)).flatMap Prod.snd := fun i => by
      rw [L.dup.remaining_setRange, mem_scan_range h hbegin, Baloo.MTimeDB.mem_range]
    have hscan := L.dup.scan_returns (fun e => e.1.val ≤ endTime) (L.dup.setRange t (Fin.ofNat _ beginTime))
    generalize ((m.toList.dropWhile fun entry => decide (entry.1 < beginTime)).takeWhile
      fun entry => decide (entry.1 ≤ endTime)).flatMap Prod.snd = results at hmem
    generalize (L.dup.remaining (L.dup.setRange t (Fin.ofNat _ beginTime))).takeWhile
      (fun e => e.1.val ≤ endTime) = entries at hmem hscan
    have hsorted : SortedSeq.sortUnique (entries.map fun e => e.2.val) = SortedSeq.sortUnique results :=
      (SortedSeq.ascending_sortUnique _).ext (SortedSeq.ascending_sortUnique _) fun i => by
        rw [SortedSeq.mem_sortUnique, SortedSeq.mem_sortUnique, hmem]
    have hempty : (entries.map fun e => e.2.val) = [] ↔ results = [] := by
      simp only [List.eq_nil_iff_forall_not_mem, hmem]
    have hresult := hscan.map fun entries =>
      let results := entries.map fun e => e.2.val
      if results = [] then none else some (PostingIterator.vector (SortedSeq.sortUnique results) (-1))
    simp only [hempty, hsorted] at hresult
    exact hresult

end Times

end Lmdb

namespace DatabaseDbis

open TableCall (Fits IsKey)

variable {b : DatabaseDbis L} {db : Database}

theorem Hold.readsAs (h : b.Hold db) : b.ReadsAs db where
  posting term := (Lmdb.getRecord_term h.posting [] term).trans rfl
  postingIter := Lmdb.postingIter_eq h.posting
  termsStartingWith _ := Lmdb.termsStartingWith_returns h.posting
  prefixIter _ := Lmdb.prefixIter_returns h.posting
  suffixIter _ valid hpre := Lmdb.suffixIter_returns h.posting hpre valid
  position term := (Lmdb.getRecord_term h.position [] term).trans rfl
  terms f i hi := by
    rw [Lmdb.DocumentDB.get, Lmdb.getRecord, DocumentDB.get, Lmdb.get_id (h.terms f) hi]
    cases L.integer.get (b.termsDbi f) (Lmdb.idKey i) <;> rfl
  hasTerms f _ hi := Lmdb.containsKey_id (h.terms f) hi
  size f := Lmdb.size_eq (h.terms f)
  children _ hi := (Lmdb.getRecord_id h.idTree hi []).trans rfl
  filePath i hi := by
    rw [Lmdb.IdFilenameDB.get, Lmdb.IdFilenameDB.find, Lmdb.getRecord, DocumentUrlDB.filePath,
      Lmdb.get_id h.idFilename hi]
    cases L.integer.get b.idFilenameDbi (Lmdb.idKey i) <;> rfl
  hasPath _ hi := Lmdb.containsKey_id h.idFilename hi
  time _ hi := (Lmdb.getRecord_id h.docTime hi {}).trans rfl
  data _ hi := (Lmdb.getRecord_id h.docData hi []).trans rfl
  contentIndexing _ hi := Lmdb.containsKey_id h.contentIndexing hi
  waiting := Lmdb.fetchItems_eq h.contentIndexing
  waitingSize := Lmdb.size_eq h.contentIndexing
  failed _ hi := Lmdb.containsKey_id h.failedId hi
  failedIds := Lmdb.fetchItems_eq h.failedId
  mtime _ := Lmdb.mtime_returns h.mtime
  mtimeRange _ hbegin endTime := Lmdb.iterRange_returns h.mtime hbegin endTime

end DatabaseDbis

end Baloo
