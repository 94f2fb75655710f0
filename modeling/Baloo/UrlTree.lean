import Baloo.Store

/-!
# The two tables of the URL tree

`DocumentUrlDB` keeps the path of every document as a tree: `IdFilenameDB` maps an entry to its
directory and its name, `IdTreeDB` maps a directory to the entries in it. The operations below edit
the two tables separately, as the source does; that they stay two views of one tree is the subject of
`Baloo.UrlForest`.

Paths are byte strings. What the operations ask of the file system is `lstat`, which gives an
existing path its id.
-/

namespace Baloo

/-- Absolute paths: one or more components, each not empty and with a slash before it. -/
def IsPath (path : QByteArray) : Prop :=
  ∃ components : List QByteArray, components ≠ [] ∧ (∀ name ∈ components, name ≠ [] ∧ slash ∉ name) ∧
    path = (components.map (slash :: ·)).flatten

/-- The file system at one moment: the ids of the existing paths. -/
structure FileSystem where
  /-- the id of a path, if the path exists -/
  lstat : QByteArray → Option DocId
  /-- only absolute paths exist -/
  isPath : ∀ path id, lstat path = some id → IsPath path
  /-- ids are not `0` -/
  ne_zero : ∀ path, lstat path ≠ some 0
  /-- different paths have different ids -/
  injective : ∀ path path' id, lstat path = some id → lstat path' = some id → path = path'

/-- `filePathToId`; `0` for a path that does not exist. -/
def FileSystem.filePathToId (fs : FileSystem) (path : QByteArray) : DocId :=
  (fs.lstat path).getD 0

/-- `QByteArray::lastIndexOf`, `-1` if the byte does not occur. -/
def lastIndexOf (c : UInt8) : QByteArray → ℤ
  | [] => -1
  | b :: bs =>
    let pos := lastIndexOf c bs
    if 0 ≤ pos then pos + 1 else if b = c then 0 else -1

/-- `url.left(pos)` for a position found by `lastIndexOf`; also `resize(pos)`. -/
def left (url : QByteArray) (pos : ℤ) : QByteArray := url.take pos.toNat

/-- `url.mid(pos)`. -/
def mid (url : QByteArray) (pos : ℤ) : QByteArray := url.drop pos.toNat

/-- `DocumentUrlDB`, by the tables it works on. -/
structure DocumentUrlDB where
  /-- the entries of a directory -/
  idTreeDb : IdTreeDB := ∅
  /-- the directory and the name of an entry -/
  idFilenameDb : IdFilenameDB := ∅

namespace DocumentUrlDB

/-- `DocumentUrlDB::add`. -/
def add (db : DocumentUrlDB) (id parentId : DocId) (name : QByteArray) : DocumentUrlDB :=
  if id = 0 ∨ name = [] then db
  else
    { idTreeDb := db.idTreeDb.set parentId (sortedIdInsert (db.idTreeDb.get parentId) id)
      idFilenameDb := db.idFilenameDb.put id { parentId := parentId, name := name } }

/-- The condition under which `DocumentUrlDB::put` adds the entry. -/
def canPut (docId : DocId) (filename : QByteArray) : Bool :=
  docId ≠ 0 && filename ≠ [] && !filename.contains slash

/-- `DocumentUrlDB::put`; `none` stands for `false`. -/
def put (db : DocumentUrlDB) (docId parentId : DocId) (filename : QByteArray) :
    Option DocumentUrlDB :=
  if canPut docId filename then some (db.add docId parentId filename) else none

/-- The loop of `DocumentUrlDB::addPath`. Each round cuts `arr` at its last slash, so the length of
the path bounds the number of rounds. -/
def addPathLoop (fs : FileSystem) :
    ℕ → DocumentUrlDB → QByteArray → DocId → DocumentUrlDB × Bool
  | 0, db, _, _ => (db, false)
  | rounds + 1, db, arr, id =>
    if id = 0 then (db, false)
    else if db.idFilenameDb.contains id then (db, true)
    else
      let pos := lastIndexOf slash arr
      let name := mid arr (pos + 1)
      if pos = 0 then (db.add id 0 name, true)
      else
        let arr := left arr pos
        let parentId := fs.filePathToId arr
        if parentId = 0 then (db, false)
        else addPathLoop fs rounds (db.add id parentId name) arr parentId

/-- `DocumentUrlDB::addPath`. -/
def addPath (fs : FileSystem) (db : DocumentUrlDB) (url : QByteArray) : DocumentUrlDB × Bool :=
  if url = [] ∨ url.getLast? = some slash then (db, false)
  else addPathLoop fs (url.length + 1) db url (fs.filePathToId url)

/-- `IdFilenameDB::get`; an entry that is not stored reads as the default record. -/
def filePath (db : DocumentUrlDB) (id : DocId) : FilePath := (db.idFilenameDb.get id).getD {}

/-- `DocumentUrlDB::updateUrl`. -/
def updateUrl (db : DocumentUrlDB) (id newParentId : DocId) (newName : QByteArray) :
    DocumentUrlDB :=
  let path := db.filePath id
  let idTreeDb :=
    if path.parentId ≠ newParentId then
      let subDocs := db.idTreeDb.get path.parentId
      let tree :=
        -- remove from old parent
        if id ∈ subDocs then db.idTreeDb.set path.parentId (sortedIdRemove subDocs id)
        else db.idTreeDb
      -- add to new parent
      tree.set newParentId (sortedIdInsert (tree.get newParentId) id)
    else db.idTreeDb
  let idFilenameDb :=
    if newName ≠ path.name ∨ newParentId ≠ path.parentId then
      db.idFilenameDb.put id { parentId := newParentId, name := newName }
    else db.idFilenameDb
  { idTreeDb := idTreeDb, idFilenameDb := idFilenameDb }

/-- `DocumentUrlDB::del`. -/
def del (db : DocumentUrlDB) (id : DocId) : DocumentUrlDB :=
  if id = 0 then db
  else
    let path := db.filePath id
    let subDocs := db.idTreeDb.get path.parentId
    { idTreeDb :=
        if id ∈ subDocs then db.idTreeDb.set path.parentId (sortedIdRemove subDocs id)
        else db.idTreeDb
      idFilenameDb := db.idFilenameDb.del id }

/-- `DocumentUrlDB::contains`. -/
def contains (db : DocumentUrlDB) (docId : DocId) : Bool :=
  docId ≠ 0 && db.idFilenameDb.contains docId

/-- The climb of `DocumentUrlDB::get`; `depth_limit` steps are allowed. -/
def getLoop (db : DocumentUrlDB) : ℕ → QByteArray → DocId → QByteArray
  | depth_limit, ret, id =>
    if id = 0 then ret
    else
      match db.idFilenameDb.get id, depth_limit with
      | none, _ => []
      | some _, 0 => []
      | some path, depth_limit + 1 =>
        getLoop db depth_limit (slash :: path.name ++ ret) path.parentId

/-- `DocumentUrlDB::get`: the path of an entry, empty if it is unknown or deeper than 512. -/
def get (db : DocumentUrlDB) (docId : DocId) : QByteArray :=
  if docId = 0 then []
  else
    match db.idFilenameDb.get docId with
    | none => []
    | some path => getLoop db 512 (slash :: path.name) path.parentId

/-- `DocumentUrlDB::getChildren`. -/
def getChildren (db : DocumentUrlDB) (docId : DocId) : List DocId := db.idTreeDb.get docId

/-- `DocumentUrlDB::getId`: the entry of a directory with the given name, `0` if there is none. -/
def getId (db : DocumentUrlDB) (docId : DocId) (fileName : QByteArray) : DocId :=
  if fileName = [] then 0
  else
    ((db.idTreeDb.get docId).find? fun id =>
      match db.idFilenameDb.get id with
      | none => false
      | some path => path.name = fileName).getD 0

/-! ## Entries stay -/

theorem contains_add {db : DocumentUrlDB} {id parentId : DocId} {name : QByteArray} {i : DocId}
    (h : db.idFilenameDb.contains i = true) : (db.add id parentId name).idFilenameDb.contains i = true := by
  rw [add]
  split
  · exact h
  · simp [h]

theorem contains_addPathLoop (fs : FileSystem) {i : DocId} (rounds : ℕ) {db : DocumentUrlDB}
    (h : db.idFilenameDb.contains i = true) (arr : QByteArray) (id : DocId) :
    (addPathLoop fs rounds db arr id).1.idFilenameDb.contains i = true := by
  induction rounds generalizing db arr id with
  | zero => exact h
  | succ rounds ih =>
    rw [addPathLoop]
    split
    · exact h
    · split
      · exact h
      · dsimp only
        split
        · exact contains_add h
        · split
          · exact h
          · exact ih (contains_add h) _ _

theorem contains_addPath (fs : FileSystem) {db : DocumentUrlDB} {i : DocId}
    (h : db.idFilenameDb.contains i = true) (url : QByteArray) :
    (db.addPath fs url).1.idFilenameDb.contains i = true := by
  rw [addPath]
  split
  · exact h
  · exact contains_addPathLoop fs _ h _ _

/-- An entry that is put is stored, and so are the others. -/
theorem contains_put {db db' : DocumentUrlDB} {id parentId : DocId} {filename : QByteArray}
    (h : db.put id parentId filename = some db') (i : DocId) :
    db'.idFilenameDb.contains i = (decide (i = id) || db.idFilenameDb.contains i) := by
  rw [put] at h
  split at h
  · next hput =>
    simp only [canPut, Bool.and_eq_true, decide_eq_true_iff] at hput
    obtain rfl := Option.some.inj h
    rw [add, if_neg (not_or.mpr hput.1), OrdMap.contains_put]
  · cases h

theorem contains_updateUrl {db : DocumentUrlDB} {id parentId : DocId} {name : QByteArray} {i : DocId}
    (h : db.idFilenameDb.contains i = true) : (db.updateUrl id parentId name).idFilenameDb.contains i = true := by
  rw [updateUrl]
  dsimp only
  split
  · rw [OrdMap.contains_put, h, Bool.or_true]
  · exact h

/-! ## The entries above an entry -/

/-- The entry and the entries above it, as far as `get` climbs. -/
def climb (db : DocumentUrlDB) : ℕ → DocId → List DocId
  | 0, _ => []
  | limit + 1, id =>
    if id = 0 then []
    else
      match db.idFilenameDb.get id with
      | none => []
      | some path => id :: climb db limit path.parentId

theorem climb_of_get {db : DocumentUrlDB} {id : DocId} {path : FilePath} (hid : id ≠ 0)
    (h : db.idFilenameDb.get id = some path) (limit : ℕ) :
    db.climb (limit + 1) id = id :: db.climb limit path.parentId := by
  rw [climb, if_neg hid, h]

/-- The entries of a climb are stored. -/
theorem contains_of_mem_climb {db : DocumentUrlDB} {a id : DocId} {limit : ℕ}
    (h : a ∈ db.climb limit id) : a ≠ 0 ∧ db.idFilenameDb.contains a = true := by
  induction limit generalizing id with
  | zero => exact absurd h List.not_mem_nil
  | succ limit ih =>
    rw [climb] at h
    split at h
    · exact absurd h List.not_mem_nil
    · next hid =>
      split at h
      · exact absurd h List.not_mem_nil
      · next path hpath =>
        rcases List.mem_cons.mp h with rfl | h
        · exact ⟨hid, OrdMap.contains_iff.mpr ⟨path, hpath⟩⟩
        · exact ih h

theorem getLoop_root (db : DocumentUrlDB) (limit : ℕ) (ret : QByteArray) : db.getLoop limit ret 0 = ret := by
  simp [getLoop.eq_def]

theorem getLoop_of_none {db : DocumentUrlDB} {id : DocId} (hid : id ≠ 0) (h : db.idFilenameDb.get id = none)
    (limit : ℕ) (ret : QByteArray) : db.getLoop limit ret id = [] := by
  cases limit <;> simp [getLoop, hid, h]

theorem getLoop_limit (db : DocumentUrlDB) {id : DocId} (hid : id ≠ 0) (ret : QByteArray) :
    db.getLoop 0 ret id = [] := by
  rcases hget : db.idFilenameDb.get id with _ | path <;> simp [getLoop, hid, hget]

theorem getLoop_of_some {db : DocumentUrlDB} {id : DocId} {path : FilePath} (hid : id ≠ 0)
    (h : db.idFilenameDb.get id = some path) (limit : ℕ) (ret : QByteArray) :
    db.getLoop (limit + 1) ret id = db.getLoop limit (slash :: path.name ++ ret) path.parentId := by
  simp [getLoop, hid, h]

theorem getLoop_congr {db db' : DocumentUrlDB} {limit : ℕ} {ret : QByteArray} {id : DocId}
    (h : db.getLoop limit ret id ≠ [])
    (hsame : ∀ a ∈ db.climb limit id, db'.idFilenameDb.get a = db.idFilenameDb.get a) :
    db'.getLoop limit ret id = db.getLoop limit ret id := by
  induction limit generalizing ret id with
  | zero =>
    by_cases hid : id = 0
    · rw [hid, getLoop_root, getLoop_root]
    · exact absurd (getLoop_limit db hid ret) h
  | succ limit ih =>
    by_cases hid : id = 0
    · rw [hid, getLoop_root, getLoop_root]
    · rcases hget : db.idFilenameDb.get id with _ | path
      · exact absurd (getLoop_of_none hid hget _ ret) h
      · rw [climb_of_get hid hget] at hsame
        rw [getLoop_of_some hid hget] at h ⊢
        rw [getLoop_of_some hid ((hsame id List.mem_cons_self).trans hget)]
        exact ih h fun a ha => hsame a (List.mem_cons_of_mem _ ha)

/-- The path of an entry depends on the entries above it only. -/
theorem get_congr {db db' : DocumentUrlDB} {id : DocId} (h : db.get id ≠ [])
    (hsame : ∀ a ∈ db.climb 513 id, db'.idFilenameDb.get a = db.idFilenameDb.get a) :
    db'.get id = db.get id := by
  by_cases hid : id = 0
  · rw [get, get, if_pos hid, if_pos hid]
  · rcases hget : db.idFilenameDb.get id with _ | path
    · refine absurd ?_ h
      rw [get, if_neg hid, hget]
    · rw [climb_of_get hid hget] at hsame
      rw [get, if_neg hid, hget] at h
      rw [get, get, if_neg hid, if_neg hid, hsame id List.mem_cons_self, hget]
      exact getLoop_congr h fun a ha => hsame a (List.mem_cons_of_mem _ ha)

/-- An entry with a path is the first one of its climb. -/
theorem mem_climb_of_get {db : DocumentUrlDB} {id : DocId} (h : db.get id ≠ []) (limit : ℕ) :
    id ∈ db.climb (limit + 1) id := by
  by_cases hid : id = 0
  · exact absurd (by rw [get, if_pos hid]) h
  · rcases hget : db.idFilenameDb.get id with _ | path
    · exact absurd (by rw [get, if_neg hid, hget]) h
    · rw [climb_of_get hid hget]
      exact List.mem_cons_self

/-- Entries have been removed, and nothing else has changed. -/
def Pruned (db db' : DocumentUrlDB) : Prop :=
  ∀ i, db'.idFilenameDb.get i = none ∨ db'.idFilenameDb.get i = db.idFilenameDb.get i

theorem Pruned.refl (db : DocumentUrlDB) : db.Pruned db := fun _ => .inr rfl

theorem Pruned.trans {db db' db'' : DocumentUrlDB} (h : db.Pruned db') (h' : db'.Pruned db'') :
    db.Pruned db'' := by
  intro i
  rcases h' i with hi | hi
  · exact .inl hi
  · rcases h i with hi' | hi'
    · exact .inl (hi.trans hi')
    · exact .inr (hi.trans hi')

theorem Pruned.contains {db db' : DocumentUrlDB} (h : db.Pruned db') {i : DocId}
    (hi : db'.contains i = true) : db.contains i = true := by
  rw [DocumentUrlDB.contains, Bool.and_eq_true] at hi ⊢
  obtain ⟨path, hpath⟩ := OrdMap.contains_iff.mp hi.2
  refine ⟨hi.1, OrdMap.contains_iff.mpr ⟨path, ?_⟩⟩
  exact ((h i).resolve_left (by rw [hpath]; exact Option.some_ne_none _)).symm.trans hpath

theorem idFilenameDb_del (db : DocumentUrlDB) (id i : DocId) :
    (db.del id).idFilenameDb.get i = if i = id ∧ id ≠ 0 then none else db.idFilenameDb.get i := by
  rw [del]
  split
  · next hid => rw [if_neg fun h => h.2 hid]
  · next hid => simp [hid]

/-- A known entry gets the new place. -/
theorem idFilenameDb_updateUrl {db : DocumentUrlDB} {id : DocId} {path : FilePath} {p : DocId} {name : QByteArray}
    (h : db.idFilenameDb.get id = some path) (i : DocId) : (db.updateUrl id p name).idFilenameDb.get i =
      if i = id then some { parentId := p, name := name } else db.idFilenameDb.get i := by
  have hpath : db.filePath id = path := by rw [filePath, h, Option.getD_some]
  rw [updateUrl]
  dsimp only
  split
  · rw [OrdMap.get_put]
  · next hsame =>
    rw [hpath, not_or, not_not, not_not] at hsame
    split
    · next hi => rw [hi, h, hsame.1, hsame.2]
    · rfl

/-- An entry that is where it is to be is left alone. -/
theorem updateUrl_same {db : DocumentUrlDB} {id p : DocId} {name : QByteArray}
    (h : db.idFilenameDb.get id = some { parentId := p, name := name }) : db.updateUrl id p name = db := by
  have hpath : db.filePath id = { parentId := p, name := name } := by rw [filePath, h, Option.getD_some]
  simp [updateUrl, hpath]

theorem pruned_del (db : DocumentUrlDB) (id : DocId) : db.Pruned (db.del id) := by
  intro i
  rw [idFilenameDb_del]
  split
  · exact .inl rfl
  · exact .inr rfl

/-- A path that is still there is the path that was there. -/
theorem Pruned.get_eq {db db' : DocumentUrlDB} (h : db.Pruned db') {id : DocId} (hget : db'.get id ≠ []) :
    db.get id = db'.get id :=
  get_congr hget fun a ha => by
    obtain ⟨path, hpath⟩ := OrdMap.contains_iff.mp (contains_of_mem_climb ha).2
    exact ((h a).resolve_left (by rw [hpath]; exact Option.some_ne_none _)).symm

theorem Pruned.getLoop_eq_nil {db db' : DocumentUrlDB} (h : db.Pruned db') {limit : ℕ}
    {ret : QByteArray} {id a : DocId} (ha : a ∈ db.climb limit id)
    (hgone : db'.idFilenameDb.get a = none) : db'.getLoop limit ret id = [] := by
  induction limit generalizing ret id with
  | zero => exact absurd ha List.not_mem_nil
  | succ limit ih =>
    by_cases hid : id = 0
    · rw [climb, if_pos hid] at ha
      exact absurd ha List.not_mem_nil
    · rcases h id with hnone | hsame
      · exact getLoop_of_none hid hnone _ ret
      · rcases hget : db.idFilenameDb.get id with _ | path
        · exact getLoop_of_none hid (hsame.trans hget) _ ret
        · rw [climb_of_get hid hget] at ha
          rw [getLoop_of_some hid (hsame.trans hget)]
          rcases List.mem_cons.mp ha with rfl | ha
          · exact absurd (hgone.symm.trans (hsame.trans hget)) (Option.some_ne_none path).symm
          · exact ih ha

/-- Without an entry above it an entry has no path. -/
theorem Pruned.get_eq_nil {db db' : DocumentUrlDB} (h : db.Pruned db') {id a : DocId}
    (ha : a ∈ db.climb 513 id) (hgone : db'.idFilenameDb.get a = none) : db'.get id = [] := by
  by_cases hid : id = 0
  · rw [get, if_pos hid]
  · rw [get, if_neg hid]
    rcases h id with hnone | hsame
    · rw [hnone]
    · rcases hget : db.idFilenameDb.get id with _ | path
      · rw [hsame, hget]
      · rw [climb_of_get hid hget] at ha
        rw [hsame, hget]
        rcases List.mem_cons.mp ha with rfl | ha
        · exact absurd (hgone.symm.trans (hsame.trans hget)) (Option.some_ne_none path).symm
        · exact h.getLoop_eq_nil ha hgone

end DocumentUrlDB

end Baloo
