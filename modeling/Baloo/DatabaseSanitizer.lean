import Baloo.DatabaseChecks
import Baloo.FileIds

/-!
# Removing stale entries

`DatabaseSanitizer` lists the entries of the URL tree, with filters for devices, accessibility and paths,
and removes those whose file is gone. An entry is taken from the list by its own path alone: a device that is
ignored, a symbolic link, a path that the filter does not match keep it. So a directory can go while an entry
in it stays. `removeStaleEntries_spec` says which documents go and that the summary counts them;
`isForest_removeStaleEntries_iff` says when what is left is a tree.
-/

namespace Baloo

open DocumentUrlDB (IsForest)
open Forest (Above)

/-- The ids `DocumentUrlDB::toTestMap` collects, in the order in which it comes to them. -/
def DocumentUrlDB.treeIds (db : DocumentUrlDB) : List DocId := db.idTreeDb.toList.flatMap fun it => it.1 :: it.2

/-- `DocumentUrlDB::toTestMap`. The ids pass through a hash set, whose order does not matter as each is inserted with
its own path. -/
def DocumentUrlDB.toTestMap (db : DocumentUrlDB) : OrdMap DocId QByteArray :=
  db.treeIds.foldl (fun map id => if id ≠ 0 then map.put id (db.get id) else map) ∅

namespace DatabaseSanitizer

/-- `DatabaseSanitizer::ItemAccessFilters`. -/
structure ItemAccessFilters where
  ignoreAvailable : Bool := false
  ignoreUnavailable : Bool := false
  ignoreMounted : Bool := false
  ignoreUnmounted : Bool := false
  deriving DecidableEq

/-- `DatabaseSanitizerImpl::FileInfo`. -/
structure FileInfo where
  deviceId : ℕ := 0
  inode : ℕ := 0
  id : DocId := 0
  isSymLink : Bool := false
  accessible : Bool := true
  url : QByteArray := []
  deriving DecidableEq

/-- `DatabaseSanitizerImpl::Summary`, three numbers of 64 bits. -/
structure Summary where
  /-- count of all files -/
  total : ℕ := 0
  /-- count of filtered out files -/
  ignored : ℕ := 0
  /-- count of checked and accessible files -/
  accessible : ℕ := 0
  deriving DecidableEq

/-- What is asked of the system. -/
structure Disk where
  /-- `QFileInfo::exists`, which follows symbolic links -/
  fileExists : QByteArray → Bool
  /-- `QFileInfo::isSymLink` -/
  isSymLink : QByteArray → Bool
  /-- the type of the file system of a device, if one is mounted -/
  storageInfo : ℕ → Option QByteArray

/-- The device ids to collect: the positive numbers, cut to 32 bits. -/
def includeIds (deviceIds : List ℤ) : List ℕ :=
  (deviceIds.filter fun deviceId => 0 < deviceId).map fun deviceId => deviceId.toNat % 2 ^ 32

/-- The device ids to leave out: the negative numbers. -/
def excludeIds (deviceIds : List ℤ) : List ℕ :=
  (deviceIds.filter fun deviceId => deviceId < 0).map fun deviceId => (-deviceId).toNat % 2 ^ 32

/-- One round of the loop of `DatabaseSanitizerImpl::createList`. -/
def createListStep (disk : Disk) (deviceIds : List ℤ) (accessFilter : ItemAccessFilters)
    (urlFilter : Option (QByteArray → Bool)) (s : List FileInfo × Summary) (it : DocId × QByteArray) :
    List FileInfo × Summary :=
  let deviceId := idToDeviceId it.1
  if includeIds deviceIds ≠ [] ∧ deviceId ∉ includeIds deviceIds then s
  else if deviceId ∈ excludeIds deviceIds then s
  else if urlFilter.any fun hasMatch => !hasMatch it.2 then s
  else
    let accessible := it.2 ≠ [] && disk.fileExists it.2
    if accessible && accessFilter.ignoreAvailable then s
    else if !accessible && accessFilter.ignoreUnavailable then s
    else
      let info : FileInfo :=
        { deviceId := deviceId, inode := idToInode it.1, id := it.1, url := it.2, accessible := accessible
          isSymLink := disk.isSymLink it.2 }
      (s.1 ++ [info], { s.2 with
        ignored := s.2.ignored - 1, accessible := if accessible then s.2.accessible + 1 else s.2.accessible })

/-- `DatabaseSanitizerImpl::createList`. -/
def createList (disk : Disk) (db : Database) (deviceIds : List ℤ) (accessFilter : ItemAccessFilters)
    (urlFilter : Option (QByteArray → Bool)) : List FileInfo × Summary :=
  let map := db.docUrlDb.toTestMap
  let max := map.toList.length
  map.toList.foldl (createListStep disk deviceIds accessFilter urlFilter) ([], { total := max, ignored := max })

/-- `"tmpfs"`. -/
def tmpfs : QByteArray := [116, 109, 112, 102, 115]

/-- `DatabaseSanitizerImpl::isIgnored`. -/
def isIgnored (storageInfo : Option QByteArray) (accessFilter : ItemAccessFilters) : Bool :=
  if storageInfo.isSome && accessFilter.ignoreMounted then true
  else if !storageInfo.isSome && accessFilter.ignoreUnmounted then true
  else storageInfo = some tmpfs

/-- `DatabaseSanitizerImpl::deviceFilters`. -/
def deviceFilters (disk : Disk) (infos : List FileInfo) (accessFilter : ItemAccessFilters) : OrdMap ℕ Bool :=
  infos.foldl (fun result info => result.put info.deviceId (isIgnored (disk.storageInfo info.deviceId) accessFilter)) ∅

/-- The line printed about an entry. -/
inductive Line where
  | ignoredSymbolicLink (info : FileInfo)
  | removing (info : FileInfo)
  deriving DecidableEq

/-- The variables of `DatabaseSanitizer::removeStaleEntries`. -/
structure Cleaning where
  /-- the transaction -/
  transaction : WriteTransaction
  /-- the summary -/
  summary : Summary
  /-- what has been printed -/
  out : List Line := []

/-- One round of the loop of `DatabaseSanitizer::removeStaleEntries`. -/
def removeStep (ignoredDevices : OrdMap ℕ Bool) (s : Cleaning) (info : FileInfo) : Cleaning :=
  if (ignoredDevices.get info.deviceId).getD false then
    { s with summary := { s.summary with ignored := s.summary.ignored + 1 } }
  else if info.isSymLink then
    { s with
      summary := { s.summary with ignored := s.summary.ignored + 1 }
      out := s.out ++ [.ignoredSymbolicLink info] }
  else { s with transaction := s.transaction.removeDocument info.id, out := s.out ++ [.removing info] }

/-- The loop of `DatabaseSanitizer::removeStaleEntries`, which looks at inaccessible entries only. -/
def clean (disk : Disk) (db : Database) (deviceIds : List ℤ) (accessFilter : ItemAccessFilters)
    (urlFilter : Option (QByteArray → Bool)) : Cleaning :=
  let listResult := createList disk db deviceIds { ignoreAvailable := true } urlFilter
  let ignoredDevices := deviceFilters disk listResult.1 accessFilter
  listResult.1.foldl (removeStep ignoredDevices) { transaction := { dbis := db }, summary := listResult.2 }

/-- `DatabaseSanitizer::removeStaleEntries`: the database afterwards, and what the last line counts as removed.
`order` is the order in which the commit visits the terms. -/
def removeStaleEntries (disk : Disk) (db : Database) (deviceIds : List ℤ)
    (accessFilter : ItemAccessFilters) (dryRun : Bool) (urlFilter : Option (QByteArray → Bool))
    (order : List Term) : Database × ℕ :=
  let s := clean disk db deviceIds accessFilter urlFilter
  (if dryRun then db else s.transaction.commit order, s.summary.total - s.summary.ignored)

/-! ## The list -/

section List

variable (disk : Disk) (deviceIds : List ℤ) (accessFilter : ItemAccessFilters) (urlFilter : Option (QByteArray → Bool))

/-- Do the filters for devices and paths keep the entry? -/
def matchesFilters (it : DocId × QByteArray) : Bool :=
  (includeIds deviceIds = [] || (includeIds deviceIds).contains (idToDeviceId it.1)) &&
    !(excludeIds deviceIds).contains (idToDeviceId it.1) && urlFilter.all fun hasMatch => hasMatch it.2

/-- Is there a file at the path? -/
def isAccessible (url : QByteArray) : Bool := url ≠ [] && disk.fileExists url

/-- Is the entry collected? -/
def isCollected (it : DocId × QByteArray) : Bool :=
  matchesFilters deviceIds urlFilter it && !(isAccessible disk it.2 && accessFilter.ignoreAvailable) &&
    !(!isAccessible disk it.2 && accessFilter.ignoreUnavailable)

/-- What is collected about an entry. -/
def infoOf (it : DocId × QByteArray) : FileInfo where
  deviceId := idToDeviceId it.1
  inode := idToInode it.1
  id := it.1
  isSymLink := disk.isSymLink it.2
  accessible := isAccessible disk it.2
  url := it.2

theorem createListStep_eq (s : List FileInfo × Summary) (it : DocId × QByteArray) :
    createListStep disk deviceIds accessFilter urlFilter s it =
      if isCollected disk deviceIds accessFilter urlFilter it then
        (s.1 ++ [infoOf disk it], { s.2 with
          ignored := s.2.ignored - 1
          accessible := if isAccessible disk it.2 then s.2.accessible + 1 else s.2.accessible })
      else s := by
  have hmatches : matchesFilters deviceIds urlFilter it = true ↔
      ¬(includeIds deviceIds ≠ [] ∧ idToDeviceId it.1 ∉ includeIds deviceIds) ∧
        idToDeviceId it.1 ∉ excludeIds deviceIds ∧ ¬(urlFilter.any fun hasMatch => !hasMatch it.2) = true := by
    simp only [matchesFilters, Bool.and_eq_true, Bool.or_eq_true, decide_eq_true_iff, Bool.not_eq_true',
      List.contains_eq_mem, decide_eq_false_iff_not]
    cases urlFilter <;> simp <;> tauto
  have hcollected : isCollected disk deviceIds accessFilter urlFilter it = (matchesFilters deviceIds urlFilter it &&
      !(isAccessible disk it.2 && accessFilter.ignoreAvailable) &&
        !(!isAccessible disk it.2 && accessFilter.ignoreUnavailable)) := rfl
  by_cases hmatch : matchesFilters deviceIds urlFilter it = true
  · obtain ⟨hinclude, hexclude, hurl⟩ := hmatches.mp hmatch
    rw [createListStep]
    dsimp only
    rw [if_neg hinclude, if_neg hexclude, if_neg hurl, hcollected, hmatch, Bool.true_and]
    change (if isAccessible disk it.2 && accessFilter.ignoreAvailable then s
      else if !isAccessible disk it.2 && accessFilter.ignoreUnavailable then s
      else (s.1 ++ [infoOf disk it], { s.2 with
        ignored := s.2.ignored - 1
        accessible := if isAccessible disk it.2 then s.2.accessible + 1 else s.2.accessible })) = _
    cases isAccessible disk it.2 <;> cases accessFilter.ignoreAvailable <;> cases accessFilter.ignoreUnavailable <;> rfl
  · have hno : ¬isCollected disk deviceIds accessFilter urlFilter it = true := by
      rw [hcollected, Bool.eq_false_iff.mpr hmatch]
      exact Bool.false_ne_true
    rw [if_neg hno, createListStep]
    dsimp only
    refine ite_eq_left_iff.mpr fun hinclude => ite_eq_left_iff.mpr fun hexclude => ite_eq_left_iff.mpr fun hurl => ?_
    exact absurd (hmatches.mpr ⟨hinclude, hexclude, hurl⟩) hmatch

theorem foldl_createListStep (its : List (DocId × QByteArray)) (infos : List FileInfo) (summary : Summary) :
    its.foldl (createListStep disk deviceIds accessFilter urlFilter) (infos, summary) =
      let collected := its.filter (isCollected disk deviceIds accessFilter urlFilter)
      (infos ++ collected.map (infoOf disk), { summary with
        ignored := summary.ignored - collected.length
        accessible := summary.accessible + collected.countP fun it => isAccessible disk it.2 }) := by
  induction its generalizing infos summary with
  | nil => simp
  | cons it its ih =>
    rw [List.foldl_cons, createListStep_eq]
    by_cases hit : isCollected disk deviceIds accessFilter urlFilter it = true
    · rw [if_pos hit, ih]
      simp only [List.filter_cons_of_pos hit, List.map_cons, List.length_cons, List.countP_cons, List.append_assoc,
        List.singleton_append, Nat.sub_sub]
      congr 2
      · omega
      · split <;> omega
    · rw [if_neg hit, ih, List.filter_cons_of_neg hit]

/-- The list has the entries that the filters keep, and the summary counts what they leave out and how many of
the others are accessible. -/
theorem createList_eq (db : Database) : createList disk db deviceIds accessFilter urlFilter =
    let collected := db.docUrlDb.toTestMap.toList.filter (isCollected disk deviceIds accessFilter urlFilter)
    (collected.map (infoOf disk), {
      total := db.docUrlDb.toTestMap.toList.length
      ignored := db.docUrlDb.toTestMap.toList.length - collected.length
      accessible := collected.countP fun it => isAccessible disk it.2 }) := by
  simp only [createList, foldl_createListStep, List.nil_append, Nat.zero_add]

/-! ## What is removed -/

/-- Is the entry removed? -/
def isStale (it : DocId × QByteArray) : Bool :=
  matchesFilters deviceIds urlFilter it && !isAccessible disk it.2 &&
    !isIgnored (disk.storageInfo (idToDeviceId it.1)) accessFilter && !disk.isSymLink it.2

/-- The documents that are removed. -/
def staleIds (db : Database) : List DocId :=
  (db.docUrlDb.toTestMap.toList.filter (isStale disk deviceIds accessFilter urlFilter)).map Prod.fst

theorem get_deviceFilters (infos : List FileInfo) (d : ℕ) : (deviceFilters disk infos accessFilter).get d =
    if d ∈ infos.map FileInfo.deviceId then some (isIgnored (disk.storageInfo d) accessFilter) else none := by
  have hfold : ∀ result : OrdMap ℕ Bool, (infos.foldl (fun result info =>
      result.put info.deviceId (isIgnored (disk.storageInfo info.deviceId) accessFilter)) result).get d =
      if d ∈ infos.map FileInfo.deviceId then some (isIgnored (disk.storageInfo d) accessFilter) else result.get d := by
    induction infos with
    | nil => intro result; rfl
    | cons info infos ih =>
      intro result
      rw [List.foldl_cons, ih, OrdMap.get_put]
      rcases eq_or_ne d info.deviceId with rfl | hd
      · simp
      · simp [hd]
  exact hfold ∅

/-- The loop removes the entries that are inaccessible, on a device that counts, and no symbolic link. -/
theorem foldl_removeStep (ignoredDevices : OrdMap ℕ Bool) (infos : List FileInfo) (s : Cleaning)
    (hdevices : ∀ info ∈ infos, ignoredDevices.get info.deviceId =
      some (isIgnored (disk.storageInfo info.deviceId) accessFilter)) :
    let gone := infos.filter fun info =>
      !isIgnored (disk.storageInfo info.deviceId) accessFilter && !info.isSymLink
    (infos.foldl (removeStep ignoredDevices) s).transaction =
      (gone.map FileInfo.id).foldl WriteTransaction.removeDocument s.transaction ∧
    (infos.foldl (removeStep ignoredDevices) s).summary =
      { s.summary with ignored := s.summary.ignored + infos.length - gone.length } := by
  induction infos generalizing s with
  | nil => exact ⟨rfl, rfl⟩
  | cons info infos ih =>
    have hdevice := hdevices info List.mem_cons_self
    obtain ⟨htransaction, hsummary⟩ := ih (removeStep ignoredDevices s info) fun i hi =>
      hdevices i (List.mem_cons_of_mem _ hi)
    have hle : (infos.filter fun info =>
        !isIgnored (disk.storageInfo info.deviceId) accessFilter && !info.isSymLink).length ≤ infos.length :=
      List.length_filter_le ..
    rw [List.foldl_cons, htransaction, hsummary, removeStep, hdevice, Option.getD_some, List.length_cons]
    dsimp only
    by_cases hignored : isIgnored (disk.storageInfo info.deviceId) accessFilter = true
    · rw [if_pos hignored, List.filter_cons_of_neg (by simp [hignored])]
      refine ⟨rfl, ?_⟩
      congr 1
      simp only
      omega
    · rw [if_neg hignored]
      by_cases hlink : info.isSymLink = true
      · rw [if_pos hlink, List.filter_cons_of_neg (by simp [hlink])]
        refine ⟨rfl, ?_⟩
        congr 1
        simp only
        omega
      · rw [if_neg hlink, List.filter_cons_of_pos (by simp [hignored, hlink])]
        refine ⟨rfl, ?_⟩
        congr 1
        simp only [List.length_cons]
        omega

/-- The loop as a whole: the stale documents are removed one after another, and the others are counted as ignored. -/
theorem clean_eq (db : Database) :
    (clean disk db deviceIds accessFilter urlFilter).transaction =
      (staleIds disk deviceIds accessFilter urlFilter db).foldl WriteTransaction.removeDocument { dbis := db } ∧
    (clean disk db deviceIds accessFilter urlFilter).summary = {
      total := db.docUrlDb.toTestMap.toList.length
      ignored := db.docUrlDb.toTestMap.toList.length - (staleIds disk deviceIds accessFilter urlFilter db).length
      accessible := 0 } := by
  have hlist := createList_eq disk deviceIds { ignoreAvailable := true } urlFilter db
  have hcollected : ∀ it, isCollected disk deviceIds { ignoreAvailable := true } urlFilter it =
      (matchesFilters deviceIds urlFilter it && !isAccessible disk it.2) := fun it => by
    simp [isCollected]
  simp only [funext hcollected] at hlist
  generalize hmap : db.docUrlDb.toTestMap.toList = its at hlist
  obtain ⟨htransaction, hsummary⟩ := foldl_removeStep disk accessFilter
    (deviceFilters disk (createList disk db deviceIds { ignoreAvailable := true } urlFilter).1 accessFilter)
    (createList disk db deviceIds { ignoreAvailable := true } urlFilter).1
    { transaction := { dbis := db }, summary := (createList disk db deviceIds { ignoreAvailable := true } urlFilter).2 }
    fun info hinfo => by rw [get_deviceFilters, if_pos (List.mem_map_of_mem hinfo)]
  have hgone : ((createList disk db deviceIds { ignoreAvailable := true } urlFilter).1.filter fun info =>
      !isIgnored (disk.storageInfo info.deviceId) accessFilter && !info.isSymLink).map FileInfo.id =
      staleIds disk deviceIds accessFilter urlFilter db := by
    rw [hlist, List.filter_map, List.map_map, List.filter_filter, staleIds, hmap]
    refine congrArg _ (List.filter_congr fun it _ => ?_)
    simp only [Function.comp_apply, infoOf, isStale]
    rw [Bool.and_comm]
    simp only [Bool.and_assoc]
  refine ⟨htransaction.trans (by rw [hgone]), hsummary.trans ?_⟩
  have hlength := congrArg List.length hgone
  rw [List.length_map] at hlength
  rw [hlength, hlist]
  simp only [List.length_map]
  have hle : (its.filter fun it =>
      matchesFilters deviceIds urlFilter it && !isAccessible disk it.2).length ≤ its.length :=
    List.length_filter_le ..
  congr 1
  · omega
  · rw [List.countP_eq_zero]
    intro it hit
    have hinaccessible := (List.mem_filter.mp hit).2
    simp only [Bool.and_eq_true, Bool.not_eq_true'] at hinaccessible
    simp [hinaccessible.2]

/-! ## The removal in a run -/

variable {disk deviceIds accessFilter urlFilter} {db : Database} {A : Index}

theorem get_toTestMap (db : DocumentUrlDB) (id : DocId) : db.toTestMap.get id =
    if id ∈ db.treeIds ∧ id ≠ 0 then some (db.get id) else none := by
  have hfold : ∀ (ids : List DocId) (map : OrdMap DocId QByteArray),
      (ids.foldl (fun map id => if id ≠ 0 then map.put id (db.get id) else map) map).get id =
        if id ∈ ids ∧ id ≠ 0 then some (db.get id) else map.get id := by
    intro ids
    induction ids with
    | nil => intro map; simp
    | cons i ids ih =>
      intro map
      rw [List.foldl_cons, ih]
      rcases eq_or_ne id i with rfl | hi
      · by_cases hid : id = 0 <;> simp [hid]
      · have hmem : id ∈ i :: ids ↔ id ∈ ids := by simp [hi]
        by_cases hi0 : i = 0
        · rw [if_neg (not_not.mpr hi0)]
          simp only [hmem]
        · rw [if_pos hi0]
          simp only [hmem, OrdMap.get_put, if_neg hi]
  exact hfold db.treeIds ∅

/-- In a forest the ids of the tree are the entries and the root. -/
theorem mem_treeIds {db : DocumentUrlDB} (h : db.IsForest) (id : DocId) :
    id ∈ db.treeIds ∧ id ≠ 0 ↔ db.idFilenameDb.contains id = true := by
  rw [← DocumentUrlDB.exists_parent, DocumentUrlDB.treeIds, List.mem_flatMap]
  constructor
  · rintro ⟨⟨⟨p, list⟩, hmem, hid⟩, hne⟩
    have hlist : db.idTreeDb.get p = list := by
      rw [IdTreeDB.get, OrdMap.values, OrdMap.mem_toList.mp hmem, Option.getD_some]
    rcases List.mem_cons.mp hid with rfl | hid
    · -- a directory that is listed has an entry below it
      have hlist' : list ≠ [] := by
        rintro rfl
        exact h.nonempty _ (OrdMap.mem_toList.mp hmem)
      obtain ⟨j, hj⟩ := List.exists_mem_of_ne_nil _ hlist'
      have hparent := (h.listed j _).mp (hlist.symm ▸ hj)
      have habove : Above db.parent _ j := .single hparent
      rcases (h.rooted j _ hparent).above habove h.zero with hzero | hentry
      · exact absurd hzero hne
      · exact hentry
    · exact ⟨p, (h.listed id p).mp (hlist.symm ▸ hid)⟩
  · rintro ⟨p, hp⟩
    have hid := (h.listed id p).mpr hp
    refine ⟨?_, h.ne_zero hp⟩
    rcases hget : OrdMap.get db.idTreeDb p with _ | list
    · rw [IdTreeDB.get, OrdMap.values, hget] at hid
      exact absurd hid List.not_mem_nil
    · rw [IdTreeDB.get, OrdMap.values, hget] at hid
      exact ⟨(p, list), OrdMap.mem_toList.mpr hget, List.mem_cons_of_mem _ hid⟩

theorem mem_staleIds {id : DocId} : id ∈ staleIds disk deviceIds accessFilter urlFilter db ↔
    (id ∈ db.docUrlDb.treeIds ∧ id ≠ 0) ∧
      isStale disk deviceIds accessFilter urlFilter (id, db.docUrlDb.get id) = true := by
  simp only [staleIds, List.mem_map, List.mem_filter, Prod.exists, OrdMap.mem_toList, get_toTestMap, exists_and_right,
    exists_eq_right]
  constructor
  · rintro ⟨url, hget, hstale⟩
    split at hget
    · next hid =>
      obtain rfl := Option.some.inj hget
      exact ⟨hid, hstale⟩
    · cases hget
  · rintro ⟨hid, hstale⟩
    exact ⟨_, if_pos hid, hstale⟩

/-- What is left of an index. -/
theorem foldl_forget (ids : List DocId) (A : Index) :
    ids.foldl Index.forget A = fun i => if i ∈ ids then fun _ => ∅ else A i := by
  induction ids generalizing A with
  | nil => simp
  | cons id ids ih =>
    rw [List.foldl_cons, ih]
    funext i
    rcases eq_or_ne i id with rfl | hi
    · simp
    · simp only [List.mem_cons, hi, false_or, A.forget_of_ne hi]

theorem steps_foldl_removeDocument (admits : Index → Document → (Family → Bool) → Prop) (ids : List DocId)
    (w : WriteTransaction) (A : Index) : Relation.ReflTransGen (Step admits) (w, A)
      (ids.foldl WriteTransaction.removeDocument w, ids.foldl Index.forget A) := by
  induction ids generalizing w A with
  | nil => exact .refl
  | cons id ids ih => exact .head (.removeDocument id) (ih _ _)

theorem parent_foldl_removeDocument {ids : List DocId} (hids : 0 ∉ ids) (w : WriteTransaction) (i : DocId) :
    (ids.foldl WriteTransaction.removeDocument w).dbis.docUrlDb.parent i =
      if i ∈ ids then none else w.dbis.docUrlDb.parent i := by
  induction ids generalizing w with
  | nil => rfl
  | cons id ids ih =>
    have hid : id ≠ 0 := fun h => hids (h ▸ List.mem_cons_self)
    rw [List.foldl_cons, ih fun h => hids (List.mem_cons_of_mem _ h)]
    change (if i ∈ ids then none else (w.dbis.docUrlDb.del id).parent i) = _
    rw [DocumentUrlDB.parent_del hid]
    rcases eq_or_ne i id with rfl | hi
    · simp
    · simp [hi]

/-- **The stale documents are forgotten and nothing else.** A run may go on with the database that the removal
leaves, in which the documents that were not stale have what they had; as many are counted as were removed. -/
theorem removeStaleEntries_spec {admits : Index → Document → (Family → Bool) → Prop} (h : Committed admits db A)
    {order : List Term}
    (horder : order.Perm (clean disk db deviceIds accessFilter urlFilter).transaction.pendingOperations.keys) :
    let stale := staleIds disk deviceIds accessFilter urlFilter db
    let r := removeStaleEntries disk db deviceIds accessFilter false urlFilter order
    Committed admits r.1 (fun i => if i ∈ stale then fun _ => ∅ else A i) ∧ r.2 = stale.length ∧
      removeStaleEntries disk db deviceIds accessFilter true urlFilter order = (db, stale.length) ∧
      ∀ id, id ∈ stale ↔ (id ∈ db.docUrlDb.treeIds ∧ id ≠ 0) ∧
        isStale disk deviceIds accessFilter urlFilter (id, db.docUrlDb.get id) = true := by
  obtain ⟨htransaction, hsummary⟩ := clean_eq disk deviceIds accessFilter urlFilter db
  have hcount : (clean disk db deviceIds accessFilter urlFilter).summary.total -
      (clean disk db deviceIds accessFilter urlFilter).summary.ignored =
        (staleIds disk deviceIds accessFilter urlFilter db).length := by
    have hle : (staleIds disk deviceIds accessFilter urlFilter db).length ≤ db.docUrlDb.toTestMap.toList.length := by
      rw [staleIds, List.length_map]
      exact List.length_filter_le ..
    rw [hsummary]
    exact Nat.sub_sub_self hle
  refine ⟨?_, hcount, Prod.ext rfl hcount, fun id => mem_staleIds⟩
  rw [← foldl_forget]
  rw [htransaction] at horder
  have hrun := steps_foldl_removeDocument admits (staleIds disk deviceIds accessFilter urlFilter db) { dbis := db } A
  have hcommitted := h.transaction hrun horder
  rwa [← htransaction] at hcommitted

/-- Removing entries from a forest leaves a forest exactly if no entry stays behind in a directory that goes. -/
theorem isForest_foldl_removeDocument {ids : List DocId} (hids : 0 ∉ ids) (w : WriteTransaction)
    (h : w.dbis.docUrlDb.IsForest) : (ids.foldl WriteTransaction.removeDocument w).dbis.docUrlDb.IsForest ↔
      ∀ i p, w.dbis.docUrlDb.parent i = some p → i ∉ ids → p ∉ ids := by
  have hconsistent : (ids.foldl WriteTransaction.removeDocument w).dbis.docUrlDb.Consistent := by
    refine List.foldlRecOn ids WriteTransaction.removeDocument (motive := fun w => w.dbis.docUrlDb.Consistent)
      h.toConsistent fun w hw id _ => ?_
    exact DocumentUrlDB.Consistent.del hw
  have hparent := parent_foldl_removeDocument hids w
  constructor
  · intro hforest i p hp hi hpids
    have hp' : (ids.foldl WriteTransaction.removeDocument w).dbis.docUrlDb.parent i = some p := by
      rw [hparent, if_neg hi, hp]
    rcases (hforest.rooted i p hp').above (.single hp') hforest.zero with rfl | ⟨q, hq⟩
    · exact hids hpids
    · rw [hparent, if_pos hpids] at hq
      cases hq
  · intro hkept
    refine ⟨hconsistent, fun i p hp => ?_⟩
    rw [hparent] at hp
    split at hp
    · cases hp
    · next hi =>
      -- no entry above `i` goes
      have habove : ∀ j, Above w.dbis.docUrlDb.parent j i → j ∉ ids := by
        intro j hj
        induction hj with
        | refl => exact hi
        | tail _ hstep ih => exact hkept _ _ hstep ih
      refine (h.rooted i p hp).congr fun j hj _ => ?_
      rw [hparent, if_neg (habove j hj)]

/-- **The removal keeps the tree a tree exactly if it leaves no entry behind in a directory that it removes.**
A device that is ignored, a symbolic link or a path that the filter does not match can do that. -/
theorem isForest_removeStaleEntries_iff (h : db.docUrlDb.IsForest) (order : List Term) :
    (removeStaleEntries disk db deviceIds accessFilter false urlFilter order).1.docUrlDb.IsForest ↔
      ∀ i p, db.docUrlDb.parent i = some p →
        isStale disk deviceIds accessFilter urlFilter (i, db.docUrlDb.get i) = false → p ≠ 0 →
        isStale disk deviceIds accessFilter urlFilter (p, db.docUrlDb.get p) = false := by
  have hzero : 0 ∉ staleIds disk deviceIds accessFilter urlFilter db := by
    rw [mem_staleIds, mem_treeIds h, ← DocumentUrlDB.exists_parent]
    rintro ⟨⟨p, hp⟩, -⟩
    exact h.ne_zero hp rfl
  have htables : (removeStaleEntries disk db deviceIds accessFilter false urlFilter order).1.docUrlDb =
      ((staleIds disk deviceIds accessFilter urlFilter db).foldl WriteTransaction.removeDocument
        { dbis := db }).dbis.docUrlDb := by
    rw [← (clean_eq disk deviceIds accessFilter urlFilter db).1]
    exact docUrlDb_commit _ order
  rw [htables, isForest_foldl_removeDocument hzero _ h]
  simp only [mem_staleIds, mem_treeIds h, not_and, Bool.not_eq_true]
  refine forall₂_congr fun i p => forall_congr' fun hp => ?_
  have hi : db.docUrlDb.idFilenameDb.contains i = true := DocumentUrlDB.exists_parent.mp ⟨p, hp⟩
  have hentry : p ≠ 0 ↔ db.docUrlDb.idFilenameDb.contains p = true := by
    rw [← DocumentUrlDB.exists_parent]
    refine ⟨fun hne => ((h.rooted i p hp).above (.single hp) h.zero).resolve_left hne, ?_⟩
    rintro ⟨q, hq⟩
    exact h.ne_zero hq
  rw [hentry]
  exact ⟨fun hkept hstale => hkept fun _ => hstale, fun hkept hstale => hkept (hstale hi)⟩

end List

/-- A disk without files. -/
def emptyDisk : Disk where
  fileExists _ := false
  isSymLink _ := false
  storageInfo _ := none

/-- The run that adds `/a` and replaces its content terms; the file is gone. -/
theorem removeStaleEntries_spec_rewording :
    let db := rewording.commit rewording.pendingOperations.keys
    let order := (clean emptyDisk db [] {} none).transaction.pendingOperations.keys
    let stale := staleIds emptyDisk [] {} none db
    let r := removeStaleEntries emptyDisk db [] {} false none order
    Committed KeepsApart r.1 (fun i => if i ∈ stale then fun _ => ∅ else
      taggedIndex.replace reworded { documentTerms := true : DocumentOperations }.replaces i) ∧ r.2 = stale.length ∧
      removeStaleEntries emptyDisk db [] {} true none order = (db, stale.length) ∧
      ∀ id, id ∈ stale ↔ (id ∈ db.docUrlDb.treeIds ∧ id ≠ 0) ∧
        isStale emptyDisk [] {} none (id, db.docUrlDb.get id) = true :=
  @removeStaleEntries_spec emptyDisk [] {} none _ _ _ rewording_committed _ (List.Perm.refl _)

/-- `/a` on device `2` and, mounted there, `/a/b` on device `3`. -/
def mounted : Database where
  docUrlDb := (DocumentUrlDB.add {} 2 0 [97]).add 3 2 [98]

/-- Device `3` is left out, so the directory goes without its entry. -/
theorem isForest_removeStaleEntries_mounted :
    ¬(removeStaleEntries emptyDisk mounted [-3] {} false none []).1.docUrlDb.IsForest := by
  have hforest : mounted.docUrlDb.IsForest := by
    have hroot : (DocumentUrlDB.add {} 2 0 [97]).IsForest :=
      DocumentUrlDB.IsForest.add UrlForest.empty (by decide) (by decide) (by decide) (.inl rfl)
    exact @DocumentUrlDB.IsForest.add _ 3 2 [98] hroot (by decide) (by decide) (by decide) (.inr ⟨0, by decide⟩)
  intro h
  have hkept := (isForest_removeStaleEntries_iff hforest []).mp h 3 2 (by decide) (by decide) (by decide)
  exact absurd hkept (by decide)

end DatabaseSanitizer

end Baloo
