import Baloo.UrlRelocation

/-!
# Entering a path

`addPath` climbs from a path towards the root and writes an entry for every directory that is not stored,
before it knows whether the directories further up have ids. Here it runs on any ids whatsoever: `lstat` may
fail anywhere, and the same file system may be mounted at two places of one path.

It does what it should exactly if it writes nothing before it fails, or if every path up to the first stored
one has an id of its own and the stored one is stored at its own path (`addPath_iff`). Otherwise entries are
left that lead nowhere, or in a circle, or to another path.
-/

namespace Baloo

open Forest (Above)

/-! ## Paths -/

/-- A path is cut at its last slash. -/
theorem append_slash_inj {dir dir' name name' : QByteArray} (h : dir ++ slash :: name = dir' ++ slash :: name')
    (hslash : slash ∉ name) (hslash' : slash ∉ name') : dir = dir' ∧ name = name' := by
  have hpos := congrArg (lastIndexOf slash) h
  rw [lastIndexOf_append hslash, lastIndexOf_append hslash'] at hpos
  obtain ⟨rfl, hname⟩ := List.append_inj h (by exact_mod_cast hpos)
  exact ⟨rfl, (List.cons.inj hname).2⟩

/-- A path is at the top level or in a directory that is a path. -/
theorem IsPath.dirInduction {motive : QByteArray → Prop} {path : QByteArray} (h : IsPath path)
    (top : ∀ name, name ≠ [] → slash ∉ name → motive ([] ++ slash :: name))
    (entry : ∀ dir name, IsPath dir → name ≠ [] → slash ∉ name → motive dir → motive (dir ++ slash :: name)) :
    motive path := by
  obtain ⟨components, hne, hnames, rfl⟩ := h
  induction components using List.reverseRecOn with
  | nil => exact absurd rfl hne
  | append_singleton components name ih =>
    obtain ⟨hname, hslash⟩ := hnames name (by simp)
    have hnames' : ∀ c ∈ components, c ≠ [] ∧ slash ∉ c := fun c hc => hnames c (List.mem_append_left _ hc)
    have hflatten : ((components ++ [name]).map (slash :: ·)).flatten =
        (components.map (slash :: ·)).flatten ++ slash :: name := by simp
    rw [hflatten]
    by_cases hcomponents : components = []
    · subst hcomponents
      exact top name hname hslash
    · exact entry _ name ⟨components, hcomponents, hnames', rfl⟩ hname hslash (ih hcomponents hnames')

/-- A path is a name at the top level or in a directory that is a path. -/
theorem IsPath.cut {path : QByteArray} (h : IsPath path) :
    ∃ dir name, path = dir ++ slash :: name ∧ name ≠ [] ∧ slash ∉ name ∧ (dir = [] ∨ IsPath dir) := by
  refine h.dirInduction (motive := fun path => ∃ dir name, path = dir ++ slash :: name ∧ name ≠ [] ∧ slash ∉ name ∧
    (dir = [] ∨ IsPath dir)) ?_ ?_
  · exact fun name hname hslash => ⟨[], name, rfl, hname, hslash, .inl rfl⟩
  · exact fun dir name hdir hname hslash _ => ⟨dir, name, rfl, hname, hslash, .inr hdir⟩

namespace DocumentUrlDB

/-! ## Arbitrary ids -/

/-- The loop of `addPath`, where `filePathToId` is any function; `0` stands for a path without an id. -/
def addPathIdsLoop (filePathToId : QByteArray → DocId) :
    ℕ → DocumentUrlDB → QByteArray → DocId → DocumentUrlDB × Bool
  | 0, db, _, _ => (db, false)
  | rounds + 1, db, arr, id =>
    if id = 0 then (db, false)
    else if db.idFilenameDb.contains id then (db, true)
    else
      let pos := lastIndexOf slash arr
      let name := mid arr (pos + 1)
      if pos = 0 then (db.add id 0 name, true)
      else
        let arr := left arr pos
        let parentId := filePathToId arr
        if parentId = 0 then (db, false)
        else addPathIdsLoop filePathToId rounds (db.add id parentId name) arr parentId

/-- `DocumentUrlDB::addPath`, where `filePathToId` is any function. -/
def addPathIds (filePathToId : QByteArray → DocId) (db : DocumentUrlDB) (url : QByteArray) : DocumentUrlDB × Bool :=
  if url = [] ∨ url.getLast? = some slash then (db, false)
  else addPathIdsLoop filePathToId (url.length + 1) db url (filePathToId url)

/-- `addPath` is the case of the ids of a file system. -/
theorem addPath_eq_ids (fs : FileSystem) (db : DocumentUrlDB) (url : QByteArray) :
    db.addPath fs url = db.addPathIds fs.filePathToId url := by
  have hloop : ∀ rounds (db : DocumentUrlDB) (arr : QByteArray) (id : DocId),
      addPathLoop fs rounds db arr id = addPathIdsLoop fs.filePathToId rounds db arr id := by
    intro rounds
    induction rounds with
    | zero => exact fun _ _ _ => rfl
    | succ rounds ih =>
      intro db arr id
      simp only [addPathLoop, addPathIdsLoop, ih]
  rw [addPath, addPathIds, hloop]

variable {toId : QByteArray → DocId} {db db' : DocumentUrlDB} {id i j p : DocId} {dir name url arr : QByteArray}
  {rounds : ℕ}

/-- One round for a path that has an id and is not stored. -/
theorem addPathIdsLoop_entry (hid : id ≠ 0) (hfresh : db.idFilenameDb.contains id = false) (hslash : slash ∉ name) :
    addPathIdsLoop toId (rounds + 1) db (dir ++ slash :: name) id =
      if dir = [] then (db.add id 0 name, true)
      else if toId dir = 0 then (db, false)
      else addPathIdsLoop toId rounds (db.add id (toId dir) name) dir (toId dir) := by
  rw [addPathIdsLoop, if_neg hid, if_neg (by simp [hfresh]), lastIndexOf_append hslash]
  simp only [left_append, mid_append, Int.natCast_eq_zero, List.length_eq_zero_iff]

theorem addPathIdsLoop_stored (hid : id ≠ 0) (hstored : db.idFilenameDb.contains id = true) :
    addPathIdsLoop toId (rounds + 1) db arr id = (db, true) := by
  rw [addPathIdsLoop, if_neg hid, if_pos hstored]

theorem addPathIdsLoop_zero (rounds : ℕ) : addPathIdsLoop toId rounds db arr 0 = (db, false) := by
  cases rounds with
  | zero => rfl
  | succ rounds => rw [addPathIdsLoop, if_pos rfl]

/-- What is stored is not written again. -/
theorem addPathIdsLoop_keeps (toId : QByteArray → DocId) (rounds : ℕ) (arr : QByteArray) (id : DocId) {path : FilePath}
    (h : db.idFilenameDb.get j = some path) :
    (addPathIdsLoop toId rounds db arr id).1.idFilenameDb.get j = some path := by
  induction rounds generalizing db arr id with
  | zero => exact h
  | succ rounds ih =>
    have hadd : ∀ p name, db.idFilenameDb.contains id ≠ true → (db.add id p name).idFilenameDb.get j = some path := by
      intro p name hfresh
      have hne : j ≠ id := by
        rintro rfl
        exact hfresh (OrdMap.contains_iff.mpr ⟨path, h⟩)
      rw [add]
      split
      · exact h
      · rwa [OrdMap.get_put, if_neg hne]
    rw [addPathIdsLoop]
    split
    · exact h
    · split
      · exact h
      · next hfresh =>
        dsimp only
        split
        · exact hadd _ _ hfresh
        · split
          · exact h
          · exact ih _ _ (hadd _ _ hfresh)

/-! ## The entries that are written -/

/-- What is above an entry is stored. -/
theorem Located.get_above {n : ℕ} (h : db.Located n i url) (hzero : db.parent 0 = none) (hj : j ≠ 0)
    (habove : Above db.parent j i) : ∃ path, db.idFilenameDb.get j = some path := by
  obtain ⟨m, u, hu, -⟩ := h.above habove hzero
  exact hu.exists_get hj

/-- A new entry leaves the others where they are. -/
theorem Located.add {n : ℕ} (h : db.Located n i url) (hzero : db.parent 0 = none) (hid : id ≠ 0) (hname : name ≠ [])
    (hfresh : db.idFilenameDb.contains id = false) (p : DocId) : (db.add id p name).Located n i url := by
  refine h.congr fun a ha habove => ?_
  obtain ⟨path, hpath⟩ := h.get_above hzero ha habove
  rw [idFilenameDb_add hid hname, if_neg]
  rintro rfl
  rw [OrdMap.contains, hpath] at hfresh
  cases hfresh

/-- The URL tree: the tables are views of one forest, and names are components of paths. -/
structure IsTree (db : DocumentUrlDB) : Prop extends IsForest db where
  /-- names are not empty and have no slash -/
  named : db.WellNamed

/-- The entry that a round writes. -/
theorem get_add_self (hid : id ≠ 0) (hname : name ≠ []) :
    (db.add id p name).idFilenameDb.get id = some { parentId := p, name := name } := by
  rw [idFilenameDb_add hid hname, if_pos rfl]

theorem WellNamed.add (h : db.WellNamed) (hid : id ≠ 0) (hname : name ≠ []) (hslash : slash ∉ name) (p : DocId) :
    (db.add id p name).WellNamed := by
  intro j path hj
  rw [idFilenameDb_add hid hname] at hj
  split at hj
  · obtain rfl := Option.some.inj hj
    exact ⟨hname, hslash⟩
  · exact h j path hj

/-- A new entry at the top level or in a directory that is stored. -/
theorem IsTree.add (h : db.IsTree) (hid : id ≠ 0) (hfresh : db.idFilenameDb.contains id = false) (hname : name ≠ [])
    (hslash : slash ∉ name) (hp : p = 0 ∨ db.idFilenameDb.contains p = true) : (db.add id p name).IsTree :=
  ⟨h.toIsForest.add hid hname (parent_eq_none.mpr hfresh) (hp.imp_right exists_parent.mpr),
    h.named.add hid hname hslash p⟩

/-- The entries `seen` have been written, and the climb from each of them leads to `id`, which may be
missing. -/
structure Hanging (db : DocumentUrlDB) (seen : List DocId) (id : DocId) (db' : DocumentUrlDB) : Prop
    extends Consistent db' where
  /-- nothing else has changed -/
  kept : ∀ j, j ∉ seen → db'.idFilenameDb.get j = db.idFilenameDb.get j
  /-- they are new -/
  fresh : ∀ j ∈ seen, db.idFilenameDb.get j = none
  /-- they are above one another and below `id` -/
  hangs : ∀ j ∈ seen, ∃ p, db'.parent j = some p ∧ Above db'.parent id p
  /-- their names are components of the path -/
  named : db'.WellNamed

variable {seen : List DocId}

theorem IsTree.hanging (h : db.IsTree) (id : DocId) : Hanging db [] id db :=
  ⟨h.toConsistent, fun _ _ => rfl, fun _ hj => absurd hj List.not_mem_nil, fun _ hj => absurd hj List.not_mem_nil,
    h.named⟩

theorem Hanging.notMem_seen (h : Hanging db seen id db') (hfresh : db'.idFilenameDb.contains j = false) : j ∉ seen := by
  intro hj
  obtain ⟨p, hp, -⟩ := h.hangs j hj
  rw [exists_parent.mp ⟨p, hp⟩] at hfresh
  cases hfresh

/-- A round that writes `id`: what was below `id` is below `p` now, and so is `id`. -/
theorem Hanging.add (h : Hanging db seen id db') (hid : id ≠ 0) (hfresh : db'.idFilenameDb.contains id = false)
    (hname : name ≠ []) (hslash : slash ∉ name) (p : DocId) : Hanging db (id :: seen) p (db'.add id p name) := by
  have hnone : db'.parent id = none := parent_eq_none.mpr hfresh
  have hparent := @parent_add db' id p name hid hname
  have hget := @idFilenameDb_add db' id p name hid hname
  have hself : (db'.add id p name).parent id = some p := by rw [hparent, Function.update_self]
  refine ⟨h.toConsistent.add hid hname hnone, fun j hj => ?_, fun j hj => ?_, fun j hj => ?_,
    h.named.add hid hname hslash p⟩
  · rw [List.mem_cons, not_or] at hj
    rw [hget, if_neg hj.1, h.kept j hj.2]
  · rcases List.mem_cons.mp hj with rfl | hj
    · rw [← h.kept j (h.notMem_seen hfresh)]
      rwa [OrdMap.contains, Option.isSome_eq_false_iff, Option.isNone_iff_eq_none] at hfresh
    · exact h.fresh j hj
  · rcases List.mem_cons.mp hj with rfl | hj
    · exact ⟨p, hself, .refl⟩
    · obtain ⟨r, hr, habove⟩ := h.hangs j hj
      have hne : j ≠ id := by
        rintro rfl
        rw [hnone] at hr
        cases hr
      refine ⟨r, by rw [hparent, Function.update_of_ne hne, hr], ?_⟩
      rw [hparent] at hself ⊢
      exact Above.trans (.single hself) (habove.insert hnone)

/-- Where a stored entry is has not changed. -/
theorem Hanging.located (h : Hanging db seen id db') (hforest : db.IsForest) {n : ℕ} (hlocated : db.Located n i url) :
    db'.Located n i url := by
  refine hlocated.congr fun a ha habove => h.kept a fun hseen => ?_
  obtain ⟨path, hpath⟩ := hlocated.get_above hforest.zero ha habove
  rw [h.fresh a hseen] at hpath
  cases hpath

/-- Once they lead to the root or to an entry that was stored, the tables are a tree. -/
theorem Hanging.isTree (h : Hanging db seen id db') (hforest : db.IsForest)
    (hid : id = 0 ∨ db.idFilenameDb.contains id = true) : db'.IsTree := by
  have hold : ∀ {j}, db.idFilenameDb.contains j = true → Forest.Rooted db'.parent 0 j := by
    intro j hj
    obtain ⟨n, u, hu⟩ := hforest.exists_located hj
    exact ⟨n, (h.located hforest hu).depth⟩
  have hroot : Forest.Rooted db'.parent 0 id := by
    rcases hid with rfl | hid
    · exact Forest.rooted_root
    · exact hold hid
  refine ⟨⟨h.toConsistent, fun j p hp => ?_⟩, h.named⟩
  by_cases hj : j ∈ seen
  · obtain ⟨r, hr, habove⟩ := h.hangs j hj
    exact .step hr (hroot.of_above habove)
  · refine hold (OrdMap.contains_iff.mpr ?_)
    obtain ⟨path, hpath, -⟩ := Option.map_eq_some_iff.mp hp
    exact ⟨path, (h.kept j hj).symm.trans hpath⟩

/-- An entry that leads to itself is no entry of a tree. -/
theorem Hanging.notMem_of_isForest (h : Hanging db seen id db') (hforest : db'.IsForest) : id ∉ seen := by
  intro hseen
  obtain ⟨p, hp, habove⟩ := h.hangs id hseen
  exact (hforest.rooted id p hp).not_above hforest.zero hp habove

/-! ## When a path can be entered -/

/-- The path has an id that is neither stored nor among those that have been written. -/
structure Unknown (toId : QByteArray → DocId) (db : DocumentUrlDB) (seen : List DocId) (arr : QByteArray) : Prop where
  ne_zero : toId arr ≠ 0
  not_stored : db.idFilenameDb.get (toId arr) = none
  notMem : toId arr ∉ seen

/-- On the way up every path has an id of its own that is not stored, up to the top level or to a path that is
stored, and stored at its own place. `seen` are the ids so far. -/
inductive Climbs (toId : QByteArray → DocId) (db : DocumentUrlDB) : List DocId → QByteArray → Prop
  | stored {seen : List DocId} {arr : QByteArray} {n : ℕ} : toId arr ≠ 0 → db.Located n (toId arr) arr →
    Climbs toId db seen arr
  | top {seen : List DocId} {name : QByteArray} : name ≠ [] → slash ∉ name →
    Unknown toId db seen ([] ++ slash :: name) → Climbs toId db seen ([] ++ slash :: name)
  | entry {seen : List DocId} {dir name : QByteArray} : dir ≠ [] → name ≠ [] → slash ∉ name →
    Unknown toId db seen (dir ++ slash :: name) → Climbs toId db (toId (dir ++ slash :: name) :: seen) dir →
    Climbs toId db seen (dir ++ slash :: name)

theorem Climbs.ne_zero (h : Climbs toId db seen arr) : toId arr ≠ 0 := by
  cases h with
  | stored hid => exact hid
  | top _ _ hunknown => exact hunknown.ne_zero
  | entry _ _ _ hunknown => exact hunknown.ne_zero

/-- The path has been entered: the tables are a tree, and its id is stored at its place. -/
structure Enters (toId : QByteArray → DocId) (arr : QByteArray) (r : DocumentUrlDB × Bool) : Prop where
  returns : r.2 = true
  isTree : r.1.IsTree
  located : ∃ n, r.1.Located n (toId arr) arr

theorem Unknown.not_contains (h : Unknown toId db seen arr) (hang : Hanging db seen id db') :
    db'.idFilenameDb.contains (toId arr) = false := by
  rw [OrdMap.contains, hang.kept _ h.notMem, h.not_stored]
  rfl

theorem Hanging.unknown (h : Hanging db seen id db') (hid : toId arr ≠ 0)
    (hfresh : db'.idFilenameDb.contains (toId arr) = false) : Unknown toId db seen arr := by
  have hnotMem := h.notMem_seen hfresh
  refine ⟨hid, ?_, hnotMem⟩
  rw [← h.kept _ hnotMem]
  rwa [OrdMap.contains, Option.isSome_eq_false_iff, Option.isNone_iff_eq_none] at hfresh

/-- **A path that can be climbed is entered.** -/
theorem Climbs.enters (h : Climbs toId db seen arr) (hdb : db.IsTree) (hang : Hanging db seen (toId arr) db')
    (hrounds : arr.length < rounds) : Enters toId arr (addPathIdsLoop toId rounds db' arr (toId arr)) := by
  induction h generalizing db' rounds with
  | @stored seen arr n hid hlocated =>
    obtain ⟨rounds, rfl⟩ : ∃ k, rounds = k + 1 := ⟨rounds - 1, by omega⟩
    have hlocated' := hang.located hdb.toIsForest hlocated
    have hstored : ∀ {db : DocumentUrlDB}, db.Located n (toId arr) arr → db.idFilenameDb.contains (toId arr) = true :=
      fun h => OrdMap.contains_iff.mpr (h.exists_get hid)
    rw [addPathIdsLoop_stored hid (hstored hlocated')]
    exact ⟨rfl, hang.isTree hdb.toIsForest (.inr (hstored hlocated)), n, hlocated'⟩
  | @top seen name hname hslash hunknown =>
    obtain ⟨rounds, rfl⟩ : ∃ k, rounds = k + 1 := ⟨rounds - 1, by omega⟩
    have hfresh := hunknown.not_contains hang
    rw [addPathIdsLoop_entry hunknown.ne_zero hfresh hslash, if_pos rfl]
    have hadded := hang.add hunknown.ne_zero hfresh hname hslash 0
    have hwritten : (db'.add _ 0 name).idFilenameDb.get _ = _ := get_add_self hunknown.ne_zero hname
    exact ⟨rfl, hadded.isTree hdb.toIsForest (.inl rfl), 1, .entry hunknown.ne_zero hwritten .root⟩
  | @entry seen dir name hdir hname hslash hunknown hclimbs ih =>
    obtain ⟨rounds, rfl⟩ : ∃ k, rounds = k + 1 := ⟨rounds - 1, by omega⟩
    have hfresh := hunknown.not_contains hang
    rw [addPathIdsLoop_entry hunknown.ne_zero hfresh hslash, if_neg hdir, if_neg hclimbs.ne_zero]
    rw [List.length_append, List.length_cons] at hrounds
    obtain ⟨hreturns, htree, n, hlocated⟩ := ih (hang.add hunknown.ne_zero hfresh hname hslash (toId dir))
      (show dir.length < rounds by omega)
    have hwritten : (db'.add _ (toId dir) name).idFilenameDb.get _ = _ := get_add_self hunknown.ne_zero hname
    have hkept := addPathIdsLoop_keeps toId rounds dir (toId dir) hwritten
    exact ⟨hreturns, htree, n + 1, .entry hunknown.ne_zero hkept hlocated⟩

/-- What the loop finds stored has been stored before, and at its place. -/
theorem Hanging.climbs_of_stored (hang : Hanging db seen (toId arr) db') (hdb : db.IsTree)
    (h : Enters toId arr (db', true)) (hid : toId arr ≠ 0) (hstored : db'.idFilenameDb.contains (toId arr) = true) :
    Climbs toId db seen arr := by
  obtain ⟨-, htree, n, hlocated⟩ := h
  have hnotMem := hang.notMem_of_isForest htree.toIsForest
  rw [OrdMap.contains, hang.kept _ hnotMem, ← OrdMap.contains] at hstored
  obtain ⟨m, url, hurl⟩ := hdb.exists_located hstored
  obtain ⟨rfl, rfl⟩ := (hang.located hdb.toIsForest hurl).unique hlocated
  exact .stored hid hurl

/-- **Only such paths are entered.** -/
theorem Enters.climbs (hpath : IsPath arr) (hdb : db.IsTree) (hang : Hanging db seen (toId arr) db')
    (h : Enters toId arr (addPathIdsLoop toId rounds db' arr (toId arr))) : Climbs toId db seen arr := by
  -- a round that does something, for a path `arr`
  have hround : ∀ {arr seen db' rounds}, Enters toId arr (addPathIdsLoop toId rounds db' arr (toId arr)) →
      Hanging db seen (toId arr) db' → Climbs toId db seen arr ∨ ∃ k, rounds = k + 1 ∧ toId arr ≠ 0 ∧
        db'.idFilenameDb.contains (toId arr) = false := by
    intro arr seen db' rounds h hang
    rcases rounds with _ | rounds
    · exact absurd h.returns Bool.false_ne_true
    · by_cases hid : toId arr = 0
      · rw [hid, addPathIdsLoop_zero] at h
        exact absurd h.returns Bool.false_ne_true
      · by_cases hstored : db'.idFilenameDb.contains (toId arr) = true
        · rw [addPathIdsLoop_stored hid hstored] at h
          exact .inl (hang.climbs_of_stored hdb h hid hstored)
        · exact .inr ⟨rounds, rfl, hid, Bool.eq_false_iff.mpr hstored⟩
  have hall : ∀ seen db' rounds, Hanging db seen (toId arr) db' →
      Enters toId arr (addPathIdsLoop toId rounds db' arr (toId arr)) → Climbs toId db seen arr := by
    refine hpath.dirInduction (motive := fun arr => ∀ seen db' rounds, Hanging db seen (toId arr) db' →
      Enters toId arr (addPathIdsLoop toId rounds db' arr (toId arr)) → Climbs toId db seen arr) ?_ ?_
    · intro name hname hslash seen db' rounds hang h
      rcases hround h hang with hclimbs | ⟨k, rfl, hid, hfresh⟩
      · exact hclimbs
      · exact .top hname hslash (hang.unknown hid hfresh)
    · intro dir name hdir hname hslash ih seen db' rounds hang h
      rcases hround h hang with hclimbs | ⟨k, rfl, hid, hfresh⟩
      · exact hclimbs
      rw [addPathIdsLoop_entry hid hfresh hslash, if_neg hdir.ne_nil] at h
      split at h
      · exact absurd h.returns Bool.false_ne_true
      · obtain ⟨hreturns, htree, n, hlocated⟩ := h
        have hwritten : (db'.add _ (toId dir) name).idFilenameDb.get _ = _ := get_add_self hid hname
        have hkept := addPathIdsLoop_keeps toId k dir (toId dir) hwritten
        -- the entry leads to the directory
        obtain ⟨m, path, -, -, hget, -, hparent⟩ := hlocated.split hslash htree.named
        obtain rfl := Option.some.inj (hget.symm.trans hkept)
        have hentered := ih _ _ k (hang.add hid hfresh hname hslash (toId dir)) ⟨hreturns, htree, m, hparent⟩
        exact .entry hdir.ne_nil hname hslash (hang.unknown hid hfresh) hentered
  exact hall seen db' rounds hang h

/-- On the way up from an entry there is one for every directory. -/
theorem Located.exists_above {n : ℕ} {dir : QByteArray} (h : db.Located n i url) (hn : db.WellNamed)
    (hdir : IsAncestor dir url) : ∃ a m, a ≠ 0 ∧ Above db.parent a i ∧ db.Located m a dir := by
  induction h with
  | root =>
    obtain ⟨-, rest, hrest⟩ := hdir
    simp at hrest
  | @entry n id path url hne hget hparent ih =>
    have hsingle : Above db.parent path.parentId id := .single (by rw [parent, hget]; rfl)
    rcases (isAncestor_append (hn id path hget).2).mp hdir with ⟨hnil, rfl⟩ | hdir
    · refine ⟨path.parentId, n, ?_, hsingle, hparent⟩
      intro hzero
      rw [hzero] at hparent
      exact hnil (hparent.unique .root).2
    · obtain ⟨a, m, ha, habove, hlocated⟩ := ih hdir
      exact ⟨a, m, ha, habove.trans hsingle, hlocated⟩

/-! ## Atomicity -/

/-- A call leaves the tables as they were, or it enters the path: the tables are a tree, and the climb from the
entry of the path reaches the root through an entry for every directory above it. -/
structure Atomic (toId : QByteArray → DocId) (db : DocumentUrlDB) (url : QByteArray) (r : DocumentUrlDB × Bool) :
    Prop where
  /-- without success nothing has been written -/
  unchanged : r.2 = false → r.1 = db
  /-- the tables stay a tree -/
  isTree : r.2 = true → r.1.IsTree
  /-- the path is stored -/
  located : r.2 = true → ∃ n, r.1.Located n (toId url) url
  /-- and so is every directory above it -/
  above : r.2 = true → ∀ dir, IsAncestor dir url →
    ∃ a n, a ≠ 0 ∧ Above r.1.parent a (toId url) ∧ r.1.Located n a dir

theorem Enters.atomic {r : DocumentUrlDB × Bool} (h : Enters toId url r) : Atomic toId db url r := by
  obtain ⟨hreturns, htree, n, hlocated⟩ := h
  refine ⟨fun hfalse => ?_, fun _ => htree, fun _ => ⟨n, hlocated⟩,
    fun _ dir hdir => hlocated.exists_above htree.named hdir⟩
  rw [hreturns] at hfalse
  cases hfalse

/-- The path has no id, or it is new and its directory has none. -/
def FailsAtOnce (toId : QByteArray → DocId) (db : DocumentUrlDB) (url : QByteArray) : Prop :=
  toId url = 0 ∨ db.idFilenameDb.contains (toId url) = false ∧ parentPath url ≠ [] ∧ toId (parentPath url) = 0

theorem parentPath_append (hslash : slash ∉ name) : parentPath (dir ++ slash :: name) = dir := by
  rw [parentPath, lastIndexOf_append hslash, left_append]

/-- **When `addPath` is atomic**: if it fails before it writes, or if the path can be climbed. -/
theorem addPath_iff (toId : QByteArray → DocId) (hdb : db.IsTree) (hurl : IsPath url) :
    Atomic toId db url (db.addPathIds toId url) ↔ FailsAtOnce toId db url ∨ Climbs toId db [] url := by
  have hcall : db.addPathIds toId url = addPathIdsLoop toId (url.length + 1) db url (toId url) :=
    if_neg (not_or.mpr ⟨hurl.ne_nil, hurl.getLast?_ne⟩)
  have hunchanged : ∀ {r : DocumentUrlDB × Bool}, r = (db, false) → Atomic toId db url r := by
    rintro r rfl
    exact ⟨fun _ => rfl, fun h => Bool.noConfusion h, fun h => Bool.noConfusion h, fun h => Bool.noConfusion h⟩
  have hang := hdb.hanging (toId url)
  rw [hcall]
  constructor
  · intro h
    by_cases hreturns : (addPathIdsLoop toId (url.length + 1) db url (toId url)).2 = true
    · exact .inr (Enters.climbs hurl hdb hang ⟨hreturns, h.isTree hreturns, h.located hreturns⟩)
    · refine .inl (or_iff_not_imp_left.mpr fun hid => ?_)
      have hsame := h.unchanged (Bool.eq_false_iff.mpr hreturns)
      have hfresh : db.idFilenameDb.contains (toId url) = false := by
        rw [Bool.eq_false_iff]
        intro hstored
        rw [addPathIdsLoop_stored hid hstored] at hreturns
        exact hreturns rfl
      obtain ⟨dir, name, rfl, hname, hslash⟩ := hurl.split
      rw [parentPath_append hslash]
      rw [addPathIdsLoop_entry hid hfresh hslash] at hreturns hsame
      refine ⟨hfresh, fun hdir => ?_, ?_⟩
      · rw [if_pos hdir] at hreturns
        exact hreturns rfl
      · by_contra hdirId
        rw [if_neg (fun hdir => hreturns (by rw [if_pos hdir])), if_neg hdirId] at hsame
        -- the entry has been written, and it stays
        have hkept := addPathIdsLoop_keeps toId (dir ++ slash :: name).length dir (toId dir)
          (@get_add_self db _ (toId dir) name hid hname)
        rw [hsame] at hkept
        rw [OrdMap.contains, hkept] at hfresh
        cases hfresh
  · rintro ((hid | ⟨hfresh, hdir, hdirId⟩) | hclimbs)
    · exact hunchanged (by rw [hid, addPathIdsLoop_zero])
    · by_cases hid : toId url = 0
      · exact hunchanged (by rw [hid, addPathIdsLoop_zero])
      · obtain ⟨dir, name, rfl, hname, hslash⟩ := hurl.split
        rw [parentPath_append hslash] at hdir hdirId
        exact hunchanged (by rw [addPathIdsLoop_entry hid hfresh hslash, if_neg hdir, if_pos hdirId])
    · exact (hclimbs.enters hdb hang (Nat.lt_succ_self _)).atomic

/-- `/p/d/x` is new, in the directory `/p/d`, which is stored. -/
def newInD (path : QByteArray) : DocId :=
  if path = [47, 112, 47, 100, 47, 120] then 7 else if path = [47, 112, 47, 100] then 3 else 0

theorem addPath_newInD : Atomic newInD adKnown.docUrlDb [47, 112, 47, 100, 47, 120]
    (adKnown.docUrlDb.addPathIds newInD [47, 112, 47, 100, 47, 120]) := by
  refine (addPath_iff newInD ⟨adKnown_forest, adKnown_wellNamed⟩
    ⟨[[112], [100], [120]], by simp, by simp [slash], rfl⟩).mpr (.inr ?_)
  have hp : adKnown.docUrlDb.Located 1 5 [47, 112] :=
    @Located.entry _ 0 5 { parentId := 0, name := [112] } [] (by decide) rfl .root
  have hd : adKnown.docUrlDb.Located 2 3 [47, 112, 47, 100] :=
    @Located.entry _ 1 3 { parentId := 5, name := [100] } [47, 112] (by decide) rfl hp
  exact @Climbs.entry _ _ _ [47, 112, 47, 100] [120] (by simp) (by simp) (by simp [slash])
    ⟨by decide, rfl, List.not_mem_nil⟩ (.stored (by decide) hd)

/-- `/a/b/c` and `/a/b` have ids, and `/a` has none any more. -/
def halfGone (path : QByteArray) : DocId :=
  if path = [47, 97, 47, 98, 47, 99] then 3 else if path = [47, 97, 47, 98] then 2 else 0

/-- The entry of `c` is left, below an entry that does not exist. -/
theorem half_written : ¬∀ (toId : QByteArray → DocId) (db : DocumentUrlDB) (url : QByteArray), db.IsTree → IsPath url →
    Atomic toId db url (db.addPathIds toId url) := by
  intro h
  have hatomic := h halfGone {} [47, 97, 47, 98, 47, 99] ⟨UrlForest.empty, fun i path hi => by cases hi⟩
    ⟨[[97], [98], [99]], by simp, by simp [slash], rfl⟩
  have hwritten : (addPathIds halfGone {} [47, 97, 47, 98, 47, 99]).1.idFilenameDb.get 3 =
      some { parentId := 2, name := [99] } := by decide +kernel
  rw [hatomic.unchanged (by decide +kernel)] at hwritten
  cases hwritten

end DocumentUrlDB

end Baloo
