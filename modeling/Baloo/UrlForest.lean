import Baloo.Commit
import Baloo.Lib.Forest
import Baloo.Lib.Induction

/-!
# The URL tree is a forest

`IdFilenameDB` gives every stored entry its directory, `IdTreeDB` gives every directory its entries.
`IsForest` says that the two tables are views of one forest with root `0`: an entry is listed where
its record says, the lists are in order, and every climb ends at the root.

Each edit of the tables is described by what it does to the parent pointers (`parent_add`,
`parent_del`, `parent_updateUrl`), so that the forest lemmas apply. The delicate operation is
`addPath`, which hangs an entry under a directory that is not stored yet: while its loop runs, the
entries it has added are not below the root but below the directory that comes next (`Pending`).
-/

namespace Baloo

open SortedSeq (Ascending)
open Forest (Rooted Above)

namespace DocumentUrlDB

/-- The directory of a stored entry. -/
def parent (db : DocumentUrlDB) (id : DocId) : Option DocId :=
  (db.idFilenameDb.get id).map FilePath.parentId

/-- The two tables are views of one relation. -/
structure Consistent (db : DocumentUrlDB) : Prop where
  /-- an entry is listed exactly where its record says -/
  listed : ∀ id p, id ∈ db.idTreeDb.get p ↔ db.parent id = some p
  /-- `0` is not an entry -/
  zero : db.parent 0 = none
  /-- lists are strictly ascending -/
  ascending : ∀ p, Ascending id (db.idTreeDb.get p)
  /-- no directory has an empty list -/
  nonempty : ∀ p, OrdMap.get db.idTreeDb p ≠ some []

/-- The two tables are views of one forest. -/
structure IsForest (db : DocumentUrlDB) : Prop extends Consistent db where
  /-- climbing from an entry ends at `0` -/
  rooted : ∀ id p, db.parent id = some p → Rooted db.parent 0 id

variable {db : DocumentUrlDB} {i p q : DocId}

theorem parent_eq_none : db.parent i = none ↔ db.idFilenameDb.contains i = false := by
  rw [parent, OrdMap.contains]
  rcases db.idFilenameDb.get i with _ | path <;> simp

theorem exists_parent : (∃ p, db.parent i = some p) ↔ db.idFilenameDb.contains i = true := by
  rw [parent, OrdMap.contains]
  rcases db.idFilenameDb.get i with _ | path <;> simp

theorem parentId_filePath : (db.filePath i).parentId = (db.parent i).getD 0 := by
  rw [filePath, parent]
  rcases db.idFilenameDb.get i with _ | path <;> rfl

theorem parent_put (tree : IdTreeDB) (path : FilePath) :
    parent { idTreeDb := tree, idFilenameDb := db.idFilenameDb.put i path } =
      Function.update db.parent i (some path.parentId) := by
  funext j
  rcases eq_or_ne j i with rfl | hj
  · simp [parent]
  · simp [parent, hj]

theorem parent_delete (tree : IdTreeDB) :
    parent { idTreeDb := tree, idFilenameDb := db.idFilenameDb.del i } =
      Function.update db.parent i none := by
  funext j
  rcases eq_or_ne j i with rfl | hj
  · simp [parent]
  · simp [parent, hj]

/-! ## The lists -/

/-- A list table in order. -/
structure ListsOk (tree : IdTreeDB) : Prop where
  /-- lists are strictly ascending -/
  ascending : ∀ p, Ascending id (tree.get p)
  /-- no directory has an empty list -/
  nonempty : ∀ p, OrdMap.get tree p ≠ some []

theorem ListsOk.set {tree : IdTreeDB} (h : ListsOk tree) {list : List DocId}
    (hlist : Ascending id list) : ListsOk (tree.set p list) := by
  refine ⟨fun q => ?_, fun q => ?_⟩
  · rw [IdTreeDB.get_set]
    split
    · exact hlist
    · exact h.ascending q
  · rw [IdTreeDB.set]
    rcases eq_or_ne q p with rfl | hq
    · split <;> simp_all
    · split <;> simp [hq, h.nonempty q]

/-- Enter `i` in the list of `p`. -/
def attach (tree : IdTreeDB) (p i : DocId) : IdTreeDB :=
  tree.set p (sortedIdInsert (tree.get p) i)

/-- Strike `i` from the list of `p`, if it is there. -/
def detach (tree : IdTreeDB) (p i : DocId) : IdTreeDB :=
  if i ∈ tree.get p then tree.set p (sortedIdRemove (tree.get p) i) else tree

theorem ListsOk.attach {tree : IdTreeDB} (h : ListsOk tree) (p i : DocId) :
    ListsOk (attach tree p i) ∧
      ∀ q j, j ∈ (DocumentUrlDB.attach tree p i).get q ↔ q = p ∧ j = i ∨ j ∈ tree.get q := by
  refine ⟨h.set (SortedSeq.ascending_insert (h.ascending p)), fun q j => ?_⟩
  rw [DocumentUrlDB.attach, IdTreeDB.get_set]
  rcases eq_or_ne q p with rfl | hq
  · simp [sortedIdInsert, SortedSeq.mem_insert (h.ascending q)]
  · simp [hq]

theorem ListsOk.detach {tree : IdTreeDB} (h : ListsOk tree) (p i : DocId) :
    ListsOk (detach tree p i) ∧
      ∀ q j, j ∈ (DocumentUrlDB.detach tree p i).get q ↔ j ∈ tree.get q ∧ ¬ (q = p ∧ j = i) := by
  rw [DocumentUrlDB.detach]
  split
  · refine ⟨h.set (SortedSeq.ascending_erase (h.ascending p)), fun q j => ?_⟩
    rw [IdTreeDB.get_set]
    rcases eq_or_ne q p with rfl | hq
    · simp [sortedIdRemove, SortedSeq.mem_erase (h.ascending q), and_comm]
    · simp [hq]
  · next hnot =>
    refine ⟨h, fun q j => ⟨fun hj => ⟨hj, ?_⟩, And.left⟩⟩
    rintro ⟨rfl, rfl⟩
    exact hnot hj

theorem Consistent.listsOk (h : db.Consistent) : ListsOk db.idTreeDb := ⟨h.ascending, h.nonempty⟩

/-- The root has no parent and an entry is not listed twice. -/
theorem Consistent.mem_unique (h : db.Consistent) (hp : i ∈ db.idTreeDb.get p)
    (hq : i ∈ db.idTreeDb.get q) : p = q :=
  Option.some.inj (((h.listed i p).mp hp).symm.trans ((h.listed i q).mp hq))

/-! ## The edits -/

variable {name : QByteArray}

theorem parent_add (hi : i ≠ 0) (hname : name ≠ []) :
    (db.add i p name).parent = Function.update db.parent i (some p) := by
  rw [add, if_neg (by simp [hi, hname]), parent_put]

/-- Entering a new entry. -/
theorem Consistent.add (h : db.Consistent) (hi : i ≠ 0) (hname : name ≠ [])
    (hfresh : db.parent i = none) : (db.add i p name).Consistent := by
  have hparent : (db.add i p name).parent = _ := parent_add hi hname
  obtain ⟨hok, hmem⟩ := h.listsOk.attach p i
  have htree : (db.add i p name).idTreeDb = attach db.idTreeDb p i := by
    rw [DocumentUrlDB.add, if_neg (by simp [hi, hname])]
    rfl
  refine ⟨fun j q => ?_, ?_, htree ▸ hok.ascending, htree ▸ hok.nonempty⟩
  · rw [htree, hmem, hparent, h.listed]
    rcases eq_or_ne j i with rfl | hj
    · simp [hfresh, eq_comm]
    · simp [hj]
  · rw [hparent, Function.update_of_ne (Ne.symm hi), h.zero]

theorem parent_del (hi : i ≠ 0) : (db.del i).parent = Function.update db.parent i none := by
  rw [del, if_neg hi]
  exact parent_delete _

/-- Striking an entry. -/
theorem Consistent.del (h : db.Consistent) : (db.del i).Consistent := by
  rcases eq_or_ne i 0 with rfl | hi
  · rwa [DocumentUrlDB.del, if_pos rfl]
  · have hparent : (db.del i).parent = _ := parent_del hi
    obtain ⟨hok, hmem⟩ := h.listsOk.detach (db.filePath i).parentId i
    have htree : (db.del i).idTreeDb = detach db.idTreeDb (db.filePath i).parentId i := by
      rw [DocumentUrlDB.del, if_neg hi]
      rfl
    refine ⟨fun j q => ?_, ?_, htree ▸ hok.ascending, htree ▸ hok.nonempty⟩
    · rw [htree, hmem, hparent, h.listed]
      rcases eq_or_ne j i with rfl | hj
      · rw [parentId_filePath]
        rcases hj : db.parent j with _ | p
        · simp
        · simp [eq_comm]
      · simp [hj]
    · rw [hparent, Function.update_of_ne (Ne.symm hi), h.zero]

theorem parent_updateUrl (hi : db.parent i = some q) :
    (db.updateUrl i p name).parent = Function.update db.parent i (some p) := by
  have hq : (db.filePath i).parentId = q := by rw [parentId_filePath, hi]; rfl
  by_cases hchange : name ≠ (db.filePath i).name ∨ p ≠ (db.filePath i).parentId
  · rw [updateUrl, if_pos hchange]
    exact parent_put _ _
  · obtain ⟨-, hp⟩ := not_or.mp hchange
    rw [not_not, hq] at hp
    rw [updateUrl, if_neg hchange, hp, ← hi, Function.update_eq_self]
    rfl

/-- Moving an entry. -/
theorem Consistent.updateUrl (h : db.Consistent) (hi : db.parent i = some q) :
    (db.updateUrl i p name).Consistent := by
  have hparent : (db.updateUrl i p name).parent = _ := parent_updateUrl hi
  have hq : (db.filePath i).parentId = q := by rw [parentId_filePath, hi]; rfl
  have hi0 : i ≠ 0 := by
    rintro rfl
    rw [h.zero] at hi
    cases hi
  have hzero : (db.updateUrl i p name).parent 0 = none := by
    rw [hparent, Function.update_of_ne (Ne.symm hi0), h.zero]
  rcases eq_or_ne q p with rfl | hqp
  · -- the entry stays in its directory
    have htree : (db.updateUrl i q name).idTreeDb = db.idTreeDb := by
      rw [DocumentUrlDB.updateUrl]
      exact if_neg (not_not.mpr hq)
    rw [← hi, Function.update_eq_self] at hparent
    exact ⟨fun j r => by rw [htree, hparent, h.listed], hzero, htree ▸ h.ascending,
      htree ▸ h.nonempty⟩
  · obtain ⟨hok₁, hmem₁⟩ := h.listsOk.detach (db.filePath i).parentId i
    obtain ⟨hok, hmem⟩ := hok₁.attach p i
    have htree : (db.updateUrl i p name).idTreeDb =
        attach (detach db.idTreeDb (db.filePath i).parentId i) p i := by
      rw [DocumentUrlDB.updateUrl]
      exact if_pos (hq ▸ hqp)
    refine ⟨fun j r => ?_, hzero, htree ▸ hok.ascending, htree ▸ hok.nonempty⟩
    rw [htree, hmem, hmem₁, hq, hparent, h.listed]
    rcases eq_or_ne j i with rfl | hj
    · simp [hi, eq_comm]
    · simp [hj]

/-! ## Edits of a forest -/

theorem IsForest.ne_zero (h : db.IsForest) (hi : db.parent i = some p) : i ≠ 0 := by
  rintro rfl
  rw [h.zero] at hi
  cases hi

/-- The directory of an entry is the root or an entry. -/
theorem IsForest.rooted_of (h : db.IsForest) (hp : p = 0 ∨ ∃ q, db.parent p = some q) :
    Rooted db.parent 0 p := by
  rcases hp with rfl | ⟨q, hq⟩
  · exact Forest.rooted_root
  · exact h.rooted p q hq

theorem IsForest.add (h : db.IsForest) (hi : i ≠ 0) (hname : name ≠ [])
    (hfresh : db.parent i = none) (hp : p = 0 ∨ ∃ q, db.parent p = some q) :
    (db.add i p name).IsForest := by
  refine ⟨h.toConsistent.add hi hname hfresh, fun j q hj => ?_⟩
  rw [parent_add hi hname] at hj ⊢
  have hkeep : ∀ {k}, Rooted db.parent 0 k → Rooted (Function.update db.parent i (some p)) 0 k :=
    fun hk => hk.insert h.zero hfresh hi
  rcases eq_or_ne j i with rfl | hji
  · exact .step (Function.update_self ..) (hkeep (h.rooted_of hp))
  · rw [Function.update_of_ne hji] at hj
    exact hkeep (h.rooted j q hj)

/-- Striking an entry without entries of its own. -/
theorem IsForest.del (h : db.IsForest) (hleaf : db.getChildren i = []) : (db.del i).IsForest := by
  refine ⟨h.toConsistent.del, fun j q hj => ?_⟩
  rcases eq_or_ne i 0 with rfl | hi
  · rw [DocumentUrlDB.del, if_pos rfl] at hj ⊢
    exact h.rooted j q hj
  · rw [parent_del hi] at hj ⊢
    rcases eq_or_ne j i with rfl | hji
    · rw [Function.update_self] at hj
      cases hj
    · rw [Function.update_of_ne hji] at hj
      refine (h.rooted j q hj).delete (fun k hk => ?_) hji
      have hmem : k ∈ db.getChildren i := (h.listed k i).mpr hk
      rw [hleaf] at hmem
      cases hmem

/-- Moving an entry to a directory that is not the entry itself or below it. -/
theorem IsForest.updateUrl (h : db.IsForest) (hi : db.parent i = some q)
    (hp : p = 0 ∨ ∃ r, db.parent p = some r) (hnot : ¬ Above db.parent i p) :
    (db.updateUrl i p name).IsForest := by
  refine ⟨h.toConsistent.updateUrl hi, fun j r hj => ?_⟩
  have hj' : ∃ r, db.parent j = some r := by
    rw [parent_updateUrl hi] at hj
    rcases eq_or_ne j i with rfl | hji
    · exact ⟨q, hi⟩
    · exact ⟨r, by rwa [Function.update_of_ne hji] at hj⟩
  rw [parent_updateUrl hi]
  exact (h.rooted_of (Or.inr hj')).move (h.rooted_of hp) hnot

end DocumentUrlDB

/-! ## Paths -/

section Paths

variable {c : UInt8} {pre post : QByteArray}

theorem lastIndexOf_of_not_mem (h : c ∉ post) : lastIndexOf c post = -1 := by
  induction post with
  | nil => rfl
  | cons b post ih =>
    obtain ⟨hb, hpost⟩ := not_or.mp (List.mem_cons.not.mp h)
    simp [lastIndexOf, ih hpost, Ne.symm hb]

theorem lastIndexOf_append (h : c ∉ post) : lastIndexOf c (pre ++ c :: post) = pre.length := by
  induction pre with
  | nil => simp [lastIndexOf, lastIndexOf_of_not_mem h]
  | cons b pre ih =>
    simp only [List.cons_append, lastIndexOf, ih, List.length_cons]
    rw [if_pos (by omega)]
    push_cast
    rfl

/-- A byte string with a slash, cut at the last one. -/
theorem exists_of_lastIndexOf {bs : QByteArray} (h : 0 ≤ lastIndexOf c bs) :
    ∃ pre post, bs = pre ++ c :: post ∧ c ∉ post := by
  have hmem : c ∈ bs := by
    by_contra hnot
    rw [lastIndexOf_of_not_mem hnot] at h
    omega
  obtain ⟨post, pre, hsplit, hnot⟩ := List.eq_append_cons_of_mem (List.mem_reverse.mpr hmem)
  refine ⟨pre.reverse, post.reverse, ?_, by simpa using hnot⟩
  rw [← List.reverse_reverse bs, hsplit]
  simp

theorem left_append : left (pre ++ c :: post) pre.length = pre := by
  simp [left]

theorem mid_append : mid (pre ++ c :: post) (pre.length + 1) = post := by
  have hlength : ((pre.length : ℤ) + 1).toNat = (pre ++ [c]).length := by simp
  have hsplit : pre ++ c :: post = (pre ++ [c]) ++ post := by simp
  rw [mid, hlength, hsplit, List.drop_left]

/-- A path is a directory, a slash and a name. -/
theorem IsPath.split {path : QByteArray} (h : IsPath path) :
    ∃ dir name, path = dir ++ slash :: name ∧ name ≠ [] ∧ slash ∉ name := by
  obtain ⟨components, hne, hname, rfl⟩ := h
  obtain ⟨init, last, rfl⟩ := List.eq_nil_or_concat' components |>.resolve_left hne
  obtain ⟨hlast, hslash⟩ := hname last (by simp)
  exact ⟨(init.map (slash :: ·)).flatten, last, by simp, hlast, hslash⟩

theorem IsPath.ne_nil {path : QByteArray} (h : IsPath path) : path ≠ [] := by
  obtain ⟨dir, name, rfl, -⟩ := h.split
  simp

/-- A path does not end with a slash. -/
theorem IsPath.getLast?_ne {path : QByteArray} (h : IsPath path) : path.getLast? ≠ some slash := by
  obtain ⟨dir, name, rfl, hname, hslash⟩ := h.split
  obtain ⟨init, last, rfl⟩ := (List.eq_nil_or_concat' name).resolve_left hname
  intro hlast
  rw [← List.cons_append, ← List.append_assoc, List.getLast?_concat, Option.some.injEq] at hlast
  exact hslash (by simp [hlast])

theorem FileSystem.filePathToId_eq {fs : FileSystem} {path : QByteArray} {id : DocId}
    (h : fs.lstat path = some id) : fs.filePathToId path = id := by
  rw [filePathToId, h, Option.getD_some]

/-- No word has a character at which the text is split. -/
theorem eq_false_of_mem_splitOnP {α : Type} {q : α → Bool} {text word : List α} {b : α}
    (h : word ∈ text.splitOnP q) (hb : b ∈ word) : q b = false := by
  induction text generalizing word with
  | nil =>
    rw [List.splitOnP_nil, List.mem_singleton] at h
    rw [h] at hb
    exact absurd hb List.not_mem_nil
  | cons a text ih =>
    obtain ⟨first, rest, heq⟩ := List.exists_cons_of_ne_nil (List.splitOnP_ne_nil q text)
    rw [List.splitOnP_cons_eq_if_modifyHead, heq] at h
    rw [heq] at ih
    split at h
    · rcases List.mem_cons.mp h with rfl | h
      · exact absurd hb List.not_mem_nil
      · exact ih h hb
    · next ha =>
      rw [List.modifyHead_cons] at h
      rcases List.mem_cons.mp h with rfl | h
      · rcases List.mem_cons.mp hb with rfl | hb
        · exact Bool.eq_false_iff.mpr ha
        · exact ih List.mem_cons_self hb
      · exact ih (List.mem_cons_of_mem _ h) hb

/-- No component has the byte at which the text is split. -/
theorem notMem_of_mem_splitOn {text word : QByteArray} (h : word ∈ text.splitOn c) : c ∉ word := by
  intro hc
  have hfalse := eq_false_of_mem_splitOnP (q := (· == c)) h hc
  simp at hfalse

end Paths

/-- `dir` is a directory above the path `url`, the root directory apart. -/
def IsAncestor (dir url : QByteArray) : Prop := dir ≠ [] ∧ ∃ rest, url = dir ++ slash :: rest

theorem IsAncestor.trans {a b c : QByteArray} (hab : IsAncestor a b) (hbc : IsAncestor b c) :
    IsAncestor a c := by
  obtain ⟨hne, rest, rfl⟩ := hab
  obtain ⟨-, rest', rfl⟩ := hbc
  exact ⟨hne, rest ++ slash :: rest', by simp⟩

/-! ## Entering a path -/

namespace DocumentUrlDB

variable {fs : FileSystem} {db : DocumentUrlDB}

/-- The loop of `addPath` before the round for `arr`: the entries added so far lead to `id`, which
may be missing. -/
structure Pending (fs : FileSystem) (arr : QByteArray) (id : DocId) (db : DocumentUrlDB) : Prop
    extends Consistent db where
  /-- an entry is below the root, or it was added for a longer path and is below `id` -/
  climbs : ∀ j p, db.parent j = some p → Rooted db.parent 0 j ∨
    Above db.parent id j ∧ ∃ path, arr.length < path.length ∧ fs.lstat path = some j

/-- Once `id` is below the root, everything is. -/
theorem Pending.isForest {arr : QByteArray} {id : DocId} (h : Pending fs arr id db)
    (hid : Rooted db.parent 0 id) : db.IsForest := by
  refine ⟨h.toConsistent, fun j p hj => ?_⟩
  rcases h.climbs j p hj with hroot | ⟨habove, -⟩
  · exact hroot
  · exact hid.of_above habove

/-- What `addPath` leaves behind. -/
structure Entered (fs : FileSystem) (arr : QByteArray) (id : DocId) (db db' : DocumentUrlDB) :
    Prop where
  /-- the tables are a forest -/
  isForest : db'.IsForest
  /-- the path is stored -/
  stored : ∃ p, db'.parent id = some p
  /-- stored entries stay stored -/
  kept : ∀ j, (∃ p, db.parent j = some p) → ∃ p, db'.parent j = some p
  /-- new entries are the path and directories above it -/
  fresh : ∀ j p, db'.parent j = some p → (∃ q, db.parent j = some q) ∨
    ∃ path, (path = arr ∨ IsAncestor path arr) ∧ fs.lstat path = some j

/-- A round that adds `id` under `p`: what was below `id` is below `p` now, and so is `id`. -/
theorem Pending.add {dir name : QByteArray} {id p : DocId} (h : Pending fs (dir ++ slash :: name) id db)
    (hid : fs.lstat (dir ++ slash :: name) = some id) (hid0 : id ≠ 0) (hname : name ≠ [])
    (hfresh : db.parent id = none) : Pending fs dir p (db.add id p name) := by
  have hlength : dir.length < (dir ++ slash :: name).length := by
    rw [List.length_append, List.length_cons]
    omega
  refine ⟨h.toConsistent.add hid0 hname hfresh, fun j q hj => ?_⟩
  rw [parent_add hid0 hname] at hj ⊢
  have hlast : Above (Function.update db.parent id (some p)) p id :=
    .single (Function.update_self ..)
  rcases eq_or_ne j id with rfl | hji
  · exact Or.inr ⟨hlast, _, hlength, hid⟩
  · rw [Function.update_of_ne hji] at hj
    rcases h.climbs j q hj with hroot | ⟨habove, path, hlonger, hpath⟩
    · exact Or.inl (hroot.insert h.zero hfresh hid0)
    · exact Or.inr ⟨hlast.trans (habove.insert hfresh), path, hlength.trans hlonger, hpath⟩

theorem Pending.addPathLoop {rounds : ℕ} {arr : QByteArray} {id : DocId}
    (h : Pending fs arr id db) (hid : fs.lstat arr = some id) (hrounds : arr.length < rounds)
    (hexists : ∀ dir, IsAncestor dir arr → ∃ i, fs.lstat dir = some i) :
    Entered fs arr id db (addPathLoop fs rounds db arr id).1 := by
  induction rounds generalizing db arr id with
  | zero => exact absurd hrounds (Nat.not_lt_zero _)
  | succ rounds ih =>
    have hid0 : id ≠ 0 := fun h0 => fs.ne_zero arr (h0 ▸ hid)
    rw [DocumentUrlDB.addPathLoop, if_neg hid0]
    by_cases hstored : db.idFilenameDb.contains id = true
    · -- an entry the loop has not added is below the root
      obtain ⟨p, hp⟩ := exists_parent.mpr hstored
      have hroot : Rooted db.parent 0 id := by
        rcases h.climbs id p hp with hroot | ⟨-, path, hlonger, hpath⟩
        · exact hroot
        · rw [fs.injective path arr id hpath hid] at hlonger
          exact absurd hlonger (lt_irrefl _)
      rw [if_pos hstored]
      exact ⟨h.isForest hroot, ⟨p, hp⟩, fun j hj => hj, fun j q hj => Or.inl ⟨q, hj⟩⟩
    · have hfresh : db.parent id = none := parent_eq_none.mpr (Bool.eq_false_iff.mpr hstored)
      obtain ⟨dir, name, rfl, hname, hslash⟩ := (fs.isPath arr id hid).split
      rw [if_neg hstored, lastIndexOf_append hslash]
      simp only [left_append, mid_append]
      have hfresh' : ∀ {p j q}, (db.add id p name).parent j = some q →
          j = id ∨ ∃ q, db.parent j = some q := fun {p j q} hj => by
        rw [parent_add hid0 hname] at hj
        rcases eq_or_ne j id with rfl | hji
        · exact Or.inl rfl
        · exact Or.inr ⟨q, by rwa [Function.update_of_ne hji] at hj⟩
      have hkept : ∀ {p} j, (∃ q, db.parent j = some q) → ∃ q, (db.add id p name).parent j = some q :=
        fun {p} j hj => by
          obtain ⟨q, hq⟩ := hj
          rw [parent_add hid0 hname]
          rcases eq_or_ne j id with rfl | hji
          · exact ⟨p, Function.update_self ..⟩
          · exact ⟨q, by rwa [Function.update_of_ne hji]⟩
      have hself : ∀ p, (db.add id p name).parent id = some p := fun p => by
        rw [parent_add hid0 hname, Function.update_self]
      rcases eq_or_ne dir [] with rfl | hdir
      · -- the entry is at the top level
        rw [if_pos (by simp)]
        refine ⟨(h.add hid hid0 hname hfresh).isForest Forest.rooted_root, ⟨0, hself 0⟩,
          hkept, fun j q hj => ?_⟩
        rcases hfresh' hj with rfl | hold
        · exact Or.inr ⟨_, Or.inl rfl, hid⟩
        · exact Or.inl hold
      · -- the entry is in a directory, with which the loop goes on
        have hancestor : IsAncestor dir (dir ++ slash :: name) := ⟨hdir, name, rfl⟩
        obtain ⟨parentId, hparentId⟩ := hexists dir hancestor
        have hparentId0 : parentId ≠ 0 := fun h0 => fs.ne_zero dir (h0 ▸ hparentId)
        rw [if_neg (by simpa using hdir), fs.filePathToId_eq hparentId, if_neg hparentId0]
        have hrounds' : dir.length < rounds := by
          rw [List.length_append, List.length_cons] at hrounds
          omega
        have hentered := ih (h.add (p := parentId) hid hid0 hname hfresh) hparentId hrounds'
          fun d hd => hexists d (hd.trans hancestor)
        refine ⟨hentered.isForest, hentered.kept id ⟨parentId, hself parentId⟩,
          fun j hj => hentered.kept j (hkept j hj), fun j q hj => ?_⟩
        · rcases hentered.fresh j q hj with ⟨r, hr⟩ | ⟨path, hpath, hj⟩
          · rcases hfresh' hr with rfl | hold
            · exact Or.inr ⟨_, Or.inl rfl, hid⟩
            · exact Or.inl hold
          · refine Or.inr ⟨path, Or.inr ?_, hj⟩
            rcases hpath with rfl | hpath
            · exact hancestor
            · exact hpath.trans hancestor

theorem addPath_eq {url : QByteArray} {id : DocId} (hid : fs.lstat url = some id) :
    db.addPath fs url = addPathLoop fs (url.length + 1) db url id := by
  have hpath := fs.isPath url id hid
  rw [addPath, if_neg (not_or.mpr ⟨hpath.ne_nil, hpath.getLast?_ne⟩), fs.filePathToId_eq hid]

theorem IsForest.addPath (h : db.IsForest) {url : QByteArray} {id : DocId}
    (hid : fs.lstat url = some id)
    (hexists : ∀ dir, IsAncestor dir url → ∃ i, fs.lstat dir = some i) :
    Entered fs url id db (db.addPath fs url).1 := by
  rw [addPath_eq hid]
  exact Pending.addPathLoop ⟨h.toConsistent, fun j p hj => Or.inl (h.rooted j p hj)⟩ hid
    (Nat.lt_succ_self _) hexists

/-- Entering the path of a document. -/
theorem IsForest.addUrl (h : db.IsForest) {doc : Document} (hfresh : db.parent doc.id = none)
    (hexists : ∀ dir, IsAncestor dir doc.url → ∃ i, fs.lstat dir = some i)
    (hparent : 0 < lastIndexOf slash doc.url →
      fs.lstat (left doc.url (lastIndexOf slash doc.url)) = some doc.parentId)
    (hself : ∀ dir, IsAncestor dir doc.url → fs.lstat dir ≠ some doc.id) :
    (WriteTransaction.addUrl fs db doc).1.IsForest := by
  have hput : ∀ {db' db'' : DocumentUrlDB} {p : DocId} {name : QByteArray}, db'.IsForest →
      db'.parent doc.id = none → (p = 0 ∨ ∃ q, db'.parent p = some q) →
      db'.put doc.id p name = some db'' → db''.IsForest := by
    intro db' db'' p name hdb' hnone hp hsome
    rw [put] at hsome
    split at hsome
    · next hcan =>
      obtain rfl := Option.some.inj hsome
      simp only [canPut, Bool.and_eq_true, decide_eq_true_eq] at hcan
      exact hdb'.add hcan.1.1 hcan.1.2 hnone hp
    · cases hsome
  rw [WriteTransaction.addUrl]
  by_cases hpos : 0 < lastIndexOf slash doc.url
  · simp only [if_pos hpos]
    obtain ⟨dir, name, hurl, hslash⟩ := exists_of_lastIndexOf (Int.le_of_lt hpos)
    have hpos' : lastIndexOf slash doc.url = dir.length := by rw [hurl, lastIndexOf_append hslash]
    have hdir : dir ≠ [] := by
      rintro rfl
      rw [hpos'] at hpos
      exact absurd hpos (by simp)
    have hancestor : IsAncestor dir doc.url := ⟨hdir, name, hurl⟩
    have hleft : left doc.url dir.length = dir := by rw [hurl, left_append]
    rw [hpos', hleft] at hparent ⊢
    have hentered := h.addPath (hparent (hpos' ▸ hpos)) fun d hd => hexists d (hd.trans hancestor)
    -- the path of the directory does not bring the document itself
    have hnone : (db.addPath fs dir).1.parent doc.id = none := by
      rcases hnone : (db.addPath fs dir).1.parent doc.id with _ | p
      · rfl
      · rcases hentered.fresh doc.id p hnone with ⟨q, hq⟩ | ⟨path, hpath, hpathId⟩
        · rw [hfresh] at hq
          cases hq
        · refine absurd hpathId (hself path ?_)
          rcases hpath with rfl | hpath
          · exact hancestor
          · exact hpath.trans hancestor
    split
    · exact hentered.isForest
    · next db'' hsome => exact hput hentered.isForest hnone (Or.inr hentered.stored) hsome
  · simp only [if_neg hpos]
    split
    · exact h
    · next db'' hsome => exact hput h hfresh (Or.inl rfl) hsome

end DocumentUrlDB

/-! ## Removing whole directories -/

/-- The URL tree of a transaction is a forest. -/
abbrev UrlForest (w : WriteTransaction) : Prop := w.dbis.docUrlDb.IsForest

/-- Every entry that `w'` stores is stored in `w`, in the same directory. -/
def Shrinks (w w' : WriteTransaction) : Prop :=
  ∀ i p, w'.dbis.docUrlDb.parent i = some p → w.dbis.docUrlDb.parent i = some p

section Removal

variable {w w' : WriteTransaction} {id : DocId}

theorem Shrinks.refl (w : WriteTransaction) : Shrinks w w := fun _ _ h => h

theorem Shrinks.trans {w'' : WriteTransaction} (h : Shrinks w w') (h' : Shrinks w' w'') :
    Shrinks w w'' := fun i p hp => h i p (h' i p hp)

theorem shrinks_removeDocument (w : WriteTransaction) (id : DocId) :
    Shrinks w (w.removeDocument id) := by
  intro i p hp
  change (w.dbis.docUrlDb.del id).parent i = some p at hp
  rcases eq_or_ne id 0 with rfl | hid
  · rwa [DocumentUrlDB.del, if_pos rfl] at hp
  · rw [DocumentUrlDB.parent_del hid] at hp
    rcases eq_or_ne i id with rfl | hi
    · rw [Function.update_self] at hp
      cases hp
    · rwa [Function.update_of_ne hi] at hp

/-- Fewer entries, fewer children. -/
theorem Shrinks.getChildren (h : Shrinks w w') (hw : UrlForest w) (hw' : UrlForest w') (p : DocId) :
    ∀ c ∈ w'.dbis.docUrlDb.getChildren p, c ∈ w.dbis.docUrlDb.getChildren p :=
  fun c hc => (hw.listed c p).mpr (h c p ((hw'.listed c p).mp hc))

/-- Removing a directory keeps the forest, and the directory is gone. -/
theorem UrlForest.removeRecursively {fuel : ℕ} (h : UrlForest w)
    (hr : w.removeRecursively fuel id = some w') :
    UrlForest w' ∧ Shrinks w w' ∧ w'.dbis.docUrlDb.parent id = none := by
  induction fuel generalizing w w' id with
  | zero => cases hr
  | succ fuel ih =>
    rw [WriteTransaction.removeRecursively, Option.bind_eq_bind, Option.bind_eq_some_iff] at hr
    obtain ⟨v, hchildren, hr⟩ := hr
    obtain rfl := Option.some.inj hr
    -- the children that are left are those still to come
    obtain ⟨hv, hshrinks, hleft⟩ := Induction.foldlM_rest
      (I := fun l v => UrlForest v ∧ Shrinks w v ∧
        ∀ c, v.dbis.docUrlDb.parent c = some id → c ∈ l)
      (fun c l b b' hI hstep => by
        obtain ⟨hb, hshrinks, hleft⟩ := hI
        split at hstep
        · obtain ⟨hb', hshrinks', hgone⟩ := ih hb hstep
          refine ⟨hb', hshrinks.trans hshrinks', fun d hd => ?_⟩
          rcases List.mem_cons.mp (hleft d (hshrinks' d id hd)) with rfl | hmem
          · rw [hgone] at hd
            cases hd
          · exact hmem
        · next hc =>
          obtain rfl := Option.some.inj hstep
          refine ⟨hb, hshrinks, fun d hd => ?_⟩
          rcases List.mem_cons.mp (hleft d hd) with rfl | hmem
          · exact absurd (hb.ne_zero hd) hc
          · exact hmem)
      ⟨h, Shrinks.refl w, fun c hc => (h.listed c id).mpr hc⟩ hchildren
    have hleaf : v.dbis.docUrlDb.getChildren id = [] :=
      List.eq_nil_iff_forall_not_mem.mpr fun c hc =>
        absurd (hleft c ((hv.listed c id).mp hc)) List.not_mem_nil
    have hgone : UrlForest (v.removeDocument id) := hv.del hleaf
    refine ⟨hgone, hshrinks.trans (shrinks_removeDocument v id), ?_⟩
    change (v.dbis.docUrlDb.del id).parent id = none
    rcases eq_or_ne id 0 with rfl | hid
    · exact hgone.zero
    · rw [DocumentUrlDB.parent_del hid, Function.update_self]

/-- Removing a directory as far as a predicate says keeps the forest: a document is removed only
after all its children. -/
theorem UrlForest.removeRecursivelyIf {shouldDelete : QByteArray → Bool} {fuel : ℕ}
    {r : WriteTransaction × Bool} (h : UrlForest w)
    (hr : w.removeRecursivelyIf shouldDelete fuel id = some r) : UrlForest r.1 ∧ Shrinks w r.1 := by
  induction fuel generalizing w r id with
  | zero => cases hr
  | succ fuel ih =>
    rw [WriteTransaction.removeRecursivelyIf] at hr
    split at hr
    · exact Option.some.inj hr ▸ ⟨h, Shrinks.refl w⟩
    · rw [Option.bind_eq_bind, Option.bind_eq_some_iff] at hr
      obtain ⟨⟨v, isEmpty⟩, hchildren, hr⟩ := hr
      obtain ⟨hv, hshrinks⟩ : UrlForest v ∧ Shrinks w v :=
        Induction.foldlM_preserves
          (P := fun s : WriteTransaction × Bool => UrlForest s.1 ∧ Shrinks w s.1)
          (fun s c s' _ hs hstep => by
            split at hstep
            · obtain ⟨r', hr', rfl⟩ := Option.map_eq_some_iff.mp hstep
              obtain ⟨hforest, hshrinks⟩ := ih hs.1 hr'
              exact ⟨hforest, hs.2.trans hshrinks⟩
            · exact Option.some.inj hstep ▸ hs)
          ⟨h, Shrinks.refl w⟩ hchildren
      simp only at hr
      split at hr
      · next hempty =>
        obtain rfl := Option.some.inj hr
        exact ⟨hv.del hempty.2, hshrinks.trans (shrinks_removeDocument v id)⟩
      · exact Option.some.inj hr ▸ ⟨hv, hshrinks⟩

/-- In a forest the walk down from any id is bounded. -/
theorem UrlForest.exists_heightLE (h : UrlForest w) (id : DocId) :
    ∃ n, Forest.HeightLE w.dbis.docUrlDb.getChildren n id := by
  have hnodes : ∀ x p, w.dbis.docUrlDb.parent x = some p →
      x ∈ w.dbis.docUrlDb.idFilenameDb.keys := fun x p hx =>
    OrdMap.contains_iff_mem_keys.mp (DocumentUrlDB.exists_parent.mp ⟨p, hx⟩)
  have hchildren : ∀ x, ∀ c ∈ w.dbis.docUrlDb.getChildren x,
      w.dbis.docUrlDb.parent c = some x := fun x c hc => (h.listed c x).mp hc
  by_cases hid : id = 0 ∨ ∃ p, w.dbis.docUrlDb.parent id = some p
  · exact Forest.exists_heightLE h.zero hchildren hnodes (h.rooted_of hid)
  · -- an id that is not stored has no children
    refine ⟨1, fun c hc => absurd ?_ hid⟩
    have hc' := hchildren id c hc
    exact (h.rooted c id hc').above (.single hc') h.zero

/-- A walk down a forest that is long enough for every path removes the directory. -/
theorem removeRecursively_total {n : ℕ} (h : UrlForest w)
    (hn : Forest.HeightLE w.dbis.docUrlDb.getChildren n id) :
    ∃ w', w.removeRecursively n id = some w' := by
  induction n generalizing w id with
  | zero => exact hn.elim
  | succ n ih =>
    obtain ⟨v, hv, -⟩ := Induction.foldlM_total
      (f := fun w id => if id ≠ 0 then WriteTransaction.removeRecursively n w id else some w)
      (I := fun l v => UrlForest v ∧ Shrinks w v ∧ l ⊆ w.dbis.docUrlDb.getChildren id)
      (fun c l v hI => by
        obtain ⟨hv, hshrinks, hl⟩ := hI
        obtain ⟨hc, hl⟩ := List.cons_subset.mp hl
        split
        · have hheight := (hn c hc).mono (hshrinks.getChildren h hv) (le_refl n)
          obtain ⟨v', hv'⟩ := ih hv hheight
          obtain ⟨hforest, hshrinks', -⟩ := hv.removeRecursively hv'
          exact ⟨v', hv', hforest, hshrinks.trans hshrinks', hl⟩
        · exact ⟨v, rfl, hv, hshrinks, hl⟩)
      ⟨h, Shrinks.refl w, List.Subset.refl _⟩
    refine ⟨v.removeDocument id, ?_⟩
    rw [WriteTransaction.removeRecursively, Option.bind_eq_bind, hv, Option.bind_some]

theorem removeRecursivelyIf_total {shouldDelete : QByteArray → Bool} {n : ℕ} (h : UrlForest w)
    (hn : Forest.HeightLE w.dbis.docUrlDb.getChildren n id) :
    ∃ r, w.removeRecursivelyIf shouldDelete n id = some r := by
  induction n generalizing w id with
  | zero => exact hn.elim
  | succ n ih =>
    rw [WriteTransaction.removeRecursivelyIf]
    split
    · exact ⟨_, rfl⟩
    · obtain ⟨⟨v, isEmpty⟩, hv, -⟩ := Induction.foldlM_total
        (f := fun (s : WriteTransaction × Bool) id =>
          if id ≠ 0 then
            (WriteTransaction.removeRecursivelyIf shouldDelete n s.1 id).map
              fun r => (r.1, s.2 && r.2)
          else some s)
        (I := fun l s => UrlForest s.1 ∧ Shrinks w s.1 ∧ l ⊆ w.dbis.docUrlDb.getChildren id)
        (fun c l s hI => by
          obtain ⟨hs, hshrinks, hl⟩ := hI
          obtain ⟨hc, hl⟩ := List.cons_subset.mp hl
          split
          · have hheight := (hn c hc).mono (hshrinks.getChildren h hs) (le_refl n)
            obtain ⟨r, hr⟩ := ih hs hheight
            obtain ⟨hforest, hshrinks'⟩ := hs.removeRecursivelyIf hr
            exact ⟨(r.1, s.2 && r.2), by rw [hr, Option.map_some], hforest,
              hshrinks.trans hshrinks', hl⟩
          · exact ⟨s, rfl, hs, hshrinks, hl⟩)
        (b := (w, true)) ⟨h, Shrinks.refl w, List.Subset.refl _⟩
      simp only [Option.bind_eq_bind, hv, Option.bind_some]
      split
      · exact ⟨_, rfl⟩
      · exact ⟨_, rfl⟩

/-- **Removals terminate**: on a forest the recursion of both removals ends. -/
theorem UrlForest.removal_terminates (h : UrlForest w) (shouldDelete : QByteArray → Bool)
    (id : DocId) : ∃ fuel, (∃ w', w.removeRecursively fuel id = some w') ∧
      ∃ r, w.removeRecursivelyIf shouldDelete fuel id = some r := by
  obtain ⟨n, hn⟩ := h.exists_heightLE id
  exact ⟨n, removeRecursively_total h hn, removeRecursivelyIf_total h hn⟩

end Removal

/-! ## Runs -/

theorem docUrlDb_addDocument (fs : FileSystem) (w : WriteTransaction) (doc : Document) :
    (w.addDocument fs doc).dbis.docUrlDb =
      (WriteTransaction.addUrl fs w.dbis.docUrlDb doc).1 := by
  rcases hurl : WriteTransaction.addUrl fs w.dbis.docUrlDb doc with ⟨db, _ | _⟩
  · simp [WriteTransaction.addDocument, hurl]
  · simp [WriteTransaction.addDocument, hurl, WriteTransaction.addTerms]

theorem docUrlDb_replaceDocument (w : WriteTransaction) (doc : Document)
    {operations : DocumentOperations} (hurl : operations.documentUrl = true) :
    (w.replaceDocument doc operations).dbis.docUrlDb =
      w.dbis.docUrlDb.updateUrl doc.id doc.parentId
        (mid doc.url (lastIndexOf slash doc.url + 1)) := by
  obtain ⟨docTermsDb, docXattrTermsDb, docFilenameTermsDb, hframe⟩ := w.replaceDocument_frame doc operations
  rw [hframe, WriteTransaction.replaceData]
  simp only [hurl, if_true]

/-- One operation on the URL tree. `lstat` may be another one in every step; `admits` is a condition
on the documents that are added. -/
inductive UrlStep (admits : FileSystem → Document → Prop) : WriteTransaction → WriteTransaction → Prop
  /-- a document that is not stored is added; the directories above it exist, and it names the id of
  its directory -/
  | addDocument {w : WriteTransaction} (fs : FileSystem) (doc : Document) :
    w.dbis.docUrlDb.idFilenameDb.contains doc.id = false →
    (∀ dir, IsAncestor dir doc.url → ∃ i, fs.lstat dir = some i) →
    (0 < lastIndexOf slash doc.url →
      fs.lstat (left doc.url (lastIndexOf slash doc.url)) = some doc.parentId) →
    admits fs doc → UrlStep admits w (w.addDocument fs doc)
  /-- a stored document is moved to a stored directory that is not below it -/
  | updateUrl {w : WriteTransaction} (id newParentId : DocId) (newName : QByteArray) :
    w.dbis.docUrlDb.idFilenameDb.contains id = true →
    newParentId = 0 ∨ w.dbis.docUrlDb.idFilenameDb.contains newParentId = true →
    ¬ Above w.dbis.docUrlDb.parent id newParentId →
    UrlStep admits w { w with dbis := { w.dbis with
      docUrlDb := w.dbis.docUrlDb.updateUrl id newParentId newName } }
  /-- the same by `replaceDocument` -/
  | replaceDocument {w : WriteTransaction} (doc : Document) (operations : DocumentOperations) :
    operations.documentUrl = true → w.dbis.docUrlDb.idFilenameDb.contains doc.id = true →
    doc.parentId = 0 ∨ w.dbis.docUrlDb.idFilenameDb.contains doc.parentId = true →
    ¬ Above w.dbis.docUrlDb.parent doc.id doc.parentId →
    UrlStep admits w (w.replaceDocument doc operations)
  /-- a document without children is removed -/
  | removeDocument {w : WriteTransaction} (id : DocId) :
    w.dbis.docUrlDb.getChildren id = [] → UrlStep admits w (w.removeDocument id)
  /-- a directory is removed -/
  | removeRecursively {w w' : WriteTransaction} (fuel : ℕ) (id : DocId) :
    w.removeRecursively fuel id = some w' → UrlStep admits w w'
  /-- a directory is removed as far as a predicate says -/
  | removeRecursivelyIf {w w' : WriteTransaction} (shouldDelete : QByteArray → Bool) (fuel : ℕ)
    (id : DocId) (gone : Bool) :
    w.removeRecursivelyIf shouldDelete fuel id = some (w', gone) → UrlStep admits w w'
  /-- the transaction is committed and the next one begins -/
  | commit {w : WriteTransaction} (order : List Term) : UrlStep admits w { dbis := w.commit order }

/-- The id of the document is not the id of a directory above it. -/
def OwnId (fs : FileSystem) (doc : Document) : Prop :=
  ∀ dir, IsAncestor dir doc.url → fs.lstat dir ≠ some doc.id

/-- The callers take the id from the path, so it is not the id of another path. -/
theorem OwnId.of_lstat {fs : FileSystem} {doc : Document} (h : fs.lstat doc.url = some doc.id) :
    OwnId fs doc := by
  rintro dir ⟨-, rest, hrest⟩ hdir
  have hsame : dir = doc.url := fs.injective dir doc.url doc.id hdir h
  have hlength := congrArg List.length (hsame.trans hrest)
  rw [List.length_append, List.length_cons] at hlength
  omega

/-- **Every operation keeps the URL tree a forest.** -/
theorem UrlForest.step {w w' : WriteTransaction} (h : UrlForest w) (hstep : UrlStep OwnId w w') :
    UrlForest w' := by
  have hmove : ∀ {id p : DocId} {name : QByteArray},
      w.dbis.docUrlDb.idFilenameDb.contains id = true →
      p = 0 ∨ w.dbis.docUrlDb.idFilenameDb.contains p = true →
      ¬ Above w.dbis.docUrlDb.parent id p → (w.dbis.docUrlDb.updateUrl id p name).IsForest := by
    intro id p name hid hp hnot
    obtain ⟨q, hq⟩ := DocumentUrlDB.exists_parent.mpr hid
    exact h.updateUrl hq (hp.imp_right DocumentUrlDB.exists_parent.mpr) hnot
  cases hstep with
  | addDocument fs doc hid hdirs hparent hown =>
    rw [UrlForest, docUrlDb_addDocument]
    exact h.addUrl (DocumentUrlDB.parent_eq_none.mpr hid) hdirs hparent hown
  | updateUrl id newParentId newName hid hp hnot => exact hmove hid hp hnot
  | replaceDocument doc operations hurl hid hp hnot =>
    rw [UrlForest, docUrlDb_replaceDocument w doc hurl]
    exact hmove hid hp hnot
  | removeDocument id hleaf => exact h.del hleaf
  | removeRecursively fuel id hw => exact (h.removeRecursively hw).1
  | removeRecursivelyIf shouldDelete fuel id gone hw => exact (h.removeRecursivelyIf hw).1
  | commit order =>
    rw [UrlForest, docUrlDb_commit]
    exact h

theorem UrlForest.run {w w' : WriteTransaction} (h : UrlForest w)
    (hrun : Relation.ReflTransGen (UrlStep OwnId) w w') : UrlForest w' := by
  induction hrun with
  | refl => exact h
  | tail _ hstep ih => exact ih.step hstep

theorem UrlForest.empty : UrlForest {} := by
  have hparent : ∀ i, DocumentUrlDB.parent {} i = none := fun i => by
    simp [DocumentUrlDB.parent]
  refine ⟨⟨fun i p => ?_, hparent 0, fun p => SortedSeq.ascending_nil, fun p => ?_⟩,
    fun i p hi => ?_⟩
  · rw [hparent]
    simp
  · simp
  · rw [hparent] at hi
    cases hi

/-- A file system with the directory `/p`, which has the id `5`. -/
def onlyP : FileSystem where
  lstat path := if path = [slash, 112] then some 5 else none
  isPath path id h := by
    split at h
    · next hpath => exact ⟨[[112]], by simp, by simp [slash], hpath⟩
    · cases h
  ne_zero path h := by
    split at h
    · cases h
    · cases h
  injective path path' id h h' := by
    split at h
    · next hpath =>
      split at h'
      · next hpath' => rw [hpath, hpath']
      · cases h'
    · cases h

/-- The file `/p/d` under the given id. -/
def fileD (id : DocId) : Document := { id := id, parentId := 5, url := [slash, 112, slash, 100] }

theorem isAncestor_fileD {dir : QByteArray} {id : DocId} (h : IsAncestor dir (fileD id).url) :
    dir = [slash, 112] := by
  obtain ⟨hne, rest, hrest⟩ := h
  rcases dir with _ | ⟨b₁, _ | ⟨b₂, _ | ⟨b₃, _ | ⟨b₄, dir⟩⟩⟩⟩
  · exact absurd rfl hne
  · exact absurd (List.cons.inj (List.cons.inj hrest).2).1 (by decide)
  · obtain ⟨h₁, hrest⟩ := List.cons.inj hrest
    rw [← h₁, ← (List.cons.inj hrest).1]
  · obtain ⟨-, hrest⟩ := List.cons.inj (List.cons.inj (List.cons.inj hrest).2).2
    exact absurd (List.cons.inj hrest).1 (by decide)
  · have hlength := congrArg List.length hrest
    simp [fileD] at hlength

theorem exists_onlyP {dir : QByteArray} {id : DocId} (h : IsAncestor dir (fileD id).url) :
    ∃ i, onlyP.lstat dir = some i := by
  rw [isAncestor_fileD h]
  exact ⟨5, rfl⟩

/-- **The two tables of the URL tree are one forest**: after every operation an entry is listed under
`p` exactly if it is stored with directory `p`, so it is listed once; the lists are strictly
ascending, not empty and without `0`; and the climb from every stored entry ends at `0`. -/
theorem url_forest {w : WriteTransaction} (h : Relation.ReflTransGen (UrlStep OwnId) {} w) :
    (∀ id p, id ∈ w.dbis.docUrlDb.idTreeDb.get p ↔
      ∃ path, OrdMap.get w.dbis.docUrlDb.idFilenameDb id = some path ∧ path.parentId = p) ∧
    (∀ id p q, id ∈ w.dbis.docUrlDb.idTreeDb.get p → id ∈ w.dbis.docUrlDb.idTreeDb.get q → p = q) ∧
    (∀ p list, OrdMap.get w.dbis.docUrlDb.idTreeDb p = some list →
      list.Pairwise (· < ·) ∧ list ≠ [] ∧ 0 ∉ list) ∧
    ∀ id, w.dbis.docUrlDb.idFilenameDb.contains id = true →
      Rooted w.dbis.docUrlDb.parent 0 id := by
  have hforest : UrlForest w := UrlForest.empty.run h
  refine ⟨fun id p => ?_, fun id p q => hforest.mem_unique, fun p list hlist => ?_, fun id hid => ?_⟩
  · rw [hforest.listed, DocumentUrlDB.parent, Option.map_eq_some_iff]
  · have hget : w.dbis.docUrlDb.idTreeDb.get p = list := by
      rw [IdTreeDB.get, OrdMap.values, hlist, Option.getD_some]
    refine ⟨hget ▸ hforest.ascending p, ?_, fun hmem => ?_⟩
    · rintro rfl
      exact hforest.nonempty p hlist
    · rw [← hget, hforest.listed, hforest.zero] at hmem
      cases hmem
  · obtain ⟨p, hp⟩ := DocumentUrlDB.exists_parent.mpr hid
    exact hforest.rooted id p hp

theorem url_forest_fileD :
    7 ∈ (({} : WriteTransaction).addDocument onlyP (fileD 7)).dbis.docUrlDb.idTreeDb.get 5 ∧
      7 ∉ (({} : WriteTransaction).addDocument onlyP (fileD 7)).dbis.docUrlDb.idTreeDb.get 0 := by
  have hown : OwnId onlyP (fileD 7) := fun dir hdir h => by
    rw [isAncestor_fileD hdir] at h
    cases h
  have hrun : Relation.ReflTransGen (UrlStep OwnId) {} (({} : WriteTransaction).addDocument onlyP
      (fileD 7)) :=
    .single (.addDocument onlyP (fileD 7) (by decide) (fun _ => exists_onlyP) (fun _ => by decide)
      hown)
  obtain ⟨hlisted, -⟩ := url_forest hrun
  have h5 := (hlisted 7 5).mpr ⟨{ parentId := 5, name := [100] }, by decide, rfl⟩
  refine ⟨h5, fun h0 => ?_⟩
  obtain ⟨path, hpath, hzero⟩ := (hlisted 7 0).mp h0
  obtain ⟨path', hpath', hfive⟩ := (hlisted 7 5).mp h5
  rw [hpath] at hpath'
  rw [Option.some.inj hpath', hfive] at hzero
  cases hzero

/-- A document with the id of its own directory is listed twice. -/
theorem own_directory_listed_twice : ¬ ∀ w, Relation.ReflTransGen (UrlStep fun _ _ => True) {} w →
    ∀ id p, id ∈ w.dbis.docUrlDb.idTreeDb.get p ↔
      ∃ path, OrdMap.get w.dbis.docUrlDb.idFilenameDb id = some path ∧ path.parentId = p := by
  intro h
  have hstep : UrlStep (fun _ _ => True) {} (({} : WriteTransaction).addDocument onlyP (fileD 5)) :=
    .addDocument onlyP (fileD 5) (by decide) (fun _ => exists_onlyP) (fun _ => by decide) trivial
  obtain ⟨path, hpath, hzero⟩ := (h _ (.single hstep) 5 0).mp (by decide)
  have hstored : OrdMap.get (({} : WriteTransaction).addDocument onlyP
      (fileD 5)).dbis.docUrlDb.idFilenameDb 5 = some { parentId := 5, name := [100] } := by decide
  rw [hstored] at hpath
  rw [← Option.some.inj hpath] at hzero
  cases hzero

end Baloo
