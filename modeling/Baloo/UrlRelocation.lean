import Baloo.MetadataMover

/-!
# Relocating a subtree

`updateUrl` writes the directory and the name of one entry and strikes it from one list to enter it in
another. The entries below it are not touched; their paths follow, because a path is what a climb finds. So
the call relocates exactly the subtree of the entry (`updateUrl_relocates`), and no other entry notices.
-/

namespace Baloo.DocumentUrlDB

open Forest (Above)

variable {db : DocumentUrlDB} {id p q i r : DocId} {name : QByteArray}

/-! ## The lists -/

/-- The lists after the call. -/
theorem getChildren_updateUrl (h : db.Consistent) (hid : db.parent id = some q) (r : DocId) :
    (db.updateUrl id p name).getChildren r =
      if q = p then db.getChildren r
      else if r = p then sortedIdInsert (db.getChildren r) id
      else if r = q then sortedIdRemove (db.getChildren r) id
      else db.getChildren r := by
  have hq : (db.filePath id).parentId = q := by rw [parentId_filePath, hid]; rfl
  have hmem : id ∈ db.idTreeDb.get q := (h.listed id q).mpr hid
  rw [getChildren, getChildren, updateUrl, hq]
  dsimp only
  by_cases hqp : q = p
  · rw [if_neg (not_not.mpr hqp), if_pos hqp]
  · rw [if_pos hqp, if_neg hqp, if_pos hmem, IdTreeDB.get_set, IdTreeDB.get_set, if_neg (Ne.symm hqp)]
    split
    · next hr => rw [hr]
    · rw [IdTreeDB.get_set]
      split
      · next hr => rw [hr]
      · rfl

/-- What a call leaves in the lists: the entry is in the list of its new directory, and in no other. -/
theorem mem_getChildren_updateUrl (h : db.Consistent) (hid : db.parent id = some q) {j : DocId} :
    j ∈ (db.updateUrl id p name).getChildren r ↔ if j = id then r = p else j ∈ db.getChildren r := by
  have hlisted : j ∈ (db.updateUrl id p name).idTreeDb.get r ↔ (db.updateUrl id p name).parent j = some r :=
    (h.updateUrl hid).listed j r
  rw [parent_updateUrl hid] at hlisted
  rw [getChildren, hlisted]
  by_cases hj : j = id
  · rw [hj, Function.update_self, if_pos rfl, Option.some.injEq, eq_comm]
  · rw [Function.update_of_ne hj, if_neg hj]
    exact (h.listed j r).symm

/-! ## The paths -/

/-- The call moves one entry and removes none. -/
theorem moves_updateUrl (hid : db.parent id = some q) :
    Moves ∅ id { parentId := p, name := name } db (db.updateUrl id p name) := by
  obtain ⟨path, hpath, -⟩ := Option.map_eq_some_iff.mp hid
  have hget := @idFilenameDb_updateUrl db id path p name hpath
  refine ⟨?_, fun i hi => absurd hi (Set.notMem_empty i), fun i _ hi => ?_,
    fun i r _ hr => absurd hr (Set.notMem_empty r)⟩
  · rw [hget, if_pos rfl]
  · rw [hget, if_neg hi]

/-- The path of an entry that is not stored is empty. -/
theorem get_of_none (h : db.idFilenameDb.get i = none) : db.get i = [] := by
  rw [get, h]
  split <;> rfl

/-- An entry that has stayed where it was has the path it had, also if the path is too long to be given. -/
theorem Located.get_eq {db' : DocumentUrlDB} {n : ℕ} {url : QByteArray} (h : db.Located n i url)
    (h' : db'.Located n i url) : db'.get i = db.get i := by
  rcases Nat.lt_or_ge 513 n with hdeep | hn
  · rw [h.get_eq_nil hdeep, h'.get_eq_nil hdeep]
  · rw [h.get hn, h'.get hn]

/-- Away from the entry paths stay the same. -/
theorem get_updateUrl_of_not_above (h : db.IsForest) (hid : db.parent id = some q) (hi : ¬Above db.parent id i) :
    (db.updateUrl id p name).get i = db.get i := by
  have hmoves := @moves_updateUrl db id p q name hid
  rcases hget : db.idFilenameDb.get i with _ | path
  · have hne : i ≠ id := fun heq => hi (heq ▸ .refl)
    rw [get_of_none hget, get_of_none ((hmoves.kept i (Set.notMem_empty i) hne).trans hget)]
  · obtain ⟨n, url, hlocated⟩ := h.exists_located (OrdMap.contains_iff.mpr ⟨path, hget⟩)
    exact hlocated.get_eq (hmoves.located (Set.notMem_empty i) hi hlocated)

/-- An entry is as deep as its climb is long. -/
theorem Located.depth {n : ℕ} {url : QByteArray} (h : db.Located n i url) : Forest.Depth db.parent 0 n i := by
  induction h with
  | root => exact .root
  | entry _ hget _ ih => exact .step (by rw [DocumentUrlDB.parent, hget]; rfl) ih

/-- The entry `id` has been moved from the directory `q` to the directory `p` and has got a name there. -/
structure Relocated (db db' : DocumentUrlDB) (id q p : DocId) (name : QByteArray) : Prop where
  /-- below the entry the path begins with the new one: `rest` is what stands behind the path of the entry. A
  path that is too long is not given -/
  below : ∀ d, Above db.parent id d → ∃ m n source rest, db.Located m id source ∧ db.Located n d (source ++ rest) ∧
    ∀ k url, db'.Located k d url → k ≤ 513 → db'.get d = db.get p ++ slash :: name ++ rest
  /-- other paths stay the same -/
  other : ∀ i, ¬Above db.parent id i → db'.get i = db.get i
  /-- the entry is struck from one list and entered in another -/
  children : ∀ r j, j ∈ db'.getChildren r ↔ if j = id then r = p else j ∈ db.getChildren r
  /-- other lists stay the same -/
  lists : ∀ r, r ≠ q → r ≠ p → db'.getChildren r = db.getChildren r
  /-- the tables are a forest -/
  forest : db'.IsForest
  /-- names stay components of paths -/
  named : db.WellNamed → db'.WellNamed

/-- **`updateUrl` relocates one subtree**, if the new directory is the root or stored, and not in the
subtree. -/
theorem updateUrl_relocates (h : db.IsForest) (hid : db.parent id = some q)
    (hp : p = 0 ∨ db.idFilenameDb.contains p = true) (hnot : ¬Above db.parent id p) (hname : name ≠ [])
    (hslash : slash ∉ name) : Relocated db (db.updateUrl id p name) id q p name := by
  have hmoves := @moves_updateUrl db id p q name hid
  have hforest : (db.updateUrl id p name).IsForest := h.updateUrl hid (hp.imp_right exists_parent.mpr) hnot
  refine ⟨fun d hd => ?_, fun i hi => get_updateUrl_of_not_above h hid hi,
    fun r j => mem_getChildren_updateUrl h.toConsistent hid, fun r hrq hrp => ?_, hforest,
    fun hn => hmoves.wellNamed hn ⟨hname, hslash⟩⟩
  · have hne : id ≠ 0 := h.ne_zero hid
    obtain ⟨m, source, hsource⟩ := h.exists_located (exists_parent.mp ⟨q, hid⟩)
    obtain ⟨l, dir, hdir⟩ : ∃ l dir, db.Located l p dir := by
      rcases hp with rfl | hp
      · exact ⟨0, [], .root⟩
      · exact h.exists_located hp
    obtain ⟨n, url, hurl⟩ : ∃ n url, db.Located n d url := by
      refine h.exists_located (exists_parent.mp ?_)
      rcases Relation.ReflTransGen.cases_head hd with rfl | ⟨r, hr, -⟩
      · exact ⟨q, hid⟩
      · exact ⟨r, hr⟩
    have hdir' := hmoves.located (Set.notMem_empty p) hnot hdir
    have htarget : (db.updateUrl id p name).Located (l + 1) id (dir ++ slash :: name) :=
      .entry hne hmoves.moved hdir'
    obtain ⟨k, rest, rfl, hk⟩ := hmoves.located_below hne h.zero (fun i _ => Set.notMem_empty i) hsource htarget hd
      hurl
    refine ⟨m, n, source, rest, hsource, hurl, fun k' url' hk' hlimit => ?_⟩
    obtain ⟨rfl, rfl⟩ := hk'.unique hk
    -- the new directory is not deeper than the entry
    have habove : Above (db.updateUrl id p name).parent p d := by
      rw [parent_updateUrl hid]
      exact Above.trans (.single (Function.update_self ..)) hd.move
    obtain ⟨l', hl', hdepth⟩ := hk.depth.above habove hforest.zero
    obtain rfl := hdepth.unique hforest.zero hdir'.depth
    rw [hk.get hlimit, hdir.get (hl'.trans hlimit)]
  · rw [getChildren_updateUrl h.toConsistent hid, if_neg hrp, if_neg hrq, ite_self]

/-- `/p/a` with `/p/a/b` becomes `/p/d/x`. -/
theorem updateUrl_relocates_adKnown :
    Relocated adKnown.docUrlDb (adKnown.docUrlDb.updateUrl 1 3 [120]) 1 5 3 [120] := by
  have hnot : ¬Above adKnown.docUrlDb.parent 1 3 := by
    intro h
    rcases Relation.ReflTransGen.cases_head h with heq | ⟨r, hr, h⟩
    · cases heq
    obtain rfl : 5 = r := Option.some.inj hr
    rcases Relation.ReflTransGen.cases_head h with heq | ⟨r, hr, h⟩
    · cases heq
    obtain rfl : 0 = r := Option.some.inj hr
    rcases Relation.ReflTransGen.cases_head h with heq | ⟨r, hr, -⟩
    · cases heq
    · cases hr
  exact updateUrl_relocates adKnown_forest (by decide) (.inr (by decide)) hnot (by decide) (by decide)

example : (adKnown.docUrlDb.updateUrl 1 3 [120]).get 2 = [47, 112, 47, 100, 47, 120, 47, 98] := by decide

end Baloo.DocumentUrlDB
