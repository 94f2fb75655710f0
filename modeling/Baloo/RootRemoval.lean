import Baloo.RecursiveRemoval

/-!
# Searching from the root

A removal with a predicate can start at `0`, "to search through everything". The root is no document. But when all
entries have been removed, the call goes on to remove the root like any other directory, and an assertion of the
tables fails. So the search is legal exactly if there is an entry that is to be kept (`search_from_root`).
-/

namespace Baloo

open Forest (Above)
open IndexCleaner (Stored Trims Reaches Clear)

namespace WriteTransaction

/-- How a call ends that does not return. -/
inductive Failure where
  /-- the bound on the depth is too small -/
  | depth
  /-- an assertion fails -/
  | assertion

/-- `WriteTransaction::removeDocument`, with the assertions of the tables. -/
def removeDocumentAsserting (w : WriteTransaction) (id : DocId) : Except Failure WriteTransaction :=
  -- `Q_ASSERT(docId > 0)`, first of all in `DocumentDB::get`
  if id = 0 then .error .assertion
  else
    let subDocs := w.dbis.docUrlDb.getChildren (w.dbis.docUrlDb.filePath id).parentId
    -- `Q_ASSERT(!subDocIds.contains(0))` in `IdTreeDB::set`
    if id ∈ subDocs ∧ 0 ∈ sortedIdRemove subDocs id then .error .assertion
    else .ok (w.removeDocument id)

/-- `WriteTransaction::removeRecursively` with a predicate, and with the assertions. -/
def removeRecursivelyAsserting (shouldDelete : QByteArray → Bool) :
    ℕ → WriteTransaction → DocId → Except Failure (WriteTransaction × Bool)
  | 0, _, _ => .error .depth
  | fuel + 1, w, parentId =>
    if parentId ≠ 0 ∧ shouldDelete (w.dbis.docUrlDb.get parentId) = false then .ok (w, false)
    else do
      let children := w.dbis.docUrlDb.getChildren parentId
      let s ← children.foldlM
        (fun (s : WriteTransaction × Bool) id =>
          if id ≠ 0 then
            (removeRecursivelyAsserting shouldDelete fuel s.1 id).map fun r => (r.1, s.2 && r.2)
          else .ok s)
        (w, true)
      -- refetch
      if s.2 = true ∧ s.1.dbis.docUrlDb.getChildren parentId = [] then
        (s.1.removeDocumentAsserting parentId).map fun w => (w, true)
      else .ok (s.1, false)

end WriteTransaction

open WriteTransaction (removeRecursivelyIf removeRecursivelyAsserting)

/-- What the search is to remove: what a removal from one of the top-level entries removes. -/
def removableFromRoot (sd : QByteArray → Bool) (db : DocumentUrlDB) : Set DocId :=
  {i | ∃ c, db.parent c = some 0 ∧ i ∈ removable sd db c}

/-- The search ends without a failed assertion, it removes what a removal from the top-level entries removes, and it
says whether nothing is left. -/
def SearchesEverything (sd : QByteArray → Bool) (w : WriteTransaction) : Prop :=
  ∃ n, ∀ fuel, n ≤ fuel → ∃ (w' : WriteTransaction) (flag : Bool),
    removeRecursivelyAsserting sd fuel w 0 = .ok (w', flag) ∧
      Forgets (removableFromRoot sd w.dbis.docUrlDb) w w' ∧
      (flag = true ↔ ∀ i, ¬ Stored w'.dbis.docUrlDb i)

/-! ## Removals from documents -/

section

variable {sd : QByteArray → Bool} {w : WriteTransaction} {id : DocId} {fuel : ℕ} {r : WriteTransaction × Bool}

/-- Where a document is removed, no assertion fails. -/
theorem UrlForest.removeDocumentAsserting (h : UrlForest w) (hid : id ≠ 0) :
    w.removeDocumentAsserting id = .ok (w.removeDocument id) := by
  have hsub : ¬ (id ∈ w.dbis.docUrlDb.getChildren (w.dbis.docUrlDb.filePath id).parentId ∧
      0 ∈ sortedIdRemove (w.dbis.docUrlDb.getChildren (w.dbis.docUrlDb.filePath id).parentId) id) := by
    rintro ⟨-, hzero⟩
    have hmem := ((SortedSeq.mem_erase (h.ascending _)).mp hzero).2
    exact h.ne_zero ((h.listed 0 _).mp hmem) rfl
  rw [WriteTransaction.removeDocumentAsserting, if_neg hid, if_neg hsub]

/-- A loop that succeeds without the assertions succeeds with them, if each of its steps does. -/
theorem foldlM_asserting {f : WriteTransaction × Bool → DocId → Option (WriteTransaction × Bool)}
    {g : WriteTransaction × Bool → DocId → Except WriteTransaction.Failure (WriteTransaction × Bool)}
    {I : WriteTransaction × Bool → Prop} {l : List DocId}
    (hstep : ∀ c ∈ l, ∀ s s', I s → f s c = some s' → g s c = .ok s' ∧ I s') {s : WriteTransaction × Bool}
    (hs : I s) (h : l.foldlM f s = some r) : l.foldlM g s = .ok r := by
  induction l generalizing s with
  | nil => exact congrArg Except.ok (Option.some.inj h)
  | cons c l ih =>
    rw [List.foldlM_cons, Option.bind_eq_bind, Option.bind_eq_some_iff] at h
    obtain ⟨s', hs', h⟩ := h
    obtain ⟨hg, hI⟩ := hstep c List.mem_cons_self s s' hs hs'
    rw [List.foldlM_cons, hg]
    exact ih (fun d hd => hstep d (List.mem_cons_of_mem _ hd)) hI h

/-- The loop over the entries of a directory. -/
theorem loop_asserting
    (hcall : ∀ (w : WriteTransaction) (c : DocId) (r : WriteTransaction × Bool), UrlForest w → c ≠ 0 →
      w.removeRecursivelyIf sd fuel c = some r → removeRecursivelyAsserting sd fuel w c = .ok r)
    {l : List DocId} {s : WriteTransaction × Bool} (hs : UrlForest s.1)
    (h : l.foldlM (fun (s : WriteTransaction × Bool) id =>
      if id ≠ 0 then (removeRecursivelyIf sd fuel s.1 id).map fun r => (r.1, s.2 && r.2) else some s) s = some r) :
    l.foldlM (fun (s : WriteTransaction × Bool) id =>
      if id ≠ 0 then (removeRecursivelyAsserting sd fuel s.1 id).map fun r => (r.1, s.2 && r.2) else .ok s) s =
      .ok r := by
  refine foldlM_asserting (I := fun s => UrlForest s.1) (fun c _ s s' hforest hstep => ?_) hs h
  by_cases hc : c ≠ 0
  · rw [if_pos hc] at hstep ⊢
    obtain ⟨r', hr', rfl⟩ := Option.map_eq_some_iff.mp hstep
    rw [hcall s.1 c r' hforest hc hr']
    exact ⟨rfl, (hforest.removeRecursivelyIf hr').1⟩
  · rw [if_neg hc] at hstep ⊢
    obtain rfl := Option.some.inj hstep
    exact ⟨rfl, hforest⟩

/-- The end of a call, after the loop over the entries of the directory. -/
theorem asserting_succ {s : WriteTransaction × Bool} (hkeep : ¬ (id ≠ 0 ∧ sd (w.dbis.docUrlDb.get id) = false))
    (hloop : (w.dbis.docUrlDb.getChildren id).foldlM (fun (s : WriteTransaction × Bool) id =>
      if id ≠ 0 then (removeRecursivelyAsserting sd fuel s.1 id).map fun r => (r.1, s.2 && r.2) else .ok s)
      (w, true) = .ok s) :
    removeRecursivelyAsserting sd (fuel + 1) w id =
      if s.2 = true ∧ s.1.dbis.docUrlDb.getChildren id = [] then
        (s.1.removeDocumentAsserting id).map fun w => (w, true)
      else .ok (s.1, false) := by
  rw [WriteTransaction.removeRecursivelyAsserting, if_neg hkeep]
  dsimp only
  rw [hloop]
  rfl

/-- A removal from a document violates no assertion. -/
theorem UrlForest.removeRecursivelyAsserting (h : UrlForest w) (hid : id ≠ 0)
    (hr : w.removeRecursivelyIf sd fuel id = some r) : removeRecursivelyAsserting sd fuel w id = .ok r := by
  induction fuel generalizing w r id with
  | zero => cases hr
  | succ fuel ih =>
    rw [WriteTransaction.removeRecursivelyIf] at hr
    by_cases hkeep : id ≠ 0 ∧ sd (w.dbis.docUrlDb.get id) = false
    · rw [if_pos hkeep] at hr
      rw [WriteTransaction.removeRecursivelyAsserting, if_pos hkeep]
      exact congrArg Except.ok (Option.some.inj hr)
    · rw [if_neg hkeep, Option.bind_eq_bind, Option.bind_eq_some_iff] at hr
      obtain ⟨s, hchildren, hr⟩ := hr
      have hs : UrlForest s.1 := Induction.foldlM_preserves (P := fun s : WriteTransaction × Bool => UrlForest s.1)
        (fun s c s' _ hforest hstep => by
          split at hstep
          · obtain ⟨r', hr', rfl⟩ := Option.map_eq_some_iff.mp hstep
            exact (hforest.removeRecursivelyIf hr').1
          · exact Option.some.inj hstep ▸ hforest) h hchildren
      rw [asserting_succ hkeep (loop_asserting (fun w c r hw hc hr => ih hw hc hr) h hchildren)]
      simp only at hr
      by_cases hempty : s.2 = true ∧ s.1.dbis.docUrlDb.getChildren id = []
      · rw [if_pos hempty] at hr ⊢
        rw [hs.removeDocumentAsserting hid]
        exact congrArg Except.ok (Option.some.inj hr)
      · rw [if_neg hempty] at hr ⊢
        exact congrArg Except.ok (Option.some.inj hr)

/-! ## The walk from the root -/

variable {w' : WriteTransaction} {db db' : DocumentUrlDB} {c i x : DocId}

/-- A climb from an entry that is left meets the same directories. -/
theorem above_of_trims (htrims : Trims db db') (hdb : db.IsForest) (hdb' : db'.IsForest) (hx : Stored db' x)
    (habove : Above db.parent i x) : Above db'.parent i x := by
  induction habove using Relation.ReflTransGen.head_induction_on with
  | refl => exact .refl
  | @head x p hp habove ih =>
    rw [← htrims.parent_eq hx] at hp
    rcases IndexCleaner.stored_parent hdb' hp with rfl | hstored
    · rcases Relation.ReflTransGen.cases_head habove with rfl | ⟨q, hq, -⟩
      · exact .single hp
      · rw [hdb.zero] at hq
        cases hq
    · exact .head hp (ih hstored)

/-- What is removed elsewhere does not change what is to be removed from a directory. -/
theorem removable_eq_of_trims (htrims : Trims db db') (hdb : db.IsForest) (hdb' : db'.IsForest)
    (hleft : ∀ x, Stored db x → Above db.parent c x → Stored db' x) (hc : Stored db c) :
    removable sd db' c = removable sd db c := by
  rw [removable_eq hdb hc, removable_eq hdb' (hleft c hc .refl)]
  refine Set.ext fun i => ⟨fun hi => ?_, fun hi => ?_⟩
  · have hreaches := hi.1.of_trims htrims hdb'
    have habove := ((reaches_iff hdb hc).mp hreaches).1
    refine ⟨hreaches, fun x hx hix => ?_⟩
    have hx' := hleft x hx (Forest.Above.trans habove hix)
    rw [← htrims.get hdb' hx']
    exact hi.2 x hx' (above_of_trims htrims hdb hdb' hx' hix)
  · have habove := ((reaches_iff hdb hc).mp hi.1).1
    exact ⟨hi.1.trims htrims hdb hdb' (hleft i hi.1.stored habove), hi.2.trims htrims hdb'⟩

/-- Where nothing is to be kept, a directory can be removed itself. -/
theorem self_mem_removable (hdb : db.IsForest) (hdeleted : ∀ i, Stored db i → sd (db.get i) = true)
    (hc : Stored db c) : c ∈ removable sd db c := by
  rw [removable_eq hdb hc]
  exact ⟨.root hc (hdeleted c hc), fun x hx _ => hdeleted x hx⟩

/-- The top-level entries that have been visited. -/
def removedSoFar (sd : QByteArray → Bool) (db : DocumentUrlDB) (rest : List DocId) : Set DocId :=
  {i | ∃ c, db.parent c = some 0 ∧ c ∉ rest ∧ i ∈ removable sd db c}

theorem removedSoFar_nil : removedSoFar sd db [] = removableFromRoot sd db :=
  Set.ext fun _ => ⟨fun ⟨c, hc, _, hi⟩ => ⟨c, hc, hi⟩, fun ⟨c, hc, hi⟩ => ⟨c, hc, List.not_mem_nil, hi⟩⟩

/-- An entry is visited. -/
theorem removedSoFar_cons {rest : List DocId} (hparent : db.parent c = some 0) (hcrest : c ∉ rest) :
    removedSoFar sd db (c :: rest) ∪ removable sd db c = removedSoFar sd db rest := by
  refine Set.ext fun i => ⟨?_, ?_⟩
  · rintro (⟨d, hd, hdnot, hi⟩ | hi)
    · exact ⟨d, hd, fun hmem => hdnot (List.mem_cons_of_mem _ hmem), hi⟩
    · exact ⟨c, hparent, hcrest, hi⟩
  · rintro ⟨d, hd, hdnot, hi⟩
    rcases eq_or_ne d c with rfl | hdc
    · exact .inr hi
    · exact .inl ⟨d, hd, fun hmem => (List.mem_cons.mp hmem).elim hdc hdnot, hi⟩

/-- What holds in the loop over the top-level entries. -/
structure Searched (sd : QByteArray → Bool) (w : WriteTransaction) (rest : List DocId) (s : WriteTransaction × Bool) :
    Prop where
  /-- the entries that are left form a forest -/
  forest : UrlForest s.1
  /-- the rest are top-level entries -/
  sub : rest ⊆ w.dbis.docUrlDb.getChildren 0
  /-- each of them is visited once -/
  nodup : rest.Nodup
  /-- what has been removed -/
  forgets : Forgets (removedSoFar sd w.dbis.docUrlDb rest) w s.1
  /-- the flag, if nothing is to be kept -/
  flag : (∀ i, Stored w.dbis.docUrlDb i → sd (w.dbis.docUrlDb.get i) = true) → s.2 = true

theorem Searched.step (h : UrlForest w) {rest : List DocId} {s s' : WriteTransaction × Bool}
    (hs : Searched sd w (c :: rest) s)
    (hstep : (if c ≠ 0 then (removeRecursivelyIf sd fuel s.1 c).map fun r => (r.1, s.2 && r.2) else some s) =
      some s') : Searched sd w rest s' := by
  obtain ⟨hcmem, hsub⟩ := List.cons_subset.mp hs.sub
  obtain ⟨hcrest, hnodup⟩ := List.nodup_cons.mp hs.nodup
  have hparent : w.dbis.docUrlDb.parent c = some 0 := (h.listed c 0).mp hcmem
  have hc0 : c ≠ 0 := h.ne_zero hparent
  rw [if_pos hc0] at hstep
  obtain ⟨r, hr, rfl⟩ := Option.map_eq_some_iff.mp hstep
  -- nothing of this tree has been removed before
  have hleft : ∀ x, Stored w.dbis.docUrlDb x → Above w.dbis.docUrlDb.parent c x → Stored s.1.dbis.docUrlDb x := by
    intro x hx hcx
    refine hs.forgets.stored_iff.mpr ⟨?_, hx⟩
    rintro ⟨d, hd, hdnot, hdx⟩
    obtain rfl := Above.sibling h.zero hparent hd (h.rooted c 0 hparent) (h.rooted d 0 hd) hcx hdx.1
    exact hdnot List.mem_cons_self
  have hstored : Stored w.dbis.docUrlDb c := ⟨0, hparent⟩
  have hstored' : Stored s.1.dbis.docUrlDb c := hleft c hstored .refl
  obtain ⟨hforgets, hflag⟩ := hs.forest.forgets_if hc0 hstored' hr
  rw [← removable_eq hs.forest hstored', removable_eq_of_trims hs.forgets.trims h hs.forest hleft hstored] at hforgets
  refine ⟨(hs.forest.removeRecursivelyIf hr).1, hsub, hnodup,
    removedSoFar_cons hparent hcrest ▸ hs.forgets.trans hforgets, fun hdeleted => ?_⟩
  have hgone : ¬ Stored r.1.dbis.docUrlDb c := by
    rw [hforgets.stored_iff]
    exact fun hnot => hnot.1 (self_mem_removable h hdeleted hstored)
  simp only [hs.flag hdeleted, hflag.mpr hgone, Bool.and_self]

/-- The root is left with a top-level entry as long as anything is left. -/
theorem getChildren_zero_eq_nil (h : db.IsForest) : db.getChildren 0 = [] ↔ ∀ i, ¬ Stored db i := by
  refine ⟨fun hnil i hi => ?_, fun hnone => List.eq_nil_iff_forall_not_mem.mpr fun c hc => ?_⟩
  · obtain ⟨p, hp⟩ := hi
    obtain ⟨n, hn⟩ := h.rooted i p hp
    -- the climb ends with a top-level entry
    induction hn generalizing p with
    | root => exact h.ne_zero hp rfl
    | @step n x q hq hd ih =>
      rcases IndexCleaner.stored_parent h hq with rfl | ⟨q', hq'⟩
      · have hmem := (h.listed x 0).mpr hq
        rw [DocumentUrlDB.getChildren] at hnil
        rw [hnil] at hmem
        cases hmem
      · exact ih q' hq'
  · exact hnone c ⟨0, (h.listed c 0).mp hc⟩

/-- The loop over the top-level entries. -/
theorem UrlForest.searched (h : UrlForest w) {s : WriteTransaction × Bool}
    (hloop : (w.dbis.docUrlDb.getChildren 0).foldlM (fun (s : WriteTransaction × Bool) id =>
      if id ≠ 0 then (s.1.removeRecursivelyIf sd fuel id).map fun r => (r.1, s.2 && r.2) else some s) (w, true) =
      some s) : Searched sd w [] s := by
  refine Induction.foldlM_rest (I := Searched sd w) (fun c rest s s' hs hstep => hs.step h hstep) ?_ hloop
  have hnone : removedSoFar sd w.dbis.docUrlDb (w.dbis.docUrlDb.getChildren 0) = ∅ := by
    refine Set.eq_empty_of_forall_notMem ?_
    rintro i ⟨c, hc, hnot, -⟩
    exact hnot ((h.listed c 0).mpr hc)
  exact ⟨h, List.Subset.refl _, (h.ascending 0).imp fun hlt => ne_of_lt hlt, hnone ▸ Forgets.refl w, fun _ => rfl⟩

/-- How a search ends: with a failed assertion if everything has been removed. -/
theorem UrlForest.search (h : UrlForest w) : ∃ n, ∀ fuel, n ≤ fuel → ∃ s : WriteTransaction × Bool,
    Searched sd w [] s ∧ w.removeRecursivelyAsserting sd fuel 0 =
      if s.2 = true ∧ s.1.dbis.docUrlDb.getChildren 0 = [] then .error .assertion else .ok (s.1, false) := by
  obtain ⟨n, hn⟩ := h.exists_heightLE 0
  refine ⟨n + 1, fun fuel hfuel => ?_⟩
  obtain ⟨fuel, rfl⟩ : ∃ m, fuel = m + 1 := ⟨fuel - 1, by omega⟩
  obtain ⟨r, hr⟩ := @removeRecursivelyIf_total _ _ sd (fuel + 1) h (hn.mono (fun _ _ hc => hc) (by omega))
  have hkeep : ¬ ((0 : DocId) ≠ 0 ∧ sd (w.dbis.docUrlDb.get 0) = false) := fun hkeep => hkeep.1 rfl
  rw [WriteTransaction.removeRecursivelyIf, if_neg hkeep, Option.bind_eq_bind, Option.bind_eq_some_iff] at hr
  obtain ⟨s, hloop, -⟩ := hr
  refine ⟨s, h.searched hloop, ?_⟩
  rw [asserting_succ hkeep
    (loop_asserting (fun w c r hw hc hr => hw.removeRecursivelyAsserting hc hr) h hloop)]
  rfl

/-- If the search is legal, something is to be kept. -/
theorem SearchesEverything.exists_kept (h : UrlForest w) (hsearch : SearchesEverything sd w) :
    ∃ i, Stored w.dbis.docUrlDb i ∧ sd (w.dbis.docUrlDb.get i) = false := by
  obtain ⟨n, hn⟩ := @UrlForest.search sd w h
  obtain ⟨m, hm⟩ := hsearch
  by_contra hnone
  have hdeleted : ∀ i, Stored w.dbis.docUrlDb i → sd (w.dbis.docUrlDb.get i) = true := by
    intro i hi
    by_contra hkeep
    exact hnone ⟨i, hi, Bool.eq_false_iff.mpr hkeep⟩
  obtain ⟨s, hs, heq⟩ := hn (max n m) (le_max_left n m)
  obtain ⟨w', flag, hcall, -⟩ := hm (max n m) (le_max_right n m)
  -- all top-level entries have been removed
  have hleaf : s.1.dbis.docUrlDb.getChildren 0 = [] := by
    refine List.eq_nil_iff_forall_not_mem.mpr fun c hc => ?_
    have hparent' := (hs.forest.listed c 0).mp hc
    have hparent := hs.forgets.trims.parent hparent'
    exact (hs.forgets.stored_iff.mp ⟨0, hparent'⟩).1
      ⟨c, hparent, List.not_mem_nil, self_mem_removable h hdeleted ⟨0, hparent⟩⟩
  rw [heq, if_pos ⟨hs.flag hdeleted, hleaf⟩] at hcall
  cases hcall

/-- An entry that is to be kept is left, so the root is not removed. -/
theorem UrlForest.searchesEverything (h : UrlForest w) (hi : Stored w.dbis.docUrlDb i)
    (hkeep : sd (w.dbis.docUrlDb.get i) = false) : SearchesEverything sd w := by
  obtain ⟨n, hn⟩ := @UrlForest.search sd w h
  refine ⟨n, fun fuel hfuel => ?_⟩
  obtain ⟨s, hs, heq⟩ := hn fuel hfuel
  have hforgets := hs.forgets
  rw [removedSoFar_nil] at hforgets
  have hleft : Stored s.1.dbis.docUrlDb i := by
    refine hforgets.stored_iff.mpr ⟨?_, hi⟩
    rintro ⟨c, -, hremovable⟩
    rw [hremovable.2.1.clear i hi .refl] at hkeep
    cases hkeep
  have hchild : ¬ (s.2 = true ∧ s.1.dbis.docUrlDb.getChildren 0 = []) := fun hempty =>
    (getChildren_zero_eq_nil hs.forest).mp hempty.2 i hleft
  rw [if_neg hchild] at heq
  refine ⟨s.1, false, heq, hforgets, fun hflag => ?_, fun hnone => absurd hleft (hnone i)⟩
  cases hflag

/-- **A search from the root** is legal, and removes what it should, exactly if there is an entry that is to be kept. -/
theorem search_from_root (h : UrlForest w) :
    SearchesEverything sd w ↔ ∃ i, Stored w.dbis.docUrlDb i ∧ sd (w.dbis.docUrlDb.get i) = false := by
  constructor
  · exact fun hsearch => hsearch.exists_kept h
  · rintro ⟨i, hi, hkeep⟩
    exact h.searchesEverything hi hkeep

/-- Everything is to be kept. -/
theorem search_from_root_indexB : SearchesEverything (fun _ => false) { dbis := IndexCleaner.indexB } := by
  refine (search_from_root IndexCleaner.isForest_indexB).mpr ⟨3, ⟨2, ?_⟩, rfl⟩
  rw [IndexCleaner.parent_indexB, Function.update_self]

/-- In an empty index the search asks for the terms of the root. -/
theorem empty_index_search_fails : UrlForest { dbis := {} } ∧
    removeRecursivelyAsserting (fun _ => false) 1 { dbis := {} } 0 = .error .assertion ∧
    ¬ SearchesEverything (fun _ => false) { dbis := {} } := by
  have hforest : UrlForest { dbis := {} } := UrlForest.empty
  refine ⟨hforest, rfl, fun h => ?_⟩
  obtain ⟨i, ⟨p, hp⟩, -⟩ := h.exists_kept hforest
  cases hp

end

end Baloo
