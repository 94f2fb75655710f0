import Baloo.MetadataMover
import Baloo.PostingAlgebra

/-!
# Searching in a folder

A search that is limited to a folder looks up the folder with `documentId` and intersects with
`IdTreePostingIterator`, which expands the entry into everything below it at the first call of `next` and
sorts the ids. The ids found by going down the tree are those whose path, put together by climbing, is the
path of the folder or lies below it.

`documentId` skips empty components, so a path with a slash too many finds the folder as well.
-/

namespace Baloo

open Cursor (Position Methods Simulation Implements)
open Cursor.Position (Lands Next SkipTo)
open Forest (Above)
open Fuel (Returns)

/-- `IdTreePostingIterator`. -/
structure IdTreePostingIterator where
  /-- `m_db` -/
  db : IdTreeDB
  /-- `m_pos` -/
  pos : ℤ := -1
  /-- `m_idList` -/
  idList : List DocId
  /-- `m_resultList` -/
  resultList : List DocId := []

namespace IdTreePostingIterator

/-- `IdTreePostingIterator::docId`. -/
def docId (it : IdTreePostingIterator) : DocId :=
  if 0 ≤ it.pos ∧ it.pos < it.resultList.length then it.resultList.getD it.pos.toNat 0 else 0

/-- `IdTreePostingIterator::next`. The loop over `m_idList`, which takes the last id and appends its entries,
is `Forest.drain`. -/
def next (fuel : ℕ) (it : IdTreePostingIterator) : Option (IdTreePostingIterator × DocId) :=
  if it.resultList = [] ∧ it.idList = [] then some (it, 0)
  else
    (if it.resultList = [] then
      (Forest.drain it.db.get fuel it.idList it.resultList).map fun resultList =>
        { it with pos := 0, idList := [], resultList := resultList.insertionSort (· ≤ ·) }
    else if it.pos < it.resultList.length then some { it with pos := it.pos + 1 }
    else some { it with resultList := [] }).map fun it =>
      (it, if it.pos < it.resultList.length then it.resultList.getD it.pos.toNat 0 else 0)

/-- `PostingIterator::skipTo`. -/
def skipTo (fuel : ℕ) (it : IdTreePostingIterator) (id : DocId) : Option (IdTreePostingIterator × DocId) :=
  Cursor.skipByNext next id fuel it it.docId

/-- The virtual methods. -/
def methods : Methods IdTreePostingIterator where
  docId := docId
  next := next
  skipTo := skipTo

/-! ## The iterator is a cursor -/

/-- An iterator at a position of the cursor over a set. -/
inductive At (db : IdTreeDB) : IdTreePostingIterator → Set ℕ → Position → Prop
  /-- nothing has been expanded -/
  | start {x : DocId} {sub : List DocId} : Forest.Drains db.get [x] sub → sub.Nodup → 0 ∉ sub →
    At db { db := db, idList := [x] } {i | i ∈ sub} .start
  /-- the part before `e` has been read -/
  | on {pre rest : List DocId} {e : DocId} : (pre ++ e :: rest).Pairwise (· < ·) → 0 ∉ pre ++ e :: rest →
    At db { db := db, pos := pre.length, idList := [], resultList := pre ++ e :: rest }
      {i | i ∈ pre ++ e :: rest} (.on e)
  /-- everything has been read -/
  | ended {S : Set ℕ} {values : List DocId} : values ≠ [] →
    At db { db := db, pos := values.length, idList := [], resultList := values } S .exhausted
  /-- the result list has been cleared, or there was none -/
  | cleared {S : Set ℕ} {pos : ℤ} : 0 ≤ pos → At db { db := db, pos := pos, idList := [] } S .exhausted

variable {db : IdTreeDB} {it : IdTreePostingIterator} {S : Set ℕ} {p : Position}

theorem length_lt_of_split {pre rest : List DocId} {e : DocId} :
    (pre.length : ℤ) < (pre ++ e :: rest).length := by
  have hlength : (pre ++ e :: rest).length = pre.length + (rest.length + 1) := by
    rw [List.length_append, List.length_cons]
  omega

theorem At.docId (h : At db it S p) : it.docId = p.doc := by
  cases h with
  | start _ _ _ => rfl
  | @on pre rest e _ _ =>
    have hpos : (pre.length : ℤ) < (pre ++ e :: rest).length := length_lt_of_split
    simp only [IdTreePostingIterator.docId, if_pos (And.intro (Int.natCast_nonneg _) hpos), Position.doc,
      Int.toNat_natCast]
    simp
  | @ended _ values _ =>
    rw [IdTreePostingIterator.docId, if_neg fun h => lt_irrefl _ h.2]
    rfl
  | cleared hpos =>
    rw [IdTreePostingIterator.docId, if_neg fun h => absurd h.2 (not_lt.mpr hpos)]
    rfl

/-- The iterator behind the part `pre` of its result list. -/
theorem exists_at {pre rest : List DocId} {b : ℕ} (hsorted : (pre ++ rest).Pairwise (· < ·))
    (hzero : 0 ∉ pre ++ rest) (hpre : ∀ x ∈ pre, x < b) (hrest : ∀ x ∈ rest, b ≤ x) :
    ∃ p', Lands {i | i ∈ pre ++ rest} b p' ∧
      (if (pre.length : ℤ) < (pre ++ rest).length then (pre ++ rest).getD pre.length 0 else 0) = p'.doc ∧
      At db { db := db, pos := pre.length, idList := [], resultList := pre ++ rest } {i | i ∈ pre ++ rest}
        p' := by
  have hlands := PostingIterator.lands_split hsorted hpre hrest
  cases rest with
  | nil =>
    refine ⟨.exhausted, hlands, ?_⟩
    rw [List.append_nil, if_neg (lt_irrefl _)]
    refine ⟨rfl, ?_⟩
    by_cases hne : pre = []
    · subst hne
      exact .cleared (le_refl _)
    · exact .ended hne
  | cons e rest =>
    refine ⟨.on e, hlands, ?_, .on hsorted hzero⟩
    rw [if_pos length_lt_of_split]
    simp [Position.doc]

theorem At.next (h : At db it S p) : ∃ it' p', Next S p p' ∧
    Returns (fun n => IdTreePostingIterator.next n it) (it', p'.doc) ∧ At db it' S p' := by
  cases h with
  | @start x sub hdrains hnodup hzero =>
    -- the expanded list in order
    have hperm := List.perm_insertionSort (· ≤ ·) sub
    have hsorted : (sub.insertionSort (· ≤ ·)).Pairwise (· < ·) :=
      ((List.pairwise_insertionSort (· ≤ ·) sub).and (hperm.nodup_iff.mpr hnodup)).imp
        fun h => lt_of_le_of_ne h.1 h.2
    have hset : {i | i ∈ sub} = {i | i ∈ [] ++ sub.insertionSort (· ≤ ·)} := by
      ext i
      exact hperm.mem_iff.symm
    obtain ⟨p', hlands, hdoc, hat⟩ := @exists_at db [] _ 1 hsorted
      (fun h => hzero (hperm.mem_iff.mp h)) (by simp)
      (fun i hi => Nat.one_le_iff_ne_zero.mpr fun h0 => hzero (hperm.mem_iff.mp (h0 ▸ hi)))
    rw [hset]
    refine ⟨_, p', hlands, ?_, hat⟩
    rw [← hdoc]
    have hreturns := hdrains.returns.map fun resultList =>
      ({ db := db, pos := 0, idList := [], resultList := resultList.insertionSort (· ≤ ·) } :
        IdTreePostingIterator)
    exact hreturns.map fun it =>
      (it, if it.pos < it.resultList.length then it.resultList.getD it.pos.toNat 0 else 0)
  | @on pre rest e hsorted hzero =>
    have hsplit : pre ++ e :: rest = (pre ++ [e]) ++ rest := by simp
    obtain ⟨-, hrest, hlt⟩ := List.pairwise_append.mp hsorted
    rw [hsplit] at hsorted hzero
    obtain ⟨p', hlands, hdoc, hat⟩ := @exists_at db (pre ++ [e]) rest (e + 1) hsorted hzero
      (fun i hi => by
        rcases List.mem_append.mp hi with hi | hi
        · exact (hlt i hi e List.mem_cons_self).trans (Nat.lt_succ_self e)
        · rw [List.mem_singleton.mp hi]
          exact Nat.lt_succ_self e)
      (fun i hi => List.rel_of_pairwise_cons hrest hi)
    rw [← hsplit] at hlands hdoc hat
    refine ⟨_, p', hlands, ⟨0, fun n _ => ?_⟩, hat⟩
    have hpos : (pre.length : ℤ) < (pre ++ e :: rest).length := length_lt_of_split
    have hne : pre ++ e :: rest ≠ [] := by simp
    have hlength : ((pre ++ [e]).length : ℤ) = pre.length + 1 := by simp
    have hnat : ((pre.length : ℤ) + 1).toNat = (pre ++ [e]).length := by simp
    simp only [IdTreePostingIterator.next, hne, false_and, if_false, if_pos hpos, Option.map_some, hnat,
      ← hdoc, hlength]
  | @ended _ values hne =>
    refine ⟨_, .exhausted, rfl, ⟨0, fun n _ => ?_⟩, .cleared (Int.natCast_nonneg values.length)⟩
    simp [IdTreePostingIterator.next, hne, Position.doc]
  | @cleared _ pos hpos =>
    refine ⟨_, .exhausted, rfl, ⟨0, fun n _ => ?_⟩, .cleared hpos⟩
    simp [IdTreePostingIterator.next, Position.doc]

theorem simulation_at (db : IdTreeDB) : Simulation methods (At db) where
  docId := At.docId
  valid := fun h => by
    cases h with
    | @on pre rest e _ hzero =>
      refine ⟨by simp, Nat.one_le_iff_ne_zero.mpr ?_⟩
      rintro rfl
      exact hzero (by simp)
  next := At.next
  skipTo := fun {it S p} id h => by
    have hskip := @Cursor.exists_skipByNext _ _ IdTreePostingIterator.next At.next _ _ _ h id
    rwa [← h.docId] at hskip

end IdTreePostingIterator

namespace DocumentUrlDB

open IdTreePostingIterator (methods)

/-- `DocumentUrlDB::iter`. -/
def iter (db : DocumentUrlDB) (id : DocId) : IdTreePostingIterator := { db := db.idTreeDb, idList := [id] }

/-- `constructFolderQuery`, for the bytes of its value. -/
def constructFolderQuery (db : DocumentUrlDB) (folder : QByteArray) : Option IdTreePostingIterator :=
  if folder = [] then none
  else if folder.head? ≠ some slash then none
  else
    let id := db.documentId folder
    if id = 0 then none else some (db.iter id)

/-- The entries whose path is that of the folder or begins with it and a slash. -/
def within (db : DocumentUrlDB) (folder : QByteArray) : Set ℕ :=
  {i | db.contains i = true ∧ (db.get i = folder ∨ folder ++ [slash] <+: db.get i)}

variable {db : DocumentUrlDB} {n m : ℕ} {id i a : DocId} {url path folder dir name : QByteArray}

/-! ## The entries below an entry -/

/-- The iterator of an entry is a cursor over the entries below it. -/
theorem IsForest.iter (h : db.IsForest) (hid : db.contains id = true) :
    Cursor.Implements methods (db.iter id) {i | Above db.parent id i} .start ∧
      ∃ B, ∀ i, Above db.parent id i → i ≤ B := by
  rw [DocumentUrlDB.contains, Bool.and_eq_true, decide_eq_true_eq] at hid
  obtain ⟨p, hp⟩ := exists_parent.mpr hid.2
  obtain ⟨n, hheight⟩ := UrlForest.exists_heightLE (w := { dbis := { docUrlDb := db } }) h id
  obtain ⟨sub, hdrains, hnodup, hmem⟩ := Forest.exists_drains h.zero (fun x c => h.listed c x)
    (fun x => (h.ascending x).imp Nat.ne_of_lt) hheight (h.rooted id p hp)
  have hset : {i | Above db.parent id i} = {i | i ∈ sub} := by
    ext i
    exact (hmem i).symm
  refine ⟨?_, sub.max?.getD 0, fun i hi => List.le_max?_getD_of_mem ((hmem i).mpr hi)⟩
  rw [hset]
  refine ⟨_, IdTreePostingIterator.simulation_at db.idTreeDb, .start hdrains hnodup fun hzero => ?_⟩
  rcases Relation.ReflTransGen.cases_head ((hmem 0).mp hzero) with heq | ⟨q, hq, -⟩
  · exact hid.1 heq.symm
  · rw [h.zero] at hq
    cases hq

/-- A path that begins with a directory and a slash: it is an entry of the directory, or its directory begins
so too. -/
theorem prefix_split (hslash : slash ∉ name) :
    folder ++ [slash] <+: dir ++ slash :: name ↔ dir = folder ∨ folder ++ [slash] <+: dir := by
  constructor
  · rintro ⟨rest, hrest⟩
    rw [List.append_assoc, List.singleton_append] at hrest
    rcases List.append_eq_append_iff.mp hrest with ⟨mid, rfl, hmid⟩ | ⟨mid, rfl, hmid⟩
    · rcases mid with _ | ⟨c, mid⟩
      · exact .inl (List.append_nil _)
      · obtain ⟨rfl, -⟩ := List.cons.inj hmid
        exact .inr ⟨mid, by simp⟩
    · rcases mid with _ | ⟨c, mid⟩
      · exact .inl (List.append_nil _).symm
      · -- the slash would be part of the name
        obtain ⟨-, rfl⟩ := List.cons.inj hmid
        exact absurd (by simp) hslash
  · rintro (rfl | ⟨rest, rfl⟩)
    · exact ⟨name, by simp⟩
    · exact ⟨rest ++ slash :: name, by simp⟩

/-- **Going down and climbing agree**: an entry is below another one exactly if its path is that of the other
one or begins with it and a slash. -/
theorem Located.above_iff (h : db.Located n a folder) (hi : db.Located m i url) (hforest : db.IsForest)
    (hn : db.WellNamed) (hd : db.Distinct) (ha : a ≠ 0) :
    Above db.parent a i ↔ url = folder ∨ folder ++ [slash] <+: url := by
  constructor
  · intro habove
    obtain ⟨k, u, hu, ⟨-, rfl⟩ | ⟨rest, rfl⟩⟩ := hi.above habove hforest.zero
    · exact .inl (hu.unique h).2
    · obtain rfl := (hu.unique h).2
      exact .inr ⟨rest, by simp⟩
  · have hsame : ∀ {k j}, db.Located k j folder → j = a := fun hj =>
      (hj.documentId_eq hforest.toConsistent hn hd).symm.trans
        (h.documentId_eq hforest.toConsistent hn hd)
    induction hi with
    | root =>
      rintro (heq | ⟨rest, hrest⟩)
      · exact absurd (heq ▸ h).eq_zero ha
      · simp at hrest
    | @entry m i path url hne hget hparent ih =>
      have hp : db.parent i = some path.parentId := by rw [DocumentUrlDB.parent, hget]; rfl
      rintro (heq | hprefix)
      · have hself := Located.entry hne hget hparent
        rw [heq] at hself
        rw [hsame hself]
        exact .refl
      · exact .head hp (ih ((prefix_split (hn i path hget).2).mp hprefix))

/-- The entries below an entry are those within its path, if no entry is too deep. -/
theorem Located.within (h : db.Located n a folder) (hforest : db.IsForest) (hn : db.WellNamed)
    (hd : db.Distinct) (hdepth : ∀ k i url, db.Located k i url → k ≤ 512) (ha : a ≠ 0) :
    {i | Above db.parent a i} = db.within folder := by
  ext i
  have hstored : Above db.parent a i → db.contains i = true := by
    intro habove
    obtain ⟨path, hpath⟩ := h.exists_get ha
    obtain ⟨q, hq⟩ : ∃ q, db.parent i = some q := by
      rcases Relation.ReflTransGen.cases_head habove with rfl | ⟨q, hq, -⟩
      · exact ⟨path.parentId, by rw [DocumentUrlDB.parent, hpath]; rfl⟩
      · exact ⟨q, hq⟩
    rw [DocumentUrlDB.contains, Bool.and_eq_true, decide_eq_true_eq]
    exact ⟨hforest.ne_zero hq, exists_parent.mp ⟨q, hq⟩⟩
  have hiff : db.contains i = true →
      (Above db.parent a i ↔ db.get i = folder ∨ folder ++ [slash] <+: db.get i) := by
    intro hi
    rw [DocumentUrlDB.contains, Bool.and_eq_true] at hi
    obtain ⟨k, url, hurl⟩ := hforest.exists_located hi.2
    rw [hurl.get ((hdepth k i url hurl).trans (by omega))]
    exact h.above_iff hurl hforest hn hd ha
  constructor
  · intro habove
    exact ⟨hstored habove, (hiff (hstored habove)).mp habove⟩
  · rintro ⟨hi, hpath⟩
    exact (hiff hi).mpr hpath

/-! ## Empty components -/

/-- The components of a path that `documentId` looks up. -/
def components (path : QByteArray) : List QByteArray := (path.splitOn slash).filter (· ≠ [])

/-- The path without its empty components. -/
def normalized (path : QByteArray) : QByteArray := ((components path).map (slash :: ·)).flatten

theorem documentIdLoop_filter (db : DocumentUrlDB) (id : DocId) (li : List QByteArray) :
    db.documentIdLoop id (li.filter (· ≠ [])) = db.documentIdLoop id li := by
  induction li generalizing id with
  | nil => rfl
  | cons fileName li ih =>
    by_cases hname : fileName = []
    · rw [List.filter_cons_of_neg (by simpa using hname), documentIdLoop, if_pos hname]
      exact ih id
    · rw [List.filter_cons_of_pos (by simpa using hname), documentIdLoop, documentIdLoop, if_neg hname]
      dsimp only
      split
      · rfl
      · exact ih _

theorem splitOn_flatten {names : List QByteArray} (h : ∀ c ∈ names, slash ∉ c) :
    ((names.map (slash :: ·)).flatten).splitOn slash = [] :: names := by
  induction names using List.reverseRecOn with
  | nil => rfl
  | append_singleton names name ih =>
    have hflatten : ((names ++ [name]).map (slash :: ·)).flatten =
        (names.map (slash :: ·)).flatten ++ slash :: name := by simp
    rw [hflatten, List.splitOn_append_cons_self, List.splitOn_eq_singleton (h name (by simp)),
      ih fun c hc => h c (List.mem_append_left _ hc), List.cons_append]

theorem components_flatten {names : List QByteArray} (h : ∀ c ∈ names, c ≠ [] ∧ slash ∉ c) :
    components (names.map (slash :: ·)).flatten = names := by
  rw [components, splitOn_flatten fun c hc => (h c hc).2, List.filter_cons_of_neg (by simp)]
  exact List.filter_eq_self.mpr fun c hc => by simpa using (h c hc).1

theorem mem_components {c : QByteArray} (h : c ∈ components path) : c ≠ [] ∧ slash ∉ c := by
  obtain ⟨hc, hne⟩ := List.mem_filter.mp h
  exact ⟨by simpa using hne, notMem_of_mem_splitOn hc⟩

/-- A path has no empty components. -/
theorem normalized_of_isPath (h : IsPath path) : normalized path = path := by
  obtain ⟨names, -, hnames, rfl⟩ := h
  rw [normalized, components_flatten hnames]

theorem documentId_normalized (db : DocumentUrlDB) (path : QByteArray) :
    db.documentId (normalized path) = db.documentId path := by
  have hcomponents : ∀ p, db.documentId p = db.documentIdLoop 0 (components p) := fun p =>
    (documentIdLoop_filter db 0 (p.splitOn slash)).symm
  rw [hcomponents, hcomponents, normalized, components_flatten fun c hc => mem_components hc]

/-- Without its empty components a path is the root or a path. -/
theorem isPath_normalized (h : normalized path ≠ []) : IsPath (normalized path) := by
  refine ⟨components path, fun hnil => h ?_, fun c hc => mem_components hc, rfl⟩
  rw [normalized, hnil]
  rfl

/-! ## The query -/

/-- With no entry too deep, stored entries are at the paths `get` gives. -/
theorem IsForest.located_get (hforest : db.IsForest) (hdepth : ∀ k i url, db.Located k i url → k ≤ 512)
    (hi : db.contains i = true) : i ≠ 0 ∧ ∃ n, db.Located n i (db.get i) := by
  rw [DocumentUrlDB.contains, Bool.and_eq_true, decide_eq_true_eq] at hi
  obtain ⟨n, url, hurl⟩ := hforest.exists_located hi.2
  rw [hurl.get ((hdepth n i url hurl).trans (by omega))]
  exact ⟨hi.1, n, hurl⟩

/-- The lookup finds nothing only if nothing is stored at the path. -/
theorem IsForest.documentId_eq_zero (hforest : db.IsForest)
    (hdepth : ∀ k i url, db.Located k i url → k ≤ 512)
    (hnone : ∀ i, db.contains i = true → db.get i ≠ normalized folder) : db.documentId folder = 0 := by
  rw [← documentId_normalized]
  by_contra hfound
  have hne : normalized folder ≠ [] := by
    intro hempty
    rw [hempty] at hfound
    exact hfound rfl
  obtain ⟨n, hlocated⟩ := located_documentId hforest.toConsistent (isPath_normalized hne) hfound
  obtain ⟨path, hpath⟩ := hlocated.exists_get hfound
  refine hnone _ ?_ (hlocated.get ((hdepth _ _ _ hlocated).trans (by omega)))
  rw [DocumentUrlDB.contains, Bool.and_eq_true, decide_eq_true_eq]
  exact ⟨hfound, OrdMap.contains_iff.mpr ⟨path, hpath⟩⟩

/-- **The folder query is the path prefix test.** For a folder that is written as an absolute path the
iterator is a null pointer if no entry has the path, empty components apart. If one has, the iterator yields,
ascending and each once, the entries with this path or a path that begins with it and a slash, and answers
`next` and `skipTo` in any order like a cursor over them. -/
theorem folder_query (hforest : db.IsForest) (hn : db.WellNamed) (hd : db.Distinct)
    (hdepth : ∀ k i url, db.Located k i url → k ≤ 512) (hslash : folder.head? = some slash) :
    (IsPath folder → normalized folder = folder) ∧
    ((∃ i, db.contains i = true ∧ db.get i = normalized folder) →
      ∃ it, db.constructFolderQuery folder = some it ∧
        (∃ ids, Returns (fun n => Cursor.enumerate methods n it) ids ∧ ids.Pairwise (· < ·) ∧
          ∀ i, i ∈ ids ↔ db.contains i = true ∧
            (db.get i = normalized folder ∨ normalized folder ++ [slash] <+: db.get i)) ∧
        methods.docId it = 0 ∧
        ∀ calls, ∃ out, Returns (fun n => Cursor.run methods n it calls) out ∧
          Cursor.Trace (db.within (normalized folder)) .start calls out) ∧
    ((∀ i, db.contains i = true → db.get i ≠ normalized folder) →
      db.constructFolderQuery folder = none) := by
  have hne : folder ≠ [] := by
    rintro rfl
    cases hslash
  refine ⟨normalized_of_isPath, ?_, fun hnone => ?_⟩
  · rintro ⟨i, hi, hget⟩
    obtain ⟨hi0, n, hlocated⟩ := hforest.located_get hdepth hi
    rw [hget] at hlocated
    have hfound : db.documentId folder = i := by
      rw [← documentId_normalized, hlocated.documentId_eq hforest.toConsistent hn hd]
    obtain ⟨himp, B, hB⟩ := hforest.iter hi
    rw [hlocated.within hforest hn hd hdepth hi0] at himp
    have hbound : ∀ j ∈ db.within (normalized folder), j ≤ B := by
      rw [← hlocated.within hforest hn hd hdepth hi0]
      exact hB
    refine ⟨db.iter i, ?_, ?_, rfl, himp.run methods⟩
    · simp only [constructFolderQuery, if_neg hne, hslash, ne_eq, not_true_eq_false, if_false, hfound,
        if_neg hi0]
    · obtain ⟨ids, hids, hsorted, hmem⟩ := himp.enumerate hbound
      refine ⟨ids, hids, hsorted, fun j => (hmem j).trans ⟨And.left, fun hj => ⟨hj, ?_⟩⟩⟩
      exact Nat.pos_of_ne_zero (hforest.located_get hdepth hj.1).1
  · simp only [constructFolderQuery, if_neg hne, hslash, ne_eq, not_true_eq_false, if_false,
      hforest.documentId_eq_zero hdepth hnone, if_true]

end DocumentUrlDB

/-! ## A small index -/

theorem adKnown_depth (k : ℕ) (i : DocId) (url : QByteArray) (h : adKnown.docUrlDb.Located k i url) :
    k ≤ 512 := by
  have hp : adKnown.docUrlDb.Located 1 5 ([] ++ slash :: [112]) :=
    .entry (by decide) (show _ = some { parentId := 0, name := [112] } by decide) .root
  have ha : adKnown.docUrlDb.Located 2 1 (([] ++ slash :: [112]) ++ slash :: [97]) :=
    .entry (by decide) (show _ = some { parentId := 5, name := [97] } by decide) hp
  have hb : adKnown.docUrlDb.Located 3 2 ((([] ++ slash :: [112]) ++ slash :: [97]) ++ slash :: [98]) :=
    .entry (by decide) (show _ = some { parentId := 1, name := [98] } by decide) ha
  have hd : adKnown.docUrlDb.Located 2 3 (([] ++ slash :: [112]) ++ slash :: [100]) :=
    .entry (by decide) (show _ = some { parentId := 5, name := [100] } by decide) hp
  by_cases hi : i = 0
  · subst hi
    rw [(h.unique .root).1]
    omega
  · obtain ⟨path, hpath⟩ := h.exists_get hi
    have hmem := adKnown_get hpath
    simp only [List.mem_cons, List.not_mem_nil, or_false] at hmem
    obtain rfl | rfl | rfl | rfl := hmem
    · rw [(h.unique ha).1]
      omega
    · rw [(h.unique hb).1]
      omega
    · rw [(h.unique hd).1]
      omega
    · rw [(h.unique hp).1]
      omega

theorem folder_query_adKnown : ∃ it,
    adKnown.docUrlDb.constructFolderQuery [47, 112, 47, 97] = some it ∧
      ∃ ids, Returns (fun n => Cursor.enumerate IdTreePostingIterator.methods n it) ids ∧
        ids.Pairwise (· < ·) ∧ 1 ∈ ids ∧ 2 ∈ ids ∧ 3 ∉ ids ∧ 5 ∉ ids := by
  obtain ⟨-, hstored, -⟩ := DocumentUrlDB.folder_query adKnown_forest adKnown_wellNamed adKnown_distinct
    adKnown_depth (show ([47, 112, 47, 97] : QByteArray).head? = some slash by decide)
  obtain ⟨it, hit, ⟨ids, hids, hsorted, hmem⟩, -⟩ := hstored ⟨1, by decide +kernel⟩
  refine ⟨it, hit, ids, hids, hsorted, ?_⟩
  rw [hmem, hmem, hmem, hmem]
  decide +kernel

/-- No entry has the path `/p/`, but the iterator for it is not a null pointer. -/
theorem trailing_slash_found : ¬ ∀ (db : DocumentUrlDB) (folder : QByteArray), db.IsForest → db.WellNamed →
    db.Distinct → (∀ k i url, db.Located k i url → k ≤ 512) → folder.head? = some slash →
    (∀ i, db.contains i = true → db.get i ≠ folder) → db.constructFolderQuery folder = none := by
  intro h
  have hnone : ∀ i, adKnown.docUrlDb.contains i = true → adKnown.docUrlDb.get i ≠ [47, 112, 47] := by
    intro i hi
    rw [DocumentUrlDB.contains, Bool.and_eq_true] at hi
    obtain ⟨path, hpath⟩ := OrdMap.contains_iff.mp hi.2
    have hall : ∀ i ∈ [1, 2, 3, 5], adKnown.docUrlDb.get i ≠ [47, 112, 47] := by decide +kernel
    exact hall i (adKnown_get hpath)
  have hnull := h adKnown.docUrlDb [47, 112, 47] adKnown_forest adKnown_wellNamed adKnown_distinct
    adKnown_depth (by decide) hnone
  have hfound : adKnown.docUrlDb.documentId [47, 112, 47] = 5 := by decide +kernel
  simp [DocumentUrlDB.constructFolderQuery, hfound, slash] at hnull

end Baloo
