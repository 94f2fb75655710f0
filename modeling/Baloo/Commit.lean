import Baloo.WriteTransaction
import Mathlib.Tactic.Common

/-!
# What a commit leaves behind

Seen from one term and one document, a queue of operations is a small register machine: the register
(`Entry`) holds whether the document is posted under the term and with which positions, an addition
and a removal update it, operations of other documents leave it alone. `entry_commit` says that a
commit runs exactly this machine for every term and every document, in whatever order the terms are
visited, although it edits sorted lists in place and reads the position list of a term only when an
operation touches positions.
-/

namespace Baloo

open SortedSeq (Ascending)

/-- What the index knows of one document under one term. -/
structure Entry where
  /-- is the document in the posting list? -/
  posted : Bool
  /-- the document's entry in the position list -/
  positions : Option (List UInt32)
  deriving DecidableEq

/-- The effect of one queued operation on the entry of document `i`. An addition does not replace
positions that are already there. -/
def Entry.apply (i : DocId) (e : Entry) (op : Operation) : Entry :=
  if op.data.docId = i then
    match op.type with
    | .AddId =>
      { posted := true
        positions :=
          if op.data.positions ≠ [] then some (e.positions.getD op.data.positions)
          else e.positions }
    | .RemoveId => { posted := false, positions := none }
  else e

/-- The entry of document `i` under term `t` in the committed tables. -/
def Database.entry (db : Database) (t : Term) (i : DocId) : Entry where
  posted := decide (i ∈ db.postingDb.get t)
  positions := (SortedSeq.find PositionInfo.docId i (db.positionDb.get t)).map PositionInfo.positions

/-- The entry a commit of the transaction would leave. -/
def WriteTransaction.entry (w : WriteTransaction) (t : Term) (i : DocId) : Entry :=
  (w.pendingOperations.values t).foldl (Entry.apply i) (w.dbis.entry t i)

/-- The stored lists are strictly ascending, none of them is empty, and no entry of a position list
is without positions. -/
structure Database.ListsSorted (db : Database) : Prop where
  /-- posting lists -/
  posting : ∀ t list, OrdMap.get db.postingDb t = some list → Ascending id list ∧ list ≠ []
  /-- position lists -/
  position : ∀ t list, OrdMap.get db.positionDb t = some list →
    Ascending PositionInfo.docId list ∧ list ≠ [] ∧ ∀ info ∈ list, info.positions ≠ []

theorem Database.ListsSorted.empty : Database.ListsSorted {} :=
  ⟨fun _ _ h => by simp at h, fun _ _ h => by simp at h⟩

theorem Database.ListsSorted.posting_get {db : Database} (h : db.ListsSorted) (t : Term) :
    Ascending id (db.postingDb.get t) := by
  rw [PostingDB.get, OrdMap.values]
  rcases hl : OrdMap.get db.postingDb t with _ | list
  · exact SortedSeq.ascending_nil
  · exact (h.posting t list hl).1

theorem Database.ListsSorted.position_get {db : Database} (h : db.ListsSorted) (t : Term) :
    Ascending PositionInfo.docId (db.positionDb.get t) ∧
      ∀ info ∈ db.positionDb.get t, info.positions ≠ [] := by
  rw [PositionDB.get, OrdMap.values]
  rcases hl : OrdMap.get db.positionDb t with _ | list
  · exact ⟨SortedSeq.ascending_nil, fun _ h => absurd h List.not_mem_nil⟩
  · obtain ⟨hasc, -, hne⟩ := h.position t list hl
    exact ⟨hasc, hne⟩

/-- The tables that a commit does not write. -/
def Database.withoutPostings (db : Database) : Database := { db with postingDb := ∅, positionDb := ∅ }

/-- The lists under a key are empty only if there is no key. -/
theorem get_eq_of_values {K : Type} {V : Type} [Ord K] [Std.TransOrd K] {m m' : OrdMap K (List V)} {k : K}
    (h : m.get k ≠ some []) (h' : m'.get k ≠ some []) (hvalues : m.values k = m'.values k) :
    m.get k = m'.get k := by
  rw [OrdMap.values, OrdMap.values] at hvalues
  rcases hk : m.get k with _ | list <;> rcases hk' : m'.get k with _ | list'
  · rfl
  · rw [hk, hk'] at hvalues
    exact absurd (hk'.trans (congrArg some hvalues.symm)) h'
  · rw [hk, hk'] at hvalues
    exact absurd (hk.trans (congrArg some hvalues)) h
  · rw [hk, hk'] at hvalues
    exact congrArg some hvalues

theorem mem_position_of_entry {db db' : Database} {t : Term} {info : PositionInfo}
    (h : Ascending PositionInfo.docId (db.positionDb.get t)) (hentry : db.entry t info.docId = db'.entry t info.docId)
    (hinfo : info ∈ db.positionDb.get t) : info ∈ db'.positionDb.get t := by
  have hpositions : (db'.entry t info.docId).positions = some info.positions := by
    rw [← hentry, Database.entry, SortedSeq.find_of_mem h hinfo, Option.map_some]
  obtain ⟨⟨docId, positions⟩, hfind, heq⟩ := Option.map_eq_some_iff.mp hpositions
  obtain rfl : docId = info.docId := SortedSeq.find_key hfind
  obtain rfl : positions = info.positions := heq
  exact SortedSeq.mem_of_find hfind

/-- Lists in order are determined by the entries. -/
theorem Database.ListsSorted.postings_ext {db db' : Database} (h : db.ListsSorted) (h' : db'.ListsSorted)
    (hentry : ∀ t i, db.entry t i = db'.entry t i) :
    db.postingDb = db'.postingDb ∧ db.positionDb = db'.positionDb := by
  constructor
  · refine OrdMap.ext fun t => ?_
    apply get_eq_of_values
    · exact fun hnil => (h.posting t [] hnil).2 rfl
    · exact fun hnil => (h'.posting t [] hnil).2 rfl
    · apply (h.posting_get t).ext (h'.posting_get t)
      intro i
      simpa [Database.entry] using congrArg Entry.posted (hentry t i)
  · refine OrdMap.ext fun t => ?_
    apply get_eq_of_values
    · exact fun hnil => (h.position t [] hnil).2.1 rfl
    · exact fun hnil => (h'.position t [] hnil).2.1 rfl
    · apply (h.position_get t).1.ext (h'.position_get t).1
      intro info
      exact ⟨mem_position_of_entry (h.position_get t).1 (hentry t info.docId),
        mem_position_of_entry (h'.position_get t).1 (hentry t info.docId).symm⟩

namespace WriteTransaction

/-! ## The loop over the operations of one term -/

/-- The position list of the loop, read or not. -/
def CommitState.positions (st : CommitState) (stored : List PositionInfo) : List PositionInfo :=
  if st.fetchedPositionList then st.positionList else stored

/-- The lists of the loop hold the entries `e`. -/
structure Tracks (stored : List PositionInfo) (st : CommitState) (e : DocId → Entry) : Prop where
  /-- the posting list is ascending -/
  list_ascending : Ascending id st.list
  /-- the position list is ascending -/
  positions_ascending : Ascending PositionInfo.docId (st.positions stored)
  /-- no entry of the position list is without positions -/
  positions_ne_nil : ∀ info ∈ st.positions stored, info.positions ≠ []
  /-- the posting list holds the posted documents -/
  posted : ∀ i, i ∈ st.list ↔ (e i).posted = true
  /-- the position list holds the positions -/
  found : ∀ i, (SortedSeq.find PositionInfo.docId i (st.positions stored)).map
    PositionInfo.positions = (e i).positions

theorem commitOperation_add (stored : List PositionInfo) (st : CommitState) (info : PositionInfo) :
    (commitOperation stored st ⟨.AddId, info⟩).list = sortedIdInsert st.list info.docId ∧
      (commitOperation stored st ⟨.AddId, info⟩).positions stored =
        if info.positions ≠ [] then sortedPositionInsert (st.positions stored) info
        else st.positions stored := by
  by_cases hp : info.positions = [] <;> by_cases hf : st.fetchedPositionList = true <;>
    simp [commitOperation, CommitState.fetch, CommitState.positions, hp, hf]

theorem commitOperation_remove (stored : List PositionInfo) (st : CommitState)
    (info : PositionInfo) :
    (commitOperation stored st ⟨.RemoveId, info⟩).list = sortedIdRemove st.list info.docId ∧
      (commitOperation stored st ⟨.RemoveId, info⟩).positions stored =
        sortedPositionRemove (st.positions stored) { docId := info.docId } := by
  by_cases hf : st.fetchedPositionList = true <;>
    simp [commitOperation, CommitState.fetch, CommitState.positions, hf]

/-- One operation: the lists follow the register machine. -/
theorem Tracks.operation {stored : List PositionInfo} {st : CommitState} {e : DocId → Entry}
    (h : Tracks stored st e) (op : Operation) :
    Tracks stored (commitOperation stored st op) fun i => (e i).apply i op := by
  obtain ⟨type, info⟩ := op
  cases type with
  | AddId =>
    obtain ⟨hlist, hpos⟩ := commitOperation_add stored st info
    refine ⟨?_, ?_, ?_, ?_, ?_⟩
    · rw [hlist]
      exact SortedSeq.ascending_insert h.list_ascending
    · rw [hpos]
      split
      · exact SortedSeq.ascending_insert h.positions_ascending
      · exact h.positions_ascending
    · rw [hpos]
      split
      · next hne =>
        intro x hx
        rcases SortedSeq.mem_of_mem_insert hx with rfl | hx
        · exact hne
        · exact h.positions_ne_nil x hx
      · exact h.positions_ne_nil
    · intro i
      rw [hlist, sortedIdInsert, SortedSeq.mem_insert h.list_ascending, h.posted]
      by_cases hi : info.docId = i
      · simp [Entry.apply, hi]
      · simp [Entry.apply, hi, Ne.symm hi]
    · intro i
      rw [hpos]
      split
      · next hne =>
        rw [sortedPositionInsert, SortedSeq.find_insert h.positions_ascending]
        by_cases hi : info.docId = i
        · subst hi
          have hfound := h.found info.docId
          rcases hf : SortedSeq.find PositionInfo.docId info.docId (st.positions stored) with _ | x
          · rw [hf] at hfound
            simp [Entry.apply, hne, ← hfound]
          · rw [hf] at hfound
            simp [Entry.apply, hne, ← hfound]
        · simp [Entry.apply, hi, Ne.symm hi, h.found]
      · next hnil =>
        by_cases hi : info.docId = i
        · simp [Entry.apply, hi, hnil, h.found]
        · simp [Entry.apply, hi, h.found]
  | RemoveId =>
    obtain ⟨hlist, hpos⟩ := commitOperation_remove stored st info
    refine ⟨?_, ?_, ?_, ?_, ?_⟩
    · rw [hlist]
      exact SortedSeq.ascending_erase h.list_ascending
    · rw [hpos]
      exact SortedSeq.ascending_erase h.positions_ascending
    · rw [hpos]
      intro x hx
      exact h.positions_ne_nil x (List.mem_of_mem_eraseP hx)
    · intro i
      rw [hlist, sortedIdRemove, SortedSeq.mem_erase h.list_ascending, h.posted]
      by_cases hi : info.docId = i
      · simp [Entry.apply, hi]
      · simp [Entry.apply, hi, Ne.symm hi]
    · intro i
      rw [hpos, sortedPositionRemove, SortedSeq.find_erase h.positions_ascending]
      by_cases hi : info.docId = i
      · simp [Entry.apply, hi]
      · simp [Entry.apply, hi, Ne.symm hi, h.found]

/-- The whole loop. -/
theorem Tracks.operations {stored : List PositionInfo} (ops : List Operation) {st : CommitState}
    {e : DocId → Entry} (h : Tracks stored st e) :
    Tracks stored (ops.foldl (commitOperation stored) st) fun i => ops.foldl (Entry.apply i) (e i) := by
  induction ops generalizing st e with
  | nil => exact h
  | cons op ops ih => exact ih (h.operation op)

/-- The loop starts with the stored lists. -/
theorem Tracks.start {db : Database} (h : db.ListsSorted) (t : Term) :
    Tracks (db.positionDb.get t) { list := db.postingDb.get t } (db.entry t) := by
  refine ⟨h.posting_get t, (h.position_get t).1, (h.position_get t).2, fun i => ?_, fun i => rfl⟩
  simp [Database.entry]

/-! ## The loop over the terms -/

section Term

variable (db : Database) (term : Term) (ops : List Operation)

/-- The lists of a term after its operations; the other terms are untouched. -/
theorem commitTerm_get (t : Term) :
    (commitTerm db term ops).postingDb.get t =
        (if t = term then
          (ops.foldl (commitOperation (db.positionDb.get term)) { list := db.postingDb.get term }).list
        else db.postingDb.get t) ∧
      (commitTerm db term ops).positionDb.get t =
        if t = term then
          (ops.foldl (commitOperation (db.positionDb.get term))
            { list := db.postingDb.get term }).positions (db.positionDb.get term)
        else db.positionDb.get t := by
  constructor
  · by_cases ht : t = term
    · subst ht
      simp only [commitTerm, if_true]
      split <;> simp_all [PostingDB.get, OrdMap.values]
    · simp only [commitTerm, ht, if_false]
      split <;> simp [PostingDB.get, OrdMap.values, ht]
  · by_cases ht : t = term
    · subst ht
      simp only [commitTerm, CommitState.positions, if_true]
      split
      · split <;> simp_all [PositionDB.get, OrdMap.values]
      · rfl
    · simp only [commitTerm, ht, if_false]
      split
      · split <;> simp [PositionDB.get, OrdMap.values, ht]
      · rfl

theorem ListsSorted.commitTerm (h : db.ListsSorted) : (commitTerm db term ops).ListsSorted := by
  have htr := (Tracks.start h term).operations ops
  constructor
  · intro t list hget
    simp only [WriteTransaction.commitTerm] at hget
    by_cases ht : t = term
    · subst ht
      split at hget
      · next hne =>
        obtain rfl : _ = list := by simpa using hget
        exact ⟨htr.list_ascending, hne⟩
      · simp at hget
    · refine h.posting t list ?_
      split at hget <;> simpa [ht] using hget
  · intro t list hget
    simp only [WriteTransaction.commitTerm] at hget
    by_cases ht : t = term
    · subst ht
      split at hget
      · next hfetched =>
        have hview := htr.positions_ascending
        have hne' := htr.positions_ne_nil
        simp only [CommitState.positions, hfetched, if_true] at hview hne'
        split at hget
        · next hne =>
          obtain rfl : _ = list := by simpa using hget
          exact ⟨hview, hne, hne'⟩
        · simp at hget
      · exact h.position t list hget
    · refine h.position t list ?_
      split at hget
      · split at hget <;> simpa [ht] using hget
      · exact hget

theorem entry_commitTerm (h : db.ListsSorted) (t : Term) (i : DocId) :
    (commitTerm db term ops).entry t i =
      if t = term then ops.foldl (Entry.apply i) (db.entry t i) else db.entry t i := by
  have htr := (Tracks.start h term).operations ops
  obtain ⟨hpost, hposition⟩ := commitTerm_get db term ops t
  rw [Database.entry, hpost, hposition]
  by_cases ht : t = term
  · subst ht
    simp only [if_true]
    have hposted := htr.posted i
    have hfound := htr.found i
    refine congrArg₂ Entry.mk ?_ hfound
    rw [Bool.eq_iff_iff, decide_eq_true_iff]
    exact hposted
  · simp [ht, Database.entry]

/-- Only the posting and the position table are written. -/
theorem commitTerm_frame :
    ∃ postingDb positionDb, commitTerm db term ops =
      { db with postingDb := postingDb, positionDb := positionDb } :=
  ⟨_, _, rfl⟩

end Term

/-- Visiting the terms `order`, each once. -/
theorem foldl_commitTerm (pending : Term → List Operation) (order : List Term) {db : Database}
    (h : db.ListsSorted) (hnodup : order.Nodup) :
    (order.foldl (fun db t => commitTerm db t (pending t)) db).ListsSorted ∧
      ∀ t i, (order.foldl (fun db t => commitTerm db t (pending t)) db).entry t i =
        if t ∈ order then (pending t).foldl (Entry.apply i) (db.entry t i) else db.entry t i := by
  induction order generalizing db with
  | nil => exact ⟨h, fun t i => by simp⟩
  | cons term order ih =>
    obtain ⟨hterm, hnodup⟩ := List.nodup_cons.mp hnodup
    obtain ⟨hsorted, hentry⟩ := ih (ListsSorted.commitTerm db term (pending term) h)
      hnodup
    refine ⟨hsorted, fun t i => ?_⟩
    rw [List.foldl_cons, hentry, entry_commitTerm db term _ h]
    by_cases ht : t = term
    · subst ht
      simp [hterm]
    · simp [ht]

variable {w : WriteTransaction} {order : List Term}

/-- **A commit runs the queued operations of every term on every document**, whatever the order in
which it visits the terms. -/
theorem entry_commit (h : w.dbis.ListsSorted) (horder : order.Perm w.pendingOperations.keys)
    (t : Term) (i : DocId) : (w.commit order).entry t i = w.entry t i := by
  have hnodup : order.Nodup := horder.nodup_iff.mpr (OrdMap.keys_nodup _)
  rw [commit, (foldl_commitTerm w.pendingOperations.values order h hnodup).2, entry]
  split
  · rfl
  · next hmem =>
    -- a term without queued operations
    rw [horder.mem_iff, OrdMap.mem_keys, not_exists] at hmem
    have hnone : OrdMap.get w.pendingOperations t = none := Option.eq_none_iff_forall_ne_some.mpr hmem
    simp [OrdMap.values, hnone]

theorem listsSorted_commit (h : w.dbis.ListsSorted) (horder : order.Perm w.pendingOperations.keys) :
    (w.commit order).ListsSorted :=
  (foldl_commitTerm w.pendingOperations.values order h
    (horder.nodup_iff.mpr (OrdMap.keys_nodup _))).1

/-- A commit writes only the posting and the position table. -/
theorem commit_frame (w : WriteTransaction) (order : List Term) :
    ∃ postingDb positionDb, w.commit order =
      { w.dbis with postingDb := postingDb, positionDb := positionDb } := by
  suffices h : ∀ db : Database, ∃ postingDb positionDb,
      order.foldl (fun db term => commitTerm db term (w.pendingOperations.values term)) db =
        { db with postingDb := postingDb, positionDb := positionDb } from h w.dbis
  induction order with
  | nil => exact fun db => ⟨_, _, rfl⟩
  | cons term order ih =>
    intro db
    obtain ⟨p, q, h⟩ := commitTerm_frame db term (w.pendingOperations.values term)
    obtain ⟨p', q', h'⟩ := ih (commitTerm db term (w.pendingOperations.values term))
    exact ⟨p', q', by rw [List.foldl_cons, h', h]⟩

/-- The other tables are those of the transaction. -/
theorem commit_eq (w : WriteTransaction) (order : List Term) : w.commit order =
    { w.dbis with
      postingDb := (w.commit order).postingDb, positionDb := (w.commit order).positionDb } := by
  obtain ⟨postingDb, positionDb, h⟩ := w.commit_frame order
  rw [h]

/-- A commit leaves the tables `db`, for some order in which it visits the terms. -/
def CommitsTo (w : WriteTransaction) (db : Database) : Prop :=
  ∃ order : List Term, order.Perm w.pendingOperations.keys ∧ w.commit order = db

theorem exists_commitsTo (w : WriteTransaction) : ∃ db, w.CommitsTo db := ⟨_, _, .refl _, rfl⟩

section CommitsTo

variable {w' : WriteTransaction} {db db' : Database}

theorem CommitsTo.listsSorted (hdb : w.CommitsTo db) (h : w.dbis.ListsSorted) : db.ListsSorted := by
  obtain ⟨order, horder, rfl⟩ := hdb
  exact listsSorted_commit h horder

theorem CommitsTo.entry (hdb : w.CommitsTo db) (h : w.dbis.ListsSorted) (t : Term) (i : DocId) :
    db.entry t i = w.entry t i := by
  obtain ⟨order, horder, rfl⟩ := hdb
  exact entry_commit h horder t i

theorem CommitsTo.withoutPostings (hdb : w.CommitsTo db) : db.withoutPostings = w.dbis.withoutPostings := by
  obtain ⟨order, -, rfl⟩ := hdb
  rw [commit_eq, Database.withoutPostings, Database.withoutPostings]

/-- Transactions with the same entries commit to the same postings, whatever is queued and in whatever order
the terms are visited. -/
theorem CommitsTo.postings_eq (hdb : w.CommitsTo db) (hdb' : w'.CommitsTo db') (h : w.dbis.ListsSorted)
    (h' : w'.dbis.ListsSorted) (hentry : ∀ t i, w.entry t i = w'.entry t i) :
    db.postingDb = db'.postingDb ∧ db.positionDb = db'.positionDb := by
  apply (hdb.listsSorted h).postings_ext (hdb'.listsSorted h')
  intro t i
  rw [hdb.entry h, hdb'.entry h', hentry]

/-- **The entries determine what a commit leaves**, together with the other tables. -/
theorem CommitsTo.eq_of_entries (hdb : w.CommitsTo db) (hdb' : w'.CommitsTo db') (h : w.dbis.ListsSorted)
    (h' : w'.dbis.ListsSorted) (hentry : ∀ t i, w.entry t i = w'.entry t i)
    (hrest : w.dbis.withoutPostings = w'.dbis.withoutPostings) : db = db' := by
  obtain ⟨hposting, hposition⟩ := hdb.postings_eq hdb' h h' hentry
  have heq : db.withoutPostings = db'.withoutPostings :=
    hdb.withoutPostings.trans (hrest.trans hdb'.withoutPostings.symm)
  have hrestore : ∀ db : Database,
      { db.withoutPostings with postingDb := db.postingDb, positionDb := db.positionDb } = db := fun db => rfl
  rw [← hrestore db, ← hrestore db', heq, hposting, hposition]

end CommitsTo

/-! ## The queue seen through the entries -/

/-- The entries after a batch of additions or removals has been queued. -/
theorem entry_appendAll (kws : List (Term × Operation)) (t : Term) (i : DocId) :
    { w with pendingOperations := w.pendingOperations.appendAll kws }.entry t i =
      ((kws.filter (·.1 = t)).map Prod.snd).foldl (Entry.apply i) (w.entry t i) := by
  rw [entry, OrdMap.values_appendAll, List.foldl_append]
  rfl

theorem entry_addTerms (id : DocId) (terms : OrdMap Term TermData) (t : Term) (i : DocId) :
    (w.addTerms id terms).1.entry t i =
      match terms.get t with
      | none => w.entry t i
      | some td => (w.entry t i).apply i ⟨.AddId, ⟨id, td.positions⟩⟩ := by
  rw [addTerms, entry_appendAll, List.filter_map, List.map_map]
  have hfilter : terms.toList.filter ((fun kw : Term × Operation => decide (kw.1 = t)) ∘ fun it =>
      (it.1, (⟨.AddId, ⟨id, it.2.positions⟩⟩ : Operation))) =
        terms.toList.filter (·.1 = t) := rfl
  rw [hfilter, OrdMap.filter_toList]
  rcases terms.get t with _ | td <;> rfl

theorem entry_removeTerms (id : DocId) (terms : List Term) (t : Term) (i : DocId) :
    (w.removeTerms id terms).entry t i =
      if i = id ∧ t ∈ terms then { posted := false, positions := none } else w.entry t i := by
  rw [removeTerms, entry_appendAll]
  generalize w.entry t i = e
  induction terms generalizing e with
  | nil => simp
  | cons term terms ih =>
    by_cases hterm : term = t
    · subst hterm
      simp only [List.map_cons, List.filter_cons, decide_true, if_true, List.foldl_cons, ih]
      by_cases hi : id = i
      · simp [Entry.apply, hi]
      · simp [Entry.apply, hi, Ne.symm hi]
    · simp [hterm, Ne.symm hterm, ih]

end WriteTransaction

/-! ## The tables a commit does not write -/

theorem docUrlDb_commit (w : WriteTransaction) (order : List Term) :
    (w.commit order).docUrlDb = w.dbis.docUrlDb := by rw [w.commit_eq order]

theorem mtimeDb_commit (w : WriteTransaction) (order : List Term) :
    (w.commit order).mtimeDb = w.dbis.mtimeDb := by rw [w.commit_eq order]

theorem docTimeDb_commit (w : WriteTransaction) (order : List Term) :
    (w.commit order).docTimeDb = w.dbis.docTimeDb := by rw [w.commit_eq order]

end Baloo
