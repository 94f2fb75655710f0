import Baloo.Commit
import Mathlib.Logic.Relation

/-!
# The postings agree with the documents

What the term tables are for: a document has three families of terms (content, xattr, file name),
each a map from terms to positions. An `Index` says, for every document, which families were last
written for it. The tables of the database, together with the queue of a running transaction, *hold*
an index (`Holds`): the document tables hold its terms, and committing the queue would leave in the
posting and position tables exactly the entries the index gives.

Every operation of `WriteTransaction` carries an index over to the index one expects (`Step`), so
after any number of committed transactions the postings and the positions are those of the documents.
The one thing the queue cannot do is follow a term that moves, within one `replaceDocument`, into a
family that is replaced before the family it leaves: the removal is then queued behind the addition.
-/

namespace Baloo

open SortedSeq (Ascending)

/-- The three families of terms of a document. -/
inductive Family where
  /-- content and properties -/
  | terms
  /-- extended attributes -/
  | xattrTerms
  /-- file name -/
  | fileNameTerms
  deriving DecidableEq

/-- The table of a family. -/
def Database.termsDb (db : Database) : Family → DocumentDB
  | .terms => db.docTermsDb
  | .xattrTerms => db.docXattrTermsDb
  | .fileNameTerms => db.docFilenameTermsDb

theorem termsDb_commit (w : WriteTransaction) (order : List Term) : (w.commit order).termsDb = w.dbis.termsDb := by
  rw [w.commit_eq order]
  funext f
  cases f <;> rfl

/-- The terms a document brings for a family. -/
def Document.family (doc : Document) : Family → OrdMap Term TermData
  | .terms => doc.terms
  | .xattrTerms => doc.xattrTerms
  | .fileNameTerms => doc.fileNameTerms

/-- Is the family among the operations? -/
def DocumentOperations.replaces (operations : DocumentOperations) : Family → Bool
  | .terms => operations.documentTerms
  | .xattrTerms => operations.xattrTerms
  | .fileNameTerms => operations.fileNameTerms

/-- No term belongs to two families. -/
def Apart (families : Family → OrdMap Term TermData) : Prop :=
  ∀ t f g, (families f).contains t = true → (families g).contains t = true → f = g

theorem apart_iff_nodup {families : Family → OrdMap Term TermData} :
    Apart families ↔ ((families .terms).keys ++ (families .xattrTerms).keys ++
      (families .fileNameTerms).keys).Nodup := by
  simp only [Apart, OrdMap.contains_iff_mem_keys, List.nodup_append, List.mem_append]
  constructor
  · intro h
    refine ⟨⟨OrdMap.keys_nodup _, OrdMap.keys_nodup _, ?_⟩, OrdMap.keys_nodup _, ?_⟩
    · rintro t ht _ ht' rfl
      cases h t _ _ ht ht'
    · rintro t (ht | ht) _ ht' rfl
      · cases h t _ _ ht ht'
      · cases h t _ _ ht ht'
  · rintro ⟨⟨-, -, h₁⟩, -, h₂⟩ t f g hf hg
    cases f <;> cases g
    · rfl
    · exact absurd rfl (h₁ t hf t hg)
    · exact absurd rfl (h₂ t (Or.inl hf) t hg)
    · exact absurd rfl (h₁ t hg t hf)
    · rfl
    · exact absurd rfl (h₂ t (Or.inr hf) t hg)
    · exact absurd rfl (h₂ t (Or.inl hg) t hf)
    · exact absurd rfl (h₂ t (Or.inr hg) t hf)
    · rfl

instance (families : Family → OrdMap Term TermData) : Decidable (Apart families) :=
  decidable_of_iff _ apart_iff_nodup.symm

/-- The term data of `t`, from whichever family has it. -/
def lookup (families : Family → OrdMap Term TermData) (t : Term) : Option TermData :=
  (((families .terms).get t).or ((families .xattrTerms).get t)).or ((families .fileNameTerms).get t)

theorem lookup_eq_some {families : Family → OrdMap Term TermData} (h : Apart families) {t : Term}
    {td : TermData} : lookup families t = some td ↔ ∃ f, (families f).get t = some td := by
  have hc : ∀ f td, (families f).get t = some td → (families f).contains t = true :=
    fun f td hf => OrdMap.contains_iff.mpr ⟨td, hf⟩
  refine ⟨fun hl => ?_, ?_⟩
  · simp only [lookup, Option.or_eq_some_iff] at hl
    rcases hl with (hl | ⟨-, hl⟩) | ⟨-, hl⟩
    · exact ⟨_, hl⟩
    · exact ⟨_, hl⟩
    · exact ⟨_, hl⟩
  · rintro ⟨f, hf⟩
    have hother : ∀ g, g ≠ f → (families g).get t = none := fun g hg => by
      rcases hget : (families g).get t with _ | td'
      · rfl
      · exact absurd (h t g f (hc g td' hget) (hc f td hf)) hg
    cases f <;> simp [lookup, hf, hother]

theorem lookup_eq_none {families : Family → OrdMap Term TermData} {t : Term} :
    lookup families t = none ↔ ∀ f, (families f).get t = none := by
  simp only [lookup, Option.or_eq_none_iff]
  constructor
  · rintro ⟨⟨h₁, h₂⟩, h₃⟩ f
    cases f <;> assumption
  · exact fun h => ⟨⟨h _, h _⟩, h _⟩

/-- The entry that term data stand for. -/
def Entry.ofTermData : Option TermData → Entry
  | none => { posted := false, positions := none }
  | some td =>
    { posted := true, positions := if td.positions ≠ [] then some td.positions else none }

/-- What has been written: the families of every document, as the documents that last wrote them
brought them. -/
abbrev Index : Type := DocId → Family → OrdMap Term TermData

namespace Index

/-- Write one family of a document. -/
def set (A : Index) (id : DocId) (f : Family) (terms : OrdMap Term TermData) : Index :=
  fun i g => if i = id ∧ g = f then terms else A i g

/-- Write some of the families of the document `doc`. -/
def replace (A : Index) (doc : Document) (replaces : Family → Bool) : Index :=
  fun i f => if i = doc.id ∧ replaces f = true then doc.family f else A i f

/-- Forget a document. -/
def forget (A : Index) (id : DocId) : Index := fun i f => if i = id then ∅ else A i f

@[simp] theorem forget_self (A : Index) (id : DocId) : A.forget id id = fun _ => ∅ := by
  funext f
  simp [forget]

theorem forget_of_ne (A : Index) {id i : DocId} (hi : i ≠ id) : A.forget id i = A i := by
  funext f
  simp [forget, hi]

/-- Forget the documents that are gone from the document table. -/
def keep (A : Index) (db : Database) : Index :=
  fun i f => if db.docTermsDb.contains i = true then A i f else ∅

end Index

/-- The table holds a family: the encoded terms of every document that has some. -/
def TableHolds (table : DocumentDB) (terms : DocId → OrdMap Term TermData) : Prop :=
  ∀ i, OrdMap.get table i =
    if (terms i).keys = [] then none else some (DocTermsCodec.encode (terms i).keys)

/-- The tables of a transaction hold an index. -/
structure Holds (w : WriteTransaction) (A : Index) : Prop where
  /-- the document tables hold the terms -/
  table : ∀ f, TableHolds (w.dbis.termsDb f) fun i => A i f
  /-- a commit would leave the entries -/
  entry : ∀ t i, w.entry t i = Entry.ofTermData (lookup (A i) t)
  /-- the families of a document are disjoint -/
  apart : ∀ i, Apart (A i)
  /-- terms survive the codec -/
  clean : ∀ i f t, (A i f).contains t = true → DocTermsCodec.Clean t
  /-- only documents with content terms have other terms -/
  indexed : ∀ i, (A i .terms).keys = [] → ∀ f, (A i f).keys = []
  /-- the stored lists are in order -/
  sorted : w.dbis.ListsSorted

theorem TableHolds.get {table : DocumentDB} {terms : DocId → OrdMap Term TermData}
    (h : TableHolds table terms) {i : DocId}
    (hclean : ∀ t, (terms i).contains t = true → DocTermsCodec.Clean t) :
    table.get i = (terms i).keys := by
  rw [DocumentDB.get, h i]
  by_cases hnil : (terms i).keys = []
  · simp [hnil]
  · simp only [hnil, if_false]
    exact DocTermsCodec.decode_encode_terms fun t ht => hclean t (OrdMap.contains_iff_mem_keys.mpr ht)

theorem Holds.get {w : WriteTransaction} {A : Index} (h : Holds w A) (f : Family) (i : DocId) :
    (w.dbis.termsDb f).get i = (A i f).keys :=
  (h.table f).get (h.clean i f)

/-- Membership in a document table, by the index. -/
theorem Holds.mem_get {w : WriteTransaction} {A : Index} (h : Holds w A) {f : Family} {i : DocId}
    {t : Term} : t ∈ (w.dbis.termsDb f).get i ↔ ∃ td, (A i f).get t = some td := by
  rw [h.get, OrdMap.mem_keys]

theorem Holds.contains {w : WriteTransaction} {A : Index} (h : Holds w A) (i : DocId) :
    w.dbis.docTermsDb.contains i = true ↔ (A i .terms).keys ≠ [] := by
  have ht := h.table .terms i
  simp only [Database.termsDb] at ht
  rw [OrdMap.contains, ht]
  by_cases hnil : (A i .terms).keys = [] <;> simp [hnil]


/-! ## One family is replaced -/

section Replace

variable {w w' : WriteTransaction} {A : Index} {id : DocId} {f : Family}
  {new : OrdMap Term TermData}

@[simp] theorem Index.set_self : A.set id f new id f = new := by simp [Index.set]

theorem Index.replace_congr {doc : Document} {replaces replaces' : Family → Bool} {i : DocId} {f : Family}
    (h : replaces f = replaces' f) : A.replace doc replaces i f = A.replace doc replaces' i f := by
  rw [Index.replace, Index.replace, h]

theorem Index.set_family {g : Family} (hg : g ≠ f) (i : DocId) : A.set id f new i g = A i g := by
  simp [Index.set, hg]

theorem Index.set_document {i : DocId} (hi : i ≠ id) : A.set id f new i = A i := by
  funext g
  simp [Index.set, hi]

theorem lookup_congr {families families' : Family → OrdMap Term TermData} {t : Term}
    (h : ∀ f, (families f).get t = (families' f).get t) :
    lookup families t = lookup families' t := by
  simp only [lookup, h]

/-- A family that meets none of the other families of its document keeps the families apart. -/
theorem Apart.set (h : Apart (A id))
    (hnew : ∀ g t, g ≠ f → new.contains t = true → (A id g).contains t = false) (i : DocId)
    (hi : Apart (A i)) : Apart (A.set id f new i) := by
  by_cases hid : i = id
  · subst hid
    intro t g g' hg hg'
    by_cases hgf : g = f <;> by_cases hgf' : g' = f
    · exact hgf.trans hgf'.symm
    · subst hgf
      rw [Index.set_self] at hg
      rw [Index.set_family hgf', hnew g' t hgf' hg] at hg'
      cases hg'
    · subst hgf'
      rw [Index.set_self] at hg'
      rw [Index.set_family hgf, hnew g t hgf hg'] at hg
      cases hg
    · rw [Index.set_family hgf] at hg
      rw [Index.set_family hgf'] at hg'
      exact h t g g' hg hg'
  · rwa [Index.set_document hid]

/-- The entries after the old terms of a family have been queued for removal and the new ones for
addition. -/
theorem Holds.entry_replaceTerms (h : Holds w A)
    (hnew : ∀ g t, g ≠ f → new.contains t = true → (A id g).contains t = false) (t : Term)
    (i : DocId) : (w.replaceTerms id (A id f).keys new).1.entry t i =
      Entry.ofTermData (lookup (A.set id f new i) t) := by
  rw [WriteTransaction.replaceTerms, WriteTransaction.entry_addTerms,
    WriteTransaction.entry_removeTerms, h.entry]
  by_cases hi : i = id
  · subst hi
    rcases hget : new.get t with _ | td
    · -- `t` leaves the family or stays in another one
      rcases hold : (A i f).get t with _ | td
      · have hsame : lookup (A.set i f new i) t = lookup (A i) t := lookup_congr fun g => by
          by_cases hg : g = f
          · subst hg
            rw [Index.set_self, hget, hold]
          · rw [Index.set_family hg]
        have hmem : t ∉ (A i f).keys := fun hmem => by
          obtain ⟨v, hv⟩ := OrdMap.mem_keys.mp hmem
          rw [hold] at hv
          cases hv
        simp [hsame, hmem]
      · have hmem : t ∈ (A i f).keys := OrdMap.mem_keys.mpr ⟨td, hold⟩
        have hnone : lookup (A.set i f new i) t = none := lookup_eq_none.mpr fun g => by
          by_cases hg : g = f
          · subst hg
            rw [Index.set_self, hget]
          · rw [Index.set_family hg]
            rcases hother : (A i g).get t with _ | td'
            · rfl
            · exact absurd (h.apart i t g f (OrdMap.contains_iff.mpr ⟨_, hother⟩)
                (OrdMap.contains_iff.mpr ⟨_, hold⟩)) hg
        simp [hnone, hmem, Entry.ofTermData]
    · -- `t` is in the new family, so no other family has it and the register starts empty
      have hcontains : new.contains t = true := OrdMap.contains_iff.mpr ⟨td, hget⟩
      have hsome : lookup (A.set i f new i) t = some td :=
        (lookup_eq_some (Apart.set (h.apart i) hnew i (h.apart i))).mpr
          ⟨f, by rw [Index.set_self, hget]⟩
      have hother : ∀ g, g ≠ f → (A i g).get t = none := fun g hg => by
        have := hnew g t hg hcontains
        rwa [OrdMap.contains, Option.isSome_eq_false_iff, Option.isNone_iff_eq_none] at this
      have hstart : (if i = i ∧ t ∈ (A i f).keys then
          ({ posted := false, positions := none } : Entry)
          else Entry.ofTermData (lookup (A i) t)) = { posted := false, positions := none } := by
        split
        · rfl
        · next hnot =>
          have hnone : lookup (A i) t = none := lookup_eq_none.mpr fun g => by
            by_cases hg : g = f
            · subst hg
              exact Option.eq_none_iff_forall_ne_some.mpr fun v hv =>
                hnot ⟨rfl, OrdMap.mem_keys.mpr ⟨v, hv⟩⟩
            · exact hother g hg
          rw [hnone, Entry.ofTermData]
      rw [hstart, hsome]
      simp [Entry.apply, Entry.ofTermData]
  · -- the operations are about another document
    rw [Index.set_document hi]
    rcases new.get t with _ | td <;> simp [hi, Ne.symm hi, Entry.apply]

/-- Replacing a family: the queue as `replaceTerms` leaves it, the table written, everything else as
before. -/
theorem Holds.set (h : Holds w A)
    (hentry : ∀ t i, w'.entry t i = (w.replaceTerms id (A id f).keys new).1.entry t i)
    (htable : TableHolds (w'.dbis.termsDb f) fun i => A.set id f new i f)
    (hother : ∀ g, g ≠ f → w'.dbis.termsDb g = w.dbis.termsDb g)
    (hsorted : w'.dbis.ListsSorted)
    (hnew : ∀ g t, g ≠ f → new.contains t = true → (A id g).contains t = false)
    (hclean : ∀ t, new.contains t = true → DocTermsCodec.Clean t)
    (hindexed : (A.set id f new id .terms).keys ≠ []) : Holds w' (A.set id f new) := by
  refine ⟨fun g => ?_, fun t i => ?_, fun i => ?_, fun i g t => ?_, fun i => ?_, hsorted⟩
  · by_cases hg : g = f
    · exact hg ▸ htable
    · simpa only [hother g hg, Index.set_family hg] using h.table g
  · rw [hentry, h.entry_replaceTerms hnew]
  · exact Apart.set (h.apart id) hnew i (h.apart i)
  · by_cases hset : i = id ∧ g = f
    · obtain ⟨rfl, rfl⟩ := hset
      rw [Index.set_self]
      exact hclean t
    · rw [Index.set, if_neg hset]
      exact h.clean i g t
  · by_cases hi : i = id
    · subst hi
      exact fun hnil => absurd hnil hindexed
    · rw [Index.set_document hi]
      exact h.indexed i

theorem TableHolds.put {table : DocumentDB} (h : TableHolds table fun i => A i f)
    (hne : new.keys ≠ []) : TableHolds (table.put id new.keys) fun i => A.set id f new i f := by
  intro i
  rw [DocumentDB.put, OrdMap.get_put]
  by_cases hi : i = id
  · subst hi
    simp [hne]
  · simpa [hi, Index.set_document hi] using h i

theorem TableHolds.del {table : DocumentDB} (h : TableHolds table fun i => A i f)
    (hnil : new.keys = []) : TableHolds (OrdMap.del table id) fun i => A.set id f new i f := by
  intro i
  rw [OrdMap.get_del]
  by_cases hi : i = id
  · subst hi
    simp [hnil]
  · simpa [hi, Index.set_document hi] using h i

theorem TableHolds.same {table : DocumentDB} (h : TableHolds table fun i => A i f)
    (hsame : new.keys = (A id f).keys) : TableHolds table fun i => A.set id f new i f := by
  intro i
  by_cases hi : i = id
  · subst hi
    simpa [hsame] using h i
  · simpa [Index.set_document hi] using h i

end Replace


/-- Write the table of a family. -/
def Database.setTermsDb (db : Database) (table : DocumentDB) : Family → Database
  | .terms => { db with docTermsDb := table }
  | .xattrTerms => { db with docXattrTermsDb := table }
  | .fileNameTerms => { db with docFilenameTermsDb := table }

/-- The common shape of the three blocks of `replaceDocument`, which is also the shape of the three
blocks of `addDocument`. -/
def WriteTransaction.replaceFamily (w : WriteTransaction) (id : DocId) (f : Family)
    (terms : OrdMap Term TermData) : WriteTransaction :=
  let table := w.dbis.termsDb f
  let prevTerms := table.get id
  let w := (w.replaceTerms id prevTerms terms).1
  { w with
    dbis := w.dbis.setTermsDb
      (if terms.keys ≠ prevTerms then
        if terms.keys ≠ [] then table.put id terms.keys else table.del id
      else table) f }

theorem replaceDocumentTerms_eq (w : WriteTransaction) {doc : Document}
    (hne : doc.terms.keys ≠ []) :
    w.replaceDocumentTerms doc = w.replaceFamily doc.id .terms doc.terms := by
  rw [WriteTransaction.replaceFamily]
  by_cases h : doc.terms.keys = (w.dbis.termsDb .terms).get doc.id
  · rw [if_neg (not_not.mpr h)]
    exact if_neg (not_not.mpr h)
  · rw [if_pos h, if_pos hne]
    exact if_pos h

theorem replaceXattrTerms_eq (w : WriteTransaction) (doc : Document) :
    w.replaceXattrTerms doc = w.replaceFamily doc.id .xattrTerms doc.xattrTerms := by
  rw [WriteTransaction.replaceFamily]
  by_cases h : doc.xattrTerms.keys = (w.dbis.termsDb .xattrTerms).get doc.id
  · rw [if_neg (not_not.mpr h)]
    exact if_neg (not_not.mpr h)
  · rw [if_pos h]
    exact if_pos h

theorem replaceFileNameTerms_eq (w : WriteTransaction) (doc : Document) :
    w.replaceFileNameTerms doc = w.replaceFamily doc.id .fileNameTerms doc.fileNameTerms := by
  rw [WriteTransaction.replaceFamily]
  by_cases h : doc.fileNameTerms.keys = (w.dbis.termsDb .fileNameTerms).get doc.id
  · rw [if_neg (not_not.mpr h)]
    exact if_neg (not_not.mpr h)
  · rw [if_pos h]
    exact if_pos h

theorem Database.termsDb_setTermsDb (db : Database) (table : DocumentDB) (f g : Family) :
    (db.setTermsDb table f).termsDb g = if g = f then table else db.termsDb g := by
  cases f <;> cases g <;> rfl

theorem Database.entry_setTermsDb (db : Database) (table : DocumentDB) (f : Family) :
    (db.setTermsDb table f).entry = db.entry := by
  cases f <;> rfl

theorem Database.ListsSorted.setTermsDb {db : Database} (h : db.ListsSorted) (table : DocumentDB)
    (f : Family) : (db.setTermsDb table f).ListsSorted := by
  cases f <;> exact ⟨h.posting, h.position⟩

/-- **Replacing one family keeps tables and postings in step**, if the new family has no term of the
other families of the document and the document keeps content terms. -/
theorem Holds.replaceFamily {w : WriteTransaction} {A : Index} (h : Holds w A) {id : DocId}
    {f : Family} {new : OrdMap Term TermData}
    (hnew : ∀ g t, g ≠ f → new.contains t = true → (A id g).contains t = false)
    (hclean : ∀ t, new.contains t = true → DocTermsCodec.Clean t)
    (hindexed : (A.set id f new id .terms).keys ≠ []) :
    Holds (w.replaceFamily id f new) (A.set id f new) := by
  have hprev := h.get f id
  refine h.set (fun t i => ?_) ?_ (fun g hg => ?_) ?_ hnew hclean hindexed
  · rw [← hprev]
    simp only [WriteTransaction.replaceFamily, WriteTransaction.entry, Database.entry_setTermsDb]
  · simp only [WriteTransaction.replaceFamily, Database.termsDb_setTermsDb, if_true]
    split
    · split
      · next hne => exact TableHolds.put (h.table f) hne
      · next hnil => exact TableHolds.del (h.table f) (not_not.mp hnil)
    · next hsame => exact TableHolds.same (h.table f) ((not_not.mp hsame).trans hprev)
  · simp only [WriteTransaction.replaceFamily, Database.termsDb_setTermsDb, if_neg hg]
    rfl
  · exact Database.ListsSorted.setTermsDb ⟨h.sorted.posting, h.sorted.position⟩ _ f

section Family

variable {w : WriteTransaction} {id i : DocId} {f : Family} {terms : OrdMap Term TermData} {t : Term}

theorem termsDb_replaceFamily (w : WriteTransaction) (id : DocId) (f : Family) (terms : OrdMap Term TermData)
    (g : Family) : (w.replaceFamily id f terms).dbis.termsDb g =
      if g = f then
        if terms.keys ≠ (w.dbis.termsDb f).get id then
          if terms.keys ≠ [] then (w.dbis.termsDb f).put id terms.keys else (w.dbis.termsDb f).del id
        else w.dbis.termsDb f
      else w.dbis.termsDb g :=
  Database.termsDb_setTermsDb w.dbis _ f g

/-- Other stored lists stay as they are. -/
theorem get_replaceFamily_of_ne {g : Family} (h : ¬ (g = f ∧ i = id)) :
    OrdMap.get ((w.replaceFamily id f terms).dbis.termsDb g) i = OrdMap.get (w.dbis.termsDb g) i := by
  rw [termsDb_replaceFamily]
  split
  · next hg =>
    have hi : i ≠ id := fun hi => h ⟨hg, hi⟩
    rw [hg]
    split
    · split
      · rw [DocumentDB.put, OrdMap.get_put, if_neg hi]
      · rw [OrdMap.get_del, if_neg hi]
    · rfl
  · rfl

/-- Only the rewritten family of the document changes. -/
theorem get_termsDb_replaceFamily (w : WriteTransaction) (id : DocId) (f : Family)
    (hclean : ∀ t, terms.contains t = true → DocTermsCodec.Clean t) (g : Family) (i : DocId) :
    ((w.replaceFamily id f terms).dbis.termsDb g).get i =
      if g = f ∧ i = id then terms.keys else (w.dbis.termsDb g).get i := by
  have hdecode : DocTermsCodec.decode (DocTermsCodec.encode terms.keys) = terms.keys :=
    DocTermsCodec.decode_encode_terms fun t ht => hclean t (OrdMap.contains_iff_mem_keys.mpr ht)
  rw [termsDb_replaceFamily]
  by_cases hg : g = f
  · subst hg
    simp only [if_true, true_and]
    by_cases hi : i = id
    · subst hi
      rw [if_pos rfl]
      split
      · split
        · rw [DocumentDB.get, DocumentDB.put, OrdMap.get_put, if_pos rfl]
          exact hdecode
        · next hnil =>
          rw [DocumentDB.get, OrdMap.get_del, if_pos rfl]
          exact (not_not.mp hnil).symm
      · next hsame => exact (not_not.mp hsame).symm
    · rw [if_neg hi]
      split
      · split
        · rw [DocumentDB.get, DocumentDB.put, OrdMap.get_put, if_neg hi, DocumentDB.get]
        · rw [DocumentDB.get, OrdMap.get_del, if_neg hi, DocumentDB.get]
      · rfl
  · rw [if_neg hg, if_neg fun hboth => hg hboth.1]

theorem entry_replaceFamily (w : WriteTransaction) (id : DocId) (f : Family) (terms : OrdMap Term TermData)
    (t : Term) (i : DocId) : (w.replaceFamily id f terms).entry t i =
      (w.replaceTerms id ((w.dbis.termsDb f).get id) terms).1.entry t i := by
  simp only [WriteTransaction.replaceFamily, WriteTransaction.entry, Database.entry_setTermsDb]

/-- The queued operations are about the document. -/
theorem entry_replaceFamily_of_ne (hi : i ≠ id) : (w.replaceFamily id f terms).entry t i = w.entry t i := by
  rw [entry_replaceFamily, WriteTransaction.replaceTerms, WriteTransaction.entry_addTerms,
    WriteTransaction.entry_removeTerms, if_neg fun h => hi h.1]
  rcases terms.get t with _ | td
  · rfl
  · exact if_neg hi.symm

end Family

/-! ## The operations of a transaction -/

/-- Only the queue and the tables of terms, postings and positions matter. -/
theorem Holds.congr {w w' : WriteTransaction} {A : Index} (h : Holds w A)
    (hqueue : w'.pendingOperations = w.pendingOperations)
    (hterms : w'.dbis.termsDb = w.dbis.termsDb) (hposting : w'.dbis.postingDb = w.dbis.postingDb)
    (hposition : w'.dbis.positionDb = w.dbis.positionDb) : Holds w' A := by
  refine ⟨hterms ▸ h.table, fun t i => ?_, h.apart, h.clean, h.indexed, ?_⟩
  · rw [← h.entry, WriteTransaction.entry, WriteTransaction.entry, hqueue, Database.entry,
      Database.entry, hposting, hposition]
  · exact ⟨hposting ▸ h.sorted.posting, hposition ▸ h.sorted.position⟩

/-- The terms of a document are not empty and free of the bytes of the codec. -/
def Document.WellFormed (doc : Document) : Prop :=
  ∀ f t, (doc.family f).contains t = true → t ≠ [] ∧ DocTermsCodec.Clean t

instance (doc : Document) : Decidable doc.WellFormed :=
  decidable_of_iff (∀ f ∈ [Family.terms, .xattrTerms, .fileNameTerms],
      ∀ t ∈ (doc.family f).keys, t ≠ [] ∧ DocTermsCodec.Clean t) <| by
    refine ⟨fun h f t ht => h f (by cases f <;> simp) t ?_, fun h f _ t ht => h f t ?_⟩
    · exact OrdMap.contains_iff_mem_keys.mp ht
    · exact OrdMap.contains_iff_mem_keys.mpr ht

/-- The order in which the families are replaced. -/
def Family.rank : Family → ℕ
  | .terms => 0
  | .xattrTerms => 1
  | .fileNameTerms => 2

theorem Family.lt_succ_rank {f g : Family} : f.rank < g.rank + 1 ↔ f.rank < g.rank ∨ f = g := by
  cases f <;> cases g <;> simp [Family.rank]

theorem Family.decide_lt_succ_rank {f g : Family} (h : f ≠ g) :
    decide (f.rank < g.rank + 1) = decide (f.rank < g.rank) :=
  decide_eq_decide.mpr (Family.lt_succ_rank.trans (or_iff_left h))

theorem Family.rank_trichotomy {f g : Family} (h : f ≠ g) : f.rank < g.rank ∨ g.rank < f.rank := by
  cases f <;> cases g <;> simp_all [Family.rank]

/-- What writing some families of a document needs to keep the postings right. -/
structure KeepsApart (A : Index) (doc : Document) (replaces : Family → Bool) : Prop where
  /-- no term belongs to two of the families the document has afterwards -/
  apart : Apart (A.replace doc replaces doc.id)
  /-- no term moves to a family from one that is replaced later -/
  moves : ∀ t f g, replaces f = true → replaces g = true → g.rank < f.rank →
    (A doc.id f).contains t = true → (doc.family g).contains t = false

section Operations

variable {w : WriteTransaction} {A : Index} {doc : Document} {replaces : Family → Bool}

/-- One block of `replaceDocument`: the families before `g` have been replaced, now it is the turn
of `g`. -/
theorem Holds.replaceBlock (hapart : KeepsApart A doc replaces) (hdoc : doc.WellFormed)
    (hindexed : (A.replace doc replaces doc.id .terms).keys ≠ []) (g : Family)
    (h : Holds w (A.replace doc fun f => replaces f && decide (f.rank < g.rank))) :
    Holds (if replaces g then w.replaceFamily doc.id g (doc.family g) else w)
      (A.replace doc fun f => replaces f && decide (f.rank < g.rank + 1)) := by
  by_cases hg : replaces g = true
  · have hset : (A.replace doc fun f => replaces f && decide (f.rank < g.rank + 1)) =
        (A.replace doc fun f => replaces f && decide (f.rank < g.rank)).set doc.id g
          (doc.family g) := by
      funext i f
      by_cases hf : f = g
      · subst hf
        by_cases hi : i = doc.id
        · simp [Index.replace, Index.set, hi, hg]
        · simp [Index.replace, Index.set, hi]
      · rw [Index.set_family hf]
        exact Index.replace_congr (congrArg (replaces f && ·) (Family.decide_lt_succ_rank hf))
    rw [if_pos hg, hset]
    refine h.replaceFamily (fun f t hf ht => ?_) (fun t ht => (hdoc g t ht).2) ?_
    · -- the other families are final unless they are replaced later
      have hfinal : (A.replace doc replaces doc.id g).contains t = true := by
        simpa [Index.replace, hg] using ht
      by_contra hcontains
      rw [Bool.not_eq_false] at hcontains
      by_cases hrf : replaces f = true
      · rcases Family.rank_trichotomy hf with hlt | hlt
        · refine hf (hapart.apart t f g ?_ hfinal)
          simpa [Index.replace, hrf, hlt] using hcontains
        · have hnot : ¬ f.rank < g.rank := by omega
          have hold : (A doc.id f).contains t = true := by
            simpa [Index.replace, hrf, hnot] using hcontains
          rw [hapart.moves t f g hrf hg hlt hold] at ht
          cases ht
      · refine hf (hapart.apart t f g ?_ hfinal)
        simpa [Index.replace, hrf] using hcontains
    · rw [← hset]
      simpa [Index.replace, Family.rank] using hindexed
  · have hsame : (A.replace doc fun f => replaces f && decide (f.rank < g.rank + 1)) =
        A.replace doc fun f => replaces f && decide (f.rank < g.rank) := by
      funext i f
      by_cases hf : f = g
      · subst hf
        simp [Index.replace, hg]
      · exact Index.replace_congr (congrArg (replaces f && ·) (Family.decide_lt_succ_rank hf))
    rw [if_neg hg, hsame]
    exact h

/-- The three blocks. -/
theorem Holds.replaceFamilies (h : Holds w A) (hapart : KeepsApart A doc replaces)
    (hdoc : doc.WellFormed) (hindexed : (A.replace doc replaces doc.id .terms).keys ≠ []) :
    Holds
      (let w := if replaces .terms then w.replaceFamily doc.id .terms doc.terms else w
       let w := if replaces .xattrTerms then w.replaceFamily doc.id .xattrTerms doc.xattrTerms else w
       if replaces .fileNameTerms then w.replaceFamily doc.id .fileNameTerms doc.fileNameTerms else w)
      (A.replace doc replaces) := by
  have hstart : A.replace doc (fun f => replaces f && decide (f.rank < Family.terms.rank)) = A := by
    funext i f
    simp [Index.replace, Family.rank]
  have hend : A.replace doc (fun f => replaces f && decide (f.rank < Family.fileNameTerms.rank + 1)) =
      A.replace doc replaces := by
    funext i f
    cases f <;> simp [Index.replace, Family.rank]
  rw [← hstart] at h
  rw [← hend]
  exact (((h.replaceBlock hapart hdoc hindexed .terms).replaceBlock hapart hdoc hindexed
    .xattrTerms).replaceBlock hapart hdoc hindexed .fileNameTerms)

/-- `replaceDocument` replaces the families among its operations. -/
theorem Holds.replaceDocument (h : Holds w A) {operations : DocumentOperations}
    (hapart : KeepsApart A doc operations.replaces) (hdoc : doc.WellFormed)
    (hid : w.dbis.docTermsDb.contains doc.id = true)
    (hne : operations.documentTerms = true → doc.terms.keys ≠ []) :
    Holds (w.replaceDocument doc operations) (A.replace doc operations.replaces) := by
  have hindexed : (A.replace doc operations.replaces doc.id .terms).keys ≠ [] := by
    by_cases hterms : operations.documentTerms = true
    · simpa [Index.replace, DocumentOperations.replaces, hterms, Document.family] using hne hterms
    · simpa [Index.replace, DocumentOperations.replaces, hterms] using (h.contains doc.id).mp hid
  have hterms : (if operations.documentTerms then w.replaceDocumentTerms doc else w) =
      if operations.replaces .terms then w.replaceFamily doc.id .terms doc.terms else w := by
    by_cases hterms : operations.documentTerms = true
    · simp [DocumentOperations.replaces, hterms, replaceDocumentTerms_eq w (hne hterms)]
    · simp [DocumentOperations.replaces, hterms]
  refine (h.replaceFamilies hapart hdoc hindexed).congr ?_ ?_ ?_ ?_
  all_goals
    simp only [WriteTransaction.replaceDocument, hterms, replaceXattrTerms_eq,
      replaceFileNameTerms_eq]
    rfl

/-- A document that is not in the document table has no families. -/
theorem Holds.fresh (h : Holds w A) {id : DocId} (hid : w.dbis.docTermsDb.contains id = false)
    (f : Family) : A id f = ∅ := by
  have hterms : (A id .terms).keys = [] := by
    by_contra hne
    rw [(h.contains id).mpr hne] at hid
    cases hid
  exact OrdMap.eq_empty (h.indexed id hterms f)

/-- A family that was not stored before is only added. -/
theorem replaceFamily_fresh {id : DocId} {f : Family} (hfresh : (w.dbis.termsDb f).get id = [])
    (terms : OrdMap Term TermData) :
    w.replaceFamily id f terms =
      { (w.addTerms id terms).1 with
        dbis := w.dbis.setTermsDb
          (if terms.keys ≠ [] then (w.dbis.termsDb f).put id terms.keys else w.dbis.termsDb f) f } := by
  rw [WriteTransaction.replaceFamily, hfresh]
  by_cases hne : terms.keys = []
  · rw [if_neg (not_not.mpr hne), if_neg (not_not.mpr hne)]
    rfl
  · rw [if_pos hne, if_pos hne, if_pos hne]
    rfl

/-- `addDocument` enters the document, unless its path cannot be entered. -/
theorem Holds.addDocument (h : Holds w A) (fs : FileSystem)
    (hapart : KeepsApart A doc fun _ => true) (hdoc : doc.WellFormed)
    (hid : w.dbis.docTermsDb.contains doc.id = false) (hne : doc.terms.keys ≠ []) :
    Holds (w.addDocument fs doc)
      (if (WriteTransaction.addUrl fs w.dbis.docUrlDb doc).2 then A.replace doc fun _ => true
      else A) := by
  by_cases hurl : (WriteTransaction.addUrl fs w.dbis.docUrlDb doc).2 = true
  · rw [if_pos hurl]
    have hfresh : ∀ f, (w.dbis.termsDb f).get doc.id = [] := fun f => by
      rw [h.get, h.fresh hid]
      rfl
    have hblocks := h.replaceFamilies hapart hdoc
      (by simpa [Index.replace, Document.family] using hne)
    simp only [if_true] at hblocks
    rw [replaceFamily_fresh (f := .fileNameTerms), replaceFamily_fresh (f := .xattrTerms),
      replaceFamily_fresh (hfresh .terms), if_pos hne] at hblocks
    · refine hblocks.congr ?_ ?_ ?_ ?_
      all_goals
        simp only [WriteTransaction.addDocument, hurl, if_true]
      · rfl
      · funext f
        cases f <;> rfl
      · rfl
      · rfl
    · exact hfresh .xattrTerms
    · exact hfresh .fileNameTerms
  · rw [if_neg hurl]
    refine h.congr ?_ ?_ ?_ ?_
    all_goals
      simp only [WriteTransaction.addDocument, hurl]
      rfl

/-- Queueing the removal of the three families empties the entries of the document. -/
theorem entry_removeDocument (id : DocId) (t : Term) (i : DocId) :
    (w.removeDocument id).entry t i =
      if i = id ∧ (t ∈ w.dbis.docTermsDb.get id ∨ t ∈ w.dbis.docFilenameTermsDb.get id ∨
        t ∈ w.dbis.docXattrTermsDb.get id) then { posted := false, positions := none }
      else w.entry t i := by
  have hqueue : (w.removeDocument id).entry t i =
      (((w.removeTerms id (w.dbis.docTermsDb.get id)).removeTerms id
        (w.dbis.docFilenameTermsDb.get id)).removeTerms id
          (w.dbis.docXattrTermsDb.get id)).entry t i := by
    rcases hget : OrdMap.get w.dbis.docXattrTermsDb id with _ | arr
    · -- no xattr terms are stored, and reading them anyway gives none
      have hnil : w.dbis.docXattrTermsDb.get id = [] := by simp [DocumentDB.get, hget]
      have hcontains : w.dbis.docXattrTermsDb.contains id = false := by
        simp [OrdMap.contains, hget]
      simp only [WriteTransaction.removeDocument, hcontains, hnil]
      rfl
    · have hcontains : w.dbis.docXattrTermsDb.contains id = true := by
        simp [OrdMap.contains, hget]
      simp only [WriteTransaction.removeDocument, hcontains, if_true]
      rfl
  rw [hqueue, WriteTransaction.entry_removeTerms, WriteTransaction.entry_removeTerms,
    WriteTransaction.entry_removeTerms]
  by_cases hi : i = id
  · by_cases h₁ : t ∈ w.dbis.docTermsDb.get id <;> by_cases h₂ : t ∈ w.dbis.docFilenameTermsDb.get id
      <;> simp [hi, h₁, h₂]
  · simp [hi]

/-- `removeDocument` forgets the document. -/
theorem Holds.removeDocument (h : Holds w A) (id : DocId) :
    Holds (w.removeDocument id) (A.forget id) := by
  refine ⟨fun f i => ?_, fun t i => ?_, fun i => ?_, fun i f t => ?_, fun i => ?_, ?_⟩
  · have hf := h.table f i
    by_cases hi : i = id
    · subst hi
      cases f <;> simp [WriteTransaction.removeDocument, Database.termsDb]
    · simp only [A.forget_of_ne hi]
      rw [← hf]
      cases f <;> simp [WriteTransaction.removeDocument, Database.termsDb, hi]
  · rw [entry_removeDocument, h.entry]
    by_cases hi : i = id
    · subst hi
      have hnone : lookup (fun _ => ∅) t = none := lookup_eq_none.mpr fun f => OrdMap.get_empty t
      rw [A.forget_self, hnone]
      split
      · rfl
      · next hnot =>
        have hgone : lookup (A i) t = none := lookup_eq_none.mpr fun f =>
          Option.eq_none_iff_forall_ne_some.mpr fun td htd => by
            have hmem := h.mem_get.mpr ⟨td, htd⟩
            cases f with
            | terms => exact hnot ⟨rfl, Or.inl hmem⟩
            | xattrTerms => exact hnot ⟨rfl, Or.inr (Or.inr hmem)⟩
            | fileNameTerms => exact hnot ⟨rfl, Or.inr (Or.inl hmem)⟩
        rw [hgone]
    · rw [A.forget_of_ne hi]
      simp [hi]
  · by_cases hi : i = id
    · subst hi
      rw [A.forget_self]
      intro t f g hf
      simp at hf
    · rw [A.forget_of_ne hi]
      exact h.apart i
  · by_cases hi : i = id
    · subst hi
      simp
    · rw [A.forget_of_ne hi]
      exact h.clean i f t
  · by_cases hi : i = id
    · subst hi
      simp
    · rw [A.forget_of_ne hi]
      exact h.indexed i
  · exact ⟨h.sorted.posting, h.sorted.position⟩

end Operations

end Baloo
