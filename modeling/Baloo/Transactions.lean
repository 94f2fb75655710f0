import Baloo.Agreement
import Baloo.Lib.Induction

/-!
# Runs of transactions

A run starts with the empty database and commits transactions one after another, each of them any
number of operations. Along the run an index records what has been written. The tables hold this
index after every operation (`Holds.step`) and after every commit (`Committed.holds`), so the
postings and the positions of a committed database are those of its documents.

The steps are indexed by the condition `admits` under which families of a document may be written.
That its families stay apart is not enough: see `moved_term_lost`.
-/

namespace Baloo

/-! ## Removing whole directories -/

section Removal

variable {P : WriteTransaction → Prop}
  (hremove : ∀ w id, P w → P (w.removeDocument id))
include hremove

/-- What every removal of a document preserves, the removal of a directory preserves. -/
theorem removeRecursively_preserves {fuel : ℕ} {w w' : WriteTransaction} {id : DocId} (hw : P w)
    (h : w.removeRecursively fuel id = some w') : P w' := by
  induction fuel generalizing w w' id with
  | zero => cases h
  | succ fuel ih =>
    rw [WriteTransaction.removeRecursively, Option.bind_eq_bind, Option.bind_eq_some_iff] at h
    obtain ⟨w₁, hchildren, h⟩ := h
    obtain rfl := Option.some.inj h
    refine hremove w₁ id (Induction.foldlM_preserves (fun v c v' _ hv hstep => ?_) hw hchildren)
    split at hstep
    · exact ih hv hstep
    · exact Option.some.inj hstep ▸ hv

/-- The same for the removal with a predicate. -/
theorem removeRecursivelyIf_preserves {shouldDelete : QByteArray → Bool} {fuel : ℕ}
    {w : WriteTransaction} {r : WriteTransaction × Bool} {id : DocId} (hw : P w)
    (h : w.removeRecursivelyIf shouldDelete fuel id = some r) : P r.1 := by
  induction fuel generalizing w r id with
  | zero => cases h
  | succ fuel ih =>
    rw [WriteTransaction.removeRecursivelyIf] at h
    split at h
    · exact Option.some.inj h ▸ hw
    · rw [Option.bind_eq_bind, Option.bind_eq_some_iff] at h
      obtain ⟨⟨w₁, isEmpty⟩, hchildren, h⟩ := h
      have hw₁ : P w₁ := by
        refine Induction.foldlM_preserves (P := fun s : WriteTransaction × Bool => P s.1)
          (fun s c s' _ hs hstep => ?_) hw hchildren
        split at hstep
        · obtain ⟨r', hr', rfl⟩ := Option.map_eq_some_iff.mp hstep
          exact (ih hs hr' : P r'.1)
        · exact Option.some.inj hstep ▸ hs
      simp only at h
      split at h
      · exact Option.some.inj h ▸ hremove w₁ id hw₁
      · exact Option.some.inj h ▸ hw₁

end Removal

/-- Some documents of `A` are forgotten in `A'`. -/
def Index.Forgets (A A' : Index) : Prop := ∀ i, A' i = A i ∨ A' i = fun _ => ∅

/-- The tables hold what is left of `A`. -/
def HoldsRest (A : Index) (w : WriteTransaction) : Prop := ∃ A', Holds w A' ∧ A.Forgets A'

theorem HoldsRest.removeDocument {A : Index} (w : WriteTransaction) (id : DocId)
    (h : HoldsRest A w) : HoldsRest A (w.removeDocument id) := by
  obtain ⟨A', hA', hrest⟩ := h
  refine ⟨A'.forget id, hA'.removeDocument id, fun i => ?_⟩
  rcases eq_or_ne i id with rfl | hi
  · exact Or.inr (A'.forget_self i)
  · rw [A'.forget_of_ne hi]
    exact hrest i

/-- What is left is what the document table still has. -/
theorem HoldsRest.keep {A : Index} {w : WriteTransaction} (h : HoldsRest A w) :
    Holds w (A.keep w.dbis) := by
  obtain ⟨A', hA', hrest⟩ := h
  have heq : A.keep w.dbis = A' := by
    funext i f
    rw [Index.keep]
    split
    · next hi =>
      rcases hrest i with heq | heq
      · rw [heq]
      · exact absurd (heq ▸ OrdMap.keys_empty) ((hA'.contains i).mp hi)
    · next hi => exact (hA'.fresh (Bool.eq_false_iff.mpr hi) f).symm
  rw [heq]
  exact hA'

/-! ## Steps and runs -/

/-- One operation of a transaction, and what it writes. `admits A doc families` is the condition
under which these families of `doc` may be written. -/
inductive Step (admits : Index → Document → (Family → Bool) → Prop) :
    WriteTransaction × Index → WriteTransaction × Index → Prop
  /-- a document that is not indexed is added -/
  | addDocument {w : WriteTransaction} {A : Index} (fs : FileSystem) (doc : Document) :
    w.dbis.docTermsDb.contains doc.id = false → doc.WellFormed → doc.terms.keys ≠ [] →
    admits A doc (fun _ => true) →
    Step admits (w, A)
      (w.addDocument fs doc, (A.replace doc fun _ => true).keep (w.addDocument fs doc).dbis)
  /-- an indexed document is replaced -/
  | replaceDocument {w : WriteTransaction} {A : Index} (doc : Document)
    (operations : DocumentOperations) :
    w.dbis.docTermsDb.contains doc.id = true → doc.WellFormed →
    (operations.documentTerms = true → doc.terms.keys ≠ []) → admits A doc operations.replaces →
    Step admits (w, A) (w.replaceDocument doc operations, A.replace doc operations.replaces)
  /-- a document is removed -/
  | removeDocument {w : WriteTransaction} {A : Index} (id : DocId) :
    Step admits (w, A) (w.removeDocument id, A.forget id)
  /-- a directory is removed -/
  | removeRecursively {w w' : WriteTransaction} {A : Index} (fuel : ℕ) (id : DocId) :
    w.removeRecursively fuel id = some w' → Step admits (w, A) (w', A.keep w'.dbis)
  /-- a directory is removed as far as a predicate says -/
  | removeRecursivelyIf {w w' : WriteTransaction} {A : Index} (shouldDelete : QByteArray → Bool)
    (fuel : ℕ) (id : DocId) (gone : Bool) :
    w.removeRecursivelyIf shouldDelete fuel id = some (w', gone) →
    Step admits (w, A) (w', A.keep w'.dbis)

/-- Databases that some run of committed transactions produces, with what has been written. The
order in which a commit visits the terms is arbitrary. -/
inductive Committed (admits : Index → Document → (Family → Bool) → Prop) : Database → Index → Prop
  /-- the empty database -/
  | empty : Committed admits {} fun _ _ => ∅
  /-- one more transaction -/
  | transaction {db : Database} {A A' : Index} {w : WriteTransaction} {order : List Term} :
    Committed admits db A → Relation.ReflTransGen (Step admits) ({ dbis := db }, A) (w, A') →
    order.Perm w.pendingOperations.keys → Committed admits (w.commit order) A'

section Mono

variable {admits admits' : Index → Document → (Family → Bool) → Prop}
  (hadmits : ∀ A doc replaces, admits A doc replaces → admits' A doc replaces)
include hadmits

theorem Step.mono {s s' : WriteTransaction × Index} (h : Step admits s s') : Step admits' s s' := by
  cases h with
  | addDocument fs doc hid hdoc hne h => exact .addDocument fs doc hid hdoc hne (hadmits _ _ _ h)
  | replaceDocument doc operations hid hdoc hne h =>
    exact .replaceDocument doc operations hid hdoc hne (hadmits _ _ _ h)
  | removeDocument id => exact .removeDocument id
  | removeRecursively fuel id hw => exact .removeRecursively fuel id hw
  | removeRecursivelyIf shouldDelete fuel id gone hw => exact .removeRecursivelyIf shouldDelete fuel id gone hw

/-- What a run under a stronger condition commits. -/
theorem Committed.mono {db : Database} {A : Index} (h : Committed admits db A) : Committed admits' db A := by
  induction h with
  | empty => exact .empty
  | transaction _ hrun horder ih =>
    have hrun := Relation.ReflTransGen.mono (fun _ _ hstep => Step.mono hadmits hstep) _ _ hrun
    exact .transaction ih hrun horder

end Mono

/-- **Every operation keeps the tables and the queue in step with what has been written.** -/
theorem Holds.step {w w' : WriteTransaction} {A A' : Index} (h : Holds w A)
    (hstep : Step KeepsApart (w, A) (w', A')) : Holds w' A' := by
  cases hstep with
  | addDocument fs doc hid hdoc hne hapart =>
    refine HoldsRest.keep ⟨_, h.addDocument fs hapart hdoc hid hne, fun i => ?_⟩
    split
    · exact Or.inl rfl
    · rcases eq_or_ne i doc.id with rfl | hi
      · exact Or.inr (funext (h.fresh hid))
      · refine Or.inl (funext fun f => ?_)
        simp [Index.replace, hi]
  | replaceDocument doc operations hid hdoc hne hapart =>
    exact h.replaceDocument hapart hdoc hid hne
  | removeDocument id => exact h.removeDocument id
  | removeRecursively fuel id hw =>
    exact (removeRecursively_preserves (P := HoldsRest A) HoldsRest.removeDocument
      ⟨A, h, fun i => Or.inl rfl⟩ hw).keep
  | removeRecursivelyIf shouldDelete fuel id gone hw =>
    exact (removeRecursivelyIf_preserves (P := HoldsRest A) HoldsRest.removeDocument
      ⟨A, h, fun i => Or.inl rfl⟩ hw).keep

theorem Holds.run {s s' : WriteTransaction × Index} (h : Holds s.1 s.2)
    (hrun : Relation.ReflTransGen (Step KeepsApart) s s') : Holds s'.1 s'.2 := by
  induction hrun with
  | refl => exact h
  | tail _ hstep ih => exact ih.step hstep

theorem Holds.empty : Holds {} fun _ _ => ∅ := by
  have hnone : ∀ t, lookup (fun _ => ∅) t = none := fun t =>
    lookup_eq_none.mpr fun f => OrdMap.get_empty t
  refine ⟨fun f i => ?_, fun t i => ?_, fun i t f g hf => ?_, fun i f t hf => ?_, fun i _ f => rfl,
    Database.ListsSorted.empty⟩
  · cases f <;> rfl
  · rw [hnone]
    rfl
  · simp at hf
  · simp at hf

/-- A commit leaves the entries the index gives. -/
theorem Holds.commit {w : WriteTransaction} {A : Index} (h : Holds w A) {order : List Term}
    (horder : order.Perm w.pendingOperations.keys) : Holds { dbis := w.commit order } A := by
  refine ⟨fun f => ?_, fun t i => ?_, h.apart, h.clean, h.indexed,
    WriteTransaction.listsSorted_commit h.sorted horder⟩
  · rw [termsDb_commit]
    exact h.table f
  · rw [← h.entry]
    exact WriteTransaction.entry_commit h.sorted horder t i

theorem Committed.holds {db : Database} {A : Index} (h : Committed KeepsApart db A) :
    Holds { dbis := db } A := by
  induction h with
  | empty => exact Holds.empty
  | transaction _ hrun horder ih => exact (ih.run hrun).commit horder

/-! ## Terms with prefixes -/

/-- Every term has its family, as when the families use different prefixes. -/
def Classified (kind : Term → Family) (families : Family → OrdMap Term TermData) : Prop :=
  ∀ f t, (families f).contains t = true → kind t = f

section Classified

variable {kind : Term → Family} {A : Index} {doc : Document} {replaces : Family → Bool}

theorem Classified.replace (hA : ∀ i, Classified kind (A i)) (hdoc : Classified kind doc.family)
    (i : DocId) : Classified kind (A.replace doc replaces i) := by
  intro f t ht
  rw [Index.replace] at ht
  split at ht
  · exact hdoc f t ht
  · exact hA i f t ht

theorem Classified.keepsApart (hA : ∀ i, Classified kind (A i)) (hdoc : Classified kind doc.family) :
    KeepsApart A doc replaces := by
  refine ⟨fun t f g hf hg => ?_, fun t f g _ _ hlt hf => ?_⟩
  · have hA' : Classified kind (A.replace doc replaces doc.id) := Classified.replace hA hdoc doc.id
    exact (hA' f t hf).symm.trans (hA' g t hg)
  · by_contra hg
    rw [Bool.not_eq_false] at hg
    have heq : f = g := (hA doc.id f t hf).symm.trans (hdoc g t hg)
    exact absurd hlt (heq ▸ lt_irrefl _)

theorem Classified.step {w w' : WriteTransaction} {A' : Index} (hA : ∀ i, Classified kind (A i))
    (hstep : Step (fun _ doc _ => Classified kind doc.family) (w, A) (w', A')) :
    Step KeepsApart (w, A) (w', A') ∧ ∀ i, Classified kind (A' i) := by
  have hkeep : ∀ {B : Index} {db : Database}, (∀ i, Classified kind (B i)) →
      ∀ i, Classified kind (B.keep db i) := fun hB i f t ht => by
    rw [Index.keep] at ht
    split at ht
    · exact hB i f t ht
    · simp at ht
  cases hstep with
  | addDocument fs doc hid hdoc hne hclass =>
    exact ⟨.addDocument fs doc hid hdoc hne (Classified.keepsApart hA hclass),
      hkeep (Classified.replace hA hclass)⟩
  | replaceDocument doc operations hid hdoc hne hclass =>
    exact ⟨.replaceDocument doc operations hid hdoc hne (Classified.keepsApart hA hclass),
      Classified.replace hA hclass⟩
  | removeDocument id =>
    refine ⟨.removeDocument id, fun i f t ht => ?_⟩
    rw [Index.forget] at ht
    split at ht
    · simp at ht
    · exact hA i f t ht
  | removeRecursively fuel id hw => exact ⟨.removeRecursively fuel id hw, hkeep hA⟩
  | removeRecursivelyIf shouldDelete fuel id gone hw =>
    exact ⟨.removeRecursivelyIf shouldDelete fuel id gone hw, hkeep hA⟩

/-- Callers that keep the families apart by prefixes satisfy the condition `KeepsApart` in every
step, so the agreement theorems apply to all their runs. -/
theorem Committed.of_classified {db : Database}
    (h : Committed (fun _ doc _ => Classified kind doc.family) db A) :
    Committed KeepsApart db A ∧ ∀ i, Classified kind (A i) := by
  induction h with
  | empty => exact ⟨.empty, fun i f t ht => by simp at ht⟩
  | @transaction db A A' w order _ hrun horder ih =>
    obtain ⟨hdb, hA⟩ := ih
    have hsteps : ∀ s, Relation.ReflTransGen (Step fun _ doc _ => Classified kind doc.family)
        ({ dbis := db }, A) s →
        Relation.ReflTransGen (Step KeepsApart) ({ dbis := db }, A) s ∧
          ∀ i, Classified kind (s.2 i) := by
      intro s hs
      induction hs with
      | refl => exact ⟨.refl, hA⟩
      | tail _ hstep ih =>
        obtain ⟨hrun, hclass⟩ := ih
        obtain ⟨hstep, hclass⟩ := Classified.step hclass hstep
        exact ⟨hrun.tail hstep, hclass⟩
    obtain ⟨hrun, hclass⟩ := hsteps _ hrun
    exact ⟨.transaction hdb hrun horder, hclass⟩

end Classified

/-! ## A run, and a run in which a term moves between families -/

/-- The condition without regard to the order of the blocks: families stay apart. -/
def StaysApart (A : Index) (doc : Document) (replaces : Family → Bool) : Prop :=
  Apart doc.family ∧ Apart (A.replace doc replaces doc.id)

/-- A file system without files. -/
def noFiles : FileSystem where
  lstat _ := none
  isPath _ _ h := by cases h
  ne_zero _ h := by cases h
  injective _ _ _ h := by cases h

/-- What has been written when one document has been added. -/
def Index.only (doc : Document) : Index := fun i f => if i = doc.id then doc.family f else ∅

/-- One document is added and committed. -/
theorem exists_committed_only {doc : Document}
    (hurl : (WriteTransaction.addUrl noFiles ({} : WriteTransaction).dbis.docUrlDb doc).2 = true)
    (hdoc : doc.WellFormed) (hne : doc.terms.keys ≠ []) (hapart : Apart doc.family) :
    ∃ db, ∀ admits : Index → Document → (Family → Bool) → Prop, admits (fun _ _ => ∅) doc (fun _ => true) →
      Committed admits db (Index.only doc) := by
  have hfamily : Index.replace (fun _ _ => ∅) doc (fun _ => true) doc.id = doc.family := by
    funext f
    simp [Index.replace]
  have hkeeps : KeepsApart (fun _ _ => ∅) doc fun _ => true :=
    ⟨hfamily.symm ▸ hapart, fun t f g _ _ _ ht => by simp at ht⟩
  have hholds := Holds.empty.addDocument noFiles hkeeps hdoc rfl hne
  rw [if_pos hurl] at hholds
  have hstored : (({} : WriteTransaction).addDocument noFiles doc).dbis.docTermsDb.contains doc.id = true := by
    rw [hholds.contains, hfamily]
    exact hne
  have hindex : (Index.replace (fun _ _ => ∅) doc fun _ => true).keep
      (({} : WriteTransaction).addDocument noFiles doc).dbis = Index.only doc := by
    funext i f
    by_cases hi : i = doc.id
    · subst hi
      rw [Index.keep, if_pos hstored, hfamily, Index.only, if_pos rfl]
    · simp [Index.keep, Index.replace, Index.only, hi]
  refine ⟨(({} : WriteTransaction).addDocument noFiles doc).commit
    (({} : WriteTransaction).addDocument noFiles doc).pendingOperations.keys, fun admits hadmits => ?_⟩
  have hstep : Step admits ({}, fun _ _ => ∅) (({} : WriteTransaction).addDocument noFiles doc, Index.only doc) :=
    hindex ▸ .addDocument noFiles doc rfl hdoc hne hadmits
  exact .transaction .empty (.single hstep) (List.Perm.refl _)

/-- The file `/a` with the content term `b` and the xattr term `a`. -/
def tagged : Document where
  id := 2
  parentId := 1
  url := [47, 97]
  terms := (∅ : OrdMap Term TermData).put [98] {}
  xattrTerms := (∅ : OrdMap Term TermData).put [97] { positions := [1] }

/-- The same file with another content term. -/
def reworded : Document where
  id := 2
  parentId := 1
  url := [47, 97]
  terms := (∅ : OrdMap Term TermData).put [99] { positions := [3, 5] }

/-- The same file when `a` has become a content term and the attribute is gone. -/
def retagged : Document where
  id := 2
  parentId := 1
  url := [47, 97]
  terms := (∅ : OrdMap Term TermData).put [97] { positions := [1] }

/-- The transaction that adds `tagged` and replaces its content terms. -/
def rewording : WriteTransaction :=
  ((({} : WriteTransaction).addDocument noFiles tagged).replaceDocument reworded
    { documentTerms := true })

/-- The transaction that adds `tagged` and replaces it by `retagged`. -/
def retagging : WriteTransaction :=
  ((({} : WriteTransaction).addDocument noFiles tagged).replaceDocument retagged
    { documentTerms := true, xattrTerms := true })

/-- What has been written when `tagged` has been added. -/
def taggedIndex : Index :=
  Index.keep (Index.replace (fun _ _ => ∅) tagged fun _ => true)
    (({} : WriteTransaction).addDocument noFiles tagged).dbis

theorem rewording_committed :
    Committed KeepsApart (rewording.commit rewording.pendingOperations.keys)
      (taggedIndex.replace reworded (DocumentOperations.replaces { documentTerms := true })) := by
  have hadd : Step KeepsApart ({}, fun _ _ => ∅) (_, taggedIndex) :=
    .addDocument noFiles tagged (by decide) (by decide) (by decide)
      ⟨by decide, fun t f g _ _ _ ht => by simp at ht⟩
  have hmoves : ∀ t f g, DocumentOperations.replaces { documentTerms := true } f = true →
      DocumentOperations.replaces { documentTerms := true } g = true → g.rank < f.rank →
      (taggedIndex reworded.id f).contains t = true → (reworded.family g).contains t = false :=
    fun t f g hf _ hlt _ => by
      cases f
      · exact absurd hlt (Nat.not_lt_zero _)
      · cases hf
      · cases hf
  have hreplace : Step KeepsApart (_, taggedIndex) (rewording, _) :=
    .replaceDocument reworded { documentTerms := true } (by decide) (by decide) (by decide)
      ⟨by decide, hmoves⟩
  exact .transaction .empty (.tail (.single hadd) hreplace) (List.Perm.refl _)

theorem retagging_committed :
    Committed StaysApart (retagging.commit retagging.pendingOperations.keys)
      (taggedIndex.replace retagged
        (DocumentOperations.replaces { documentTerms := true, xattrTerms := true })) := by
  have hadd : Step StaysApart ({}, fun _ _ => ∅) (_, taggedIndex) :=
    .addDocument noFiles tagged (by decide) (by decide) (by decide) ⟨by decide, by decide⟩
  have hreplace : Step StaysApart (_, taggedIndex) (retagging, _) :=
    .replaceDocument retagged { documentTerms := true, xattrTerms := true } (by decide) (by decide)
      (by decide) ⟨by decide, by decide⟩
  exact .transaction .empty (.tail (.single hadd) hreplace) (List.Perm.refl _)

/-! ## Agreement -/

/-- The terms of a document, by the document tables. -/
theorem Holds.mem_terms {db : Database} {A : Index} (h : Holds { dbis := db } A) (t : Term)
    (id : DocId) : (t ∈ db.docTermsDb.get id ∨ t ∈ db.docXattrTermsDb.get id ∨
      t ∈ db.docFilenameTermsDb.get id) ↔ ∃ td, lookup (A id) t = some td := by
  constructor
  · rintro (ht | ht | ht)
    · obtain ⟨td, htd⟩ := (h.mem_get (f := .terms)).mp ht
      exact ⟨td, (lookup_eq_some (h.apart id)).mpr ⟨_, htd⟩⟩
    · obtain ⟨td, htd⟩ := (h.mem_get (f := .xattrTerms)).mp ht
      exact ⟨td, (lookup_eq_some (h.apart id)).mpr ⟨_, htd⟩⟩
    · obtain ⟨td, htd⟩ := (h.mem_get (f := .fileNameTerms)).mp ht
      exact ⟨td, (lookup_eq_some (h.apart id)).mpr ⟨_, htd⟩⟩
  · rintro ⟨td, htd⟩
    obtain ⟨f, hf⟩ := (lookup_eq_some (h.apart id)).mp htd
    have hmem := h.mem_get.mpr ⟨td, hf⟩
    cases f with
    | terms => exact Or.inl hmem
    | xattrTerms => exact Or.inr (Or.inl hmem)
    | fileNameTerms => exact Or.inr (Or.inr hmem)

/-- The entries of a database without a queue are what the index gives. -/
theorem Holds.entry_eq {db : Database} {A : Index} (h : Holds { dbis := db } A) (t : Term)
    (id : DocId) : db.entry t id = Entry.ofTermData (lookup (A id) t) :=
  h.entry t id

/-- **The postings agree with the documents.** After every commit a document is posted under exactly
its terms, and every posting list is strictly ascending and not empty. -/
theorem postings_agree {db : Database} {A : Index} (h : Committed KeepsApart db A) (t : Term) :
    (∀ id, id ∈ db.postingDb.get t ↔ t ∈ db.docTermsDb.get id ∨ t ∈ db.docXattrTermsDb.get id ∨
      t ∈ db.docFilenameTermsDb.get id) ∧
    ∀ list, OrdMap.get db.postingDb t = some list → list.Pairwise (· < ·) ∧ list ≠ [] := by
  have hholds := h.holds
  refine ⟨fun id => ?_, hholds.sorted.posting t⟩
  have hentry := congrArg Entry.posted (hholds.entry_eq t id)
  rw [hholds.mem_terms]
  simp only [Database.entry] at hentry
  rcases hl : lookup (A id) t with _ | td
  · simpa [hl, Entry.ofTermData] using hentry
  · simpa [hl, Entry.ofTermData] using hentry

theorem postings_agree_rewording :
    2 ∈ (rewording.commit rewording.pendingOperations.keys).postingDb.get [99] ∧
      2 ∉ (rewording.commit rewording.pendingOperations.keys).postingDb.get [98] :=
  ⟨((postings_agree rewording_committed [99]).1 2).mpr (Or.inl (by decide)),
    fun h => absurd (((postings_agree rewording_committed [98]).1 2).mp h) (by decide)⟩

/-- Families that stay apart are not enough: the document has the term `a`, but is not posted under
it, because its removal from the xattr terms is queued behind its addition to the content terms. -/
theorem moved_term_lost : ¬ ∀ db A, Committed StaysApart db A → ∀ t id,
    id ∈ db.postingDb.get t ↔ t ∈ db.docTermsDb.get id ∨ t ∈ db.docXattrTermsDb.get id ∨
      t ∈ db.docFilenameTermsDb.get id := by
  intro h
  have hiff := h _ _ retagging_committed [97] 2
  exact absurd (hiff.mpr (Or.inl (by decide))) (by decide)

/-- **The positions agree with the documents.** After every commit the position list of a term has
an entry for a document exactly if the term data last written for the document have positions, and
these are the positions stored. -/
theorem positions_agree {db : Database} {A : Index} (h : Committed KeepsApart db A) :
    (∀ f id, (db.termsDb f).get id = (A id f).keys) ∧
    (∀ t id positions, { docId := id, positions := positions } ∈ db.positionDb.get t ↔
      positions ≠ [] ∧ ∃ f, (A id f).get t = some { positions := positions }) ∧
    ∀ t list, OrdMap.get db.positionDb t = some list →
      list.Pairwise (fun a b => a.docId < b.docId) ∧ list ≠ [] := by
  have hholds := h.holds
  refine ⟨fun f id => hholds.get f id, fun t id positions => ?_, fun t list hlist => ?_⟩
  · have hentry := congrArg Entry.positions (hholds.entry_eq t id)
    simp only [Database.entry] at hentry
    have hmem : { docId := id, positions := positions } ∈ db.positionDb.get t ↔
        (SortedSeq.find PositionInfo.docId id (db.positionDb.get t)).map PositionInfo.positions =
          some positions := by
      refine ⟨fun hmem => ?_, fun hmap => ?_⟩
      · have hfind := SortedSeq.find_of_mem (hholds.sorted.position_get t).1 hmem
        exact congrArg (Option.map PositionInfo.positions) hfind
      · obtain ⟨⟨docId, positions'⟩, hfind, hpositions⟩ := Option.map_eq_some_iff.mp hmap
        obtain rfl : positions' = positions := hpositions
        obtain rfl : docId = id := SortedSeq.find_key hfind
        exact SortedSeq.mem_of_find hfind
    rw [hmem, hentry]
    constructor
    · intro hpositions
      rcases hl : lookup (A id) t with _ | td
      · simp [hl, Entry.ofTermData] at hpositions
      · simp only [hl, Entry.ofTermData, Option.ite_none_right_eq_some, Option.some.injEq]
          at hpositions
        obtain ⟨hne, rfl⟩ := hpositions
        exact ⟨hne, (lookup_eq_some (hholds.apart id)).mp hl⟩
    · rintro ⟨hne, hf⟩
      rw [(lookup_eq_some (hholds.apart id)).mpr hf, Entry.ofTermData]
      exact if_pos hne
  · obtain ⟨hascending, hne, -⟩ := hholds.sorted.position t list hlist
    exact ⟨hascending, hne⟩

theorem positions_agree_rewording :
    { docId := 2, positions := [3, 5] } ∈
      (rewording.commit rewording.pendingOperations.keys).positionDb.get [99] :=
  ((positions_agree rewording_committed).2.1 [99] 2 [3, 5]).mpr ⟨by decide, .terms, by decide⟩

/-- The positions of that term are lost as well. -/
theorem moved_positions_lost : ¬ ∀ db A, Committed StaysApart db A → ∀ t id positions,
    { docId := id, positions := positions } ∈ db.positionDb.get t ↔
      positions ≠ [] ∧ ∃ f, (A id f).get t = some { positions := positions } := by
  intro h
  have hiff := h _ _ retagging_committed [97] 2 [1]
  exact absurd (hiff.mpr ⟨by decide, .terms, by decide⟩) (by decide)

end Baloo
