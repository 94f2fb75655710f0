import Baloo.IndexCleaner
import Baloo.SubtreeRemoval

/-!
# What a recursive removal removes

`removeRecursively` removes a subtree: on an index whose tables agree the call ends, and after the commit
the subtree is in no table while nothing has changed for any other document
(`removeRecursively_removes_subtree`). That needs `MTimeDB` to list no document under a time that is not the
one of its record; such a pair is not found, and stays (`stale_pair_stays`).

With a predicate the call removes a document if everything stored at and below it is to be deleted, and so is
everything between it and the directory where the call started. What is kept keeps its directories, so it
keeps its path (`removeRecursivelyIf_removes`).
-/

namespace Baloo

open Forest (Above)
open IndexCleaner (Stored Trims Reaches Clear)

/-- The tables have for a document what they had. -/
structure Untouched (db db' : Database) (i : DocId) : Prop where
  /-- its record -/
  record : db'.record i = db.record i
  /-- its place in the lists of `IdTreeDB` -/
  listed : ∀ p, i ∈ db'.docUrlDb.idTreeDb.get p ↔ i ∈ db.docUrlDb.idTreeDb.get p
  /-- its postings and positions -/
  entry : ∀ t, db'.entry t i = db.entry t i
  /-- its place in the lists of `MTimeDB` -/
  mtime : ∀ m, i ∈ OrdMap.values db'.mtimeDb m ↔ i ∈ OrdMap.values db.mtimeDb m

/-- And its path is what it was. -/
structure Keeps (db db' : Database) (i : DocId) : Prop extends Untouched db db' i where
  /-- its path -/
  url : db'.docUrlDb.get i = db.docUrlDb.get i

section Forgets

variable {S : Set DocId} {w w' : WriteTransaction} {id i : DocId}

theorem Forgets.trims (h : Forgets S w w') : Trims w.dbis.docUrlDb w'.dbis.docUrlDb := by
  intro i path hpath
  by_cases hi : i ∈ S
  · have hnone : w'.dbis.docUrlDb.idFilenameDb.get i = none := congrArg Record.place (h.gone i hi)
    rw [hnone] at hpath
    cases hpath
  · have hsame : w'.dbis.docUrlDb.idFilenameDb.get i = w.dbis.docUrlDb.idFilenameDb.get i :=
      congrArg Record.place (h.record i hi)
    rwa [← hsame]

theorem Forgets.stored_iff (h : Forgets S w w') : Stored w'.dbis.docUrlDb i ↔ i ∉ S ∧ Stored w.dbis.docUrlDb i := by
  by_cases hi : i ∈ S
  · simp [Stored, Database.parent_eq_place, h.gone i hi, hi]
  · simp [Stored, Database.parent_eq_place, h.record i hi, hi]

theorem get_of_not_stored {db : DocumentUrlDB} (h : ¬ Stored db i) : db.get i = [] := by
  rw [DocumentUrlDB.get]
  rcases hget : db.idFilenameDb.get i with _ | path
  · rw [ite_self]
  · exact absurd ⟨path.parentId, by rw [DocumentUrlDB.parent, hget, Option.map_some]⟩ h

/-- What is not forgotten keeps its path. -/
theorem Forgets.get_eq (h : Forgets S w w') (hw' : UrlForest w') (hi : i ∉ S) :
    w'.dbis.docUrlDb.get i = w.dbis.docUrlDb.get i := by
  by_cases hstored : Stored w'.dbis.docUrlDb i
  · exact h.trims.get hw' hstored
  · have hstored' : ¬ Stored w.dbis.docUrlDb i := fun h' => hstored (h.stored_iff.mpr ⟨hi, h'⟩)
    rw [get_of_not_stored hstored, get_of_not_stored hstored']

theorem Forgets.listed_iff (h : Forgets S w w') (hw : UrlForest w) (hw' : UrlForest w') (hi : i ∉ S) (p : DocId) :
    i ∈ w'.dbis.docUrlDb.idTreeDb.get p ↔ i ∈ w.dbis.docUrlDb.idTreeDb.get p := by
  rw [hw'.listed, hw.listed, Database.parent_eq_place, Database.parent_eq_place, h.record i hi]

theorem PairsRecorded.commit (h : PairsRecorded w) (order : List Term) : PairsRecorded { dbis := w.commit order } := by
  refine ⟨fun m i hi => ?_, ?_⟩
  · rw [mtimeDb_commit] at hi
    rw [docTimeDb_commit]
    exact h.pair m i hi
  · rw [mtimeDb_commit]
    exact h.sorted

/-- After the commit other documents have what they had. -/
theorem Forgets.keeps {db : Database} (h : Forgets S { dbis := db } w') (hdb : db.docUrlDb.IsForest)
    (hw' : UrlForest w') (hsorted : w'.dbis.ListsSorted) {db' : Database} (hdb' : w'.CommitsTo db')
    (hi : i ∉ S) : Keeps db db' i := by
  obtain ⟨order, horder, rfl⟩ := hdb'
  refine ⟨⟨?_, fun p => ?_, fun t => ?_, fun m => ?_⟩, ?_⟩
  · rw [record_commit, h.record i hi]
  · rw [docUrlDb_commit, h.listed_iff hdb hw' hi]
  · rw [WriteTransaction.entry_commit hsorted horder, h.entry i hi]
    rfl
  · rw [mtimeDb_commit, h.listed i hi]
  · rw [docUrlDb_commit, h.get_eq hw' hi]

end Forgets

/-! ## Without a predicate -/

/-- **`removeRecursively` removes one subtree.** The call ends, and after the commit the document and
everything below it are in no table, and nothing has changed for the others. -/
theorem removeRecursively_removes_subtree {db : Database} (hforest : db.docUrlDb.IsForest)
    (hterms : Agrees { dbis := db }) (htimes : PairsRecorded { dbis := db }) {id : DocId}
    (hid : db.docUrlDb.contains id = true) : ∃ n, ∀ fuel, n ≤ fuel →
      ∃ w' : WriteTransaction, WriteTransaction.removeRecursively fuel { dbis := db } id = some w' ∧
        ∀ db', w'.CommitsTo db' → (∀ i, Above db.docUrlDb.parent id i → Absent db' i) ∧
          ∀ i, ¬ Above db.docUrlDb.parent id i → Keeps db db' i := by
  rw [DocumentUrlDB.contains, Bool.and_eq_true, decide_eq_true_eq] at hid
  have hw : UrlForest { dbis := db } := hforest
  obtain ⟨n, hn⟩ := hw.exists_heightLE id
  refine ⟨n, fun fuel hfuel => ?_⟩
  obtain ⟨w', hr⟩ := removeRecursively_total hw (hn.mono (fun _ _ hc => hc) hfuel)
  have hforgets := hw.forgets hid.1 hr
  obtain ⟨hw', -, -⟩ := hw.removeRecursively hr
  have hterms' : Agrees w' := removeRecursively_preserves Agrees.removeDocument hterms hr
  have htimes' : PairsRecorded w' := removeRecursively_preserves PairsRecorded.removeDocument htimes hr
  refine ⟨w', hr, fun db' hdb' => ⟨fun i hi => ?_, fun i hi => ?_⟩⟩
  · obtain ⟨order, horder, rfl⟩ := hdb'
    have hi0 : i ≠ 0 := by
      rintro rfl
      rcases Relation.ReflTransGen.cases_head hi with h | ⟨q, hq, -⟩
      · exact hid.1 h.symm
      · rw [hforest.zero] at hq
        cases hq
    apply absent_of_record _ (hterms'.commit horder) (htimes'.commit order) hi0
    · rw [record_commit, hforgets.gone i hi]
    · rw [docUrlDb_commit]
      exact hw'
  · exact hforgets.keeps hforest hw' hterms'.sorted hdb' hi

/-- An index without terms. -/
theorem agrees_of_no_terms {db : Database} (hterms : ∀ f, db.termsDb f = ∅) (hposting : db.postingDb = ∅)
    (hposition : db.positionDb = ∅) : Agrees { dbis := db } := by
  have hentry : ∀ t i, WriteTransaction.entry { dbis := db } t i = { posted := false, positions := none } := by
    intro t i
    change db.entry t i = _
    simp [Database.entry, hposting, hposition, PostingDB.get, PositionDB.get, OrdMap.values, SortedSeq.find]
  refine ⟨fun t i => ?_, fun t i _ => by rw [hentry], ⟨fun t list h => ?_, fun t list h => ?_⟩⟩
  · simp [hentry, hterms, DocumentDB.get]
  · simp [hposting] at h
  · simp [hposition] at h

theorem removeRecursively_removes_subtree_indexB : Agrees { dbis := IndexCleaner.indexB } ∧
    ∃ n, ∀ fuel, n ≤ fuel → ∃ w' : WriteTransaction,
      WriteTransaction.removeRecursively fuel { dbis := IndexCleaner.indexB } 2 = some w' ∧
        ∀ db', w'.CommitsTo db' → (∀ i, Above IndexCleaner.indexB.docUrlDb.parent 2 i → Absent db' i) ∧
          ∀ i, ¬ Above IndexCleaner.indexB.docUrlDb.parent 2 i → Keeps IndexCleaner.indexB db' i := by
  have hagrees : Agrees { dbis := IndexCleaner.indexB } :=
    agrees_of_no_terms (fun f => by cases f <;> rfl) rfl rfl
  have hpairs : PairsRecorded { dbis := IndexCleaner.indexB } :=
    ⟨fun m i hi => absurd hi List.not_mem_nil, fun m => SortedSeq.ascending_nil⟩
  exact ⟨hagrees, removeRecursively_removes_subtree IndexCleaner.isForest_indexB hagrees hpairs (by decide)⟩

/-- The file `/b/x` is listed under a time, but has no record of its times. -/
def stalePair : Database := { IndexCleaner.indexB with mtimeDb := OrdMap.put ∅ 7 [3] }

/-- A document that is listed under a time other than that of its record stays there. -/
theorem stale_pair_stays : ¬ ∀ (db : Database) (id : DocId), db.docUrlDb.IsForest → Agrees { dbis := db } →
    db.docUrlDb.contains id = true → ∃ n, ∀ fuel, n ≤ fuel → ∃ w' : WriteTransaction,
      WriteTransaction.removeRecursively fuel { dbis := db } id = some w' ∧
        ∀ db', w'.CommitsTo db' → (∀ i, Above db.docUrlDb.parent id i → Absent db' i) ∧
          ∀ i, ¬ Above db.docUrlDb.parent id i → Keeps db db' i := by
  intro h
  have hagrees : Agrees { dbis := stalePair } := agrees_of_no_terms (fun f => by cases f <;> rfl) rfl rfl
  obtain ⟨n, hn⟩ := h stalePair 3 IndexCleaner.isForest_indexB hagrees (by decide)
  obtain ⟨w', hr, hcommit⟩ := hn (n + 1) (Nat.le_succ n)
  -- there is nothing below the file
  have hr' : WriteTransaction.removeRecursively (n + 1) { dbis := stalePair } 3 =
      some (WriteTransaction.removeDocument { dbis := stalePair } 3) := by
    have hleaf : stalePair.docUrlDb.getChildren 3 = [] := by decide
    rw [WriteTransaction.removeRecursively, hleaf]
    rfl
  obtain rfl := Option.some.inj (hr.symm.trans hr')
  have habsent := (hcommit _ ⟨_, .refl _, rfl⟩).1 3 .refl
  apply habsent.mtime 7
  rw [mtimeDb_commit]
  decide

/-! ## With a predicate -/

section Predicate

variable {sd : QByteArray → Bool} {w : WriteTransaction} {id i : DocId} {fuel : ℕ}
  {r : WriteTransaction × Bool}

theorem UrlForest.forgetsBelow_if (h : UrlForest w) (hid : id ≠ 0)
    (hr : w.removeRecursivelyIf sd fuel id = some r) : ForgetsBelow id w r.1 := by
  induction fuel generalizing w r id with
  | zero => cases hr
  | succ fuel ih =>
    rw [WriteTransaction.removeRecursivelyIf] at hr
    split at hr
    · exact Option.some.inj hr ▸ ForgetsBelow.refl id w
    · rw [Option.bind_eq_bind, Option.bind_eq_some_iff] at hr
      obtain ⟨⟨v, isEmpty⟩, hchildren, hr⟩ := hr
      obtain ⟨-, hv⟩ : UrlForest v ∧ ForgetsBelow id w v := Induction.foldlM_preserves
        (P := fun s : WriteTransaction × Bool => UrlForest s.1 ∧ ForgetsBelow id w s.1)
        (fun s c s' hc hs hstep => by
          have hparent := (h.listed c id).mp hc
          rw [if_pos (h.ne_zero hparent)] at hstep
          obtain ⟨r', hr', rfl⟩ := Option.map_eq_some_iff.mp hstep
          have hbelow := ih hs.1 (h.ne_zero hparent) hr'
          exact ⟨(hs.1.removeRecursivelyIf hr').1, hs.2.child hparent hbelow⟩)
        ⟨h, ForgetsBelow.refl id w⟩ hchildren
      simp only at hr
      split at hr
      · obtain rfl := Option.some.inj hr
        obtain ⟨S, -, hS⟩ := hv.self hid
        exact ⟨S, hS⟩
      · exact Option.some.inj hr ▸ hv

/-- The call says `true` only if the directory is gone. -/
theorem not_stored_of_flag (hid : id ≠ 0) (hr : w.removeRecursivelyIf sd fuel id = some r) (hflag : r.2 = true) :
    ¬ Stored r.1.dbis.docUrlDb id := by
  cases fuel with
  | zero => cases hr
  | succ fuel =>
    rw [WriteTransaction.removeRecursivelyIf] at hr
    split at hr
    · obtain rfl := Option.some.inj hr
      cases hflag
    · rw [Option.bind_eq_bind, Option.bind_eq_some_iff] at hr
      obtain ⟨⟨v, isEmpty⟩, -, hr⟩ := hr
      simp only at hr
      split at hr
      · obtain rfl := Option.some.inj hr
        exact IndexCleaner.stored_del hid
      · obtain rfl := Option.some.inj hr
        cases hflag

/-- **What the call forgets** is what its walk gets to and has nothing below it that is to be kept. -/
theorem UrlForest.forgets_if (h : UrlForest w) (hid : id ≠ 0) (hstored : Stored w.dbis.docUrlDb id)
    (hr : w.removeRecursivelyIf sd fuel id = some r) :
    Forgets {i | Reaches sd w.dbis.docUrlDb id i ∧ Clear sd w.dbis.docUrlDb i} w r.1 ∧
      (r.2 = true ↔ ¬ Stored r.1.dbis.docUrlDb id) := by
  obtain ⟨hw', htrims, hsound⟩ := IndexCleaner.removal_sound h hid hr
  obtain ⟨hcomplete, hflag⟩ := IndexCleaner.removal_complete h hid hr
  obtain ⟨S, hbelow, hS⟩ := h.forgetsBelow_if hid hr
  have hclear : ∀ i, Stored w.dbis.docUrlDb i → ¬ Stored r.1.dbis.docUrlDb i →
      Clear sd w.dbis.docUrlDb i := by
    intro i hi hgone x hx habove
    have hi0 : i ≠ 0 := by
      rintro rfl
      obtain ⟨p, hp⟩ := hi
      rw [h.zero] at hp
      cases hp
    -- what is below something that is gone is gone
    have hx' : ¬ Stored r.1.dbis.docUrlDb x := fun hx' =>
      hgone (IndexCleaner.stored_of_above htrims h hw' hx' habove hi0)
    exact (hsound x hx hx').deleted
  have hall : ∀ i ∈ S, Stored w.dbis.docUrlDb i := by
    intro i hi
    rcases Relation.ReflTransGen.cases_head (hbelow i hi) with rfl | ⟨p, hp, -⟩
    · exact hstored
    · exact ⟨p, hp⟩
  have heq : S = {i | Reaches sd w.dbis.docUrlDb id i ∧ Clear sd w.dbis.docUrlDb i} := by
    refine Set.ext fun i => ⟨fun hi => ?_, fun hi => ?_⟩
    · have hgone : ¬ Stored r.1.dbis.docUrlDb i := fun hi' => (hS.stored_iff.mp hi').1 hi
      exact ⟨hsound i (hall i hi) hgone, hclear i (hall i hi) hgone⟩
    · by_contra hnot
      exact hcomplete i hi.1 hi.2 (hS.stored_iff.mpr ⟨hnot, hi.1.stored⟩)
  refine ⟨heq ▸ hS, fun htrue => not_stored_of_flag hid hr htrue, fun hgone => ?_⟩
  exact hflag hstored (hclear id hstored hgone)

end Predicate

section Spec

variable (sd : QByteArray → Bool) (db : DocumentUrlDB)

/-- An entry and everything below it are to be deleted. -/
inductive Deletable : DocId → Prop
  /-- the entry, and each of its children -/
  | node {i : DocId} : sd (db.get i) = true → (∀ c, db.parent c = some i → Deletable c) → Deletable i

variable {sd db} {p i : DocId}

theorem Deletable.clear (h : Deletable sd db i) : Clear sd db i := by
  induction h with
  | @node i hsd _ ih =>
    intro x hx habove
    rcases Relation.ReflTransGen.cases_tail habove with rfl | ⟨c, hxc, hc⟩
    · exact hsd
    · exact ih c hc x hx hxc

theorem deletable_of_clear (hdb : db.IsForest) (hi : Stored db i) (h : Clear sd db i) : Deletable sd db i := by
  obtain ⟨n, hn⟩ : ∃ n, Forest.HeightLE db.getChildren n i :=
    UrlForest.exists_heightLE (w := { dbis := { docUrlDb := db } }) hdb i
  induction n generalizing i with
  | zero => exact hn.elim
  | succ n ih =>
    apply Deletable.node (h i hi .refl)
    intro c hc
    exact ih ⟨i, hc⟩ (h.child hc) (hn c ((hdb.listed c i).mpr hc))

/-- The walk gets to the entries below the directory with everything up to the directory to be deleted. -/
theorem reaches_iff (hdb : db.IsForest) (hp : Stored db p) : Reaches sd db p i ↔
    Above db.parent p i ∧ ∀ a, Above db.parent p a → Above db.parent a i → sd (db.get a) = true := by
  constructor
  · intro h
    induction h with
    | root _ hsd =>
      refine ⟨.refl, fun a hpa hap => ?_⟩
      rcases Relation.ReflTransGen.cases_head hpa with rfl | ⟨q, hq, hpq⟩
      · exact hsd
      · -- nothing is both above and below the directory
        exact absurd (Forest.Above.trans hap hpq) ((hdb.rooted a q hq).not_above hdb.zero hq)
    | @step q i hreaches hi hsd ih =>
      refine ⟨.head hi ih.1, fun a hpa hai => ?_⟩
      rcases Relation.ReflTransGen.cases_head hai with rfl | ⟨q', hq', haq⟩
      · exact hsd
      · obtain rfl : q = q' := Option.some.inj (hi.symm.trans hq')
        exact ih.2 a hpa haq
  · rintro ⟨habove, hall⟩
    induction habove using Relation.ReflTransGen.head_induction_on with
    | refl => exact .root hp (hall p .refl .refl)
    | @head i q hq habove ih =>
      apply (ih fun a ha haq => hall a ha (.head hq haq)).step hq
      exact hall i (.head hq habove) .refl

/-- What the call is to remove: what is to be deleted with everything below it, if everything above it, up to
the directory, is to be deleted too. -/
def removable (sd : QByteArray → Bool) (db : DocumentUrlDB) (p : DocId) : Set DocId :=
  {i | Above db.parent p i ∧ Deletable sd db i ∧
    ∀ a, Above db.parent p a → Above db.parent a i → sd (db.get a) = true}

theorem removable_eq (hdb : db.IsForest) (hp : Stored db p) :
    removable sd db p = {i | Reaches sd db p i ∧ Clear sd db i} := by
  refine Set.ext fun i => ⟨fun hi => ?_, fun hi => ?_⟩
  · exact ⟨(reaches_iff hdb hp).mpr ⟨hi.1, hi.2.2⟩, hi.2.1.clear⟩
  · obtain ⟨habove, hall⟩ := (reaches_iff hdb hp).mp hi.1
    exact ⟨habove, deletable_of_clear hdb hi.1.stored hi.2, hall⟩

end Spec

/-- **What a removal with a predicate removes.** The call ends. It forgets exactly the documents of the subtree
that are to be deleted with everything below them and everything above them up to the directory, it tells
whether the directory is among them, and every entry that is left has its path and the directories above it. -/
theorem removeRecursivelyIf_removes {w : WriteTransaction} (hforest : UrlForest w) (sd : QByteArray → Bool)
    {p : DocId} (hp : w.dbis.docUrlDb.contains p = true) : ∃ n, ∀ fuel, n ≤ fuel →
      ∃ (w' : WriteTransaction) (flag : Bool), w.removeRecursivelyIf sd fuel p = some (w', flag) ∧
        Forgets (removable sd w.dbis.docUrlDb p) w w' ∧
        (∀ i, Stored w'.dbis.docUrlDb i ↔ Stored w.dbis.docUrlDb i ∧ i ∉ removable sd w.dbis.docUrlDb p) ∧
        (flag = true ↔ p ∈ removable sd w.dbis.docUrlDb p) ∧
        ∀ i, Stored w'.dbis.docUrlDb i → w'.dbis.docUrlDb.get i = w.dbis.docUrlDb.get i ∧
          ∀ a, a ≠ 0 → Above w.dbis.docUrlDb.parent a i → Stored w'.dbis.docUrlDb a := by
  rw [DocumentUrlDB.contains, Bool.and_eq_true, decide_eq_true_eq] at hp
  have hstored : Stored w.dbis.docUrlDb p := DocumentUrlDB.exists_parent.mpr hp.2
  obtain ⟨n, hn⟩ := hforest.exists_heightLE p
  refine ⟨n, fun fuel hfuel => ?_⟩
  obtain ⟨⟨w', flag⟩, hr⟩ := @removeRecursivelyIf_total _ _ sd fuel hforest (hn.mono (fun _ _ hc => hc) hfuel)
  obtain ⟨hw', htrims, -⟩ := IndexCleaner.removal_sound hforest hp.1 hr
  obtain ⟨hforgets, hflag⟩ := hforest.forgets_if hp.1 hstored hr
  rw [← removable_eq hforest hstored] at hforgets
  refine ⟨w', flag, hr, hforgets, fun i => ?_, hflag.trans ?_, fun i hi => ⟨htrims.get hw' hi, fun a ha habove => ?_⟩⟩
  · rw [hforgets.stored_iff, and_comm]
  · rw [hforgets.stored_iff]
    exact ⟨fun h => by_contra fun hnot => h ⟨hnot, hstored⟩, fun h hgone => hgone.1 h⟩
  · exact IndexCleaner.stored_of_above htrims hforest hw' hi habove ha

theorem removeRecursivelyIf_removes_indexB : ∃ n, ∀ fuel, n ≤ fuel →
    ∃ (w' : WriteTransaction) (flag : Bool),
      WriteTransaction.removeRecursivelyIf (fun url => decide (url = [47, 98, 47, 120])) fuel
        { dbis := IndexCleaner.indexB } 3 = some (w', flag) ∧ flag = true := by
  have hp : IndexCleaner.indexB.docUrlDb.contains 3 = true := by decide
  have hforest : UrlForest { dbis := IndexCleaner.indexB } := IndexCleaner.isForest_indexB
  obtain ⟨n, hn⟩ := removeRecursivelyIf_removes hforest (fun url => decide (url = [47, 98, 47, 120])) hp
  refine ⟨n, fun fuel hfuel => ?_⟩
  obtain ⟨w', flag, hr, -, -, hflag, -⟩ := hn fuel hfuel
  have hurl : IndexCleaner.indexB.docUrlDb.get 3 = [47, 98, 47, 120] := by
    simp [IndexCleaner.indexB, DocumentUrlDB.get, DocumentUrlDB.getLoop, DocumentUrlDB.add]
  have hstored : Stored IndexCleaner.indexB.docUrlDb 3 := DocumentUrlDB.exists_parent.mpr (by decide)
  refine ⟨w', flag, hr, hflag.mpr ?_⟩
  rw [removable_eq IndexCleaner.isForest_indexB hstored]
  have hsd : decide (IndexCleaner.indexB.docUrlDb.get 3 = [47, 98, 47, 120]) = true := decide_eq_true hurl
  refine ⟨.root hstored hsd, fun x hx habove => ?_⟩
  rcases Relation.ReflTransGen.cases_tail habove with rfl | ⟨c, -, hc⟩
  · exact hsd
  · -- the file has no entries
    have hchild := (IndexCleaner.isForest_indexB.listed c 3).mpr hc
    have hleaf : IndexCleaner.indexB.docUrlDb.idTreeDb.get 3 = [] := by decide
    rw [hleaf] at hchild
    exact absurd hchild List.not_mem_nil

end Baloo
