import Baloo.FileIndexerConfig
import Baloo.UrlForest

/-!
# The index cleaner

After a change of the configuration the cleaner walks down from the excluded folders and removes what
no longer exists or should not be indexed. It finds the folders by their id on disk, and it does not
look below a document that is to be kept.

So it leaves nothing behind exactly if every document that is to go can be reached that way
(`index_cleaner_complete_iff`): documents below a folder that is merely no longer included, and files
that match a new filter, are not reached and stay.
-/

namespace Baloo

open Forest (Depth Rooted Above)

/-- What the cleaner asks of the file system. -/
structure Disk where
  /-- `QFile::exists` -/
  fileExists : List QChar → Bool
  /-- `QFileInfo::isDir` -/
  isDir : List QChar → Bool
  /-- `filePathToId`, `0` for a path that does not exist -/
  filePathToId : QByteArray → DocId
  /-- `QFile::encodeName` -/
  encodeName : List QChar → QByteArray
  /-- `QFile::decodeName` -/
  decodeName : QByteArray → List QChar

namespace IndexCleaner

section

variable (config : FileIndexerConfig) (disk : Disk)

/-- `shouldDelete`. -/
def shouldDelete (baUrl : QByteArray) : Bool :=
  let url := disk.decodeName baUrl
  if !disk.fileExists url then true else !config.shouldBeIndexed disk.isDir url

/-- The body of the loop over the excluded folders, a transaction of its own. `order` is the order in
which the commit visits the terms. -/
def cleanFolder (order : WriteTransaction → List Term) (fuel : ℕ) (db : Database)
    (folder : List QChar) : Option Database :=
  let w : WriteTransaction := { dbis := db }
  let id := disk.filePathToId (disk.encodeName folder)
  (if 0 < id ∧ db.docUrlDb.contains id then
    (w.removeRecursivelyIf (shouldDelete config disk) fuel id).map Prod.fst
  else some w).map fun w => w.commit (order w)

/-- `IndexCleaner::run`. -/
def run (order : WriteTransaction → List Term) (fuel : ℕ) (db : Database) : Option Database :=
  config.excludeFolders.foldlM (cleanFolder config disk order fuel) db

end

/-! ## What a removal removes -/

/-- The document is stored. -/
def Stored (db : DocumentUrlDB) (i : DocId) : Prop := ∃ p, db.parent i = some p

/-- Every entry of `db'` is an entry of `db`, with the same directory and name. -/
def Trims (db db' : DocumentUrlDB) : Prop :=
  ∀ i path, db'.idFilenameDb.get i = some path → db.idFilenameDb.get i = some path

section

variable {db db' db'' : DocumentUrlDB} {i c p r : DocId}

theorem Trims.refl (db : DocumentUrlDB) : Trims db db := fun _ _ h => h

theorem Trims.trans (h : Trims db db') (h' : Trims db' db'') : Trims db db'' :=
  fun i path hi => h i path (h' i path hi)

theorem Trims.parent (h : Trims db db') (hi : db'.parent i = some p) : db.parent i = some p := by
  rw [DocumentUrlDB.parent, Option.map_eq_some_iff] at hi ⊢
  obtain ⟨path, hpath, rfl⟩ := hi
  exact ⟨path, h i path hpath, rfl⟩

theorem Trims.stored (h : Trims db db') (hi : Stored db' i) : Stored db i := by
  obtain ⟨p, hp⟩ := hi
  exact ⟨p, h.parent hp⟩

/-- The directory of what is left has not changed. -/
theorem Trims.parent_eq (h : Trims db db') (hi : Stored db' i) : db'.parent i = db.parent i := by
  obtain ⟨p, hp⟩ := hi
  rw [hp, h.parent hp]

theorem trims_del (db : DocumentUrlDB) (i : DocId) : Trims db (db.del i) := by
  intro j path hj
  rw [DocumentUrlDB.del] at hj
  split at hj
  · exact hj
  · change (db.idFilenameDb.del i).get j = some path at hj
    rw [OrdMap.get_del] at hj
    split at hj
    · cases hj
    · exact hj

theorem stored_del (hi : i ≠ 0) : ¬ Stored (db.del i) i := by
  rintro ⟨p, hp⟩
  rw [DocumentUrlDB.parent_del hi, Function.update_self] at hp
  cases hp

/-- In a forest the directory of an entry is stored, unless it is the root. -/
theorem stored_parent (h : db.IsForest) (hi : db.parent i = some p) : p = 0 ∨ Stored db p := by
  obtain ⟨n, hn⟩ := h.rooted i p hi
  cases hn with
  | root => exact Or.inl (absurd h.zero (by rw [hi]; simp))
  | step hq hd =>
    obtain rfl := Option.some.inj (hi.symm.trans hq)
    cases hd with
    | root => exact Or.inl rfl
    | step hq' _ => exact Or.inr ⟨_, hq'⟩

/-- The climb of `DocumentUrlDB::get` from a directory of what is left. -/
theorem Trims.getLoop (h : Trims db db') (hdb' : db'.IsForest) (depth_limit : ℕ) (ret : QByteArray)
    (hi : i = 0 ∨ Stored db' i) :
    DocumentUrlDB.getLoop db' depth_limit ret i = DocumentUrlDB.getLoop db depth_limit ret i := by
  induction depth_limit generalizing ret i with
  | zero =>
    rw [DocumentUrlDB.getLoop.eq_def db', DocumentUrlDB.getLoop.eq_def db]
    rcases hi with rfl | ⟨p, hp⟩
    · rfl
    · obtain ⟨path, hpath, -⟩ := Option.map_eq_some_iff.mp hp
      dsimp only
      rw [hpath, h i path hpath]
  | succ depth_limit ih =>
    rw [DocumentUrlDB.getLoop.eq_def db', DocumentUrlDB.getLoop.eq_def db]
    rcases hi with rfl | ⟨p, hp⟩
    · rfl
    · have hparent := stored_parent hdb' hp
      obtain ⟨path, hpath, rfl⟩ := Option.map_eq_some_iff.mp hp
      dsimp only
      rw [hpath, h i path hpath]
      exact congrArg (ite _ _) (ih _ hparent)

/-- The path of what is left has not changed. -/
theorem Trims.get (h : Trims db db') (hdb' : db'.IsForest) (hi : Stored db' i) :
    db'.get i = db.get i := by
  obtain ⟨p, hp⟩ := hi
  have hparent := stored_parent hdb' hp
  obtain ⟨path, hpath, rfl⟩ := Option.map_eq_some_iff.mp hp
  rw [DocumentUrlDB.get, DocumentUrlDB.get, hpath, h i path hpath]
  exact congrArg (ite _ _) (h.getLoop hdb' 512 _ hparent)

end

/-! ## What a removal removes -/

section

variable (sd : QByteArray → Bool) (db : DocumentUrlDB)

/-- The walk down from `r` gets to `i`: everything on the way, both ends included, is to be
deleted. -/
inductive Reaches (r : DocId) : DocId → Prop
  /-- where it starts -/
  | root : Stored db r → sd (db.get r) = true → Reaches r r
  /-- an entry of a directory it has got to -/
  | step {p i : DocId} : Reaches r p → db.parent i = some p → sd (db.get i) = true → Reaches r i

/-- Everything stored at or below `i` is to be deleted. -/
def Clear (i : DocId) : Prop :=
  ∀ x, Stored db x → Above db.parent i x → sd (db.get x) = true

variable {sd db} {db' : DocumentUrlDB} {i c p r : DocId}

theorem Reaches.stored (h : Reaches sd db r i) : Stored db i := by
  cases h with
  | root hr _ => exact hr
  | step _ hi _ => exact ⟨_, hi⟩

theorem Reaches.stored_root (h : Reaches sd db r i) : Stored db r := by
  induction h with
  | root hr _ => exact hr
  | step _ _ _ ih => exact ih

theorem Reaches.root_deleted (h : Reaches sd db r i) : sd (db.get r) = true := by
  induction h with
  | root _ hr => exact hr
  | step _ _ _ ih => exact ih

theorem Reaches.deleted (h : Reaches sd db r i) : sd (db.get i) = true := by
  cases h with
  | root _ hr => exact hr
  | step _ _ hi => exact hi

/-- The walk from a directory goes through one of its entries. -/
theorem Reaches.head (h : Reaches sd db r i) :
    i = r ∨ ∃ c, db.parent c = some r ∧ Reaches sd db c i := by
  induction h with
  | root _ _ => exact Or.inl rfl
  | @step p i _ hi hsd ih =>
    refine Or.inr ?_
    rcases ih with rfl | ⟨c, hc, hreaches⟩
    · exact ⟨i, hi, .root ⟨_, hi⟩ hsd⟩
    · exact ⟨c, hc, hreaches.step hi hsd⟩

/-- A walk from an entry is a walk from its directory. -/
theorem Reaches.cons (h : Reaches sd db c i) (hc : db.parent c = some r) (hr : Reaches sd db r r) :
    Reaches sd db r i := by
  induction h with
  | root _ hsd => exact hr.step hc hsd
  | step _ hi hsd ih => exact ih.step hi hsd

/-- A walk goes down. -/
theorem Reaches.depth (h : Reaches sd db r i) {n : ℕ} (hr : Depth db.parent 0 n r) :
    ∃ m, n ≤ m ∧ Depth db.parent 0 m i := by
  induction h with
  | root _ _ => exact ⟨n, le_refl n, hr⟩
  | step _ hi _ ih =>
    obtain ⟨m, hnm, hm⟩ := ih
    exact ⟨m + 1, Nat.le_succ_of_le hnm, .step hi hm⟩

/-- A walk from an entry does not get to another entry of its directory. -/
theorem not_reaches_sibling (h : db.IsForest) (hc : db.parent c = some r) (hi : db.parent i = some r)
    (hne : i ≠ c) : ¬ Reaches sd db c i := by
  intro hreaches
  cases hreaches with
  | root _ _ => exact hne rfl
  | @step p _ hp hi' _ =>
    obtain rfl : r = p := Option.some.inj (hi.symm.trans hi')
    obtain ⟨n, hn⟩ := h.rooted_of (stored_parent h hc)
    obtain ⟨m, hnm, hm⟩ := hp.depth (.step hc hn)
    have := hm.unique h.zero hn
    omega

/-- A walk in what is left is a walk. -/
theorem Reaches.of_trims (h : Reaches sd db' r i) (htrims : Trims db db') (hdb' : db'.IsForest) :
    Reaches sd db r i := by
  induction h with
  | root hr hsd =>
    rw [htrims.get hdb' hr] at hsd
    exact .root (htrims.stored hr) hsd
  | step _ hi hsd ih =>
    rw [htrims.get hdb' ⟨_, hi⟩] at hsd
    exact ih.step (htrims.parent hi) hsd

/-- A walk whose end is left is a walk in what is left. -/
theorem Reaches.trims (h : Reaches sd db r i) (htrims : Trims db db') (hdb : db.IsForest)
    (hdb' : db'.IsForest) (hi : Stored db' i) : Reaches sd db' r i := by
  induction h with
  | root _ hsd =>
    rw [← htrims.get hdb' hi] at hsd
    exact .root hi hsd
  | @step p i hreaches hp hsd ih =>
    rw [← htrims.parent_eq hi] at hp
    rw [← htrims.get hdb' hi] at hsd
    refine (ih ?_).step hp hsd
    rcases stored_parent hdb' hp with rfl | hstored
    · obtain ⟨q, hq⟩ := hreaches.stored
      rw [hdb.zero] at hq
      cases hq
    · exact hstored

theorem Clear.trims (h : Clear sd db i) (htrims : Trims db db') (hdb' : db'.IsForest) :
    Clear sd db' i := by
  intro x hx habove
  rw [htrims.get hdb' hx]
  exact h x (htrims.stored hx) (Relation.ReflTransGen.mono (fun _ _ hp => htrims.parent hp) _ _ habove)

theorem Clear.child (h : Clear sd db r) (hc : db.parent c = some r) : Clear sd db c :=
  fun x hx habove => h x hx (habove.tail hc)

/-- What is above something that is left is left. -/
theorem stored_of_above (htrims : Trims db db') (hdb : db.IsForest) (hdb' : db'.IsForest) {x : DocId}
    (hx : Stored db' x)
    (habove : Above db.parent i x) (hi : i ≠ 0) : Stored db' i := by
  induction habove using Relation.ReflTransGen.head_induction_on with
  | refl => exact hx
  | @head x p hp habove ih =>
    rw [← htrims.parent_eq hx] at hp
    rcases stored_parent hdb' hp with rfl | hstored
    · rcases Relation.ReflTransGen.cases_head habove with rfl | ⟨q, hq, -⟩
      · exact absurd rfl hi
      · rw [hdb.zero] at hq
        cases hq
    · exact ih hstored

end

section

variable {sd : QByteArray → Bool} {w : WriteTransaction} {id : DocId} {fuel : ℕ}
  {r : WriteTransaction × Bool}

/-- Only what the walk gets to is removed. -/
theorem removal_sound (h : UrlForest w) (hid : id ≠ 0)
    (hr : w.removeRecursivelyIf sd fuel id = some r) :
    UrlForest r.1 ∧ Trims w.dbis.docUrlDb r.1.dbis.docUrlDb ∧
      ∀ i, Stored w.dbis.docUrlDb i → ¬ Stored r.1.dbis.docUrlDb i →
        Reaches sd w.dbis.docUrlDb id i := by
  induction fuel generalizing w r id with
  | zero => cases hr
  | succ fuel ih =>
    rw [WriteTransaction.removeRecursivelyIf] at hr
    split at hr
    · obtain rfl := Option.some.inj hr
      exact ⟨h, Trims.refl _, fun i hi hgone => absurd hi hgone⟩
    · next hsd =>
      have hsd : sd (w.dbis.docUrlDb.get id) = true := by
        rcases hsd' : sd (w.dbis.docUrlDb.get id) with _ | _
        · exact absurd ⟨hid, hsd'⟩ hsd
        · rfl
      rw [Option.bind_eq_bind, Option.bind_eq_some_iff] at hr
      obtain ⟨⟨v, isEmpty⟩, hchildren, hr⟩ := hr
      -- the walks from the children are walks from the directory
      obtain ⟨hv, htrims, hreaches⟩ : UrlForest v ∧ Trims w.dbis.docUrlDb v.dbis.docUrlDb ∧
          ∀ i, Stored w.dbis.docUrlDb i → ¬ Stored v.dbis.docUrlDb i →
            Reaches sd w.dbis.docUrlDb id i :=
        Induction.foldlM_preserves
          (P := fun s : WriteTransaction × Bool => UrlForest s.1 ∧
            Trims w.dbis.docUrlDb s.1.dbis.docUrlDb ∧ ∀ i, Stored w.dbis.docUrlDb i →
              ¬ Stored s.1.dbis.docUrlDb i → Reaches sd w.dbis.docUrlDb id i)
          (fun s c s' hc hs hstep => by
            obtain ⟨hforest, htrims, hreaches⟩ := hs
            split at hstep
            · next hc0 =>
              obtain ⟨r', hr', rfl⟩ := Option.map_eq_some_iff.mp hstep
              obtain ⟨hforest', htrims', hreaches'⟩ := ih hforest hc0 hr'
              refine ⟨hforest', htrims.trans htrims', fun i hi hgone => ?_⟩
              by_cases hi' : Stored s.1.dbis.docUrlDb i
              · have hparent := (h.listed c id).mp hc
                have hstored : Stored w.dbis.docUrlDb id :=
                  (stored_parent h hparent).resolve_left hid
                exact ((hreaches' i hi' hgone).of_trims htrims hforest).cons hparent (.root hstored hsd)
              · exact hreaches i hi hi'
            · exact Option.some.inj hstep ▸ ⟨hforest, htrims, hreaches⟩)
          ⟨h, Trims.refl _, fun i hi hgone => absurd hi hgone⟩ hchildren
      simp only at hr
      split at hr
      · next hempty =>
        obtain rfl := Option.some.inj hr
        refine ⟨hv.del hempty.2, htrims.trans (trims_del _ id), fun i hi hgone => ?_⟩
        by_cases hi' : Stored v.dbis.docUrlDb i
        · -- the directory itself
          rcases eq_or_ne i id with rfl | hne
          · exact .root hi hsd
          · obtain ⟨p, hp⟩ := hi'
            refine absurd ⟨p, ?_⟩ hgone
            change (v.dbis.docUrlDb.del id).parent i = some p
            rw [DocumentUrlDB.parent_del hid, Function.update_of_ne hne, hp]
        · exact hreaches i hi hi'
      · obtain rfl := Option.some.inj hr
        exact ⟨hv, htrims, hreaches⟩

/-- What the walk gets to is removed if nothing at or below it is to be kept. -/
theorem removal_complete (h : UrlForest w) (hid : id ≠ 0)
    (hr : w.removeRecursivelyIf sd fuel id = some r) :
    (∀ i, Reaches sd w.dbis.docUrlDb id i → Clear sd w.dbis.docUrlDb i →
      ¬ Stored r.1.dbis.docUrlDb i) ∧
      (Stored w.dbis.docUrlDb id → Clear sd w.dbis.docUrlDb id → r.2 = true) := by
  induction fuel generalizing w r id with
  | zero => cases hr
  | succ fuel ih =>
    rw [WriteTransaction.removeRecursivelyIf] at hr
    split at hr
    · next hkeep =>
      -- the directory is kept
      refine ⟨fun i hi => ?_, fun hstored hclear => ?_⟩
      · rw [hi.root_deleted] at hkeep
        cases hkeep.2
      · rw [hclear id hstored .refl] at hkeep
        cases hkeep.2
    rw [Option.bind_eq_bind, Option.bind_eq_some_iff] at hr
    obtain ⟨⟨v, isEmpty⟩, hchildren, hr⟩ := hr
    have hparent : ∀ c ∈ w.dbis.docUrlDb.getChildren id, w.dbis.docUrlDb.parent c = some id :=
      fun c hc => (h.listed c id).mp hc
    -- of the children that have been visited everything is gone that can go
    obtain ⟨hv, htrims, -, -, -, hgone, hflag⟩ := Induction.foldlM_rest
      (I := fun l (s : WriteTransaction × Bool) => UrlForest s.1 ∧
        Trims w.dbis.docUrlDb s.1.dbis.docUrlDb ∧ l ⊆ w.dbis.docUrlDb.getChildren id ∧ l.Nodup ∧
        (∀ c ∈ l, Stored s.1.dbis.docUrlDb c) ∧
        (∀ c, w.dbis.docUrlDb.parent c = some id → c ∉ l → ∀ i, Reaches sd w.dbis.docUrlDb c i →
          Clear sd w.dbis.docUrlDb i → ¬ Stored s.1.dbis.docUrlDb i) ∧
        (Clear sd w.dbis.docUrlDb id → s.2 = true))
      (fun c l s s' hI hstep => by
        obtain ⟨hforest, htrims, hsub, hnodup, hstored, hgone, hflag⟩ := hI
        obtain ⟨hc, hsub⟩ := List.cons_subset.mp hsub
        obtain ⟨hcl, hnodup⟩ := List.nodup_cons.mp hnodup
        rw [if_pos (h.ne_zero (hparent c hc))] at hstep
        obtain ⟨r', hr', rfl⟩ := Option.map_eq_some_iff.mp hstep
        obtain ⟨hforest', htrims', hreaches⟩ := removal_sound hforest (h.ne_zero (hparent c hc)) hr'
        obtain ⟨hall, hclear⟩ := ih hforest (h.ne_zero (hparent c hc)) hr'
        refine ⟨hforest', htrims.trans htrims', hsub, hnodup, fun d hd => ?_, fun d hd hdl i hi hci => ?_,
          fun hid' => ?_⟩
        · by_contra hgone'
          refine not_reaches_sibling h (hparent c hc) (hparent d (hsub hd)) ?_
            ((hreaches d (hstored d (List.mem_cons_of_mem _ hd)) hgone').of_trims htrims hforest)
          rintro rfl
          exact hcl hd
        · by_cases hi' : Stored s.1.dbis.docUrlDb i
          · rcases eq_or_ne d c with rfl | hdc
            · exact hall i (hi.trims htrims h hforest hi') (hci.trims htrims hforest)
            · refine absurd hi' (hgone d hd ?_ i hi hci)
              exact fun hmem => (List.mem_cons.mp hmem).elim hdc hdl
          · exact fun hi'' => hi' (htrims'.stored hi'')
        · rw [hflag hid', hclear (hstored c (List.mem_cons_self ..))
            ((hid'.child (hparent c hc)).trims htrims hforest)]
          rfl)
      ⟨h, Trims.refl _, List.Subset.refl _, (h.ascending id).imp (fun hlt => ne_of_lt hlt),
        fun c hc => ⟨id, hparent c hc⟩, fun c hc hnot => absurd ((h.listed c id).mpr hc) hnot,
        fun _ => rfl⟩ hchildren
    simp only at hr
    have hremoved : Stored w.dbis.docUrlDb id → Clear sd w.dbis.docUrlDb id →
        r = (v.removeDocument id, true) := by
      intro hstored hclear
      have hleaf : v.dbis.docUrlDb.getChildren id = [] := by
        refine List.eq_nil_iff_forall_not_mem.mpr fun c hc => ?_
        have hc' := (hv.listed c id).mp hc
        have hcw := htrims.parent hc'
        refine hgone c hcw List.not_mem_nil c (.root ⟨_, hcw⟩ ?_) (hclear.child hcw) ⟨_, hc'⟩
        exact hclear.child hcw c ⟨_, hcw⟩ .refl
      rw [if_pos ⟨hflag hclear, hleaf⟩] at hr
      exact (Option.some.inj hr).symm
    refine ⟨fun i hi hclear => ?_, fun hstored hclear => by rw [hremoved hstored hclear]⟩
    rcases hi.head with rfl | ⟨c, hc, hci⟩
    · rw [hremoved hi.stored_root hclear]
      exact stored_del hid
    · -- what was removed below a child is not stored afterwards
      have hgone' := hgone c hc List.not_mem_nil i hci hclear
      split at hr
      · obtain rfl := Option.some.inj hr
        exact fun hi' => hgone' ((trims_del _ id).stored hi')
      · obtain rfl := Option.some.inj hr
        exact hgone'

end

/-! ## Runs of the cleaner -/

section

variable (config : FileIndexerConfig) (disk : Disk)

/-- The path of a document. -/
def pathOf (db : Database) (i : DocId) : List QChar := disk.decodeName (db.docUrlDb.get i)

/-- The document is to be in the index. -/
def Wanted (db : Database) (i : DocId) : Prop :=
  config.shouldBeIndexed disk.isDir (pathOf disk db i) = true

/-- The path is the path of a folder above an included folder. -/
def AboveIncluded (path : List QChar) : Prop :=
  ∃ folder ∈ config.includeFolders,
    normalizeTrailingSlashes path <+: folder ∧ normalizeTrailingSlashes path ≠ folder

/-- What is stored and not to be in the index is a directory with something below it that is, or a
folder above an included folder. -/
def LeavesNothing (db : Database) : Prop :=
  ∀ i, Stored db.docUrlDb i → ¬ Wanted config disk db i →
    (∃ x, Stored db.docUrlDb x ∧ Above db.docUrlDb.parent i x ∧ x ≠ i ∧ Wanted config disk db x) ∨
      AboveIncluded config (pathOf disk db i)

/-- The walk from an excluded folder, found by its id on disk, gets to the document. -/
def Reached (db : Database) (i : DocId) : Prop :=
  ∃ folder ∈ config.excludeFolders, Reaches (shouldDelete config disk) db.docUrlDb
    (disk.filePathToId (disk.encodeName folder)) i

/-- The walks get to everything that is to go: to each document that should not be indexed, has
nothing at or below it that is to be kept and is not above an included folder; it does not matter for
a document that has below it something that should be indexed, no longer exists and is not reached
either. -/
def EverythingReached (db : Database) : Prop :=
  ∀ i, Stored db.docUrlDb i → ¬ Wanted config disk db i → ¬ AboveIncluded config (pathOf disk db i) →
    Clear (shouldDelete config disk) db.docUrlDb i →
      Reached config disk db i ∨ ∃ x, Stored db.docUrlDb x ∧ Above db.docUrlDb.parent i x ∧ x ≠ i ∧
        Wanted config disk db x ∧ ¬ Reached config disk db x

variable {config disk} {order : WriteTransaction → List Term} {fuel : ℕ} {db db' : Database}
  {i : DocId} {folder : List QChar}

/-- What exists and is wanted is not deleted. -/
theorem wanted_of_kept (h : shouldDelete config disk (db.docUrlDb.get i) = false) :
    Wanted config disk db i := by
  rw [shouldDelete] at h
  split at h
  · cases h
  · simpa [Wanted, pathOf] using h

/-- One excluded folder. -/
theorem cleanFolder_spec (h : db.docUrlDb.IsForest)
    (hrun : cleanFolder config disk order fuel db folder = some db') :
    db'.docUrlDb.IsForest ∧ Trims db.docUrlDb db'.docUrlDb ∧
      (∀ i, Stored db.docUrlDb i → ¬ Stored db'.docUrlDb i → Reaches (shouldDelete config disk)
        db.docUrlDb (disk.filePathToId (disk.encodeName folder)) i) ∧
      ∀ i, Reaches (shouldDelete config disk) db.docUrlDb
        (disk.filePathToId (disk.encodeName folder)) i →
          Clear (shouldDelete config disk) db.docUrlDb i → ¬ Stored db'.docUrlDb i := by
  obtain ⟨w, hw, rfl⟩ := Option.map_eq_some_iff.mp hrun
  rw [docUrlDb_commit]
  split at hw
  · next hstored =>
    obtain ⟨r, hr, rfl⟩ := Option.map_eq_some_iff.mp hw
    have hid := Nat.pos_iff_ne_zero.mp hstored.1
    have hforest : UrlForest { dbis := db } := h
    obtain ⟨hforest', htrims, hreaches⟩ := removal_sound hforest hid hr
    exact ⟨hforest', htrims, hreaches, (removal_complete hforest hid hr).1⟩
  · next hstored =>
    obtain rfl := Option.some.inj hw
    refine ⟨h, Trims.refl _, fun i hi hgone => absurd hi hgone, fun i hi => absurd ?_ hstored⟩
    obtain ⟨p, hp⟩ := hi.stored_root
    have hne := h.ne_zero hp
    refine ⟨Nat.pos_of_ne_zero hne, ?_⟩
    rw [DocumentUrlDB.contains, Bool.and_eq_true, decide_eq_true_eq]
    exact ⟨hne, DocumentUrlDB.exists_parent.mp ⟨p, hp⟩⟩

/-- All excluded folders. -/
theorem run_spec (h : db.docUrlDb.IsForest) (hrun : run config disk order fuel db = some db') :
    db'.docUrlDb.IsForest ∧ Trims db.docUrlDb db'.docUrlDb ∧
      (∀ i, Stored db.docUrlDb i → ¬ Stored db'.docUrlDb i → Reached config disk db i) ∧
      ∀ i, Reached config disk db i → Clear (shouldDelete config disk) db.docUrlDb i →
        ¬ Stored db'.docUrlDb i := by
  obtain ⟨hforest, htrims, hreached, hgone, -⟩ := Induction.foldlM_rest
    (I := fun l (db₁ : Database) => db₁.docUrlDb.IsForest ∧ Trims db.docUrlDb db₁.docUrlDb ∧
      (∀ i, Stored db.docUrlDb i → ¬ Stored db₁.docUrlDb i → Reached config disk db i) ∧
      (∀ i, ∀ folder ∈ config.excludeFolders, folder ∉ l →
        Reaches (shouldDelete config disk) db.docUrlDb
          (disk.filePathToId (disk.encodeName folder)) i →
          Clear (shouldDelete config disk) db.docUrlDb i → ¬ Stored db₁.docUrlDb i) ∧
      l ⊆ config.excludeFolders)
    (fun folder l db₁ db₂ hI hstep => by
      obtain ⟨hforest, htrims, hreached, hgone, hsub⟩ := hI
      obtain ⟨hfolder, hsub⟩ := List.cons_subset.mp hsub
      obtain ⟨hforest', htrims', hreaches, hall⟩ := cleanFolder_spec hforest hstep
      refine ⟨hforest', htrims.trans htrims', fun i hi hi'' => ?_, fun i folder' hmem hnot hi hclear => ?_,
        hsub⟩
      · by_cases hi' : Stored db₁.docUrlDb i
        · exact ⟨folder, hfolder, (hreaches i hi' hi'').of_trims htrims hforest⟩
        · exact hreached i hi hi'
      · by_cases hi' : Stored db₁.docUrlDb i
        · rcases eq_or_ne folder' folder with rfl | hne
          · exact hall i (hi.trims htrims h hforest hi') (hclear.trims htrims hforest)
          · refine absurd hi' (hgone i folder' hmem ?_ hi hclear)
            exact fun hmem' => (List.mem_cons.mp hmem').elim hne hnot
        · exact fun hi'' => hi' (htrims'.stored hi''))
    ⟨h, Trims.refl _, fun i hi hgone => absurd hi hgone, fun i folder hmem hnot => absurd hmem hnot,
      List.Subset.refl _⟩ hrun
  refine ⟨hforest, htrims, hreached, fun i hi hclear => ?_⟩
  obtain ⟨folder, hfolder, hi⟩ := hi
  exact hgone i folder hfolder List.not_mem_nil hi hclear

/-- With enough fuel every run of the cleaner ends. -/
theorem run_terminates (config : FileIndexerConfig) (disk : Disk)
    (order : WriteTransaction → List Term) (h : db.docUrlDb.IsForest) :
    ∃ n, ∀ fuel, n ≤ fuel → ∃ db', run config disk order fuel db = some db' := by
  have hforest : UrlForest { dbis := db } := h
  have hheight : ∀ folders : List (List QChar), ∃ n, ∀ folder ∈ folders, Forest.HeightLE
      db.docUrlDb.getChildren n (disk.filePathToId (disk.encodeName folder)) := by
    intro folders
    induction folders with
    | nil => exact ⟨0, fun folder hmem => absurd hmem List.not_mem_nil⟩
    | cons folder folders ih =>
      obtain ⟨n, hn⟩ := ih
      obtain ⟨m, hm⟩ := hforest.exists_heightLE (disk.filePathToId (disk.encodeName folder))
      refine ⟨max m n, fun folder' hmem => ?_⟩
      rcases List.mem_cons.mp hmem with rfl | hmem
      · exact hm.mono (fun _ _ hc => hc) (Nat.le_max_left ..)
      · exact (hn folder' hmem).mono (fun _ _ hc => hc) (Nat.le_max_right ..)
  obtain ⟨n, hn⟩ := hheight config.excludeFolders
  refine ⟨n, fun fuel hfuel => ?_⟩
  obtain ⟨db', hrun, -⟩ := Induction.foldlM_total
    (f := cleanFolder config disk order fuel)
    (I := fun l (db₁ : Database) => db₁.docUrlDb.IsForest ∧ Trims db.docUrlDb db₁.docUrlDb ∧
      l ⊆ config.excludeFolders)
    (fun folder l db₁ hI => by
      obtain ⟨hforest₁, htrims, hsub⟩ := hI
      obtain ⟨hfolder, hsub⟩ := List.cons_subset.mp hsub
      have hsome : ∃ db₂, cleanFolder config disk order fuel db₁ folder = some db₂ := by
        rw [cleanFolder]
        split
        · have hw : UrlForest { dbis := db₁ } := hforest₁
          have hchildren : ∀ x, ∀ c ∈ db₁.docUrlDb.getChildren x, c ∈ db.docUrlDb.getChildren x :=
            fun x c hc => (h.listed c x).mpr (htrims.parent ((hforest₁.listed c x).mp hc))
          obtain ⟨r, hr⟩ := @removeRecursivelyIf_total _ _ (shouldDelete config disk) fuel hw
            ((hn folder hfolder).mono hchildren hfuel)
          rw [hr]
          exact ⟨_, rfl⟩
        · exact ⟨_, rfl⟩
      obtain ⟨db₂, hdb₂⟩ := hsome
      obtain ⟨hforest₂, htrims₂, -, -⟩ := cleanFolder_spec hforest₁ hdb₂
      exact ⟨db₂, hdb₂, hforest₂, htrims.trans htrims₂, hsub⟩)
    ⟨h, Trims.refl _, List.Subset.refl _⟩
  exact ⟨db', hrun⟩

/-- **When the index cleaner leaves nothing behind.** With enough fuel the cleaner comes to an end, on
every index whose URL tree is a forest, every disk and every configuration; and it leaves nothing
behind if and only if its walks get to everything that is to go. -/
theorem index_cleaner_complete_iff (config : FileIndexerConfig) (disk : Disk)
    (order : WriteTransaction → List Term) (h : db.docUrlDb.IsForest) :
    ∃ n, ∀ fuel, n ≤ fuel → ∃ db', run config disk order fuel db = some db' ∧
      (LeavesNothing config disk db' ↔ EverythingReached config disk db) := by
  obtain ⟨n, hn⟩ := run_terminates config disk order h
  refine ⟨n, fun fuel hfuel => ?_⟩
  obtain ⟨db', hrun⟩ := hn fuel hfuel
  obtain ⟨hforest, htrims, hreached, hgone⟩ := run_spec h hrun
  have hpath : ∀ {i}, Stored db'.docUrlDb i → pathOf disk db' i = pathOf disk db i := by
    intro i hi
    rw [pathOf, pathOf, htrims.get hforest hi]
  have hwanted : ∀ {i}, Stored db'.docUrlDb i → (Wanted config disk db' i ↔ Wanted config disk db i) := by
    intro i hi
    rw [Wanted, Wanted, hpath hi]
  refine ⟨db', hrun, fun hleaves => ?_, fun heverything => ?_⟩
  · intro i hi hnot habove hclear
    by_cases hr : Reached config disk db i
    · exact Or.inl hr
    -- the document stays, so there is something below it that is wanted and stays
    have hi' : Stored db'.docUrlDb i := by
      by_contra hi'
      exact hr (hreached i hi hi')
    rcases hleaves i hi' (fun h => hnot ((hwanted hi').mp h)) with ⟨x, hx, hix, hne, hxw⟩ | hinc
    · have hix' : Above db.docUrlDb.parent i x :=
        Relation.ReflTransGen.mono (fun _ _ hp => htrims.parent hp) _ _ hix
      refine Or.inr ⟨x, htrims.stored hx, hix', hne, (hwanted hx).mp hxw, fun hxr => ?_⟩
      exact hgone x hxr (fun y hy hxy => hclear y hy (Forest.Above.trans hix' hxy)) hx
    · rw [hpath hi'] at hinc
      exact absurd hinc habove
  · intro i hi' hnot
    have hi := htrims.stored hi'
    rw [hwanted hi'] at hnot
    rw [hpath hi']
    by_cases habove : AboveIncluded config (pathOf disk db i)
    · exact Or.inr habove
    -- whatever is below and stays is below and stored afterwards
    have hbelow : ∀ x, Stored db'.docUrlDb x → Above db.docUrlDb.parent i x →
        Above db'.docUrlDb.parent i x := by
      intro x hx hix
      induction hix using Relation.ReflTransGen.head_induction_on with
      | refl => exact .refl
      | @head x p hp hpi ih =>
        rw [← htrims.parent_eq hx] at hp
        refine Relation.ReflTransGen.head hp (ih ?_)
        rcases stored_parent hforest hp with rfl | hstored
        · -- nothing is above the root
          rcases Relation.ReflTransGen.cases_head hpi with rfl | ⟨q, hq, -⟩
          · exact hi'
          · rw [h.zero] at hq
            cases hq
        · exact hstored
    by_cases hclear : Clear (shouldDelete config disk) db.docUrlDb i
    · rcases heverything i hi hnot habove hclear with hr | ⟨x, hx, hix, hne, hxw, hxr⟩
      · exact absurd hi' (hgone i hr hclear)
      · have hx' : Stored db'.docUrlDb x := by
          by_contra hx'
          exact hxr (hreached x hx hx')
        exact Or.inl ⟨x, hx', hbelow x hx' hix, hne, (hwanted hx').mpr hxw⟩
    · -- something that is kept is below
      have hkept : ∃ x, Stored db.docUrlDb x ∧ Above db.docUrlDb.parent i x ∧
          shouldDelete config disk (db.docUrlDb.get x) = false := by
        simpa [Clear] using hclear
      obtain ⟨x, hx, hix, hkept⟩ := hkept
      have hx' : Stored db'.docUrlDb x := by
        by_contra hx'
        obtain ⟨folder, -, hreaches⟩ := hreached x hx hx'
        rw [hreaches.deleted] at hkept
        cases hkept
      have hxw : Wanted config disk db x := wanted_of_kept hkept
      refine Or.inl ⟨x, hx', hbelow x hx' hix, ?_, (hwanted hx').mpr hxw⟩
      rintro rfl
      exact hnot hxw

end

/-! ## A folder that is no longer included -/

/-- The bytes of a path as characters. -/
def decodeBytes (path : QByteArray) : List QChar := path.map fun b => UInt16.ofNat b.toNat

/-- A disk with the directory `/b` and the file `/b/x`. -/
def diskB : Disk where
  fileExists path := path = decodeBytes [47, 98] ∨ path = decodeBytes [47, 98, 47, 120]
  isDir path := path = decodeBytes [47, 98]
  filePathToId path := if path = [47, 98] then 2 else if path = [47, 98, 47, 120] then 3 else 0
  encodeName path := path.map fun c => UInt8.ofNat c.toNat
  decodeName := decodeBytes

/-- An index of `/b` and `/b/x`. -/
def indexB : Database := { docUrlDb := (DocumentUrlDB.add {} 2 0 [98]).add 3 2 [120] }

/-- Only `/a` is included. -/
def onlyA : FileIndexerConfig :=
  .load id { folders := [decodeBytes [47, 97]], excludedFolders := [], indexHiddenFolders := false } []
    fun _ => false

theorem parent_emptyDb : DocumentUrlDB.parent {} = fun _ => none := by
  funext i
  simp [DocumentUrlDB.parent]

theorem parent_indexB : indexB.docUrlDb.parent =
    Function.update (Function.update (fun _ => none) 2 (some 0)) 3 (some 2) := by
  rw [indexB, DocumentUrlDB.parent_add (by decide) (by simp), DocumentUrlDB.parent_add (by decide) (by simp),
    parent_emptyDb]

theorem isForest_indexB : indexB.docUrlDb.IsForest := by
  have hb : (DocumentUrlDB.add {} 2 0 [98]).IsForest :=
    UrlForest.empty.add (by decide) (by simp) (by rw [parent_emptyDb]) (Or.inl rfl)
  have hparent : (DocumentUrlDB.add {} 2 0 [98]).parent = Function.update (fun _ => none) 2 (some 0) := by
    rw [DocumentUrlDB.parent_add (by decide) (by simp), parent_emptyDb]
  show (DocumentUrlDB.add (DocumentUrlDB.add {} 2 0 [98]) 3 2 [120]).IsForest
  refine hb.add (by decide) (by simp) ?_ (Or.inr ⟨0, ?_⟩)
  · rw [hparent, Function.update_of_ne (by decide)]
  · rw [hparent, Function.update_self]

theorem index_cleaner_complete_iff_indexB : indexB.docUrlDb.IsForest ∧
    ∃ n, ∀ fuel, n ≤ fuel → ∃ db', run onlyA diskB (fun _ => []) fuel indexB = some db' ∧
      (LeavesNothing onlyA diskB db' ↔ EverythingReached onlyA diskB indexB) :=
  ⟨isForest_indexB, index_cleaner_complete_iff onlyA diskB (fun _ => []) isForest_indexB⟩

theorem dropped_folder_stays : ¬ ∀ (config : FileIndexerConfig) (disk : Disk)
    (order : WriteTransaction → List Term) (fuel : ℕ) (db db' : Database), db.docUrlDb.IsForest →
      run config disk order fuel db = some db' → LeavesNothing config disk db' := by
  intro h
  have hleaves := h onlyA diskB (fun _ => []) 0 indexB indexB isForest_indexB rfl 3
  have hpath : pathOf diskB indexB 3 = decodeBytes [47, 98, 47, 120] := by
    simp [pathOf, indexB, diskB, DocumentUrlDB.get, DocumentUrlDB.getLoop, DocumentUrlDB.add]
  have hstored : Stored indexB.docUrlDb 3 := ⟨2, by rw [parent_indexB, Function.update_self]⟩
  have hnot : ¬ Wanted onlyA diskB indexB 3 := by
    rw [Wanted, hpath]
    decide
  rcases hleaves hstored hnot with ⟨x, ⟨p, hx⟩, habove, hne, -⟩ | ⟨folder, hfolder, hpre, -⟩
  · -- nothing is below the file
    rcases Relation.ReflTransGen.cases_tail habove with rfl | ⟨y, -, hy⟩
    · exact hne rfl
    · rw [parent_indexB] at hy
      rcases eq_or_ne y 3 with rfl | h3
      · simp at hy
      · rw [Function.update_of_ne h3] at hy
        rcases eq_or_ne y 2 with rfl | h2
        · simp at hy
        · simp [Function.update_of_ne h2] at hy
  · rw [hpath] at hpre
    revert folder
    decide

end IndexCleaner

end Baloo
