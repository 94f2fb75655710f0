import Baloo.RecursiveRemoval

/-!
# What `replaceDocument` replaces

The three families of terms share the postings, and their blocks queue removals and additions one after the
other. Seen from one term, each block is a step on the entry of the document (`Entry.replace`), so what is
posted in the end can be read off a fold over the families (`entry_replaceFamilies`).

As long as no term belongs to two families of the document, before or afterwards, and none moves from a family
to one that is replaced before it (`Replaceable`), each part that is selected is the document's afterwards,
nothing else changes, and a second call changes nothing at all (`replaceDocument_replaces`). A term that moves
loses its posting (`moved_term_not_posted`).
-/

namespace Baloo

open Forest (Above)

/-- The families in the order in which they are replaced. -/
def Family.all : List Family := [.terms, .xattrTerms, .fileNameTerms]

theorem Family.nodup_all : Family.all.Nodup := by decide

theorem Family.mem_all (f : Family) : f ∈ Family.all := by cases f <;> decide

/-- The families before and after a family. -/
theorem Family.all_split (f : Family) : ∃ before after, Family.all = before ++ f :: after ∧
    (∀ g ∈ before, g.rank < f.rank) ∧ ∀ g ∈ after, f.rank < g.rank := by
  cases f
  · exact ⟨[], [.xattrTerms, .fileNameTerms], rfl, by decide, by decide⟩
  · exact ⟨[.terms], [.fileNameTerms], rfl, by decide, by decide⟩
  · exact ⟨[.terms, .xattrTerms], [], rfl, by decide, by decide⟩

/-- The blocks of `replaceDocument` for some families. -/
def WriteTransaction.replaceBlocks (w : WriteTransaction) (doc : Document) (replaces : Family → Bool)
    (families : List Family) : WriteTransaction :=
  families.foldl (fun w f => if replaces f then w.replaceFamily doc.id f (doc.family f) else w) w

/-- The three blocks, then the tables that hold no terms. -/
theorem replaceDocument_eq (w : WriteTransaction) {doc : Document} {operations : DocumentOperations}
    (hne : operations.documentTerms = true → doc.terms.keys ≠ []) : w.replaceDocument doc operations =
      { w.replaceBlocks doc operations.replaces Family.all with
        dbis := WriteTransaction.replaceData
          (w.replaceBlocks doc operations.replaces Family.all).dbis doc operations } := by
  have hterms : (if operations.documentTerms then w.replaceDocumentTerms doc else w) =
      if operations.documentTerms then w.replaceFamily doc.id .terms doc.terms else w := by
    split
    · next h => exact replaceDocumentTerms_eq w (hne h)
    · rfl
  simp only [WriteTransaction.replaceDocument, hterms, replaceXattrTerms_eq, replaceFileNameTerms_eq]
  rfl

/-! ## The entry of the document -/

/-- What a block does to the entry of the document under a term: `old` tells whether the family had the term,
`new` is what the document brings for it. -/
def Entry.replace (e : Entry) (old : Bool) (new : Option TermData) : Entry :=
  let e := if old then { posted := false, positions := none } else e
  match new with
  | none => e
  | some td =>
    { posted := true
      positions := if td.positions ≠ [] then some (e.positions.getD td.positions) else e.positions }

/-- The steps of some families. -/
def Entry.replaceAll (e : Entry) (replaces old : Family → Bool) (new : Family → Option TermData)
    (families : List Family) : Entry :=
  families.foldl (fun e f => if replaces f then e.replace (old f) (new f) else e) e

section ReplaceAll

variable {e : Entry} {replaces old : Family → Bool} {new : Family → Option TermData} {families : List Family}

/-- If nothing was posted, the entry is what the document brings. -/
theorem Entry.replace_some {td : TermData} {b : Bool}
    (h : b = true ∨ e = { posted := false, positions := none }) :
    e.replace b (some td) = Entry.ofTermData (some td) := by
  rcases h with rfl | rfl
  · simp [Entry.replace, Entry.ofTermData]
  · cases b <;> simp [Entry.replace, Entry.ofTermData]

/-- A term of none of the families is left alone. -/
theorem Entry.replaceAll_keep (h : ∀ f ∈ families, replaces f = true → old f = false ∧ new f = none) :
    e.replaceAll replaces old new families = e := by
  induction families with
  | nil => rfl
  | cons f families ih =>
    have hstep : (if replaces f then e.replace (old f) (new f) else e) = e := by
      split
      · next hf =>
        obtain ⟨hold, hnew⟩ := h f List.mem_cons_self hf
        rw [hold, hnew]
        rfl
      · rfl
    rw [Entry.replaceAll, List.foldl_cons, hstep]
    exact ih fun g hg => h g (List.mem_cons_of_mem f hg)

/-- A term that the document does not bring is gone if one of the families had it. -/
theorem Entry.replaceAll_gone (hnew : ∀ f ∈ families, replaces f = true → new f = none)
    (hold : e = { posted := false, positions := none } ∨ ∃ f ∈ families, replaces f = true ∧ old f = true) :
    e.replaceAll replaces old new families = { posted := false, positions := none } := by
  induction families generalizing e with
  | nil =>
    rcases hold with he | ⟨f, hf, -⟩
    · exact he
    · exact absurd hf List.not_mem_nil
  | cons f families ih =>
    rw [Entry.replaceAll, List.foldl_cons]
    apply ih fun g hg => hnew g (List.mem_cons_of_mem f hg)
    by_cases hf : replaces f = true
    · rw [if_pos hf, hnew f List.mem_cons_self hf]
      rcases hold with rfl | ⟨g, hg, hreplaces, hold⟩
      · left
        cases old f <;> rfl
      · rcases List.mem_cons.mp hg with rfl | hg
        · rw [hold]
          exact .inl rfl
        · exact .inr ⟨g, hg, hreplaces, hold⟩
    · rw [if_neg hf]
      rcases hold with he | ⟨g, hg, hreplaces, hold⟩
      · exact .inl he
      · rcases List.mem_cons.mp hg with rfl | hg
        · exact absurd hreplaces hf
        · exact .inr ⟨g, hg, hreplaces, hold⟩

/-- A term that the document brings for one family: the blocks before must leave nothing, unless the family
had the term, and the blocks after it must leave the term alone. -/
theorem Entry.replaceAll_some {f : Family} {before after : List Family} {td : TermData} (hf : replaces f = true)
    (htd : new f = some td)
    (hbefore : old f = true ∨ e.replaceAll replaces old new before = { posted := false, positions := none })
    (hafter : ∀ g ∈ after, replaces g = true → old g = false ∧ new g = none) :
    e.replaceAll replaces old new (before ++ f :: after) = Entry.ofTermData (some td) := by
  have hsplit : e.replaceAll replaces old new (before ++ f :: after) =
      (if replaces f then (e.replaceAll replaces old new before).replace (old f) (new f)
        else e.replaceAll replaces old new before).replaceAll replaces old new after := by
    rw [Entry.replaceAll, List.foldl_append]
    rfl
  rw [hsplit, Entry.replaceAll_keep hafter, if_pos hf, htd]
  exact Entry.replace_some hbefore

end ReplaceAll

section Entries

variable {w : WriteTransaction} {doc : Document} {replaces : Family → Bool} {t : Term}

theorem entry_replaceFamily_self (w : WriteTransaction) (id : DocId) (f : Family) (terms : OrdMap Term TermData)
    (t : Term) : (w.replaceFamily id f terms).entry t id =
      (w.entry t id).replace (decide (t ∈ (w.dbis.termsDb f).get id)) (terms.get t) := by
  rw [entry_replaceFamily, WriteTransaction.replaceTerms, WriteTransaction.entry_addTerms,
    WriteTransaction.entry_removeTerms]
  rcases terms.get t with _ | td
  · simp [Entry.replace]
  · simp [Entry.replace, Entry.apply]

/-- The tables of the families after some blocks. -/
theorem get_termsDb_replaceBlocks
    (hclean : ∀ f, replaces f = true → ∀ t, (doc.family f).contains t = true → DocTermsCodec.Clean t)
    (families : List Family) (w : WriteTransaction) (f : Family) (i : DocId) :
    ((w.replaceBlocks doc replaces families).dbis.termsDb f).get i =
      if f ∈ families ∧ replaces f = true ∧ i = doc.id then (doc.family f).keys
      else (w.dbis.termsDb f).get i := by
  induction families generalizing w with
  | nil => rfl
  | cons g families ih =>
    have hstep : w.replaceBlocks doc replaces (g :: families) =
        (if replaces g then w.replaceFamily doc.id g (doc.family g) else w).replaceBlocks doc replaces families :=
      rfl
    rw [hstep, ih]
    by_cases hg : replaces g = true
    · rw [if_pos hg, get_termsDb_replaceFamily w doc.id g (hclean g hg)]
      by_cases hf : f = g
      · subst hf
        by_cases hi : i = doc.id <;> simp [hg, hi]
      · simp [hf]
    · rw [if_neg hg]
      by_cases hf : f = g
      · subst hf
        simp [hg]
      · simp [hf]

/-- **The entry of the document after some blocks** is the entry before, taken through the steps. -/
theorem entry_replaceBlocks
    (hclean : ∀ f, replaces f = true → ∀ t, (doc.family f).contains t = true → DocTermsCodec.Clean t)
    {families : List Family} (hnodup : families.Nodup) (w : WriteTransaction) (t : Term) :
    (w.replaceBlocks doc replaces families).entry t doc.id =
      (w.entry t doc.id).replaceAll replaces (fun f => decide (t ∈ (w.dbis.termsDb f).get doc.id))
        (fun f => (doc.family f).get t) families := by
  induction families using List.reverseRecOn with
  | nil => rfl
  | append_singleton families f ih =>
    obtain ⟨hnodup, -, hnot⟩ := List.nodup_append.mp hnodup
    have hstep : w.replaceBlocks doc replaces (families ++ [f]) =
        if replaces f then (w.replaceBlocks doc replaces families).replaceFamily doc.id f (doc.family f)
        else w.replaceBlocks doc replaces families := by
      rw [WriteTransaction.replaceBlocks, List.foldl_append]
      rfl
    rw [hstep, Entry.replaceAll, List.foldl_append, List.foldl_cons, List.foldl_nil, ← Entry.replaceAll,
      ← ih hnodup]
    split
    · rw [entry_replaceFamily_self, get_termsDb_replaceBlocks hclean, if_neg]
      exact fun h => hnot f h.1 f (List.mem_singleton_self f) rfl
    · rfl

/-- The blocks are about the document. -/
theorem entry_replaceBlocks_of_ne {i : DocId} (hi : i ≠ doc.id) (families : List Family) (w : WriteTransaction)
    (t : Term) : (w.replaceBlocks doc replaces families).entry t i = w.entry t i := by
  induction families generalizing w with
  | nil => rfl
  | cons f families ih =>
    have hstep : w.replaceBlocks doc replaces (f :: families) =
        (if replaces f then w.replaceFamily doc.id f (doc.family f) else w).replaceBlocks doc replaces families :=
      rfl
    rw [hstep, ih]
    split
    · exact entry_replaceFamily_of_ne hi
    · rfl

end Entries

/-! ## Families that stay apart -/

/-- The terms a family of the document has afterwards. -/
def Document.termsAfter (doc : Document) (db : Database) (replaces : Family → Bool) (f : Family) : List Term :=
  if replaces f then (doc.family f).keys else (db.termsDb f).get doc.id

/-- No term gets into the way of another family of the document. -/
structure Replaceable (db : Database) (doc : Document) (replaces : Family → Bool) : Prop where
  /-- no term is stored in two families -/
  stored : ∀ t f g, t ∈ (db.termsDb f).get doc.id → t ∈ (db.termsDb g).get doc.id → f = g
  /-- no term belongs to two families afterwards -/
  apart : ∀ t f g, t ∈ doc.termsAfter db replaces f → t ∈ doc.termsAfter db replaces g → f = g
  /-- no term moves from a family to one that is replaced before it -/
  moves : ∀ t f g, replaces f = true → replaces g = true → g.rank < f.rank →
    t ∈ (db.termsDb f).get doc.id → t ∉ (doc.family g).keys
  /-- the new terms survive the codec -/
  clean : ∀ f, replaces f = true → ∀ t, (doc.family f).contains t = true → DocTermsCodec.Clean t

section Blocks

variable {w : WriteTransaction} {doc : Document} {replaces : Family → Bool} {t : Term} {f : Family}

theorem get_eq_none_of_notMem {terms : OrdMap Term TermData} (h : t ∉ terms.keys) : terms.get t = none :=
  Option.eq_none_iff_forall_ne_some.mpr fun td htd => h (OrdMap.mem_keys.mpr ⟨td, htd⟩)

theorem Replaceable.termsDb (h : Replaceable w.dbis doc replaces) (f : Family) (i : DocId) :
    ((w.replaceBlocks doc replaces Family.all).dbis.termsDb f).get i =
      if i = doc.id then doc.termsAfter w.dbis replaces f else (w.dbis.termsDb f).get i := by
  rw [get_termsDb_replaceBlocks h.clean, Document.termsAfter]
  by_cases hi : i = doc.id
  · by_cases hf : replaces f = true <;> simp [hi, hf, f.mem_all]
  · simp [hi]

/-- A term the document brings has no other family. -/
theorem Replaceable.other (h : Replaceable w.dbis doc replaces) (hf : replaces f = true) (ht : t ∈ (doc.family f).keys)
    {g : Family} (hne : g ≠ f) : t ∉ doc.termsAfter w.dbis replaces g := by
  intro hg
  apply hne
  apply h.apart t g f hg
  rwa [Document.termsAfter, if_pos hf]

/-- **The terms of the document are posted as the document has them.** -/
theorem Replaceable.entry_some (h : Replaceable w.dbis doc replaces) (hw : Agrees w) (hf : replaces f = true)
    {td : TermData} (htd : (doc.family f).get t = some td) :
    (w.replaceBlocks doc replaces Family.all).entry t doc.id = Entry.ofTermData (some td) := by
  have ht : t ∈ (doc.family f).keys := OrdMap.mem_keys.mpr ⟨td, htd⟩
  have hnew : ∀ g, g ≠ f → replaces g = true → (doc.family g).get t = none := fun g hne hg => by
    apply get_eq_none_of_notMem
    have hother := h.other hf ht hne
    rwa [Document.termsAfter, if_pos hg] at hother
  obtain ⟨before, after, hsplit, hbefore, hafter⟩ := f.all_split
  rw [entry_replaceBlocks h.clean Family.nodup_all, hsplit]
  apply Entry.replaceAll_some hf htd
  · by_cases hold : t ∈ (w.dbis.termsDb f).get doc.id
    · exact .inl (decide_eq_true hold)
    right
    apply Entry.replaceAll_gone
    · exact fun g hg => hnew g fun heq => lt_irrefl _ (heq ▸ hbefore g hg)
    by_cases hposted : (w.entry t doc.id).posted = true
    · -- the family that had the term has been replaced before
      right
      obtain ⟨g, hg⟩ := (hw.posted t doc.id).mp hposted
      have hne : g ≠ f := fun heq => hold (heq ▸ hg)
      have hreplaces : replaces g = true := by
        by_contra hnot
        apply h.other hf ht hne
        rwa [Document.termsAfter, if_neg hnot]
      have hrank : g.rank < f.rank := by
        rcases Family.rank_trichotomy hne with hlt | hlt
        · exact hlt
        · exact absurd ht (h.moves t g f hreplaces hf hlt hg)
      refine ⟨g, ?_, hreplaces, decide_eq_true hg⟩
      have hmem := g.mem_all
      rw [hsplit] at hmem
      rcases List.mem_append.mp hmem with hmem | hmem
      · exact hmem
      · rcases List.mem_cons.mp hmem with heq | hmem
        · exact absurd heq hne
        · exact absurd hrank (hafter g hmem).le.not_gt
    · left
      have hfalse : (w.entry t doc.id).posted = false := Bool.eq_false_iff.mpr hposted
      exact congrArg₂ Entry.mk hfalse (hw.positions t doc.id hfalse)
  · intro g hg hreplaces
    have hrank := hafter g hg
    have hne : g ≠ f := fun heq => lt_irrefl _ (heq ▸ hrank)
    exact ⟨decide_eq_false fun hold => h.moves t g f hreplaces hf hrank hold ht, hnew g hne hreplaces⟩

/-- The terms of a family that is not replaced stay posted as they are. -/
theorem Replaceable.entry_kept (h : Replaceable w.dbis doc replaces) (hf : replaces f = false)
    (ht : t ∈ (w.dbis.termsDb f).get doc.id) :
    (w.replaceBlocks doc replaces Family.all).entry t doc.id = w.entry t doc.id := by
  rw [entry_replaceBlocks h.clean Family.nodup_all]
  apply Entry.replaceAll_keep
  intro g _ hg
  have hne : g ≠ f := by
    rintro rfl
    rw [hf] at hg
    cases hg
  refine ⟨decide_eq_false fun hold => hne (h.stored t g f hold ht), get_eq_none_of_notMem fun hnew => ?_⟩
  apply h.other hg hnew hne.symm
  rwa [Document.termsAfter, hf]

/-- Under other terms the document is not posted. -/
theorem Replaceable.entry_none (h : Replaceable w.dbis doc replaces) (hw : Agrees w)
    (ht : ∀ f, t ∉ doc.termsAfter w.dbis replaces f) :
    (w.replaceBlocks doc replaces Family.all).entry t doc.id = { posted := false, positions := none } := by
  rw [entry_replaceBlocks h.clean Family.nodup_all]
  apply Entry.replaceAll_gone
  · intro g _ hg
    apply get_eq_none_of_notMem
    have hnot := ht g
    rwa [Document.termsAfter, if_pos hg] at hnot
  · by_cases hposted : (w.entry t doc.id).posted = true
    · right
      obtain ⟨g, hg⟩ := (hw.posted t doc.id).mp hposted
      have hreplaces : replaces g = true := by
        by_contra hnot
        apply ht g
        rwa [Document.termsAfter, if_neg hnot]
      exact ⟨g, g.mem_all, hreplaces, decide_eq_true hg⟩
    · left
      have hfalse : (w.entry t doc.id).posted = false := Bool.eq_false_iff.mpr hposted
      exact congrArg₂ Entry.mk hfalse (hw.positions t doc.id hfalse)

theorem listsSorted_replaceBlocks (hw : w.dbis.ListsSorted) (families : List Family) :
    (w.replaceBlocks doc replaces families).dbis.ListsSorted := by
  induction families generalizing w with
  | nil => exact hw
  | cons f families ih =>
    have hstep : w.replaceBlocks doc replaces (f :: families) =
        (if replaces f then w.replaceFamily doc.id f (doc.family f) else w).replaceBlocks doc replaces families :=
      rfl
    rw [hstep]
    apply ih
    split
    · exact Database.ListsSorted.setTermsDb ⟨hw.posting, hw.position⟩ _ f
    · exact hw

/-- A term is brought by the document, or it is kept, or it is none of the document's afterwards. -/
theorem termsAfter_cases (db : Database) (doc : Document) (replaces : Family → Bool) (t : Term) :
    (∃ f td, replaces f = true ∧ (doc.family f).get t = some td) ∨
      (∃ f, replaces f = false ∧ t ∈ (db.termsDb f).get doc.id) ∨ ∀ f, t ∉ doc.termsAfter db replaces f := by
  by_cases hall : ∀ f, t ∉ doc.termsAfter db replaces f
  · exact .inr (.inr hall)
  · simp only [not_forall, not_not] at hall
    obtain ⟨f, hf⟩ := hall
    rw [Document.termsAfter] at hf
    split at hf
    · next hreplaces =>
      obtain ⟨td, htd⟩ := OrdMap.mem_keys.mp hf
      exact .inl ⟨f, td, hreplaces, htd⟩
    · next hreplaces => exact .inr (.inl ⟨f, Bool.eq_false_iff.mpr hreplaces, hf⟩)

/-- **The blocks keep the postings in agreement.** -/
theorem Agrees.replaceBlocks (hw : Agrees w) (h : Replaceable w.dbis doc replaces) :
    Agrees (w.replaceBlocks doc replaces Family.all) := by
  refine ⟨fun t i => ?_, fun t i hposted => ?_, listsSorted_replaceBlocks hw.sorted _⟩
  · simp only [h.termsDb]
    by_cases hi : i = doc.id
    · subst hi
      simp only [if_true]
      rcases termsAfter_cases w.dbis doc replaces t with ⟨f, td, hf, htd⟩ | ⟨f, hf, ht⟩ | hnone
      · rw [h.entry_some hw hf htd]
        refine iff_of_true rfl ⟨f, ?_⟩
        rw [Document.termsAfter, if_pos hf]
        exact OrdMap.mem_keys.mpr ⟨td, htd⟩
      · rw [h.entry_kept hf ht]
        refine iff_of_true ((hw.posted t doc.id).mpr ⟨f, ht⟩) ⟨f, ?_⟩
        rwa [Document.termsAfter, hf]
      · rw [h.entry_none hw hnone]
        exact iff_of_false Bool.false_ne_true fun ⟨f, hf⟩ => hnone f hf
    · simp only [if_neg hi, entry_replaceBlocks_of_ne hi]
      exact hw.posted t i
  · by_cases hi : i = doc.id
    · subst hi
      rcases termsAfter_cases w.dbis doc replaces t with ⟨f, td, hf, htd⟩ | ⟨f, hf, ht⟩ | hnone
      · rw [h.entry_some hw hf htd] at hposted
        cases hposted
      · rw [h.entry_kept hf ht] at hposted ⊢
        exact hw.positions t doc.id hposted
      · rw [h.entry_none hw hnone]
    · rw [entry_replaceBlocks_of_ne hi] at hposted ⊢
      exact hw.positions t i hposted

/-- The stored lists of other families and of other documents stay as they are. -/
theorem get_replaceBlocks_of_ne {i : DocId} (h : ¬ (replaces f = true ∧ i = doc.id)) (families : List Family)
    (w : WriteTransaction) :
    OrdMap.get ((w.replaceBlocks doc replaces families).dbis.termsDb f) i = OrdMap.get (w.dbis.termsDb f) i := by
  induction families generalizing w with
  | nil => rfl
  | cons g families ih =>
    have hstep : w.replaceBlocks doc replaces (g :: families) =
        (if replaces g then w.replaceFamily doc.id g (doc.family g) else w).replaceBlocks doc replaces families :=
      rfl
    rw [hstep, ih]
    split
    · next hg =>
      apply get_replaceFamily_of_ne
      rintro ⟨rfl, rfl⟩
      exact h ⟨hg, rfl⟩
    · rfl

theorem replaceFamily_same {id : DocId} {terms : OrdMap Term TermData}
    (h : terms.keys = (w.dbis.termsDb f).get id) : (w.replaceFamily id f terms).dbis = w.dbis := by
  rw [WriteTransaction.replaceFamily]
  dsimp only
  rw [if_neg (not_not.mpr h)]
  cases f <;> rfl

/-- Blocks that bring what is stored write nothing. -/
theorem replaceBlocks_same {families : List Family}
    (h : ∀ f, replaces f = true → (doc.family f).keys = (w.dbis.termsDb f).get doc.id) :
    (w.replaceBlocks doc replaces families).dbis = w.dbis := by
  induction families using List.reverseRecOn with
  | nil => rfl
  | append_singleton families f ih =>
    rw [WriteTransaction.replaceBlocks, List.foldl_append, List.foldl_cons, List.foldl_nil,
      ← WriteTransaction.replaceBlocks]
    split
    · next hf =>
      rw [replaceFamily_same, ih]
      rw [ih]
      exact h f hf
    · exact ih

end Blocks

/-! ## The whole call -/

section Call

variable {w : WriteTransaction} {db : Database} {doc : Document} {operations : DocumentOperations} {t : Term}
  {f : Family} {i : DocId}

theorem entry_replaceDocument (hne : operations.documentTerms = true → doc.terms.keys ≠ []) :
    (w.replaceDocument doc operations).entry = (w.replaceBlocks doc operations.replaces Family.all).entry := by
  rw [replaceDocument_eq w hne]
  rfl

theorem termsDb_replaceDocument (hne : operations.documentTerms = true → doc.terms.keys ≠ []) :
    (w.replaceDocument doc operations).dbis.termsDb =
      (w.replaceBlocks doc operations.replaces Family.all).dbis.termsDb := by
  rw [replaceDocument_eq w hne]
  funext f
  cases f <;> rfl

/-- **A call keeps the postings in agreement.** -/
theorem Agrees.replaceDocument (hw : Agrees w) (h : Replaceable w.dbis doc operations.replaces)
    (hne : operations.documentTerms = true → doc.terms.keys ≠ []) : Agrees (w.replaceDocument doc operations) := by
  apply (hw.replaceBlocks h).congr
  · rw [replaceDocument_eq w hne]
  · exact termsDb_replaceDocument hne
  · rw [replaceDocument_eq w hne]
    rfl
  · rw [replaceDocument_eq w hne]
    rfl

/-- The other tables are written from what the transaction had. -/
theorem dbis_replaceDocument (w : WriteTransaction) (doc : Document) (operations : DocumentOperations) :
    ∃ docTermsDb docXattrTermsDb docFilenameTermsDb, (w.replaceDocument doc operations).dbis =
      { WriteTransaction.replaceData w.dbis doc operations with
        docTermsDb := docTermsDb, docXattrTermsDb := docXattrTermsDb
        docFilenameTermsDb := docFilenameTermsDb } := by
  obtain ⟨a, b, c, heq⟩ := WriteTransaction.replaceDocument_frame w doc operations
  exact ⟨a, b, c, heq⟩

/-- The tables that hold no terms have what the document has. -/
structure DataCurrent (db : Database) (doc : Document) (operations : DocumentOperations) : Prop where
  /-- the content waits, if the document says so -/
  content : doc.contentIndexing = true → OrdMap.get db.contentIndexingDb doc.id = some ()
  /-- the times -/
  time : operations.documentTime = true →
    OrdMap.get db.docTimeDb doc.id = some { mTime := doc.mTime, cTime := doc.cTime }
  /-- the place -/
  place : operations.documentUrl = true → db.docUrlDb.idFilenameDb.get doc.id =
    some { parentId := doc.parentId, name := mid doc.url (lastIndexOf slash doc.url + 1) }

/-- They are not written again. -/
theorem DataCurrent.replaceData (h : DataCurrent db doc operations) (hdata : operations.documentData = false) :
    WriteTransaction.replaceData db doc operations = db := by
  have hcontent : (if doc.contentIndexing then db.contentIndexingDb.put doc.id else db.contentIndexingDb) =
      db.contentIndexingDb := by
    split
    · next hc => exact OrdMap.put_eq_self (h.content hc)
    · rfl
  have htime : (if operations.documentTime then db.docTimeDb.put doc.id { mTime := doc.mTime, cTime := doc.cTime }
      else db.docTimeDb) = db.docTimeDb := by
    split
    · next ht => exact OrdMap.put_eq_self (h.time ht)
    · rfl
  have hmtime : (if operations.documentTime = true ∧ (db.docTimeDb.get doc.id).mTime ≠ doc.mTime then
      (db.mtimeDb.del (db.docTimeDb.get doc.id).mTime doc.id).put doc.mTime doc.id else db.mtimeDb) =
        db.mtimeDb := by
    apply if_neg
    rintro ⟨ht, hne⟩
    apply hne
    rw [DocumentTimeDB.get, h.time ht, Option.getD_some]
  have hurl : (if operations.documentUrl then
      db.docUrlDb.updateUrl doc.id doc.parentId (mid doc.url (lastIndexOf slash doc.url + 1)) else db.docUrlDb) =
        db.docUrlDb := by
    split
    · next hu => exact DocumentUrlDB.updateUrl_same (h.place hu)
    · rfl
  simp only [WriteTransaction.replaceData, hcontent, htime, hmtime, hurl, hdata, Bool.false_eq_true, false_and,
    if_false]

theorem dataCurrent_replaceData (hurl : operations.documentUrl = true → db.docUrlDb.contains doc.id = true) :
    DataCurrent (WriteTransaction.replaceData db doc operations) doc operations := by
  refine ⟨fun hc => ?_, fun ht => ?_, fun hu => ?_⟩
  · simp [WriteTransaction.replaceData, hc, DocumentIdDB.put]
  · simp [WriteTransaction.replaceData, ht]
  · have hcontains := hurl hu
    rw [DocumentUrlDB.contains, Bool.and_eq_true] at hcontains
    obtain ⟨path, hpath⟩ := OrdMap.contains_iff.mp hcontains.2
    simp only [WriteTransaction.replaceData, hu, if_true]
    rw [DocumentUrlDB.idFilenameDb_updateUrl hpath, if_pos rfl]

/-- **A call that has nothing to do** leaves the tables and the entries as they are. -/
theorem replaceDocument_again (hw : Agrees w)
    (hne : operations.documentTerms = true → doc.terms.keys ≠ [])
    (hclean : ∀ f, operations.replaces f = true → ∀ t, (doc.family f).contains t = true → DocTermsCodec.Clean t)
    (hterms : ∀ f, operations.replaces f = true → (w.dbis.termsDb f).get doc.id = (doc.family f).keys)
    (hapart : ∀ t f g, t ∈ (w.dbis.termsDb f).get doc.id → t ∈ (w.dbis.termsDb g).get doc.id → f = g)
    (hentry : ∀ f t td, operations.replaces f = true → (doc.family f).get t = some td →
      w.entry t doc.id = Entry.ofTermData (some td))
    (hdata : WriteTransaction.replaceData w.dbis doc operations = w.dbis) :
    (w.replaceDocument doc operations).dbis = w.dbis ∧
      ∀ t i, (w.replaceDocument doc operations).entry t i = w.entry t i := by
  have hafter : ∀ f, doc.termsAfter w.dbis operations.replaces f = (w.dbis.termsDb f).get doc.id := by
    intro f
    rw [Document.termsAfter]
    split
    · next hf => rw [hterms f hf]
    · rfl
  have hrep : Replaceable w.dbis doc operations.replaces := by
    refine ⟨hapart, fun t f g => ?_, fun t f g _ hg hrank hold hnew => ?_, hclean⟩
    · rw [hafter, hafter]
      exact hapart t f g
    · rw [← hterms g hg] at hnew
      exact hrank.ne (congrArg Family.rank (hapart t g f hnew hold))
  constructor
  · rw [replaceDocument_eq w hne]
    have hsame : (w.replaceBlocks doc operations.replaces Family.all).dbis = w.dbis :=
      replaceBlocks_same fun f hf => (hterms f hf).symm
    dsimp only
    rw [hsame, hdata]
  · intro t i
    rw [entry_replaceDocument hne]
    by_cases hi : i = doc.id
    · subst hi
      rcases termsAfter_cases w.dbis doc operations.replaces t with ⟨f, td, hf, htd⟩ | ⟨f, hf, ht⟩ | hnone
      · rw [hrep.entry_some hw hf htd, hentry f t td hf htd]
      · exact hrep.entry_kept hf ht
      · rw [hrep.entry_none hw hnone]
        have hposted : (w.entry t doc.id).posted = false := by
          rw [Bool.eq_false_iff]
          intro hposted
          obtain ⟨f, hf⟩ := (hw.posted t doc.id).mp hposted
          exact hnone f (by rwa [hafter])
        exact (congrArg₂ Entry.mk hposted (hw.positions t doc.id hposted)).symm
    · exact entry_replaceBlocks_of_ne hi _ w t

/-- The selected parts of a document are those of `doc`, and nothing else has changed. -/
structure PartsReplaced (db : Database) (doc : Document) (operations : DocumentOperations) (db' : Database) :
    Prop where
  /-- the terms of a selected family are those of the document -/
  terms : ∀ f, operations.replaces f = true → (db'.termsDb f).get doc.id = (doc.family f).keys
  /-- under them it is posted, with its positions -/
  posted : ∀ f t td, operations.replaces f = true → (doc.family f).get t = some td →
    db'.entry t doc.id = Entry.ofTermData (some td)
  /-- documents are posted under their terms only -/
  agrees : Agrees { dbis := db' }
  /-- the times are those of the document, and it is listed under its modification time only -/
  time : operations.documentTime = true →
    OrdMap.get db'.docTimeDb doc.id = some { mTime := doc.mTime, cTime := doc.cTime } ∧
      ∀ m, doc.id ∈ OrdMap.values db'.mtimeDb m ↔ m = doc.mTime
  /-- the directory and the name are those of the document, and it is listed there only -/
  place : operations.documentUrl = true →
    db'.docUrlDb.idFilenameDb.get doc.id =
        some { parentId := doc.parentId, name := mid doc.url (lastIndexOf slash doc.url + 1) } ∧
      ∀ p, doc.id ∈ db'.docUrlDb.idTreeDb.get p ↔ p = doc.parentId
  /-- the URL tree is a forest -/
  forest : db'.docUrlDb.IsForest
  /-- a family that is not selected keeps its terms, and their postings and positions -/
  terms_kept : ∀ f, operations.replaces f = false →
    OrdMap.get (db'.termsDb f) doc.id = OrdMap.get (db.termsDb f) doc.id ∧
      ∀ t ∈ (db.termsDb f).get doc.id, db'.entry t doc.id = db.entry t doc.id
  /-- times that are not selected stay -/
  time_kept : operations.documentTime = false → db'.docTimeDb = db.docTimeDb ∧ db'.mtimeDb = db.mtimeDb
  /-- a place that is not selected stays -/
  place_kept : operations.documentUrl = false → db'.docUrlDb = db.docUrlDb
  /-- the properties and the mark of a failure stay -/
  data_kept : db'.docDataDb = db.docDataDb ∧ db'.failedIdDb = db.failedIdDb
  /-- the content waits if it did, or if the document says so -/
  content : db'.contentIndexingDb =
    if doc.contentIndexing then db.contentIndexingDb.put doc.id else db.contentIndexingDb
  /-- other documents have what they had -/
  others : ∀ i, i ≠ doc.id → Untouched db db' i

/-- What is assumed of an index and of a document that replaces parts of an indexed one. -/
structure Replaces (db : Database) (doc : Document) (operations : DocumentOperations) : Prop where
  /-- the URL tree is a forest -/
  forest : db.docUrlDb.IsForest
  /-- the postings agree with the terms -/
  agrees : Agrees { dbis := db }
  /-- so do the two tables of times -/
  times : TimesAgree db.docTimeDb db.mtimeDb
  /-- the document has a place -/
  stored : db.docUrlDb.contains doc.id = true
  /-- and a record of its times -/
  recorded : db.docTimeDb.contains doc.id = true
  /-- its families stay apart -/
  replaceable : Replaceable db doc operations.replaces
  /-- new content terms are not empty -/
  nonempty : operations.documentTerms = true → doc.terms.keys ≠ []
  /-- the new directory is in the tree, and not at or below the document -/
  directory : operations.documentUrl = true → (doc.parentId = 0 ∨ db.docUrlDb.contains doc.parentId = true) ∧
    ¬ Above db.docUrlDb.parent doc.id doc.parentId

theorem Replaces.ne_zero (h : Replaces db doc operations) : doc.id ≠ 0 := by
  have hstored := h.stored
  rw [DocumentUrlDB.contains, Bool.and_eq_true, decide_eq_true_eq] at hstored
  exact hstored.1

/-- The URL tree after the call. -/
theorem Replaces.urls (h : Replaces db doc operations) :
    (WriteTransaction.replaceData db doc operations).docUrlDb.IsForest ∧
      ∀ i, i ≠ doc.id → (WriteTransaction.replaceData db doc operations).docUrlDb.idFilenameDb.get i =
        db.docUrlDb.idFilenameDb.get i := by
  have hstored := h.stored
  rw [DocumentUrlDB.contains, Bool.and_eq_true] at hstored
  obtain ⟨path, hpath⟩ := OrdMap.contains_iff.mp hstored.2
  by_cases hu : operations.documentUrl = true
  · simp only [WriteTransaction.replaceData, hu, if_true]
    obtain ⟨hp, hnot⟩ := h.directory hu
    refine ⟨h.forest.updateUrl (q := path.parentId) ?_ (hp.imp_right fun hp => ?_) hnot, fun i hi => ?_⟩
    · rw [DocumentUrlDB.parent, hpath, Option.map_some]
    · rw [DocumentUrlDB.contains, Bool.and_eq_true] at hp
      exact DocumentUrlDB.exists_parent.mpr hp.2
    · rw [DocumentUrlDB.idFilenameDb_updateUrl hpath, if_neg hi]
  · simp only [WriteTransaction.replaceData, Bool.eq_false_iff.mpr hu, Bool.false_eq_true, if_false]
    exact ⟨h.forest, fun i _ => trivial⟩

/-- The tables of times after the call. -/
theorem Replaces.timesAgree (h : Replaces db doc operations) :
    TimesAgree (WriteTransaction.replaceData db doc operations).docTimeDb
      (WriteTransaction.replaceData db doc operations).mtimeDb := by
  by_cases ht : operations.documentTime = true
  · simp only [WriteTransaction.replaceData, ht, if_true, true_and]
    split
    · exact h.times.change h.ne_zero { mTime := doc.mTime, cTime := doc.cTime }
    · next hsame => exact h.times.same h.ne_zero h.recorded (not_not.mp hsame)
  · simp only [WriteTransaction.replaceData, Bool.eq_false_iff.mpr ht, Bool.false_eq_true, if_false, false_and]
    exact h.times

/-- **`replaceDocument` replaces exactly the selected parts.** -/
theorem Replaces.partsReplaced {db' : Database} (h : Replaces db doc operations)
    (hdata : operations.documentData = false)
    (hdb' : (WriteTransaction.replaceDocument { dbis := db } doc operations).CommitsTo db') :
    PartsReplaced db doc operations db' := by
  obtain ⟨order, horder, rfl⟩ := hdb'
  have hagrees := h.agrees.replaceDocument h.replaceable h.nonempty
  have hentry : ∀ t i, ((WriteTransaction.replaceDocument { dbis := db } doc operations).commit order).entry t i =
      (WriteTransaction.replaceBlocks { dbis := db } doc operations.replaces Family.all).entry t i := fun t i => by
    rw [WriteTransaction.entry_commit hagrees.sorted horder, entry_replaceDocument h.nonempty]
  have hterms : ((WriteTransaction.replaceDocument { dbis := db } doc operations).commit order).termsDb =
      (WriteTransaction.replaceBlocks { dbis := db } doc operations.replaces Family.all).dbis.termsDb := by
    rw [termsDb_commit, termsDb_replaceDocument h.nonempty]
  have hagrees' := hagrees.commit horder
  have hcurrent := @dataCurrent_replaceData db doc operations fun _ => h.stored
  obtain ⟨hforest, hplace⟩ := h.urls
  have htimes := h.timesAgree
  have hrest := WriteTransaction.commit_eq
    (WriteTransaction.replaceDocument { dbis := db } doc operations) order
  obtain ⟨docTermsDb, docXattrTermsDb, docFilenameTermsDb, heq⟩ := dbis_replaceDocument { dbis := db } doc operations
  rw [heq] at hrest
  generalize (WriteTransaction.replaceDocument { dbis := db } doc operations).commit order = db' at *
  have htimeDb : db'.docTimeDb = (WriteTransaction.replaceData db doc operations).docTimeDb := by rw [hrest]
  have hmtimeDb : db'.mtimeDb = (WriteTransaction.replaceData db doc operations).mtimeDb := by rw [hrest]
  have hurlDb : db'.docUrlDb = (WriteTransaction.replaceData db doc operations).docUrlDb := by rw [hrest]
  have hdataDb : db'.docDataDb = (WriteTransaction.replaceData db doc operations).docDataDb := by rw [hrest]
  have hfailedDb : db'.failedIdDb = (WriteTransaction.replaceData db doc operations).failedIdDb := by rw [hrest]
  have hcontentDb : db'.contentIndexingDb = (WriteTransaction.replaceData db doc operations).contentIndexingDb := by
    rw [hrest]
  have hmem : ∀ m i, i ∈ OrdMap.values db'.mtimeDb m ↔
      ∃ info, OrdMap.get db'.docTimeDb i = some info ∧ info.mTime = m := by
    rw [htimeDb, hmtimeDb]
    exact htimes.pair
  have hget : ∀ i, i ≠ doc.id → OrdMap.get db'.docTimeDb i = OrdMap.get db.docTimeDb i := by
    intro i hi
    rw [htimeDb, WriteTransaction.replaceData]
    dsimp only
    split
    · rw [OrdMap.get_put, if_neg hi]
    · rfl
  refine
    { terms := fun f hf => ?_
      posted := fun f t td hf htd => ?_
      agrees := hagrees'
      time := fun ht => ?_
      place := fun hu => ?_
      forest := hurlDb ▸ hforest
      terms_kept := fun f hf => ⟨?_, fun t ht => ?_⟩
      time_kept := fun ht => ?_
      place_kept := fun hu => ?_
      data_kept := ?_
      content := by rw [hcontentDb, WriteTransaction.replaceData]
      others := fun i hi => ⟨?_, fun p => ?_, fun t => ?_, fun m => ?_⟩ }
  · rw [hterms, h.replaceable.termsDb, if_pos rfl, Document.termsAfter, if_pos hf]
  · rw [hentry, h.replaceable.entry_some h.agrees hf htd]
  · rw [hmtimeDb, htimeDb]
    refine ⟨hcurrent.time ht, fun m => ?_⟩
    rw [htimes.pair, hcurrent.time ht]
    simp [eq_comm]
  · rw [hurlDb]
    refine ⟨hcurrent.place hu, fun p => ?_⟩
    rw [hforest.listed, DocumentUrlDB.parent, hcurrent.place hu]
    simp [eq_comm]
  · rw [hterms, get_replaceBlocks_of_ne fun hboth => by rw [hf] at hboth; cases hboth.1]
  · rw [hentry, h.replaceable.entry_kept hf ht]
    rfl
  · rw [htimeDb, hmtimeDb]
    simp [WriteTransaction.replaceData, ht]
  · rw [hurlDb]
    simp [WriteTransaction.replaceData, hu]
  · rw [hdataDb, hfailedDb]
    simp [WriteTransaction.replaceData, hdata]
  · simp only [Database.record, Record.mk.injEq]
    refine ⟨?_, ?_, hget i hi, ?_, ?_, ?_⟩
    · rw [hurlDb, hplace i hi]
    · funext f
      rw [hterms, get_replaceBlocks_of_ne fun hboth => hi hboth.2]
    · rw [hdataDb]
      simp [WriteTransaction.replaceData, hdata]
    · rw [hcontentDb, WriteTransaction.replaceData]
      dsimp only
      split
      · rw [DocumentIdDB.put, OrdMap.contains_put, decide_eq_false hi, Bool.false_or]
      · rfl
    · rw [hfailedDb]
      rfl
  · rw [hurlDb, hforest.listed, h.forest.listed, DocumentUrlDB.parent, DocumentUrlDB.parent, hplace i hi]
  · rw [hentry, entry_replaceBlocks_of_ne hi]
    rfl
  · rw [hmem, hget i hi, h.times.pair]

/-- The call again, on tables that have what it writes. -/
theorem Replaces.again {db' : Database} (h : Replaces db doc operations) (hdata : operations.documentData = false)
    (hparts : PartsReplaced db doc operations db') (hw : Agrees w)
    (hdbis : w.dbis.withoutPostings = db'.withoutPostings)
    (hentry : ∀ t i, w.entry t i = db'.entry t i) {db'' : Database}
    (hdb'' : (w.replaceDocument doc operations).CommitsTo db'') : db'' = db' := by
  have htermsDb : ∀ f, w.dbis.termsDb f = db'.termsDb f := by
    intro f
    have heq := congrArg (fun db => Database.termsDb db f) hdbis
    cases f <;> exact heq
  have hafter : ∀ f, (w.dbis.termsDb f).get doc.id = doc.termsAfter db operations.replaces f := by
    intro f
    rw [htermsDb, Document.termsAfter]
    split
    · next hf => exact hparts.terms f hf
    · next hf => rw [DocumentDB.get, (hparts.terms_kept f (Bool.eq_false_iff.mpr hf)).1, DocumentDB.get]
  have hcurrent : DataCurrent w.dbis doc operations := by
    refine ⟨fun hc => ?_, fun ht => ?_, fun hu => ?_⟩
    · have heq := congrArg Database.contentIndexingDb hdbis
      change w.dbis.contentIndexingDb = db'.contentIndexingDb at heq
      rw [heq, hparts.content, if_pos hc, DocumentIdDB.put, OrdMap.get_put, if_pos rfl]
    · have heq := congrArg Database.docTimeDb hdbis
      change w.dbis.docTimeDb = db'.docTimeDb at heq
      rw [heq, (hparts.time ht).1]
    · have heq := congrArg Database.docUrlDb hdbis
      change w.dbis.docUrlDb = db'.docUrlDb at heq
      rw [heq, (hparts.place hu).1]
  obtain ⟨hsame, hentry'⟩ := replaceDocument_again hw h.nonempty h.replaceable.clean
    (fun f hf => by rw [hafter, Document.termsAfter, if_pos hf])
    (fun t f g hf hg => by
      rw [hafter] at hf hg
      exact h.replaceable.apart t f g hf hg)
    (fun f t td hf htd => by rw [hentry, hparts.posted f t td hf htd]) (hcurrent.replaceData hdata)
  have hdb' : WriteTransaction.CommitsTo { dbis := db' } db' := ⟨[], .refl _, rfl⟩
  apply hdb''.eq_of_entries hdb'
  · rw [hsame]
    exact hw.sorted
  · exact hparts.agrees.sorted
  · intro t i
    rw [hentry', hentry]
    rfl
  · rw [hsame]
    exact hdbis

/-- **`replaceDocument` replaces the selected parts, once and for all.** For every selection without the
properties: after the commit each selected part of the document is that of `doc`, each other part and every
other document are what they were; and the same call again, before the commit or after it, leaves the same
tables. -/
theorem replaceDocument_replaces (h : Replaces db doc operations) (hdata : operations.documentData = false)
    {db' : Database} (hdb' : (WriteTransaction.replaceDocument { dbis := db } doc operations).CommitsTo db') :
    PartsReplaced db doc operations db' ∧
      (∀ db'', ((WriteTransaction.replaceDocument { dbis := db } doc operations).replaceDocument doc
        operations).CommitsTo db'' → db'' = db') ∧
      ∀ db'', (WriteTransaction.replaceDocument { dbis := db' } doc operations).CommitsTo db'' → db'' = db' := by
  have hparts := h.partsReplaced hdata hdb'
  have hagrees := h.agrees.replaceDocument h.replaceable h.nonempty
  obtain ⟨order, horder, rfl⟩ := hdb'
  refine ⟨hparts, fun db'' hdb'' => ?_, fun db'' hdb'' => ?_⟩
  · apply h.again hdata hparts hagrees _ _ hdb''
    · rw [WriteTransaction.commit_eq, Database.withoutPostings, Database.withoutPostings]
    · exact fun t i => (WriteTransaction.entry_commit hagrees.sorted horder t i).symm
  · exact h.again hdata hparts hparts.agrees rfl (fun t i => rfl) hdb''

end Call

/-! ## Indexes that are held -/

section Holds

variable {w : WriteTransaction} {db : Database} {A : Index} {doc : Document} {replaces : Family → Bool}

/-- Tables that hold an index agree. -/
theorem Holds.agrees (h : Holds w A) : Agrees w := by
  have hmem : ∀ t i, (∃ f, t ∈ (w.dbis.termsDb f).get i) ↔ ∃ td, lookup (A i) t = some td := fun t i => by
    simp only [h.mem_get, lookup_eq_some (h.apart i)]
    exact exists_comm
  refine ⟨fun t i => ?_, fun t i hposted => ?_, h.sorted⟩
  · rw [hmem, h.entry]
    rcases lookup (A i) t with _ | td
    · simp [Entry.ofTermData]
    · simp [Entry.ofTermData]
  · rw [h.entry] at hposted ⊢
    rcases hlookup : lookup (A i) t with _ | td
    · rfl
    · rw [hlookup] at hposted
      cases hposted

/-- Families that are kept apart are replaceable. -/
theorem KeepsApart.replaceable (h : Holds { dbis := db } A) (hapart : KeepsApart A doc replaces)
    (hdoc : doc.WellFormed) : Replaceable db doc replaces := by
  have hstored : ∀ f, (db.termsDb f).get doc.id = (A doc.id f).keys := fun f => h.get f doc.id
  have hafter : ∀ f, doc.termsAfter db replaces f = (A.replace doc replaces doc.id f).keys := by
    intro f
    rw [Document.termsAfter, Index.replace]
    by_cases hf : replaces f = true
    · rw [if_pos hf, if_pos ⟨rfl, hf⟩]
    · rw [if_neg hf, if_neg fun hboth => hf hboth.2, hstored]
  refine ⟨fun t f g hf hg => ?_, fun t f g hf hg => ?_, fun t f g hf hg hrank hold hnew => ?_,
    fun f _ t ht => (hdoc f t ht).2⟩
  · rw [hstored] at hf hg
    exact h.apart doc.id t f g (OrdMap.contains_iff_mem_keys.mpr hf) (OrdMap.contains_iff_mem_keys.mpr hg)
  · rw [hafter] at hf hg
    exact hapart.apart t f g (OrdMap.contains_iff_mem_keys.mpr hf) (OrdMap.contains_iff_mem_keys.mpr hg)
  · rw [hstored] at hold
    have hnot := hapart.moves t f g hf hg hrank (OrdMap.contains_iff_mem_keys.mpr hold)
    rw [OrdMap.contains_iff_mem_keys.mpr hnew] at hnot
    cases hnot

end Holds

/-! ## A file whose attribute becomes a word of its text -/

/-- The transaction that adds `tagged`. -/
def tagging : WriteTransaction := ({} : WriteTransaction).addDocument noFiles tagged

/-- The index of `tagged`. -/
def taggedDb : Database := tagging.commit tagging.pendingOperations.keys

theorem tagging_committed : Committed KeepsApart taggedDb taggedIndex := by
  have hadd : Step KeepsApart ({}, fun _ _ => ∅) (tagging, taggedIndex) :=
    .addDocument noFiles tagged (by decide) (by decide) (by decide)
      ⟨by decide, fun t f g _ _ _ ht => by simp at ht⟩
  exact .transaction .empty (.single hadd) (List.Perm.refl _)

theorem docUrlDb_taggedDb : taggedDb.docUrlDb = DocumentUrlDB.add {} 2 0 [97] := by
  rw [taggedDb, docUrlDb_commit]
  rfl

theorem isForest_taggedDb : taggedDb.docUrlDb.IsForest := by
  rw [docUrlDb_taggedDb]
  exact UrlForest.empty.add (by decide) (by simp) (by simp [DocumentUrlDB.parent]) (.inl rfl)

theorem timesAgree_taggedDb : TimesAgree taggedDb.docTimeDb taggedDb.mtimeDb := by
  have htimes := TimesAgree.empty.put (i := 2) (by decide) (by simp) { mTime := 0, cTime := 0 }
  rw [taggedDb, docTimeDb_commit, mtimeDb_commit]
  exact htimes

theorem replaces_reworded : Replaces taggedDb reworded { documentTerms := true, documentTime := true } where
  forest := isForest_taggedDb
  agrees := tagging_committed.holds.agrees
  times := timesAgree_taggedDb
  stored := by rw [docUrlDb_taggedDb]; decide
  recorded := by rw [taggedDb, docTimeDb_commit]; decide
  replaceable := by
    have hmoves : ∀ t f g, DocumentOperations.replaces { documentTerms := true, documentTime := true } f = true →
        DocumentOperations.replaces { documentTerms := true, documentTime := true } g = true → g.rank < f.rank →
        (taggedIndex reworded.id f).contains t = true → (reworded.family g).contains t = false :=
      fun t f g hf _ hlt _ => by
        cases f
        · exact absurd hlt (Nat.not_lt_zero _)
        · cases hf
        · cases hf
    exact KeepsApart.replaceable tagging_committed.holds ⟨by decide, hmoves⟩ (by decide)
  nonempty := by decide
  directory h := by cases h

theorem replaceDocument_replaces_reworded : ∃ db', PartsReplaced taggedDb reworded
    { documentTerms := true, documentTime := true } db' := by
  obtain ⟨db', hdb'⟩ := WriteTransaction.exists_commitsTo
    (WriteTransaction.replaceDocument { dbis := taggedDb } reworded { documentTerms := true, documentTime := true })
  exact ⟨db', (replaceDocument_replaces replaces_reworded rfl hdb').1⟩

/-- A term that moves from the attributes to the text is not posted afterwards. -/
theorem moved_term_not_posted : ¬ ∀ (db : Database) (doc : Document) (operations : DocumentOperations),
    db.docUrlDb.IsForest → Agrees { dbis := db } → TimesAgree db.docTimeDb db.mtimeDb →
    db.docUrlDb.contains doc.id = true → db.docTimeDb.contains doc.id = true → Apart doc.family →
    doc.WellFormed → (operations.documentTerms = true → doc.terms.keys ≠ []) → operations.documentUrl = false →
    operations.documentData = false → ∀ db',
      (WriteTransaction.replaceDocument { dbis := db } doc operations).CommitsTo db' →
        PartsReplaced db doc operations db' := by
  intro h
  have hparts := h taggedDb retagged { documentTerms := true, xattrTerms := true } isForest_taggedDb
    tagging_committed.holds.agrees timesAgree_taggedDb (by rw [docUrlDb_taggedDb]; decide)
    (by rw [taggedDb, docTimeDb_commit]; decide) (by decide) (by decide) (by decide) rfl rfl _ ⟨_, .refl _, rfl⟩
  have hposted := hparts.posted .terms [97] { positions := [1] } rfl (by decide)
  revert hposted
  decide

end Baloo
