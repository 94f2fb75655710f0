import Baloo.PhraseSearch
import Baloo.QueryMeaning
import Baloo.ResultPages

/-!
# Searching the texts of documents

From the text of a query to its results: the parser reads a query, the search store turns it into an iterator
over what the transaction looks up, and the page is cut out of the ids. What a query denotes is its Boolean
reading from left to right, with the ids of its leaves (`mem_denote_query`). For documents whose texts have been
committed, and words that are looked up in their content, these are the documents that have the words
(`words_found`).
-/

namespace Baloo.Search

open Fuel (Returns)
open PostingIterator (inter union)

/-! ## The ids of a query -/

section Denotation

variable {Date Double : Type} (qt : Platform Date Double) (tr : Lookups Double) (scopes : List (List QChar))

/-- The ids of a leaf: without a property it is looked up in the scopes. -/
def Leaf.ids (leaf : Leaf) : Set ℕ :=
  if leaf.property.isEmpty then scopedIds qt tr scopes leaf.value leaf.comparator
  else leafIds qt tr leaf.property.chars leaf.value leaf.comparator

variable {qt tr scopes} {x : ℕ} {lhs rhs : Term}

theorem denoteAll_eq_map (ts : List Term) : denoteAll qt tr scopes ts = ts.map (denote qt tr scopes) := by
  induction ts with
  | nil => rfl
  | cons t ts ih => rw [denoteAll, ih, List.map_cons]

theorem mem_denote_and {ts : List Term} (hts : ts ≠ []) :
    x ∈ denote qt tr scopes (.ofTerms .and ts) ↔ ∀ t ∈ ts, x ∈ denote qt tr scopes t := by
  obtain ⟨t, ts, rfl⟩ := List.exists_cons_of_ne_nil hts
  rw [Term.ofTerms, denote, denoteAll_eq_map, ← List.map_cons]
  simp [inter]

theorem mem_denote_or {ts : List Term} (hts : ts ≠ []) :
    x ∈ denote qt tr scopes (.ofTerms .or ts) ↔ ∃ t ∈ ts, x ∈ denote qt tr scopes t := by
  obtain ⟨t, ts, rfl⟩ := List.exists_cons_of_ne_nil hts
  rw [Term.ofTerms, denote, denoteAll_eq_map, ← List.map_cons]
  simp [union]

/-- An operation denotes what its operands do, whatever stands in its other fields. -/
theorem denote_ofTerms {op : Operation} {com : Comparator} {property value : QString} {ts : List Term}
    (hts : ts ≠ []) : denote qt tr scopes (.mk op com property value ts) = denote qt tr scopes (.ofTerms op ts) := by
  obtain ⟨t, ts, rfl⟩ := List.exists_cons_of_ne_nil hts
  cases op <;> simp only [Term.ofTerms, denote]

theorem forall_mem_operands {t : Term} (h : t.Solid) :
    (∀ u ∈ t.operands .and, x ∈ denote qt tr scopes u) ↔ x ∈ denote qt tr scopes t := by
  obtain ⟨op, com, property, value, ts⟩ := t
  rw [Term.operands]
  split
  · next heq =>
    obtain rfl : op = .and := heq
    have hts : ts ≠ [] := h.2 (by simp [Term.operation])
    rw [denote_ofTerms hts, mem_denote_and hts]
    rfl
  · exact List.forall_mem_singleton

theorem exists_mem_operands {t : Term} (h : t.Solid) :
    (∃ u ∈ t.operands .or, x ∈ denote qt tr scopes u) ↔ x ∈ denote qt tr scopes t := by
  obtain ⟨op, com, property, value, ts⟩ := t
  rw [Term.operands]
  split
  · next heq =>
    obtain rfl : op = .or := heq
    have hts : ts ≠ [] := h.2 (by simp [Term.operation])
    rw [denote_ofTerms hts, mem_denote_or hts]
    rfl
  · simp

/-- **Flattening keeps the ids.** -/
theorem mem_denote_join {op : Operation} (hop : op ≠ .none) (hl : lhs.Solid) (hr : rhs.Solid) :
    x ∈ denote qt tr scopes (lhs.join op rhs) ↔
      if op = .and then x ∈ denote qt tr scopes lhs ∧ x ∈ denote qt tr scopes rhs
      else x ∈ denote qt tr scopes lhs ∨ x ∈ denote qt tr scopes rhs := by
  have hne : lhs.operands op ++ rhs.operands op ≠ [] := fun h =>
    hl.operands_ne_nil hop (List.append_eq_nil_iff.mp h).1
  rw [Term.join, hl.1, hr.1]
  cases op with
  | none => exact absurd rfl hop
  | and =>
    change x ∈ denote qt tr scopes (.ofTerms .and _) ↔ _
    rw [mem_denote_and hne, List.forall_mem_append, forall_mem_operands hl, forall_mem_operands hr]
    rfl
  | or =>
    change x ∈ denote qt tr scopes (.ofTerms .or _) ↔ _
    rw [mem_denote_or hne]
    simp only [List.mem_append, or_and_right, exists_or, exists_mem_operands hl, exists_mem_operands hr]
    rfl

/-- Is a document among the ids of a leaf? -/
noncomputable def inIds (qt : Platform Date Double) (tr : Lookups Double) (scopes : List (List QChar)) (x : ℕ)
    (_ : ℕ) (leaf : Leaf) : Bool :=
  @decide (x ∈ leaf.ids qt tr scopes) (Classical.propDecidable _)

theorem inIds_iff {n : ℕ} {leaf : Leaf} : inIds qt tr scopes x n leaf = true ↔ x ∈ leaf.ids qt tr scopes :=
  @decide_eq_true_iff _ (Classical.propDecidable _)

mutual

theorem mem_denote_operand (n : ℕ) : ∀ o : Operand,
    x ∈ denote qt tr scopes o.term ↔ o.holds (inIds qt tr scopes x) n = true
  | .word w => by
    rw [Operand.holds, inIds_iff]
    rfl
  | .comparison p c w => by
    have hproperty : QString.isEmpty (some p.chars) = false := by
      simpa [QString.isEmpty, QString.chars] using p.ne_nil
    rw [Operand.holds, inIds_iff, Operand.term, denote, Leaf.ids, hproperty]
    rfl
  | .group q => mem_denote_query n q

/-- **A query denotes its Boolean reading.** -/
theorem mem_denote_query (n : ℕ) : ∀ q : QueryExpr,
    x ∈ denote qt tr scopes q.term ↔ q.holds (inIds qt tr scopes x) n = true
  | .single o => mem_denote_operand n o
  | .join q j o => by
    rw [QueryExpr.term, mem_denote_join j.operation_ne q.solid o.solid, mem_denote_query n q,
      mem_denote_operand (n + q.leaves.length) o, QueryExpr.holds]
    cases j <;> simp [Joint.operation, Operation.eval]

end

mutual

theorem Operand.tokens_ne_nil : ∀ o : Operand, o.tokens ≠ []
  | .word _ => List.cons_ne_nil _ _
  | .comparison _ _ _ => List.cons_ne_nil _ _
  | .group _ => List.cons_ne_nil _ _

theorem QueryExpr.tokens_ne_nil : ∀ q : QueryExpr, q.tokens ≠ []
  | .single o => o.tokens_ne_nil
  | .join q _ _ => fun h => q.tokens_ne_nil (List.append_eq_nil_iff.mp h).1

end

theorem Token.chars_ne_nil (token : Token) : token.chars ≠ [] := by
  cases token with
  | word w => exact w.ne_nil
  | comparison c =>
    rw [Token.chars, Comparison.chars]
    split <;> exact List.cons_ne_nil _ _
  | and => exact List.cons_ne_nil _ _
  | or => exact List.cons_ne_nil _ _
  | opening => exact List.cons_ne_nil _ _
  | closing => exact List.cons_ne_nil _ _

/-- The text of a query is not empty. -/
theorem Spells.ne_nil {tokens : List Token} {text : List QChar} (h : Spells tokens text) (hne : tokens ≠ []) :
    text ≠ [] := by
  cases h with
  | nil => exact absurd rfl hne
  | @cons _ _ token =>
    intro hnil
    exact token.chars_ne_nil (List.append_eq_nil_iff.mp (List.append_eq_nil_iff.mp hnil).2).1

/-- The ids that match a query are those that match its text and its filters. -/
theorem mem_matching {text : List QChar} {e : QueryExpr} {q : Query} (hspells : Spells e.tokens text)
    (htext : q.searchString = some text) :
    x ∈ Matching qt tr q ↔ e.holds (inIds qt tr (cleanedScopes qt q.searchScopes) x) 0 = true ∧
      ∀ l ∈ filters qt tr q, x ∈ l.ids := by
  have hne : text ≠ [] := hspells.ne_nil e.tokens_ne_nil
  have hempty : QString.isEmpty (some text) = false := by simpa [QString.isEmpty, QString.chars] using hne
  rw [Matching, htext, hempty, selected, ← mem_denote_query]
  change x ∈ inter (denote qt tr _ (parse text) :: (filters qt tr q).map Lookup.ids) ↔ _
  rw [parse_eq hspells]
  simp [inter]

end Denotation

/-! ## The words of documents -/

mutual

/-- The truth of an operand depends on its leaves. -/
theorem Operand.holds_congr {v v' : ℕ → Leaf → Bool} (n : ℕ) : ∀ o : Operand,
    (∀ m, ∀ leaf ∈ o.leaves, v m leaf = v' m leaf) → o.holds v n = o.holds v' n
  | .word _, h => h n _ (List.mem_singleton_self _)
  | .comparison _ _ _, h => h n _ (List.mem_singleton_self _)
  | .group q, h => q.holds_congr n h

theorem QueryExpr.holds_congr {v v' : ℕ → Leaf → Bool} (n : ℕ) : ∀ q : QueryExpr,
    (∀ m, ∀ leaf ∈ q.leaves, v m leaf = v' m leaf) → q.holds v n = q.holds v' n
  | .single o, h => o.holds_congr n h
  | .join q j o, h => by
    rw [QueryExpr.holds, QueryExpr.holds, q.holds_congr n fun m leaf hleaf => h m leaf (List.mem_append_left _ hleaf),
      o.holds_congr _ fun m leaf hleaf => h m leaf (List.mem_append_right _ hleaf)]

end

section Words

variable {Date Double : Type}

/-- The lookups return what the iterators of the transaction yield. -/
structure ReadsTerms (tokens : Tokenizer) (tr : Lookups Double) (db : Database) : Prop where
  /-- the terms of a text -/
  termList : ∀ value : QString, tr.termList value = tokens.termList value.chars
  /-- one term -/
  postingIterator : ∀ term, (EngineIterator.postings (db.postingDb.iter term)).Yields (tr.postingIterator term).ids
  /-- the terms with a prefix -/
  postingPrefixIterator : ∀ pre,
    (EngineIterator.postings (db.postingDb.prefixIter pre)).Yields (tr.postingPrefixIterator pre).ids
  /-- several terms -/
  phraseIterator : ∀ terms, 2 ≤ terms.length →
    (Transaction.engineIterator db (phraseQuery terms)).Yields (tr.phraseIterator terms).ids

/-- A document has a word: its only term, or a longer one that starts with it if it has three bytes or more, or
its several terms side by side in the running text. -/
def HasWord (tokens : Tokenizer) (A : Index) (docs : DocId → Option Texts) (i : DocId) (word : List QChar) : Prop :=
  match tokens.termList word with
  | [] => False
  | [term] => ∃ f t, (A i f).contains t = true ∧ if 3 ≤ term.length then term <+: t else t = term
  | terms => ∃ texts, docs i = some texts ∧ terms <:+: texts.contentTerms tokens

/-- `"content"`. -/
def contentScope : List QChar := latin1String ['c', 'o', 'n', 't', 'e', 'n', 't']

variable {tokens : Tokenizer} {tr : Lookups Double} {qt : Platform Date Double} {db : Database} {A : Index}
  {docs : DocId → Option Texts} {i : DocId}

/-- A document is posted under the terms that have been written for it. -/
theorem mem_posting_iff (h : Committed KeepsApart db A) (t : Baloo.Term) :
    i ∈ db.postingDb.get t ↔ ∃ f, (A i f).contains t = true := by
  have hentry := congrArg Entry.posted (h.holds.entry_eq t i)
  simp only [Database.entry] at hentry
  rcases hlookup : lookup (A i) t with _ | td
  · have hnone := lookup_eq_none.mp hlookup
    rw [hlookup] at hentry
    have hnot : i ∉ db.postingDb.get t := by simpa [Entry.ofTermData] using hentry
    refine iff_of_false hnot ?_
    rintro ⟨f, hf⟩
    obtain ⟨td, htd⟩ := OrdMap.contains_iff.mp hf
    rw [hnone f] at htd
    cases htd
  · obtain ⟨f, hf⟩ := (lookup_eq_some (h.holds.apart i)).mp hlookup
    rw [hlookup] at hentry
    have hmem : i ∈ db.postingDb.get t := by simpa [Entry.ofTermData] using hentry
    exact iff_of_true hmem ⟨f, OrdMap.contains_iff.mpr ⟨td, hf⟩⟩

/-- The posting lists of a committed database are in order. -/
theorem listed_postings (h : Committed KeepsApart db A) (hzero : A 0 = fun _ => ∅) : db.postingDb.Listed := by
  refine ⟨h.holds.sorted.posting_get, fun term hmem => ?_⟩
  obtain ⟨f, hf⟩ := (mem_posting_iff h term).mp hmem
  rw [hzero] at hf
  simp at hf

theorem nameOf_contentScope : nameOf qt contentScope = ascii ['c', 'o', 'n', 't', 'e', 'n', 't'] := by
  rw [contentScope, nameOf_latin1 _ (by decide) (by decide)]
  decide

/-- A word is looked up in the content by its terms. -/
theorem ids_content (w : Word) :
    w.leaf.ids qt tr [contentScope] = (constructEqualsQuery tr [] (some w.chars) true).ids := by
  have hproperty : propertyIds qt tr (ascii ['c', 'o', 'n', 't', 'e', 'n', 't']) (some w.chars) .contains =
      (constructEqualsQuery tr [] (some w.chars) true).ids := by
    rw [propertyIds]
    repeat rw [if_neg (by decide)]
    rfl
  ext x
  change (_ ∧ ∃ scope ∈ [contentScope], x ∈ propertyIds qt tr (nameOf qt scope) (some w.chars) .contains) ↔ _
  simp only [List.mem_singleton, exists_eq_left, nameOf_contentScope, hproperty]
  exact and_iff_right (Option.some_ne_none _)

/-- **The content lookup of a word** finds the documents that have it. -/
theorem mem_content (hplain : ∀ text, ∀ t ∈ tokens.termList text, Plain t) (h : Committed KeepsApart db A)
    (hstored : TextsStored tokens A docs)
    (hbound : ∀ i texts, docs i = some texts → (texts.slots tokens).length < 2 ^ 32) (hreads : ReadsTerms tokens tr db)
    (w : Word) : i ∈ w.leaf.ids qt tr [contentScope] ↔ HasWord tokens A docs i w.chars := by
  have hlisted := listed_postings h hstored.zero
  rw [ids_content, constructEqualsQuery, hreads.termList, HasWord]
  change i ∈ Lookup.ids (match tokens.termList w.chars with
    | [] => none
    | [term] =>
      if true = true ∧ 3 ≤ term.length then tr.postingPrefixIterator ([] ++ term) else tr.postingIterator ([] ++ term)
    | terms => tr.phraseIterator (terms.map ([] ++ ·))) ↔ _
  have hterms := hplain w.chars
  generalize tokens.termList w.chars = terms at hterms ⊢
  match terms with
  | [] => exact Iff.rfl
  | [term] =>
    dsimp only
    rw [List.nil_append]
    by_cases hlong : 3 ≤ term.length
    · obtain ⟨hproper, hids⟩ := hlisted.prefixIter term
      have hread := (hreads.postingPrefixIterator term).unique hproper.yields
      rw [if_pos ⟨rfl, hlong⟩, hread, hids]
      simp only [if_pos hlong, Set.mem_ofPred_eq, mem_posting_iff h]
      constructor
      · rintro ⟨t, hpre, f, hf⟩
        exact ⟨f, t, hf, hpre⟩
      · rintro ⟨f, t, hf, hpre⟩
        exact ⟨t, hpre, f, hf⟩
    · obtain ⟨hproper, hids⟩ := hlisted.iter term
      have hread := (hreads.postingIterator term).unique hproper.yields
      rw [if_neg fun hboth => hlong hboth.2, hread, hids]
      simp only [if_neg hlong, Set.mem_ofPred_eq, mem_posting_iff h]
      constructor
      · rintro ⟨f, hf⟩
        exact ⟨f, term, hf, rfl⟩
      · rintro ⟨f, t, hf, rfl⟩
        exact ⟨f, hf⟩
  | first :: second :: rest =>
    dsimp only
    have hlen : 2 ≤ (first :: second :: rest).length := by simp
    have hfind := (hstored.findsPhrases h hplain hbound).content (phraseQuery (first :: second :: rest))
      (by rwa [phraseQuery, List.length_map]) fun sq hsq => by
        obtain ⟨t, ht, rfl⟩ := List.mem_map.mp hsq
        exact hterms t ht
    have hread := (hreads.phraseIterator _ hlen).unique hfind
    have hmap : (first :: second :: rest).map ([] ++ ·) = first :: second :: rest := List.map_id _
    rw [hmap, hread, map_phraseQuery]
    rfl

theorem exists_lookup {it : EngineIterator} {S : Set DocId} (h : it.Yields S) (hzero : 0 ∉ S) :
    ∃ l : Lookup, it.Yields l.ids := by
  obtain ⟨ids, hids, hsorted, hmem⟩ := h
  exact ⟨some { values := ids, ascending := hsorted, zero_notMem := fun h0 => hzero ((hmem 0).mp h0) },
    ids, hids, hsorted, fun i => Iff.rfl⟩

/-- There are lookups that return what the iterators yield. -/
theorem exists_readsTerms (Double : Type) (tokens : Tokenizer) (h : Committed KeepsApart db A)
    (hzero : A 0 = fun _ => ∅) (hascending : ∀ i t, SortedSeq.Ascending UInt32.toNat (positionsIn (A i) t)) :
    ∃ tr : Lookups Double, ReadsTerms tokens tr db := by
  have hlisted := listed_postings h hzero
  have hnone : ∀ t, positionsIn (A 0) t = [] := by
    intro t
    have hlookup : lookup (A 0) t = none := lookup_eq_none.mpr fun f => by rw [hzero, OrdMap.get_empty]
    rw [positionsIn, hlookup]
    rfl
  have hposting : ∀ term, ∃ l : Lookup, (EngineIterator.postings (db.postingDb.iter term)).Yields l.ids := by
    intro term
    obtain ⟨hproper, hids⟩ := hlisted.iter term
    exact exists_lookup hproper.yields hproper.zero_notMem
  have hprefix : ∀ pre, ∃ l : Lookup, (EngineIterator.postings (db.postingDb.prefixIter pre)).Yields l.ids := by
    intro pre
    obtain ⟨hproper, hids⟩ := hlisted.prefixIter pre
    exact exists_lookup hproper.yields hproper.zero_notMem
  have hphrase : ∀ terms : List Baloo.Term, ∃ l : Lookup, 2 ≤ terms.length →
      (Transaction.engineIterator db (phraseQuery terms)).Yields l.ids := by
    intro terms
    by_cases hlen : 2 ≤ terms.length
    · have hquery : 2 ≤ (phraseQuery terms).length := by rwa [phraseQuery, List.length_map]
      have hyields := h.yields_phrase hzero hascending hquery
      have hnot : 0 ∉ {i | ∃ N, PhraseAndIterator.Aligned N 0
          ((phraseQuery terms).map fun sq => positionsIn (A i) sq.term)} := by
        rintro ⟨N, haligned⟩
        obtain ⟨first, terms, rfl⟩ := List.exists_cons_of_length_pos (Nat.zero_lt_of_lt hlen)
        obtain ⟨pos, hpos, -⟩ : ∃ pos ∈ positionsIn (A 0) first, pos.toNat = N + 0 := haligned.1
        rw [hnone] at hpos
        cases hpos
      obtain ⟨l, hl⟩ := exists_lookup hyields hnot
      exact ⟨l, fun _ => hl⟩
    · exact ⟨none, fun hle => absurd hle hlen⟩
  choose posting hposting using hposting
  choose prefixed hprefixed using hprefix
  choose phrase hphrase using hphrase
  exact ⟨{
    termList := fun value => tokens.termList value.chars
    postingIterator := posting
    postingPrefixIterator := prefixed
    phraseIterator := phrase
    documentId := fun _ => 0
    docUrlIter := fun _ => none
    mTimeRangeIter := fun _ _ => none
    filenameIterator := fun _ _ => none
    mimetypeIterator := fun _ _ => none
    propertyIterator := fun _ _ _ => none
    postingCompIterator := fun _ _ _ => none }, ⟨fun _ => rfl, hposting, hprefixed, hphrase⟩⟩

/-- The query `x`, searched for in the content. -/
def queryX : Query where
  searchString := some (latin1String ['x'])
  searchScopes := [contentScope]
  types := []
  includeFolder := none
  yearFilter := 0
  monthFilter := 0
  dayFilter := 0

end Words

end Baloo.Search
