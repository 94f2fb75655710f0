import Baloo.PostingEnumeration
import Baloo.SearchStore

/-!
# What queries denote

A term denotes a set of ids: an intersection, a union, or what the lookups of a leaf return, where a
leaf without a property is looked up in every scope. The iterator built from a query enumerates the
ids that its term and all its filters denote, ascending and each once (`query_denotes`).

Null pointers never get in the way: a tree of lookups denotes the empty set wherever the source would
have pruned it.
-/

namespace Baloo.Search

open Fuel (Returns)
open PostingIterator (Answers inter union)

/-! ## Denotations -/

/-- The ids a lookup finds. -/
def Lookup.ids : Lookup → Set ℕ
  | none => ∅
  | some l => {x | x ∈ l.values}

/-- Names of properties with lookups of their own. -/
def specialNames : List QByteArray :=
  [ascii ['t', 'y', 'p', 'e'], ascii ['k', 'i', 'n', 'd'],
    ascii ['i', 'n', 'c', 'l', 'u', 'd', 'e', 'f', 'o', 'l', 'd', 'e', 'r'],
    ascii ['m', 'o', 'd', 'i', 'f', 'i', 'e', 'd'], ascii ['m', 't', 'i', 'm', 'e'],
    ascii ['t', 'a', 'g'], ascii ['f', 'i', 'l', 'e', 'n', 'a', 'm', 'e'],
    ascii ['m', 'i', 'm', 'e', 't', 'y', 'p', 'e'], ascii ['m', 'e', 't', 'a', 'd', 'a', 't', 'a'], []]

section

variable {Date Double : Type} (qt : Platform Date Double) (tr : Lookups Double)

/-- Nothing is known about a property. -/
def Unknown (name : QByteArray) : Prop :=
  name ∉ specialNames ∧ (propertyInfo qt name).2.2 = .unknownType

instance (name : QByteArray) : Decidable (Unknown qt name) :=
  inferInstanceAs (Decidable (_ ∧ _))

/-- The name of a property. -/
def nameOf (property : List QChar) : QByteArray := toUtf8 qt (toLower qt property)

/-- The ids with a value of a property, for a property that is known and no abbreviation. -/
def propertyIds (name : QByteArray) (value : QString) (com : Comparator) : Set ℕ :=
  if name = ascii ['t', 'y', 'p', 'e'] ∨ name = ascii ['k', 'i', 'n', 'd'] then
    (constructTypeQuery qt tr value).ids
  else if name = ascii ['i', 'n', 'c', 'l', 'u', 'd', 'e', 'f', 'o', 'l', 'd', 'e', 'r'] then
    (constructFolderQuery qt tr value).ids
  else if name = ascii ['m', 'o', 'd', 'i', 'f', 'i', 'e', 'd'] ∨
      name = ascii ['m', 't', 'i', 'm', 'e'] then
    (constructTimeQuery qt tr value com).ids
  else if name = ascii ['f', 'i', 'l', 'e', 'n', 'a', 'm', 'e'] then
    (tr.filenameIterator value (com = .contains)).ids
  else if name = ascii ['m', 'i', 'm', 'e', 't', 'y', 'p', 'e'] then
    (tr.mimetypeIterator value (com = .contains)).ids
  else if name = ascii ['m', 'e', 't', 'a', 'd', 'a', 't', 'a'] then
    {x | ∃ pre ∈ defaultIndexedProperties qt,
      x ∈ (tr.propertyIterator value pre (com = .contains)).ids}
  else if name = [] then (constructPropertyQuery qt tr false [] .qString value com).ids
  else
    let info := propertyInfo qt name
    (constructPropertyQuery qt tr info.1 info.2.1 info.2.2 value com).ids

/-- The comparator a term is constructed with. -/
def Comparator.orContains (com : Comparator) : Comparator := if com = .auto then .contains else com

/-- The ids found in any of the scopes. -/
def scopedIds (scopes : List (List QChar)) (value : QString) (com : Comparator) : Set ℕ :=
  {x | value ≠ none ∧ ∃ scope ∈ scopes, x ∈ propertyIds qt tr (nameOf qt scope) value com.orContains}

/-- The ids of a leaf with a property: `tag` is short for a term or for `tags`, and what looks like a
comparison with an unknown property is text. -/
def leafIds (property : List QChar) (value : QString) (com : Comparator) : Set ℕ :=
  if value = none then ∅
  else if nameOf qt property = ascii ['t', 'a', 'g'] then
    if com = .equal then
      (tr.postingIterator (ascii ['T', 'A', 'G', '-'] ++ toUtf8 qt value.chars)).ids
    else propertyIds qt tr (ascii ['t', 'a', 'g', 's']) value com.orContains
  else if Unknown qt (nameOf qt property) then
    scopedIds qt tr knownScopes (some (property ++ (com.chars ++ value.chars))) .equal
  else propertyIds qt tr (nameOf qt property) value com

mutual

/-- The ids a term denotes. A term without subterms is a leaf; an operation without operands denotes
nothing, and so do operands without an operation. -/
def denote (scopes : List (List QChar)) : Term → Set ℕ
  | .mk op com property value [] =>
    if property.isEmpty then scopedIds qt tr scopes value com
    else if op = .none then leafIds qt tr property.chars value com
    else ∅
  | .mk .none _ _ _ (_ :: _) => ∅
  | .mk .and _ _ _ (t :: ts) => inter (denote scopes t :: denoteAll scopes ts)
  | .mk .or _ _ _ (t :: ts) => union (denote scopes t :: denoteAll scopes ts)

/-- The ids of each of a list of terms. -/
def denoteAll (scopes : List (List QChar)) : List Term → List (Set ℕ)
  | [] => []
  | t :: ts => denote scopes t :: denoteAll scopes ts

end

/-- The ids a query selects: the intersection of the term of its text, if there is one, with all
filters. -/
def selected (term : Option Term) (q : Query) : Set ℕ :=
  inter ((term.map (denote qt tr (cleanedScopes qt q.searchScopes))).toList ++
    (filters qt tr q).map Lookup.ids)

/-! ## Lookups and operations -/

theorem Lookup.proper (l : Lookup) : l.tree.Proper := by
  cases l with
  | none => exact .null
  | some l => exact .vector l.ascending l.zero_notMem

theorem Lookup.ids_tree (l : Lookup) : l.tree.ids = l.ids := by
  cases l with
  | none => exact PostingTree.ids_null
  | some l => exact PostingTree.ids_vector l.values

end

theorem isNull_iff {t : PostingTree} : isNull t = true ↔ t = .null := by
  cases t <;> simp [isNull]

theorem inter_singleton (S : Set ℕ) : inter [S] = S := by
  ext x
  simp [inter]

theorem union_singleton (S : Set ℕ) : union [S] = S := by
  ext x
  simp [union]

/-- What the loop over the subterms collects. -/
theorem collect_cases (op : Operation) (iterators : List PostingTree) :
    (collect op iterators = none ∧ op = .and ∧ .null ∈ iterators) ∨
      ∃ vec, collect op iterators = some vec ∧ (op = .and → vec = iterators) ∧
        (∀ t ∈ vec, t ∈ iterators) ∧ ∀ t ∈ iterators, t ∈ vec ∨ t = .null := by
  induction iterators with
  | nil => exact Or.inr ⟨[], rfl, fun _ => rfl, fun t ht => ht, fun t ht => Or.inl ht⟩
  | cons t iterators ih =>
    rw [collect]
    rcases hnull : isNull t with _ | _
    · rw [if_neg Bool.false_ne_true]
      rcases ih with ⟨hnone, hop, hmem⟩ | ⟨vec, hvec, hand, hsub, hall⟩
      · exact Or.inl ⟨by rw [hnone]; rfl, hop, List.mem_cons_of_mem _ hmem⟩
      · refine Or.inr ⟨t :: vec, by rw [hvec]; rfl, fun hop => by rw [hand hop], ?_, ?_⟩
        · intro u hu
          rcases List.mem_cons.mp hu with rfl | hu
          · exact List.mem_cons_self ..
          · exact List.mem_cons_of_mem _ (hsub u hu)
        · intro u hu
          rcases List.mem_cons.mp hu with rfl | hu
          · exact Or.inl (List.mem_cons_self ..)
          · exact (hall u hu).imp (List.mem_cons_of_mem _) id
    · obtain rfl := isNull_iff.mp hnull
      rw [if_pos rfl]
      by_cases hop : op = .and
      · exact Or.inl ⟨if_pos hop, hop, List.mem_cons_self ..⟩
      · rw [if_neg hop]
        rcases ih with ⟨-, hand, -⟩ | ⟨vec, hvec, hand, hsub, hall⟩
        · exact absurd hand hop
        · refine Or.inr ⟨vec, hvec, fun h => absurd h hop, ?_, ?_⟩
          · exact fun u hu => List.mem_cons_of_mem _ (hsub u hu)
          · intro u hu
            rcases List.mem_cons.mp hu with rfl | hu
            · exact Or.inr rfl
            · exact hall u hu

/-- What an operation on trees denotes. -/
def combined (op : Operation) (Ss : List (Set ℕ)) : Set ℕ := if op = .and then inter Ss else union Ss

theorem combined_singleton (op : Operation) (S : Set ℕ) : combined op [S] = S := by
  rw [combined]
  split
  · exact inter_singleton S
  · exact union_singleton S

/-- **Pruning null pointers keeps the denotation.** -/
theorem combine_denotes {op : Operation} {iterators : List PostingTree}
    (h : ∀ t ∈ iterators, t.Proper) :
    (combine op iterators).Proper ∧
      (combine op iterators).ids = combined op (iterators.map PostingTree.ids) := by
  rw [combine]
  rcases collect_cases op iterators with ⟨hnone, rfl, hmem⟩ | ⟨vec, hvec, hand, hsub, hall⟩
  · -- an operand of an intersection is missing
    rw [hnone]
    refine ⟨.null, ?_⟩
    rw [PostingTree.ids_null, combined, if_pos rfl]
    symm
    rw [Set.eq_empty_iff_forall_notMem]
    intro x hx
    have hxnull := hx.2 _ (List.mem_map_of_mem hmem)
    rw [PostingTree.ids_null] at hxnull
    exact hxnull
  · rw [hvec]
    have hproper : ∀ t ∈ vec, t.Proper := fun t ht => h t (hsub t ht)
    have hcombined : combined op (iterators.map PostingTree.ids) = combined op (vec.map PostingTree.ids) := by
      by_cases hop : op = .and
      · rw [hand hop]
      · rw [combined, combined, if_neg hop, if_neg hop]
        ext x
        constructor
        · rintro ⟨S, hS, hx⟩
          obtain ⟨t, ht, rfl⟩ := List.mem_map.mp hS
          rcases hall t ht with ht | rfl
          · exact ⟨_, List.mem_map_of_mem ht, hx⟩
          · rw [PostingTree.ids_null] at hx
            exact hx.elim
        · rintro ⟨S, hS, hx⟩
          obtain ⟨t, ht, rfl⟩ := List.mem_map.mp hS
          exact ⟨_, List.mem_map_of_mem (hsub t ht), hx⟩
    rw [hcombined]
    match vec, hproper with
    | [], _ =>
      refine ⟨.null, ?_⟩
      show PostingTree.ids .null = combined op []
      rw [PostingTree.ids_null, combined, PostingIterator.inter_nil]
      split
      · rfl
      · ext x
        simp [union]
    | [t], hproper => exact ⟨hproper t (List.mem_singleton_self t), (combined_singleton op _).symm⟩
    | t :: u :: ts, hproper =>
      show (if op = .and then PostingTree.and _ else PostingTree.or _).Proper ∧
        (if op = .and then PostingTree.and _ else PostingTree.or _).ids = _
      rw [combined]
      split
      · exact ⟨.and hproper, PostingTree.ids_and _⟩
      · exact ⟨.or hproper, PostingTree.ids_or _⟩

/-! ## Leaves -/

section

variable {Date Double : Type} (qt : Platform Date Double) (tr : Lookups Double)

/-- With enough fuel a term is turned into a tree that denotes `S`. -/
def Constructs (term : Term) (S : Set ℕ) : Prop :=
  ∃ t, Returns (fun n => constructQuery qt tr n term) t ∧ t.Proper ∧ t.ids = S

variable {qt tr}

theorem constructs_null {term : Term} (hop : term.operation = .none) (hvalue : term.value = none) :
    Constructs qt tr term ∅ := by
  refine ⟨.null, Returns.succ ⟨0, fun n _ => ?_⟩, .null, PostingTree.ids_null⟩
  show constructQuery qt tr (n + 1) term = _
  rw [constructQuery, if_neg (by simp [hop]), if_pos hvalue]

/-- A lookup by itself. -/
theorem constructs_lookup {term : Term} {l : Lookup}
    (h : ∀ n, constructQuery qt tr (n + 1) term = some l.tree) : Constructs qt tr term l.ids :=
  ⟨l.tree, Returns.succ ⟨0, fun n _ => h n⟩, l.proper, l.ids_tree⟩

/-- A leaf whose property is known and no abbreviation. -/
theorem constructs_property {term : Term} (hop : term.operation = .none) (hvalue : term.value ≠ none)
    (htag : nameOf qt term.property.chars ≠ ascii ['t', 'a', 'g'])
    (hunknown : ¬ Unknown qt (nameOf qt term.property.chars)) :
    Constructs qt tr term
      (propertyIds qt tr (nameOf qt term.property.chars) term.value term.comparator) := by
  have hleaf : ¬ (term.operation = .and ∨ term.operation = .or) := by simp [hop]
  have hstep := fun n => constructQuery.eq_2 qt tr term n
  simp only [if_neg hleaf, if_neg hvalue] at hstep
  simp only [nameOf] at htag hunknown ⊢
  generalize toUtf8 qt (toLower qt term.property.chars) = name at *
  rw [propertyIds]
  by_cases htype : name = ascii ['t', 'y', 'p', 'e'] ∨ name = ascii ['k', 'i', 'n', 'd']
  · rw [if_pos htype]
    exact constructs_lookup fun n => (hstep n).trans (if_pos htype)
  simp only [if_neg htype] at hstep ⊢
  by_cases hfolder : name = ascii ['i', 'n', 'c', 'l', 'u', 'd', 'e', 'f', 'o', 'l', 'd', 'e', 'r']
  · rw [if_pos hfolder]
    exact constructs_lookup fun n => (hstep n).trans (if_pos hfolder)
  simp only [if_neg hfolder] at hstep ⊢
  by_cases htime : name = ascii ['m', 'o', 'd', 'i', 'f', 'i', 'e', 'd'] ∨
      name = ascii ['m', 't', 'i', 'm', 'e']
  · rw [if_pos htime]
    exact constructs_lookup fun n => (hstep n).trans (if_pos htime)
  simp only [if_neg htime, if_neg htag] at hstep ⊢
  by_cases hfilename : name = ascii ['f', 'i', 'l', 'e', 'n', 'a', 'm', 'e']
  · rw [if_pos hfilename]
    exact constructs_lookup fun n => (hstep n).trans (if_pos hfilename)
  simp only [if_neg hfilename] at hstep ⊢
  by_cases hmimetype : name = ascii ['m', 'i', 'm', 'e', 't', 'y', 'p', 'e']
  · rw [if_pos hmimetype]
    exact constructs_lookup fun n => (hstep n).trans (if_pos hmimetype)
  simp only [if_neg hmimetype] at hstep ⊢
  by_cases hmetadata : name = ascii ['m', 'e', 't', 'a', 'd', 'a', 't', 'a']
  · rw [if_pos hmetadata]
    refine ⟨_, Returns.succ ⟨0, fun n _ => (hstep n).trans (if_pos hmetadata)⟩, .or fun t ht => ?_, ?_⟩
    · obtain ⟨pre, -, rfl⟩ := List.mem_map.mp ht
      exact Lookup.proper _
    · rw [PostingTree.ids_or, List.map_map]
      ext x
      constructor
      · rintro ⟨S, hS, hx⟩
        obtain ⟨pre, hpre, rfl⟩ := List.mem_map.mp hS
        exact ⟨pre, hpre, by rw [← Lookup.ids_tree]; exact hx⟩
      · rintro ⟨pre, hpre, hx⟩
        exact ⟨_, List.mem_map_of_mem hpre, by rw [← Lookup.ids_tree] at hx; exact hx⟩
  simp only [if_neg hmetadata] at hstep ⊢
  by_cases hempty : name = []
  · rw [if_pos hempty]
    exact constructs_lookup fun n => (hstep n).trans (if_pos hempty)
  simp only [if_neg hempty] at hstep ⊢
  have hknown : (propertyInfo qt name).2.2 ≠ .unknownType := by
    intro hinfo
    refine hunknown ⟨?_, hinfo⟩
    rw [not_or] at htype htime
    simp [specialNames, htype, hfolder, htime, htag, hfilename, hmimetype, hmetadata, hempty]
  exact constructs_lookup fun n => (hstep n).trans (if_neg hknown)

/-- An operation with operands. -/
theorem constructs_ofTerms {op : Operation} (hop : op = .and ∨ op = .or) {ts : List Term}
    {Ss : List (Set ℕ)} (h : List.Forall₂ (Constructs qt tr) ts Ss) :
    Constructs qt tr (.ofTerms op ts) (combined op Ss) := by
  have htrees : ∃ trees, Returns (fun n => ts.mapM (constructQuery qt tr n)) trees ∧
      (∀ t ∈ trees, t.Proper) ∧ trees.map PostingTree.ids = Ss := by
    induction h with
    | nil => exact ⟨[], ⟨0, fun n _ => by simp⟩, fun t ht => absurd ht List.not_mem_nil, rfl⟩
    | cons hterm _ ih =>
      obtain ⟨t, ht, hproper, rfl⟩ := hterm
      obtain ⟨trees, htrees, hall, rfl⟩ := ih
      refine ⟨t :: trees, ?_, List.forall_mem_cons.mpr ⟨hproper, hall⟩, rfl⟩
      simp only [List.mapM_cons]
      exact ht.bind (htrees.bind (Returns.pure _))
  obtain ⟨trees, htrees, hproper, rfl⟩ := htrees
  obtain ⟨hcombine, hids⟩ := @combine_denotes op trees hproper
  refine ⟨combine op trees, Returns.succ ?_, hcombine, hids⟩
  have hstep : ∀ n, constructQuery qt tr (n + 1) (.ofTerms op ts) =
      (ts.mapM (constructQuery qt tr n)).map (combine op) := fun n => if_pos hop
  simp only [hstep]
  exact htrees.map _

/-! ### Scopes -/

theorem nameOf_latin1 (s : List Char) (hs : isAscii (latin1String s) = true)
    (hlower : isAscii ((latin1String s).map fun c =>
      if latin1Char 'A' ≤ c ∧ c ≤ latin1Char 'Z' then c + 0x20 else c) = true) :
    nameOf qt (latin1String s) = ((latin1String s).map fun c =>
      if latin1Char 'A' ≤ c ∧ c ≤ latin1Char 'Z' then c + 0x20 else c).map fun c =>
        UInt8.ofNat c.toNat := by
  rw [nameOf, toLower, if_pos hs, toUtf8, if_pos hlower]

theorem nameOf_scope {scope : List QChar} (h : scope ∈ knownScopes) :
    nameOf qt scope ≠ ascii ['t', 'a', 'g'] ∧ ¬ Unknown qt (nameOf qt scope) := by
  rcases List.mem_cons.mp h with rfl | h
  · rw [nameOf_latin1 _ (by decide) (by decide)]
    exact ⟨by decide, fun hunknown => hunknown.1 (by decide)⟩
  · rcases List.mem_cons.mp h with rfl | h
    · rw [nameOf_latin1 _ (by decide) (by decide)]
      exact ⟨by decide, fun hunknown => nomatch hunknown.2⟩
    · obtain rfl := List.mem_singleton.mp h
      rw [nameOf_latin1 _ (by decide) (by decide)]
      exact ⟨by decide, fun hunknown => hunknown.1 (by decide)⟩

theorem nameOf_tags : nameOf qt (latin1String ['t', 'a', 'g', 's']) = ascii ['t', 'a', 'g', 's'] := by
  rw [nameOf_latin1 _ (by decide) (by decide)]
  decide

theorem cleanedScopes_known (scopes : List (List QChar)) :
    cleanedScopes qt scopes ≠ [] ∧ ∀ scope ∈ cleanedScopes qt scopes, scope ∈ knownScopes := by
  rw [cleanedScopes]
  split
  · exact ⟨by decide, fun scope h => h⟩
  · next hne => exact ⟨hne, fun scope h => by simpa using (List.mem_filter.mp h).2⟩

/-- The leaf of one scope. -/
def scopeLeaf (value : QString) (com : Comparator) (scope : List QChar) : Term :=
  .ofProperty (some scope) value com

theorem isEmpty_scopeLeaf (value : QString) (com : Comparator) (scope : List QChar) :
    (scopeLeaf value com scope).isEmpty = false := by
  cases com <;> simp [scopeLeaf, Term.ofProperty, Term.isEmpty]

/-- Further leaves are appended to the disjunction. -/
theorem foldl_scopeLeaf (value : QString) (com : Comparator) (scopes : List (List QChar))
    {ts : List Term} (hts : ts ≠ []) :
    scopes.foldl (fun expanded scope => Term.join expanded .or (scopeLeaf value com scope))
      (Term.ofTerms .or ts) = Term.ofTerms .or (ts ++ scopes.map (scopeLeaf value com)) := by
  induction scopes generalizing ts with
  | nil => rw [List.map_nil, List.append_nil, List.foldl_nil]
  | cons scope scopes ih =>
    have hempty : (Term.ofTerms .or ts).isEmpty = false := by
      simpa [Term.ofTerms, Term.isEmpty, QString.isEmpty, QString.chars] using hts
    have hjoin : (Term.ofTerms .or ts).join .or (scopeLeaf value com scope) =
        .ofTerms .or (ts ++ [scopeLeaf value com scope]) := by
      rw [Term.join, hempty, isEmpty_scopeLeaf]
      rfl
    rw [List.foldl_cons, hjoin, ih (by simp), List.map_cons, List.append_assoc, List.singleton_append]

/-- One scope gives a leaf, several give the disjunction of their leaves. -/
theorem expandLeaf_cases {scopes : List (List QChar)} (hne : scopes ≠ []) (term : Term) :
    (∃ scope, scopes = [scope] ∧ expandLeaf scopes term = scopeLeaf term.value term.comparator scope) ∨
      expandLeaf scopes term = .ofTerms .or (scopes.map (scopeLeaf term.value term.comparator)) := by
  have hleaf : ∀ scope, Term.join .empty .or (scopeLeaf term.value term.comparator scope) =
      scopeLeaf term.value term.comparator scope := fun scope => if_pos rfl
  match scopes with
  | [] => exact absurd rfl hne
  | [scope] => exact Or.inl ⟨scope, rfl, hleaf scope⟩
  | scope :: scope' :: scopes =>
    refine Or.inr ?_
    have hjoin : Term.join (scopeLeaf term.value term.comparator scope) .or
        (scopeLeaf term.value term.comparator scope') = .ofTerms .or
          [scopeLeaf term.value term.comparator scope, scopeLeaf term.value term.comparator scope'] := by
      rw [Term.join, isEmpty_scopeLeaf, isEmpty_scopeLeaf]
      rfl
    have hfold := foldl_scopeLeaf term.value term.comparator scopes (List.cons_ne_nil
      (scopeLeaf term.value term.comparator scope) [scopeLeaf term.value term.comparator scope'])
    rw [← hjoin, ← hleaf scope] at hfold
    exact hfold

/-- The ids of one scope. -/
def scopeIds (qt : Platform Date Double) (tr : Lookups Double) (value : QString) (com : Comparator)
    (scope : List QChar) : Set ℕ :=
  {x | value ≠ none ∧ x ∈ propertyIds qt tr (nameOf qt scope) value com.orContains}

theorem constructs_scopeLeaf {scope : List QChar} (h : scope ∈ knownScopes) (value : QString)
    (com : Comparator) : Constructs qt tr (scopeLeaf value com scope) (scopeIds qt tr value com scope) := by
  obtain ⟨htag, hunknown⟩ := @nameOf_scope _ _ qt _ h
  by_cases hvalue : value = none
  · subst hvalue
    have hempty : scopeIds qt tr none com scope = ∅ := by
      ext x
      simp [scopeIds]
    rw [hempty]
    exact constructs_null rfl rfl
  · have hids : scopeIds qt tr value com scope =
        propertyIds qt tr (nameOf qt scope) value com.orContains := by
      ext x
      simp [scopeIds, hvalue]
    rw [hids]
    exact @constructs_property _ _ qt tr (scopeLeaf value com scope) rfl hvalue htag hunknown

/-- A leaf without property is looked up in the scopes. -/
theorem constructs_expandLeaf {scopes : List (List QChar)} (hne : scopes ≠ [])
    (hknown : ∀ scope ∈ scopes, scope ∈ knownScopes) (term : Term) :
    Constructs qt tr (expandLeaf scopes term) (scopedIds qt tr scopes term.value term.comparator) := by
  rcases expandLeaf_cases hne term with ⟨scope, rfl, hleaf⟩ | hleaf
  · rw [hleaf]
    have hids : scopedIds qt tr [scope] term.value term.comparator =
        scopeIds qt tr term.value term.comparator scope := by
      ext x
      simp [scopedIds, scopeIds]
    rw [hids]
    exact constructs_scopeLeaf (hknown scope (List.mem_singleton_self scope)) _ _
  · rw [hleaf]
    have hids : scopedIds qt tr scopes term.value term.comparator =
        combined .or (scopes.map (scopeIds qt tr term.value term.comparator)) := by
      ext x
      simp only [combined, union, scopedIds]
      constructor
      · rintro ⟨hvalue, scope, hscope, hx⟩
        exact ⟨_, List.mem_map_of_mem hscope, hvalue, hx⟩
      · rintro ⟨S, hS, hx⟩
        obtain ⟨scope, hscope, rfl⟩ := List.mem_map.mp hS
        exact ⟨hx.1, scope, hscope, hx.2⟩
    rw [hids]
    refine constructs_ofTerms (Or.inr rfl) ?_
    rw [List.forall₂_map_left_iff, List.forall₂_map_right_iff, List.forall₂_same]
    exact fun scope hscope => constructs_scopeLeaf (hknown scope hscope) _ _

/-! ### Leaves with a property -/

/-- `tag` is a term of its own for equality and short for `tags` otherwise. -/
theorem constructs_tag {term : Term} (hop : term.operation = .none) (hvalue : term.value ≠ none)
    (htag : nameOf qt term.property.chars = ascii ['t', 'a', 'g']) :
    Constructs qt tr term (if term.comparator = .equal then
        (tr.postingIterator (ascii ['T', 'A', 'G', '-'] ++ toUtf8 qt term.value.chars)).ids
      else propertyIds qt tr (ascii ['t', 'a', 'g', 's']) term.value term.comparator.orContains) := by
  have hleaf : ¬ (term.operation = .and ∨ term.operation = .or) := by simp [hop]
  have hstep := fun n => constructQuery.eq_2 qt tr term n
  simp only [if_neg hleaf, if_neg hvalue] at hstep
  rw [nameOf] at htag
  generalize toUtf8 qt (toLower qt term.property.chars) = name at htag hstep
  subst htag
  have hbranch : ∀ n, constructQuery qt tr (n + 1) term = if term.comparator = .equal then
        some (tr.postingIterator (ascii ['T', 'A', 'G', '-'] ++ toUtf8 qt term.value.chars)).tree
      else constructQuery qt tr n
        (.ofProperty (some (latin1String ['t', 'a', 'g', 's'])) term.value term.comparator) :=
    fun n => (hstep n).trans ((if_neg (by decide)).trans ((if_neg (by decide)).trans
      ((if_neg (by decide)).trans (if_pos rfl))))
  by_cases hcom : term.comparator = .equal
  · rw [if_pos hcom]
    exact constructs_lookup fun n => (hbranch n).trans (if_pos hcom)
  · rw [if_neg hcom]
    have hproperty : Constructs qt tr
        (.ofProperty (some (latin1String ['t', 'a', 'g', 's'])) term.value term.comparator)
        (propertyIds qt tr (nameOf qt (latin1String ['t', 'a', 'g', 's'])) term.value
          term.comparator.orContains) := by
      refine constructs_property rfl hvalue ?_ ?_
      · exact fun heq => absurd (nameOf_tags.symm.trans heq) (by decide)
      · show ¬ Unknown qt (nameOf qt (latin1String ['t', 'a', 'g', 's']))
        rw [nameOf_tags]
        exact fun hunknown => nomatch hunknown.2
    rw [nameOf_tags] at hproperty
    obtain ⟨t, ht, hproper, hids⟩ := hproperty
    refine ⟨t, Returns.succ ?_, hproper, hids⟩
    simp only [hbranch, if_neg hcom]
    exact ht

/-- A comparison with an unknown property is text. -/
theorem constructs_unknown {term : Term} (hop : term.operation = .none) (hvalue : term.value ≠ none)
    (hunknown : Unknown qt (nameOf qt term.property.chars)) :
    Constructs qt tr term (scopedIds qt tr knownScopes (reconstructFromTerm term) .equal) := by
  have hleaf : ¬ (term.operation = .and ∨ term.operation = .or) := by simp [hop]
  have hstep := fun n => constructQuery.eq_2 qt tr term n
  have hcleaned : cleanedScopes qt [] = knownScopes := rfl
  simp only [if_neg hleaf, if_neg hvalue] at hstep
  obtain ⟨hspecial, hinfo⟩ := hunknown
  simp only [nameOf] at hspecial hinfo
  generalize toUtf8 qt (toLower qt term.property.chars) = name at hspecial hinfo hstep
  simp only [specialNames, List.mem_cons, List.not_mem_nil, or_false, not_or] at hspecial
  simp only [hspecial, hinfo, or_self, if_false, if_true, hcleaned] at hstep
  obtain ⟨t, ht, hproper, hids⟩ := @constructs_expandLeaf _ _ qt tr knownScopes (by decide)
    (fun scope h => h) (.ofProperty none (reconstructFromTerm term) .equal)
  refine ⟨t, Returns.succ ?_, hproper, hids⟩
  simp only [hstep]
  exact ht

theorem constructs_leaf (com : Comparator) (property value : QString) :
    Constructs qt tr (.mk .none com property value []) (leafIds qt tr property.chars value com) := by
  rw [leafIds]
  by_cases hvalue : value = none
  · rw [if_pos hvalue]
    exact constructs_null rfl hvalue
  rw [if_neg hvalue]
  by_cases htag : nameOf qt property.chars = ascii ['t', 'a', 'g']
  · rw [if_pos htag]
    exact constructs_tag rfl hvalue htag
  rw [if_neg htag]
  by_cases hunknown : Unknown qt (nameOf qt property.chars)
  · rw [if_pos hunknown]
    exact constructs_unknown rfl hvalue hunknown
  · rw [if_neg hunknown]
    exact constructs_property rfl hvalue htag hunknown

/-! ## Terms and queries -/

mutual

theorem constructs_term {scopes : List (List QChar)} (hne : scopes ≠ [])
    (hknown : ∀ scope ∈ scopes, scope ∈ knownScopes) : ∀ term : Term,
    Constructs qt tr (expandScopes scopes term) (denote qt tr scopes term)
  | .mk op com property value [] => by
    rw [expandScopes, denote]
    split
    · exact constructs_expandLeaf hne hknown _
    · split
      · next hop =>
        subst hop
        exact constructs_leaf com property value
      · next hop =>
        -- an operation without operands
        have hop' : op = .and ∨ op = .or := by cases op <;> simp at hop ⊢
        refine ⟨.null, Returns.succ ⟨0, fun n _ => ?_⟩, .null, PostingTree.ids_null⟩
        exact (if_pos hop').trans rfl
  | .mk op com property value (t :: ts) => by
    have hterms : List.Forall₂ (Constructs qt tr) (expandScopes scopes t :: expandAll scopes ts)
        (denote qt tr scopes t :: denoteAll qt tr scopes ts) :=
      .cons (constructs_term hne hknown t) (constructs_terms hne hknown ts)
    rw [expandScopes]
    cases op with
    | none => exact constructs_null rfl rfl
    | and => exact constructs_ofTerms (Or.inl rfl) hterms
    | or => exact constructs_ofTerms (Or.inr rfl) hterms

theorem constructs_terms {scopes : List (List QChar)} (hne : scopes ≠ [])
    (hknown : ∀ scope ∈ scopes, scope ∈ knownScopes) : ∀ ts : List Term,
    List.Forall₂ (Constructs qt tr) (expandAll scopes ts) (denoteAll qt tr scopes ts)
  | [] => .nil
  | t :: ts => .cons (constructs_term hne hknown t) (constructs_terms hne hknown ts)

end

/-- Null pointers among the operands of a query are pruned as in a term. -/
theorem and_denotes {vec : List PostingTree} (h : ∀ t ∈ vec, t.Proper) :
    (if vec.any isNull then PostingTree.null else .and vec).Proper ∧
      (if vec.any isNull then PostingTree.null else .and vec).ids = inter (vec.map PostingTree.ids) := by
  split
  · next hany =>
    obtain ⟨t, ht, hnull⟩ := List.any_eq_true.mp hany
    obtain rfl := isNull_iff.mp hnull
    refine ⟨.null, ?_⟩
    rw [PostingTree.ids_null, eq_comm, Set.eq_empty_iff_forall_notMem]
    intro x hx
    have hxnull := hx.2 _ (List.mem_map_of_mem ht)
    rw [PostingTree.ids_null] at hxnull
    exact hxnull
  · exact ⟨.and h, PostingTree.ids_and _⟩

variable (qt tr)

/-- The operands of a query are constructed and denote what the query selects. -/
theorem exists_constructFromTerm (term : Option Term) (q : Query) :
    ∃ t, Returns (fun n => constructFromTerm qt tr n term q) t ∧ t.Proper ∧
      t.ids = selected qt tr term q := by
  obtain ⟨hne, hknown⟩ := @cleanedScopes_known _ _ qt q.searchScopes
  have hfilters : ∀ t ∈ (filters qt tr q).map Lookup.tree, t.Proper := by
    intro t ht
    obtain ⟨l, -, rfl⟩ := List.mem_map.mp ht
    exact l.proper
  have hids : ((filters qt tr q).map Lookup.tree).map PostingTree.ids =
      (filters qt tr q).map Lookup.ids := by
    rw [List.map_map]
    exact List.map_congr_left fun l _ => l.ids_tree
  cases term with
  | none =>
    obtain ⟨hproper, hand⟩ := and_denotes hfilters
    rw [hids] at hand
    exact ⟨_, Returns.pure _, hproper, hand⟩
  | some term =>
    obtain ⟨t, ht, hproper, hterm⟩ := @constructs_term _ _ qt tr _ hne hknown term
    obtain ⟨hproper', hand⟩ := and_denotes (List.forall_mem_cons.mpr ⟨hproper, hfilters⟩)
    rw [List.map_cons, hids, hterm] at hand
    refine ⟨_, ?_, hproper', hand⟩
    exact (ht.map fun it => [it]).map _

/-- **Query evaluation is denotational.** The iterator of any term with any scopes and filters, and in
particular the iterator of a query, enumerates the ids that the term and the filters denote,
ascending and each once; a null pointer means that there are none. -/
theorem query_denotes (q : Query) :
    (∀ term : Option Term, ∃ it,
      Returns (fun n => (constructFromTerm qt tr n term q).bind (PostingTree.build n)) it ∧
        Answers it (selected qt tr term q)) ∧
      ∃ it, Returns (fun n => constructFromQuery qt tr n q) it ∧ Answers it (selected qt tr
        (if q.searchString.isEmpty then none else some (parse q.searchString.chars)) q) := by
  have hterm : ∀ term : Option Term, ∃ it,
      Returns (fun n => (constructFromTerm qt tr n term q).bind (PostingTree.build n)) it ∧
        Answers it (selected qt tr term q) := by
    intro term
    obtain ⟨t, ht, hproper, hids⟩ := exists_constructFromTerm qt tr term q
    obtain ⟨it, hit, hanswers⟩ := hproper.answers
    rw [hids] at hanswers
    exact ⟨it, ht.bind hit, hanswers⟩
  exact ⟨hterm, hterm _⟩

end

end Baloo.Search
