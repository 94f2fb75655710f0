import Baloo.Lib.Unordered
import Baloo.QueryParser

/-!
# Equality of terms

Terms are compared without regard to the order of their subterms: each subterm of the one has to be contained in the
other, which has as many. That is a preorder on terms (`equal_refl`, `equal_trans`), but as it is not tested the other
way round, a subterm that is there twice can stand for two that are not the same.

So the comparison is the equality up to the order of subterms for terms without repeated subterms, and for a term and
any other exactly if the subterms of its nodes are, in turns, all different and all the same (`equal_lawful`).
-/

namespace Baloo.Search

open Unordered (Distinct Told)

namespace Term

/-- `Term::operator==`; `contains` compares the elements of the list with the term. -/
def equal : Term → Term → Bool
  | mk op comp property value subTerms, mk op' comp' property' value' subTerms' =>
    if op ≠ op' ∨ comp ≠ comp' ∨ property.chars ≠ property'.chars ∨ value.chars ≠ value'.chars then false
    else if subTerms.length ≠ subTerms'.length then false
    else if subTerms.isEmpty then true
    else subTerms.attach.all fun t => subTerms'.attach.any fun s => equal s.1 t.1
termination_by a b => sizeOf a + sizeOf b
decreasing_by
  have ht := List.sizeOf_lt_of_mem t.2
  have hs := List.sizeOf_lt_of_mem s.2
  simp only [mk.sizeOf_spec]
  omega

/-- What is compared of a term itself. -/
def label (t : Term) : Operation × Comparator × List QChar × List QChar :=
  (t.operation, t.comparator, t.property.chars, t.value.chars)

/-- The terms are the same up to the order of subterms. -/
abbrev Same (a b : Term) : Prop := Unordered.Same label subTerms a b

theorem subTerms_wellFounded : WellFounded fun s t : Term => s ∈ t.subTerms := by
  refine Subrelation.wf ?_ (measure sizeOf).wf
  rintro s ⟨op, comp, property, value, subTerms⟩ hs
  have hlt := List.sizeOf_lt_of_mem hs
  change sizeOf s < sizeOf (mk op comp property value subTerms)
  change sizeOf s < sizeOf subTerms at hlt
  rw [mk.sizeOf_spec]
  omega

/-! ## What is compared -/

theorem equal_iff (a b : Term) : equal a b = true ↔ a.label = b.label ∧ a.subTerms.length = b.subTerms.length ∧
    ∀ s ∈ a.subTerms, ∃ t ∈ b.subTerms, equal t s = true := by
  obtain ⟨op, comp, property, value, subTerms⟩ := a
  obtain ⟨op', comp', property', value', subTerms'⟩ := b
  rw [equal]
  by_cases hlabel : op ≠ op' ∨ comp ≠ comp' ∨ property.chars ≠ property'.chars ∨ value.chars ≠ value'.chars
  · rw [if_pos hlabel]
    have hne : label (mk op comp property value subTerms) ≠ label (mk op' comp' property' value' subTerms') := by
      intro heq
      simp only [label, operation, comparator, Term.property, Term.value, Prod.mk.injEq] at heq
      tauto
    simp [hne]
  · rw [if_neg hlabel]
    have heq : label (mk op comp property value subTerms) = label (mk op' comp' property' value' subTerms') := by
      simp only [label, operation, comparator, Term.property, Term.value, Prod.mk.injEq]
      tauto
    simp only [heq, true_and, Term.subTerms]
    by_cases hlength : subTerms.length = subTerms'.length
    · -- an empty list of subterms has no one that is not contained
      rcases subTerms with _ | ⟨s, subTerms⟩
      · simp [hlength]
      · simp [hlength]
    · simp [hlength]

/-- What is compared is whether each subterm is found in the other term, in turns. -/
theorem equal_iff_covers_both (a : Term) : ∀ b, (equal a b = true ↔ Unordered.Covers label subTerms a b) ∧
    (equal b a = true ↔ Unordered.Covers label subTerms b a) := by
  induction a using subTerms_wellFounded.induction with
  | h a ih =>
    intro b
    rw [equal_iff, equal_iff, Unordered.covers_iff, Unordered.covers_iff]
    constructor
    · refine and_congr_right' (and_congr_right' (forall₂_congr fun s hs => ?_))
      exact exists_congr fun t => and_congr_right' (ih s hs t).2
    · refine and_congr_right' (and_congr_right' (forall₂_congr fun t ht => ?_))
      exact exists_congr fun s => and_congr_right fun hs => (ih s hs t).1

theorem equal_iff_covers (a b : Term) : equal a b = true ↔ Unordered.Covers label subTerms a b :=
  (equal_iff_covers_both a b).1

/-- The comparison is reflexive. -/
theorem equal_refl (a : Term) : equal a a = true :=
  (equal_iff_covers a a).mpr (Unordered.Same.refl subTerms_wellFounded a).covers.1

/-- The comparison is transitive. -/
theorem equal_trans {a b c : Term} (hab : equal a b = true) (hbc : equal b c = true) : equal a c = true := by
  rw [equal_iff_covers] at hab hbc ⊢
  exact hab.trans hbc

/-- The comparison does not miss terms that are the same. -/
theorem equal_of_same {a b : Term} (h : Same a b) : equal a b = true := (equal_iff_covers a b).mpr h.covers.1

/-! ## An equality up to the order of subterms -/

/-- The comparison is an equality up to the order of subterms, on three terms. -/
structure Lawful (a b c : Term) : Prop where
  /-- it is reflexive -/
  refl : equal a a = true
  /-- it is symmetric -/
  symm : equal a b = true → equal b a = true
  /-- it is transitive -/
  trans : equal a b = true → equal b c = true → equal a c = true
  /-- terms are equal if their subterms are, up to the order -/
  iff_same : equal a b = true ↔ Same a b

/-- The comparison is lawful where it tells terms that are not the same. -/
theorem lawful_iff (a b c : Term) : Lawful a b c ↔ (equal a b = true → Same a b) := by
  constructor
  · intro h hab
    exact h.iff_same.mp hab
  · intro hsame
    refine ⟨equal_refl a, fun hab => equal_of_same (hsame hab).symm, equal_trans, hsame, equal_of_same⟩

/-- A term with other subterms. -/
def node (l : Operation × Comparator × List QChar × List QChar) (subTerms : List Term) : Term :=
  mk l.1 l.2.1 (some l.2.2.1) (some l.2.2.2) subTerms

instance : Nontrivial (Operation × Comparator × List QChar × List QChar) :=
  ⟨(.none, .auto, [], []), (.and, .auto, [], []), by decide⟩

/-- The comparison of a term with any others is an equality up to the order of subterms exactly if the subterms of the
term are different from each other, those of its subterms all the same, and so on. The comparison of terms that have no
subterm twice is one. -/
theorem equal_lawful (a : Term) : ((∀ b c, Lawful a b c) ↔ Told label subTerms true a) ∧
    ∀ b c, Distinct label subTerms a → Distinct label subTerms b → Lawful a b c := by
  constructor
  · have hnode : ∀ l ts, (node l ts).label = l := fun l ts => rfl
    rw [Unordered.told_iff subTerms_wellFounded hnode fun l ts => rfl]
    constructor
    · intro h b hb
      exact (lawful_iff a b b).mp (h b b) ((equal_iff_covers a b).mpr hb)
    · intro h b c
      exact (lawful_iff a b c).mpr fun hab => h b ((equal_iff_covers a b).mp hab)
  · intro b c ha hb
    exact (lawful_iff a b c).mpr fun hab => (ha.same hb).1 ((equal_iff_covers a b).mp hab)

/-- A term with a subterm twice is equal to one where that stands beside another, but not the other way round. -/
theorem repeated_subTerm :
    let x := ofProperty none (some [latin1Char 'x']) .contains
    let y := ofProperty none (some [latin1Char 'y']) .contains
    equal (ofTerms .and [x, x]) (ofTerms .and [x, y]) = true ∧
      equal (ofTerms .and [x, y]) (ofTerms .and [x, x]) = false ∧
      ¬ Lawful (ofTerms .and [x, x]) (ofTerms .and [x, y]) (ofTerms .and [x, y]) := by
  intro x y
  have hxy : equal x y = false := by
    simp [x, y, equal, ofProperty, latin1Char, QString.chars]
  have hequal : equal (ofTerms .and [x, x]) (ofTerms .and [x, y]) = true := by
    rw [equal_iff]
    simp [ofTerms, label, operation, comparator, property, value, Term.subTerms, equal_refl]
  have hnot : equal (ofTerms .and [x, y]) (ofTerms .and [x, x]) = false := by
    rw [← Bool.not_eq_true, equal_iff]
    simp [ofTerms, Term.subTerms, hxy]
  refine ⟨hequal, hnot, fun h => ?_⟩
  have hsymm := h.symm hequal
  rw [hnot] at hsymm
  contradiction

end Term

end Baloo.Search
