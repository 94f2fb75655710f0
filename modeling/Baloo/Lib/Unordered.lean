import Mathlib.Data.Fintype.EquivFin
import Mathlib.Data.List.Basic

/-!
# Unordered trees

Trees whose nodes have a label and a list of children, where the order of the children does not matter. Two trees are
the same if their labels are, and their children can be paired off so that they are the same.

A test that is easier to run looks for each child of one tree among the children of the other, in one direction only,
and the other way round among the children of these. It never misses that two trees are the same, but it may take two
trees for the same that are not: one child of the one may stand for several of the other. It is right for trees that
never have a child twice (`Distinct.same`), and right about one tree and any other if the children of its nodes are, in
turns, all different and all the same (`told_iff`).
-/

universe u v

namespace Unordered

variable {α : Type u} {L : Type v} (label : α → L) (children : α → List α)

/-- The trees are the same up to the order of children. -/
inductive Same : α → α → Prop
  /-- children are paired off -/
  | intro {a b : α} (hlabel : label a = label b) (σ : Fin (children a).length ≃ Fin (children b).length)
    (hsub : ∀ i, Same ((children a).get i) ((children b).get (σ i))) : Same a b

/-- Each child of the one tree is found among those of the other, which are as many. -/
inductive Covers : α → α → Prop
  /-- a child is compared the other way round -/
  | intro {a b : α} (hlabel : label a = label b) (hlength : (children a).length = (children b).length)
    (f : Fin (children a).length → Fin (children b).length)
    (hsub : ∀ i, Covers ((children b).get (f i)) ((children a).get i)) : Covers a b

/-- No tree of the list is there twice. -/
def Apart (l : List α) : Prop := ∀ i j : Fin l.length, Same label children (l.get i) (l.get j) → i = j

/-- All trees of the list are the same. -/
def Alike (l : List α) : Prop := ∀ i j : Fin l.length, Same label children (l.get i) (l.get j)

/-- No node of the tree has a child twice. -/
inductive Distinct : α → Prop
  /-- the children are distinct, and different from each other -/
  | intro {a : α} (hsub : ∀ i, Distinct ((children a).get i)) (hapart : Apart label children (children a)) : Distinct a

/-- The children of the nodes are, in turns, different from each other (`true`) and all the same (`false`). -/
inductive Told : Bool → α → Prop
  /-- different from each other -/
  | apart {a : α} (hsub : ∀ i, Told false ((children a).get i)) (hapart : Apart label children (children a)) :
    Told true a
  /-- all the same -/
  | alike {a : α} (hsub : ∀ i, Told true ((children a).get i)) (halike : Alike label children (children a)) :
    Told false a

variable {label children} {a a' b b' c : α}

/-! ## An equivalence -/

theorem Same.symm (h : Same label children a b) : Same label children b a := by
  induction h with
  | intro hlabel σ _ ih =>
    refine .intro hlabel.symm σ.symm fun j => ?_
    have hsub := ih (σ.symm j)
    rwa [Equiv.apply_symm_apply] at hsub

theorem Same.trans (h : Same label children a b) (h' : Same label children b c) : Same label children a c := by
  induction h generalizing c with
  | intro hlabel σ _ ih =>
    obtain ⟨hlabel', τ, hsub'⟩ := h'
    exact .intro (hlabel.trans hlabel') (σ.trans τ) fun i => ih i (hsub' (σ i))

theorem Same.refl (hwf : WellFounded fun c t : α => c ∈ children t) (a : α) : Same label children a a := by
  induction a using hwf.induction with
  | h a ih => exact .intro rfl (Equiv.refl _) fun i => ih _ (List.get_mem _ _)

/-! ## The test -/

theorem Same.covers (h : Same label children a b) : Covers label children a b ∧ Covers label children b a := by
  induction h with
  | intro hlabel σ _ ih =>
    refine ⟨.intro hlabel ?_ σ fun i => (ih i).2, .intro hlabel.symm ?_ σ.symm fun j => ?_⟩
    · simpa using Fintype.card_congr σ
    · simpa using Fintype.card_congr σ.symm
    · have hsub := (ih (σ.symm j)).1
      rwa [Equiv.apply_symm_apply] at hsub

/-- What is found in a tree is found in any tree that it is found in. -/
theorem Covers.trans_both (h : Covers label children a b) (c : α) :
    (Covers label children b c → Covers label children a c) ∧
      (Covers label children c a → Covers label children c b) := by
  induction h generalizing c with
  | intro hlabel hlength f _ ih =>
    constructor
    · rintro ⟨hlabel', hlength', g, hg⟩
      exact .intro (hlabel.trans hlabel') (hlength.trans hlength') (fun i => g (f i)) fun i => (ih i _).2 (hg (f i))
    · rintro ⟨hlabel', hlength', g, hg⟩
      exact .intro (hlabel'.trans hlabel) (hlength'.trans hlength) (fun k => f (g k)) fun k => (ih (g k) _).1 (hg k)

theorem Covers.trans (h : Covers label children a b) (h' : Covers label children b c) : Covers label children a c :=
  (h.trans_both c).1 h'

/-- Children that are different from each other are found at different places. -/
theorem same_of_apart (hlabel : label a = label b) (hlength : (children a).length = (children b).length)
    {f : Fin (children a).length → Fin (children b).length}
    (hsub : ∀ i, Same label children ((children b).get (f i)) ((children a).get i))
    (hapart : Apart label children (children a)) : Same label children a b := by
  have hinjective : Function.Injective f := by
    intro i j heq
    have hj := hsub j
    rw [← heq] at hj
    exact hapart i j ((hsub i).symm.trans hj)
  have hbijective : Function.Bijective f :=
    (Fintype.bijective_iff_injective_and_card f).mpr ⟨hinjective, by simpa using hlength⟩
  exact .intro hlabel (Equiv.ofBijective f hbijective) fun i => (hsub i).symm

/-- Trees that never have a child twice are told apart. -/
theorem Distinct.same (ha : Distinct label children a) (hb : Distinct label children b) :
    (Covers label children a b → Same label children a b) ∧ (Covers label children b a → Same label children b a) := by
  induction ha generalizing b with
  | @intro a _ hapart ih =>
    obtain ⟨hdistinct, hapart'⟩ := hb
    constructor
    · rintro ⟨hlabel, hlength, f, hsub⟩
      exact same_of_apart hlabel hlength (fun i => (ih i (hdistinct (f i))).2 (hsub i)) hapart
    · rintro ⟨hlabel, hlength, f, hsub⟩
      exact same_of_apart hlabel hlength (fun j => (ih (f j) (hdistinct j)).1 (hsub j)) hapart'

/-! ## One tree and any other -/

/-- What the test says about the tree is right, when its children are looked for (`true`) or looked at (`false`). -/
def Right (label : α → L) (children : α → List α) (first : Bool) (a : α) : Prop :=
  ∀ b, if first then Covers label children a b → Same label children a b
    else Covers label children b a → Same label children b a

theorem Told.right {first : Bool} (h : Told label children first a) : Right label children first a := by
  induction h with
  | @apart a _ hapart ih =>
    rintro b ⟨hlabel, hlength, f, hsub⟩
    exact same_of_apart hlabel hlength (fun i => ih i ((children b).get (f i)) (hsub i)) hapart
  | @alike a _ halike ih =>
    rintro b ⟨hlabel, hlength, f, hsub⟩
    -- every child of `b` is the same as all children of `a`
    have hall : ∀ i j, Same label children ((children b).get i) ((children a).get j) := fun i j =>
      (ih (f i) ((children b).get i) (hsub i)).symm.trans (halike (f i) j)
    exact .intro hlabel (finCongr hlength) fun i => hall i _

/-- With one child replaced by a tree that is not the same, the tree is not the same. -/
theorem not_same_set (hwf : WellFounded fun c t : α => c ∈ children t) {i : Fin (children a).length} {t : α}
    (ht : ¬ Same label children t ((children a).get i)) (hb : children b = (children a).set i t) :
    ¬ Same label children a b := by
  classical
  rintro ⟨-, σ, hsub⟩
  have hlength : (children b).length = (children a).length := by rw [hb, List.length_set]
  have hget : ∀ k : Fin (children b).length, (children b).get k =
      if finCongr hlength k = i then t else (children a).get (finCongr hlength k) := by
    intro k
    simp only [List.get_eq_getElem, hb, List.getElem_set, Fin.ext_iff, eq_comm, finCongr_apply, Fin.val_cast]
  -- the children that are the same as the one that is replaced
  let A : Finset (Fin (children a).length) :=
    Finset.univ.filter fun k => Same label children ((children a).get k) ((children a).get i)
  let B : Finset (Fin (children b).length) :=
    Finset.univ.filter fun k => Same label children ((children b).get k) ((children a).get i)
  have hAB : A.card ≤ B.card := by
    refine Finset.card_le_card_of_injOn σ (fun k hk => ?_) σ.injective.injOn
    have hk := (Finset.mem_filter.mp hk).2
    exact Finset.mem_coe.mpr (Finset.mem_filter.mpr ⟨Finset.mem_univ _, (hsub k).symm.trans hk⟩)
  have hBA : B.card ≤ (A.erase i).card := by
    refine Finset.card_le_card_of_injOn (finCongr hlength) (fun k hk => ?_) (finCongr hlength).injective.injOn
    have hk := (Finset.mem_filter.mp hk).2
    rw [hget] at hk
    by_cases heq : finCongr hlength k = i
    · rw [if_pos heq] at hk
      exact absurd hk ht
    · rw [if_neg heq] at hk
      exact Finset.mem_coe.mpr (Finset.mem_erase.mpr ⟨heq, Finset.mem_filter.mpr ⟨Finset.mem_univ _, hk⟩⟩)
  have hi : i ∈ A := Finset.mem_filter.mpr ⟨Finset.mem_univ _, Same.refl hwf _⟩
  have hlt := Finset.card_erase_lt_of_mem hi
  omega

/-! ## Trees that are taken for the same -/

theorem covers_iff : Covers label children a b ↔ label a = label b ∧ (children a).length = (children b).length ∧
    ∀ s ∈ children a, ∃ t ∈ children b, Covers label children t s := by
  constructor
  · rintro ⟨hlabel, hlength, f, hsub⟩
    refine ⟨hlabel, hlength, fun s hs => ?_⟩
    obtain ⟨i, rfl⟩ := List.get_of_mem hs
    exact ⟨_, List.get_mem _ (f i), hsub i⟩
  · rintro ⟨hlabel, hlength, hfound⟩
    have hplace : ∀ i, ∃ j, Covers label children ((children b).get j) ((children a).get i) := by
      intro i
      obtain ⟨t, ht, hcovers⟩ := hfound _ (List.get_mem _ i)
      obtain ⟨j, rfl⟩ := List.get_of_mem ht
      exact ⟨j, hcovers⟩
    obtain ⟨f, hf⟩ := Classical.axiomOfChoice hplace
    exact .intro hlabel hlength f hf

section Nodes

variable (hwf : WellFounded fun c t : α => c ∈ children t) {node : L → List α → α}
  (hlabel : ∀ l ts, label (node l ts) = l) (hchildren : ∀ l ts, children (node l ts) = ts)
include hwf hlabel hchildren

/-- A child may be replaced where a tree that stays, or the new one, stands for the old one. -/
theorem Right.of_set_true (h : Right label children true a) {i : Fin (children a).length} {s t : α}
    (hs : s ∈ (children a).set i t) (hcovers : Covers label children s ((children a).get i)) :
    Same label children t ((children a).get i) := by
  by_contra ht
  have hb := hchildren (label a) ((children a).set i t)
  refine not_same_set hwf ht hb (h _ (covers_iff.mpr ⟨(hlabel _ _).symm, by rw [hb, List.length_set], ?_⟩))
  intro u hu
  rw [hb]
  obtain ⟨k, rfl⟩ := List.get_of_mem hu
  rcases eq_or_ne k i with rfl | hne
  · exact ⟨s, hs, hcovers⟩
  · refine ⟨_, ?_, (Same.refl hwf _).covers.1⟩
    rw [List.get_eq_getElem, ← List.getElem_set_ne (a := t) (Fin.val_ne_of_ne hne.symm) (by simp)]
    exact List.getElem_mem _

/-- A child may be replaced by a tree that it stands for. -/
theorem Right.of_set_false (h : Right label children false a) {i : Fin (children a).length} {t : α}
    (hcovers : Covers label children ((children a).get i) t) : Same label children ((children a).get i) t := by
  by_contra ht
  have hb := hchildren (label a) ((children a).set i t)
  refine not_same_set hwf (fun hsame => ht hsame.symm) hb (h _ (covers_iff.mpr ⟨hlabel _ _, ?_, ?_⟩)).symm
  · rw [hb, List.length_set]
  · intro u hu
    rw [hb] at hu
    rcases List.mem_or_eq_of_mem_set hu with hu | rfl
    · exact ⟨u, hu, (Same.refl hwf u).covers.1⟩
    · exact ⟨_, List.get_mem _ i, hcovers⟩

/-- The children of a tree that is told from any other are different from each other. -/
theorem Right.apart [Nontrivial L] (h : Right label children true a) : Apart label children (children a) := by
  intro i j hij
  by_contra hne
  obtain ⟨l, hl⟩ := exists_ne (label ((children a).get j))
  -- the other one stands for both of them
  have hi : (children a).get i ∈ (children a).set j (node l []) := by
    rw [List.get_eq_getElem, ← List.getElem_set_ne (a := node l []) (Fin.val_ne_of_ne (Ne.symm hne)) (by simp)]
    exact List.getElem_mem _
  obtain ⟨hsame, -⟩ := h.of_set_true hwf hlabel hchildren hi hij.covers.1
  exact hl ((hlabel l []).symm.trans hsame)

/-- The children of a tree that any other is told from are all the same. -/
theorem Right.alike (h : Right label children false a) : Alike label children (children a) := by
  intro i j
  obtain ⟨b, hl, hb⟩ : ∃ b, label b = label a ∧
      children b = List.replicate (children a).length ((children a).get i) := ⟨_, hlabel _ _, hchildren _ _⟩
  have hall : ∀ u ∈ children b, u = (children a).get i := by
    intro u hu
    rw [hb] at hu
    exact List.eq_of_mem_replicate hu
  have hcovers : ∀ u ∈ children b, ∃ t ∈ children a, Covers label children t u := by
    intro u hu
    rw [hall u hu]
    exact ⟨_, List.get_mem _ i, (Same.refl hwf _).covers.1⟩
  obtain ⟨-, σ, hsub⟩ := h b (covers_iff.mpr ⟨hl, by rw [hb, List.length_replicate], hcovers⟩)
  have hj := hsub (σ.symm j)
  rwa [Equiv.apply_symm_apply, hall _ (List.get_mem _ _)] at hj

/-- The test is right about a tree and any other just if the children of its nodes are different in turns. -/
theorem told_iff [Nontrivial L] {first : Bool} : Told label children first a ↔ Right label children first a := by
  refine ⟨Told.right, fun h => ?_⟩
  induction a using hwf.induction generalizing first with
  | h a ih =>
    cases first with
    | true =>
      refine .apart (fun i => ih _ (List.get_mem _ i) fun b hb => ?_) (h.apart hwf hlabel hchildren)
      exact h.of_set_true hwf hlabel hchildren (List.mem_set i.isLt b) hb
    | false =>
      exact .alike (fun i => ih _ (List.get_mem _ i) fun b hb => h.of_set_false hwf hlabel hchildren hb)
        (h.alike hwf hlabel hchildren)

end Nodes

end Unordered
