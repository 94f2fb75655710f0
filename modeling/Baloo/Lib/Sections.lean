import Mathlib.Data.List.Infix
import Mathlib.Data.List.Nodup

/-!
# Texts made of sections

A text is made of sections with a separator between them that is in none of them. Such a text begins with another
one exactly if it has the sections of the other one, where the last section may go on (`intercalate_prefix_iff`).

In a list some elements count as the same, and only the first of them is kept (`firsts`).
-/

namespace Sections

variable {α β : Type*}

/-! ## Separators -/

theorem intercalate_cons_cons (sep : α) (a b : List α) (p : List (List α)) :
    [sep].intercalate (a :: b :: p) = a ++ sep :: [sep].intercalate (b :: p) := by
  rw [List.intercalate_cons_cons, List.append_assoc]
  rfl

theorem map_intercalate (f : α → β) (sep : α) (p : List (List α)) :
    ([sep].intercalate p).map f = [f sep].intercalate (p.map (·.map f)) := by
  induction p with
  | nil => rfl
  | cons a p ih =>
    cases p with
    | nil => simp
    | cons b p =>
      rw [intercalate_cons_cons, List.map_append, List.map_cons, ih]
      exact (intercalate_cons_cons ..).symm

variable {sep : α}

/-- Up to the first separator the texts are the same. -/
theorem append_prefix_append_iff {a b s t : List α} (ha : sep ∉ a) (hb : sep ∉ b) :
    a ++ sep :: s <+: b ++ sep :: t ↔ a = b ∧ s <+: t := by
  induction a generalizing b with
  | nil =>
    cases b with
    | nil => simp [List.cons_prefix_cons]
    | cons c b =>
      have hc : sep ≠ c := fun h => hb (h ▸ List.mem_cons_self)
      simp [List.cons_prefix_cons, hc]
  | cons c a ih =>
    cases b with
    | nil =>
      have hc : c ≠ sep := fun h => ha (h ▸ List.mem_cons_self)
      simp [List.cons_prefix_cons, hc]
    | cons d b =>
      rw [List.cons_append, List.cons_append, List.cons_prefix_cons,
        ih (fun h => ha (List.mem_cons_of_mem _ h)) fun h => hb (List.mem_cons_of_mem _ h), List.cons.injEq, and_assoc]

/-- A text without a separator ends in the first section. -/
theorem prefix_append_iff {a b t : List α} (ha : sep ∉ a) : a <+: b ++ sep :: t ↔ a <+: b := by
  refine ⟨fun h => ?_, fun h => h.trans (List.prefix_append _ _)⟩
  rcases List.prefix_or_prefix_of_prefix h (List.prefix_append b (sep :: t)) with hab | ⟨c, rfl⟩
  · exact hab
  · rw [List.prefix_append_right_inj] at h
    cases c with
    | nil => simp
    | cons x c =>
      obtain ⟨rfl, -⟩ := List.cons_prefix_cons.mp h
      exact absurd (List.mem_append_right b List.mem_cons_self) ha

/-- **A text begins with another one** if its first sections are those of the other one, where the last section may
go on. -/
theorem intercalate_prefix_iff {p q : List (List α)} (hp : ∀ s ∈ p, sep ∉ s) (hq : ∀ s ∈ q, sep ∉ s) (hpne : p ≠ [])
    (hqne : q ≠ []) : [sep].intercalate p <+: [sep].intercalate q ↔
      ∃ front a b rest, p = front ++ [a] ∧ q = front ++ b :: rest ∧ a <+: b := by
  induction p generalizing q with
  | nil => exact absurd rfl hpne
  | cons a p ih =>
    obtain ⟨b, rest, rfl⟩ := List.exists_cons_of_ne_nil hqne
    have ha := hp a List.mem_cons_self
    have hb := hq b List.mem_cons_self
    cases p with
    | nil =>
      have hone : (∃ front x y tail, [a] = front ++ [x] ∧ b :: rest = front ++ y :: tail ∧ x <+: y) ↔ a <+: b := by
        constructor
        · rintro ⟨front, x, y, tail, hp, hq, hxy⟩
          obtain ⟨rfl, hx⟩ := List.append_inj' (show [] ++ [a] = front ++ [x] from hp) rfl
          obtain rfl := List.singleton_inj.mp hx
          obtain ⟨rfl, -⟩ := List.cons.inj hq
          exact hxy
        · exact fun h => ⟨[], a, b, rest, rfl, rfl, h⟩
      rw [hone, List.intercalate_singleton]
      cases rest with
      | nil => rw [List.intercalate_singleton]
      | cons c rest =>
        rw [intercalate_cons_cons]
        exact prefix_append_iff ha
    | cons a' p =>
      cases rest with
      | nil =>
        rw [intercalate_cons_cons, List.intercalate_singleton]
        constructor
        · intro h
          exact absurd (h.subset (by simp)) hb
        · rintro ⟨front, x, y, tail, hp, hq, -⟩
          cases front with
          | nil => cases (List.cons.inj hp).2
          | cons c front => simp at hq
      | cons b' rest =>
        rw [intercalate_cons_cons, intercalate_cons_cons, append_prefix_append_iff ha hb,
          ih (fun s hs => hp s (List.mem_cons_of_mem _ hs)) (fun s hs => hq s (List.mem_cons_of_mem _ hs))
          (List.cons_ne_nil _ _) (List.cons_ne_nil _ _)]
        constructor
        · rintro ⟨rfl, front, x, y, tail, hp, hq, hxy⟩
          exact ⟨a :: front, x, y, tail, by rw [hp]; rfl, by rw [hq]; rfl, hxy⟩
        · rintro ⟨front, x, y, tail, hp, hq, hxy⟩
          cases front with
          | nil => cases (List.cons.inj hp).2
          | cons c front =>
            obtain ⟨rfl, hp'⟩ := List.cons.inj hp
            obtain ⟨rfl, hq'⟩ := List.cons.inj hq
            exact ⟨rfl, front, x, y, tail, hp', hq', hxy⟩

/-! ## First ones -/

section Firsts

variable [DecidableEq β] (key : α → β)

/-- The first element with each key, apart from keys that have been seen. -/
def firsts : List α → List β → List α
  | [], _ => []
  | x :: l, seen => if key x ∈ seen then firsts l seen else x :: firsts l (seen ++ [key x])

variable {key} {l : List α} {seen : List β} {x : α}

theorem mem_firsts : x ∈ firsts key l seen ↔
    key x ∉ seen ∧ ∃ before after, l = before ++ x :: after ∧ ∀ y ∈ before, key y ≠ key x := by
  induction l generalizing seen with
  | nil => simp [firsts]
  | cons first l ih =>
    have hsplit : ∀ P : List α → Prop, (∃ before after, first :: l = before ++ x :: after ∧ P before) ↔
        first = x ∧ P [] ∨ ∃ before after, l = before ++ x :: after ∧ P (first :: before) := by
      intro P
      constructor
      · rintro ⟨_ | ⟨y, before⟩, after, hl, hP⟩
        · exact .inl ⟨(List.cons.inj hl).1, hP⟩
        · obtain ⟨rfl, rfl⟩ := List.cons.inj hl
          exact .inr ⟨before, after, rfl, hP⟩
      · rintro (⟨rfl, hP⟩ | ⟨before, after, rfl, hP⟩)
        · exact ⟨[], l, rfl, hP⟩
        · exact ⟨first :: before, after, rfl, hP⟩
    rw [firsts, hsplit]
    simp only [List.forall_mem_cons, List.not_mem_nil, false_implies, implies_true, and_true]
    by_cases hseen : key first ∈ seen
    · rw [if_pos hseen, ih]
      constructor
      · rintro ⟨hx, before, after, hl, hbefore⟩
        exact ⟨hx, .inr ⟨before, after, hl, fun h => hx (h ▸ hseen), hbefore⟩⟩
      · rintro ⟨hx, rfl | ⟨before, after, hl, -, hbefore⟩⟩
        · exact absurd hseen hx
        · exact ⟨hx, before, after, hl, hbefore⟩
    · rw [if_neg hseen, List.mem_cons, ih, List.mem_append, List.mem_singleton, not_or]
      constructor
      · rintro (rfl | ⟨⟨hx, hne⟩, before, after, hl, hbefore⟩)
        · exact ⟨hseen, .inl rfl⟩
        · exact ⟨hx, .inr ⟨before, after, hl, fun h => hne h.symm, hbefore⟩⟩
      · rintro ⟨hx, rfl | ⟨before, after, hl, hne, hbefore⟩⟩
        · exact .inl rfl
        · exact .inr ⟨⟨hx, fun h => hne h.symm⟩, before, after, hl, hbefore⟩

/-- Every key that has not been seen is there. -/
theorem exists_mem_firsts {k : β} :
    (∃ x ∈ firsts key l seen, key x = k) ↔ k ∉ seen ∧ ∃ x ∈ l, key x = k := by
  induction l generalizing seen with
  | nil => simp [firsts]
  | cons first l ih =>
    rw [firsts, List.exists_mem_cons_iff]
    by_cases hseen : key first ∈ seen
    · rw [if_pos hseen, ih]
      refine and_congr_right fun hk => (or_iff_right ?_).symm
      rintro rfl
      exact hk hseen
    · rw [if_neg hseen, List.exists_mem_cons_iff, ih, List.mem_append, List.mem_singleton, not_or]
      by_cases hk : key first = k
      · subst hk
        simp [hseen]
      · simp [hk, Ne.symm hk]

theorem pairwise_firsts : (firsts key l seen).Pairwise fun x y => key x ≠ key y := by
  induction l generalizing seen with
  | nil => exact .nil
  | cons first l ih =>
    rw [firsts]
    split
    · exact ih
    · refine List.pairwise_cons.mpr ⟨fun y hy heq => ?_, ih⟩
      exact (mem_firsts.mp hy).1 (heq ▸ List.mem_append_right _ (List.mem_singleton_self _))

end Firsts

end Sections
