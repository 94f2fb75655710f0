import Mathlib.Data.List.Basic

/-!
# Invariant rules for loops that may fail

A loop over a list whose body may fail is `List.foldlM` in `Option`. What the body preserves, the
loop preserves; the general form lets the invariant depend on the part of the list that is still to
come.
-/

universe u v

namespace Induction

variable {α : Type u} {β : Type v} {f : β → α → Option β}

/-- The invariant rule, with the rest of the list. -/
theorem foldlM_rest {I : List α → β → Prop}
    (hstep : ∀ a l b b', I (a :: l) b → f b a = some b' → I l b') {l : List α} {b r : β}
    (hb : I l b) (h : l.foldlM f b = some r) : I [] r := by
  induction l generalizing b with
  | nil => exact Option.some.inj h ▸ hb
  | cons a l ih =>
    rw [List.foldlM_cons, Option.bind_eq_bind, Option.bind_eq_some_iff] at h
    obtain ⟨b', hb', h⟩ := h
    exact ih (hstep a l b b' hb hb') h

/-- The plain invariant rule. -/
theorem foldlM_preserves {P : β → Prop} {l : List α}
    (hstep : ∀ b, ∀ a, ∀ b', a ∈ l → P b → f b a = some b' → P b') {b r : β} (hb : P b)
    (h : l.foldlM f b = some r) : P r :=
  (foldlM_rest (I := fun l' b => l' ⊆ l ∧ P b)
    (fun a _ b b' hI hb' =>
      ⟨List.Subset.trans (List.subset_cons_self ..) hI.1,
        hstep b a b' (hI.1 (List.mem_cons_self ..)) hI.2 hb'⟩)
    ⟨List.Subset.refl l, hb⟩ h).2

/-- The rule for total correctness: if the body succeeds and re-establishes the invariant, so does
the loop. -/
theorem foldlM_total {I : List α → β → Prop}
    (hstep : ∀ a l b, I (a :: l) b → ∃ b', f b a = some b' ∧ I l b') {l : List α} {b : β}
    (hb : I l b) : ∃ r, l.foldlM f b = some r ∧ I [] r := by
  induction l generalizing b with
  | nil => exact ⟨b, rfl, hb⟩
  | cons a l ih =>
    obtain ⟨b', hb', hI⟩ := hstep a l b hb
    obtain ⟨r, hr, hend⟩ := ih hI
    exact ⟨r, by rw [List.foldlM_cons, hb', Option.bind_eq_bind, Option.bind_some, hr], hend⟩

end Induction
