import Mathlib.Logic.Function.Basic

/-!
# Inverse tables

Two tables, given by their lookups, are inverse to each other if one finds exactly what the other finds the other
way round. The two are written one after the other, so an entry that is put into both keeps them inverse only if
it does not collide with an old one: the key is new in both tables, or the entry is in both already.
-/

universe u v

variable {A : Type u} {B : Type v} {f : A → Option B} {g : B → Option A} {a : A} {b b' : B}

/-- The two tables are inverse to each other. -/
def Inverse (f : A → Option B) (g : B → Option A) : Prop := ∀ a b, f a = some b ↔ g b = some a

namespace Inverse

variable [DecidableEq A] [DecidableEq B]

/-- An entry that is removed from both tables. -/
theorem erase (h : Inverse f g) (hb : f a = some b) :
    Inverse (Function.update f a none) (Function.update g b none) := by
  intro a' b'
  by_cases ha : a' = a
  · subst ha
    rw [Function.update_self]
    by_cases hb' : b' = b
    · rw [hb', Function.update_self]
      exact ⟨fun h => (by cases h), fun h => (by cases h)⟩
    · rw [Function.update_of_ne hb', ← h, hb]
      exact ⟨fun h => (by cases h), fun heq => absurd (Option.some.inj heq).symm hb'⟩
  · rw [Function.update_of_ne ha]
    by_cases hb' : b' = b
    · subst hb'
      rw [Function.update_self, h, (h a b').mp hb]
      exact ⟨fun heq => absurd (Option.some.inj heq).symm ha, fun h => (by cases h)⟩
    · rw [Function.update_of_ne hb']
      exact h a' b'

/-- An entry that is new in both tables. -/
theorem insert (h : Inverse f g) (ha : f a = none) (hb : g b = none) :
    Inverse (Function.update f a (some b)) (Function.update g b (some a)) := by
  intro a' b'
  by_cases ha' : a' = a
  · subst ha'
    rw [Function.update_self]
    by_cases hb' : b' = b
    · rw [hb', Function.update_self]
      exact ⟨fun _ => rfl, fun _ => rfl⟩
    · rw [Function.update_of_ne hb', ← h, ha]
      exact ⟨fun heq => absurd (Option.some.inj heq).symm hb', fun h => (by cases h)⟩
  · rw [Function.update_of_ne ha']
    by_cases hb' : b' = b
    · subst hb'
      rw [Function.update_self, h, hb]
      exact ⟨fun h => (by cases h), fun heq => absurd (Option.some.inj heq).symm ha'⟩
    · rw [Function.update_of_ne hb']
      exact h a' b'

/-- **An entry put into both tables** keeps them inverse exactly if it does not collide. -/
theorem insert_iff (h : Inverse f g) : Inverse (Function.update f a (some b)) (Function.update g b (some a)) ↔
    f a = some b ∨ f a = none ∧ g b = none := by
  constructor
  · intro h'
    rcases hfa : f a with _ | b'
    · refine .inr ⟨rfl, ?_⟩
      rcases hgb : g b with _ | a'
      · rfl
      · -- another key had the value
        have ha' : a' ≠ a := by
          rintro rfl
          rw [(h a' b).mpr hgb] at hfa
          cases hfa
        have hold := (h' a' b).mp (by rw [Function.update_of_ne ha', h, hgb])
        rw [Function.update_self] at hold
        exact absurd (Option.some.inj hold).symm ha'
    · left
      by_contra hne
      have hb' : b' ≠ b := fun heq => hne (congrArg some heq)
      have hold := (h' a b').mpr (by rw [Function.update_of_ne hb', ← h, hfa])
      rw [Function.update_self] at hold
      exact hb' (Option.some.inj hold).symm
  · rintro (hfa | ⟨hfa, hgb⟩)
    · rw [Function.update_eq_self_iff.mpr hfa.symm, Function.update_eq_self_iff.mpr ((h a b).mp hfa).symm]
      exact h
    · exact h.insert hfa hgb

/-- **A key that gets another value** keeps the tables inverse exactly if the value was free. -/
theorem rekey_iff (h : Inverse f g) (hb : g b = some a) :
    Inverse (Function.update f a (some b')) (Function.update (Function.update g b none) b' (some a)) ↔
      b' = b ∨ g b' = none := by
  have herase := h.erase ((h a b).mpr hb)
  have hf : Function.update f a (some b') = Function.update (Function.update f a none) a (some b') :=
    (Function.update_idem ..).symm
  rw [hf, herase.insert_iff, Function.update_self]
  by_cases heq : b' = b
  · subst heq
    simp
  · simp [heq]

end Inverse
