import Mathlib.Logic.Relation
import Mathlib.Order.WellFounded

/-!
# Transition systems: invariants and termination

A transition system is a relation `R a b`, "from `a` the system can step to `b`". An invariant that
every step keeps holds after every run. If, besides, a measure goes down with every step, no run goes
on for ever, and a run that cannot be continued ends in a state without steps.
-/

universe u v

namespace Transition

variable {State : Type u} {R : State → State → Prop} {I : State → Prop}

/-- Every run from `a` is finite. -/
def Terminates (R : State → State → Prop) (a : State) : Prop := Acc (fun b a => R a b) a

/-- What every step keeps, every run keeps. -/
theorem invariant (hstep : ∀ a b, I a → R a b → I b) {a b : State} (ha : I a)
    (hrun : Relation.ReflTransGen R a b) : I b := by
  induction hrun with
  | refl => exact ha
  | tail _ h ih => exact hstep _ _ ih h

/-- A measure that goes down with every step, as long as the invariant holds. -/
theorem terminates {Measure : Type v} [LT Measure] [WellFoundedLT Measure] (μ : State → Measure)
    (hstep : ∀ a b, I a → R a b → I b ∧ μ b < μ a) {a : State} (ha : I a) : Terminates R a := by
  induction h : μ a using WellFoundedLT.induction generalizing a with
  | ind m ih =>
    subst h
    refine Acc.intro a fun b hab => ?_
    obtain ⟨hb, hlt⟩ := hstep a b ha hab
    exact ih (μ b) hlt hb rfl

/-- A system that terminates reaches a state without steps. -/
theorem Terminates.exists_stuck {a : State} (h : Terminates R a) :
    ∃ b, Relation.ReflTransGen R a b ∧ ∀ c, ¬ R b c := by
  induction h with
  | intro a _ ih =>
    rcases Classical.em (∃ b, R a b) with ⟨b, hab⟩ | hstuck
    · obtain ⟨c, hbc, hc⟩ := ih b hab
      exact ⟨c, .head hab hbc, hc⟩
    · exact ⟨a, .refl, fun c hac => hstuck ⟨c, hac⟩⟩

end Transition
