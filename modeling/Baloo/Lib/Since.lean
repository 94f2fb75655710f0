import Mathlib.Data.List.Basic

/-!
# Since

The temporal operator **since** over a finite history: something was raised, and nothing has cleared
it afterwards. A history grows at its end, so what matters is how the operator behaves under
concatenation: either it was raised in the new part, or it stood before and the new part clears
nothing.
-/

universe u

namespace Since

variable {Event : Type u} {raises clears : Event → Prop}

/-- Something was raised in the history and has not been cleared since. -/
def Stands (raises clears : Event → Prop) (history : List Event) : Prop :=
  ∃ before event after, history = before ++ event :: after ∧ raises event ∧
    ∀ e ∈ after, ¬ clears e

theorem not_stands_nil : ¬ Stands raises clears [] := by
  rintro ⟨before, event, after, h, -, -⟩
  simp at h

/-- One more event raises it, or does not clear it. -/
theorem stands_snoc {history : List Event} {event : Event} :
    Stands raises clears (history ++ [event]) ↔
      raises event ∨ Stands raises clears history ∧ ¬ clears event := by
  refine ⟨?_, ?_⟩
  · rintro ⟨before, e, after, h, he, hafter⟩
    rcases List.eq_nil_or_concat after with rfl | ⟨after, last, rfl⟩
    · obtain ⟨-, hlast⟩ := List.append_inj' h rfl
      obtain rfl := (List.cons.inj hlast).1
      exact Or.inl he
    · rw [List.concat_eq_append, ← List.cons_append, ← List.append_assoc] at h
      obtain ⟨rfl, hlast⟩ := List.append_inj' h rfl
      obtain rfl := (List.cons.inj hlast).1
      exact Or.inr ⟨⟨before, e, after, rfl, he, fun e' he' => hafter e' (by simp [he'])⟩,
        hafter event (by simp)⟩
  · rintro (he | ⟨⟨before, e, after, rfl, he, hafter⟩, hevent⟩)
    · exact ⟨history, event, [], rfl, he, fun _ h => absurd h (List.not_mem_nil)⟩
    · refine ⟨before, e, after ++ [event], by simp, he, fun e' he' => ?_⟩
      rcases List.mem_append.mp he' with he' | he'
      · exact hafter e' he'
      · exact List.mem_singleton.mp he' ▸ hevent

/-- Events that raise nothing leave it standing only if none of them clears it. -/
theorem stands_append {history events : List Event} (hraise : ∀ e ∈ events, ¬ raises e) :
    Stands raises clears (history ++ events) ↔
      Stands raises clears history ∧ ∀ e ∈ events, ¬ clears e := by
  induction events generalizing history with
  | nil => simp
  | cons event events ih =>
    rw [List.append_cons, ih fun e he => hraise e (by simp [he]), stands_snoc]
    simp [hraise event (by simp), and_assoc]

/-- Something has happened in a longer history, as told from what came before it: earlier, or at the
end. -/
theorem exists_split_snoc {P : List Event → Event → Prop} {history : List Event} {event : Event} :
    (∃ before e after, history ++ [event] = before ++ e :: after ∧ P before e) ↔
      (∃ before e after, history = before ++ e :: after ∧ P before e) ∨ P history event := by
  constructor
  · rintro ⟨before, e, after, heq, hP⟩
    rcases List.eq_nil_or_concat' after with rfl | ⟨init, last, rfl⟩
    · obtain ⟨rfl, hlast⟩ := List.append_inj' heq rfl
      obtain ⟨rfl, -⟩ := List.cons.inj hlast
      exact .inr hP
    · rw [← List.cons_append, ← List.append_assoc] at heq
      obtain ⟨rfl, -⟩ := List.append_inj' heq rfl
      exact .inl ⟨before, e, init, rfl, hP⟩
  · rintro (⟨before, e, after, rfl, hP⟩ | hP)
    · exact ⟨before, e, after ++ [event], by simp, hP⟩
    · exact ⟨history, event, [], rfl, hP⟩

end Since
