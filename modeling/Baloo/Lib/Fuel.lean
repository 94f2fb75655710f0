import Mathlib.Data.List.Forall2

/-!
# Computations that need fuel

A recursive program whose termination is not structural is a function of fuel into `Option`, with
`none` for "ran out of fuel". It *returns* `a` if it gives `a` from some amount of fuel on. This is
stable under sequencing and under one more unfolding, so a termination proof composes the way the
program does and never mentions an amount of fuel.
-/

universe u v

namespace Fuel

variable {α : Type u} {β : Type v}

/-- With enough fuel the result is `a`. -/
def Returns (f : ℕ → Option α) (a : α) : Prop := ∃ n, ∀ m, n ≤ m → f m = some a

theorem Returns.pure (a : α) : Returns (fun _ => some a) a := ⟨0, fun _ _ => rfl⟩

/-- One unfolding of a recursive program spends one unit of fuel. -/
theorem Returns.succ {f : ℕ → Option α} {a : α} (h : Returns (fun n => f (n + 1)) a) :
    Returns f a := by
  obtain ⟨n, hn⟩ := h
  refine ⟨n + 1, fun m hm => ?_⟩
  obtain ⟨k, rfl⟩ : ∃ k, m = k + 1 := ⟨m - 1, by omega⟩
  exact hn k (Nat.le_of_succ_le_succ hm)

/-- Sequencing. -/
theorem Returns.bind {f : ℕ → Option α} {g : ℕ → α → Option β} {a : α} {b : β}
    (hf : Returns f a) (hg : Returns (fun n => g n a) b) :
    Returns (fun n => (f n).bind (g n)) b := by
  obtain ⟨n, hn⟩ := hf
  obtain ⟨k, hk⟩ := hg
  refine ⟨max n k, fun m hm => ?_⟩
  change (f m).bind (g m) = some b
  rw [hn m (Nat.le_trans (Nat.le_max_left ..) hm), Option.bind_some]
  exact hk m (Nat.le_trans (Nat.le_max_right ..) hm)

/-- A function of the result. -/
theorem Returns.map {f : ℕ → Option α} {a : α} (hf : Returns f a) (g : α → β) :
    Returns (fun n => (f n).map g) (g a) := by
  obtain ⟨n, hn⟩ := hf
  refine ⟨n, fun m hm => ?_⟩
  change (f m).map g = some (g a)
  rw [hn m hm, Option.map_some]

/-- Sequencing over a list. -/
theorem Returns.mapM {f : ℕ → α → Option β} {R : β → α → Prop} {l : List α}
    (h : ∀ a ∈ l, ∃ b, Returns (fun n => f n a) b ∧ R b a) :
    ∃ bs, Returns (fun n => l.mapM (f n)) bs ∧ List.Forall₂ R bs l := by
  induction l with
  | nil => exact ⟨[], ⟨0, fun n _ => by simp⟩, .nil⟩
  | cons a l ih =>
    obtain ⟨b, hb, hR⟩ := h a (by simp)
    obtain ⟨bs, hbs, hall⟩ := ih fun a ha => h a (List.mem_cons_of_mem _ ha)
    refine ⟨b :: bs, ?_, .cons hR hall⟩
    simp only [List.mapM_cons]
    exact hb.bind (hbs.bind (Returns.pure _))

/-- A program returns one result. -/
theorem Returns.unique {f : ℕ → Option α} {a b : α} (ha : Returns f a) (hb : Returns f b) :
    a = b := by
  obtain ⟨n, hn⟩ := ha
  obtain ⟨k, hk⟩ := hb
  have hna := hn (max n k) (Nat.le_max_left ..)
  rw [hk (max n k) (Nat.le_max_right ..)] at hna
  exact (Option.some.inj hna).symm

end Fuel
