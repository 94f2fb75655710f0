import Baloo.Lib.Forest
import Mathlib.Data.List.Nodup
import Mathlib.Data.List.Pairwise
import Mathlib.Tactic.Choose

/-!
# Work lists over any graph

`Forest.drain` takes nodes off a work list, and nothing says that the lists of children are those of a forest. If
it ends it has taken off every node that can be reached, and each as often as it is listed (`drain_spec`). So it
takes off each node once, and then ends if there are finitely many, exactly if there is one way to each of them
(`exists_drain_iff`).
-/

universe u

namespace Forest

open Fuel (Returns)

variable {α : Type u} {children children' : α → List α} {x y p q c : α} {n : ℕ} {work out result sub : List α}

/-- A node is met when going down from a node. -/
def Reaches (children : α → List α) (x y : α) : Prop := Relation.ReflTransGen (fun p c => c ∈ children p) x y

/-- There is one way from a node to each node it reaches. -/
structure OneWay (children : α → List α) (x : α) : Prop where
  /-- no way leads back -/
  start : ∀ p, Reaches children x p → x ∉ children p
  /-- a node lists each of its children once -/
  once : ∀ p, Reaches children x p → (children p).Nodup
  /-- no two nodes list a node -/
  single : ∀ p q c, Reaches children x p → Reaches children x q → c ∈ children p → c ∈ children q → p = q

theorem Reaches.child (h : Reaches children x p) (hc : c ∈ children p) : Reaches children x c :=
  Relation.ReflTransGen.tail h hc

/-! ## Runs -/

theorem drain_concat (children : α → List α) (n : ℕ) (work : List α) (x : α) (out : List α) :
    drain children (n + 1) (work ++ [x]) out = drain children n (work ++ children x) (out ++ [x]) := by
  simp only [drain, List.getLast?_append, List.getLast?_singleton, Option.some_or, List.dropLast_concat]

/-- What is taken off by a run that ends: the work list and the children of all that is taken off. -/
theorem drain_taken (h : drain children n work out = some result) :
    ∃ sub, result = out ++ sub ∧ Drains children work sub ∧ sub.Perm (work ++ sub.flatMap children) := by
  induction n generalizing work out with
  | zero => cases h
  | succ n ih =>
    rcases List.eq_nil_or_concat' work with rfl | ⟨work, x, rfl⟩
    · obtain rfl := Option.some.inj h
      exact ⟨[], (List.append_nil out).symm, .nil, .refl _⟩
    · rw [drain_concat] at h
      obtain ⟨sub, rfl, ⟨k, hk⟩, hperm⟩ := ih h
      refine ⟨x :: sub, by rw [List.append_assoc, List.singleton_append], ⟨k + 1, fun rest out m => ?_⟩, ?_⟩
      · rw [← Nat.add_assoc, ← List.append_assoc, drain_concat, List.append_assoc, hk, List.append_assoc,
          List.singleton_append]
      · rw [List.flatMap_cons, List.append_assoc, List.singleton_append]
        refine (hperm.cons x).trans ?_
        rw [List.append_assoc]
        exact List.perm_middle.symm

/-- What holds of the work list and goes down to children holds of what is taken off. -/
theorem drain_forall {P : α → Prop} (h : drain children n work out = some result)
    (hchild : ∀ p, P p → ∀ c ∈ children p, P c) (hwork : ∀ y ∈ work, P y) (hout : ∀ y ∈ out, P y) :
    ∀ y ∈ result, P y := by
  induction n generalizing work out with
  | zero => cases h
  | succ n ih =>
    rcases List.eq_nil_or_concat' work with rfl | ⟨work, x, rfl⟩
    · obtain rfl := Option.some.inj h
      exact hout
    · rw [drain_concat] at h
      obtain ⟨hwork, hx⟩ := List.forall_mem_append.mp hwork
      have hx := hx x (List.mem_singleton_self x)
      refine ih h (List.forall_mem_append.mpr ⟨hwork, hchild x hx⟩) (List.forall_mem_append.mpr ⟨hout, ?_⟩)
      intro y hy
      rw [List.mem_singleton.mp hy]
      exact hx

/-- From a node with a way that never ends, neither does the run. -/
theorem drain_eq_none {P : α → Prop} (hchild : ∀ p, P p → ∃ c ∈ children p, P c) (n : ℕ)
    (hwork : ∃ y ∈ work, P y) : drain children n work out = none := by
  induction n generalizing work out with
  | zero => rfl
  | succ n ih =>
    obtain ⟨y, hy, hP⟩ := hwork
    rcases List.eq_nil_or_concat' work with rfl | ⟨work, x, rfl⟩
    · cases hy
    · rw [drain_concat]
      refine ih ?_
      rcases List.mem_append.mp hy with hy | hy
      · exact ⟨y, List.mem_append_left _ hy, hP⟩
      · obtain ⟨c, hc, hPc⟩ := hchild y hP
        exact ⟨c, List.mem_append_right _ (List.mem_singleton.mp hy ▸ hc), hPc⟩

/-- A run depends on the children of what is reached only. -/
theorem drain_congr {P : α → Prop} (hchild : ∀ p, P p → ∀ c ∈ children p, P c)
    (hsame : ∀ p, P p → children' p = children p) (n : ℕ) (hwork : ∀ y ∈ work, P y) :
    drain children' n work out = drain children n work out := by
  induction n generalizing work out with
  | zero => rfl
  | succ n ih =>
    rcases List.eq_nil_or_concat' work with rfl | ⟨work, x, rfl⟩
    · rfl
    · obtain ⟨hwork, hx⟩ := List.forall_mem_append.mp hwork
      have hx := hx x (List.mem_singleton_self x)
      rw [drain_concat, drain_concat, hsame x hx]
      exact ih (List.forall_mem_append.mpr ⟨hwork, hchild x hx⟩)

/-- **A run that ends** has taken off every node that can be reached, as often as it is listed. -/
theorem drain_spec (h : drain children n [x] [] = some sub) :
    Drains children [x] sub ∧ (∀ y, y ∈ sub ↔ Reaches children x y) ∧ sub.Perm (x :: sub.flatMap children) := by
  obtain ⟨sub', heq, hdrains, hperm⟩ := drain_taken h
  obtain rfl : sub = sub' := heq
  refine ⟨hdrains, fun y => ⟨fun hy => ?_, fun hxy => ?_⟩, hperm⟩
  · refine drain_forall h (fun p hp c hc => Reaches.child hp hc) (fun z hz => ?_) (fun z hz => by cases hz) y hy
    rw [List.mem_singleton.mp hz]
    exact .refl
  · induction hxy with
    | refl => exact hperm.mem_iff.mpr List.mem_cons_self
    | tail _ hc ih => exact hperm.mem_iff.mpr (List.mem_cons_of_mem x (List.mem_flatMap.mpr ⟨_, ih, hc⟩))

/-! ## One way -/

/-- What takes off each node once has one way to each. -/
theorem oneWay_of_nodup (hmem : ∀ y, y ∈ sub ↔ Reaches children x y) (hperm : sub.Perm (x :: sub.flatMap children))
    (hnodup : sub.Nodup) : OneWay children x := by
  obtain ⟨hx, hflat⟩ := List.nodup_cons.mp (hperm.nodup_iff.mp hnodup)
  obtain ⟨honce, hdisjoint⟩ := List.nodup_flatMap.mp hflat
  refine ⟨fun p hp hxp => hx (List.mem_flatMap.mpr ⟨p, (hmem p).mpr hp, hxp⟩),
    fun p hp => honce p ((hmem p).mpr hp), fun p q c hp hq hcp hcq => ?_⟩
  by_contra hne
  have : Std.Symm (Function.onFun List.Disjoint children) := ⟨fun _ _ h _ hq hp => h hp hq⟩
  exact hdisjoint.forall ((hmem p).mpr hp) ((hmem q).mpr hq) hne hcp hcq

/-- With one way to each of finitely many nodes, the run ends. -/
theorem OneWay.exists_drain (h : OneWay children x) {nodes : List α}
    (hnodes : ∀ p, ∀ c ∈ children p, c ∈ nodes) :
    ∃ sub, Returns (fun n => drain children n [x] []) sub ∧ sub.Nodup := by
  classical
  -- the reachable part is a forest with the start as its root
  have hexists : ∀ c, ∃ o : Option α, ∀ p, Reaches children x p ∧ c ∈ children p ↔ o = some p := by
    intro c
    by_cases hc : ∃ p, Reaches children x p ∧ c ∈ children p
    · obtain ⟨p, hp, hcp⟩ := hc
      refine ⟨some p, fun q => ⟨fun hq => congrArg some (h.single p q c hp hq.1 hcp hq.2), fun heq => ?_⟩⟩
      obtain rfl := Option.some.inj heq
      exact ⟨hp, hcp⟩
    · refine ⟨none, fun q => iff_of_false (fun hq => hc ⟨q, hq⟩) ?_⟩
      exact (Option.some_ne_none q).symm
  choose parent hparent using hexists
  let reachable : α → List α := fun p => if Reaches children x p then children p else []
  have hreachable : ∀ p c, c ∈ reachable p ↔ parent c = some p := by
    intro p c
    rw [← hparent]
    simp only [reachable]
    split
    · next hp => rw [and_iff_right hp]
    · next hp => exact iff_of_false List.not_mem_nil fun h => hp h.1
  have hroot : parent x = none := by
    refine Option.eq_none_iff_forall_ne_some.mpr fun p hp => ?_
    obtain ⟨hp, hxp⟩ := (hparent x p).mpr hp
    exact h.start p hp hxp
  have hnodup : ∀ p, (reachable p).Nodup := by
    intro p
    simp only [reachable]
    split
    · next hp => exact h.once p hp
    · exact List.nodup_nil
  have hlisted : ∀ c p, parent c = some p → c ∈ nodes := fun c p hp => hnodes p c ((hparent c p).mpr hp).2
  obtain ⟨n, hheight⟩ := exists_heightLE hroot (fun p c hc => (hreachable p c).mp hc) hlisted rooted_root
  obtain ⟨sub, hdrains, hsub, -⟩ := exists_drains hroot hreachable hnodup hheight rooted_root
  obtain ⟨n, hn⟩ := hdrains.returns
  refine ⟨sub, ⟨n, fun m hm => ?_⟩, hsub⟩
  have hsame : drain reachable m [x] [] = drain children m [x] [] := by
    refine drain_congr (fun p hp c hc => Reaches.child hp hc) (fun p hp => if_pos hp) m fun y hy => ?_
    rw [List.mem_singleton.mp hy]
    exact .refl
  exact hsame.symm.trans (hn m hm)

/-- **A run takes off each of finitely many nodes once** if and only if there is one way to each. -/
theorem exists_drain_iff {nodes : List α} (hnodes : ∀ p, ∀ c ∈ children p, c ∈ nodes) :
    (∃ sub, Returns (fun n => drain children n [x] []) sub ∧ sub.Nodup) ↔ OneWay children x := by
  refine ⟨?_, fun h => h.exists_drain hnodes⟩
  rintro ⟨sub, ⟨n, hn⟩, hnodup⟩
  obtain ⟨-, hmem, hperm⟩ := drain_spec (hn n (Nat.le_refl n))
  exact oneWay_of_nodup hmem hperm hnodup

end Forest
