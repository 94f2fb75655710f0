import Baloo.Lib.Fuel
import Mathlib.Data.List.Basic
import Mathlib.Logic.Function.Basic
import Mathlib.Logic.Relation

/-!
# Forests given by parent pointers

Nodes of an arbitrary type, a distinguished `root` that has no parent, and a partial map `parent`.
`Depth parent root n x` says that climbing from `x` reaches the root in exactly `n` steps, so
`Rooted` (some number of steps) is the absence of orphans and of cycles at once. The three edits of
such a forest are covered: hang a fresh node under a rooted one, drop a leaf, and move a node under
a rooted node that is not one of its own descendants.

The second half reads the forest downwards: `HeightLE children n x` bounds the recursion depth of a
walk from `x`, and a forest with finitely many nodes has such a bound everywhere. A work list that
replaces a node by its children (`drain`) therefore ends, with every node below the first one once.
-/

universe u

namespace Forest

variable {α : Type u} {parent parent' : α → Option α} {root : α}

/-- Climbing from `x` reaches the root after exactly `n` steps. -/
inductive Depth (parent : α → Option α) (root : α) : ℕ → α → Prop where
  /-- the root itself -/
  | root : Depth parent root 0 root
  /-- one step up, then the climb of the parent -/
  | step {n : ℕ} {x p : α} : parent x = some p → Depth parent root n p → Depth parent root (n + 1) x

/-- Climbing from `x` reaches the root. -/
def Rooted (parent : α → Option α) (root x : α) : Prop := ∃ n, Depth parent root n x

/-- `a` is `x` itself or one of the nodes met when climbing from `x`. -/
def Above (parent : α → Option α) (a x : α) : Prop :=
  Relation.ReflTransGen (fun x p => parent x = some p) x a

theorem rooted_root : Rooted parent root root := ⟨0, .root⟩

theorem Rooted.step {x p : α} (h : parent x = some p) (hp : Rooted parent root p) :
    Rooted parent root x := by
  obtain ⟨n, hn⟩ := hp
  exact ⟨n + 1, .step h hn⟩

/-- A climb that meets no changed pointer is a climb of the changed forest. -/
theorem Rooted.congr {x : α} (hx : Rooted parent root x)
    (h : ∀ y, Above parent y x → y ≠ root → parent' y = parent y) : Rooted parent' root x := by
  obtain ⟨n, hn⟩ := hx
  induction hn with
  | root => exact rooted_root
  | @step n x p hp hd ih =>
    by_cases hxr : x = root
    · exact hxr ▸ rooted_root
    · refine .step ((h x .refl hxr).trans hp) (ih fun y hy => h y ?_)
      exact Relation.ReflTransGen.head hp hy

/-- A climb that meets no changed pointer has its length in the changed forest. -/
theorem Depth.congr {n : ℕ} {x : α} (hx : Depth parent root n x)
    (h : ∀ y, Above parent y x → parent y ≠ none → parent' y = parent y) : Depth parent' root n x := by
  induction hx with
  | root => exact .root
  | @step n x p hp _ ih =>
    refine .step ((h x .refl (by rw [hp]; exact Option.some_ne_none p)).trans hp) (ih fun y hy => h y ?_)
    exact Relation.ReflTransGen.head hp hy

/-- Nodes met on a climb are not deeper. -/
theorem Depth.above {n : ℕ} {a x : α} (hx : Depth parent root n x) (ha : Above parent a x)
    (hroot : parent root = none) : ∃ m, m ≤ n ∧ Depth parent root m a := by
  induction hx with
  | root =>
    rcases Relation.ReflTransGen.cases_head ha with rfl | ⟨p, hp, -⟩
    · exact ⟨0, Nat.le_refl _, .root⟩
    · rw [hroot] at hp
      cases hp
  | @step n x p hp hd ih =>
    rcases Relation.ReflTransGen.cases_head ha with rfl | ⟨q, hq, hrest⟩
    · exact ⟨n + 1, Nat.le_refl _, .step hp hd⟩
    · obtain rfl : p = q := Option.some.inj (hp.symm.trans hq)
      obtain ⟨m, hm, hdepth⟩ := ih hrest
      exact ⟨m, Nat.le_succ_of_le hm, hdepth⟩

theorem Above.trans {a b x : α} (hab : Above parent a b) (hbx : Above parent b x) :
    Above parent a x :=
  Relation.ReflTransGen.trans hbx hab

/-- A climb that meets a rooted node reaches the root. -/
theorem Rooted.of_above {a x : α} (ha : Rooted parent root a) (h : Above parent a x) :
    Rooted parent root x := by
  induction h using Relation.ReflTransGen.head_induction_on with
  | refl => exact ha
  | head hp _ ih => exact ih.step hp

/-- Nodes met when climbing from a rooted node are the root or have a parent. -/
theorem Rooted.above {a x : α} (hx : Rooted parent root x) (ha : Above parent a x)
    (hroot : parent root = none) : a = root ∨ ∃ p, parent a = some p := by
  have hstart : x = root ∨ ∃ p, parent x = some p := by
    obtain ⟨n, hn⟩ := hx
    cases hn with
    | root => exact Or.inl rfl
    | step hp _ => exact Or.inr ⟨_, hp⟩
  induction ha using Relation.ReflTransGen.head_induction_on with
  | refl => exact hstart
  | @head x p hp _ ih =>
    obtain ⟨n, hn⟩ := hx
    cases hn with
    | root => rw [hroot] at hp; cases hp
    | @step m _ q hq hd =>
      obtain rfl : p = q := Option.some.inj (hp.symm.trans hq)
      refine ih ⟨m, hd⟩ ?_
      cases hd with
      | root => exact Or.inl rfl
      | step hq _ => exact Or.inr ⟨_, hq⟩

/-! ## The three edits -/

section Edits

variable [DecidableEq α]

/-- Hanging a fresh node `x` somewhere keeps every rooted node rooted. -/
theorem Rooted.insert {x y p : α} (hy : Rooted parent root y) (hroot : parent root = none)
    (hfresh : parent x = none) (hx : x ≠ root) :
    Rooted (Function.update parent x (some p)) root y := by
  refine hy.congr fun z hz hzr => Function.update_of_ne ?_ _ _
  rintro rfl
  rcases hy.above hz hroot with h | ⟨q, hq⟩
  · exact hx h
  · rw [hfresh] at hq
    cases hq

/-- A climb survives the insertion of a fresh node. -/
theorem Above.insert {a x y p : α} (h : Above parent a y) (hfresh : parent x = none) :
    Above (Function.update parent x (some p)) a y := by
  refine Relation.ReflTransGen.mono (fun z q hz => ?_) _ _ h
  rwa [Function.update_of_ne]
  rintro rfl
  rw [hfresh] at hz
  cases hz

/-- Dropping a leaf `x` keeps every other rooted node rooted. -/
theorem Rooted.delete {x y : α} (hy : Rooted parent root y) (hleaf : ∀ z, parent z ≠ some x)
    (hyx : y ≠ x) : Rooted (Function.update parent x none) root y := by
  refine hy.congr fun z hz _ => Function.update_of_ne ?_ _ _
  rintro rfl
  rcases Relation.ReflTransGen.cases_tail hz with h | ⟨w, -, hw⟩
  · exact hyx h.symm
  · exact hleaf w hw

/-- A climb to a moved node is still one. -/
theorem Above.move {x y p : α} (h : Above parent x y) : Above (Function.update parent x (some p)) x y := by
  induction h using Relation.ReflTransGen.head_induction_on with
  | refl => exact .refl
  | @head y z hy _ ih =>
    by_cases hyx : y = x
    · exact hyx ▸ .refl
    · exact .head ((Function.update_of_ne hyx ..).trans hy) ih

/-- Moving `x` under a rooted node `p` that is not `x` or below it keeps every rooted node
rooted. -/
theorem Rooted.move {x y p : α} (hy : Rooted parent root y) (hp : Rooted parent root p)
    (hnot : ¬ Above parent x p) : Rooted (Function.update parent x (some p)) root y := by
  have hp' : Rooted (Function.update parent x (some p)) root p := by
    refine hp.congr fun z hz _ => Function.update_of_ne ?_ _ _
    rintro rfl
    exact hnot hz
  have hx' : Rooted (Function.update parent x (some p)) root x :=
    .step (Function.update_self ..) hp'
  obtain ⟨n, hn⟩ := hy
  induction hn with
  | root => exact rooted_root
  | @step n y q hq _ ih =>
    by_cases hyx : y = x
    · exact hyx ▸ hx'
    · exact .step ((Function.update_of_ne hyx ..).trans hq) ih

end Edits

/-! ## Reading the forest downwards -/

/-- Walking down from `x` along `children` takes fewer than `n` steps. -/
def HeightLE (children : α → List α) : ℕ → α → Prop
  | 0, _ => False
  | n + 1, x => ∀ c ∈ children x, HeightLE children n c

/-- Fewer children make a walk no longer. -/
theorem HeightLE.mono {children children' : α → List α}
    (hsub : ∀ x, ∀ c ∈ children' x, c ∈ children x) :
    ∀ {n m : ℕ} {x : α}, n ≤ m → HeightLE children n x → HeightLE children' m x
  | 0, _, _, _, h => h.elim
  | _ + 1, 0, _, hnm, _ => absurd hnm (by omega)
  | _ + 1, _ + 1, _, hnm, h => fun c hc =>
    HeightLE.mono hsub (Nat.le_of_succ_le_succ hnm) (h c (hsub _ c hc))

/-- The number of steps to the root is determined. -/
theorem Depth.unique (hroot : parent root = none) {n m : ℕ} {x : α}
    (hn : Depth parent root n x) (hm : Depth parent root m x) : n = m := by
  induction hn generalizing m with
  | root =>
    cases hm with
    | root => rfl
    | step hp _ => rw [hroot] at hp; cases hp
  | @step n x p hp _ ih =>
    cases hm with
    | root => rw [hroot] at hp; cases hp
    | step hq hd =>
      obtain rfl := Option.some.inj (hp.symm.trans hq)
      rw [ih hd]

/-- A rooted node is not met again when climbing on from its parent. -/
theorem Rooted.not_above {x p : α} (hx : Rooted parent root x) (hroot : parent root = none)
    (hp : parent x = some p) : ¬ Above parent x p := by
  intro habove
  obtain ⟨n, hn⟩ := hx
  cases hn with
  | root => rw [hroot] at hp; cases hp
  | @step m _ q hq hd =>
    obtain rfl : p = q := Option.some.inj (hp.symm.trans hq)
    obtain ⟨k, hk, hdepth⟩ := hd.above habove hroot
    have hsame := hdepth.unique hroot (.step hp hd)
    omega

theorem exists_depth_bound (hroot : parent root = none) :
    ∀ nodes : List α, ∃ D, ∀ x ∈ nodes, ∀ n, Depth parent root n x → n ≤ D
  | [] => ⟨0, fun _ hx => absurd hx List.not_mem_nil⟩
  | x :: xs => by
    obtain ⟨D, hD⟩ := exists_depth_bound hroot xs
    by_cases hx : ∃ k, Depth parent root k x
    · obtain ⟨k, hk⟩ := hx
      refine ⟨max D k, fun y hy n hn => ?_⟩
      rcases List.mem_cons.mp hy with rfl | hy
      · rw [hn.unique hroot hk]
        exact Nat.le_max_right ..
      · exact Nat.le_trans (hD y hy n hn) (Nat.le_max_left ..)
    · refine ⟨D, fun y hy n hn => ?_⟩
      rcases List.mem_cons.mp hy with rfl | hy
      · exact absurd ⟨n, hn⟩ hx
      · exact hD y hy n hn

/-- In a forest whose nodes with a parent are all among finitely many, walks down from a rooted node
are bounded. -/
theorem exists_heightLE {children : α → List α} (hroot : parent root = none)
    (hchildren : ∀ x, ∀ c ∈ children x, parent c = some x) {nodes : List α}
    (hnodes : ∀ x p, parent x = some p → x ∈ nodes) {x : α} (hx : Rooted parent root x) :
    ∃ n, HeightLE children n x := by
  obtain ⟨D, hD⟩ := exists_depth_bound hroot nodes
  -- a node at depth `n` has at most `D - n` levels below it
  have hlevels : ∀ k n x, Depth parent root n x → D ≤ n + k → HeightLE children (k + 1) x := by
    intro k
    induction k with
    | zero =>
      intro n x hn hk c hc
      have hc' := hchildren x c hc
      have := hD c (hnodes c x hc') _ (.step hc' hn)
      omega
    | succ k ih =>
      intro n x hn hk c hc
      exact ih (n + 1) c (.step (hchildren x c hc) hn) (by omega)
  obtain ⟨n, hn⟩ := hx
  exact ⟨D + 1, hlevels D n x hn (Nat.le_add_left ..)⟩

/-! ## Subtrees from a work list -/

/-- Of two nodes met on one climb one is met when climbing from the other. -/
theorem Above.total {a b x : α} (ha : Above parent a x) (hb : Above parent b x) :
    Above parent a b ∨ Above parent b a :=
  (Relation.ReflTransGen.total_of_right_unique
    (fun _ _ _ hp hq => Option.some.inj (hp.symm.trans hq)) hb ha).symm.symm

/-- Two nodes with the same parent have nothing below them in common. -/
theorem Above.sibling {c d p x : α} (hroot : parent root = none) (hc : parent c = some p)
    (hd : parent d = some p) (hrooted : Rooted parent root c) (hrooted' : Rooted parent root d)
    (hcx : Above parent c x) (hdx : Above parent d x) : c = d := by
  have hapart : ∀ {a b}, parent a = some p → parent b = some p → Rooted parent root a →
      Above parent a b → a = b := by
    intro a b ha hb hrooted hab
    rcases Relation.ReflTransGen.cases_head hab with heq | ⟨q, hq, hrest⟩
    · exact heq.symm
    · obtain rfl : p = q := Option.some.inj (hb.symm.trans hq)
      exact absurd hrest (hrooted.not_above hroot ha)
  rcases hcx.total hdx with h | h
  · exact hapart hc hd hrooted h
  · exact (hapart hd hc hrooted' h).symm

/-- A work list: the last node is taken off and its children are put there; `out` are the nodes that
have been taken off. -/
def drain (children : α → List α) : ℕ → List α → List α → Option (List α)
  | 0, _, _ => none
  | fuel + 1, work, out =>
    match work.getLast? with
    | none => some out
    | some x => drain children fuel (work.dropLast ++ children x) (out ++ [x])

/-- Working off `xs` at the end of the list takes off the nodes `sub`. -/
def Drains (children : α → List α) (xs sub : List α) : Prop :=
  ∃ k, ∀ rest out m, drain children (m + k) (rest ++ xs) out = drain children m rest (out ++ sub)

section Drain

variable {children : α → List α} {xs ys sub sub' : List α} {x p : α}

theorem Drains.nil : Drains children [] [] := ⟨0, fun rest out m => by simp⟩

theorem Drains.append (h : Drains children xs sub) (h' : Drains children ys sub') :
    Drains children (xs ++ ys) (sub' ++ sub) := by
  obtain ⟨k, hk⟩ := h
  obtain ⟨k', hk'⟩ := h'
  refine ⟨k + k', fun rest out m => ?_⟩
  rw [← List.append_assoc, ← Nat.add_assoc, hk', hk, List.append_assoc]

/-- A node is followed by what its children lead to. -/
theorem Drains.node (h : Drains children (children x) sub) : Drains children [x] (x :: sub) := by
  obtain ⟨k, hk⟩ := h
  refine ⟨k + 1, fun rest out m => ?_⟩
  rw [← Nat.add_assoc, drain]
  simp only [List.getLast?_append, List.getLast?_singleton, Option.some_or, List.dropLast_concat]
  rw [hk, List.append_assoc, List.singleton_append]

theorem Drains.returns (h : Drains children xs sub) :
    Fuel.Returns (fun n => drain children n xs []) sub := by
  obtain ⟨k, hk⟩ := h
  refine ⟨k + 1, fun n hn => ?_⟩
  obtain ⟨m, rfl⟩ : ∃ m, n = (m + 1) + k := ⟨n - k - 1, by omega⟩
  exact (hk [] [] (m + 1)).trans rfl

/-- The nodes below some siblings, if each of them leads to the nodes below it. -/
theorem exists_drains_siblings (hroot : parent root = none) (hnodup : xs.Nodup)
    (hparent : ∀ c ∈ xs, parent c = some p) (hrooted : ∀ c ∈ xs, Rooted parent root c)
    (h : ∀ c ∈ xs, ∃ sub, Drains children [c] sub ∧ sub.Nodup ∧ ∀ y, y ∈ sub ↔ Above parent c y) :
    ∃ sub, Drains children xs sub ∧ sub.Nodup ∧ ∀ y, y ∈ sub ↔ ∃ c ∈ xs, Above parent c y := by
  induction xs with
  | nil => exact ⟨[], .nil, List.nodup_nil, fun y => by simp⟩
  | cons c xs ih =>
    obtain ⟨hc, hxs⟩ := List.nodup_cons.mp hnodup
    obtain ⟨sub, hdrains, hsub, hmem⟩ := h c List.mem_cons_self
    obtain ⟨sub', hdrains', hsub', hmem'⟩ := ih hxs
      (fun d hd => hparent d (List.mem_cons_of_mem _ hd))
      (fun d hd => hrooted d (List.mem_cons_of_mem _ hd))
      (fun d hd => h d (List.mem_cons_of_mem _ hd))
    refine ⟨sub' ++ sub, hdrains.append hdrains', ?_, fun y => ?_⟩
    · refine List.nodup_append.mpr ⟨hsub', hsub, fun y hy' z hy hyz => ?_⟩
      -- a node below `c` and below a later sibling
      subst hyz
      obtain ⟨d, hd, hdy⟩ := (hmem' y).mp hy'
      have hsame : c = d := Above.sibling hroot (hparent c List.mem_cons_self)
        (hparent d (List.mem_cons_of_mem _ hd)) (hrooted c List.mem_cons_self)
        (hrooted d (List.mem_cons_of_mem _ hd)) ((hmem y).mp hy) hdy
      exact hc (hsame ▸ hd)
    · rw [List.mem_append, hmem, hmem', List.exists_mem_cons_iff, or_comm]

/-- **A work list takes off every node below the first one, each once.** -/
theorem exists_drains (hroot : parent root = none)
    (hchildren : ∀ x c, c ∈ children x ↔ parent c = some x) (hnodup : ∀ x, (children x).Nodup)
    {n : ℕ} (h : HeightLE children n x) (hx : Rooted parent root x) :
    ∃ sub, Drains children [x] sub ∧ sub.Nodup ∧ ∀ y, y ∈ sub ↔ Above parent x y := by
  induction n generalizing x with
  | zero => exact h.elim
  | succ n ih =>
    have hrooted : ∀ c ∈ children x, Rooted parent root c := fun c hc =>
      .step ((hchildren x c).mp hc) hx
    obtain ⟨sub, hdrains, hsub, hmem⟩ := exists_drains_siblings hroot (hnodup x)
      (fun c hc => (hchildren x c).mp hc) hrooted (fun c hc => ih (h c hc) (hrooted c hc))
    refine ⟨x :: sub, hdrains.node, List.nodup_cons.mpr ⟨fun hxs => ?_, hsub⟩, fun y => ?_⟩
    · -- the node is not below one of its children
      obtain ⟨c, hc, hcx⟩ := (hmem x).mp hxs
      exact (hrooted c hc).not_above hroot ((hchildren x c).mp hc) hcx
    · rw [List.mem_cons, hmem]
      constructor
      · rintro (rfl | ⟨c, hc, hcy⟩)
        · exact .refl
        · exact hcy.tail ((hchildren x c).mp hc)
      · intro hxy
        rcases Relation.ReflTransGen.cases_tail hxy with heq | ⟨c, hcy, hc⟩
        · exact .inl heq.symm
        · exact .inr ⟨c, (hchildren x c).mpr hc, hcy⟩

end Drain

end Forest
