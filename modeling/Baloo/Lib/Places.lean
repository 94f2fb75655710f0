import Mathlib.Data.List.Infix
import Mathlib.Data.List.Sort

/-!
# Places in a list

The elements of a list are numbered one after another, and an element stands at some of the numbers. A
pattern occurs in the list side by side exactly if its elements have places one behind another. Where a list
is made of parts, a pattern that avoids what separates the parts occurs within one of them.
-/

universe u v

namespace Places

variable {α : Type u} {β : Type v}

section

variable [DecidableEq α] {p n : ℕ} {a : α} {l : List α}

/-- The places of `a` in a list that is numbered from `p` on. -/
def places (p : ℕ) (a : α) : List α → List ℕ
  | [] => []
  | x :: l => if x = a then p :: places (p + 1) a l else places (p + 1) a l

theorem mem_places : n ∈ places p a l ↔ ∃ j, l[j]? = some a ∧ n = p + j := by
  induction l generalizing p with
  | nil => simp [places]
  | cons x l ih =>
    have hcons : (∃ j, (x :: l)[j]? = some a ∧ n = p + j) ↔
        x = a ∧ n = p ∨ ∃ j, l[j]? = some a ∧ n = p + 1 + j := by
      constructor
      · rintro ⟨_ | j, hj, rfl⟩
        · exact .inl ⟨Option.some.inj hj, rfl⟩
        · exact .inr ⟨j, hj, by omega⟩
      · rintro (⟨rfl, rfl⟩ | ⟨j, hj, rfl⟩)
        · exact ⟨0, rfl, rfl⟩
        · exact ⟨j + 1, hj, by omega⟩
    rw [hcons, ← ih, places]
    split
    · next hx => simp [hx]
    · next hx => simp [hx]

theorem places_append (l m : List α) : places p a (l ++ m) = places p a l ++ places (p + l.length) a m := by
  induction l generalizing p with
  | nil => rfl
  | cons x l ih =>
    have hlen : p + 1 + l.length = p + (x :: l).length := by
      rw [List.length_cons]
      omega
    rw [List.cons_append, places, places, ih, hlen]
    split <;> rfl

theorem places_eq_nil (h : a ∉ l) : places p a l = [] := by
  refine List.eq_nil_iff_forall_not_mem.mpr fun n hn => ?_
  obtain ⟨j, hj, -⟩ := mem_places.mp hn
  exact h (List.mem_of_getElem? hj)

theorem le_of_mem_places (h : n ∈ places p a l) : p ≤ n ∧ n < p + l.length := by
  obtain ⟨j, hj, rfl⟩ := mem_places.mp h
  have hlt := (List.getElem?_eq_some_iff.mp hj).1
  omega

/-- The places ascend. -/
theorem places_ascending (p : ℕ) (a : α) (l : List α) : (places p a l).Pairwise (· < ·) := by
  induction l generalizing p with
  | nil => exact List.Pairwise.nil
  | cons x l ih =>
    rw [places]
    split
    · exact List.pairwise_cons.mpr ⟨fun n hn => (le_of_mem_places hn).1, ih (p + 1)⟩
    · exact ih (p + 1)

/-- An element of a list without repetitions has one place. -/
theorem places_of_nodup (hl : l.Nodup) {j : ℕ} (hj : l[j]? = some a) : places p a l = [p + j] := by
  refine (places_ascending p a l).eq_of_mem_iff (List.pairwise_singleton _ _) fun n => ?_
  rw [mem_places, List.mem_singleton]
  constructor
  · rintro ⟨i, hi, rfl⟩
    obtain ⟨hlt, heq⟩ := List.getElem?_eq_some_iff.mp hi
    obtain ⟨hlt', heq'⟩ := List.getElem?_eq_some_iff.mp hj
    obtain rfl := (@List.Nodup.getElem_inj_iff _ _ hl i hlt j hlt').mp (heq.trans heq'.symm)
    rfl
  · rintro rfl
    exact ⟨j, hj, rfl⟩

/-- **A pattern occurs side by side** exactly if its elements have places one behind another. -/
theorem exists_places_iff {pattern : List α} (hne : pattern ≠ []) :
    (∃ N, ∀ k a, pattern[k]? = some a → N + k ∈ places p a l) ↔ pattern <:+: l := by
  simp only [mem_places, List.infix_iff_getElem?]
  constructor
  · rintro ⟨N, h⟩
    obtain ⟨first, rest, rfl⟩ := List.exists_cons_of_ne_nil hne
    obtain ⟨j, -, hj⟩ := h 0 first rfl
    have hstands : ∀ k (hk : k < (first :: rest).length), l[k + j]? = some (first :: rest)[k] := by
      intro k hk
      obtain ⟨j', hj', heq⟩ := h k _ (List.getElem?_eq_getElem hk)
      obtain rfl : j' = k + j := by omega
      exact hj'
    refine ⟨j, ?_, hstands⟩
    have hlast := (List.getElem?_eq_some_iff.mp (hstands rest.length (by simp))).1
    rw [List.length_cons]
    omega
  · rintro ⟨j, -, h⟩
    refine ⟨p + j, fun k a hk => ?_⟩
    obtain ⟨hlt, rfl⟩ := List.getElem?_eq_some_iff.mp hk
    exact ⟨k + j, h k hlt, by omega⟩

end

/-! ## Parts -/

variable {pattern xs ys : List α} {sep : α}

theorem map_infix_map_iff {f : α → β} (hf : Function.Injective f) : pattern.map f <:+: xs.map f ↔ pattern <:+: xs := by
  rw [List.infix_map_iff]
  constructor
  · rintro ⟨l, hl, heq⟩
    exact List.map_injective_iff.mpr hf heq ▸ hl
  · exact fun h => ⟨pattern, h, rfl⟩

/-- A pattern that has nothing of the second part. -/
theorem infix_append_of_avoids_right (hne : pattern ≠ []) (h : ∀ a ∈ pattern, a ∉ ys) :
    pattern <:+: xs ++ ys ↔ pattern <:+: xs := by
  refine ⟨fun hinfix => ?_, fun hinfix => List.infix_append_of_infix_left hinfix⟩
  rcases List.infix_append_iff_ne_nil.mp hinfix with hxs | hys | ⟨l₁, l₂, -, hl₂, rfl, -, hpre⟩
  · exact hxs
  · obtain ⟨a, ha⟩ := List.exists_mem_of_ne_nil _ hne
    exact absurd (hys.subset ha) (h a ha)
  · obtain ⟨a, ha⟩ := List.exists_mem_of_ne_nil _ hl₂
    exact absurd (hpre.subset ha) (h a (List.mem_append_right _ ha))

/-- A pattern that has nothing of the first part. -/
theorem infix_append_of_avoids_left (hne : pattern ≠ []) (h : ∀ a ∈ pattern, a ∉ xs) :
    pattern <:+: xs ++ ys ↔ pattern <:+: ys := by
  refine ⟨fun hinfix => ?_, fun hinfix => List.infix_append_of_infix_right hinfix⟩
  rcases List.infix_append_iff_ne_nil.mp hinfix with hxs | hys | ⟨l₁, l₂, hl₁, -, rfl, hsuf, -⟩
  · obtain ⟨a, ha⟩ := List.exists_mem_of_ne_nil _ hne
    exact absurd (hxs.subset ha) (h a ha)
  · exact hys
  · obtain ⟨a, ha⟩ := List.exists_mem_of_ne_nil _ hl₁
    exact absurd (hsuf.subset ha) (h a (List.mem_append_left _ ha))

/-- A pattern does not cross a separator. -/
theorem infix_append_separator (hne : pattern ≠ []) (h : sep ∉ pattern) :
    pattern <:+: xs ++ [sep] ++ ys ↔ pattern <:+: xs ∨ pattern <:+: ys := by
  have hsep : ∀ {l : List α}, l ≠ [] → l <+: [sep] ++ ys → sep ∈ l := by
    intro l hl hpre
    obtain ⟨a, l, rfl⟩ := List.exists_cons_of_ne_nil hl
    obtain ⟨rfl, -⟩ := List.cons_prefix_cons.mp hpre
    exact List.mem_cons_self
  rw [List.append_assoc]
  constructor
  · intro hinfix
    rcases List.infix_append_iff_ne_nil.mp hinfix with hxs | hys | ⟨l₁, l₂, -, hl₂, rfl, -, hpre⟩
    · exact .inl hxs
    · refine .inr ((infix_append_of_avoids_left hne fun a ha hmem => ?_).mp hys)
      exact h (List.mem_singleton.mp hmem ▸ ha)
    · exact absurd (List.mem_append_right _ (hsep hl₂ hpre)) h
  · rintro (hxs | hys)
    · exact List.infix_append_of_infix_left hxs
    · exact List.infix_append_of_infix_right (List.infix_append_of_infix_right hys)

/-- Parts that are empty or end with a separator: a pattern occurs in one of them. -/
theorem infix_flatten_iff {parts : List (List α)} (hne : pattern ≠ []) (h : sep ∉ pattern)
    (hparts : ∀ part ∈ parts, part = [] ∨ ∃ xs, part = xs ++ [sep]) :
    pattern <:+: parts.flatten ↔ ∃ part ∈ parts, pattern <:+: part := by
  induction parts with
  | nil => simpa using hne
  | cons part parts ih =>
    obtain ⟨hpart, hparts⟩ := List.forall_mem_cons.mp hparts
    rw [List.flatten_cons, List.exists_mem_cons_iff, ← ih hparts]
    rcases hpart with rfl | ⟨xs, rfl⟩
    · simp [hne]
    · have hend : pattern <:+: xs ++ [sep] ↔ pattern <:+: xs :=
        infix_append_of_avoids_right hne fun a ha hmem => h (List.mem_singleton.mp hmem ▸ ha)
      rw [infix_append_separator hne h, hend]

end Places
