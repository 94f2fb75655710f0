import Mathlib.Data.List.Basic
import Mathlib.Data.List.Destutter
import Mathlib.Data.List.Sort
import Mathlib.Order.Basic

/-!
# Sequences kept ascending by a key

A vector that stands for a finite set (or, with a payload beside the key, a finite map): its
elements have strictly ascending keys. `insert` looks for the first element whose key is not below
the new one and leaves the vector alone when the keys agree; `erase` drops the first element with
the key. On ascending vectors these are the set operations, which is what the lemmas say; a lookup
by key is `find`.
-/

universe u v

namespace SortedSeq

variable {α : Type u} {β : Type v} [LinearOrder β] (key : α → β)

/-- Strictly ascending keys. -/
def Ascending (l : List α) : Prop := l.Pairwise fun a b => key a < key b

/-- Insert `x` before the first element whose key is not below `key x`, unless that element already
has this key. -/
def insert (x : α) : List α → List α
  | [] => [x]
  | y :: ys =>
    if key y < key x then y :: insert x ys
    else if key x = key y then y :: ys
    else x :: y :: ys

/-- Drop the first element with the key of `x`. -/
def erase (x : α) (l : List α) : List α := l.eraseP fun y => key y = key x

/-- The element with key `i`, if there is one. -/
def find (i : β) (l : List α) : Option α := l.find? fun y => key y = i

variable {key}

theorem mem_of_mem_insert {x z : α} {l : List α} (h : z ∈ insert key x l) : z = x ∨ z ∈ l := by
  induction l with
  | nil => exact Or.inl (by simpa [insert] using h)
  | cons y ys ih =>
    rw [insert] at h
    split at h
    · rcases List.mem_cons.mp h with rfl | h
      · exact Or.inr (List.mem_cons_self ..)
      · exact (ih h).imp_right (List.mem_cons_of_mem _)
    · split at h
      · exact Or.inr h
      · exact List.mem_cons.mp h

theorem insert_ne_nil (x : α) (l : List α) : insert key x l ≠ [] := by
  cases l with
  | nil => simp [insert]
  | cons y ys => rw [insert]; split <;> [skip; split] <;> simp

theorem ascending_nil : Ascending key ([] : List α) := List.Pairwise.nil

theorem ascending_insert {x : α} {l : List α} (hl : Ascending key l) :
    Ascending key (insert key x l) := by
  induction l with
  | nil => exact List.pairwise_singleton ..
  | cons y ys ih =>
    obtain ⟨hy, hys⟩ := List.pairwise_cons.mp hl
    rw [insert]
    split
    · -- the new element goes somewhere behind `y`
      next hyx =>
      refine List.pairwise_cons.mpr ⟨fun z hz => ?_, ih hys⟩
      rcases mem_of_mem_insert hz with rfl | hz
      · exact hyx
      · exact hy z hz
    · split
      · exact hl
      · next hyx hne =>
        have hxy : key x < key y := lt_of_le_of_ne (not_lt.mp hyx) hne
        refine List.pairwise_cons.mpr ⟨fun z hz => ?_, hl⟩
        rcases List.mem_cons.mp hz with rfl | hz
        · exact hxy
        · exact hxy.trans (hy z hz)

theorem ascending_erase {x : α} {l : List α} (hl : Ascending key l) :
    Ascending key (erase key x l) :=
  hl.sublist List.eraseP_sublist

/-- A lookup after an insertion: an element that is already there keeps its place and payload. -/
theorem find_insert {x : α} {l : List α} (hl : Ascending key l) (i : β) :
    find key i (insert key x l) = if i = key x then some ((find key i l).getD x) else find key i l := by
  induction l with
  | nil => simp [insert, find, eq_comm]
  | cons y ys ih =>
    obtain ⟨hy, hys⟩ := List.pairwise_cons.mp hl
    have ih := ih hys
    simp only [find] at ih
    rw [insert]
    split
    · next hyx =>
      by_cases hyi : key y = i
      · have hix : i ≠ key x := by rintro rfl; exact absurd hyi hyx.ne
        simp [find, hyi, hix]
      · simp [find, hyi, ih]
    · next hyx =>
      split
      · next hxy =>
        by_cases hyi : key y = i
        · simp [find, hyi]
        · have hix : i ≠ key x := fun h => hyi (hxy.symm.trans h.symm)
          simp [find, hix]
      · next hne =>
        have hxy : key x < key y := lt_of_le_of_ne (not_lt.mp hyx) hne
        by_cases hix : i = key x
        · -- nothing behind the insertion point has the key of `x`
          have habs : (y :: ys).find? (fun z => key z = i) = none := by
            rw [List.find?_eq_none]
            intro z hz
            rcases List.mem_cons.mp hz with rfl | hz
            · simpa [hix] using hxy.ne'
            · simpa [hix] using (hxy.trans (hy z hz)).ne'
          simp only [find, habs]
          simp [hix]
        · simp [find, Ne.symm hix, hix]

/-- A lookup after an erasure. -/
theorem find_erase {x : α} {l : List α} (hl : Ascending key l) (i : β) :
    find key i (erase key x l) = if i = key x then none else find key i l := by
  induction l with
  | nil => simp [erase, find]
  | cons y ys ih =>
    obtain ⟨hy, hys⟩ := List.pairwise_cons.mp hl
    have ih := ih hys
    simp only [find, erase] at ih
    by_cases hyx : key y = key x
    · by_cases hix : i = key x
      · have habs : ys.find? (fun z => key z = i) = none := by
          rw [List.find?_eq_none]
          intro z hz
          simpa [hix, ← hyx] using (hy z hz).ne'
        simpa [find, erase, hyx, hix] using habs
      · simp [find, erase, hyx, hix, Ne.symm hix]
    · by_cases hyi : key y = i
      · have hix : i ≠ key x := fun h => hyx (hyi.trans h)
        simp [find, erase, hyi, hix]
      · simp [find, erase, hyx, hyi, ih]

theorem find_key {i : β} {l : List α} {x : α} (h : find key i l = some x) : key x = i := by
  simpa using List.find?_some h

theorem mem_of_find {i : β} {l : List α} {x : α} (h : find key i l = some x) : x ∈ l :=
  List.mem_of_find?_eq_some h

/-- In an ascending sequence an element is found by its key. -/
theorem find_of_mem {l : List α} (hl : Ascending key l) {x : α} (h : x ∈ l) :
    find key (key x) l = some x := by
  induction l with
  | nil => cases h
  | cons y ys ih =>
    obtain ⟨hy, hys⟩ := List.pairwise_cons.mp hl
    rcases List.mem_cons.mp h with rfl | h
    · simp [find]
    · have hne : key y ≠ key x := (hy x h).ne
      simpa [find, hne] using ih hys h

/-- Ascending sequences with the same elements are the same. -/
theorem Ascending.ext {l l' : List α} (hl : Ascending key l) (hl' : Ascending key l')
    (h : ∀ x, x ∈ l ↔ x ∈ l') : l = l' := by
  have hnodup : ∀ {l : List α}, Ascending key l → l.Nodup := fun hl => hl.imp fun hlt heq => by
    rw [heq] at hlt
    exact lt_irrefl _ hlt
  have hperm : l.Perm l' := (List.perm_ext_iff_of_nodup (hnodup hl) (hnodup hl')).mpr h
  exact hperm.eq_of_pairwise (fun a b _ _ hab hba => absurd (hab.trans hba) (lt_irrefl _)) hl hl'

/-- Dropping what is below a bound drops nothing else. -/
theorem mem_dropWhile {l : List α} (hl : Ascending key l) {b : β} {x : α} :
    x ∈ l.dropWhile (fun y => decide (key y < b)) ↔ x ∈ l ∧ b ≤ key x := by
  induction l with
  | nil => simp
  | cons y ys ih =>
    obtain ⟨hy, hys⟩ := List.pairwise_cons.mp hl
    rw [List.dropWhile_cons]
    split
    · next hlt =>
      rw [ih hys, List.mem_cons]
      refine ⟨fun h => ⟨Or.inr h.1, h.2⟩, fun h => ⟨h.1.resolve_left ?_, h.2⟩⟩
      rintro rfl
      exact absurd (of_decide_eq_true hlt) (not_lt.mpr h.2)
    · next hnot =>
      have hby : b ≤ key y := not_lt.mp fun hlt => hnot (decide_eq_true hlt)
      refine ⟨fun h => ⟨h, ?_⟩, And.left⟩
      rcases List.mem_cons.mp h with rfl | h
      · exact hby
      · exact hby.trans (hy x h).le

theorem Ascending.dropWhile {l : List α} (hl : Ascending key l) (p : α → Bool) :
    Ascending key (l.dropWhile p) := List.Pairwise.sublist (List.dropWhile_sublist p) hl

/-- Reading up to a bound reads everything up to it. -/
theorem mem_takeWhile {l : List α} (hl : Ascending key l) {e : β} {x : α} :
    x ∈ l.takeWhile (fun y => decide (key y ≤ e)) ↔ x ∈ l ∧ key x ≤ e := by
  induction l with
  | nil => simp
  | cons y ys ih =>
    obtain ⟨hy, hys⟩ := List.pairwise_cons.mp hl
    rw [List.takeWhile_cons]
    split
    · next hle =>
      rw [List.mem_cons, ih hys, List.mem_cons]
      refine ⟨?_, ?_⟩
      · rintro (rfl | h)
        · exact ⟨Or.inl rfl, of_decide_eq_true hle⟩
        · exact ⟨Or.inr h.1, h.2⟩
      · rintro ⟨rfl | h, hx⟩
        · exact Or.inl rfl
        · exact Or.inr ⟨h, hx⟩
    · next hnot =>
      refine ⟨fun h => absurd h List.not_mem_nil, fun ⟨h, hx⟩ => ?_⟩
      have hye : e < key y := not_le.mp fun hle => hnot (decide_eq_true hle)
      rcases List.mem_cons.mp h with rfl | h
      · exact absurd hx (not_le.mpr hye)
      · exact absurd (hx.trans hye.le) (not_le.mpr (hy x h))

/-- The elements behind the first one. -/
theorem Ascending.lt_of_mem_tail {y x : α} {ys : List α} (hl : Ascending key (y :: ys)) (h : x ∈ ys) :
    key y < key x := (List.pairwise_cons.mp hl).1 x h

/-! ## Plain sets: the key is the element -/

section Plain

variable {l : List β}

theorem mem_iff_find {i : β} : i ∈ l ↔ find id i l = some i := by
  constructor
  · intro h
    obtain ⟨y, hy⟩ : ∃ y, find id i l = some y := by
      rw [← Option.isSome_iff_exists, find, List.find?_isSome]
      exact ⟨i, h, by simp⟩
    rw [hy, show y = i from find_key hy]
  · exact mem_of_find

theorem mem_insert (hl : Ascending id l) {x i : β} : i ∈ insert id x l ↔ i = x ∨ i ∈ l := by
  rw [mem_iff_find, find_insert hl, mem_iff_find]
  by_cases h : i = x
  · subst h
    rcases hf : find id i l with _ | y
    · simp
    · simp [show y = i from find_key hf]
  · simp [h]

theorem mem_erase (hl : Ascending id l) {x i : β} : i ∈ erase id x l ↔ i ≠ x ∧ i ∈ l := by
  rw [mem_iff_find, find_erase hl, mem_iff_find]
  by_cases h : i = x <;> simp [h]

/-- Erasing undoes inserting. -/
theorem erase_insert (hl : Ascending id l) {x : β} (hx : x ∉ l) : erase id x (insert id x l) = l := by
  apply Ascending.ext (ascending_erase (ascending_insert hl)) hl
  intro i
  rw [mem_erase (ascending_insert hl), mem_insert hl]
  refine ⟨fun h => h.2.resolve_left h.1, fun h => ⟨?_, .inr h⟩⟩
  rintro rfl
  exact hx h

/-- And inserting undoes erasing. -/
theorem insert_erase (hl : Ascending id l) {x : β} (hx : x ∈ l) : insert id x (erase id x l) = l := by
  apply Ascending.ext (ascending_insert (ascending_erase hl)) hl
  intro i
  rw [mem_insert (ascending_erase hl), mem_erase hl]
  constructor
  · rintro (rfl | h)
    · exact hx
    · exact h.2
  · intro h
    by_cases hi : i = x
    · exact .inl hi
    · exact .inr ⟨hi, h⟩

/-- Sort a vector and drop the repetitions. -/
def sortUnique (l : List β) : List β := (l.mergeSort (· ≤ ·)).destutter (· ≠ ·)

theorem mem_destutter' {x : β} (a : β) : x ∈ l.destutter' (· ≠ ·) a ↔ x ∈ a :: l := by
  induction l generalizing a with
  | nil => rw [List.destutter'_nil]
  | cons b l ih =>
    rw [List.destutter'_cons]
    split
    · rw [List.mem_cons, ih b, ← List.mem_cons]
    · next hab =>
      obtain rfl : a = b := not_not.mp hab
      rw [ih a, List.mem_cons, List.mem_cons, List.mem_cons, ← or_assoc, or_self]

/-- Dropping repetitions next to each other drops no element. -/
theorem mem_destutter {x : β} : x ∈ l.destutter (· ≠ ·) ↔ x ∈ l := by
  cases l with
  | nil => rfl
  | cons a l => rw [List.destutter_cons', mem_destutter']

theorem mem_sortUnique {x : β} : x ∈ sortUnique l ↔ x ∈ l := by
  rw [sortUnique, mem_destutter, List.mem_mergeSort]

/-- What is left is strictly ascending. -/
theorem ascending_sortUnique (l : List β) : Ascending id (sortUnique l) := by
  have hsorted : (sortUnique l).Pairwise (· ≤ ·) :=
    (List.pairwise_mergeSort' (· ≤ ·) l).sublist (List.destutter_sublist _ _)
  have hchain : (sortUnique l).IsChain (· ≠ ·) := List.isChain_destutter (· ≠ ·) _
  have hlt : (sortUnique l).IsChain (· < ·) := List.isChain_iff_getElem.mpr fun i hi =>
    lt_of_le_of_ne (List.pairwise_iff_getElem.mp hsorted i (i + 1) _ hi (Nat.lt_succ_self i))
      (List.isChain_iff_getElem.mp hchain i hi)
  exact List.isChain_iff_pairwise.mp hlt

end Plain

end SortedSeq
