import Baloo.Posting
import Baloo.Lib.Cursor
import Mathlib.Order.Bounds.Basic

/-!
# Posting iterators compute Boolean algebra

Every posting iterator is a cursor over the set its tree denotes, whatever calls are made on it.
There is one simulation for each class (`VectorAt`, `AndAt`, `OrAt`), stated with cursors for the
iterators below, so the classes can be nested in any way.

The leapfrog of the intersection is `skipAll_behind`: as long as no iterator has passed the bound, a
round moves the bound up and never past a common id. An intersection that is exhausted may have
iterators left that are not; that it stays exhausted is `skipAll_exhausted`.
-/

namespace Baloo

open Cursor (Position Methods Simulation Implements)
open Cursor.Position (Lands Next SkipTo ofDoc)
open Fuel (Returns)

namespace PostingIterator

/-- The virtual methods. -/
def methods : Methods PostingIterator where
  docId := docId
  next := next
  skipTo := skipTo

/-- The iterator is a cursor over `S` at `p`. -/
abbrev Is (it : PostingIterator) (S : Set ℕ) (p : Position) : Prop := Implements methods it S p

/-! ## Vectors -/

/-- A vector of ids at a position of the cursor over its ids. -/
inductive VectorAt : PostingIterator → Set ℕ → Position → Prop
  /-- nothing has been read -/
  | start {values : List DocId} : values.Pairwise (· < ·) → 0 ∉ values →
    VectorAt (vector values (-1)) {x | x ∈ values} .start
  /-- the part before `e` has been read -/
  | on {pre rest : List DocId} {e : DocId} : (pre ++ e :: rest).Pairwise (· < ·) →
    0 ∉ pre ++ e :: rest →
    VectorAt (vector (pre ++ e :: rest) pre.length) {x | x ∈ pre ++ e :: rest} (.on e)
  /-- everything has been read -/
  | exhausted {S : Set ℕ} {pos : ℤ} : 0 ≤ pos → VectorAt (vector [] pos) S .exhausted

theorem vectorNext_split (pre rest : List DocId) :
    vectorNext (pre ++ rest) (pre.length - 1) =
      match rest with
      | [] => (vector [] pre.length, 0)
      | e :: _ => (vector (pre ++ rest) pre.length, e) := by
  cases rest with
  | nil => simp [vectorNext]
  | cons e rest =>
    rw [vectorNext, if_neg (by rw [List.length_append, List.length_cons]; push_cast; omega)]
    simp

theorem VectorAt.docId {it : PostingIterator} {S : Set ℕ} {p : Position} (h : VectorAt it S p) :
    it.docId = p.doc := by
  cases h with
  | start _ _ => rfl
  | @on pre rest e _ _ =>
    rw [PostingIterator.docId, if_neg (by rw [List.length_append, List.length_cons]; omega)]
    simp [Position.doc]
  | exhausted _ => rw [PostingIterator.docId, if_pos (by simpa using by omega)]; rfl

/-- Where the cursor lands behind the part `pre` of a vector. -/
theorem lands_split {pre : List DocId} {b : ℕ} {rest : List DocId}
    (h : (pre ++ rest).Pairwise (· < ·)) (hpre : ∀ x ∈ pre, x < b) (hrest : ∀ x ∈ rest, b ≤ x) :
    Lands {x | x ∈ pre ++ rest} b (match rest with | [] => .exhausted | e :: _ => .on e) := by
  cases rest with
  | nil => exact fun x hx => hpre x (by simpa using hx)
  | cons e rest =>
    refine ⟨⟨by simp, hrest e (by simp)⟩, fun x hx => ?_⟩
    rcases List.mem_append.mp hx.1 with hmem | hmem
    · exact absurd (hpre x hmem) (not_lt.mpr hx.2)
    · rcases List.mem_cons.mp hmem with rfl | hmem
      · exact le_refl _
      · exact (List.rel_of_pairwise_cons (List.pairwise_append.mp h).2.1 hmem).le

theorem VectorAt.next {it : PostingIterator} {S : Set ℕ} {p : Position} (h : VectorAt it S p) :
    ∃ it' p', Next S p p' ∧ (∀ n, PostingIterator.next (n + 1) it = some (it', p'.doc)) ∧
      VectorAt it' S p' := by
  -- the ids behind the current one
  have hcut : ∀ (pre rest : List DocId) (b : ℕ), (pre ++ rest).Pairwise (· < ·) →
      0 ∉ pre ++ rest → (∀ x ∈ pre, x < b) → (∀ x ∈ rest, b ≤ x) →
      ∃ it' p', Lands {x | x ∈ pre ++ rest} b p' ∧
        vectorNext (pre ++ rest) (pre.length - 1) = (it', p'.doc) ∧
        VectorAt it' {x | x ∈ pre ++ rest} p' := by
    intro pre rest b hsorted hzero hpre hrest
    have hlands := lands_split hsorted hpre hrest
    rw [vectorNext_split]
    cases rest with
    | nil => exact ⟨_, .exhausted, hlands, rfl, .exhausted (by omega)⟩
    | cons e rest => exact ⟨_, .on e, hlands, rfl, .on hsorted hzero⟩
  cases h with
  | @start values hsorted hzero =>
    obtain ⟨it', p', hlands, hnext, hat⟩ := hcut [] values 1 hsorted hzero (by simp)
      fun x hx => Nat.one_le_iff_ne_zero.mpr fun h0 => hzero (h0 ▸ hx)
    exact ⟨it', p', hlands, fun n => by rw [PostingIterator.next]; exact congrArg some hnext, hat⟩
  | @on pre rest e hsorted hzero =>
    have hsplit : pre ++ e :: rest = (pre ++ [e]) ++ rest := by simp
    obtain ⟨hpre, hrest, hlt⟩ := List.pairwise_append.mp hsorted
    have hpos : (pre.length : ℤ) = ((pre ++ [e]).length : ℤ) - 1 := by simp
    rw [hsplit] at hsorted hzero ⊢
    obtain ⟨it', p', hlands, hnext, hat⟩ := hcut (pre ++ [e]) rest (e + 1) hsorted hzero
      (fun x hx => by
        rcases List.mem_append.mp hx with hx | hx
        · exact (hlt x hx e (by simp)).trans (Nat.lt_succ_self e)
        · rw [List.mem_singleton.mp hx]
          exact Nat.lt_succ_self e)
      fun x hx => List.rel_of_pairwise_cons hrest hx
    refine ⟨it', p', hlands, fun n => ?_, hat⟩
    rw [PostingIterator.next, hpos]
    exact congrArg some hnext
  | @exhausted S pos hpos =>
    refine ⟨vector [] 0, .exhausted, rfl, fun n => ?_, .exhausted (le_refl _)⟩
    rw [PostingIterator.next, vectorNext, if_pos (by simp; omega)]
    rfl

theorem VectorAt.exists_vector {it : PostingIterator} {S : Set ℕ} {p : Position}
    (h : VectorAt it S p) : ∃ values pos, it = vector values pos := by
  cases h with
  | start _ _ => exact ⟨_, _, rfl⟩
  | on _ _ => exact ⟨_, _, rfl⟩
  | exhausted _ => exact ⟨_, _, rfl⟩

/-- The loop of the base class, by induction on the distance to `id`. -/
theorem VectorAt.skipTo {it : PostingIterator} {S : Set ℕ} {p : Position} (h : VectorAt it S p)
    (id : ℕ) : ∃ it' p', SkipTo S id p p' ∧
      Returns (fun n => PostingIterator.skipTo n it id) (it', p'.doc) ∧ VectorAt it' S p' := by
  induction hk : id - p.doc using Nat.strong_induction_on generalizing it p with
  | _ k ih =>
    obtain ⟨values, pos, rfl⟩ := h.exists_vector
    have hunfold : ∀ n, PostingIterator.skipTo (n + 1) (vector values pos) id =
        if p.doc < id then
          (PostingIterator.next n (vector values pos)).bind fun r =>
            if r.2 = 0 then some (r.1, 0) else PostingIterator.skipTo n r.1 id
        else some (vector values pos, p.doc) := fun n => by
      rw [PostingIterator.skipTo, h.docId]
    by_cases hlt : p.doc < id
    · obtain ⟨it', p', hnext, hreturns, hat⟩ := h.next
      have hreturns : Returns (fun n => PostingIterator.next n (vector values pos)) (it', p'.doc) :=
        Returns.succ ⟨0, fun n _ => hreturns n⟩
      rcases eq_or_ne p' .exhausted with rfl | hp'
      · -- the ids are used up
        refine ⟨it', .exhausted, ?_, Returns.succ ?_, hat⟩
        · rcases eq_or_ne p .exhausted with rfl | hp
          · rfl
          · rw [Position.skipTo_iff hp hlt]
            rw [Position.next_iff hp] at hnext
            exact fun x hx => (hnext x hx).trans_le hlt
        · simp only [hunfold, if_pos hlt]
          exact hreturns.bind (Returns.pure _)
      · have hp : p ≠ .exhausted := by
          rintro rfl
          exact hp' hnext
        rw [Position.next_iff hp] at hnext
        obtain ⟨e, rfl⟩ : ∃ e, p' = .on e := by
          cases p' with
          | start => exact hnext.elim
          | on e => exact ⟨e, rfl⟩
          | exhausted => exact absurd rfl hp'
        have hle : p.doc + 1 ≤ e := hnext.1.2
        obtain ⟨it'', p'', hskip, hreturns', hat'⟩ := ih (id - e) (by omega) hat rfl
        refine ⟨it'', p'', ?_, Returns.succ ?_, hat'⟩
        · rw [Position.skipTo_iff hp hlt]
          rw [SkipTo] at hskip
          split at hskip
          · next hid =>
            rw [hskip]
            exact hnext.mono hlt hid
          · exact hskip
        · simp only [hunfold, if_pos hlt]
          refine hreturns.bind ?_
          have he : (Position.on e).doc ≠ 0 := by rw [Position.doc]; omega
          simp only [if_neg he]
          exact hreturns'
    · refine ⟨_, p, Position.skipTo_self (not_lt.mp hlt), Returns.succ ?_, h⟩
      simp only [hunfold, if_neg hlt]
      exact Returns.pure _

theorem simulation_vector : Simulation methods VectorAt where
  docId := fun h => h.docId
  valid := fun h => by
    cases h with
    | @on pre rest e _ hzero =>
      refine ⟨by simp, Nat.one_le_iff_ne_zero.mpr fun h0 => hzero ?_⟩
      simp [h0]
  next := fun h => by
    obtain ⟨it', p', hnext, hreturns, hat⟩ := h.next
    exact ⟨it', p', hnext, Returns.succ ⟨0, fun n _ => hreturns n⟩, hat⟩
  skipTo := fun id h => h.skipTo id

/-! ## The iterators below a node -/

/-- The iterators are cursors over the sets, at positions with the property `P`. -/
def Children (P : Set ℕ → Position → Prop) (its : List PostingIterator) (Ss : List (Set ℕ)) : Prop :=
  List.Forall₂ (fun it S => ∃ p, Is it S p ∧ P S p) its Ss

theorem Children.imp {P Q : Set ℕ → Position → Prop} {its : List PostingIterator}
    {Ss : List (Set ℕ)} (h : Children P its Ss) (hPQ : ∀ S p, P S p → Q S p) :
    Children Q its Ss :=
  List.Forall₂.imp (fun _ S ⟨p, his, hp⟩ => ⟨p, his, hPQ S p hp⟩) h

/-- One of the iterators is exhausted. -/
inductive HasExhausted : List PostingIterator → List (Set ℕ) → Prop
  /-- the first -/
  | head {it : PostingIterator} {its : List PostingIterator} {S : Set ℕ} {Ss : List (Set ℕ)} :
    Is it S .exhausted → Children (fun _ _ => True) its Ss → HasExhausted (it :: its) (S :: Ss)
  /-- one further on -/
  | tail {it : PostingIterator} {its : List PostingIterator} {S : Set ℕ} {Ss : List (Set ℕ)}
    {p : Position} : Is it S p → HasExhausted its Ss → HasExhausted (it :: its) (S :: Ss)

/-! ## Intersections -/

/-- The ids in all of the sets, of which there is at least one. -/
def inter (Ss : List (Set ℕ)) : Set ℕ := {x | Ss ≠ [] ∧ ∀ S ∈ Ss, x ∈ S}

/-- A cursor that has not passed `b`. -/
def Behind (b : ℕ) (_ : Set ℕ) (p : Position) : Prop := p = .start ∨ ∃ e, e ≤ b ∧ p = .on e

/-- Skipping from a position that has not passed `b`. -/
theorem Is.skipTo_behind {it : PostingIterator} {S : Set ℕ} {p : Position} {b : ℕ} (h : Is it S p)
    (hb : 1 ≤ b) (hp : Behind b S p) : ∃ it' p', Lands S b p' ∧
      Returns (fun n => PostingIterator.skipTo n it b) (it', p'.doc) ∧ Is it' S p' := by
  obtain ⟨it', p', hskip, hreturns, his⟩ := (Cursor.simulation_implements methods).skipTo b h
  refine ⟨it', p', ?_, hreturns, his⟩
  rcases hp with rfl | ⟨e, he, rfl⟩
  · rwa [SkipTo, if_neg (by omega)] at hskip
  · rw [SkipTo] at hskip
    split at hskip
    · next hbe =>
      obtain rfl : e = b := le_antisymm he hbe
      rw [hskip]
      exact ⟨⟨((Cursor.simulation_implements methods).valid h).1, hbe⟩, fun x hx => hx.2⟩
    · exact hskip

/-- The outcome of a round that started at the bound `b`. -/
inductive Round (Ss : List (Set ℕ)) (b : ℕ) : List PostingIterator → ℕ → Prop
  /-- an iterator has reached its end, and there is no common id from `b` on -/
  | exhausted {its : List PostingIterator} : HasExhausted its Ss →
    (∀ x, (∀ S ∈ Ss, x ∈ S) → x < b) → Round Ss b its 0
  /-- no iterator has passed the new bound `l`, and no common id was passed -/
  | bound {its : List PostingIterator} {l : ℕ} : b ≤ l →
    Children (fun _ p => ∃ e, e ≤ l ∧ p = .on e) its Ss →
    (∀ x, (∀ S ∈ Ss, x ∈ S) → b ≤ x → l ≤ x) →
    (l = b → Children (fun _ p => p = .on b) its Ss) →
    l = b ∨ (∃ S ∈ Ss, l ∈ S) → Round Ss b its l

/-- **The leapfrog**: a round moves the bound up, but not past a common id. -/
theorem skipAll_behind {its : List PostingIterator} {Ss : List (Set ℕ)} {a b : ℕ} (hb : 1 ≤ b)
    (hab : a ≤ b) (h : Children (Behind a) its Ss) : ∃ its', ∃ l : ℕ,
      Returns (fun n => skipAll (PostingIterator.skipTo n) its b) (its', l) ∧ Round Ss b its' l := by
  induction h generalizing b with
  | nil =>
    exact ⟨[], b, Returns.pure _, .bound (le_refl b) .nil (fun _ _ hx => hx) (fun _ => .nil)
      (Or.inl rfl)⟩
  | @cons it S its Ss hit hits ih =>
    obtain ⟨p, his, hp⟩ := hit
    have hp : Behind b S p := by
      rcases hp with rfl | ⟨e, he, rfl⟩
      · exact Or.inl rfl
      · exact Or.inr ⟨e, he.trans hab, rfl⟩
    obtain ⟨it', p', hlands, hreturns, his'⟩ := his.skipTo_behind hb hp
    cases p' with
    | start => exact hlands.elim
    | exhausted =>
      refine ⟨it' :: its, 0, hreturns.bind (Returns.pure _),
        .exhausted (.head his' (Children.imp hits fun _ _ _ => trivial)) fun x hx => ?_⟩
      exact hlands x (hx S (by simp))
    | on l₁ =>
      obtain ⟨⟨hl₁S, hbl₁⟩, hleast⟩ := hlands
      obtain ⟨its', l, hreturns', hround⟩ := ih (hb.trans hbl₁) (hab.trans hbl₁)
      have hne : (Position.on l₁).doc ≠ 0 := by rw [Position.doc]; omega
      refine ⟨it' :: its', l, hreturns.bind ?_, ?_⟩
      · simp only [if_neg hne, Option.map_eq_bind]
        exact hreturns'.bind (Returns.pure _)
      · -- a common id from `b` on is in `S`, so it is not below `l₁`
        have hcommon : ∀ x, (∀ T ∈ S :: Ss, x ∈ T) → b ≤ x → l₁ ≤ x := fun x hx hbx =>
          hleast ⟨hx S (by simp), hbx⟩
        cases hround with
        | exhausted hex hnone =>
          refine .exhausted (.tail his' hex) fun x hx => ?_
          by_contra hbx
          have hlt := hnone x fun T hT => hx T (List.mem_cons_of_mem _ hT)
          exact absurd hlt (not_lt.mpr (hcommon x hx (not_lt.mp hbx)))
        | bound hl hchildren hkept hall hin =>
          refine .bound (hbl₁.trans hl) (.cons ⟨_, his', l₁, hl, rfl⟩ hchildren)
            (fun x hx hbx => ?_) (fun hlb => ?_) ?_
          · exact hkept x (fun T hT => hx T (List.mem_cons_of_mem _ hT)) (hcommon x hx hbx)
          · obtain rfl : l₁ = b := le_antisymm (hlb ▸ hl) hbl₁
            exact .cons ⟨_, his', rfl⟩ (hall hlb)
          · rcases hin with rfl | ⟨T, hT, hlT⟩
            · exact Or.inr ⟨S, by simp, hl₁S⟩
            · exact Or.inr ⟨T, List.mem_cons_of_mem _ hT, hlT⟩

/-- A round over iterators that all stand at `d`. -/
theorem skipAll_on {its : List PostingIterator} {Ss : List (Set ℕ)} {b d : ℕ} (hbd : b ≤ d)
    (h : Children (fun _ p => p = .on d) its Ss) : ∃ its',
      Returns (fun n => skipAll (PostingIterator.skipTo n) its b)
        (its', if its = [] then b else d) ∧ Children (fun _ p => p = .on d) its' Ss := by
  induction h generalizing b with
  | nil => exact ⟨[], Returns.pure _, .nil⟩
  | @cons it S its Ss hit hits ih =>
    obtain ⟨p, his, rfl⟩ := hit
    obtain ⟨it', p', hskip, hreturns, his'⟩ :=
      (Cursor.simulation_implements methods).skipTo b his
    rw [SkipTo, if_pos hbd] at hskip
    subst hskip
    obtain ⟨its', hreturns', hchildren⟩ := ih (le_refl d)
    have hd : (Position.on d).doc ≠ 0 :=
      Nat.one_le_iff_ne_zero.mp ((Cursor.simulation_implements methods).valid his).2
    refine ⟨it' :: its', hreturns.bind ?_, .cons ⟨_, his', rfl⟩ hchildren⟩
    simp only [if_neg hd, Option.map_eq_bind, if_neg (List.cons_ne_nil it its)]
    rw [ite_self] at hreturns'
    exact hreturns'.bind (Returns.pure _)

/-- A round over iterators of which one is exhausted. -/
theorem skipAll_exhausted {its : List PostingIterator} {Ss : List (Set ℕ)} (h : HasExhausted its Ss)
    (b : ℕ) : ∃ its', Returns (fun n => skipAll (PostingIterator.skipTo n) its b) (its', 0) ∧
      HasExhausted its' Ss := by
  induction h generalizing b with
  | @head it its S Ss his hits =>
    obtain ⟨it', p', hskip, hreturns, his'⟩ :=
      (Cursor.simulation_implements methods).skipTo b his
    obtain rfl : p' = .exhausted := hskip
    exact ⟨it' :: its, hreturns.bind (Returns.pure _), .head his' hits⟩
  | @tail it its S Ss p his hrest ih =>
    obtain ⟨it', p', -, hreturns, his'⟩ := (Cursor.simulation_implements methods).skipTo b his
    rcases eq_or_ne p'.doc 0 with hzero | hne
    · refine ⟨it' :: its, hreturns.bind ?_, .tail his' hrest⟩
      simp only [if_pos hzero]
      exact Returns.pure _
    · obtain ⟨its', hreturns', hrest'⟩ := ih p'.doc
      refine ⟨it' :: its', hreturns.bind ?_, .tail his' hrest'⟩
      simp only [if_neg hne, Option.map_eq_bind]
      exact hreturns'.bind (Returns.pure _)

/-- An intersection at a position of the cursor over the common ids; `B` bounds the ids. -/
inductive AndAt : PostingIterator → Set ℕ → Position → Prop
  /-- no call has been made -/
  | start {its : List PostingIterator} {Ss : List (Set ℕ)} {B : ℕ} : (∀ S ∈ Ss, ∀ x ∈ S, x ≤ B) →
    Children (fun _ p => p = .start) its Ss → AndAt (and its 0) (inter Ss) .start
  /-- all iterators stand at `d` -/
  | on {its : List PostingIterator} {Ss : List (Set ℕ)} {B d : ℕ} : (∀ S ∈ Ss, ∀ x ∈ S, x ≤ B) →
    its ≠ [] → Children (fun _ p => p = .on d) its Ss → AndAt (and its d) (inter Ss) (.on d)
  /-- an iterator has reached its end, or there is none -/
  | exhausted {its : List PostingIterator} {S : Set ℕ} :
    its = [] ∨ (∃ Ss, HasExhausted its Ss) → AndAt (and its 0) S .exhausted

theorem skipTo_and (n : ℕ) {its : List PostingIterator} (hne : its ≠ []) (docId id : DocId) :
    PostingIterator.skipTo (n + 1) (and its docId) id =
      (skipAll (PostingIterator.skipTo n) its id).bind fun r =>
        if r.2 = 0 then some (and r.1 0, 0)
        else if r.2 = id then some (and r.1 r.2, r.2)
        else PostingIterator.skipTo n (and r.1 docId) r.2 := by
  obtain ⟨it, its, rfl⟩ := List.exists_cons_of_ne_nil hne
  rw [PostingIterator.skipTo]

theorem Children.valid {its : List PostingIterator} {Ss : List (Set ℕ)} {d : ℕ}
    (h : Children (fun _ p => p = .on d) its Ss) : ∀ S ∈ Ss, d ∈ S ∧ 1 ≤ d := by
  induction h with
  | nil => exact fun S hS => absurd hS List.not_mem_nil
  | cons hit _ ih =>
    obtain ⟨p, his, rfl⟩ := hit
    intro S hS
    rcases List.mem_cons.mp hS with rfl | hS
    · exact (Cursor.simulation_implements methods).valid his
    · exact ih S hS

theorem Children.ne_nil {P : Set ℕ → Position → Prop} {its : List PostingIterator}
    {Ss : List (Set ℕ)} (h : Children P its Ss) : its ≠ [] ↔ Ss ≠ [] := by
  cases h <;> simp

/-- Skipping an intersection none of whose iterators has passed `b`, by induction on the room that is
left for the bound. -/
theorem skipTo_behind {its : List PostingIterator} {Ss : List (Set ℕ)} {a b B d : ℕ}
    (hbound : ∀ S ∈ Ss, ∀ x ∈ S, x ≤ B) (hne : its ≠ []) (hb : 1 ≤ b) (hab : a ≤ b)
    (h : Children (Behind a) its Ss) : ∃ it' p', Lands (inter Ss) b p' ∧
      Returns (fun n => PostingIterator.skipTo n (and its d) b) (it', p'.doc) ∧
        AndAt it' (inter Ss) p' := by
  induction hk : B + 1 - b using Nat.strong_induction_on generalizing its a b with
  | _ k ih =>
    have hSs : Ss ≠ [] := h.ne_nil.mp hne
    obtain ⟨its', l, hreturns, hround⟩ := skipAll_behind hb hab h
    cases hround with
    | exhausted hex hnone =>
      refine ⟨and its' 0, .exhausted, fun x hx => hnone x hx.2, Returns.succ ?_,
        .exhausted (Or.inr ⟨_, hex⟩)⟩
      simp only [skipTo_and _ hne]
      exact hreturns.bind (Returns.pure _)
    | bound hl hchildren hkept hall hin =>
      have hl0 : l ≠ 0 := by omega
      rcases eq_or_ne l b with rfl | hlb
      · -- all iterators agree on the bound
        have hon := hall rfl
        refine ⟨and its' l, .on l, ⟨⟨⟨hSs, fun S hS => (hon.valid S hS).1⟩, le_refl l⟩,
          fun x hx => hx.2⟩, Returns.succ ?_, .on hbound (hon.ne_nil.mpr hSs) hon⟩
        simp only [skipTo_and _ hne]
        refine hreturns.bind ?_
        simp only [if_neg hl0, if_true]
        exact Returns.pure _
      · obtain ⟨S, hS, hlS⟩ := hin.resolve_left hlb
        have hlB := hbound S hS l hlS
        have hbehind : Children (Behind l) its' Ss := hchildren.imp fun _ _ hp => Or.inr hp
        obtain ⟨it', p', hlands, hreturns', hat⟩ := ih (B + 1 - l) (by omega)
          (hbehind.ne_nil.mpr hSs) (hb.trans hl) (le_refl l) hbehind rfl
        refine ⟨it', p', hlands.back hl fun x hx hbx => hkept x hx.2 hbx, Returns.succ ?_, hat⟩
        simp only [skipTo_and _ hne]
        refine hreturns.bind ?_
        simp only [if_neg hl0, if_neg hlb]
        exact hreturns'

/-- An exhausted intersection stays exhausted. -/
theorem skipTo_exhausted {its : List PostingIterator} {Ss : List (Set ℕ)} (h : HasExhausted its Ss)
    (d id : DocId) : ∃ its',
      Returns (fun n => PostingIterator.skipTo n (and its d) id) (and its' 0, 0) ∧
        HasExhausted its' Ss := by
  obtain ⟨its', hreturns, hex⟩ := skipAll_exhausted h id
  have hne : its ≠ [] := by cases h <;> simp
  refine ⟨its', Returns.succ ?_, hex⟩
  simp only [skipTo_and _ hne]
  exact hreturns.bind (Returns.pure _)

theorem next_and (n : ℕ) (it : PostingIterator) (its : List PostingIterator) (docId : DocId) :
    PostingIterator.next (n + 1) (and (it :: its) docId) =
      (PostingIterator.next n it).bind fun r =>
        PostingIterator.skipTo n (and (r.1 :: its) r.2) r.2 := by
  rw [PostingIterator.next]

/-- Calls on an intersection without iterators. -/
theorem returns_nil (docId id : DocId) :
    Returns (fun n => PostingIterator.next n (and [] docId)) (and [] 0, 0) ∧
      Returns (fun n => PostingIterator.skipTo n (and [] docId) id) (and [] 0, 0) := by
  have hnext : ∀ n, PostingIterator.next (n + 1) (and [] docId) = some (and [] 0, 0) := fun n => by
    rw [PostingIterator.next]
  have hskip : ∀ n, PostingIterator.skipTo (n + 1) (and [] docId) id = some (and [] 0, 0) :=
    fun n => by rw [PostingIterator.skipTo]
  exact ⟨Returns.succ ⟨0, fun n _ => hnext n⟩, Returns.succ ⟨0, fun n _ => hskip n⟩⟩

theorem inter_nil : inter [] = ∅ := by
  ext x
  exact ⟨fun hx => hx.1 rfl, fun hx => hx.elim⟩

/-- Advancing an intersection whose iterators all stand at `p`. -/
theorem AndAt.next_children {its : List PostingIterator} {Ss : List (Set ℕ)} {B : ℕ} {p : Position}
    {d : DocId} (hp : p ≠ .exhausted) (hbound : ∀ S ∈ Ss, ∀ x ∈ S, x ≤ B)
    (h : Children (fun _ q => q = p) its Ss) : ∃ it' p', Lands (inter Ss) (p.doc + 1) p' ∧
      Returns (fun n => PostingIterator.next n (and its d)) (it', p'.doc) ∧
        AndAt it' (inter Ss) p' := by
  cases h with
  | nil =>
    rw [inter_nil]
    exact ⟨and [] 0, .exhausted, fun x hx => hx.elim, (returns_nil d 0).1, .exhausted (Or.inl rfl)⟩
  | @cons it S its Ss hit hits =>
    obtain ⟨q, his, rfl⟩ := hit
    obtain ⟨it₁, p₁, hnext, hreturns, his₁⟩ := (Cursor.simulation_implements methods).next his
    rw [Position.next_iff hp] at hnext
    cases p₁ with
    | start => exact hnext.elim
    | exhausted =>
      have hex : HasExhausted (it₁ :: its) (S :: Ss) := .head his₁ (Children.imp hits fun _ _ _ => trivial)
      obtain ⟨its', hreturns', hex'⟩ := skipTo_exhausted hex 0 0
      refine ⟨and its' 0, .exhausted, fun x hx => hnext x (hx.2 S (by simp)), Returns.succ ?_,
        .exhausted (Or.inr ⟨_, hex'⟩)⟩
      simp only [next_and]
      exact hreturns.bind hreturns'
    | on l =>
      obtain ⟨⟨hlS, hle⟩, hleast⟩ := hnext
      have hbehind : Children (Behind l) (it₁ :: its) (S :: Ss) := by
        refine .cons ⟨_, his₁, Or.inr ⟨l, le_refl l, rfl⟩⟩ (Children.imp hits fun _ r hr => ?_)
        subst hr
        cases r with
        | start => exact Or.inl rfl
        | on e => exact Or.inr ⟨e, (Nat.le_succ e).trans hle, rfl⟩
        | exhausted => exact absurd rfl hp
      have hl1 : 1 ≤ l := (Nat.le_add_left 1 _).trans hle
      obtain ⟨it', p', hlands, hreturns', hat⟩ := skipTo_behind (d := l) hbound
        (List.cons_ne_nil it₁ its) hl1 (le_refl l) hbehind
      refine ⟨it', p', hlands.back hle fun x hx hbx => hleast ⟨hx.2 S (by simp), hbx⟩,
        Returns.succ ?_, hat⟩
      simp only [next_and]
      exact hreturns.bind hreturns'

/-- Advancing an exhausted intersection. -/
theorem next_exhausted {its : List PostingIterator} {Ss : List (Set ℕ)} (h : HasExhausted its Ss)
    (d : DocId) : ∃ its',
      Returns (fun n => PostingIterator.next n (and its d)) (and its' 0, 0) ∧
        HasExhausted its' Ss := by
  have hsim := Cursor.simulation_implements methods
  cases h with
  | @head it its S Ss his hits =>
    obtain ⟨it', p', hnext, hreturns, his'⟩ := hsim.next his
    obtain rfl : p' = .exhausted := hnext
    obtain ⟨its', hreturns', hex⟩ := skipTo_exhausted (.head his' hits) 0 0
    refine ⟨its', Returns.succ ?_, hex⟩
    simp only [next_and]
    exact hreturns.bind hreturns'
  | @tail it its S Ss p his hrest =>
    obtain ⟨it', p', -, hreturns, his'⟩ := hsim.next his
    obtain ⟨its', hreturns', hex⟩ := skipTo_exhausted (.tail his' hrest) p'.doc p'.doc
    refine ⟨its', Returns.succ ?_, hex⟩
    simp only [next_and]
    exact hreturns.bind hreturns'

/-- Skipping an intersection that stands at `d` to a number it has reached: one or two rounds, in
which no iterator moves. -/
theorem AndAt.skipTo_on {its : List PostingIterator} {Ss : List (Set ℕ)} {d id : ℕ} (e : DocId)
    (hne : its ≠ []) (hid : id ≤ d) (h : Children (fun _ p => p = .on d) its Ss) : ∃ its',
      Returns (fun n => PostingIterator.skipTo n (and its e) id) (and its' d, d) ∧
        its' ≠ [] ∧ Children (fun _ p => p = .on d) its' Ss := by
  have hSs : Ss ≠ [] := h.ne_nil.mp hne
  obtain ⟨S, hS⟩ := List.exists_mem_of_ne_nil Ss hSs
  have hd0 : d ≠ 0 := Nat.one_le_iff_ne_zero.mp (h.valid S hS).2
  obtain ⟨its', hreturns, hchildren⟩ := skipAll_on hid h
  have hne' : its' ≠ [] := hchildren.ne_nil.mpr hSs
  rw [if_neg hne] at hreturns
  rcases eq_or_ne d id with rfl | hdid
  · refine ⟨its', Returns.succ ?_, hne', hchildren⟩
    simp only [skipTo_and _ hne]
    refine hreturns.bind ?_
    simp only [if_neg hd0, if_true]
    exact Returns.pure _
  · obtain ⟨its'', hreturns', hchildren'⟩ := skipAll_on (le_refl d) hchildren
    rw [if_neg hne'] at hreturns'
    refine ⟨its'', Returns.succ ?_, hchildren'.ne_nil.mpr hSs, hchildren'⟩
    simp only [skipTo_and _ hne]
    refine hreturns.bind ?_
    simp only [if_neg hd0, if_neg hdid]
    refine Returns.succ ?_
    simp only [skipTo_and _ hne']
    refine hreturns'.bind ?_
    simp only [if_neg hd0, if_true]
    exact Returns.pure _

/-- Skipping an intersection that stands at the start to `0`: the first iterator answers `0`, and
nothing has moved. -/
theorem AndAt.skipTo_zero {its : List PostingIterator} {Ss : List (Set ℕ)} (e : DocId)
    (hne : its ≠ []) (h : Children (fun _ p => p = .start) its Ss) : ∃ its',
      Returns (fun n => PostingIterator.skipTo n (and its e) 0) (and its' 0, 0) ∧
        Children (fun _ p => p = .start) its' Ss := by
  cases h with
  | nil => exact absurd rfl hne
  | @cons it S its Ss hit hits =>
    obtain ⟨p, his, rfl⟩ := hit
    obtain ⟨it', p', hskip, hreturns, his'⟩ :=
      (Cursor.simulation_implements methods).skipTo 0 his
    obtain rfl : p' = .start := hskip
    refine ⟨it' :: its, Returns.succ ?_, .cons ⟨_, his', rfl⟩ hits⟩
    simp only [skipTo_and _ hne]
    exact Returns.bind (hreturns.bind (Returns.pure _)) (Returns.pure _)

theorem simulation_and : Simulation methods AndAt where
  docId := fun h => by cases h <;> rfl
  valid := fun h => by
    cases h with
    | @on its Ss B d _ hne hchildren =>
      have hSs : Ss ≠ [] := hchildren.ne_nil.mp hne
      obtain ⟨S, hS⟩ := List.exists_mem_of_ne_nil Ss hSs
      exact ⟨⟨hSs, fun S hS => (hchildren.valid S hS).1⟩, (hchildren.valid S hS).2⟩
  next := fun h => by
    cases h with
    | start hbound hchildren => exact AndAt.next_children (by simp) hbound hchildren
    | on hbound _ hchildren => exact AndAt.next_children (by simp) hbound hchildren
    | exhausted hex =>
      rcases hex with rfl | ⟨Ss, hex⟩
      · exact ⟨and [] 0, .exhausted, rfl, (returns_nil 0 0).1, .exhausted (Or.inl rfl)⟩
      · obtain ⟨its', hreturns, hex'⟩ := next_exhausted hex 0
        exact ⟨and its' 0, .exhausted, rfl, hreturns, .exhausted (Or.inr ⟨_, hex'⟩)⟩
  skipTo := fun id h => by
    cases h with
    | @start its Ss B hbound hchildren =>
      rcases eq_or_ne its [] with rfl | hne
      · cases hchildren
        rcases eq_or_ne id 0 with rfl | hid
        · exact ⟨and [] 0, .start, rfl, (returns_nil 0 0).2, .start hbound .nil⟩
        · refine ⟨and [] 0, .exhausted, ?_, (returns_nil 0 id).2, .exhausted (Or.inl rfl)⟩
          rw [Position.skipTo_iff (by simp) (Nat.pos_of_ne_zero hid), inter_nil]
          exact fun x hx => hx.elim
      · rcases eq_or_ne id 0 with rfl | hid
        · obtain ⟨its', hreturns, hchildren'⟩ := AndAt.skipTo_zero 0 hne hchildren
          exact ⟨and its' 0, .start, rfl, hreturns, .start hbound hchildren'⟩
        · have hbehind : Children (Behind 0) its Ss := hchildren.imp fun _ _ hp => Or.inl hp
          obtain ⟨it', p', hlands, hreturns, hat⟩ := skipTo_behind (d := 0) hbound hne
            (Nat.one_le_iff_ne_zero.mpr hid) (Nat.zero_le id) hbehind
          exact ⟨it', p', (Position.skipTo_iff (by simp) (Nat.pos_of_ne_zero hid)).mpr hlands,
            hreturns, hat⟩
    | @on its Ss B d hbound hne hchildren =>
      rcases le_or_gt id d with hid | hid
      · obtain ⟨its', hreturns, hne', hchildren'⟩ := AndAt.skipTo_on d hne hid hchildren
        exact ⟨and its' d, .on d, Position.skipTo_self hid, hreturns, .on hbound hne' hchildren'⟩
      · have hbehind : Children (Behind d) its Ss :=
          hchildren.imp fun _ _ hp => Or.inr ⟨d, le_refl d, hp⟩
        obtain ⟨it', p', hlands, hreturns, hat⟩ := skipTo_behind (d := d) hbound hne
          (Nat.one_le_iff_ne_zero.mpr (Nat.ne_zero_of_lt hid)) hid.le hbehind
        exact ⟨it', p', (Position.skipTo_iff (by simp) hid).mpr hlands, hreturns, hat⟩
    | exhausted hex =>
      rcases hex with rfl | ⟨Ss, hex⟩
      · exact ⟨and [] 0, .exhausted, rfl, (returns_nil 0 id).2, .exhausted (Or.inl rfl)⟩
      · obtain ⟨its', hreturns, hex'⟩ := skipTo_exhausted hex 0 id
        exact ⟨and its' 0, .exhausted, rfl, hreturns, .exhausted (Or.inr ⟨_, hex'⟩)⟩

/-! ## Unions -/

/-- The ids in one of the sets. -/
def union (Ss : List (Set ℕ)) : Set ℕ := {x | ∃ S ∈ Ss, x ∈ S}

theorem lands_union_cons {S T : Set ℕ} {Ss : List (Set ℕ)} {b : ℕ} {p : Position}
    (h : Lands {x | x ∈ {x | x ∈ T ∨ x ∈ S} ∨ x ∈ union Ss} b p) :
    Lands {x | x ∈ T ∨ x ∈ union (S :: Ss)} b p := by
  refine h.congr fun x _ => ?_
  simp [union, or_assoc]

theorem lands_union_nil {T : Set ℕ} {b : ℕ} {p : Position} (h : Lands T b p) :
    Lands {x | x ∈ T ∨ x ∈ union []} b p := by
  refine h.congr fun x _ => ?_
  simp [union]

/-- The loop in the constructor: every iterator is advanced, `nextId` becomes the lowest id. -/
theorem startAll_spec {its : List PostingIterator} {Ss : List (Set ℕ)} {T : Set ℕ} {nextId : DocId}
    (hT : Lands T 1 (ofDoc nextId)) (h : Children (fun _ p => p = .start) its Ss) :
    ∃ its' nextId', Returns (fun n => startAll (PostingIterator.next n) its nextId) (its', nextId') ∧
      Children (fun S p => Lands S 1 p) its' Ss ∧
        Lands {x | x ∈ T ∨ x ∈ union Ss} 1 (ofDoc nextId') := by
  induction h generalizing T nextId with
  | nil => exact ⟨[], nextId, Returns.pure _, .nil, lands_union_nil hT⟩
  | @cons it S its Ss hit hits ih =>
    obtain ⟨p, his, rfl⟩ := hit
    obtain ⟨it', p', hnext, hreturns, his'⟩ := (Cursor.simulation_implements methods).next his
    have hunion := hT.union hnext (le_refl 1)
    obtain ⟨its', nextId', hreturns', hchildren, hlands⟩ := ih hunion
    refine ⟨it' :: its', nextId', hreturns.bind ?_, .cons ⟨p', his', hnext⟩ hchildren,
      lands_union_cons hlands⟩
    have hlower : (if p'.doc ≠ 0 then lower nextId p'.doc else nextId) =
        if p'.doc = 0 then nextId else if p'.doc < nextId ∨ nextId = 0 then p'.doc else nextId := by
      rw [ite_not, lower]
    simp only [hlower, Option.map_eq_bind]
    exact hreturns'.bind (Returns.pure _)

/-- Fast forward to `id`. -/
theorem fastForward_spec {its : List PostingIterator} {Ss : List (Set ℕ)} {T : Set ℕ}
    {b id : ℕ} {nextId : DocId} (hb : 1 ≤ b) (hid : b ≤ id) (hT : Lands T id (ofDoc nextId))
    (h : Children (fun S p => Lands S b p) its Ss) :
    ∃ its' nextId',
      Returns (fun n => fastForward (PostingIterator.skipTo n) id its nextId) (its', nextId') ∧
        Children (fun S p => Lands S id p) its' Ss ∧
          Lands {x | x ∈ T ∨ x ∈ union Ss} id (ofDoc nextId') := by
  induction h generalizing T nextId with
  | nil => exact ⟨[], nextId, Returns.pure _, .nil, lands_union_nil hT⟩
  | @cons it S its Ss hit hits ih =>
    obtain ⟨p, his, hp⟩ := hit
    obtain ⟨it', p', hskip, hreturns, his'⟩ :=
      (Cursor.simulation_implements methods).skipTo id his
    have hlands : Lands S id p' := by
      cases p with
      | start => exact hp.elim
      | on e =>
        rw [SkipTo] at hskip
        split at hskip
        · next hle =>
          rw [hskip]
          exact hp.mono hid hle
        · exact hskip
      | exhausted =>
        obtain rfl : p' = .exhausted := hskip
        exact fun x hx => (hp x hx).trans_le hid
    have hunion := hT.union hlands (hb.trans hid)
    obtain ⟨its', nextId', hreturns', hchildren, hlands'⟩ := ih hunion
    refine ⟨it' :: its', nextId', hreturns.bind ?_, .cons ⟨p', his', hlands⟩ hchildren,
      lands_union_cons hlands'⟩
    have hlower : (if 0 < p'.doc then lower nextId p'.doc else nextId) =
        if p'.doc = 0 then nextId else if p'.doc < nextId ∨ nextId = 0 then p'.doc else nextId := by
      rw [lower]
      rcases Nat.eq_zero_or_pos p'.doc with h0 | h0
      · rw [h0, if_neg (lt_irrefl 0), if_pos rfl]
      · rw [if_pos h0, if_neg (Nat.ne_of_gt h0)]
    simp only [hlower, Option.map_eq_bind]
    exact hreturns'.bind (Returns.pure _)

/-- Advancing the iterators at `m`; those that have reached their end are dropped. -/
theorem advance_spec {its : List PostingIterator} {Ss : List (Set ℕ)} {T : Set ℕ} {b m : ℕ}
    {nextId : DocId} (hb : 1 ≤ b) (hbm : b ≤ m) (hleast : ∀ S ∈ Ss, ∀ x ∈ S, b ≤ x → m ≤ x)
    (hT : Lands T (m + 1) (ofDoc nextId)) (h : Children (fun S p => Lands S b p) its Ss) :
    ∃ its' Ss' nextId',
      Returns (fun n => advance (PostingIterator.next n) m its nextId) (its', nextId') ∧
        Children (fun S p => Lands S (m + 1) p) its' Ss' ∧
          (∀ x, m + 1 ≤ x → (x ∈ union Ss' ↔ x ∈ union Ss)) ∧
            Lands {x | x ∈ T ∨ x ∈ union Ss} (m + 1) (ofDoc nextId') := by
  induction h generalizing T nextId with
  | nil =>
    exact ⟨[], [], nextId, Returns.pure _, .nil, fun _ _ => Iff.rfl, lands_union_nil hT⟩
  | @cons it S its Ss hit hits ih =>
    obtain ⟨p, his, hp⟩ := hit
    have hsim := Cursor.simulation_implements methods
    -- the iterator moves if it stands at `m`
    obtain ⟨it', p', hreturns, hlands, his'⟩ : ∃ it' p',
        Returns (fun n => if it.docId = m then PostingIterator.next n it else some (it, it.docId))
          (it', p'.doc) ∧ Lands S (m + 1) p' ∧ Is it' S p' := by
      have hdoc : it.docId = p.doc := hsim.docId his
      by_cases hm : it.docId = m
      · obtain ⟨it', p', hnext, hreturns, his'⟩ := hsim.next his
        have hpm : p.doc = m := hdoc.symm.trans hm
        refine ⟨it', p', ?_, ?_, his'⟩
        · simp only [if_pos hm]
          exact hreturns
        · rw [Position.next_iff, hpm] at hnext
          · exact hnext
          · rintro rfl
            rw [Position.doc] at hpm
            omega
      · refine ⟨it, p, ?_, ?_, his⟩
        · rw [← hdoc]
          simp only [if_neg hm]
          exact Returns.pure _
        · cases p with
          | start => exact hp.elim
          | on e =>
            have hme : m ≤ e := hleast S (by simp) e hp.1.1 hp.1.2
            have hne : e ≠ m := fun h => hm (hdoc.trans h)
            exact hp.mono (hbm.trans (Nat.le_succ m)) (lt_of_le_of_ne hme (Ne.symm hne))
          | exhausted => exact fun x hx => (hp x hx).trans_le (hbm.trans (Nat.le_succ m))
    have hrest : ∀ T ∈ Ss, ∀ x ∈ T, b ≤ x → m ≤ x := fun T hT =>
      hleast T (List.mem_cons_of_mem _ hT)
    have hunion := hT.union hlands (Nat.succ_le_succ (Nat.zero_le m))
    rcases eq_or_ne p'.doc 0 with hzero | hne
    · -- it has reached its end and is dropped
      rw [if_pos hzero] at hunion
      obtain ⟨its', Ss', nextId', hreturns', hchildren, hset, hlands'⟩ := ih hrest hunion
      refine ⟨its', Ss', nextId', hreturns.bind ?_, hchildren, fun x hx => ?_,
        lands_union_cons hlands'⟩
      · simp only [if_pos hzero]
        exact hreturns'
      · rw [hset x hx]
        have hnot : x ∉ S := fun hxS => by
          cases p' with
          | start => exact hlands
          | on e => exact absurd hlands.1.2 (by rw [Position.doc] at hzero; omega)
          | exhausted => exact absurd (hlands x hxS) (not_lt.mpr hx)
        simp [union, hnot]
    · rw [if_neg hne] at hunion
      obtain ⟨its', Ss', nextId', hreturns', hchildren, hset, hlands'⟩ := ih hrest hunion
      refine ⟨it' :: its', S :: Ss', nextId', hreturns.bind ?_, .cons ⟨p', his', hlands⟩ hchildren,
        fun x hx => ?_, lands_union_cons hlands'⟩
      · simp only [if_neg hne, Option.map_eq_bind]
        exact hreturns'.bind (Returns.pure _)
      · have hx' := hset x hx
        simp only [union, Set.mem_ofPred_eq, List.mem_cons, exists_eq_or_imp] at hx' ⊢
        rw [hx']

/-- A union at a position of the cursor over the ids of its iterators. -/
inductive OrAt : PostingIterator → Set ℕ → Position → Prop
  /-- the iterators have landed behind the current id, and `nextId` is the lowest of their ids -/
  | live {its : List PostingIterator} {Ss : List (Set ℕ)} {S : Set ℕ} {p : Position}
    {nextId : DocId} : p ≠ .exhausted → (∀ e, p = .on e → e ∈ S ∧ 1 ≤ e) →
    Children (fun T q => Lands T (p.doc + 1) q) its Ss →
    (∀ x, p.doc + 1 ≤ x → (x ∈ S ↔ x ∈ union Ss)) → Lands S (p.doc + 1) (ofDoc nextId) →
    OrAt (or its p.doc nextId) S p
  /-- the ids are used up -/
  | exhausted {its : List PostingIterator} {S : Set ℕ} : OrAt (or its 0 0) S .exhausted

/-- Stopping at `m`, where the iterators have landed from `b` on and `m` is the least id. -/
theorem OrAt.stop {its : List PostingIterator} {Ss : List (Set ℕ)} {S : Set ℕ} {b m : ℕ}
    (hb : 1 ≤ b) (hchildren : Children (fun T q => Lands T b q) its Ss)
    (hset : ∀ x, b ≤ x → (x ∈ S ↔ x ∈ union Ss)) (hm : Lands S b (.on m)) : ∃ its' nextId',
      Returns (fun n => advance (PostingIterator.next n) m its 0) (its', nextId') ∧
        OrAt (or its' m nextId') S (.on m) := by
  obtain ⟨⟨hmS, hbm⟩, hleast⟩ := hm
  have hleast' : ∀ T ∈ Ss, ∀ x ∈ T, b ≤ x → m ≤ x := fun T hT x hxT hbx =>
    hleast ⟨(hset x hbx).mpr ⟨T, hT, hxT⟩, hbx⟩
  have hempty : Lands ∅ (m + 1) (ofDoc 0) := fun x hx => hx.elim
  obtain ⟨its', Ss', nextId', hreturns, hchildren', hset', hlands⟩ :=
    advance_spec hb hbm hleast' hempty hchildren
  have hlive : OrAt (or its' (Position.on m).doc nextId') S (.on m) := by
    refine .live (by simp) ?_ hchildren' (fun x hx => ?_) ?_
    · rintro e he
      obtain rfl : m = e := Position.on.inj he
      exact ⟨hmS, hb.trans hbm⟩
    · rw [hset' x hx]
      exact hset x (hbm.trans ((Nat.le_succ m).trans hx))
    · refine hlands.congr fun x hx => ?_
      rw [hset x (hbm.trans ((Nat.le_succ m).trans hx))]
      exact ⟨fun h => h.resolve_left fun h => h.elim, Or.inr⟩
  exact ⟨its', nextId', hreturns, hlive⟩

/-- Skipping a union to a number behind the current one. -/
theorem OrAt.skipTo_lt {its : List PostingIterator} {Ss : List (Set ℕ)} {S : Set ℕ} {p : Position}
    {nextId : DocId} {id : ℕ} (hchildren : Children (fun T q => Lands T (p.doc + 1) q) its Ss)
    (hset : ∀ x, p.doc + 1 ≤ x → (x ∈ S ↔ x ∈ union Ss))
    (hnext : Lands S (p.doc + 1) (ofDoc nextId)) (hid : p.doc < id) : ∃ it' p', Lands S id p' ∧
      Returns (fun n => PostingIterator.skipTo n (or its p.doc nextId) id) (it', p'.doc) ∧
        OrAt it' S p' := by
  have hunfold : ∀ n, PostingIterator.skipTo (n + 1) (or its p.doc nextId) id =
      if nextId = 0 then some (or its 0 0, 0)
      else
        (if nextId < id then fastForward (PostingIterator.skipTo n) id its 0
          else some (its, nextId)).bind fun r =>
            if r.2 = 0 then some (or r.1 0 0, 0)
            else (advance (PostingIterator.next n) r.2 r.1 0).map fun s =>
              (or s.1 r.2 s.2, r.2) := fun n => by
    rw [PostingIterator.skipTo, if_neg (not_le.mpr hid)]
  have hid1 : 1 ≤ id := Nat.one_le_iff_ne_zero.mpr (Nat.ne_zero_of_lt hid)
  rcases eq_or_ne nextId 0 with rfl | hnextId
  · refine ⟨or its 0 0, .exhausted, fun x hx => (hnext x hx).trans_le hid, Returns.succ ?_,
      .exhausted⟩
    simp only [hunfold, if_true]
    exact Returns.pure _
  · -- the iterators have landed from `id` on, and `m` is the lowest of their ids, or `0`
    obtain ⟨its₁, b, m, hreturns, hb, hbid, hchildren₁, hlands, hm⟩ : ∃ its₁ b m,
        Returns (fun n => if nextId < id then fastForward (PostingIterator.skipTo n) id its 0
          else some (its, nextId)) (its₁, m) ∧ 1 ≤ b ∧ p.doc + 1 ≤ b ∧
          Children (fun T q => Lands T b q) its₁ Ss ∧ Lands S b (ofDoc m) ∧
            Lands S id (ofDoc m) := by
      rcases lt_or_ge nextId id with hlt | hge
      · have hempty : Lands ∅ id (ofDoc 0) := fun x hx => hx.elim
        obtain ⟨its₁, m, hreturns, hchildren₁, hlands⟩ :=
          fastForward_spec (Nat.le_add_left 1 _) hid hempty hchildren
        have hlands' : Lands S id (ofDoc m) := hlands.congr fun x hx => by
          rw [hset x (Nat.le_trans hid hx)]
          exact ⟨fun h => h.resolve_left fun h => h.elim, Or.inr⟩
        refine ⟨its₁, id, m, ?_, hid1, hid, hchildren₁, hlands', hlands'⟩
        simp only [if_pos hlt]
        exact hreturns
      · refine ⟨its, p.doc + 1, nextId, ?_, Nat.le_add_left 1 _, le_refl _, hchildren, hnext, ?_⟩
        · simp only [if_neg (not_lt.mpr hge)]
          exact Returns.pure _
        · rw [Position.ofDoc_of_ne hnextId] at hnext ⊢
          exact hnext.mono hid hge
    rcases eq_or_ne m 0 with rfl | hm0
    · refine ⟨or its₁ 0 0, .exhausted, hm, Returns.succ ?_, .exhausted⟩
      simp only [hunfold, if_neg hnextId]
      exact hreturns.bind (Returns.pure _)
    · rw [Position.ofDoc_of_ne hm0] at hlands hm
      obtain ⟨its', nextId', hreturns', hat⟩ := OrAt.stop hb hchildren₁
        (fun x hx => hset x (hbid.trans hx)) hlands
      refine ⟨or its' m nextId', .on m, hm, Returns.succ ?_, hat⟩
      simp only [hunfold, if_neg hnextId]
      refine hreturns.bind ?_
      simp only [if_neg hm0, Option.map_eq_bind]
      exact hreturns'.bind (Returns.pure _)

/-- Advancing a union. -/
theorem OrAt.next {its : List PostingIterator} {Ss : List (Set ℕ)} {S : Set ℕ} {p : Position}
    {nextId : DocId} (hchildren : Children (fun T q => Lands T (p.doc + 1) q) its Ss)
    (hset : ∀ x, p.doc + 1 ≤ x → (x ∈ S ↔ x ∈ union Ss))
    (hnext : Lands S (p.doc + 1) (ofDoc nextId)) : ∃ it' p', Lands S (p.doc + 1) p' ∧
      Returns (fun n => PostingIterator.next n (or its p.doc nextId)) (it', p'.doc) ∧
        OrAt it' S p' := by
  have hunfold : ∀ n, PostingIterator.next (n + 1) (or its p.doc nextId) =
      if nextId ≠ 0 then PostingIterator.skipTo n (or its p.doc nextId) nextId
      else some (or its 0 0, 0) := fun n => by rw [PostingIterator.next]
  rcases eq_or_ne nextId 0 with rfl | hnextId
  · refine ⟨or its 0 0, .exhausted, hnext, Returns.succ ?_, .exhausted⟩
    simp only [hunfold, ne_eq, not_true_eq_false, if_false]
    exact Returns.pure _
  · have hon := hnext
    rw [Position.ofDoc_of_ne hnextId] at hon
    obtain ⟨⟨-, hlt⟩, hleast⟩ := hon
    obtain ⟨it', p', hlands, hreturns, hat⟩ := OrAt.skipTo_lt hchildren hset hnext hlt
    refine ⟨it', p', hlands.back hlt fun x hx hbx => hleast ⟨hx, hbx⟩, Returns.succ ?_, hat⟩
    simp only [hunfold, if_pos hnextId]
    exact hreturns

theorem simulation_or : Simulation methods OrAt where
  docId := fun h => by cases h <;> rfl
  valid := fun h => by
    cases h with
    | live _ hvalid _ _ _ => exact hvalid _ rfl
  next := fun {o S p} h => by
    cases h with
    | @live its Ss _ _ nextId hp _ hchildren hset hnext =>
      obtain ⟨it', p', hlands, hreturns, hat⟩ := OrAt.next hchildren hset hnext
      exact ⟨it', p', (Position.next_iff hp).mpr hlands, hreturns, hat⟩
    | @exhausted its _ =>
      have hunfold : ∀ n, PostingIterator.next (n + 1) (or its 0 0) = some (or its 0 0, 0) :=
        fun n => by rw [PostingIterator.next, if_neg (by simp)]
      exact ⟨or its 0 0, .exhausted, rfl, Returns.succ ⟨0, fun n _ => hunfold n⟩, .exhausted⟩
  skipTo := fun {o S p} id h => by
    cases h with
    | @live its Ss _ _ nextId hp hvalid hchildren hset hnext =>
      rcases le_or_gt id p.doc with hid | hid
      · have hunfold : ∀ n, PostingIterator.skipTo (n + 1) (or its p.doc nextId) id =
            some (or its p.doc nextId, p.doc) := fun n => by
          rw [PostingIterator.skipTo, if_pos hid]
        exact ⟨_, p, Position.skipTo_self hid, Returns.succ ⟨0, fun n _ => hunfold n⟩,
          .live hp hvalid hchildren hset hnext⟩
      · obtain ⟨it', p', hlands, hreturns, hat⟩ := OrAt.skipTo_lt hchildren hset hnext hid
        exact ⟨it', p', (Position.skipTo_iff hp hid).mpr hlands, hreturns, hat⟩
    | @exhausted its _ =>
      have hunfold : ∀ n, PostingIterator.skipTo (n + 1) (or its 0 0) id = some (or its 0 0, 0) :=
        fun n => by
          rw [PostingIterator.skipTo]
          split
          · rfl
          · rw [if_pos rfl]
      exact ⟨or its 0 0, .exhausted, rfl, Returns.succ ⟨0, fun n _ => hunfold n⟩, .exhausted⟩

end PostingIterator

/-! ## Trees -/

namespace PostingTree

open PostingIterator (Is Children inter union)

/-- The ids a tree denotes. -/
inductive Mem (x : DocId) : PostingTree → Prop
  /-- a vector denotes its ids -/
  | vector {values : List DocId} : x ∈ values → Mem x (.vector values)
  /-- an intersection denotes the ids of all children, of which there is at least one -/
  | and {children : List PostingTree} : children ≠ [] → (∀ t ∈ children, Mem x t) →
    Mem x (.and children)
  /-- a union denotes the ids of its children -/
  | or {children : List PostingTree} {t : PostingTree} : t ∈ children → Mem x t →
    Mem x (.or children)

/-- The set of ids a tree denotes; a null pointer denotes the empty set. -/
def ids (t : PostingTree) : Set ℕ := {x | Mem x t}

/-- Vectors are strictly ascending and without `0`. -/
inductive Proper : PostingTree → Prop
  /-- a null pointer -/
  | null : Proper .null
  /-- a vector -/
  | vector {values : List DocId} : values.Pairwise (· < ·) → 0 ∉ values → Proper (.vector values)
  /-- an intersection -/
  | and {children : List PostingTree} : (∀ t ∈ children, Proper t) → Proper (.and children)
  /-- a union -/
  | or {children : List PostingTree} : (∀ t ∈ children, Proper t) → Proper (.or children)

theorem ids_null : ids .null = ∅ := by
  ext x
  constructor
  · rintro ⟨⟩
  · exact fun h => h.elim

theorem ids_vector (values : List DocId) : ids (.vector values) = {x | x ∈ values} := by
  ext x
  constructor
  · rintro ⟨hx⟩
    exact hx
  · exact Mem.vector

theorem ids_and (children : List PostingTree) : ids (.and children) = inter (children.map ids) := by
  ext x
  constructor
  · rintro (_ | ⟨hne, hall⟩ | _)
    refine ⟨by simpa using hne, fun S hS => ?_⟩
    obtain ⟨t, ht, rfl⟩ := List.mem_map.mp hS
    exact hall t ht
  · rintro ⟨hne, hall⟩
    exact .and (by simpa using hne) fun t ht => hall (ids t) (List.mem_map.mpr ⟨t, ht, rfl⟩)

theorem ids_or (children : List PostingTree) : ids (.or children) = union (children.map ids) := by
  ext x
  constructor
  · rintro (_ | _ | ⟨ht, hx⟩)
    exact ⟨_, List.mem_map.mpr ⟨_, ht, rfl⟩, hx⟩
  · rintro ⟨S, hS, hx⟩
    obtain ⟨t, ht, rfl⟩ := List.mem_map.mp hS
    exact .or ht hx

/-- The iterator built from a tree: none from a null pointer, else a cursor at the start. -/
def Built (t : PostingTree) : Option PostingIterator → Prop
  | none => t = .null
  | some it => Is it t.ids .start

/-- The iterators without the null pointers. -/
theorem children_filterMap {iters : List (Option PostingIterator)} {children : List PostingTree}
    (h : List.Forall₂ (fun r t => Built t r) iters children) : ∃ Ss,
      Children (fun _ p => p = .start) (iters.filterMap id) Ss ∧
        union Ss = union (children.map ids) ∧
          (iters.any Option.isNone = false → Ss = children.map ids) := by
  induction h with
  | nil => exact ⟨[], .nil, rfl, fun _ => rfl⟩
  | @cons r t iters children hr _ ih =>
    obtain ⟨Ss, hchildren, hunion, hall⟩ := ih
    cases r with
    | none =>
      obtain rfl : t = .null := hr
      refine ⟨Ss, hchildren, ?_, fun hnone => by simp at hnone⟩
      rw [hunion]
      ext x
      simp [union, ids_null]
    | some it =>
      refine ⟨t.ids :: Ss, .cons ⟨_, hr, rfl⟩ hchildren, ?_, fun hnone => ?_⟩
      · ext x
        have hx : x ∈ union Ss ↔ x ∈ union (children.map ids) := by rw [hunion]
        simp only [union, Set.mem_ofPred_eq, List.map_cons, List.mem_cons, exists_eq_or_imp] at hx ⊢
        rw [hx]
      · rw [List.map_cons, hall (by simpa using hnone)]

theorem null_mem {iters : List (Option PostingIterator)} {children : List PostingTree}
    (h : List.Forall₂ (fun r t => Built t r) iters children)
    (hnone : iters.any Option.isNone = true) : ids .null ∈ children.map ids := by
  induction h with
  | nil => simp at hnone
  | @cons r t iters children hr _ ih =>
    cases r with
    | none =>
      obtain rfl : t = .null := hr
      simp
    | some it => exact List.mem_cons_of_mem _ (ih (by simpa using hnone))

/-- Induction on trees. -/
theorem induct {P : PostingTree → Prop} (null : P .null) (vector : ∀ values, P (.vector values))
    (and : ∀ children, (∀ t ∈ children, P t) → P (.and children))
    (or : ∀ children, (∀ t ∈ children, P t) → P (.or children)) : ∀ t, P t
  | .null => null
  | .vector values => vector values
  | .and children => and children fun t _ht => induct null vector and or t
  | .or children => or children fun t _ht => induct null vector and or t
termination_by t => sizeOf t
decreasing_by
  all_goals
    have := List.sizeOf_lt_of_mem _ht
    simp only [PostingTree.and.sizeOf_spec, PostingTree.or.sizeOf_spec]
    omega

/-- Finitely many bounded sets have a common bound. -/
theorem exists_common_bound {children : List PostingTree}
    (h : ∀ t ∈ children, ∃ B, ∀ x ∈ t.ids, x ≤ B) :
    ∃ B, ∀ t ∈ children, ∀ x ∈ t.ids, x ≤ B := by
  induction children with
  | nil => exact ⟨0, fun t ht => absurd ht List.not_mem_nil⟩
  | cons t children ih =>
    obtain ⟨B, hB⟩ := h t (by simp)
    obtain ⟨B', hB'⟩ := ih fun t ht => h t (List.mem_cons_of_mem _ ht)
    refine ⟨max B B', fun s hs x hx => ?_⟩
    rcases List.mem_cons.mp hs with rfl | hs
    · exact (hB x hx).trans (Nat.le_max_left ..)
    · exact (hB' s hs x hx).trans (Nat.le_max_right ..)

/-- **A tree is built into a cursor over the ids it denotes.** -/
theorem exists_built (t : PostingTree) (ht : t.Proper) :
    (∃ B, ∀ x ∈ t.ids, x ≤ B) ∧ ∃ r, Returns (fun n => build n t) r ∧ Built t r := by
  induction t using induct with
  | null =>
    refine ⟨⟨0, fun x hx => ?_⟩, none, Returns.succ ⟨0, fun n _ => ?_⟩, rfl⟩
    · rw [ids_null] at hx
      exact hx.elim
    · simp only [build]
  | vector values =>
    cases ht with
    | vector hsorted hzero =>
      refine ⟨⟨values.max?.getD 0, fun x hx => ?_⟩, some (.vector values (-1)),
        Returns.succ ⟨0, fun n _ => by simp only [build]⟩, ?_⟩
      · rw [ids_vector] at hx
        exact List.le_max?_getD_of_mem hx
      · rw [Built, ids_vector]
        exact ⟨_, PostingIterator.simulation_vector, .start hsorted hzero⟩
  | and children ih =>
    cases ht with
    | and hproper =>
      obtain ⟨B, hB⟩ := exists_common_bound fun t ht => (ih t ht (hproper t ht)).1
      obtain ⟨iters, hiters, hbuilt⟩ := Returns.mapM fun t ht => (ih t ht (hproper t ht)).2
      refine ⟨⟨B, fun x hx => ?_⟩, some (.makeAnd iters), Returns.succ ?_, ?_⟩
      · cases hx with
        | and hne hall =>
          obtain ⟨t, ht⟩ := List.exists_mem_of_ne_nil children hne
          exact hB t ht x (hall t ht)
      · simp only [build, Option.map_eq_bind]
        exact hiters.bind (Returns.pure _)
      · obtain ⟨Ss, hchildren, -, hall⟩ := children_filterMap hbuilt
        rw [Built, ids_and, PostingIterator.makeAnd]
        refine ⟨_, PostingIterator.simulation_and, ?_⟩
        rcases hnone : iters.any Option.isNone with _ | _
        · rw [if_neg (by simp), ← hall hnone]
          refine .start (B := B) (fun S hS => ?_) hchildren
          rw [hall hnone] at hS
          obtain ⟨t, ht, rfl⟩ := List.mem_map.mp hS
          exact hB t ht
        · -- a null pointer among the children
          rw [if_pos rfl]
          have hempty : inter (children.map ids) = inter [] := by
            rw [PostingIterator.inter_nil]
            ext x
            refine ⟨fun hx => ?_, fun hx => hx.elim⟩
            have hx' := hx.2 _ (null_mem hbuilt hnone)
            rw [ids_null] at hx'
            exact hx'
          rw [hempty]
          exact .start (B := B) (fun S hS => absurd hS List.not_mem_nil) .nil
  | or children ih =>
    cases ht with
    | or hproper =>
      obtain ⟨B, hB⟩ := exists_common_bound fun t ht => (ih t ht (hproper t ht)).1
      obtain ⟨iters, hiters, hbuilt⟩ := Returns.mapM fun t ht => (ih t ht (hproper t ht)).2
      obtain ⟨Ss, hchildren, hunion, -⟩ := children_filterMap hbuilt
      have hempty : Lands ∅ 1 (ofDoc 0) := fun x hx => hx.elim
      obtain ⟨its, nextId, hreturns, hchildren', hlands⟩ :=
        PostingIterator.startAll_spec hempty hchildren
      refine ⟨⟨B, fun x hx => ?_⟩, some (.or its 0 nextId), Returns.succ ?_, ?_⟩
      · cases hx with
        | or ht hx => exact hB _ ht x hx
      · simp only [build, PostingIterator.makeOr, Option.map_eq_bind]
        refine hiters.bind (Returns.bind (a := .or its 0 nextId) (hreturns.bind ?_) ?_)
        · exact Returns.pure _
        · exact Returns.pure _
      · rw [Built, ids_or, ← hunion]
        refine ⟨_, PostingIterator.simulation_or, .live (p := .start) (by simp) (by simp) hchildren'
          (fun x _ => Iff.rfl) (hlands.congr fun x _ => ?_)⟩
        exact ⟨fun h => h.resolve_left fun h => h.elim, Or.inr⟩

end PostingTree

/-- **Posting iterators compute Boolean algebra under mixed stepping.** The iterator of any tree, under
any sequence of calls of `next` and `skipTo`, shows `0` at first, and every call returns, with the
number it shows afterwards, what a cursor over the ids of the tree returns. -/
theorem iterators_compute_algebra (t : PostingTree) (ht : t.Proper) (hnull : t ≠ .null)
    (calls : List Cursor.Call) : ∃ it out, Returns (fun n => t.build n) (some it) ∧ it.docId = 0 ∧
      Returns (fun n => Cursor.run PostingIterator.methods n it calls) out ∧
        Cursor.Trace t.ids .start calls out := by
  obtain ⟨-, r, hreturns, hbuilt⟩ := t.exists_built ht
  cases r with
  | none => exact absurd hbuilt hnull
  | some it =>
    obtain ⟨out, hrun, htrace⟩ := Cursor.Implements.run _ hbuilt calls
    exact ⟨it, out, hreturns, (Cursor.simulation_implements _).docId hbuilt, hrun, htrace⟩

/-- The ids `3` and `5`, as an intersection of a union with a vector. -/
def threeAndFive : PostingTree :=
  .and [.or [.vector [1, 3, 5], .null, .vector []], .vector [2, 3, 4, 5]]

theorem iterators_compute_algebra_threeAndFive : ∃ it out,
    Returns (fun n => threeAndFive.build n) (some it) ∧ it.docId = 0 ∧
      Returns (fun n => Cursor.run PostingIterator.methods n it [.skipTo 2, .next, .next, .next]) out ∧
        Cursor.Trace threeAndFive.ids .start [.skipTo 2, .next, .next, .next] out := by
  refine iterators_compute_algebra threeAndFive (.and fun t ht => ?_) (by simp [threeAndFive]) _
  rcases List.mem_cons.mp ht with rfl | ht
  · refine .or fun t ht => ?_
    rcases List.mem_cons.mp ht with rfl | ht
    · exact .vector (by decide) (by decide)
    · rcases List.mem_cons.mp ht with rfl | ht
      · exact .null
      · rw [List.mem_singleton.mp ht]
        exact .vector (by decide) (by decide)
  · rw [List.mem_singleton.mp ht]
    exact .vector (by decide) (by decide)

example : ((threeAndFive.build 9).bind fun it => it.bind fun it =>
    Cursor.run PostingIterator.methods 9 it [.skipTo 2, .next, .next, .next]) =
      some [(3, 3), (5, 5), (0, 0), (0, 0)] := by decide

end Baloo
