import Baloo.Lib.Fuel
import Mathlib.Order.Bounds.Basic

/-!
# Cursors over sets of numbers

A cursor over a set `S` of positive numbers stands at the start, at an element, or is exhausted. It
can be advanced to the next element and to the first element from a number on; `0` is what it shows
at the start and when it is exhausted. `Position.Next` and `Position.SkipTo` say where it stands
afterwards.

Objects with methods *implement* a cursor if some relation between objects and positions is kept by
every call (`Simulation`). The relation is found for one class of objects at a time, with
`Implements` for the objects it is made of, so implementations compose without any reference to the
shape of the whole.
-/

universe u

namespace Cursor

open Fuel (Returns)

/-- Where a cursor stands. -/
inductive Position where
  /-- before the first element -/
  | start
  /-- at an element -/
  | on (e : ℕ)
  /-- behind the last element, for ever -/
  | exhausted
  deriving DecidableEq

namespace Position

/-- The number shown at a position. -/
def doc : Position → ℕ
  | start => 0
  | .on e => e
  | exhausted => 0

/-- The position shown as a number, when the start is ruled out. -/
def ofDoc (d : ℕ) : Position := if d = 0 then exhausted else .on d

@[simp] theorem doc_ofDoc (d : ℕ) : (ofDoc d).doc = d := by
  rw [ofDoc]
  split
  · next h => exact h.symm
  · rfl

@[simp] theorem ofDoc_zero : ofDoc 0 = exhausted := rfl

theorem ofDoc_of_ne {d : ℕ} (h : d ≠ 0) : ofDoc d = .on d := if_neg h

/-- The cursor stands at the least element from `b` on, or is exhausted if there is none. -/
def Lands (S : Set ℕ) (b : ℕ) : Position → Prop
  | start => False
  | .on e => IsLeast {x | x ∈ S ∧ b ≤ x} e
  | exhausted => ∀ x ∈ S, x < b

/-- Advancing by one element. -/
def Next (S : Set ℕ) : Position → Position → Prop
  | start, p' => Lands S 1 p'
  | .on e, p' => Lands S (e + 1) p'
  | exhausted, p' => p' = exhausted

/-- Advancing to the first element from `id` on, unless the cursor is there already. -/
def SkipTo (S : Set ℕ) (id : ℕ) : Position → Position → Prop
  | start, p' => if id = 0 then p' = start else Lands S id p'
  | .on e, p' => if id ≤ e then p' = .on e else Lands S id p'
  | exhausted, p' => p' = exhausted

variable {S : Set ℕ} {b c id : ℕ} {p p' : Position}

/-- Looking from `c` on instead of from `b` on changes nothing if nothing lies in between. -/
theorem Lands.back (h : Lands S c p) (hbc : b ≤ c) (hS : ∀ x ∈ S, b ≤ x → c ≤ x) :
    Lands S b p := by
  cases p with
  | start => exact h
  | on e =>
    obtain ⟨⟨heS, hce⟩, hleast⟩ := h
    exact ⟨⟨heS, hbc.trans hce⟩, fun x hx => hleast ⟨hx.1, hS x hx.1 hx.2⟩⟩
  | exhausted =>
    intro x hx
    by_contra hbx
    exact absurd (h x hx) (not_lt.mpr (hS x hx (not_lt.mp hbx)))

/-- A cursor that has landed behind `c` has landed from `c` on. -/
theorem Lands.mono {e : ℕ} (h : Lands S b (.on e)) (hbc : b ≤ c) (hce : c ≤ e) :
    Lands S c (.on e) :=
  ⟨⟨h.1.1, hce⟩, fun _ hx => h.2 ⟨hx.1, hbc.trans hx.2⟩⟩

theorem Lands.congr {T : Set ℕ} (h : Lands S b p) (hST : ∀ x, b ≤ x → (x ∈ S ↔ x ∈ T)) :
    Lands T b p := by
  have hset : {x | x ∈ S ∧ b ≤ x} = {x | x ∈ T ∧ b ≤ x} := by
    ext x
    exact ⟨fun hx => ⟨(hST x hx.2).mp hx.1, hx.2⟩, fun hx => ⟨(hST x hx.2).mpr hx.1, hx.2⟩⟩
  cases p with
  | start => exact h
  | on e => rw [Lands] at h ⊢; rwa [← hset]
  | exhausted =>
    intro x hx
    by_contra hbx
    exact absurd (h x ((hST x (not_lt.mp hbx)).mpr hx)) hbx

/-- Landing in a union: the lower of the two numbers, where `0` does not count. -/
theorem Lands.union {T : Set ℕ} {n : ℕ} (hT : Lands T b (Position.ofDoc n)) (hS : Lands S b p)
    (hb : 1 ≤ b) :
    Lands {x | x ∈ T ∨ x ∈ S} b (Position.ofDoc
      (if p.doc = 0 then n else if p.doc < n ∨ n = 0 then p.doc else n)) := by
  cases p with
  | start => exact hS.elim
  | exhausted =>
    refine hT.congr fun x hx => ⟨Or.inl, fun h => ?_⟩
    rcases h with h | h
    · exact h
    · exact absurd (hS x h) (not_lt.mpr hx)
  | on e =>
    obtain ⟨⟨heS, hbe⟩, hleast⟩ := hS
    have he : e ≠ 0 := by omega
    rw [doc, if_neg he]
    rcases eq_or_ne n 0 with rfl | hn
    · -- nothing in `T`
      rw [if_pos (Or.inr rfl), ofDoc_of_ne he]
      refine ⟨⟨Or.inr heS, hbe⟩, fun x hx => ?_⟩
      rcases hx.1 with h | h
      · exact absurd (hT x h) (not_lt.mpr hx.2)
      · exact hleast ⟨h, hx.2⟩
    · rw [ofDoc_of_ne hn] at hT
      obtain ⟨⟨hnT, hbn⟩, hleast'⟩ := hT
      have hall : ∀ x, (x ∈ T ∨ x ∈ S) ∧ b ≤ x → n ≤ x ∨ e ≤ x := by
        rintro x ⟨h | h, hbx⟩
        · exact Or.inl (hleast' ⟨h, hbx⟩)
        · exact Or.inr (hleast ⟨h, hbx⟩)
      split
      · next hlt =>
        rw [ofDoc_of_ne he]
        refine ⟨⟨Or.inr heS, hbe⟩, fun x hx => ?_⟩
        rcases hall x hx with h | h
        · exact (hlt.resolve_right hn).le.trans h
        · exact h
      · next hnot =>
        rw [ofDoc_of_ne hn]
        refine ⟨⟨Or.inl hnT, hbn⟩, fun x hx => ?_⟩
        rcases hall x hx with h | h
        · exact h
        · exact (not_lt.mp (not_or.mp hnot).1).trans h

/-- From a position that is not exhausted, the next one is where the cursor lands behind it. -/
theorem next_iff (hp : p ≠ exhausted) : Next S p p' ↔ Lands S (p.doc + 1) p' := by
  cases p with
  | start => rfl
  | on e => rfl
  | exhausted => exact absurd rfl hp

/-- Skipping to a number behind the current one. -/
theorem skipTo_iff (hp : p ≠ exhausted) (hid : p.doc < id) : SkipTo S id p p' ↔ Lands S id p' := by
  cases p with
  | start => rw [SkipTo, if_neg (by rw [doc] at hid; omega)]
  | on e => rw [SkipTo, if_neg (by rw [doc] at hid; omega)]
  | exhausted => exact absurd rfl hp

/-- Skipping to a number that has been reached. -/
theorem skipTo_self (hid : id ≤ p.doc) : SkipTo S id p p := by
  cases p with
  | start => rw [SkipTo, if_pos (Nat.le_zero.mp hid)]
  | on e => rw [SkipTo, if_pos (show id ≤ e from hid)]
  | exhausted => rfl

end Position

/-- The methods of a class of objects; the calls take fuel. -/
structure Methods (O : Type u) where
  /-- the current number -/
  docId : O → ℕ
  /-- advance by one element -/
  next : ℕ → O → Option (O × ℕ)
  /-- advance to a number -/
  skipTo : ℕ → O → ℕ → Option (O × ℕ)

variable {O : Type u} (m : Methods O)

/-- A relation between objects and cursors that every call keeps. -/
structure Simulation (R : O → Set ℕ → Position → Prop) : Prop where
  /-- `docId` shows the position -/
  docId : ∀ {o S p}, R o S p → m.docId o = p.doc
  /-- the cursor stands at elements, which are positive -/
  valid : ∀ {o S e}, R o S (.on e) → e ∈ S ∧ 1 ≤ e
  /-- `next` returns the next position -/
  next : ∀ {o S p}, R o S p → ∃ o' p', Position.Next S p p' ∧
    Returns (fun n => m.next n o) (o', p'.doc) ∧ R o' S p'
  /-- `skipTo` returns the position from the number on -/
  skipTo : ∀ {o S p} id, R o S p → ∃ o' p', Position.SkipTo S id p p' ∧
    Returns (fun n => m.skipTo n o id) (o', p'.doc) ∧ R o' S p'

/-- The object is a cursor over `S` at position `p`. -/
def Implements (o : O) (S : Set ℕ) (p : Position) : Prop := ∃ R, Simulation m R ∧ R o S p

/-- `Implements` is itself such a relation. -/
theorem simulation_implements : Simulation m (Implements m) where
  docId := fun ⟨_, hsim, hR⟩ => hsim.docId hR
  valid := fun ⟨_, hsim, hR⟩ => hsim.valid hR
  next := fun ⟨R, hsim, hR⟩ => by
    obtain ⟨o', p', hnext, hreturns, hR'⟩ := hsim.next hR
    exact ⟨o', p', hnext, hreturns, R, hsim, hR'⟩
  skipTo := fun id ⟨R, hsim, hR⟩ => by
    obtain ⟨o', p', hskip, hreturns, hR'⟩ := hsim.skipTo id hR
    exact ⟨o', p', hskip, hreturns, R, hsim, hR'⟩

/-! ## Skipping by advancing -/

/-- Advance until the number is reached or nothing is left; `currentId` is the number that was shown
last. -/
def skipByNext (next : ℕ → O → Option (O × ℕ)) (id : ℕ) : ℕ → O → ℕ → Option (O × ℕ)
  | 0, _, _ => none
  | fuel + 1, o, currentId =>
    if currentId < id then
      (next fuel o).bind fun r =>
        if r.2 = 0 then some (r.1, 0) else skipByNext next id fuel r.1 r.2
    else some (o, currentId)

/-- Advancing reaches the position behind a skip, by induction on the distance to the number. -/
theorem exists_skipByNext {R : O → Set ℕ → Position → Prop} {next : ℕ → O → Option (O × ℕ)}
    (hnext : ∀ {o S p}, R o S p → ∃ o' p', Position.Next S p p' ∧
      Returns (fun n => next n o) (o', p'.doc) ∧ R o' S p')
    {o : O} {S : Set ℕ} {p : Position} (h : R o S p) (id : ℕ) :
    ∃ o' p', Position.SkipTo S id p p' ∧
      Returns (fun n => skipByNext next id n o p.doc) (o', p'.doc) ∧ R o' S p' := by
  induction hk : id - p.doc using Nat.strong_induction_on generalizing o p with
  | _ k ih =>
    by_cases hlt : p.doc < id
    · obtain ⟨o', p', hadvance, hreturns, hR⟩ := hnext h
      rcases eq_or_ne p' .exhausted with rfl | hp'
      · -- nothing is left
        refine ⟨o', .exhausted, ?_, Returns.succ ?_, hR⟩
        · rcases eq_or_ne p .exhausted with rfl | hp
          · rfl
          · rw [Position.skipTo_iff hp hlt]
            rw [Position.next_iff hp] at hadvance
            exact fun x hx => (hadvance x hx).trans_le hlt
        · simp only [skipByNext, if_pos hlt]
          exact hreturns.bind (Returns.pure _)
      · have hp : p ≠ .exhausted := by
          rintro rfl
          exact hp' hadvance
        rw [Position.next_iff hp] at hadvance
        obtain ⟨e, rfl⟩ : ∃ e, p' = .on e := by
          cases p' with
          | start => exact hadvance.elim
          | on e => exact ⟨e, rfl⟩
          | exhausted => exact absurd rfl hp'
        have hle : p.doc + 1 ≤ e := hadvance.1.2
        obtain ⟨o'', p'', hskip, hreturns', hR'⟩ := ih (id - e) (by omega) hR rfl
        refine ⟨o'', p'', ?_, Returns.succ ?_, hR'⟩
        · rw [Position.skipTo_iff hp hlt]
          rw [Position.SkipTo] at hskip
          split at hskip
          · next hid =>
            rw [hskip]
            exact hadvance.mono hlt hid
          · exact hskip
        · simp only [skipByNext, if_pos hlt]
          refine hreturns.bind ?_
          have he : (Position.on e).doc ≠ 0 := by rw [Position.doc]; omega
          simp only [if_neg he]
          exact hreturns'
    · refine ⟨o, p, Position.skipTo_self (not_lt.mp hlt), Returns.succ ?_, h⟩
      simp only [skipByNext, if_neg hlt]
      exact Returns.pure _

/-! ## Sequences of calls -/

/-- A call. -/
inductive Call where
  /-- `next` -/
  | next
  /-- `skipTo` -/
  | skipTo (id : ℕ)

/-- Make calls one after another; for each of them the returned number and the current number after
it. -/
def run (m : Methods O) (fuel : ℕ) : O → List Call → Option (List (ℕ × ℕ))
  | _, [] => some []
  | o, call :: calls =>
    (match call with
      | .next => m.next fuel o
      | .skipTo id => m.skipTo fuel o id).bind fun r =>
        (run m fuel r.1 calls).bind fun out => some ((r.2, m.docId r.1) :: out)

/-- What a cursor over `S` answers from a position on: every call returns the number it shows
afterwards. -/
def Trace (S : Set ℕ) : Position → List Call → List (ℕ × ℕ) → Prop
  | _, [], out => out = []
  | p, call :: calls, out => ∃ p' out',
    (match call with
      | .next => Position.Next S p p'
      | .skipTo id => Position.SkipTo S id p p') ∧
    out = (p'.doc, p'.doc) :: out' ∧ Trace S p' calls out'

/-- An object that implements a cursor answers like it, whatever calls are made. -/
theorem Implements.run {o : O} {S : Set ℕ} {p : Position} (h : Implements m o S p)
    (calls : List Call) : ∃ out, Returns (fun n => Cursor.run m n o calls) out ∧
      Trace S p calls out := by
  have hsim := simulation_implements m
  induction calls generalizing o p with
  | nil => exact ⟨[], Returns.pure _, rfl⟩
  | cons call calls ih =>
    cases call with
    | next =>
      obtain ⟨o', p', hnext, hreturns, himp⟩ := hsim.next h
      obtain ⟨out, hrun, htrace⟩ := ih himp
      refine ⟨(p'.doc, p'.doc) :: out, hreturns.bind (hrun.bind ?_), p', out, hnext, rfl, htrace⟩
      rw [hsim.docId himp]
      exact Returns.pure _
    | skipTo id =>
      obtain ⟨o', p', hskip, hreturns, himp⟩ := hsim.skipTo id h
      obtain ⟨out, hrun, htrace⟩ := ih himp
      refine ⟨(p'.doc, p'.doc) :: out, hreturns.bind (hrun.bind ?_), p', out, hskip, rfl, htrace⟩
      rw [hsim.docId himp]
      exact Returns.pure _

/-! ## Reading to the end -/

/-- The loop `while (o.next())`, collecting the numbers that are shown. -/
def enumerate (m : Methods O) : ℕ → O → Option (List ℕ)
  | 0, _ => none
  | fuel + 1, o =>
    (m.next fuel o).bind fun r =>
      if r.2 = 0 then some [] else (enumerate m fuel r.1).map (m.docId r.1 :: ·)

/-- Objects that have shown the elements of `S` up to a number, and whose next call shows the next
one or ends. -/
structure Reads (m : Methods O) (S : Set ℕ) (R : O → ℕ → Prop) : Prop where
  /-- a call of `next` -/
  next : ∀ {o b}, R o b → ∃ o' d, Returns (fun n => m.next n o) (o', d) ∧
    ((d = 0 ∧ ∀ x ∈ S, x ≤ b) ∨ (IsLeast {x | x ∈ S ∧ b < x} d ∧ m.docId o' = d ∧ R o' d))

/-- **Reading a bounded set** yields the elements that have not been shown, ascending and each once. -/
theorem Reads.enumerate {m : Methods O} {S : Set ℕ} {R : O → ℕ → Prop} (h : Reads m S R) {B : ℕ}
    (hB : ∀ x ∈ S, x ≤ B) {o : O} {b : ℕ} (ho : R o b) :
    ∃ ids, Returns (fun n => Cursor.enumerate m n o) ids ∧ ids.Pairwise (· < ·) ∧
      ∀ x, x ∈ ids ↔ x ∈ S ∧ b < x := by
  induction hk : B - b using Nat.strong_induction_on generalizing o b with
  | _ k ih =>
    obtain ⟨o', d, hreturns, hend | ⟨hleast, hdoc, ho'⟩⟩ := h.next ho
    · obtain ⟨rfl, hnone⟩ := hend
      refine ⟨[], Returns.succ (hreturns.bind (Returns.pure _)), .nil, fun x => ?_⟩
      refine ⟨fun hx => absurd hx List.not_mem_nil, fun hx => ?_⟩
      exact absurd (hnone x hx.1) (not_le.mpr hx.2)
    · obtain ⟨⟨hdS, hbd⟩, hlow⟩ := hleast
      have hdB := hB d hdS
      obtain ⟨ids, hids, hsorted, hmem⟩ := ih (B - d) (by omega) ho' rfl
      refine ⟨d :: ids, Returns.succ (hreturns.bind ?_), ?_, fun x => ?_⟩
      · have hd : d ≠ 0 := by omega
        simp only [if_neg hd, hdoc, Option.map_eq_bind]
        exact hids.bind (Returns.pure _)
      · exact List.pairwise_cons.mpr ⟨fun x hx => ((hmem x).mp hx).2, hsorted⟩
      · rw [List.mem_cons, hmem x]
        constructor
        · rintro (rfl | ⟨hxS, hdx⟩)
          · exact ⟨hdS, hbd⟩
          · exact ⟨hxS, hbd.trans hdx⟩
        · rintro ⟨hxS, hbx⟩
          have hdx : d ≤ x := hlow ⟨hxS, hbx⟩
          rcases eq_or_lt_of_le hdx with heq | hlt
          · exact Or.inl heq.symm
          · exact Or.inr ⟨hxS, hlt⟩

/-- A cursor shows the elements of its set one after another. -/
theorem reads_implements (m : Methods O) (S : Set ℕ) :
    Reads m S fun o b => ∃ p, p ≠ .exhausted ∧ Implements m o S p ∧ p.doc = b where
  next := by
    rintro o b ⟨p, hp, himp, rfl⟩
    have hsim := simulation_implements m
    obtain ⟨o', p', hnext, hreturns, himp'⟩ := hsim.next himp
    rw [Position.next_iff hp] at hnext
    refine ⟨o', p'.doc, hreturns, ?_⟩
    cases p' with
    | start => exact hnext.elim
    | on e => exact .inr ⟨hnext, hsim.docId himp', .on e, by simp, himp', rfl⟩
    | exhausted => exact .inl ⟨rfl, fun x hx => Nat.le_of_lt_succ (hnext x hx)⟩

/-- **Reading a cursor over a bounded set from the start** yields its elements, ascending and each
once. -/
theorem Implements.enumerate {m : Methods O} {S : Set ℕ} {o : O} (h : Implements m o S .start)
    {B : ℕ} (hB : ∀ x ∈ S, x ≤ B) :
    ∃ ids, Returns (fun n => Cursor.enumerate m n o) ids ∧ ids.Pairwise (· < ·) ∧
      ∀ x, x ∈ ids ↔ x ∈ S ∧ 0 < x :=
  (reads_implements m S).enumerate hB ⟨.start, by simp, h, rfl⟩

/-- The objects together with the number the last call has returned, which is what they show. -/
def Methods.returned (m : Methods O) : Methods (O × ℕ) where
  docId := Prod.snd
  next fuel o := (m.next fuel o.1).map fun r => (r, r.2)
  skipTo fuel o id := (m.skipTo fuel o.1 id).map fun r => (r, r.2)

/-- What is returned is read like what is shown. -/
theorem Reads.returned {m : Methods O} {S : Set ℕ} {R : O → ℕ → Prop} (h : Reads m S R) :
    Reads m.returned S fun o b => R o.1 b where
  next := by
    intro o b ho
    obtain ⟨o', d, hreturns, hcases⟩ := h.next ho
    refine ⟨(o', d), d, hreturns.map _, hcases.imp_right ?_⟩
    exact fun ⟨hleast, _, ho'⟩ => ⟨hleast, rfl, ho'⟩

/-! ## What is left -/

/-- The numbers that are still to be shown. -/
def Position.left (S : Set ℕ) (p : Position) : Set ℕ := {x | p ≠ .exhausted ∧ x ∈ S ∧ p.doc < x}

/-- The object has these numbers left to show, in this order. -/
def HasLeft (m : Methods O) (o : O) (ids : List ℕ) : Prop :=
  ∃ S p, Implements m o S p ∧ ids.Pairwise (· < ·) ∧ ∀ x, x ∈ ids ↔ x ∈ Position.left S p

variable {m}

/-- At the start, everything is left. -/
theorem Implements.hasLeft {o : O} {S : Set ℕ} (h : Implements m o S .start) (hzero : 0 ∉ S) {ids : List ℕ}
    (hids : ids.Pairwise (· < ·)) (hmem : ∀ x, x ∈ ids ↔ x ∈ S) : HasLeft m o ids := by
  refine ⟨S, .start, h, hids, fun x => (hmem x).trans ?_⟩
  refine ⟨fun hx => ⟨by simp, hx, Nat.pos_of_ne_zero ?_⟩, fun hx => hx.2.1⟩
  rintro rfl
  exact hzero hx

/-- Where the next call leads. -/
theorem HasLeft.advance {o : O} {ids : List ℕ} (h : HasLeft m o ids) : ∃ o' S p', Implements m o' S p' ∧
    Returns (fun n => m.next n o) (o', p'.doc) ∧ ids.Pairwise (· < ·) ∧
      ((p' = .exhausted ∧ ids = []) ∨ ∃ e, p' = .on e ∧ ∀ x, x ∈ ids ↔ x = e ∨ x ∈ S ∧ e < x) := by
  obtain ⟨S, p, himp, hsorted, hmem⟩ := h
  obtain ⟨o', p', hnext, hreturns, himp'⟩ := (simulation_implements m).next himp
  refine ⟨o', S, p', himp', hreturns, hsorted, ?_⟩
  rcases eq_or_ne p .exhausted with rfl | hp
  · exact .inl ⟨hnext, List.eq_nil_iff_forall_not_mem.mpr fun x hx => ((hmem x).mp hx).1 rfl⟩
  · rw [Position.next_iff hp] at hnext
    cases p' with
    | start => exact hnext.elim
    | exhausted =>
      refine .inl ⟨rfl, List.eq_nil_iff_forall_not_mem.mpr fun x hx => ?_⟩
      obtain ⟨-, hxS, hlt⟩ := (hmem x).mp hx
      exact absurd (hnext x hxS) (Nat.not_lt.mpr hlt)
    | on e =>
      obtain ⟨⟨heS, hle⟩, hleast⟩ := hnext
      refine .inr ⟨e, rfl, fun x => (hmem x).trans ⟨?_, ?_⟩⟩
      · rintro ⟨-, hxS, hlt⟩
        exact (hleast ⟨hxS, hlt⟩).eq_or_lt.imp Eq.symm fun hlt => ⟨hxS, hlt⟩
      · rintro (rfl | ⟨hxS, hlt⟩)
        · exact ⟨hp, heS, hle⟩
        · exact ⟨hp, hxS, (Nat.lt_of_succ_le hle).trans hlt⟩

/-- If nothing is left, a call ends at once, and so does every later one. -/
theorem HasLeft.next_nil {o : O} (h : HasLeft m o []) :
    ∃ o', Returns (fun n => m.next n o) (o', 0) ∧ HasLeft m o' [] := by
  obtain ⟨o', S, p', himp, hreturns, -, ⟨rfl, -⟩ | ⟨e, -, hmem⟩⟩ := h.advance
  · refine ⟨o', hreturns, S, .exhausted, himp, .nil, fun x => ?_⟩
    exact iff_of_false List.not_mem_nil fun hx => hx.1 rfl
  · exact absurd ((hmem e).mpr (.inl rfl)) List.not_mem_nil

/-- If something is left, a call shows the first number. -/
theorem HasLeft.next_cons {o : O} {id : ℕ} {ids : List ℕ} (h : HasLeft m o (id :: ids)) :
    ∃ o', Returns (fun n => m.next n o) (o', id) ∧ m.docId o' = id ∧ id ≠ 0 ∧ HasLeft m o' ids := by
  obtain ⟨o', S, p', himp, hreturns, hsorted, ⟨-, hnil⟩ | ⟨e, rfl, hmem⟩⟩ := h.advance
  · cases hnil
  · obtain ⟨hfirst, hsorted⟩ := List.pairwise_cons.mp hsorted
    have hid : id = e := by
      rcases (hmem id).mp List.mem_cons_self with heq | ⟨-, hlt⟩
      · exact heq
      · rcases List.mem_cons.mp ((hmem e).mpr (.inl rfl)) with heq | he
        · exact heq.symm
        · exact absurd (hfirst e he) (Nat.lt_asymm hlt)
    subst hid
    have hvalid := (simulation_implements m).valid himp
    refine ⟨o', hreturns, (simulation_implements m).docId himp, by omega, S, .on id, himp, hsorted, fun x => ?_⟩
    have hx := hmem x
    constructor
    · intro hxids
      rcases hx.mp (List.mem_cons_of_mem _ hxids) with rfl | ⟨hxS, hlt⟩
      · exact absurd (hfirst x hxids) (lt_irrefl x)
      · exact ⟨by simp, hxS, hlt⟩
    · rintro ⟨-, hxS, hlt⟩
      rcases List.mem_cons.mp (hx.mpr (.inr ⟨hxS, hlt⟩)) with rfl | hxids
      · exact absurd hlt (lt_irrefl x)
      · exact hxids

end Cursor
