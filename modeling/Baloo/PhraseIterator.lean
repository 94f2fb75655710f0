import Baloo.Lib.Cursor
import Baloo.Store

/-!
# The phrase iterator

`PhraseAndIterator` runs through the documents that occur in the position lists of all terms of a
phrase, like an intersection, and stops at those in which the terms stand one behind the other. For
this it moves through the positions of the terms with a lower bound for the start of the phrase, which
only goes up.

The offsets of `checkIfPositionsMatch` are kept as the positions from the offset on. The methods take
fuel, as those of the other iterators do.
-/

namespace Baloo

open Fuel (Returns)
open SortedSeq (Ascending)

/-! ## Position lists -/

/-- `VectorPositionInfoIterator`. -/
structure VectorPositionInfoIterator where
  /-- `m_vector` -/
  vector : List PositionInfo
  /-- `m_pos` -/
  pos : ℤ := -1

namespace VectorPositionInfoIterator

/-- `m_vector[m_pos]`, if there is one. -/
def info (it : VectorPositionInfoIterator) : Option PositionInfo :=
  if it.pos < 0 then none else it.vector[it.pos.toNat]?

/-- `docId`. -/
def docId (it : VectorPositionInfoIterator) : DocId := (it.info.map PositionInfo.docId).getD 0

/-- `positions`. -/
def positions (it : VectorPositionInfoIterator) : List UInt32 := (it.info.map PositionInfo.positions).getD []

/-- `next`. -/
def next (it : VectorPositionInfoIterator) : VectorPositionInfoIterator × DocId :=
  let it := { it with pos := it.pos + 1 }
  if (it.vector.length : ℤ) ≤ it.pos then ({ vector := [], pos := it.vector.length }, 0) else (it, it.docId)

/-- `skipTo` of the base class. -/
def skipTo : ℕ → VectorPositionInfoIterator → DocId → Option (VectorPositionInfoIterator × DocId)
  | 0, _, _ => none
  | fuel + 1, it, id =>
    if it.docId < id then
      let r := it.next
      if r.2 = 0 then some (r.1, 0) else skipTo fuel r.1 id
    else some (it, it.docId)

end VectorPositionInfoIterator

/-! ## Phrases -/

/-- `PhraseAndIterator`. -/
structure PhraseAndIterator where
  /-- `m_iterators` -/
  iterators : List VectorPositionInfoIterator
  /-- `m_docId` -/
  docId : DocId := 0

namespace PhraseAndIterator

/-- The constructor; `none` is a null pointer. -/
def make (iterators : List (Option VectorPositionInfoIterator)) : PhraseAndIterator :=
  if iterators.any Option.isNone then { iterators := [] } else { iterators := iterators.filterMap id }

/-- The loop over the iterators in `checkIfPositionsMatch`, from the `i`-th one on: each is moved to the
first position that does not start the phrase below the bound, and the bound to where this position
starts the phrase. `none`: there is no such position. -/
def align (i lower_bound : ℕ) : List (List UInt32) → Option (ℕ × List (List UInt32))
  | [] => some (lower_bound, [])
  | positions :: rest =>
    match positions.dropWhile fun pos => decide (pos.toNat < lower_bound + i) with
    | [] => none
    | pos :: more =>
      (align (i + 1) (pos.toNat - i) rest).map fun r => (r.1, (pos :: more) :: r.2)

/-- The outer loop of `checkIfPositionsMatch`. Each round that does not return moves the first offset,
so the number of first positions bounds the number of rounds. -/
def matchLoop : ℕ → ℕ → List (List UInt32) → Bool
  | 0, _, _ => false
  | rounds + 1, lower_bound, positions =>
    match align 0 lower_bound positions with
    | some (lower_bound, (pos :: first) :: others) =>
      -- if the bound has not changed, all offsets are aligned
      if lower_bound = pos.toNat then true else matchLoop rounds lower_bound (first :: others)
    | _ => false

/-- `checkIfPositionsMatch`, for the positions at which the iterators stand. -/
def checkIfPositionsMatch (positions : List (List UInt32)) : Bool :=
  matchLoop (positions.headD []).length 0 positions

/-- The loop over the iterators in `skipTo`. -/
def skipAll (fuel : ℕ) : List VectorPositionInfoIterator → DocId →
    Option (List VectorPositionInfoIterator × DocId)
  | [], lower_bound => some ([], lower_bound)
  | iter :: iters, lower_bound =>
    (iter.skipTo fuel lower_bound).bind fun r =>
      if r.2 = 0 then some (r.1 :: iters, 0)
      else (skipAll fuel iters r.2).map fun s => (r.1 :: s.1, s.2)

/-- `m_iterators.at(0)->next()`. -/
def nextFirst : List VectorPositionInfoIterator → List VectorPositionInfoIterator × DocId
  | [] => ([], 0)
  | iter :: iters => (iter.next.1 :: iters, iter.next.2)

/-- `skipTo`. -/
def skipTo : ℕ → PhraseAndIterator → DocId → Option (PhraseAndIterator × DocId)
  | 0, _, _ => none
  | fuel + 1, it, id =>
    if it.iterators = [] then some ({ it with docId := 0 }, 0)
    else
      (skipAll fuel it.iterators id).bind fun r =>
        if r.2 = 0 then some ({ iterators := r.1, docId := 0 }, 0)
        else if r.2 = id then
          if checkIfPositionsMatch (r.1.map VectorPositionInfoIterator.positions) then
            some ({ iterators := r.1, docId := r.2 }, r.2)
          else
            let s := nextFirst r.1
            skipTo fuel { it with iterators := s.1 } s.2
        else skipTo fuel { it with iterators := r.1 } r.2

/-- `next`. -/
def next : ℕ → PhraseAndIterator → Option (PhraseAndIterator × DocId)
  | fuel, it =>
    if it.iterators = [] then some ({ it with docId := 0 }, 0)
    else
      let r := nextFirst it.iterators
      skipTo fuel { iterators := r.1, docId := r.2 } r.2

/-- The methods. -/
def methods : Cursor.Methods PhraseAndIterator where
  docId := docId
  next := next
  skipTo := skipTo

/-! ## Aligned positions -/

/-- The `i`-th term stands `i` behind `N`, and so on. -/
def Aligned (N : ℕ) : ℕ → List (List UInt32) → Prop
  | _, [] => True
  | i, positions :: rest => (∃ pos ∈ positions, pos.toNat = N + i) ∧ Aligned N (i + 1) rest

/-- Position lists are strictly ascending. -/
def AllAscending (lists : List (List UInt32)) : Prop := ∀ positions ∈ lists, Ascending UInt32.toNat positions

/-- **One round of the alignment**: the bound goes up, but not past a start of the phrase, and what is
dropped is not needed. -/
theorem align_spec {lists : List (List UInt32)} (h : AllAscending lists) (i lb : ℕ) :
    (align i lb lists = none ∧ ∀ N, lb ≤ N → ¬ Aligned N i lists) ∨
    ∃ lb' lists', align i lb lists = some (lb', lists') ∧ lb ≤ lb' ∧ AllAscending lists' ∧
      (∀ N, lb ≤ N → Aligned N i lists → lb' ≤ N) ∧
      (∀ N, lb' ≤ N → (Aligned N i lists ↔ Aligned N i lists')) ∧
      (lb' = lb → Aligned lb i lists) ∧
      ∀ first others, lists = first :: others → ∃ pos more others', lists' = (pos :: more) :: others' ∧
        more.length < first.length ∧ pos.toNat ≤ lb' + i ∧ (pos.toNat = lb' + i → Aligned lb' i lists) := by
  induction lists generalizing i lb with
  | nil =>
    exact Or.inr ⟨lb, [], rfl, le_refl lb, h, fun _ hN _ => hN, fun _ _ => Iff.rfl, fun _ => trivial,
      nofun⟩
  | cons positions rest ih =>
    have hpositions := h positions (List.mem_cons_self ..)
    have hmem : ∀ pos : UInt32, pos ∈ positions.dropWhile (fun pos => decide (pos.toNat < lb + i)) ↔
        pos ∈ positions ∧ lb + i ≤ pos.toNat := fun pos => SortedSeq.mem_dropWhile hpositions
    have hascending := hpositions.dropWhile fun pos => decide (pos.toNat < lb + i)
    rcases hdrop : positions.dropWhile (fun pos => decide (pos.toNat < lb + i)) with _ | ⟨pos, more⟩
    · -- no position is left
      refine Or.inl ⟨by rw [align, hdrop], fun N hN hN' => ?_⟩
      obtain ⟨⟨pos, hpos, heq⟩, -⟩ := hN'
      have hleft := (hmem pos).mpr ⟨hpos, by omega⟩
      rw [hdrop] at hleft
      cases hleft
    · rw [hdrop] at hmem hascending
      obtain ⟨hpos, hle⟩ := (hmem pos).mp (List.mem_cons_self ..)
      -- the phrase does not start below `pos`
      have hstart : ∀ N, lb ≤ N → Aligned N i (positions :: rest) → pos.toNat - i ≤ N := by
        intro N hN hN'
        obtain ⟨⟨pos', hpos', heq⟩, -⟩ := hN'
        rcases List.mem_cons.mp ((hmem pos').mpr ⟨hpos', by omega⟩) with rfl | hlater
        · omega
        · have hlt := hascending.lt_of_mem_tail hlater
          omega
      rcases ih (fun l hl => h l (List.mem_cons_of_mem _ hl)) (i + 1) (pos.toNat - i) with
        ⟨hnone, hnever⟩ | ⟨lb', lists', hsome, hlb, hlists', hkept, hiff, hsame, -⟩
      · refine Or.inl ⟨by rw [align, hdrop]; simp only [hnone, Option.map_none], fun N hN hN' => ?_⟩
        exact hnever N (hstart N hN hN') hN'.2
      · refine Or.inr ⟨lb', (pos :: more) :: lists', ?_, by omega, ?_, ?_, ?_, ?_, ?_⟩
        · rw [align, hdrop]
          simp only [hsome, Option.map_some]
        · intro l hl
          rcases List.mem_cons.mp hl with rfl | hl
          · exact hascending
          · exact hlists' l hl
        · exact fun N hN hN' => hkept N (hstart N hN hN') hN'.2
        · refine fun N hN => and_congr ⟨?_, ?_⟩ (hiff N hN)
          · rintro ⟨pos', hpos', heq⟩
            exact ⟨pos', (hmem pos').mpr ⟨hpos', by omega⟩, heq⟩
          · rintro ⟨pos', hpos', heq⟩
            exact ⟨pos', ((hmem pos').mp hpos').1, heq⟩
        · intro heq
          have hbound : pos.toNat - i = lb := by omega
          exact ⟨⟨pos, hpos, by omega⟩, hbound ▸ hsame (heq.trans hbound.symm)⟩
        · intro first others heq
          obtain ⟨rfl, rfl⟩ := List.cons.inj heq
          refine ⟨pos, more, lists', rfl, ?_, by omega, fun hpos' => ?_⟩
          · have hlength := List.Sublist.length_le
              (List.dropWhile_sublist (fun pos => decide (UInt32.toNat pos < lb + i)) (l := positions))
            rw [hdrop, List.length_cons] at hlength
            omega
          · have hbound : lb' = pos.toNat - i := by omega
            exact ⟨⟨pos, hpos, hpos'⟩, hbound ▸ hsame hbound⟩

/-- **The search for aligned positions** finds a start of the phrase from the bound on, if there is one. -/
theorem matchLoop_iff {rounds lb : ℕ} {first : List UInt32} {others : List (List UInt32)}
    (h : AllAscending (first :: others)) (hrounds : first.length ≤ rounds) :
    matchLoop rounds lb (first :: others) = true ↔ ∃ N, lb ≤ N ∧ Aligned N 0 (first :: others) := by
  induction rounds generalizing lb first others with
  | zero =>
    obtain rfl := List.eq_nil_of_length_eq_zero (Nat.le_zero.mp hrounds)
    refine ⟨fun hfalse => (nomatch hfalse), fun ⟨N, _, ⟨_, hmem, _⟩, _⟩ => ?_⟩
    cases hmem
  | succ rounds ih =>
    rcases align_spec h 0 lb with ⟨hnone, hnever⟩ | ⟨lb', lists', hsome, hlb, hlists', hkept, hiff, -, hfirst⟩
    · rw [matchLoop, hnone]
      refine ⟨fun hfalse => (nomatch hfalse), fun ⟨N, hN, hN'⟩ => absurd hN' (hnever N hN)⟩
    · obtain ⟨pos, more, others', rfl, hlength, hle, haligned⟩ := hfirst first others rfl
      rw [matchLoop, hsome]
      dsimp only
      split
      · next heq => exact ⟨fun _ => ⟨lb', hlb, haligned heq.symm⟩, fun _ => rfl⟩
      · next hne =>
        have hmore : AllAscending (more :: others') := by
          intro l hl
          rcases List.mem_cons.mp hl with rfl | hl
          · exact List.Pairwise.of_cons (hlists' _ (List.mem_cons_self ..))
          · exact hlists' l (List.mem_cons_of_mem _ hl)
        rw [ih hmore (by omega)]
        -- the phrase does not start at `pos`, which is below the bound
        have hdrop : ∀ N, lb' ≤ N →
            (Aligned N 0 ((pos :: more) :: others') ↔ Aligned N 0 (more :: others')) := by
          refine fun N hN => and_congr_left fun _ => ⟨?_, ?_⟩
          · rintro ⟨pos', hpos', heq⟩
            rcases List.mem_cons.mp hpos' with rfl | hpos'
            · omega
            · exact ⟨pos', hpos', heq⟩
          · rintro ⟨pos', hpos', heq⟩
            exact ⟨pos', List.mem_cons_of_mem _ hpos', heq⟩
        constructor
        · rintro ⟨N, hN, hN'⟩
          exact ⟨N, hlb.trans hN, (hiff N hN).mpr ((hdrop N hN).mpr hN')⟩
        · rintro ⟨N, hN, hN'⟩
          have hN'' := hkept N hN hN'
          exact ⟨N, hN'', (hdrop N hN'').mp ((hiff N hN'').mp hN')⟩

theorem checkIfPositionsMatch_iff {lists : List (List UInt32)} (h : AllAscending lists) (hne : lists ≠ []) :
    checkIfPositionsMatch lists = true ↔ ∃ N, Aligned N 0 lists := by
  obtain ⟨first, others, rfl⟩ := List.exists_cons_of_ne_nil hne
  rw [checkIfPositionsMatch, List.headD_cons, matchLoop_iff h (le_refl _)]
  exact exists_congr fun N => and_iff_right (Nat.zero_le N)

end PhraseAndIterator

/-! ## Reading position lists -/

namespace VectorPositionInfoIterator

/-- The document at which a list starts, `0` if it is empty. -/
def headId (l : List PositionInfo) : DocId := (l.head?.map PositionInfo.docId).getD 0

/-- The infos from the current one on. -/
inductive Stands : VectorPositionInfoIterator → List PositionInfo → Prop
  /-- some infos have been read -/
  | on (pre : List PositionInfo) (info : PositionInfo) (rest : List PositionInfo) :
    Stands { vector := pre ++ info :: rest, pos := pre.length } (info :: rest)
  /-- the end has been reached -/
  | finished (n : ℕ) : Stands { vector := [], pos := n } []

/-- The infos from the current one on; there may be none yet. -/
inductive Ahead : VectorPositionInfoIterator → List PositionInfo → Prop
  /-- nothing has been read -/
  | start (l : List PositionInfo) : Ahead { vector := l } l
  /-- there is a current info, or none any more -/
  | stands {it : VectorPositionInfoIterator} {l : List PositionInfo} : Stands it l → Ahead it l

variable {it : VectorPositionInfoIterator} {l : List PositionInfo}

theorem Stands.info (h : Stands it l) : it.info = l.head? := by
  cases h with
  | on pre info rest =>
    rw [VectorPositionInfoIterator.info, if_neg (by simp)]
    simp
  | finished n => simp [VectorPositionInfoIterator.info]

theorem Stands.docId (h : Stands it l) : it.docId = headId l := by
  rw [VectorPositionInfoIterator.docId, h.info, headId]

/-- Moving behind the infos `pre`. -/
theorem next_split (pre rest : List PositionInfo) :
    ∃ it', ({ vector := pre ++ rest, pos := (pre.length : ℤ) - 1 } : VectorPositionInfoIterator).next =
      (it', headId rest) ∧ Stands it' rest := by
  have hpos : (pre.length : ℤ) - 1 + 1 = pre.length := by omega
  rw [next]
  dsimp only
  rw [hpos]
  cases rest with
  | nil =>
    rw [if_pos (by simp)]
    exact ⟨_, rfl, .finished _⟩
  | cons info rest =>
    rw [if_neg (by rw [List.length_append, List.length_cons]; omega)]
    have hstands : Stands { vector := pre ++ info :: rest, pos := pre.length } (info :: rest) := .on pre info rest
    exact ⟨_, by rw [hstands.docId], hstands⟩

theorem next_start (l : List PositionInfo) :
    ∃ it', ({ vector := l } : VectorPositionInfoIterator).next = (it', headId l) ∧ Stands it' l :=
  next_split [] l

theorem Stands.next (h : Stands it l) : ∃ it', it.next = (it', headId l.tail) ∧ Stands it' l.tail := by
  cases h with
  | on pre info rest =>
    obtain ⟨it', hnext, hstands⟩ := next_split (pre ++ [info]) rest
    refine ⟨it', ?_, hstands⟩
    change _ = (it', headId rest)
    rw [← hnext]
    simp
  | finished n =>
    refine ⟨{ vector := [], pos := 0 }, ?_, .finished 0⟩
    rw [VectorPositionInfoIterator.next]
    dsimp only
    rw [if_pos (by simp; omega)]
    rfl

/-- The infos from a document on. -/
def dropBelow (b : DocId) (l : List PositionInfo) : List PositionInfo :=
  l.dropWhile fun info => decide (info.docId < b)

/-- The loop of the base class. -/
theorem Stands.skipTo (h : Stands it l) (hids : ∀ info ∈ l, info.docId ≠ 0) (b : DocId) :
    ∃ it', Returns (fun n => skipTo n it b) (it', headId (dropBelow b l)) ∧ Stands it' (dropBelow b l) := by
  have hunfold : ∀ n, VectorPositionInfoIterator.skipTo (n + 1) it b =
      if headId l < b then
        if it.next.2 = 0 then some (it.next.1, 0) else VectorPositionInfoIterator.skipTo n it.next.1 b
      else some (it, headId l) := fun n => by rw [VectorPositionInfoIterator.skipTo, h.docId]
  induction l generalizing it with
  | nil =>
    obtain ⟨it', hnext, hstands⟩ := h.next
    by_cases hb : headId [] < b
    · refine ⟨it', Returns.succ ?_, hstands⟩
      simp only [hunfold, if_pos hb, hnext]
      exact Returns.pure _
    · refine ⟨it, Returns.succ ?_, h⟩
      simp only [hunfold, if_neg hb]
      exact Returns.pure _
  | cons info rest ih =>
    by_cases hb : info.docId < b
    · obtain ⟨it', hnext, hstands⟩ := h.next
      have hdrop : dropBelow b (info :: rest) = dropBelow b rest := List.dropWhile_cons_of_pos (by simpa using hb)
      have hhead : headId (info :: rest) < b := hb
      rw [List.tail_cons] at hnext hstands
      rw [hdrop]
      rcases rest with _ | ⟨info', rest⟩
      · refine ⟨it', Returns.succ ?_, hstands⟩
        simp only [hunfold, if_pos hhead, hnext]
        exact Returns.pure _
      · have hne : headId (info' :: rest) ≠ 0 := hids info' (by simp)
        obtain ⟨it'', hreturns, hstands'⟩ := ih hstands (fun i hi => hids i (List.mem_cons_of_mem _ hi)) fun n => by
          rw [VectorPositionInfoIterator.skipTo, hstands.docId]
        refine ⟨it'', Returns.succ ?_, hstands'⟩
        simp only [hunfold, if_pos hhead, hnext, if_neg hne]
        exact hreturns
    · have hdrop : dropBelow b (info :: rest) = info :: rest := List.dropWhile_cons_of_neg (by simpa using hb)
      refine ⟨it, Returns.succ ?_, by rw [hdrop]; exact h⟩
      have hhead : ¬ headId (info :: rest) < b := hb
      simp only [hunfold, if_neg hhead, hdrop]
      exact Returns.pure _

theorem Ahead.skipTo (h : Ahead it l) (hids : ∀ info ∈ l, info.docId ≠ 0) {b : DocId} (hb : 1 ≤ b) :
    ∃ it', Returns (fun n => skipTo n it b) (it', headId (dropBelow b l)) ∧ Stands it' (dropBelow b l) := by
  cases h with
  | stands h => exact h.skipTo hids b
  | start l =>
    obtain ⟨it', hnext, hstands⟩ := next_start l
    have hunfold : ∀ n, VectorPositionInfoIterator.skipTo (n + 1) { vector := l } b =
        if headId l = 0 then some (it', 0) else VectorPositionInfoIterator.skipTo n it' b := fun n => by
      have hdoc : ({ vector := l } : VectorPositionInfoIterator).docId < b := hb
      rw [VectorPositionInfoIterator.skipTo, if_pos hdoc, hnext]
    rcases l with _ | ⟨info, rest⟩
    · refine ⟨it', Returns.succ ?_, hstands⟩
      simp only [hunfold]
      exact Returns.pure _
    · have hne : headId (info :: rest) ≠ 0 := hids info (List.mem_cons_self ..)
      obtain ⟨it'', hreturns, hstands'⟩ := hstands.skipTo hids b
      refine ⟨it'', Returns.succ ?_, hstands'⟩
      simp only [hunfold, if_neg hne]
      exact hreturns

end VectorPositionInfoIterator

namespace PhraseAndIterator

open VectorPositionInfoIterator (Stands Ahead headId dropBelow next_start)

/-! ## The documents of a phrase -/

/-- What is stored for a term: the documents ascend, and so do their positions. -/
structure Listed (l : List PositionInfo) : Prop where
  /-- the documents -/
  ascending : Ascending PositionInfo.docId l
  /-- `0` is no document -/
  ids : ∀ info ∈ l, info.docId ≠ 0
  /-- the positions -/
  positions : ∀ info ∈ l, Ascending UInt32.toNat info.positions

/-- The positions in a document. -/
def positionsAt (d : DocId) (l : List PositionInfo) : List UInt32 :=
  ((SortedSeq.find PositionInfo.docId d l).map PositionInfo.positions).getD []

/-- The document contains the phrase whose terms have these lists. -/
def Hit (ls : List (List PositionInfo)) (d : DocId) : Prop := ∃ N, Aligned N 0 (ls.map (positionsAt d))

/-- Nothing from `r` on has been dropped. -/
def Kept (r : DocId) (l' l : List PositionInfo) : Prop := l' <:+ l ∧ ∀ info ∈ l, r ≤ info.docId → info ∈ l'

variable {l l' l'' : List PositionInfo} {ls ls' : List (List PositionInfo)} {b d r : ℕ}

theorem Listed.sublist (h : Listed l) (hsub : l'.Sublist l) : Listed l' :=
  ⟨h.ascending.sublist hsub, fun info hinfo => h.ids info (hsub.subset hinfo),
    fun info hinfo => h.positions info (hsub.subset hinfo)⟩

theorem Kept.trans {r' : ℕ} (h : Kept r l' l) (h' : Kept r' l'' l') (hr : r ≤ r') : Kept r' l'' l :=
  ⟨h'.1.trans h.1, fun info hinfo hle => h'.2 info (h.2 info hinfo (hr.trans hle)) hle⟩

theorem Kept.mono {r' : ℕ} (h : Kept r l' l) (hr : r ≤ r') : Kept r' l' l :=
  ⟨h.1, fun info hinfo hle => h.2 info hinfo (hr.trans hle)⟩

theorem kept_dropBelow (h : Listed l) (b : DocId) : Kept b (dropBelow b l) l :=
  ⟨List.dropWhile_suffix _, fun _ hinfo hle => (SortedSeq.mem_dropWhile h.ascending).mpr ⟨hinfo, hle⟩⟩

/-- The document at which a list starts is the least one. -/
theorem headId_le (h : Listed l) {info : PositionInfo} (hinfo : info ∈ l) : headId l ≤ info.docId := by
  cases l with
  | nil => cases hinfo
  | cons x l =>
    rcases List.mem_cons.mp hinfo with rfl | hinfo
    · exact le_refl _
    · exact (h.ascending.lt_of_mem_tail hinfo).le

theorem headId_eq_zero (h : Listed l) : headId l = 0 ↔ l = [] := by
  cases l with
  | nil => simp [headId]
  | cons info l => simpa [headId] using h.ids info (List.mem_cons_self ..)

theorem positionsAt_ne_nil (h : positionsAt d l ≠ []) : ∃ info ∈ l, info.docId = d := by
  rw [positionsAt] at h
  rcases hfind : SortedSeq.find PositionInfo.docId d l with _ | info
  · rw [hfind] at h
    exact absurd rfl h
  · exact ⟨info, SortedSeq.mem_of_find hfind, SortedSeq.find_key hfind⟩

theorem positionsAt_of_mem (h : Listed l) {info : PositionInfo} (hinfo : info ∈ l) :
    positionsAt info.docId l = info.positions := by
  rw [positionsAt, SortedSeq.find_of_mem h.ascending hinfo]
  rfl

theorem positionsAt_ascending (h : Listed l) (d : DocId) : Ascending UInt32.toNat (positionsAt d l) := by
  rw [positionsAt]
  rcases hfind : SortedSeq.find PositionInfo.docId d l with _ | info
  · exact SortedSeq.ascending_nil
  · exact h.positions info (SortedSeq.mem_of_find hfind)

/-- Dropping documents below `r` does not change what is at `r` or behind. -/
theorem Kept.positionsAt (hl : Listed l) (h : Kept r l' l) (hd : r ≤ d) : positionsAt d l' = positionsAt d l := by
  rcases hfind : SortedSeq.find PositionInfo.docId d l with _ | info
  · have hnil : PhraseAndIterator.positionsAt d l = [] := by
      rw [PhraseAndIterator.positionsAt, hfind]
      rfl
    rw [hnil]
    by_contra hne
    obtain ⟨info, hinfo, hid⟩ := positionsAt_ne_nil hne
    have hfound := SortedSeq.find_of_mem hl.ascending (h.1.subset hinfo)
    rw [hid, hfind] at hfound
    cases hfound
  · obtain rfl : info.docId = d := SortedSeq.find_key hfind
    have hinfo := SortedSeq.mem_of_find hfind
    rw [positionsAt_of_mem (hl.sublist h.1.sublist) (h.2 info hinfo hd), positionsAt_of_mem hl hinfo]

/-- A document of the phrase is in all of the lists. -/
theorem Aligned.exists_mem {N i : ℕ} (h : Aligned N i (ls.map (positionsAt d))) (hl : l ∈ ls) :
    ∃ info ∈ l, info.docId = d := by
  induction ls generalizing i with
  | nil => cases hl
  | cons l₀ ls ih =>
    rcases List.mem_cons.mp hl with rfl | hl
    · obtain ⟨⟨pos, hpos, -⟩, -⟩ := h
      exact positionsAt_ne_nil (List.ne_nil_of_mem hpos)
    · exact ih h.2 hl

theorem Hit.exists_mem (h : Hit ls d) (hl : l ∈ ls) : ∃ info ∈ l, info.docId = d := by
  obtain ⟨N, hN⟩ := h
  exact Aligned.exists_mem hN hl

/-- The lists of a phrase, after documents below `r` have been dropped. -/
abbrev AllKept (r : DocId) (ls' ls : List (List PositionInfo)) : Prop := List.Forall₂ (Kept r) ls' ls

theorem AllKept.map_positionsAt (hls : ∀ l ∈ ls, Listed l) (h : AllKept r ls' ls) (hd : r ≤ d) :
    ls'.map (PhraseAndIterator.positionsAt d) = ls.map (PhraseAndIterator.positionsAt d) := by
  induction h with
  | nil => rfl
  | @cons l' l ls' ls hl _ ih =>
    rw [List.map_cons, List.map_cons, Kept.positionsAt (hls l (List.mem_cons_self ..)) hl hd,
      ih fun l hl => hls l (List.mem_cons_of_mem _ hl)]

theorem AllKept.hit_iff (hls : ∀ l ∈ ls, Listed l) (h : AllKept r ls' ls) (hd : r ≤ d) : Hit ls' d ↔ Hit ls d := by
  rw [Hit, Hit, AllKept.map_positionsAt hls h hd]

theorem AllKept.listed (hls : ∀ l ∈ ls, Listed l) (h : AllKept r ls' ls) : ∀ l ∈ ls', Listed l := by
  induction h with
  | nil => exact fun l hl => absurd hl List.not_mem_nil
  | @cons l' l ls' ls hl _ ih =>
    intro l₀ hl₀
    rcases List.mem_cons.mp hl₀ with rfl | hl₀
    · exact (hls l (List.mem_cons_self ..)).sublist hl.1.sublist
    · exact ih (fun l hl => hls l (List.mem_cons_of_mem _ hl)) l₀ hl₀

theorem AllKept.nil_iff (h : AllKept r ls' ls) : ls' = [] ↔ ls = [] := by
  cases h <;> simp

theorem allAscending_map (hls : ∀ l ∈ ls, Listed l) (d : DocId) : AllAscending (ls.map (positionsAt d)) := by
  intro positions hmem
  obtain ⟨l, hl, rfl⟩ := List.mem_map.mp hmem
  exact positionsAt_ascending (hls l hl) d

theorem AllKept.exists_suffix (h : AllKept r ls' ls) (hl' : l' ∈ ls') : ∃ l ∈ ls, l' <:+ l := by
  induction h with
  | nil => cases hl'
  | @cons l₀' l₀ ls' ls hl _ ih =>
    rcases List.mem_cons.mp hl' with rfl | hl'
    · exact ⟨l₀, List.mem_cons_self .., hl.1⟩
    · obtain ⟨l, hl, hsuffix⟩ := ih hl'
      exact ⟨l, List.mem_cons_of_mem _ hl, hsuffix⟩

theorem AllKept.bounded {B : ℕ} (h : AllKept r ls' ls) (hB : ∀ l ∈ ls, ∀ info ∈ l, info.docId ≤ B) :
    ∀ l ∈ ls', ∀ info ∈ l, info.docId ≤ B := by
  intro l' hl' info hinfo
  obtain ⟨l, hl, hsuffix⟩ := h.exists_suffix hl'
  exact hB l hl info (hsuffix.subset hinfo)

theorem AllKept.trans {r' : ℕ} {ls'' : List (List PositionInfo)} (h : AllKept r ls' ls)
    (h' : AllKept r' ls'' ls') (hr : r ≤ r') : AllKept r' ls'' ls := by
  induction h generalizing ls'' with
  | nil => exact h'
  | cons hl _ ih =>
    cases h' with
    | cons hl' hrest => exact .cons (hl.trans hl' hr) (ih hrest)

theorem AllKept.mono {r' : ℕ} (h : AllKept r ls' ls) (hr : r ≤ r') : AllKept r' ls' ls :=
  List.Forall₂.imp (fun _ _ hl => hl.mono hr) h

theorem AllKept.refl (r : DocId) (ls : List (List PositionInfo)) : AllKept r ls ls := by
  induction ls with
  | nil => exact .nil
  | cons l ls ih => exact .cons ⟨List.suffix_refl l, fun _ hinfo _ => hinfo⟩ ih

/-! ## The rounds of `skipTo` -/

/-- The document is in all of the lists. -/
def InAll (ls : List (List PositionInfo)) (d : DocId) : Prop := ∀ l ∈ ls, ∃ info ∈ l, info.docId = d

/-- The outcome of a round that started at the bound `b`. -/
inductive Round (ls : List (List PositionInfo)) (b : ℕ) : List VectorPositionInfoIterator → ℕ → Prop
  /-- an iterator has reached its end, and no document from `b` on is in all lists -/
  | finished {its : List VectorPositionInfoIterator} (hnone : ∀ d : ℕ, b ≤ d → ¬ InAll ls d) : Round ls b its 0
  /-- the new bound is `r`, and no document that is in all lists was passed -/
  | bound {its : List VectorPositionInfoIterator} {ls' : List (List PositionInfo)} {r : ℕ} (hbr : b ≤ r)
    (hstands : List.Forall₂ Stands its ls') (hkept : AllKept r ls' ls) (hleast : ∀ d : ℕ, b ≤ d → InAll ls d → r ≤ d)
    (hmem : r = b ∨ ∃ l ∈ ls, ∃ info ∈ l, info.docId = r) (hheads : r = b → ∀ l' ∈ ls', headId l' = b) :
    Round ls b its r

theorem skipAll_round {its : List VectorPositionInfoIterator} (h : List.Forall₂ Ahead its ls)
    (hls : ∀ l ∈ ls, Listed l) {b : ℕ} (hb : 1 ≤ b) : ∃ its', ∃ r : ℕ,
      Returns (fun n => skipAll n its b) (its', r) ∧ Round ls b its' r := by
  induction h generalizing b with
  | nil =>
    exact ⟨[], b, Returns.pure _, .bound (le_refl b) .nil .nil (fun _ hd _ => hd) (Or.inl rfl) fun _ l' hl' =>
      absurd hl' List.not_mem_nil⟩
  | @cons it l its ls hit hits ih =>
    have hl := hls l (List.mem_cons_self ..)
    have hls' : ∀ l ∈ ls, Listed l := fun l hl => hls l (List.mem_cons_of_mem _ hl)
    obtain ⟨it', hreturns, hstands⟩ := hit.skipTo hl.ids hb
    have hdrop := kept_dropBelow hl b
    have hlisted := hl.sublist hdrop.1.sublist
    -- the document at which the list stands now
    obtain ⟨r₁, hr₁⟩ : ∃ r₁ : ℕ, r₁ = headId (dropBelow b l) := ⟨_, rfl⟩
    rw [← hr₁] at hreturns
    have hpassed : ∀ d : ℕ, b ≤ d → InAll (l :: ls) d → r₁ ≤ d ∧ r₁ ≠ 0 := by
      intro d hd hall
      obtain ⟨info, hinfo, rfl⟩ := hall l (List.mem_cons_self ..)
      have hleft := hdrop.2 info hinfo hd
      refine ⟨hr₁ ▸ headId_le hlisted hleft, fun hzero => ?_⟩
      rw [(headId_eq_zero hlisted).mp (hr₁.symm.trans hzero)] at hleft
      cases hleft
    rcases eq_or_ne r₁ 0 with rfl | hne
    · exact ⟨it' :: its, 0, hreturns.bind (Returns.pure _), .finished fun d hd hall => (hpassed d hd hall).2 rfl⟩
    · obtain ⟨info, hinfo, hid⟩ : ∃ info ∈ dropBelow b l, info.docId = r₁ := by
        rcases hlist : dropBelow b l with _ | ⟨info, rest⟩
        · rw [hlist] at hr₁
          exact absurd hr₁ hne
        · exact ⟨info, List.mem_cons_self .., by rw [hr₁, hlist]; rfl⟩
      have hbr₁ : b ≤ r₁ := hid ▸ ((SortedSeq.mem_dropWhile hl.ascending).mp hinfo).2
      obtain ⟨its', r, hreturns', hround⟩ := ih hls' (hb.trans hbr₁)
      refine ⟨it' :: its', r, hreturns.bind ?_, ?_⟩
      · simp only [if_neg hne, Option.map_eq_bind]
        exact hreturns'.bind (Returns.pure _)
      · have htail : ∀ d, InAll (l :: ls) d → InAll ls d := fun d hall l hl => hall l (List.mem_cons_of_mem _ hl)
        cases hround with
        | finished hnone =>
          exact .finished fun d hd hall => hnone d (hpassed d hd hall).1 (htail d hall)
        | bound hr hstands' hkept hleast hmem hheads =>
          refine .bound (hbr₁.trans hr) (.cons hstands hstands') (.cons (hdrop.mono (hbr₁.trans hr)) hkept)
            (fun d hd hall => hleast d (hpassed d hd hall).1 (htail d hall)) ?_ fun heq => ?_
          · rcases hmem with rfl | ⟨l', hl', hinfo'⟩
            · exact Or.inr ⟨l, List.mem_cons_self .., info, hdrop.1.subset hinfo, hid⟩
            · exact Or.inr ⟨l', List.mem_cons_of_mem _ hl', hinfo'⟩
          · have heq₁ : r₁ = b := le_antisymm (heq ▸ hr) hbr₁
            intro l' hl'
            rcases List.mem_cons.mp hl' with rfl | hl'
            · exact hr₁.symm.trans heq₁
            · exact (hheads (heq.trans heq₁.symm) l' hl').trans heq₁

/-- Iterators that stand at `d` show the positions in `d`. -/
theorem map_positions {its : List VectorPositionInfoIterator} (h : List.Forall₂ Stands its ls)
    (hls : ∀ l ∈ ls, Listed l) (hd : d ≠ 0) (hheads : ∀ l ∈ ls, headId l = d) :
    its.map VectorPositionInfoIterator.positions = ls.map (positionsAt d) := by
  induction h with
  | nil => rfl
  | @cons it l its ls hit _ ih =>
    rw [List.map_cons, List.map_cons, ih (fun l hl => hls l (List.mem_cons_of_mem _ hl)) fun l hl =>
      hheads l (List.mem_cons_of_mem _ hl)]
    have hhead := hheads l (List.mem_cons_self ..)
    rcases l with _ | ⟨info, rest⟩
    · exact absurd hhead.symm hd
    · obtain rfl : info.docId = d := hhead
      rw [VectorPositionInfoIterator.positions, hit.info,
        positionsAt_of_mem (hls _ (List.mem_cons_self ..)) (List.mem_cons_self ..)]
      rfl

/-- Where all iterators stand at a document, the check says whether it contains the phrase. -/
theorem checkIfPositionsMatch_iff_hit {its : List VectorPositionInfoIterator} (hstands : List.Forall₂ Stands its ls')
    (hkept : AllKept r ls' ls) (hls : ∀ l ∈ ls, Listed l) (hne : ls ≠ []) (hr : r ≠ 0)
    (hheads : ∀ l' ∈ ls', headId l' = r) :
    checkIfPositionsMatch (its.map VectorPositionInfoIterator.positions) = true ↔ Hit ls r := by
  have hls' := hkept.listed hls
  have hmatch := map_positions hstands hls' hr hheads
  rw [← hkept.hit_iff hls (le_refl r), Hit, ← hmatch, ← checkIfPositionsMatch_iff]
  · rw [hmatch]
    exact allAscending_map hls' r
  · rw [hmatch, ne_eq, List.map_eq_nil_iff]
    exact fun hnil => hne (hkept.nil_iff.mp hnil)

/-- When the first document of a list does not contain the phrase, one that does is behind it. -/
theorem exists_behind_first {info : PositionInfo} {t : List PositionInfo} (hls : ∀ l ∈ ls, Listed l)
    (hkept : AllKept info.docId ((info :: t) :: ls') ls) (hno : ¬ Hit ls info.docId) (hd : (info.docId : ℕ) ≤ d)
    (hhit : Hit ls d) : ∃ info' ∈ t, info'.docId = d := by
  obtain ⟨info', hinfo', rfl⟩ := ((hkept.hit_iff hls hd).mpr hhit).exists_mem (List.mem_cons_self ..)
  rcases List.mem_cons.mp hinfo' with rfl | hinfo'
  · exact absurd hhit hno
  · exact ⟨info', hinfo', rfl⟩

/-- A phrase iterator that has reached a document, and what is ahead of it. -/
structure At (ls : List (List PositionInfo)) (it : PhraseAndIterator) (r : ℕ) : Prop where
  /-- the document -/
  docId : it.docId = r
  /-- the iterators stand at the document, and nothing behind it has been dropped -/
  exists_kept : ∃ ls', List.Forall₂ Stands it.iterators ls' ∧ AllKept r ls' ls ∧ ∀ l' ∈ ls', headId l' = r

/-- The outcome of `skipTo` and `next`: the least document from `b` on that contains the phrase. -/
def Finds (ls : List (List PositionInfo)) (b : ℕ) (it : PhraseAndIterator) (r : ℕ) : Prop :=
  (r = 0 ∧ ∀ d : ℕ, b ≤ d → ¬ Hit ls d) ∨ (IsLeast {d | Hit ls d ∧ b ≤ d} r ∧ At ls it r)

theorem skipTo_unfold (n : ℕ) {it : PhraseAndIterator} (hne : it.iterators ≠ []) (id : DocId) :
    skipTo (n + 1) it id = (skipAll n it.iterators id).bind fun r =>
      if r.2 = 0 then some ({ iterators := r.1, docId := 0 }, 0)
      else if r.2 = id then
        if checkIfPositionsMatch (r.1.map VectorPositionInfoIterator.positions) then
          some ({ iterators := r.1, docId := r.2 }, r.2)
        else skipTo n { it with iterators := (nextFirst r.1).1 } (nextFirst r.1).2
      else skipTo n { it with iterators := r.1 } r.2 := by
  rw [skipTo, if_neg hne]

/-- When the first iterator has reached its end, there is nothing to be found. -/
theorem skipTo_finished {it : VectorPositionInfoIterator} {its : List VectorPositionInfoIterator}
    (h : Stands it []) (e : DocId) :
    Returns (fun n => skipTo n { iterators := it :: its, docId := e } 0)
      ({ iterators := it :: its, docId := 0 }, 0) := by
  have hskip : ∀ n, it.skipTo (n + 1) 0 = some (it, 0) := by
    intro n
    rw [VectorPositionInfoIterator.skipTo, h.docId]
    rfl
  refine Returns.succ (Returns.succ (Returns.succ ⟨0, fun n _ => ?_⟩))
  change skipTo (n + 2 + 1) _ 0 = _
  rw [skipTo_unfold _ (List.cons_ne_nil it its), skipAll, hskip]
  rfl

theorem Finds.of_kept {it : PhraseAndIterator} {r' : ℕ} (hls : ∀ l ∈ ls, Listed l) (hkept : AllKept r ls' ls)
    (hbr : b ≤ r) (hleast : ∀ d : ℕ, b ≤ d → Hit ls d → r ≤ d) (h : Finds ls' r it r') : Finds ls b it r' := by
  rcases h with ⟨rfl, hnone⟩ | ⟨⟨⟨hhit, hrr'⟩, hlow⟩, hdoc, ls'', hstands, hkept', hheads⟩
  · refine Or.inl ⟨rfl, fun d hd hhit => ?_⟩
    have hrd := hleast d hd hhit
    exact hnone d hrd ((hkept.hit_iff hls hrd).mpr hhit)
  · refine Or.inr ⟨⟨⟨(hkept.hit_iff hls hrr').mp hhit, hbr.trans hrr'⟩, fun d hd => ?_⟩, hdoc, ls'', hstands,
      hkept.trans hkept' hrr', hheads⟩
    have hrd := hleast d hd.2 hd.1
    exact hlow ⟨(hkept.hit_iff hls hrd).mpr hd.1, hrd⟩

/-- Behind the first document. -/
theorem kept_tail {info : PositionInfo} (h : Listed (info :: l)) : Kept (info.docId + 1) l (info :: l) := by
  refine ⟨List.suffix_cons info l, fun info' hinfo hle => ?_⟩
  rcases List.mem_cons.mp hinfo with rfl | hinfo
  · exact absurd hle (Nat.not_succ_le_self _)
  · exact hinfo

theorem ahead_of_stands {its : List VectorPositionInfoIterator} (h : List.Forall₂ Stands its ls) :
    List.Forall₂ Ahead its ls := List.Forall₂.imp (fun _ _ => Ahead.stands) h

/-- **`skipTo` finds the next document that contains the phrase**, by induction on the room that is left
for the bound `b`; `B` bounds the documents. -/
theorem skipTo_finds {its : List VectorPositionInfoIterator} (h : List.Forall₂ Ahead its ls)
    (hls : ∀ l ∈ ls, Listed l) (hne : ls ≠ []) {B : ℕ} (hB : ∀ l ∈ ls, ∀ info ∈ l, info.docId ≤ B)
    (hb : 1 ≤ b) (e : DocId) : ∃ it r,
      Returns (fun n => skipTo n { iterators := its, docId := e } b) (it, r) ∧ Finds ls b it r := by
  induction hk : B + 1 - b using Nat.strong_induction_on generalizing its ls b with
  | _ k ih =>
    have hits : its ≠ [] := by
      rintro rfl
      cases h
      exact hne rfl
    obtain ⟨its', r, hreturns, hround⟩ := skipAll_round h hls hb
    cases hround with
    | finished hnone =>
      refine ⟨{ iterators := its', docId := 0 }, 0, Returns.succ ?_, Or.inl ⟨rfl, fun d hd hhit =>
        hnone d hd fun l hl => hhit.exists_mem hl⟩⟩
      simp only [skipTo_unfold _ (show (PhraseAndIterator.mk its e).iterators ≠ [] from hits)]
      exact hreturns.bind (Returns.pure _)
    | @bound ls' r hbr hstands hkept hleast hmem hheads =>
      have hr : r ≠ 0 := by omega
      have hls' := hkept.listed hls
      have hB' := hkept.bounded hB
      rcases eq_or_ne r b with rfl | hrb
      · -- all iterators stand at the bound
        have hhit := checkIfPositionsMatch_iff_hit hstands hkept hls hne hr (hheads rfl)
        rcases hcheck : checkIfPositionsMatch (its'.map VectorPositionInfoIterator.positions) with _ | _
        · have hno : ¬ Hit ls r := fun hr => Bool.false_ne_true (hcheck.symm.trans (hhit.mpr hr))
          cases hstands with
          | nil => exact absurd (hkept.nil_iff.mp rfl) hne
          | @cons it₁ l₁ its'' ls'' hit₁ hits'' =>
            obtain ⟨it₁', hnext, hstands₁⟩ := hit₁.next
            -- the first list starts at `r`
            obtain ⟨info, t, rfl⟩ : ∃ info t, l₁ = info :: t := by
              rcases l₁ with _ | ⟨info, t⟩
              · exact absurd (hheads rfl [] (List.mem_cons_self ..)).symm hr
              · exact ⟨info, t, rfl⟩
            obtain rfl : info.docId = r := hheads rfl _ (List.mem_cons_self ..)
            have hl₁ := hls' _ (List.mem_cons_self ..)
            have ht : Listed t := hl₁.sublist (List.sublist_cons_self info t)
            rw [List.tail_cons] at hnext hstands₁
            rcases t with _ | ⟨info', t⟩
            · -- and it has no other document
              refine ⟨{ iterators := it₁' :: its'', docId := 0 }, 0, Returns.succ ?_, Or.inl ⟨rfl, fun d hd hhit => ?_⟩⟩
              · simp only [skipTo_unfold _ (show (PhraseAndIterator.mk its e).iterators ≠ [] from hits)]
                refine hreturns.bind ?_
                simp only [if_neg hr, if_true, hcheck, Bool.false_eq_true, if_false, nextFirst, hnext]
                exact skipTo_finished hstands₁ e
              · obtain ⟨_, hmem', -⟩ := exists_behind_first hls hkept hno hd hhit
                cases hmem'
            · have hlt : info.docId < info'.docId := hl₁.ascending.lt_of_mem_tail (List.mem_cons_self ..)
              have hinfo'B := hB' _ (List.mem_cons_self ..) info' (List.mem_cons_of_mem _ (List.mem_cons_self ..))
              have hkept' : AllKept (info.docId + 1) ((info' :: t) :: ls'') ((info :: info' :: t) :: ls'') :=
                .cons (kept_tail hl₁) (AllKept.refl _ ls'')
              obtain ⟨it, r', hreturns', hfinds⟩ := ih (B + 1 - info'.docId)
                (hk ▸ Nat.sub_lt_sub_left (Nat.lt_succ_of_le (hlt.le.trans hinfo'B)) hlt)
                (.cons (.stands hstands₁) (ahead_of_stands hits''))
                (hkept'.listed hls') (List.cons_ne_nil _ _) (hkept'.bounded hB') (hb.trans hlt.le) rfl
              refine ⟨it, r', Returns.succ ?_, hfinds.of_kept hls ((hkept.trans hkept' (Nat.le_succ _)).mono hlt)
                hlt.le fun d hd hhit => ?_⟩
              · simp only [skipTo_unfold _ (show (PhraseAndIterator.mk its e).iterators ≠ [] from hits)]
                refine hreturns.bind ?_
                simp only [if_neg hr, if_true, hcheck, Bool.false_eq_true, if_false, nextFirst, hnext]
                exact hreturns'
              · obtain ⟨i, hi, rfl⟩ := exists_behind_first hls hkept hno hd hhit
                exact headId_le ht hi
        · refine ⟨{ iterators := its', docId := r }, r, Returns.succ ?_, Or.inr ⟨⟨⟨?_, le_refl r⟩, fun d hd => hd.2⟩,
            rfl, ls', hstands, hkept, hheads rfl⟩⟩
          · simp only [skipTo_unfold _ (show (PhraseAndIterator.mk its e).iterators ≠ [] from hits)]
            refine hreturns.bind ?_
            simp only [if_neg hr, if_true, hcheck]
            exact Returns.pure _
          · exact hhit.mp hcheck
      · obtain ⟨l, hl, info, hinfo, rfl⟩ := hmem.resolve_left hrb
        have hrB := hB l hl info hinfo
        obtain ⟨it, r', hreturns', hfinds⟩ := ih (B + 1 - info.docId)
          (hk ▸ Nat.sub_lt_sub_left (Nat.lt_succ_of_le (hbr.trans hrB)) (lt_of_le_of_ne hbr (Ne.symm hrb)))
          (ahead_of_stands hstands) hls'
          (fun hnil => hne (hkept.nil_iff.mp hnil)) hB' (hb.trans hbr) rfl
        refine ⟨it, r', Returns.succ ?_, hfinds.of_kept hls hkept hbr fun d hd hhit =>
          hleast d hd fun l hl => hhit.exists_mem hl⟩
        simp only [skipTo_unfold _ (show (PhraseAndIterator.mk its e).iterators ≠ [] from hits)]
        refine hreturns.bind ?_
        simp only [if_neg hr, if_neg hrb]
        exact hreturns'

/-! ## Reading a phrase iterator -/

/-- `next`, when the first iterator moves on to the documents `t` after `b`. -/
theorem next_of_first {it₁ it₁' : VectorPositionInfoIterator} {its : List VectorPositionInfoIterator}
    {t : List PositionInfo} (hls : ∀ l ∈ ls, Listed l) (hnext : it₁.next = (it₁', headId t)) (ht : Stands it₁' t)
    (hits : List.Forall₂ Ahead its ls') (hkept : AllKept (b + 1) (t :: ls') ls)
    (hpast : ∀ info ∈ t, b + 1 ≤ info.docId) {B : ℕ}
    (hB : ∀ l ∈ ls, ∀ info ∈ l, info.docId ≤ B) (e : DocId) : ∃ it r,
      Returns (fun n => next n { iterators := it₁ :: its, docId := e }) (it, r) ∧ Finds ls (b + 1) it r := by
  have hls' := hkept.listed hls
  have hlisted : Listed t := hls' t (List.mem_cons_self ..)
  have hunfold : ∀ n, next n { iterators := it₁ :: its, docId := e } =
      skipTo n { iterators := it₁' :: its, docId := headId t } (headId t) := fun n => by
    rw [next, if_neg (List.cons_ne_nil it₁ its)]
    simp only [nextFirst, hnext]
  -- a document that contains the phrase is in `t`
  have hmem : ∀ d : ℕ, b + 1 ≤ d → Hit ls d → ∃ info ∈ t, info.docId = d := fun d hd hhit =>
    ((hkept.hit_iff hls hd).mpr hhit).exists_mem (List.mem_cons_self ..)
  simp only [hunfold]
  rcases t with _ | ⟨info, t⟩
  · refine ⟨_, 0, skipTo_finished ht _, Or.inl ⟨rfl, fun d hd hhit => ?_⟩⟩
    obtain ⟨_, hnil, -⟩ := hmem d hd hhit
    cases hnil
  · have hne : headId (info :: t) ≠ 0 := hlisted.ids info (List.mem_cons_self ..)
    obtain ⟨it, r, hreturns, hfinds⟩ := skipTo_finds (.cons (.stands ht) hits) hls' (List.cons_ne_nil _ _)
      (hkept.bounded hB) (Nat.one_le_iff_ne_zero.mpr hne) (headId (info :: t))
    refine ⟨it, r, hreturns, ?_⟩
    have hle : b + 1 ≤ headId (info :: t) := hpast info (List.mem_cons_self ..)
    exact hfinds.of_kept hls (hkept.mono hle) hle fun d hd hhit => by
      obtain ⟨i, hi, rfl⟩ := hmem d hd hhit
      exact headId_le hlisted hi

/-- An iterator that has not been read, or has reached the document `b`. -/
inductive Reading (ls : List (List PositionInfo)) : PhraseAndIterator → DocId → Prop
  /-- nothing has been read -/
  | start : Reading ls { iterators := ls.map fun l => { vector := l } } 0
  /-- a document has been reached -/
  | on {it : PhraseAndIterator} {b : ℕ} (hb : b ≠ 0) (h : At ls it b) : Reading ls it b

/-- **`next` finds the next document that contains the phrase.** -/
theorem next_finds (hls : ∀ l ∈ ls, Listed l) (hne : ls ≠ []) {B : ℕ} (hB : ∀ l ∈ ls, ∀ info ∈ l, info.docId ≤ B)
    {it : PhraseAndIterator} (h : Reading ls it b) :
    ∃ it' r, Returns (fun n => next n it) (it', r) ∧ Finds ls (b + 1) it' r := by
  cases h with
  | start =>
    obtain ⟨l, others, rfl⟩ := List.exists_cons_of_ne_nil hne
    obtain ⟨it₁', hnext, hstands⟩ := next_start l
    refine next_of_first hls hnext hstands ?_ (AllKept.refl 1 (l :: others)) ?_ hB 0
    · rw [List.forall₂_map_left_iff]
      exact List.forall₂_same.mpr fun l _ => .start l
    · exact fun info hinfo => Nat.pos_of_ne_zero ((hls l List.mem_cons_self).ids info hinfo)
  | on hb h =>
    obtain ⟨hdoc, ls', hstands, hkept, hheads⟩ := h
    obtain ⟨its, e⟩ := it
    cases hstands with
    | nil => exact absurd (hkept.nil_iff.mp rfl) hne
    | @cons it₁ l₁ its ls'' hit₁ hits =>
      obtain ⟨it₁', hnext, hstands₁⟩ := hit₁.next
      -- the first iterator stands at `b` and moves on
      obtain ⟨info, t, rfl⟩ : ∃ info t, l₁ = info :: t := by
        cases l₁ with
        | nil => exact absurd (hheads [] List.mem_cons_self).symm hb
        | cons info t => exact ⟨info, t, rfl⟩
      obtain rfl : info.docId = b := hheads _ List.mem_cons_self
      have hl₁ := hkept.listed hls _ List.mem_cons_self
      have hkept' : AllKept (info.docId + 1) (t :: ls'') ((info :: t) :: ls'') :=
        .cons (kept_tail hl₁) (AllKept.refl _ ls'')
      exact next_of_first hls hnext hstands₁ (ahead_of_stands hits) (hkept.trans hkept' (Nat.le_succ _))
        (fun i hi => hl₁.ascending.lt_of_mem_tail hi) hB e

/-- **A phrase iterator shows the documents that contain the phrase**, one after another. -/
theorem reads (hls : ∀ l ∈ ls, Listed l) (hne : ls ≠ []) {B : ℕ} (hB : ∀ l ∈ ls, ∀ info ∈ l, info.docId ≤ B) :
    Cursor.Reads methods {d | Hit ls d} (Reading ls) where
  next := by
    intro it b h
    obtain ⟨it', r, hreturns, ⟨rfl, hnone⟩ | ⟨⟨⟨hhit, hlt⟩, hlow⟩, hat⟩⟩ := next_finds hls hne hB h
    · exact ⟨it', 0, hreturns, .inl ⟨rfl, fun d hd => not_lt.mp fun hlt => hnone d hlt hd⟩⟩
    · exact ⟨it', r, hreturns, .inr ⟨⟨⟨hhit, hlt⟩, hlow⟩, hat.docId, .on (Nat.ne_zero_of_lt hlt) hat⟩⟩

end PhraseAndIterator

end Baloo
