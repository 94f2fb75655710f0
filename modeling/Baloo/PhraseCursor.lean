import Baloo.PhraseIterator

/-!
# The phrase iterator as a cursor

`PhraseAndIterator` is a cursor over the documents that contain the phrase: whatever calls of `next`
and `skipTo` are made, each returns what a posting iterator over these documents would return, and
once `0` has been returned behind the last of them it is returned for ever (`phrase_enumerates`).

What has to be added to the search for one document is the end. An iterator that finds nothing more
leaves one of the lists without documents ahead (`Ended`), and then no call can find anything.
-/

namespace Baloo

open Fuel (Returns)
open SortedSeq (Ascending)

namespace VectorPositionInfoIterator

variable {it it' : VectorPositionInfoIterator} {l : List PositionInfo} {b d : DocId}

theorem Ahead.next (h : Ahead it l) : ∃ it' l', it.next = (it', headId l') ∧ Stands it' l' ∧ l' <:+ l := by
  cases h with
  | start l =>
    obtain ⟨it', hnext, hstands⟩ := next_start l
    exact ⟨it', l, hnext, hstands, List.suffix_refl l⟩
  | stands h =>
    obtain ⟨it', hnext, hstands⟩ := h.next
    exact ⟨it', l.tail, hnext, hstands, List.tail_suffix l⟩

/-- Wherever it stands, an iterator shows `0` or the first of the documents ahead. -/
theorem Ahead.docId (h : Ahead it l) : it.docId = 0 ∨ it.docId = headId l ∧ Stands it l := by
  cases h with
  | start l => exact .inl rfl
  | stands h => exact .inr ⟨h.docId, h⟩

/-- What the loop of the base class leaves, when it returns. -/
theorem skipTo_some (h : Ahead it l) (hids : ∀ info ∈ l, info.docId ≠ 0) (hb : 1 ≤ b) {n : ℕ}
    (hsome : skipTo n it b = some (it', d)) : ∃ l', Stands it' l' ∧ l' <:+ l ∧ d = headId l' := by
  induction n generalizing it l with
  | zero => cases hsome
  | succ n ih =>
    rw [VectorPositionInfoIterator.skipTo] at hsome
    by_cases hlt : it.docId < b
    · obtain ⟨it₁, l₁, hnext, hstands, hsuffix⟩ := h.next
      rw [if_pos hlt, hnext] at hsome
      by_cases hzero : headId l₁ = 0
      · simp only [if_pos hzero] at hsome
        obtain ⟨rfl, rfl⟩ : it₁ = it' ∧ 0 = d := by simpa using hsome
        exact ⟨l₁, hstands, hsuffix, hzero.symm⟩
      · simp only [if_neg hzero] at hsome
        obtain ⟨l', hstands', hsuffix', hd⟩ := ih (.stands hstands) (fun i hi => hids i (hsuffix.subset hi)) hsome
        exact ⟨l', hstands', hsuffix'.trans hsuffix, hd⟩
    · rw [if_neg hlt] at hsome
      obtain ⟨rfl, rfl⟩ : it = it' ∧ it.docId = d := by simpa using hsome
      rcases h.docId with hzero | ⟨hdoc, hstands⟩
      · exact absurd (hzero ▸ hb : it.docId < b) hlt
      · exact ⟨l, hstands, List.suffix_refl l, hdoc⟩

end VectorPositionInfoIterator

namespace PhraseAndIterator

open VectorPositionInfoIterator (Stands Ahead headId dropBelow)

variable {ls ls' : List (List PositionInfo)} {its its' : List VectorPositionInfoIterator} {b d r : ℕ}

/-! ## Behind the last document -/

/-- The iterators with what is ahead of them; the documents ascend. -/
structure Left (its : List VectorPositionInfoIterator) (ls : List (List PositionInfo)) : Prop where
  /-- iterator by iterator -/
  ahead : List.Forall₂ Ahead its ls
  /-- the documents and positions ascend -/
  listed : ∀ l ∈ ls, Listed l

/-- One of the iterators has nothing ahead. -/
def Ended (its : List VectorPositionInfoIterator) : Prop := ∃ ls, Left its ls ∧ [] ∈ ls

theorem Left.cons {it : VectorPositionInfoIterator} {l : List PositionInfo} (hit : Ahead it l) (hl : Listed l)
    (h : Left its ls) : Left (it :: its) (l :: ls) :=
  ⟨.cons hit h.ahead, List.forall_mem_cons.mpr ⟨hl, h.listed⟩⟩

/-- `skipAll` keeps the end, and it sees it. -/
theorem skipAll_ended (h : Left its ls) (hend : [] ∈ ls) (b : ℕ) :
    ∃ its', Returns (fun n => skipAll n its b) (its', 0) ∧ Ended its' := by
  obtain ⟨hahead, hlisted⟩ := h
  induction hahead generalizing b with
  | nil => cases hend
  | @cons it l its ls hit hits ih =>
    have hl := hlisted l List.mem_cons_self
    have hls : ∀ l ∈ ls, Listed l := fun l hl => hlisted l (List.mem_cons_of_mem _ hl)
    -- the first iterator
    obtain ⟨it', l', d, hreturns, hit', hsuffix, hd⟩ : ∃ it' l' d, Returns (fun n => it.skipTo n b) (it', d) ∧
        Ahead it' l' ∧ l' <:+ l ∧ (d = 0 ∨ d = headId l') := by
      rcases Nat.eq_zero_or_pos b with rfl | hb
      · refine ⟨it, l, it.docId, Returns.succ ?_, hit, List.suffix_refl l, hit.docId.imp_right And.left⟩
        simp only [VectorPositionInfoIterator.skipTo, Nat.not_lt_zero, if_false]
        exact Returns.pure _
      · obtain ⟨it', hreturns, hstands⟩ := hit.skipTo hl.ids hb
        exact ⟨it', _, _, hreturns, .stands hstands, (kept_dropBelow hl b).1, .inr rfl⟩
    have hl' : Listed l' := hl.sublist hsuffix.sublist
    by_cases hzero : d = 0
    · refine ⟨it' :: its, ?_, l' :: ls, (Left.mk hits hls).cons hit' hl', ?_⟩
      · subst hzero
        exact hreturns.bind (Returns.pure _)
      · rcases List.mem_cons.mp hend with rfl | hend
        · rw [List.eq_nil_of_suffix_nil hsuffix]
          exact List.mem_cons_self
        · exact List.mem_cons_of_mem _ hend
    · have hne : l' ≠ [] := by
        rintro rfl
        exact hzero (hd.elim id id)
      have hrest : [] ∈ ls := by
        rcases List.mem_cons.mp hend with rfl | hend
        · exact absurd (List.eq_nil_of_suffix_nil hsuffix) hne
        · exact hend
      obtain ⟨its', hreturns', ls', hleft, hend'⟩ := ih hrest d hls
      refine ⟨it' :: its', hreturns.bind ?_, l' :: ls', hleft.cons hit' hl', List.mem_cons_of_mem _ hend'⟩
      simp only [if_neg hzero, Option.map_eq_bind]
      exact hreturns'.bind (Returns.pure _)

/-- When `skipAll` returns `0`, one of the iterators has reached its end. -/
theorem skipAll_some (h : Left its ls) (hb : 1 ≤ b) {n : ℕ} (hsome : skipAll n its b = some (its', r)) :
    ∃ ls', Left its' ls' ∧ ls'.length = ls.length ∧ (r = 0 → [] ∈ ls') := by
  obtain ⟨hahead, hlisted⟩ := h
  induction hahead generalizing b its' with
  | nil =>
    obtain ⟨rfl, rfl⟩ : [] = its' ∧ b = r := by simpa [skipAll] using hsome
    exact ⟨[], ⟨.nil, hlisted⟩, rfl, fun hzero => absurd hzero (Nat.ne_zero_of_lt hb)⟩
  | @cons it l its ls hit hits ih =>
    have hl := hlisted l List.mem_cons_self
    have hls : ∀ l ∈ ls, Listed l := fun l hl => hlisted l (List.mem_cons_of_mem _ hl)
    rw [skipAll, Option.bind_eq_some_iff] at hsome
    obtain ⟨⟨it', d⟩, hskip, hsome⟩ := hsome
    obtain ⟨l', hstands, hsuffix, rfl⟩ := VectorPositionInfoIterator.skipTo_some hit hl.ids hb hskip
    have hl' : Listed l' := hl.sublist hsuffix.sublist
    by_cases hzero : headId l' = 0
    · rw [if_pos hzero] at hsome
      obtain ⟨rfl, rfl⟩ : it' :: its = its' ∧ 0 = r := by simpa using hsome
      refine ⟨l' :: ls, (Left.mk hits hls).cons (.stands hstands) hl', rfl, fun _ => ?_⟩
      rw [(headId_eq_zero hl').mp hzero]
      exact List.mem_cons_self
    · rw [if_neg hzero, Option.map_eq_some_iff] at hsome
      obtain ⟨⟨its'', r'⟩, hrest, heq⟩ := hsome
      obtain ⟨rfl, rfl⟩ : it' :: its'' = its' ∧ r' = r := by simpa using heq
      obtain ⟨ls', hleft, hlen, hend⟩ := ih (Nat.one_le_iff_ne_zero.mpr hzero) hrest hls
      exact ⟨l' :: ls', hleft.cons (.stands hstands) hl', congrArg (· + 1) hlen, fun hr =>
        List.mem_cons_of_mem _ (hend hr)⟩

/-- The first iterator shows `0` when it has nothing ahead, and the bound `0` moves none. -/
theorem skipAll_first_ended (h : Left its ([] :: ls)) {n : ℕ} (hsome : skipAll n its 0 = some (its', r)) :
    its' = its ∧ r = 0 := by
  obtain ⟨hahead, -⟩ := h
  cases hahead with
  | @cons it l its ls hit hits =>
    have hdoc : it.docId = 0 := hit.docId.elim id And.left
    cases n with
    | zero => cases hsome
    | succ n =>
      rw [skipAll, VectorPositionInfoIterator.skipTo, if_neg (Nat.not_lt_zero _), hdoc] at hsome
      simpa [eq_comm] using hsome

/-- The first iterator moves on. -/
theorem nextFirst_left (h : Left its ls) (hne : ls ≠ []) : ∃ l ls', nextFirst its = ((nextFirst its).1, headId l) ∧
    Left (nextFirst its).1 (l :: ls') ∧ ∀ l₀ ∈ ls, l₀ = [] → [] ∈ l :: ls' := by
  obtain ⟨hahead, hlisted⟩ := h
  cases hahead with
  | nil => exact absurd rfl hne
  | @cons it l its ls hit hits =>
    obtain ⟨it', l', hnext, hstands, hsuffix⟩ := hit.next
    have hl := hlisted l List.mem_cons_self
    have hls : ∀ l ∈ ls, Listed l := fun l hl => hlisted l (List.mem_cons_of_mem _ hl)
    refine ⟨l', ls, by rw [nextFirst, hnext], ?_, ?_⟩
    · rw [nextFirst, hnext]
      exact (Left.mk hits hls).cons (.stands hstands) (hl.sublist hsuffix.sublist)
    · rintro l₀ hl₀ rfl
      rcases List.mem_cons.mp hl₀ with rfl | hl₀
      · rw [List.eq_nil_of_suffix_nil hsuffix]
        exact List.mem_cons_self
      · exact List.mem_cons_of_mem _ hl₀

/-- When `skipTo` returns `0`, one of the iterators has reached its end; the bound is `0` only if this is
the first one. -/
theorem skipTo_zero {it : PhraseAndIterator} {l : List PositionInfo} (h : Left its (l :: ls)) (hb : b = 0 → l = [])
    {n : ℕ} {e : DocId} (hsome : skipTo n { iterators := its, docId := e } b = some (it, 0)) :
    it.docId = 0 ∧ Ended it.iterators := by
  induction n generalizing its ls l b with
  | zero => cases hsome
  | succ n ih =>
    have hits : its ≠ [] := by
      rintro rfl
      cases h.ahead
    rw [skipTo_unfold n hits, Option.bind_eq_some_iff] at hsome
    obtain ⟨⟨its', r⟩, hskip, hsome⟩ := hsome
    obtain ⟨l', ls', hleft, hend⟩ : ∃ l' ls', Left its' (l' :: ls') ∧ (r = 0 → [] ∈ l' :: ls') := by
      rcases Nat.eq_zero_or_pos b with rfl | hpos
      · -- the first iterator has no document left and shows `0`
        obtain rfl := hb rfl
        have hzero := skipAll_first_ended h hskip
        exact ⟨[], ls, by rw [hzero.1]; exact h, fun _ => List.mem_cons_self⟩
      · obtain ⟨ls', hleft, hlen, hend⟩ := skipAll_some h hpos hskip
        obtain ⟨l', ls', rfl⟩ := List.exists_cons_of_length_eq_add_one hlen
        exact ⟨l', ls', hleft, hend⟩
    dsimp only at hsome
    by_cases hr : r = 0
    · rw [if_pos hr] at hsome
      obtain rfl : { iterators := its', docId := 0 } = it := by simpa using hsome
      exact ⟨rfl, l' :: ls', hleft, hend hr⟩
    rw [if_neg hr] at hsome
    by_cases hrb : r = b
    · rw [if_pos hrb] at hsome
      by_cases hmatch : checkIfPositionsMatch (its'.map VectorPositionInfoIterator.positions) = true
      · rw [if_pos hmatch] at hsome
        exact absurd (by simpa using congrArg (Option.map Prod.snd) hsome) hr
      · rw [if_neg hmatch] at hsome
        obtain ⟨l'', ls'', hnext, hleft', -⟩ := nextFirst_left hleft (List.cons_ne_nil l' ls')
        refine ih hleft' (fun hzero => ?_) hsome
        rw [hnext] at hzero
        exact (headId_eq_zero (hleft'.listed l'' List.mem_cons_self)).mp hzero
    · rw [if_neg hrb] at hsome
      exact ih hleft (fun hzero => absurd hzero hr) hsome

/-- **Behind the end** every call returns `0`. -/
theorem skipTo_ended {it : PhraseAndIterator} (h : Ended it.iterators) (id : DocId) :
    ∃ it', Returns (fun n => skipTo n it id) (it', 0) ∧ it'.docId = 0 ∧ Ended it'.iterators := by
  obtain ⟨ls, hleft, hend⟩ := h
  have hne : it.iterators ≠ [] := by
    intro hnil
    rw [hnil] at hleft
    cases hleft.ahead
    cases hend
  obtain ⟨its', hreturns, hended⟩ := skipAll_ended hleft hend id
  refine ⟨{ iterators := its', docId := 0 }, Returns.succ ?_, rfl, hended⟩
  simp only [skipTo_unfold _ hne]
  exact hreturns.bind (Returns.pure _)

theorem next_ended {it : PhraseAndIterator} (h : Ended it.iterators) :
    ∃ it', Returns (fun n => next n it) (it', 0) ∧ it'.docId = 0 ∧ Ended it'.iterators := by
  obtain ⟨ls, hleft, hend⟩ := h
  have hne : it.iterators ≠ [] := by
    intro hnil
    rw [hnil] at hleft
    cases hleft.ahead
    cases hend
  obtain ⟨l, ls', -, hleft', hend'⟩ := nextFirst_left hleft (List.ne_nil_of_mem hend)
  have hunfold : ∀ n, next n it = skipTo n
      { iterators := (nextFirst it.iterators).1, docId := (nextFirst it.iterators).2 }
      (nextFirst it.iterators).2 := fun n => by
    rw [next, if_neg hne]
  simp only [hunfold]
  exact skipTo_ended ⟨l :: ls', hleft', hend' [] hend rfl⟩ _

/-! ## At a document -/

/-- Iterators that stand at a document are not moved to a bound up to it. -/
theorem skipAll_at {n : ℕ} (h : List.Forall₂ Stands its ls) (hheads : ∀ l ∈ ls, headId l = d) (hd : d ≠ 0)
    (hb : b ≤ d) (hne : its ≠ []) : skipAll (n + 1) its b = some (its, d) := by
  have hskip : ∀ {it l}, Stands it l → headId l = d → ∀ b ≤ d, it.skipTo (n + 1) b = some (it, d) := by
    rintro it l hit rfl b hb
    rw [VectorPositionInfoIterator.skipTo, hit.docId, if_neg (not_lt.mpr hb)]
  induction h generalizing b with
  | nil => exact absurd rfl hne
  | @cons it l its ls hit hits ih =>
    have hls : ∀ l ∈ ls, headId l = d := fun l hl => hheads l (List.mem_cons_of_mem _ hl)
    rw [skipAll, hskip hit (hheads l List.mem_cons_self) b hb, Option.bind_some, if_neg hd]
    rcases eq_or_ne its [] with rfl | hits'
    · rfl
    · rw [ih hls (le_refl d) hits', Option.map_some]

/-- An iterator that has reached a document stays there. -/
theorem skipTo_at (hls : ∀ l ∈ ls, Listed l) (hne : ls ≠ []) {it : PhraseAndIterator} (h : At ls it d) (hhit : Hit ls d)
    (hd : d ≠ 0) {id : DocId} (hid : id ≤ d) : Returns (fun n => skipTo n it id) (it, d) := by
  obtain ⟨its, e⟩ := it
  obtain ⟨rfl, ls', hstands, hkept, hheads⟩ := h
  have hits : its ≠ [] := by
    rintro rfl
    cases hstands
    exact hne (hkept.nil_iff.mp rfl)
  have hmatch : checkIfPositionsMatch (its.map VectorPositionInfoIterator.positions) = true := by
    have hls' := hkept.listed hls
    rw [map_positions hstands hls' hd hheads, checkIfPositionsMatch_iff]
    · exact (hkept.hit_iff hls (le_refl _)).mpr hhit
    · exact allAscending_map hls' _
    · rw [ne_eq, List.map_eq_nil_iff]
      exact fun hnil => hne (hkept.nil_iff.mp hnil)
  -- at the latest the second round finds the bound at the document
  have hround : ∀ n,
      skipTo (n + 2) { iterators := its, docId := e } e = some ({ iterators := its, docId := e }, e) := by
    intro n
    rw [skipTo_unfold _ hits, skipAll_at hstands hheads hd (le_refl _) hits, Option.bind_some]
    simp only [if_neg hd, if_true, hmatch]
  refine ⟨3, fun n hn => ?_⟩
  obtain ⟨n, rfl⟩ : ∃ k, n = k + 3 := ⟨n - 3, by omega⟩
  change skipTo (n + 2 + 1) _ id = _
  rcases eq_or_ne id e with rfl | hide
  · exact hround (n + 1)
  · rw [skipTo_unfold _ hits, skipAll_at hstands hheads hd hid hits, Option.bind_some]
    simp only [if_neg hd, if_neg (Ne.symm hide)]
    exact hround n

/-! ## All calls -/

/-- The iterator before the first call. -/
abbrev ofLists (ls : List (List PositionInfo)) : PhraseAndIterator :=
  { iterators := ls.map fun l => { vector := l } }

theorem make_some (ls : List (List PositionInfo)) : make (ls.map fun l => some { vector := l }) = ofLists ls := by
  have hany : (ls.map fun l => some ({ vector := l } : VectorPositionInfoIterator)).any Option.isNone = false := by
    simp
  rw [make, hany]
  simp [List.filterMap_map, Function.comp_def]

/-- Where an iterator over the documents of the phrase stands. -/
def StandsAt (ls : List (List PositionInfo)) (it : PhraseAndIterator) : Cursor.Position → Prop
  | .start => it = ofLists ls
  | .on d => d ≠ 0 ∧ Hit ls d ∧ At ls it d
  | .exhausted => it.docId = 0 ∧ Ended it.iterators

theorem left_ofLists (hls : ∀ l ∈ ls, Listed l) : Left (ofLists ls).iterators ls := by
  refine ⟨?_, hls⟩
  rw [List.forall₂_map_left_iff]
  exact List.forall₂_same.mpr fun l _ => .start l

/-- What a call that looks for a document has found. -/
theorem exists_standsAt {f : ℕ → Option (PhraseAndIterator × DocId)} {it : PhraseAndIterator} (hb : 1 ≤ b)
    (hreturns : Returns f (it, r)) (hfinds : Finds ls b it r)
    (hzero : ∀ n it, f n = some (it, 0) → it.docId = 0 ∧ Ended it.iterators) :
    ∃ p, Cursor.Position.Lands {d | Hit ls d} b p ∧ Returns f (it, p.doc) ∧ StandsAt ls it p := by
  rcases hfinds with ⟨rfl, hnone⟩ | ⟨hleast, hat⟩
  · obtain ⟨n, hn⟩ := hreturns
    exact ⟨.exhausted, fun d hd => not_le.mp fun hle => hnone d hle hd, ⟨n, hn⟩, hzero n it (hn n (le_refl n))⟩
  · exact ⟨.on r, hleast, hreturns, Nat.ne_zero_of_lt (hb.trans hleast.1.2), hleast.1.1, hat⟩

theorem next_zero {it it' : PhraseAndIterator} (h : Left it.iterators ls) (hne : ls ≠ []) {n : ℕ}
    (hsome : next n it = some (it', 0)) : it'.docId = 0 ∧ Ended it'.iterators := by
  have hits : it.iterators ≠ [] := by
    intro hnil
    rw [hnil] at h
    cases h.ahead
    exact hne rfl
  obtain ⟨l, ls', hnext, hleft, -⟩ := nextFirst_left h hne
  rw [next, if_neg hits, hnext] at hsome
  exact skipTo_zero hleft (fun hzero => (headId_eq_zero (hleft.listed l List.mem_cons_self)).mp hzero) hsome

theorem At.left (hls : ∀ l ∈ ls, Listed l) {it : PhraseAndIterator} (h : At ls it d) : ∃ ls',
    Left it.iterators ls' ∧ AllKept d ls' ls := by
  obtain ⟨-, ls', hstands, hkept, -⟩ := h
  exact ⟨ls', ⟨ahead_of_stands hstands, hkept.listed hls⟩, hkept⟩

theorem exists_bound (ls : List (List PositionInfo)) : ∃ B : ℕ, ∀ l ∈ ls, ∀ info ∈ l, info.docId ≤ B :=
  ⟨(ls.flatten.map PositionInfo.docId).max?.getD 0, fun l hl info hinfo =>
    List.le_max?_getD_of_mem (List.mem_map_of_mem (List.mem_flatten.mpr ⟨l, hl, hinfo⟩))⟩

/-- Before the first call the bound `0` moves nothing. -/
theorem skipTo_start (hne : ls ≠ []) : Returns (fun n => skipTo n (ofLists ls) 0) (ofLists ls, 0) := by
  obtain ⟨l, others, rfl⟩ := List.exists_cons_of_ne_nil hne
  refine ⟨2, fun n hn => ?_⟩
  obtain ⟨n, rfl⟩ : ∃ k, n = k + 2 := ⟨n - 2, by omega⟩
  change skipTo (n + 1 + 1) _ 0 = _
  have hfirst : ({ vector := l } : VectorPositionInfoIterator).skipTo (n + 1) 0 = some ({ vector := l }, 0) := by
    rw [VectorPositionInfoIterator.skipTo, if_neg (Nat.not_lt_zero _)]
    rfl
  have hall : skipAll (n + 1) (ofLists (l :: others)).iterators 0 = some ((ofLists (l :: others)).iterators, 0) := by
    rw [ofLists, List.map_cons, skipAll, hfirst]
    rfl
  rw [skipTo_unfold _ (by simp), hall]
  rfl

/-- `skipTo` beyond what is shown. -/
theorem skipTo_lands (hls : ∀ l ∈ ls, Listed l) (hne : ls ≠ []) {its : List VectorPositionInfoIterator} {e id : DocId}
    (hleft : Left its ls') (hkept : AllKept id ls' ls) (hid : 1 ≤ id) :
    ∃ it p, Cursor.Position.Lands {d | Hit ls d} id p ∧
      Returns (fun n => skipTo n { iterators := its, docId := e } id) (it, p.doc) ∧ StandsAt ls it p := by
  obtain ⟨B, hB⟩ := exists_bound ls'
  have hne' : ls' ≠ [] := fun hnil => hne (hkept.nil_iff.mp hnil)
  obtain ⟨it, r, hreturns, hfinds⟩ := skipTo_finds hleft.ahead hleft.listed hne' hB hid e
  have hfinds' : Finds ls id it r := hfinds.of_kept hls hkept (le_refl id) fun d hd _ => hd
  obtain ⟨l, ls', rfl⟩ := List.exists_cons_of_ne_nil hne'
  exact ⟨it, exists_standsAt hid hreturns hfinds' fun n it hsome =>
    skipTo_zero hleft (fun hzero => absurd hzero (Nat.ne_zero_of_lt hid)) hsome⟩

/-- **A phrase iterator is a cursor** over the documents that contain the phrase. -/
theorem simulation (hls : ∀ l ∈ ls, Listed l) (hne : ls ≠ []) :
    Cursor.Simulation methods fun it S p => S = {d | Hit ls d} ∧ StandsAt ls it p where
  docId := by
    rintro it S p ⟨-, h⟩
    cases p with
    | start =>
      obtain rfl : it = ofLists ls := h
      rfl
    | on d => exact h.2.2.docId
    | exhausted => exact h.1
  valid := by
    rintro it S d ⟨rfl, hd, hhit, -⟩
    exact ⟨hhit, Nat.one_le_iff_ne_zero.mpr hd⟩
  next := by
    rintro it S p ⟨rfl, h⟩
    obtain ⟨B, hB⟩ := exists_bound ls
    cases p with
    | start =>
      obtain rfl : it = ofLists ls := h
      obtain ⟨it', r, hreturns, hfinds⟩ := next_finds hls hne hB .start
      obtain ⟨p, hlands, hreturns', hstands⟩ := exists_standsAt (le_refl 1) hreturns hfinds fun n it hsome =>
        next_zero (left_ofLists hls) hne hsome
      exact ⟨it', p, hlands, hreturns', rfl, hstands⟩
    | on d =>
      obtain ⟨hd, -, hat⟩ := h
      obtain ⟨it', r, hreturns, hfinds⟩ := next_finds hls hne hB (.on hd hat)
      obtain ⟨ls', hleft, hkept⟩ := hat.left hls
      obtain ⟨p, hlands, hreturns', hstands⟩ := exists_standsAt (Nat.le_add_left 1 d) hreturns hfinds fun n it hsome =>
        next_zero hleft (fun hnil => hne (hkept.nil_iff.mp hnil)) hsome
      exact ⟨it', p, hlands, hreturns', rfl, hstands⟩
    | exhausted =>
      obtain ⟨it', hreturns, hended⟩ := next_ended h.2
      exact ⟨it', .exhausted, rfl, hreturns, rfl, hended⟩
  skipTo := by
    rintro it S p id ⟨rfl, h⟩
    cases p with
    | start =>
      obtain rfl : it = ofLists ls := h
      rcases Nat.eq_zero_or_pos id with rfl | hid
      · exact ⟨ofLists ls, .start, Cursor.Position.skipTo_self (le_refl 0), skipTo_start hne, rfl, rfl⟩
      · obtain ⟨it, p, hlands, hreturns, hstands⟩ := skipTo_lands hls hne (left_ofLists hls) (AllKept.refl id ls) hid
        exact ⟨it, p, by rwa [Cursor.Position.SkipTo, if_neg (Nat.ne_zero_of_lt hid)], hreturns, rfl, hstands⟩
    | on d =>
      obtain ⟨hd, hhit, hat⟩ := h
      by_cases hid : id ≤ d
      · exact ⟨it, .on d, Cursor.Position.skipTo_self hid, skipTo_at hls hne hat hhit hd hid, rfl, hd, hhit, hat⟩
      · obtain ⟨ls', hleft, hkept⟩ := hat.left hls
        obtain ⟨it, p, hlands, hreturns, hstands⟩ := skipTo_lands hls hne hleft (hkept.mono (not_le.mp hid).le)
          (Nat.one_le_of_lt (not_le.mp hid))
        exact ⟨it, p, by rwa [Cursor.Position.SkipTo, if_neg hid], hreturns, rfl, hstands⟩
    | exhausted =>
      obtain ⟨it', hreturns, hended⟩ := skipTo_ended h.2 id
      exact ⟨it', .exhausted, rfl, hreturns, rfl, hended⟩

/-- An iterator without lists shows nothing. -/
theorem simulation_nil : Cursor.Simulation methods fun it S p =>
    S = ∅ ∧ (∀ d, p ≠ .on d) ∧ it = { iterators := [], docId := 0 } where
  docId := by
    rintro it S p ⟨-, hp, rfl⟩
    cases p with
    | start => rfl
    | on d => exact absurd rfl (hp d)
    | exhausted => rfl
  valid := by
    rintro it S d ⟨-, hd, -⟩
    exact absurd rfl (hd d)
  next := by
    rintro it S p ⟨rfl, hp, rfl⟩
    refine ⟨_, .exhausted, ?_, ⟨0, fun n _ => rfl⟩, rfl, by simp, rfl⟩
    cases p with
    | start => exact fun d hd => hd.elim
    | on d => exact absurd rfl (hp d)
    | exhausted => rfl
  skipTo := by
    rintro it S p id ⟨rfl, hp, rfl⟩
    have hreturns : Returns (fun n => skipTo n { iterators := [], docId := 0 } id)
        (({ iterators := [], docId := 0 } : PhraseAndIterator), 0) := Returns.succ (Returns.pure _)
    by_cases hid : id ≤ p.doc
    · refine ⟨_, p, Cursor.Position.skipTo_self hid, ?_, rfl, hp, rfl⟩
      cases p with
      | on d => exact absurd rfl (hp d)
      | start => exact hreturns
      | exhausted => exact hreturns
    · refine ⟨_, .exhausted, ?_, hreturns, rfl, by simp, rfl⟩
      cases p with
      | on d => exact absurd rfl (hp d)
      | start =>
        rw [Cursor.Position.skipTo_iff (by simp) (not_le.mp hid)]
        exact fun d hd => hd.elim
      | exhausted => rfl

/-- **The phrase iterator runs through the documents that contain the phrase**, whatever calls are made:
each returns, with the number shown afterwards, what a cursor over these documents returns. With a null
pointer among the iterators there are none. -/
theorem phrase_enumerates (hne : ls ≠ []) (hls : ∀ l ∈ ls, Listed l) (calls : List Cursor.Call) :
    (∃ out, Returns (fun n => Cursor.run methods n (make (ls.map fun l => some { vector := l })) calls) out ∧
      Cursor.Trace {d | Hit ls d} .start calls out) ∧
      ∀ iterators, none ∈ iterators →
        ∃ out, Returns (fun n => Cursor.run methods n (make iterators) calls) out ∧
          Cursor.Trace ∅ .start calls out := by
  constructor
  · rw [make_some]
    have himplements : Cursor.Implements methods (ofLists ls) {d | Hit ls d} .start :=
      ⟨_, simulation hls hne, rfl, rfl⟩
    exact himplements.run methods calls
  · intro iterators hnone
    have hmake : make iterators = { iterators := [], docId := 0 } := by
      rw [make, if_pos (List.any_eq_true.mpr ⟨none, hnone, rfl⟩)]
    have himplements : Cursor.Implements methods { iterators := [], docId := 0 } ∅ .start :=
      ⟨_, simulation_nil, rfl, by simp, rfl⟩
    rw [hmake]
    exact himplements.run methods calls

/-- Two terms; only document `5` has them one behind the other, at the last position there is. -/
def twoTerms : List (List PositionInfo) :=
  [[{ docId := 2, positions := [1, 4] }, { docId := 5, positions := [0, 3, 4294967294] },
      { docId := 7, positions := [9] }],
    [{ docId := 2, positions := [0, 3, 4, 6] }, { docId := 5, positions := [0, 3, 4294967295] }]]

theorem phrase_enumerates_twoTerms :
    ∃ out, Returns (fun n => Cursor.run methods n (make (twoTerms.map fun l => some { vector := l }))
      [.skipTo 2, .skipTo 4, .next, .skipTo 9]) out ∧
        Cursor.Trace {d | Hit twoTerms d} .start [.skipTo 2, .skipTo 4, .next, .skipTo 9] out := by
  refine (phrase_enumerates (by simp [twoTerms]) (fun l hl => ?_) _).1
  rcases List.mem_pair.mp hl with rfl | rfl
  · exact ⟨by simp [Ascending], by simp, by simp [Ascending]⟩
  · exact ⟨by simp [Ascending], by simp, by simp [Ascending]⟩

example : Cursor.run methods 9 (make (twoTerms.map fun l => some { vector := l }))
    [.skipTo 2, .skipTo 4, .next, .skipTo 9] = some [(5, 5), (5, 5), (0, 0), (0, 0)] := by decide +kernel

end PhraseAndIterator

end Baloo
