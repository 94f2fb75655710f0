import Baloo.Lib.Fuel
import Baloo.Lib.OrdMap
import Baloo.Lib.SortedSeq
import Mathlib.Data.Prod.Lex

/-!
# Key-value stores with cursors

What a program sees of a store that keeps its entries in the order of their keys: reads and writes of
one key, and cursors, which are set on the first entry that is not below a key and then move from entry
to entry. The operations are those the program calls; the other fields say what the documentation of the
store promises about them, in terms of the entries the store has at a moment and those a cursor still
has before it.

A store keeps one value under a key (`KeyValueStore`) or any number of them, in their own order
(`DupStore`). A program reads both by the same two loops: go on as long as the entries satisfy a
condition (`Cursors.scan`), and take a number of entries (`Cursors.fetch`).
-/

open Fuel (Returns)

/-! ## Conditions that fail for good -/

section Mono

variable {E : Type} {p : E → Bool}

theorem List.takeWhile_eq_filter_of_mono {l : List E} (h : l.Pairwise fun a b => p b = true → p a = true) :
    l.takeWhile p = l.filter p := by
  induction l with
  | nil => rfl
  | cons e l ih =>
    obtain ⟨he, hl⟩ := List.pairwise_cons.mp h
    by_cases hp : p e = true
    · rw [List.takeWhile_cons_of_pos hp, List.filter_cons_of_pos hp, ih hl]
    · rw [List.takeWhile_cons_of_neg hp, List.filter_cons_of_neg hp, eq_comm, List.filter_eq_nil_iff]
      exact fun x hx hpx => hp (he x hx hpx)

theorem List.dropWhile_eq_filter_of_mono {l : List E} (h : l.Pairwise fun a b => p b = true → p a = true) :
    l.dropWhile p = l.filter fun e => !p e := by
  induction l with
  | nil => rfl
  | cons e l ih =>
    obtain ⟨he, hl⟩ := List.pairwise_cons.mp h
    by_cases hp : p e = true
    · rw [List.dropWhile_cons_of_pos hp, List.filter_cons_of_neg (by simp [hp]), ih hl]
    · rw [List.dropWhile_cons_of_neg hp, eq_comm, List.filter_eq_self]
      intro x hx
      rcases List.mem_cons.mp hx with rfl | hx
      · simpa using hp
      · simpa using fun hpx => hp (he x hx hpx)

end Mono

/-! ## Cursors -/

/-- Cursors over entries of type `E`. -/
structure Cursors (E : Type) where
  /-- a cursor that stands on an entry -/
  Cursor : Type
  /-- the entry it stands on -/
  entry : Cursor → E
  /-- move to the next entry, if there is one -/
  next : Cursor → Option Cursor
  /-- the entries from the cursor on -/
  left : Cursor → List E
  /-- the first of them is the one it stands on -/
  head_left : ∀ c, (left c).head? = some (entry c)
  /-- moving on drops it -/
  next_left : ∀ c, ((next c).map left).getD [] = (left c).tail

namespace Cursors

variable {E : Type} (C : Cursors E)

/-- The entries that are left; none if setting or moving the cursor found none. -/
def remaining (c : Option C.Cursor) : List E := (c.map C.left).getD []

@[simp] theorem remaining_none : C.remaining none = [] := rfl

@[simp] theorem remaining_some (c : C.Cursor) : C.remaining (some c) = C.left c := rfl

theorem remaining_next (c : C.Cursor) : C.remaining (C.next c) = (C.left c).tail := C.next_left c

theorem left_eq (c : C.Cursor) : C.left c = C.entry c :: C.remaining (C.next c) := by
  have hhead := C.head_left c
  rw [remaining_next]
  cases hleft : C.left c with
  | nil => simp [hleft] at hhead
  | cons e es =>
    rw [hleft, List.head?_cons, Option.some.injEq] at hhead
    rw [hhead, List.tail_cons]

/-- The loop that reads entries as long as they satisfy `p`. -/
def scan (p : E → Bool) : ℕ → Option C.Cursor → Option (List E)
  | _, none => some []
  | 0, some _ => none
  | fuel + 1, some c =>
    if p (C.entry c) then (scan p fuel (C.next c)).map (C.entry c :: ·) else some []

/-- The loop that reads `size` entries. -/
def fetch : ℕ → Option C.Cursor → List E
  | 0, _ => []
  | _, none => []
  | size + 1, some c => C.entry c :: fetch size (C.next c)

theorem scan_returns (p : E → Bool) (c : Option C.Cursor) :
    Returns (fun fuel => C.scan p fuel c) ((C.remaining c).takeWhile p) := by
  generalize hes : C.remaining c = es
  induction es generalizing c with
  | nil =>
    cases c with
    | none => exact ⟨0, fun m _ => by cases m <;> rfl⟩
    | some c => simp [left_eq] at hes
  | cons e es ih =>
    cases c with
    | none => cases hes
    | some c =>
      rw [remaining_some, left_eq, List.cons.injEq] at hes
      obtain ⟨rfl, hes⟩ := hes
      refine Returns.succ ?_
      simp only [scan]
      by_cases hp : p (C.entry c) = true
      · simp only [if_pos hp, List.takeWhile_cons]
        exact (ih (C.next c) hes).map _
      · simp only [hp, List.takeWhile_cons]
        exact Returns.pure []

/-- Reading to the end. -/
theorem scan_all_returns (c : Option C.Cursor) :
    Returns (fun fuel => C.scan (fun _ => true) fuel c) (C.remaining c) := by
  have hscan := C.scan_returns (fun _ => true) c
  rwa [show (C.remaining c).takeWhile (fun _ => true) = C.remaining c from by
    induction C.remaining c with
    | nil => rfl
    | cons e es ih => rw [List.takeWhile_cons, if_pos rfl, ih]] at hscan

theorem fetch_eq (size : ℕ) (c : Option C.Cursor) : C.fetch size c = (C.remaining c).take size := by
  induction size generalizing c with
  | zero => simp [fetch]
  | succ size ih =>
    cases c with
    | none => simp [fetch]
    | some c => rw [fetch, ih, remaining_some, left_eq, List.take_succ_cons]

end Cursors

/-! ## One value under a key -/

/-- A store with one value under a key. -/
structure KeyValueStore (K V : Type) [Ord K] [Std.TransOrd K] extends Cursors (K × V) where
  /-- the store at one moment -/
  Table : Type
  /-- a new store -/
  empty : Table
  /-- the value under a key -/
  get : Table → K → Option V
  /-- store a value under a key -/
  put : Table → K → V → Table
  /-- drop a key -/
  del : Table → K → Table
  /-- the number of entries -/
  size : Table → ℕ
  /-- set a cursor on the first entry -/
  first : Table → Option Cursor
  /-- set a cursor on the first entry whose key is not below the given one -/
  setRange : Table → K → Option Cursor
  /-- the keys the store takes -/
  accepts : K → Bool
  /-- the entries of the store -/
  contents : Table → OrdMap K V
  contents_empty : contents empty = ∅
  get_eq : ∀ t k, get t k = (contents t).get k
  contents_put : ∀ t k v, accepts k = true → contents (put t k v) = (contents t).put k v
  /-- a key that is not taken is an error, and nothing is stored -/
  contents_refused : ∀ t k v, accepts k = false → contents (put t k v) = contents t
  contents_del : ∀ t k, contents (del t k) = (contents t).del k
  size_eq : ∀ t, size t = (contents t).toList.length
  remaining_first : ∀ t, toCursors.remaining (first t) = (contents t).toList
  remaining_setRange : ∀ t k, accepts k = true →
    toCursors.remaining (setRange t k) = (contents t).toList.dropWhile fun e => compare e.1 k = .lt

namespace KeyValueStore

section Reference

variable (K V : Type) [Ord K] [Std.TransOrd K]

/-- The entries a cursor of the reference store still has before it. -/
abbrev Rest (E : Type) : Type := { l : List E // l ≠ [] }

/-- A cursor for what is left, if anything is. -/
def Rest.ofList {E : Type} (l : List E) : Option (Rest E) := if h : l ≠ [] then some ⟨l, h⟩ else none

theorem Rest.ofList_val {E : Type} (l : List E) : ((Rest.ofList l).map Subtype.val).getD [] = l := by
  unfold Rest.ofList
  split
  · rfl
  · next h => exact (not_not.mp h).symm

/-- Cursors that are the list of what is left. -/
def restCursors (E : Type) : Cursors E where
  Cursor := Rest E
  entry c := c.1.head c.2
  next c := Rest.ofList c.1.tail
  left c := c.1
  head_left c := List.head?_eq_some_head c.2
  next_left c := Rest.ofList_val c.1.tail

/-- The reference store: an ordered map that takes the keys `accepts` says. -/
def reference (accepts : K → Bool) : KeyValueStore K V where
  toCursors := restCursors (K × V)
  Table := OrdMap K V
  empty := ∅
  get := OrdMap.get
  put t k v := if accepts k then t.put k v else t
  del := OrdMap.del
  size t := t.toList.length
  first t := Rest.ofList t.toList
  setRange t k := Rest.ofList (t.toList.dropWhile fun e => compare e.1 k = .lt)
  accepts := accepts
  contents := id
  contents_empty := rfl
  get_eq _ _ := rfl
  contents_put _ _ _ h := if_pos h
  contents_refused _ _ _ h := if_neg (Bool.eq_false_iff.mp h)
  contents_del _ _ := rfl
  size_eq _ := rfl
  remaining_first t := Rest.ofList_val t.toList
  remaining_setRange _ _ _ := Rest.ofList_val _

end Reference

end KeyValueStore

/-! ## Entries decoded

A program that stores records sees the entries through a reading of the keys, which keeps their order, and
a reading of the values. -/

/-- How keys and values of a store are read. -/
structure Reading (K V K' V' : Type) [Ord K] [Ord K'] where
  /-- the key a stored key stands for -/
  key : K → K'
  /-- the record a stored value stands for -/
  value : V → V'
  /-- keys keep their order -/
  compare_key : ∀ a b, compare (key a) (key b) = compare a b

namespace OrdMap

section Enumeration

variable {K V : Type} [Ord K] [Std.TransOrd K]

theorem toList_ascending (m : OrdMap K V) : m.toList.Pairwise fun a b => compare a.1 b.1 = .lt := by
  have hkeys := m.keys_ascending
  rwa [← map_fst_toList, List.pairwise_map] at hkeys

/-- Entries in the order of their keys are determined by which they are. -/
theorem eq_of_ascending {l l' : List (K × V)} (hl : l.Pairwise fun a b => compare a.1 b.1 = .lt)
    (hl' : l'.Pairwise fun a b => compare a.1 b.1 = .lt) (h : ∀ e, e ∈ l ↔ e ∈ l') : l = l' := by
  have hnodup : ∀ {l : List (K × V)}, (l.Pairwise fun a b => compare a.1 b.1 = .lt) → l.Nodup :=
    fun hl => hl.imp fun hlt heq => by simp [heq] at hlt
  refine List.Perm.eq_of_pairwise (fun a b _ _ hab hba => ?_) hl hl'
    ((List.perm_ext_iff_of_nodup (hnodup hl) (hnodup hl')).mpr h)
  exact absurd (Std.TransCmp.lt_trans hab hba) (by simp)

/-- The scan from `pre` on finds the entries whose keys start with it. -/
theorem startingWith_eq_filter {α : Type} [Ord α] [Std.LawfulEqOrd α] [Std.TransOrd α] [BEq α] [LawfulBEq α]
    (m : OrdMap (List α) V) (pre : List α) : m.startingWith pre = m.toList.filter fun e => pre.isPrefixOf e.1 := by
  refine eq_of_ascending ?_ (m.toList_ascending.filter _) fun e => ?_
  · exact (m.toList_ascending.sublist (List.dropWhile_sublist _)).sublist (List.takeWhile_sublist _)
  · rw [startingWith, mem_startingWith_iff m.toList_ascending, List.mem_filter, List.isPrefixOf_iff_prefix]

end Enumeration

end OrdMap

/-- Putting the entries of a map into an empty one, in any order, gives the map. -/
theorem OrdMap.foldl_put_toList {K V : Type} [Ord K] [Std.TransOrd K] [Std.LawfulEqOrd K] [DecidableEq K]
    (m : OrdMap K V) : m.toList.foldl (fun map e => map.put e.1 e.2) ∅ = m := by
  have hget : ∀ (l : List (K × V)) (map : OrdMap K V), (l.map Prod.fst).Nodup → ∀ k,
      (l.foldl (fun map e => map.put e.1 e.2) map).get k =
        ((l.find? fun e => e.1 = k).map Prod.snd).or (map.get k) := by
    intro l
    induction l with
    | nil => intro map _ k; simp
    | cons e l ih =>
      intro map hnodup k
      rw [List.map_cons, List.nodup_cons] at hnodup
      rw [List.foldl_cons, ih _ hnodup.2, OrdMap.get_put, List.find?_cons]
      by_cases hk : k = e.1
      · subst hk
        have hnone : (l.find? fun x => x.1 = e.1) = none := by
          rw [List.find?_eq_none]
          intro x hx hxk
          exact hnodup.1 (of_decide_eq_true hxk ▸ List.mem_map_of_mem hx)
        rw [hnone]
        simp
      · simp [hk, Ne.symm hk]
  refine OrdMap.ext fun k => ?_
  rw [hget _ _ (m.map_fst_toList ▸ m.keys_nodup), OrdMap.get_empty, Option.or_none]
  have hfilter := m.filter_toList k
  rw [← List.head?_filter, hfilter]
  cases m.get k <;> rfl

namespace KeyValueStore

theorem key_injective {K V K' V' : Type} [Ord K] [Std.LawfulEqOrd K] [Ord K'] [Std.ReflOrd K']
    (R : Reading K V K' V') : Function.Injective R.key := fun a b hab => by
  have heq := R.compare_key a b
  rw [hab, Std.ReflOrd.compare_self] at heq
  exact Std.LawfulEqCmp.eq_of_compare heq.symm

variable {K V K' V' : Type} [Ord K] [Std.TransOrd K] [Ord K'] [Std.TransOrd K']
  {S : KeyValueStore K V} {R : Reading K V K' V'} {t : S.Table} {m : OrdMap K' V'}

/-- `m` is what the store holds, keys and values decoded. -/
structure Represents (R : Reading K V K' V') (t : S.Table) (m : OrdMap K' V') : Prop where
  get : ∀ k, m.get (R.key k) = (S.get t k).map R.value
  encoded : ∀ k', m.contains k' = true → ∃ k, R.key k = k'

theorem stores_empty (R : Reading K V K' V') : Represents R S.empty ∅ :=
  ⟨fun k => by rw [S.get_eq, S.contents_empty]; simp, fun k' hk' => by simp at hk'⟩

theorem Represents.contains_key (h : Represents R t m) (k : K) : m.contains (R.key k) = (S.get t k).isSome := by
  rw [OrdMap.contains, h.get, Option.isSome_map]

variable [Std.LawfulEqOrd K] [Std.LawfulEqOrd K']

section Update

variable [DecidableEq K] [DecidableEq K']

theorem Represents.put (h : Represents R t m) {k : K} {v : V} (hk : S.accepts k = true) :
    Represents R (S.put t k v) (m.put (R.key k) (R.value v)) := by
  refine ⟨fun a => ?_, fun k' hk' => ?_⟩
  · rw [S.get_eq, S.contents_put _ _ _ hk, OrdMap.get_put, OrdMap.get_put]
    by_cases ha : a = k
    · rw [if_pos (congrArg R.key ha), if_pos ha, Option.map_some]
    · rw [if_neg (mt (fun heq => key_injective R heq) ha), if_neg ha, h.get, S.get_eq]
  · rw [OrdMap.contains_put, Bool.or_eq_true, decide_eq_true_iff] at hk'
    rcases hk' with rfl | hk'
    · exact ⟨k, rfl⟩
    · exact h.encoded k' hk'

theorem Represents.del (h : Represents R t m) (k : K) : Represents R (S.del t k) (m.del (R.key k)) := by
  refine ⟨fun a => ?_, fun k' hk' => ?_⟩
  · rw [S.get_eq, S.contents_del, OrdMap.get_del, OrdMap.get_del]
    by_cases ha : a = k
    · rw [if_pos (congrArg R.key ha), if_pos ha, Option.map_none]
    · rw [if_neg (mt (fun heq => key_injective R heq) ha), if_neg ha, h.get, S.get_eq]
  · rw [OrdMap.contains_del, Bool.and_eq_true] at hk'
    exact h.encoded k' hk'.2

end Update

/-- The records are enumerated as the entries are. -/
theorem Represents.toList (h : Represents R t m) :
    m.toList = (S.contents t).toList.map fun e => (R.key e.1, R.value e.2) := by
  have hdecoded : ((S.contents t).toList.map fun e => (R.key e.1, R.value e.2)).Pairwise
      fun a b => compare a.1 b.1 = .lt := by
    rw [List.pairwise_map]
    exact (S.contents t).toList_ascending.imp fun hlt => (R.compare_key _ _).trans hlt
  refine OrdMap.eq_of_ascending m.toList_ascending hdecoded ?_
  rintro ⟨k', v'⟩
  rw [OrdMap.mem_toList, List.mem_map]
  constructor
  · intro hget
    obtain ⟨k, rfl⟩ := h.encoded k' (OrdMap.contains_iff.mpr ⟨v', hget⟩)
    rw [h.get, Option.map_eq_some_iff] at hget
    obtain ⟨v, hv, rfl⟩ := hget
    exact ⟨(k, v), OrdMap.mem_toList.mpr ((S.get_eq t k).symm.trans hv), rfl⟩
  · rintro ⟨⟨k, v⟩, hmem, heq⟩
    obtain ⟨rfl, rfl⟩ := Prod.mk.inj heq
    rw [h.get, S.get_eq, OrdMap.mem_toList.mp hmem, Option.map_some]

end KeyValueStore

/-! ## Several values under a key -/

/-- A store with any number of values under a key, each once and in order. -/
structure DupStore (K V : Type) [LinearOrder K] [LinearOrder V] extends Cursors (K × V) where
  /-- the store at one moment -/
  Table : Type
  /-- a new store -/
  empty : Table
  /-- add a value under a key -/
  put : Table → K → V → Table
  /-- drop one value of a key -/
  del : Table → K → V → Table
  /-- set a cursor on the first entry -/
  first : Table → Option Cursor
  /-- set a cursor on the first value of the first key that is not below the given one -/
  setRange : Table → K → Option Cursor
  /-- set a cursor on the first value of a key -/
  set : Table → K → Option Cursor
  /-- move to the next value of the same key -/
  nextDup : Cursor → Option Cursor
  /-- the entries of the store -/
  contents : Table → List (K × V)
  ascending : ∀ t, SortedSeq.Ascending toLex (contents t)
  contents_empty : contents empty = []
  mem_put : ∀ t k v e, e ∈ contents (put t k v) ↔ e = (k, v) ∨ e ∈ contents t
  mem_del : ∀ t k v e, e ∈ contents (del t k v) ↔ e ≠ (k, v) ∧ e ∈ contents t
  remaining_first : ∀ t, toCursors.remaining (first t) = contents t
  remaining_setRange : ∀ t k, toCursors.remaining (setRange t k) = (contents t).dropWhile fun e => e.1 < k
  set_eq : ∀ t k, set t k = (setRange t k).filter fun c => (entry c).1 = k
  nextDup_eq : ∀ c, nextDup c = (next c).filter fun c' => (entry c').1 = (entry c).1

namespace DupStore

variable {K V : Type} [LinearOrder K] [LinearOrder V] (S : DupStore K V)

/-- The loop that reads the values of one key. -/
def values : ℕ → Option S.Cursor → Option (List V)
  | _, none => some []
  | 0, some _ => none
  | fuel + 1, some c => (values fuel (S.nextDup c)).map ((S.entry c).2 :: ·)

@[simp] theorem values_none (fuel : ℕ) : S.values fuel none = some [] := by cases fuel <;> rfl

/-- A cursor on the values of `k` reads as far as the entries have that key. -/
theorem values_returns {k : K} {c : Option S.Cursor} (hc : ∀ c' ∈ c, (S.entry c').1 = k) :
    Returns (fun fuel => S.values fuel c) (((S.remaining c).takeWhile fun e => e.1 = k).map Prod.snd) := by
  generalize hes : S.remaining c = es
  induction es generalizing c with
  | nil =>
    cases c with
    | none => simpa using Returns.pure []
    | some c => simp [Cursors.left_eq] at hes
  | cons e es ih =>
    cases c with
    | none => cases hes
    | some c =>
      have hkey : (S.entry c).1 = k := hc c rfl
      rw [Cursors.remaining_some, Cursors.left_eq, List.cons.injEq] at hes
      obtain ⟨rfl, hes⟩ := hes
      refine Returns.succ ?_
      simp only [values, List.takeWhile_cons, hkey, decide_true, if_true, List.map_cons, S.nextDup_eq]
      refine Returns.map ?_ _
      cases hnext : S.next c with
      | none =>
        rw [hnext, Cursors.remaining_none] at hes
        subst hes
        simpa using Returns.pure []
      | some c' =>
        by_cases hsame : (S.entry c').1 = k
        · rw [Option.filter_some, if_pos (by simpa using hsame)]
          exact ih (fun _ h => by rwa [← Option.some.inj h]) (by rw [← hnext, hes])
        · -- the next entry has another key, and the scan stops before it as well
          rw [Option.filter_some, if_neg (by simpa using hsame)]
          rw [hnext, Cursors.remaining_some, Cursors.left_eq] at hes
          rw [← hes, List.takeWhile_cons, if_neg (by simpa using hsame)]
          simpa using Returns.pure []

/-- Among entries in the order of their keys, those with keys from `k` on that satisfy a condition which
fails for good stand together. -/
theorem takeWhile_dropWhile_key {l : List (K × V)} (h : l.Pairwise fun e e' => e.1 ≤ e'.1) (k : K) (p : K → Bool)
    (hp : ∀ a b, k ≤ a → a ≤ b → p b = true → p a = true) :
    ((l.dropWhile fun e => e.1 < k).takeWhile fun e => p e.1) = l.filter fun e => decide (k ≤ e.1) && p e.1 := by
  have hdrop : (l.dropWhile fun e => e.1 < k) = l.filter fun e => k ≤ e.1 := by
    rw [List.dropWhile_eq_filter_of_mono (h.imp fun {a b} hab hb => ?_)]
    · refine List.filter_congr fun e _ => ?_
      rw [← decide_not, decide_eq_decide, not_lt]
    · exact decide_eq_true (hab.trans_lt (of_decide_eq_true hb))
  rw [hdrop, List.takeWhile_eq_filter_of_mono, List.filter_filter]
  · exact List.filter_congr fun e _ => Bool.and_comm ..
  · refine (List.pairwise_filter.mpr (h.imp fun {a b} hab ha hb => ?_))
    exact hp a.1 b.1 (of_decide_eq_true ha) hab

theorem keys_sorted (t : S.Table) : (S.contents t).Pairwise fun e e' => e.1 ≤ e'.1 :=
  (S.ascending t).imp fun hlt => (Prod.Lex.toLex_lt_toLex.mp hlt).elim le_of_lt fun h => le_of_eq h.1

/-- Setting the cursor on `k` and reading to the last of its values reads all of them. -/
theorem values_set (t : S.Table) (k : K) : Returns (fun fuel => S.values fuel (S.set t k))
    (((S.contents t).filter fun e => e.1 = k).map Prod.snd) := by
  have hkey : ∀ c ∈ S.set t k, (S.entry c).1 = k := fun c hc => by
    rw [S.set_eq] at hc
    simpa using (Option.mem_filter_iff.mp hc).2
  have hset : ((S.remaining (S.set t k)).takeWhile fun e => e.1 = k) =
      (S.remaining (S.setRange t k)).takeWhile fun e => e.1 = k := by
    rw [S.set_eq]
    cases S.setRange t k with
    | none => rfl
    | some c =>
      by_cases hc : (S.entry c).1 = k
      · rw [Option.filter_some, if_pos (by simpa using hc)]
      · rw [Option.filter_some, if_neg (by simpa using hc), Cursors.remaining_some, Cursors.left_eq,
          List.takeWhile_cons, if_neg (by simpa using hc)]
        rfl
  have hfilter : ((S.contents t).filter fun e => e.1 = k) =
      (S.contents t).filter fun e => decide (k ≤ e.1) && decide (e.1 = k) := by
    refine List.filter_congr fun e _ => ?_
    rw [← Bool.decide_and, decide_eq_decide]
    exact ⟨fun heq => ⟨heq.ge, heq⟩, And.right⟩
  rw [hfilter, ← takeWhile_dropWhile_key (S.keys_sorted t) k (fun a => decide (a = k)) fun a b hka hab hb =>
    decide_eq_true (le_antisymm (hab.trans (of_decide_eq_true hb).le) hka), ← S.remaining_setRange, ← hset]
  exact S.values_returns hkey

section Reference

omit [LinearOrder K] [LinearOrder V] in
theorem mem_ofLex {e : K × V} {l : List (K ×ₗ V)} : e ∈ l.map ofLex ↔ toLex e ∈ l :=
  List.mem_map_of_injective ofLex.injective (a := toLex e)

variable (K V)

/-- The reference store: an ascending list of pairs. -/
def reference : DupStore K V where
  toCursors := KeyValueStore.restCursors (K × V)
  Table := { l : List (K ×ₗ V) // SortedSeq.Ascending id l }
  empty := ⟨[], SortedSeq.ascending_nil⟩
  put t k v := ⟨SortedSeq.insert id (toLex (k, v)) t.1, SortedSeq.ascending_insert t.2⟩
  del t k v := ⟨SortedSeq.erase id (toLex (k, v)) t.1, SortedSeq.ascending_erase t.2⟩
  first t := KeyValueStore.Rest.ofList (t.1.map ofLex)
  setRange t k := KeyValueStore.Rest.ofList ((t.1.map ofLex).dropWhile fun e => e.1 < k)
  set t k :=
    (KeyValueStore.Rest.ofList ((t.1.map ofLex).dropWhile fun e => e.1 < k)).filter fun c => (c.1.head c.2).1 = k
  nextDup c := (KeyValueStore.Rest.ofList c.1.tail).filter fun c' => (c'.1.head c'.2).1 = (c.1.head c.2).1
  contents t := t.1.map ofLex
  ascending t := List.pairwise_map.mpr t.2
  contents_empty := rfl
  mem_put t k v e := by
    change e ∈ (SortedSeq.insert id (toLex (k, v)) t.1).map ofLex ↔ e = (k, v) ∨ e ∈ t.1.map ofLex
    rw [mem_ofLex, mem_ofLex, SortedSeq.mem_insert t.2, toLex_inj]
  mem_del t k v e := by
    change e ∈ (SortedSeq.erase id (toLex (k, v)) t.1).map ofLex ↔ e ≠ (k, v) ∧ e ∈ t.1.map ofLex
    rw [mem_ofLex, mem_ofLex, SortedSeq.mem_erase t.2, Ne, toLex_inj]
  remaining_first _ := KeyValueStore.Rest.ofList_val _
  remaining_setRange _ _ := KeyValueStore.Rest.ofList_val _
  set_eq _ _ := rfl
  nextDup_eq _ := rfl

end Reference

end DupStore
