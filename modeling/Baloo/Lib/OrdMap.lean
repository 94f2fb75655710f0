import Mathlib.Data.List.Basic
import Mathlib.Data.List.Nodup
import Mathlib.Data.List.Perm.Subperm
import Std.Data.ExtTreeMap

/-!
# Ordered finite maps

An ordered key-value store seen as a mathematical object: finitely many keys, one value per key,
keys enumerated in ascending order, two maps equal as soon as every lookup agrees. The carrier is
`Std.ExtTreeMap`; what is added here is the vocabulary of a store (`get`, `put`, `del`, `contains`)
with lookup laws phrased by equality of keys, and the **multimap** operation `append`, which adds a
value to the end of the list kept under a key.
-/

universe u v

/-- A finite map whose keys are enumerated in ascending order. -/
structure OrdMap (K : Type u) (V : Type v) [Ord K] : Type (max u v) where
  /-- the search tree behind the map, up to extensional equality -/
  tree : Std.ExtTreeMap K V compare

namespace OrdMap

section Operations

variable {K : Type u} {V : Type v} [Ord K] [Std.TransOrd K]

/-- The map without keys. -/
instance : EmptyCollection (OrdMap K V) := ⟨⟨∅⟩⟩

instance : Inhabited (OrdMap K V) := ⟨∅⟩

/-- The value under `k`, if there is one. -/
def get (m : OrdMap K V) (k : K) : Option V := m.tree[k]?

/-- Store `v` under `k`, replacing what was there. -/
def put (m : OrdMap K V) (k : K) (v : V) : OrdMap K V := ⟨m.tree.insert k v⟩

/-- Drop the key `k`. -/
def del (m : OrdMap K V) (k : K) : OrdMap K V := ⟨m.tree.erase k⟩

/-- Is there a value under `k`? -/
def contains (m : OrdMap K V) (k : K) : Bool := (m.get k).isSome

/-- The pairs of the map, in ascending order of keys. -/
def toList (m : OrdMap K V) : List (K × V) := m.tree.toList

/-- The keys of the map, in ascending order. -/
def keys (m : OrdMap K V) : List K := m.tree.keys

@[simp] theorem get_empty (k : K) : (∅ : OrdMap K V).get k = none :=
  Std.ExtTreeMap.getElem?_empty

@[simp] theorem contains_empty (k : K) : (∅ : OrdMap K V).contains k = false := by
  simp [contains]

@[simp] theorem keys_empty : (∅ : OrdMap K V).keys = [] := rfl

theorem contains_iff {m : OrdMap K V} {k : K} : m.contains k = true ↔ ∃ v, m.get k = some v := by
  rw [contains, Option.isSome_iff_exists]

theorem map_fst_toList (m : OrdMap K V) : m.toList.map Prod.fst = m.keys :=
  Std.ExtTreeMap.map_fst_toList_eq_keys

/-- The enumeration is strictly ascending. -/
theorem keys_ascending (m : OrdMap K V) : m.keys.Pairwise fun a b => compare a b = .lt :=
  Std.ExtTreeMap.ordered_keys

theorem keys_nodup (m : OrdMap K V) : m.keys.Nodup := by
  refine m.keys_ascending.imp fun {a b} hlt heq => ?_
  subst heq
  simp at hlt

end Operations

section Lookup

variable {K : Type u} {V : Type v} [Ord K] [Std.TransOrd K] [Std.LawfulEqOrd K]

/-- Maps are determined by their lookups. -/
theorem ext {m m' : OrdMap K V} (h : ∀ k, m.get k = m'.get k) : m = m' := by
  cases m; cases m'
  exact congrArg OrdMap.mk (Std.ExtTreeMap.ext_getElem? h)

theorem mem_toList {m : OrdMap K V} {k : K} {v : V} : (k, v) ∈ m.toList ↔ m.get k = some v :=
  Std.ExtTreeMap.mem_toList_iff_getElem?_eq_some

theorem mem_keys {m : OrdMap K V} {k : K} : k ∈ m.keys ↔ ∃ v, m.get k = some v := by
  rw [← map_fst_toList, List.mem_map]
  constructor
  · rintro ⟨⟨k', v⟩, hmem, rfl⟩
    exact ⟨v, mem_toList.mp hmem⟩
  · rintro ⟨v, hv⟩
    exact ⟨(k, v), mem_toList.mpr hv, rfl⟩

theorem contains_iff_mem_keys {m : OrdMap K V} {k : K} : m.contains k = true ↔ k ∈ m.keys := by
  rw [contains_iff, mem_keys]

/-- A map without keys is empty. -/
theorem eq_empty {m : OrdMap K V} (h : m.keys = []) : m = ∅ := by
  refine ext fun k => ?_
  rw [get_empty, Option.eq_none_iff_forall_ne_some]
  intro v hv
  have hmem : k ∈ m.keys := mem_keys.mpr ⟨v, hv⟩
  rw [h] at hmem
  cases hmem

/-- A map has keys as soon as it contains one. -/
theorem keys_ne_nil {m : OrdMap K V} : m.keys ≠ [] ↔ ∃ k, m.contains k = true := by
  simp only [contains_iff_mem_keys]
  exact ⟨List.exists_mem_of_ne_nil m.keys, fun ⟨_, hk⟩ => List.ne_nil_of_mem hk⟩

variable [DecidableEq K]

/-- The part of the enumeration with a given key. -/
theorem filter_toList (m : OrdMap K V) (k : K) :
    m.toList.filter (·.1 = k) =
      match m.get k with
      | none => []
      | some v => [(k, v)] := by
  have hnodup : (m.toList.filter (·.1 = k)).Nodup :=
    (List.Nodup.of_map Prod.fst (m.map_fst_toList ▸ m.keys_nodup)).filter _
  rcases hk : m.get k with _ | v
  · rw [List.filter_eq_nil_iff]
    rintro ⟨k', v⟩ hmem heq
    obtain rfl : k' = k := by simpa using heq
    rw [mem_toList, hk] at hmem
    cases hmem
  · refine List.Perm.eq_singleton ((List.perm_ext_iff_of_nodup hnodup (List.nodup_singleton _)).mpr ?_)
    rintro ⟨k', v'⟩
    rw [List.mem_filter, mem_toList, List.mem_singleton, Prod.mk.injEq, decide_eq_true_iff]
    constructor
    · rintro ⟨hget, rfl⟩
      exact ⟨rfl, Option.some.inj (hget.symm.trans hk)⟩
    · rintro ⟨rfl, rfl⟩
      exact ⟨hk, rfl⟩

@[simp] theorem get_put (m : OrdMap K V) (k a : K) (v : V) :
    (m.put k v).get a = if a = k then some v else m.get a := by
  rw [get, put, Std.ExtTreeMap.getElem?_insert]
  simp only [Std.LawfulEqCmp.compare_eq_iff_eq, eq_comm (a := k), get]

@[simp] theorem get_del (m : OrdMap K V) (k a : K) :
    (m.del k).get a = if a = k then none else m.get a := by
  rw [get, del, Std.ExtTreeMap.getElem?_erase]
  simp only [Std.LawfulEqCmp.compare_eq_iff_eq, eq_comm (a := k), get]

/-- Storing what is there changes nothing. -/
theorem put_eq_self {m : OrdMap K V} {k : K} {v : V} (h : m.get k = some v) : m.put k v = m := by
  refine ext fun a => ?_
  rw [get_put]
  split
  · next ha => rw [ha, h]
  · rfl

/-- Dropping a key that is not there changes nothing. -/
theorem del_eq_self {m : OrdMap K V} {k : K} (h : m.get k = none) : m.del k = m := by
  refine ext fun a => ?_
  rw [get_del]
  split
  · next ha => rw [ha, h]
  · rfl

theorem del_put (m : OrdMap K V) (k : K) (v : V) : (m.put k v).del k = m.del k := by
  refine ext fun a => ?_
  rw [get_del, get_del, get_put]
  split <;> rfl

theorem put_del (m : OrdMap K V) (k : K) (v : V) : (m.del k).put k v = m.put k v := by
  refine ext fun a => ?_
  rw [get_put, get_put, get_del]
  split <;> rfl

@[simp] theorem contains_put (m : OrdMap K V) (k a : K) (v : V) :
    (m.put k v).contains a = (decide (a = k) || m.contains a) := by
  by_cases h : a = k <;> simp [contains, h]

@[simp] theorem contains_del (m : OrdMap K V) (k a : K) :
    (m.del k).contains a = (!decide (a = k) && m.contains a) := by
  by_cases h : a = k <;> simp [contains, h]

theorem contains_foldl_del {ks : List K} {m : OrdMap K V} {k : K} :
    (ks.foldl del m).contains k = true ↔ k ∉ ks ∧ m.contains k = true := by
  induction ks generalizing m with
  | nil => simp
  | cons a ks ih =>
    rw [List.foldl_cons, ih, contains_del]
    simp [and_assoc, and_left_comm]

omit [DecidableEq K] in
/-- A map that contains less is not longer. -/
theorem length_keys_le {m m' : OrdMap K V} (h : ∀ k, m'.contains k = true → m.contains k = true) :
    m'.keys.length ≤ m.keys.length :=
  (List.Nodup.subperm m'.keys_nodup fun k hk =>
    contains_iff_mem_keys.mp (h k (contains_iff_mem_keys.mpr hk))).length_le

/-- A map that has lost a key is shorter. -/
theorem length_keys_lt {m m' : OrdMap K V} (h : ∀ k, m'.contains k = true → m.contains k = true)
    {k : K} (hk : m.contains k = true) (hk' : m'.contains k = false) :
    m'.keys.length < m.keys.length := by
  have hle : m'.keys.length ≤ (m.del k).keys.length := length_keys_le fun a ha => by
    rcases eq_or_ne a k with rfl | hne
    · exact absurd (hk'.symm.trans ha) Bool.false_ne_true
    · simp [hne, h a ha]
  have hperm : (k :: (m.del k).keys).Subperm m.keys := by
    refine List.Nodup.subperm (List.nodup_cons.mpr ⟨fun hmem => ?_, (m.del k).keys_nodup⟩) ?_
    · simpa using contains_iff_mem_keys.mpr hmem
    · intro a ha
      rcases List.mem_cons.mp ha with rfl | ha
      · exact contains_iff_mem_keys.mp hk
      · have hdel := contains_iff_mem_keys.mpr ha
        rw [contains_del, Bool.and_eq_true] at hdel
        exact contains_iff_mem_keys.mp hdel.2
  have hlen := hperm.length_le
  rw [List.length_cons] at hlen
  omega

end Lookup

/-! ## Keys that start alike -/

section Prefix

variable {α : Type u} {V : Type v} [Ord α] [Std.LawfulEqOrd α] {pre k k' : List α}

/-- A key that starts with `pre` is not below it. -/
theorem not_lt_of_prefix (h : pre <+: k) : compare k pre ≠ .lt := by
  induction pre generalizing k with
  | nil => cases k <;> nofun
  | cons a pre ih =>
    obtain ⟨rest, rfl⟩ := h
    rw [List.cons_append, List.compare_cons_cons, Std.ReflOrd.compare_self]
    exact ih (List.prefix_append pre rest)

/-- Among the keys that are not below `pre`, those that start with it come first. -/
theorem prefix_of_lt (hpre : compare k pre ≠ .lt) (hlt : compare k k' = .lt) (h : pre <+: k') : pre <+: k := by
  induction pre generalizing k k' with
  | nil => exact List.nil_prefix
  | cons a pre ih =>
    obtain ⟨rest, rfl⟩ := h
    cases k with
    | nil => exact absurd rfl hpre
    | cons b k =>
      rw [List.cons_append, List.compare_cons_cons] at hlt
      rw [List.compare_cons_cons] at hpre
      cases hba : compare b a with
      | lt =>
        rw [hba] at hpre
        exact absurd rfl hpre
      | gt =>
        rw [hba] at hlt
        cases hlt
      | eq =>
        rw [hba] at hpre hlt
        rw [Std.LawfulEqCmp.eq_of_compare hba]
        exact (List.prefix_cons_inj a).mpr (ih hpre hlt (List.prefix_append pre rest))

variable [Std.TransOrd α] [BEq α] [LawfulBEq α]

/-- The entries whose keys start with `pre`, as a scan from `pre` on finds them. -/
def startingWith (m : OrdMap (List α) V) (pre : List α) : List (List α × V) :=
  (m.toList.dropWhile fun e => compare e.1 pre = .lt).takeWhile fun e => pre.isPrefixOf e.1

theorem mem_startingWith_iff {l : List (List α × V)} (h : l.Pairwise fun a b => compare a.1 b.1 = .lt)
    (e : List α × V) :
    e ∈ (l.dropWhile fun e => compare e.1 pre = .lt).takeWhile (fun e => pre.isPrefixOf e.1) ↔
      e ∈ l ∧ pre <+: e.1 := by
  induction l with
  | nil => simp
  | cons x l ih =>
    obtain ⟨hlt, hl⟩ := List.pairwise_cons.mp h
    by_cases hbelow : compare x.1 pre = .lt
    · -- the scan has not reached `pre`
      rw [List.dropWhile_cons_of_pos (by simpa using hbelow), ih hl, List.mem_cons]
      refine and_congr_left fun hk => (or_iff_right ?_).symm
      rintro rfl
      exact not_lt_of_prefix hk hbelow
    · have hreached : (l.dropWhile fun e => compare e.1 pre = .lt) = l := by
        rcases l with _ | ⟨y, l⟩
        · rfl
        · refine List.dropWhile_cons_of_neg ?_
          rw [decide_eq_true_iff]
          exact fun hy => hbelow (Std.TransCmp.lt_trans (hlt y List.mem_cons_self) hy)
      rw [List.dropWhile_cons_of_neg (by simpa using hbelow)]
      rw [hreached] at ih
      by_cases hx : pre <+: x.1
      · rw [List.takeWhile_cons, if_pos (List.isPrefixOf_iff_prefix.mpr hx), List.mem_cons, List.mem_cons, ih hl]
        constructor
        · rintro (rfl | ⟨he, hk⟩)
          · exact ⟨.inl rfl, hx⟩
          · exact ⟨.inr he, hk⟩
        · rintro ⟨rfl | he, hk⟩
          · exact .inl rfl
          · exact .inr ⟨he, hk⟩
      · -- no key starts with `pre` from here on
        rw [List.takeWhile_cons, if_neg (mt List.isPrefixOf_iff_prefix.mp hx)]
        refine ⟨fun he => absurd he List.not_mem_nil, fun ⟨he, hk⟩ => absurd ?_ hx⟩
        rcases List.mem_cons.mp he with rfl | he
        · exact hk
        · exact prefix_of_lt hbelow (hlt e he) hk

/-- The scan finds all of them. -/
theorem mem_startingWith {m : OrdMap (List α) V} {v : V} :
    (k, v) ∈ m.startingWith pre ↔ m.get k = some v ∧ pre <+: k := by
  have hascending : m.toList.Pairwise fun a b => compare a.1 b.1 = .lt := by
    have hkeys := m.keys_ascending
    rwa [← map_fst_toList, List.pairwise_map] at hkeys
  rw [← mem_toList]
  exact mem_startingWith_iff hascending (k, v)

end Prefix

/-! ## Multimaps: a list of values under each key -/

section Multimap

variable {K : Type u} {W : Type v} [Ord K] [Std.TransOrd K]

/-- The values kept under `k`, oldest first. -/
def values (m : OrdMap K (List W)) (k : K) : List W := (m.get k).getD []

/-- Add `w` behind the values kept under `k`. -/
def append (m : OrdMap K (List W)) (k : K) (w : W) : OrdMap K (List W) :=
  m.put k (m.values k ++ [w])

/-- Add every pair of a list, in order. -/
def appendAll (m : OrdMap K (List W)) (kws : List (K × W)) : OrdMap K (List W) :=
  kws.foldl (fun m kw => m.append kw.1 kw.2) m

variable [Std.LawfulEqOrd K] [DecidableEq K]

theorem values_append (m : OrdMap K (List W)) (k a : K) (w : W) :
    (m.append k w).values a = m.values a ++ if a = k then [w] else [] := by
  by_cases h : a = k
  · subst h; simp [append, values]
  · simp [append, values, h]

/-- What a batch of additions leaves under `a`: the pairs keyed `a`, in the order of the batch. -/
theorem values_appendAll (kws : List (K × W)) (m : OrdMap K (List W)) (a : K) :
    (m.appendAll kws).values a = m.values a ++ (kws.filter (·.1 = a)).map Prod.snd := by
  induction kws generalizing m with
  | nil => simp [appendAll]
  | cons kw kws ih =>
    have hstep : m.appendAll (kw :: kws) = (m.append kw.1 kw.2).appendAll kws := rfl
    rw [hstep, ih, values_append]
    by_cases h : kw.1 = a
    · simp [h]
    · simp [h, Ne.symm h]

end Multimap

end OrdMap
