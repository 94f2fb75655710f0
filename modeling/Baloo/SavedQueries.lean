import Baloo.SearchStore

/-!
# Saved queries

A query is saved as a JSON object that has only those fields that are not what they are without it. The filters for
the year, the month and the day are written if they are positive, but a search honours every filter that is not zero.
So what is read back is the query without its negative filters, and it is the same query exactly if there are none
(`saved_query_round_trips`).
-/

namespace Baloo

namespace SavedQuery

/-- `QVariant`, as far as it is written: what JSON keeps. -/
inductive QVariant where
  /-- a list of strings -/
  | stringList (strings : List (List QChar))
  /-- a string -/
  | string (s : List QChar)
  /-- a number -/
  | number (n : ℤ)

namespace QVariant

/-- `QVariant::toStringList`; there is no value without the key. -/
def toStringList : Option QVariant → List (List QChar)
  | some (.stringList strings) => strings
  | some (.string s) => [s]
  | _ => []

/-- `QVariant::toString` -/
def toString : Option QVariant → List QChar
  | some (.string s) => s
  | _ => []

/-- The value of a number. -/
def toNumber : Option QVariant → ℤ
  | some (.number n) => n
  | _ => 0

/-- `QVariant::toUInt` -/
def toUInt (value : Option QVariant) : UInt32 := UInt32.ofInt (toNumber value)

/-- `QVariant::toInt` -/
def toInt (value : Option QVariant) : Int32 := Int32.ofInt (toNumber value)

end QVariant

/-- `QVariantMap`. The text of a JSON object is read back as this object. -/
abbrev QVariantMap : Type := OrdMap String QVariant

/-- `Query::SortingOption`. -/
inductive SortingOption where
  /-- in any order -/
  | sortNone
  /-- by the time of modification -/
  | sortAuto
  deriving DecidableEq

namespace SortingOption

/-- The number of an option. -/
def number : SortingOption → ℤ
  | .sortNone => 0
  | .sortAuto => 1

/-- The option with a number. -/
def ofNumber (n : ℤ) : SortingOption := if n = 0 then .sortNone else .sortAuto

end SortingOption

end SavedQuery

/-- `Query::Private`. A null string is the same value as an empty one. -/
structure SavedQuery where
  /-- `m_types` -/
  types : List (List QChar) := []
  /-- `m_searchString` -/
  searchString : List QChar := []
  /-- `m_searchScopes` -/
  searchScopes : List (List QChar) := []
  /-- `m_limit` -/
  limit : UInt32 := 0xffffffff
  /-- `m_offset` -/
  offset : UInt32 := 0
  /-- `m_yearFilter` -/
  yearFilter : Int32 := 0
  /-- `m_monthFilter` -/
  monthFilter : Int32 := 0
  /-- `m_dayFilter` -/
  dayFilter : Int32 := 0
  /-- `m_sortingOption` -/
  sortingOption : SavedQuery.SortingOption := .sortAuto
  /-- `m_includeFolder` -/
  includeFolder : List QChar := []
  deriving DecidableEq

namespace SavedQuery

/-- `defaultLimit` -/
def defaultLimit : UInt32 := 0xffffffff

/-- A key is written under a condition. -/
def putIf (condition : Prop) [Decidable condition] (key : String) (value : QVariant) (map : QVariantMap) :
    QVariantMap :=
  if condition then map.put key value else map

/-- `Query::toJSON`. -/
def toJSON (q : SavedQuery) : QVariantMap :=
  let map := putIf (q.types ≠ []) "type" (.stringList q.types) ∅
  let map := putIf (q.limit ≠ defaultLimit) "limit" (.number q.limit.toNat) map
  let map := putIf (q.offset ≠ 0) "offset" (.number q.offset.toNat) map
  let map := putIf (q.searchString ≠ []) "searchString" (.string q.searchString) map
  let map := putIf (q.searchScopes ≠ []) "searchScopes" (.stringList q.searchScopes) map
  let map := putIf (0 < q.yearFilter) "yearFilter" (.number q.yearFilter.toInt) map
  let map := putIf (0 < q.monthFilter) "monthFilter" (.number q.monthFilter.toInt) map
  let map := putIf (0 < q.dayFilter) "dayFilter" (.number q.dayFilter.toInt) map
  let map := putIf (q.sortingOption ≠ .sortAuto) "sortingOption" (.number q.sortingOption.number) map
  putIf (q.includeFolder ≠ []) "includeFolder" (.string q.includeFolder) map

/-- `Query::fromJSON`. -/
def fromJSON (map : QVariantMap) : SavedQuery where
  types := QVariant.toStringList (map.get "type")
  limit := if map.contains "limit" then QVariant.toUInt (map.get "limit") else defaultLimit
  offset := QVariant.toUInt (map.get "offset")
  searchString := QVariant.toString (map.get "searchString")
  searchScopes := QVariant.toStringList (map.get "searchScopes")
  yearFilter := if map.contains "yearFilter" then QVariant.toInt (map.get "yearFilter") else 0
  monthFilter := if map.contains "monthFilter" then QVariant.toInt (map.get "monthFilter") else 0
  dayFilter := if map.contains "dayFilter" then QVariant.toInt (map.get "dayFilter") else 0
  sortingOption :=
    if map.contains "sortingOption" then
      SortingOption.ofNumber (QVariant.toInt (map.get "sortingOption")).toInt
    else .sortAuto
  includeFolder := if map.contains "includeFolder" then QVariant.toString (map.get "includeFolder") else []

/-- `Query::operator==`. -/
def equal (q rhs : SavedQuery) : Bool :=
  if rhs.limit ≠ q.limit ∨ rhs.offset ≠ q.offset ∨ rhs.dayFilter ≠ q.dayFilter ∨
      rhs.monthFilter ≠ q.monthFilter ∨ rhs.yearFilter ≠ q.yearFilter ∨ rhs.includeFolder ≠ q.includeFolder ∨
      rhs.searchString ≠ q.searchString ∨ rhs.sortingOption ≠ q.sortingOption then
    false
  else if rhs.types.length ≠ q.types.length then false
  else if rhs.types.any fun type => !q.types.contains type then false
  else if rhs.searchScopes.length ≠ q.searchScopes.length then false
  else !rhs.searchScopes.any fun scope => !q.searchScopes.contains scope

/-- What is read is what was written. -/
def RoundTrips (q : SavedQuery) : Prop := fromJSON q.toJSON = q ∧ q.equal (fromJSON q.toJSON) = true

variable {q : SavedQuery}

theorem get_putIf {condition : Prop} [Decidable condition] {key key' : String} {value : QVariant}
    {map : QVariantMap} :
    (putIf condition key value map).get key' =
      if key' = key then (if condition then some value else map.get key) else map.get key' := by
  rw [putIf]
  by_cases hkey : key' = key
  · subst hkey
    by_cases h : condition <;> simp [h]
  · by_cases h : condition <;> simp [h, hkey]

/-- What is found under the keys. -/
theorem get_toJSON (q : SavedQuery) :
    q.toJSON.get "type" = (if q.types ≠ [] then some (.stringList q.types) else none) ∧
    q.toJSON.get "limit" = (if q.limit ≠ defaultLimit then some (.number q.limit.toNat) else none) ∧
    q.toJSON.get "offset" = (if q.offset ≠ 0 then some (.number q.offset.toNat) else none) ∧
    q.toJSON.get "searchString" = (if q.searchString ≠ [] then some (.string q.searchString) else none) ∧
    q.toJSON.get "searchScopes" = (if q.searchScopes ≠ [] then some (.stringList q.searchScopes) else none) ∧
    q.toJSON.get "yearFilter" = (if 0 < q.yearFilter then some (.number q.yearFilter.toInt) else none) ∧
    q.toJSON.get "monthFilter" = (if 0 < q.monthFilter then some (.number q.monthFilter.toInt) else none) ∧
    q.toJSON.get "dayFilter" = (if 0 < q.dayFilter then some (.number q.dayFilter.toInt) else none) ∧
    q.toJSON.get "sortingOption" =
      (if q.sortingOption ≠ .sortAuto then some (.number q.sortingOption.number) else none) ∧
    q.toJSON.get "includeFolder" = (if q.includeFolder ≠ [] then some (.string q.includeFolder) else none) := by
  simp [toJSON, get_putIf]

/-! ## What each field is read back as -/

theorem toStringList_written (strings : List (List QChar)) :
    QVariant.toStringList (if strings ≠ [] then some (.stringList strings) else none) = strings := by
  by_cases h : strings = []
  · rw [if_neg (not_not.mpr h), h]
    rfl
  · rw [if_pos h]
    rfl

theorem toString_written (s : List QChar) :
    QVariant.toString (if s ≠ [] then some (.string s) else none) = s := by
  by_cases h : s = []
  · rw [if_neg (not_not.mpr h), h]
    rfl
  · rw [if_pos h]
    rfl

theorem toUInt_number (n : UInt32) : QVariant.toUInt (some (.number n.toNat)) = n := by
  rw [QVariant.toUInt, QVariant.toNumber, UInt32.ofInt]
  have hlt := n.toNat_lt
  have hmod : ((n.toNat : ℤ) % 2 ^ 32).toNat = n.toNat := by omega
  rw [hmod, UInt32.ofNat_toNat]

/-- A filter that is negative is lost. -/
theorem toInt_written (n : Int32) :
    (if (if 0 < n then some (QVariant.number n.toInt) else none).isSome then
      QVariant.toInt (if 0 < n then some (.number n.toInt) else none) else 0) = if 0 < n then n else 0 := by
  by_cases h : 0 < n
  · simp only [if_pos h, Option.isSome_some, if_true]
    rw [QVariant.toInt, QVariant.toNumber, Int32.ofInt_toInt]
  · simp only [if_neg h, Option.isSome_none, Bool.false_eq_true, if_false]

/-- The query is read back without its negative filters. -/
theorem fromJSON_toJSON (q : SavedQuery) : fromJSON q.toJSON = { q with
    yearFilter := if 0 < q.yearFilter then q.yearFilter else 0
    monthFilter := if 0 < q.monthFilter then q.monthFilter else 0
    dayFilter := if 0 < q.dayFilter then q.dayFilter else 0 } := by
  obtain ⟨htypes, hlimit, hoffset, hstring, hscopes, hyear, hmonth, hday, hoption, hfolder⟩ := get_toJSON q
  rw [fromJSON]
  simp only [OrdMap.contains, htypes, hlimit, hoffset, hstring, hscopes, hyear, hmonth, hday, hoption, hfolder,
    toStringList_written, toString_written, toInt_written]
  congr 1
  · by_cases h : q.limit = defaultLimit
    · simp [h]
    · simp [h, toUInt_number]
  · by_cases h : q.offset = 0
    · rw [h]
      rfl
    · simp [h, toUInt_number]
  · cases q.sortingOption
    · rfl
    · rfl
  · by_cases h : q.includeFolder = []
    · simp [h]
    · simp [h]

/-! ## Equality -/

theorem equal_self (q : SavedQuery) : q.equal q = true := by
  simp [equal]

theorem positive_or_zero {n : Int32} : (if 0 < n then n else 0) = n ↔ 0 ≤ n := by
  rw [Int32.le_iff_toInt_le]
  by_cases h : 0 < n
  · rw [if_pos h]
    exact ⟨fun _ => (Int32.lt_iff_toInt_lt.mp h).le, fun _ => rfl⟩
  · rw [if_neg h]
    constructor
    · rintro rfl
      exact le_rfl
    · intro hle
      rw [Int32.lt_iff_toInt_lt] at h
      exact Int32.toInt_inj.mp (le_antisymm hle (not_lt.mp h))

/-- **A saved query is read back as what it was**, and compares equal to it, exactly if no filter is negative. -/
theorem saved_query_round_trips : RoundTrips q ↔ 0 ≤ q.yearFilter ∧ 0 ≤ q.monthFilter ∧ 0 ≤ q.dayFilter := by
  rw [RoundTrips, fromJSON_toJSON, ← @positive_or_zero q.yearFilter, ← @positive_or_zero q.monthFilter,
    ← @positive_or_zero q.dayFilter]
  constructor
  · rintro ⟨hsame, -⟩
    exact ⟨congrArg yearFilter hsame, congrArg monthFilter hsame, congrArg dayFilter hsame⟩
  · rintro ⟨hyear, hmonth, hday⟩
    rw [hyear, hmonth, hday]
    exact ⟨rfl, equal_self q⟩

/-- What a search is given of a query. -/
def toQuery (q : SavedQuery) : Search.Query where
  searchString := some q.searchString
  searchScopes := q.searchScopes
  types := q.types.map some
  includeFolder := some q.includeFolder
  yearFilter := q.yearFilter.toInt
  monthFilter := q.monthFilter.toInt
  dayFilter := q.dayFilter.toInt

/-- A search for a date without positive numbers is a search without a date, once it has been saved. -/
theorem filters_fromJSON_toJSON {Date Double : Type} (qt : Search.Platform Date Double) (tr : Search.Lookups Double)
    (hneg : ¬ 0 < q.yearFilter ∧ ¬ 0 < q.monthFilter ∧ ¬ 0 < q.dayFilter)
    (hne : ¬ (q.yearFilter.toInt = 0 ∧ q.monthFilter.toInt = 0 ∧ q.dayFilter.toInt = 0)) :
    Search.filters qt tr q.toQuery =
      Search.filters qt tr (fromJSON q.toJSON).toQuery ++ [Search.constructDateQuery qt tr q.toQuery] := by
  obtain ⟨hyear, hmonth, hday⟩ := hneg
  rw [fromJSON_toJSON, if_neg hyear, if_neg hmonth, if_neg hday]
  have hdate : ¬ (q.toQuery.yearFilter = 0 ∧ q.toQuery.monthFilter = 0 ∧ q.toQuery.dayFilter = 0) := hne
  let saved : Search.Query := toQuery { q with yearFilter := 0, monthFilter := 0, dayFilter := 0 }
  have hsaved : saved.yearFilter = 0 ∧ saved.monthFilter = 0 ∧ saved.dayFilter = 0 := ⟨rfl, rfl, rfl⟩
  show _ = Search.filters qt tr saved ++ _
  rw [Search.filters, if_neg hdate, Search.filters, if_pos hsaved, List.append_nil, List.append_assoc]
  rfl

/-- A filter for a negative year is gone afterwards. -/
theorem negative_year_lost : fromJSON (toJSON { yearFilter := -44 }) = {} ∧ ¬ RoundTrips { yearFilter := -44 } := by
  refine ⟨?_, fun h => ?_⟩
  · rw [fromJSON_toJSON]
    decide
  · have hyear := congrArg yearFilter h.1
    rw [fromJSON_toJSON] at hyear
    exact absurd hyear (by decide)

end SavedQuery

end Baloo
