import Baloo.Lib.MultiMap
import Baloo.Lib.OrdMap
import Baloo.Result
import Mathlib.Order.Lattice

/-!
# Properties as JSON

The properties of a file are stored as a JSON object, with the number of a property as its key. One value is
stored as it is, several values as an array, oldest first; a list becomes an array as well, back to front. When
the object is read, the elements of an array are inserted one after the other, so they come out in the order in
which they were (`property_map_round_trips`).

But what is no array and no number is read as a string. A truth value that is the only one of its property
comes out as the empty string (`flag_lost`), although one of several survives. Nor is there a JSON number for
what is infinite or no number.
-/

namespace Baloo.PropertyData

/-! ## Values -/

/-- `double`, by its bits. -/
structure Double where
  /-- the sign, the exponent and the mantissa -/
  bits : UInt64
  deriving DecidableEq

/-- `qIsFinite`: not all bits of the exponent are set. -/
def Double.isFinite (d : Double) : Bool := d.bits >>> 52 &&& 0x7ff ≠ 0x7ff

/-- `QVariant`, as far as there is JSON for it. -/
inductive Variant where
  /-- `nullptr` -/
  | null
  /-- `QMetaType::Bool` -/
  | bool (b : Bool)
  /-- `QMetaType::Double` -/
  | double (d : Double)
  /-- `QMetaType::QString` -/
  | string (s : List QChar)
  /-- `QMetaType::QVariantList` -/
  | variantList (l : List Variant)
  /-- `QMetaType::QStringList` -/
  | stringList (l : List (List QChar))

/-- `QJsonValue`. -/
inductive JsonValue where
  /-- `QJsonValue::Null` -/
  | null
  /-- `QJsonValue::Bool` -/
  | bool (b : Bool)
  /-- `QJsonValue::Double` -/
  | double (d : Double)
  /-- `QJsonValue::String` -/
  | string (s : List QChar)
  /-- `QJsonValue::Array` -/
  | array (values : List JsonValue)

mutual

/-- `QJsonValue::fromVariant`. There are no infinite numbers. -/
def JsonValue.fromVariant : Variant → JsonValue
  | .null => .null
  | .bool b => .bool b
  | .double d => if d.isFinite then .double d else .null
  | .string s => .string s
  | .variantList l => .array (JsonValue.fromVariantList l)
  | .stringList l => .array (l.map .string)

/-- `QJsonArray::fromVariantList`. -/
def JsonValue.fromVariantList : List Variant → List JsonValue
  | [] => []
  | v :: l => JsonValue.fromVariant v :: JsonValue.fromVariantList l

end

mutual

/-- `QJsonValue::toVariant`. -/
def JsonValue.toVariant : JsonValue → Variant
  | .null => .null
  | .bool b => .bool b
  | .double d => .double d
  | .string s => .string s
  | .array values => .variantList (JsonValue.toVariantList values)

/-- `QJsonArray::toVariantList`. -/
def JsonValue.toVariantList : List JsonValue → List Variant
  | [] => []
  | v :: values => JsonValue.toVariant v :: JsonValue.toVariantList values

end

/-- `QJsonValue::toString`: the empty string, if the value is none. -/
def JsonValue.toString : JsonValue → List QChar
  | .string s => s
  | _ => []

/-! ## Keys -/

/-- `KFileMetaData::Property::Property`, an `int`. -/
abbrev Property : Type := {n : ℤ // -2 ^ 31 ≤ n ∧ n < 2 ^ 31}

/-- `QString::number`. -/
def number (property : Property) : List QChar := latin1String (decimalChars property.1)

/-- A digit. -/
def isDigit (c : QChar) : Bool := 48 ≤ c.toNat ∧ c.toNat ≤ 57

/-- `QString::trimmed`. -/
def trimmed (s : List QChar) : List QChar := ((s.dropWhile isSpace).reverse.dropWhile isSpace).reverse

/-- The digits of a number. -/
def digits (s : List QChar) : Option ℤ :=
  if s ≠ [] ∧ s.all isDigit then some (Nat.ofDigitChars 10 (s.map fun c => Char.ofNat c.toNat) 0 : ℕ) else none

/-- `QString::toInt`. There may be a sign, and whitespace around the number. -/
def toInt (s : List QChar) : Option Property :=
  let s := trimmed s
  let n : Option ℤ :=
    if s.head? = some (latin1Char '-') then (digits s.tail).map fun n => -n
    else if s.head? = some (latin1Char '+') then digits s.tail
    else digits s
  n.bind fun n => if h : -2 ^ 31 ≤ n ∧ n < 2 ^ 31 then some ⟨n, h⟩ else none

/-! ## Writing and reading -/

/-- `KFileMetaData::PropertyMultiMap`. -/
abbrev PropertyMultiMap : Type := MultiMap Property Variant

/-- `QJsonObject`. -/
abbrev JsonObject : Type := OrdMap (List QChar) JsonValue

/-- One round of the loop of `propertyMapToJson`: the values of a key, of which `first` comes first. -/
def rangeToJson (first : Variant) (rest : List Variant) : JsonValue :=
  if rest ≠ [] then
    -- last inserted is first element, earlier elements are prepended
    .array ((first :: rest).reverse.map JsonValue.fromVariant)
  else
    match first with
    | .variantList list => .array (list.reverse.map JsonValue.fromVariant)
    | .stringList list => .array (list.reverse.map .string)
    | value => JsonValue.fromVariant value

/-- The loop of `propertyMapToJson`; a round takes at least one pair. -/
def propertyMapToJsonLoop : ℕ → JsonObject → List (Property × Variant) → JsonObject
  | 0, jsonDict, _ => jsonDict
  | _, jsonDict, [] => jsonDict
  | rounds + 1, jsonDict, (property, first) :: it =>
    let rest := (MultiMap.range property it).map Prod.snd
    propertyMapToJsonLoop rounds (jsonDict.put (number property) (rangeToJson first rest))
      (MultiMap.upperBound property it)

/-- `propertyMapToJson`. -/
def propertyMapToJson (properties : PropertyMultiMap) : JsonObject :=
  propertyMapToJsonLoop properties.entries.length ∅ properties.entries

/-- One round of the loop of `jsonToPropertyMap`. -/
def insertValue (propertyMap : PropertyMultiMap) (e : List QChar × JsonValue) : PropertyMultiMap :=
  match toInt e.1 with
  | none => propertyMap
  | some prop =>
    match e.2 with
    | .array values => values.foldl (fun propertyMap val => propertyMap.insert prop val.toVariant) propertyMap
    | .double d => propertyMap.insert prop (.double d)
    | value => propertyMap.insert prop (.string value.toString)

/-- `jsonToPropertyMap`. -/
def jsonToPropertyMap (properties : JsonObject) : PropertyMultiMap := properties.toList.foldl insertValue ∅

/-! ## Keys are numbers -/

theorem toNat_latin1Char_digit {n : ℕ} {c : Char} (hc : c ∈ Nat.toDigits 10 n) : (latin1Char c).toNat = c.toNat := by
  have hrange := toNat_digit hc
  rw [latin1Char, UInt16.toNat_ofNat', Nat.mod_eq_of_lt (by omega)]

theorem digit_range {n : ℕ} {c : QChar} (hc : c ∈ latin1String (Nat.toDigits 10 n)) :
    48 ≤ c.toNat ∧ c.toNat ≤ 57 := by
  obtain ⟨c', hc', rfl⟩ := List.mem_map.mp hc
  rw [toNat_latin1Char_digit hc']
  exact toNat_digit hc'

theorem digits_number (n : ℕ) : digits (latin1String (Nat.toDigits 10 n)) = some (n : ℤ) := by
  have hdigits : latin1String (Nat.toDigits 10 n) ≠ [] ∧ (latin1String (Nat.toDigits 10 n)).all isDigit = true := by
    refine ⟨fun hnil => Nat.toDigits_ne_nil (List.map_eq_nil_iff.mp hnil), List.all_eq_true.mpr fun c hc => ?_⟩
    exact decide_eq_true (digit_range hc)
  have hsame : (latin1String (Nat.toDigits 10 n)).map (fun c => Char.ofNat c.toNat) = Nat.toDigits 10 n := by
    rw [latin1String, List.map_map]
    refine (List.map_congr_left fun c hc => ?_).trans (List.map_id _)
    rw [Function.comp_apply, toNat_latin1Char_digit hc, Char.ofNat_toNat, id]
  rw [digits, if_pos hdigits, hsame, Nat.ofDigitChars_toDigits (by decide) (by decide)]

/-- Where there is no whitespace nothing is trimmed. -/
theorem trimmed_eq {s : List QChar} (h : ∀ c ∈ s, isSpace c = false) : trimmed s = s := by
  have hdrop : ∀ t : List QChar, (∀ c ∈ t, isSpace c = false) → t.dropWhile isSpace = t := by
    intro t ht
    cases t with
    | nil => rfl
    | cons c t => rw [List.dropWhile_cons_of_neg (by simp [ht c List.mem_cons_self])]
  rw [trimmed, hdrop s h, hdrop s.reverse fun c hc => h c (List.mem_reverse.mp hc), List.reverse_reverse]

/-- Between the minus sign and the last digit there is no whitespace. -/
theorem isSpace_eq_false {c : QChar} (hc : 45 ≤ c.toNat ∧ c.toNat ≤ 57) : isSpace c = false := by
  rw [isSpace, decide_eq_false_iff_not]
  simp only [UInt16.le_iff_toNat_le, UInt16.toNat_inj.symm]
  have hvalues : (0x20 : UInt16).toNat = 32 ∧ (0x0d : UInt16).toNat = 13 ∧ (0x85 : UInt16).toNat = 133 ∧
      (0xa0 : UInt16).toNat = 160 ∧ (0x1680 : UInt16).toNat = 5760 ∧ (0x2000 : UInt16).toNat = 8192 ∧
      (0x2028 : UInt16).toNat = 8232 ∧ (0x2029 : UInt16).toNat = 8233 ∧ (0x202f : UInt16).toNat = 8239 ∧
      (0x205f : UInt16).toNat = 8287 ∧ (0x3000 : UInt16).toNat = 12288 := by decide
  omega

theorem toNat_minus : (latin1Char '-').toNat = 45 := by decide

theorem trimmed_number (property : Property) : trimmed (number property) = number property := by
  refine trimmed_eq fun c hc => isSpace_eq_false ?_
  rw [number, decimalChars] at hc
  split at hc
  · rw [latin1String, List.map_cons, List.mem_cons] at hc
    rcases hc with rfl | hc
    · rw [toNat_minus]
      omega
    · have hrange := digit_range hc
      omega
  · have hrange := digit_range hc
    omega

/-- **The text of a number is read as this number.** -/
theorem toInt_number (property : Property) : toInt (number property) = some property := by
  have hparse := digits_number property.1.natAbs
  have hrange := property.2
  rw [toInt, trimmed_number, number, decimalChars]
  split
  · next hneg =>
    have hn : -(property.1.natAbs : ℤ) = property.1 := by omega
    rw [latin1String, List.map_cons, if_pos List.head?_cons, List.tail_cons]
    change (((digits (latin1String (Nat.toDigits 10 property.1.natAbs))).map _).bind _) = _
    rw [hparse, Option.map_some, Option.bind_some, hn, dif_pos hrange]
  · next hpos =>
    have hsign : ∀ c : QChar, c.toNat < 48 → (latin1String (Nat.toDigits 10 property.1.natAbs)).head? ≠ some c := by
      intro c hc hhead
      have hrange := digit_range (List.mem_of_mem_head? hhead)
      omega
    have hn : (property.1.natAbs : ℤ) = property.1 := by omega
    rw [if_neg (hsign _ (by decide)), if_neg (hsign _ (by decide)), hparse, Option.bind_some, hn, dif_pos hrange]

theorem number_injective {p q : Property} (h : number p = number q) : p = q := by
  have hsame := toInt_number p
  rw [h, toInt_number] at hsame
  exact (Option.some.inj hsame).symm

/-! ## What is written and what is read -/

section

variable {p : Property}

/-- What the values of a property become. -/
def valuesToJson : List Variant → Option JsonValue
  | [] => none
  | first :: rest => some (rangeToJson first rest)

theorem get_propertyMapToJsonLoop {rounds : ℕ} {it : List (Property × Variant)}
    (h : it.Pairwise fun a b => a.1 ≤ b.1) (hrounds : it.length ≤ rounds) (jsonDict : JsonObject) :
    (propertyMapToJsonLoop rounds jsonDict it).get (number p) =
      (valuesToJson (MultiMap.valuesOf p it)).or (jsonDict.get (number p)) := by
  induction rounds generalizing it jsonDict with
  | zero =>
    obtain rfl := List.eq_nil_of_length_eq_zero (Nat.le_zero.mp hrounds)
    rfl
  | succ rounds ih =>
    rcases it with _ | ⟨⟨q, first⟩, it⟩
    · rfl
    · have hlength := MultiMap.length_upperBound_le q it
      rw [List.length_cons] at hrounds
      rw [propertyMapToJsonLoop, ih (MultiMap.sorted_upperBound h) (by omega), OrdMap.get_put]
      by_cases hp : p = q
      · subst hp
        have hnone : MultiMap.valuesOf p (MultiMap.upperBound p it) = [] :=
          MultiMap.valuesOf_eq_nil fun e he =>
            (MultiMap.lt_of_mem_upperBound (List.pairwise_cons.mp h).2 he).ne'
        rw [hnone, MultiMap.values_range h, if_pos rfl]
        rfl
      · rw [MultiMap.values_after h hp, if_neg fun heq => hp (number_injective heq)]

/-- The object has for every property what its values become. -/
theorem get_propertyMapToJson (m : PropertyMultiMap) :
    (propertyMapToJson m).get (number p) = valuesToJson (m.values p) := by
  have hempty : (∅ : JsonObject).get (number p) = none := OrdMap.get_empty _
  rw [propertyMapToJson, get_propertyMapToJsonLoop m.sorted (le_refl _), hempty, Option.or_none, MultiMap.values]

/-- The keys of the object are numbers. -/
theorem exists_number {m : PropertyMultiMap} {key : List QChar} {value : JsonValue}
    (h : (propertyMapToJson m).get key = some value) : ∃ q, key = number q := by
  have hloop : ∀ (rounds : ℕ) (it : List (Property × Variant)) (jsonDict : JsonObject),
      (∀ key value, jsonDict.get key = some value → ∃ q, key = number q) →
      ∀ key value, (propertyMapToJsonLoop rounds jsonDict it).get key = some value → ∃ q, key = number q := by
    intro rounds
    induction rounds with
    | zero => exact fun it jsonDict hdict => hdict
    | succ rounds ih =>
      rintro (_ | ⟨⟨q, first⟩, it⟩) jsonDict hdict
      · exact hdict
      · refine ih _ _ fun key value hget => ?_
        rw [OrdMap.get_put] at hget
        split at hget
        · next heq => exact ⟨q, heq⟩
        · exact hdict key value hget
  refine hloop _ _ _ (fun key value hget => ?_) key value h
  rw [OrdMap.get_empty] at hget
  cases hget

/-- The values that are inserted for a JSON value, one after the other. -/
def inserted : JsonValue → List Variant
  | .array values => values.map JsonValue.toVariant
  | .double d => [.double d]
  | value => [.string value.toString]

theorem values_insertValue (m : PropertyMultiMap) (e : List QChar × JsonValue) :
    (insertValue m e).values p = (if toInt e.1 = some p then (inserted e.2).reverse else []) ++ m.values p := by
  rw [insertValue]
  rcases toInt e.1 with _ | q
  · rfl
  · have hall : ∀ vs, (m.insertAll q vs).values p = (if some q = some p then vs.reverse else []) ++ m.values p := by
      intro vs
      rw [MultiMap.values_insertAll]
      by_cases hq : q = p <;> simp [hq]
    rcases e.2 with _ | b | d | s | values
    · exact hall [.string []]
    · exact hall [.string []]
    · exact hall [.double d]
    · exact hall [.string s]
    · have hfold := hall (values.map JsonValue.toVariant)
      rw [MultiMap.insertAll, List.foldl_map] at hfold
      exact hfold

theorem values_foldl_insertValue (l : List (List QChar × JsonValue)) (m : PropertyMultiMap) :
    (l.foldl insertValue m).values p =
      ((l.filter fun e => toInt e.1 = some p).flatMap fun e => inserted e.2).reverse ++ m.values p := by
  induction l generalizing m with
  | nil => rfl
  | cons e l ih =>
    rw [List.foldl_cons, ih, values_insertValue]
    by_cases he : toInt e.1 = some p <;> simp [he]

/-- Reading gives every property what has been inserted for its key. -/
theorem values_jsonToPropertyMap (m : PropertyMultiMap) :
    (jsonToPropertyMap (propertyMapToJson m)).values p =
      (((valuesToJson (m.values p)).map inserted).getD []).reverse := by
  have hkeys : ((propertyMapToJson m).toList.filter fun e => toInt e.1 = some p) =
      (propertyMapToJson m).toList.filter (·.1 = number p) := by
    refine List.filter_congr fun e he => ?_
    obtain ⟨q, hq⟩ := exists_number (OrdMap.mem_toList.mp he)
    rw [hq, toInt_number, decide_eq_decide]
    exact ⟨fun h => congrArg number (Option.some.inj h), fun h => congrArg some (number_injective h)⟩
  rw [jsonToPropertyMap, values_foldl_insertValue, hkeys, OrdMap.filter_toList, get_propertyMapToJson]
  rcases valuesToJson (m.values p) with _ | value <;> simp

end

/-! ## The round trip -/

/-- A string, a number or a truth value. -/
def Variant.IsPlain : Variant → Prop
  | .bool _ => True
  | .double _ => True
  | .string _ => True
  | _ => False

/-- No infinite number, and not `NaN`. -/
def Variant.IsFinite : Variant → Prop
  | .double d => d.isFinite = true
  | _ => True

/-- The values that a property should have after the round trip: if it has a list, the elements of the list. -/
def expected : List Variant → List Variant
  | [.variantList l] => l
  | [.stringList l] => l.map .string
  | values => values

/-- Strings, numbers and truth values, or a list of them. -/
structure Admissible (values : List Variant) : Prop where
  /-- a list is the only value -/
  alone : (∀ v ∈ values, v.IsPlain) ∨ (∃ l, values = [.variantList l]) ∨ ∃ l, values = [.stringList l]
  /-- the values, or the elements of the list -/
  plain : ∀ v ∈ expected values, v.IsPlain

/-- Every property has its values, in order. -/
def RoundTrips (m : PropertyMultiMap) : Prop :=
  ∀ p, (jsonToPropertyMap (propertyMapToJson m)).values p = expected (m.values p)

/-- All numbers are finite, and no truth value is the only value of its property. -/
structure Preserved (values : List Variant) : Prop where
  /-- the numbers -/
  finite : ∀ v ∈ expected values, v.IsFinite
  /-- the truth values -/
  flag : ∀ b, values ≠ [.bool b]

/-- A value in an array survives if it is finite. -/
theorem toVariant_fromVariant {v : Variant} (h : v.IsPlain) :
    (JsonValue.fromVariant v).toVariant = v ↔ v.IsFinite := by
  cases v with
  | null => exact h.elim
  | bool b => simp [JsonValue.fromVariant, JsonValue.toVariant, Variant.IsFinite]
  | double d =>
    rw [JsonValue.fromVariant, Variant.IsFinite]
    split
    · next hfinite => simp [JsonValue.toVariant, hfinite]
    · next hfinite => simp [JsonValue.toVariant, hfinite]
  | string s => simp [JsonValue.fromVariant, JsonValue.toVariant, Variant.IsFinite]
  | variantList l => exact h.elim
  | stringList l => exact h.elim

/-- Values in an array come out in the opposite order. -/
theorem inserted_array {values : List Variant} (h : ∀ v ∈ values, v.IsPlain) :
    (inserted (.array (values.reverse.map JsonValue.fromVariant))).reverse = values ↔ ∀ v ∈ values, v.IsFinite := by
  rw [inserted, List.map_map, ← List.map_reverse, List.reverse_reverse]
  conv_lhs => rw [← List.map_id values, List.map_map]
  rw [List.map_inj_left]
  exact forall₂_congr fun v hv => toVariant_fromVariant (h v hv)

/-- What comes out for the values of one property. -/
theorem inserted_valuesToJson {values : List Variant} (h : Admissible values) :
    (((valuesToJson values).map inserted).getD []).reverse = expected values ↔ Preserved values := by
  have hflag : (∀ b, values ≠ [.bool b]) → (Preserved values ↔ ∀ v ∈ expected values, v.IsFinite) :=
    fun hnot => ⟨Preserved.finite, fun hfinite => ⟨hfinite, hnot⟩⟩
  rcases values with _ | ⟨first, _ | ⟨second, rest⟩⟩
  · rw [hflag (by simp)]
    simp [valuesToJson, expected]
  · cases first with
    | null => exact (h.plain .null List.mem_cons_self).elim
    | bool b =>
      refine ⟨fun hsame => ?_, fun hpreserved => absurd rfl (hpreserved.flag b)⟩
      simp [valuesToJson, rangeToJson, JsonValue.fromVariant, inserted, expected] at hsame
    | double d =>
      rw [hflag (by simp)]
      rcases hfinite : d.isFinite with _ | _ <;>
        simp [valuesToJson, rangeToJson, JsonValue.fromVariant, inserted, expected, hfinite, Variant.IsFinite]
    | string s =>
      rw [hflag (by simp)]
      simp [valuesToJson, rangeToJson, JsonValue.fromVariant, inserted, expected, JsonValue.toString, Variant.IsFinite]
    | variantList l =>
      rw [hflag (by simp)]
      exact inserted_array h.plain
    | stringList l =>
      rw [hflag (by simp)]
      have harray := inserted_array h.plain
      have hstrings : l.reverse.map JsonValue.string =
          (l.map Variant.string).reverse.map JsonValue.fromVariant := by
        rw [← List.map_reverse, List.map_map]
        exact List.map_congr_left fun s _ => (JsonValue.fromVariant.eq_def (.string s)).symm
      rw [expected, ← hstrings] at harray
      exact harray
  · have hall : expected (first :: second :: rest) = first :: second :: rest := by cases first <;> rfl
    have harray := inserted_array h.plain
    rw [hflag (by simp)]
    rw [hall] at harray ⊢
    exact harray

/-- **The properties survive being written and read** exactly if all numbers are finite and no property has a truth
value as its only value. -/
theorem property_map_round_trips {m : PropertyMultiMap} (h : ∀ p, Admissible (m.values p)) :
    RoundTrips m ↔ ∀ p, Preserved (m.values p) := by
  refine forall_congr' fun p => ?_
  rw [values_jsonToPropertyMap]
  exact inserted_valuesToJson (h p)

/-- Two numbers and a truth value of one property, and a list of another. -/
def several : PropertyMultiMap :=
  (((∅ : PropertyMultiMap).insert ⟨3, by decide⟩ (.double ⟨0x3ff0000000000000⟩)).insert ⟨3, by decide⟩
    (.bool true)).insert ⟨7, by decide⟩ (.variantList [.bool false, .string (latin1String "a".toList)])

theorem values_several (p : Property) : several.values p = [] ∨
    several.values p = [.bool true, .double ⟨0x3ff0000000000000⟩] ∨
      several.values p = [.variantList [.bool false, .string (latin1String "a".toList)]] := by
  simp only [several, MultiMap.values_insert, MultiMap.values_empty]
  split_ifs with h7 h3 h3
  · exact absurd (h3.trans h7.symm) (by decide)
  · exact .inr (.inr rfl)
  · exact .inr (.inl rfl)
  · exact .inl rfl

theorem property_map_round_trips_several : RoundTrips several := by
  refine (property_map_round_trips fun p => ?_).mpr fun p => ?_
  · rcases values_several p with h | h | h <;> rw [h]
    · exact ⟨.inl fun v hv => absurd hv List.not_mem_nil, fun v hv => absurd hv List.not_mem_nil⟩
    · exact ⟨.inl (by simp [Variant.IsPlain]), by simp [expected, Variant.IsPlain]⟩
    · exact ⟨.inr (.inl ⟨_, rfl⟩), by simp [expected, Variant.IsPlain]⟩
  · rcases values_several p with h | h | h <;> rw [h]
    · exact ⟨fun v hv => absurd hv List.not_mem_nil, by simp⟩
    · refine ⟨fun v hv => ?_, by simp⟩
      rcases List.mem_cons.mp hv with rfl | hv
      · trivial
      · rw [List.mem_singleton.mp hv]
        exact rfl
    · exact ⟨by simp [expected, Variant.IsFinite], by simp⟩

/-- A truth value that is the only value of its property. -/
def flag : PropertyMultiMap := (∅ : PropertyMultiMap).insert ⟨3, by decide⟩ (.bool true)

/-- It comes out as the empty string. -/
theorem flag_lost : ¬ ∀ m : PropertyMultiMap, (∀ p, Admissible (m.values p)) → RoundTrips m := by
  intro h
  have hvalues : ∀ p, flag.values p = if ⟨3, by decide⟩ = p then [.bool true] else [] :=
    fun p => MultiMap.values_insert _ _ _
  have hround := h flag fun p => by
    rw [hvalues]
    split
    · exact ⟨.inl (by simp [Variant.IsPlain]), by simp [expected, Variant.IsPlain]⟩
    · exact ⟨.inl fun v hv => absurd hv List.not_mem_nil, fun v hv => absurd hv List.not_mem_nil⟩
  have hsame := hround ⟨3, by decide⟩
  rw [values_jsonToPropertyMap, hvalues, if_pos rfl] at hsame
  simp [valuesToJson, rangeToJson, JsonValue.fromVariant, inserted, expected] at hsame

end Baloo.PropertyData
