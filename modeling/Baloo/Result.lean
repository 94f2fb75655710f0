import Baloo.SearchStore
import Baloo.TermGenerator

/-!
# The result of an extractor

An extractor adds the properties and the texts of a file to a `Result`, and `finish` makes terms of
them. The terms of a property start with `X`, its number and `-`, and no such prefix is the beginning
of another (`eq_of_prefix`). Dates and 32-bit integers are written as they are, every other value is
split as a text. So of a 64-bit integer that is negative only the digits remain.
-/

namespace Baloo

open Search (ascii number)

/-! ## Numbers -/

/-- The characters of `QString::number`. -/
def decimalChars (n : ℤ) : List Char :=
  if n < 0 then '-' :: Nat.toDigits 10 n.natAbs else Nat.toDigits 10 n.natAbs

/-- The bytes of an integer. -/
def decimal (n : ℤ) : QByteArray := ascii (decimalChars n)

/-- The number of its digits. -/
def ofDigits (s : QByteArray) : ℕ := Nat.ofDigitChars 10 (s.map fun b => Char.ofNat b.toNat) 0

theorem toNat_digit {n : ℕ} {c : Char} (hc : c ∈ Nat.toDigits 10 n) : 48 ≤ c.toNat ∧ c.toNat ≤ 57 := by
  have h := Nat.isDigit_of_mem_toDigits (by omega) (le_refl 10) hc
  simpa [Char.isDigit, UInt32.le_iff_toNat_le] using h

theorem digit_range {n : ℕ} {b : UInt8} (hb : b ∈ number n) : 48 ≤ b.toNat ∧ b.toNat ≤ 57 := by
  obtain ⟨c, hc, rfl⟩ := List.mem_map.mp hb
  have hdigit := toNat_digit hc
  rw [UInt8.toNat_ofNat', Nat.mod_eq_of_lt (by omega)]
  exact hdigit

theorem ofDigits_number (n : ℕ) : ofDigits (number n) = n := by
  have hchar : ∀ c ∈ Nat.toDigits 10 n, Char.ofNat (UInt8.ofNat c.toNat).toNat = c := by
    intro c hc
    have hdigit := toNat_digit hc
    rw [UInt8.toNat_ofNat', Nat.mod_eq_of_lt (by omega), Char.ofNat_toNat]
  have hback : (number n).map (fun b => Char.ofNat b.toNat) = Nat.toDigits 10 n := by
    rw [number, ascii, List.map_map]
    exact (List.map_congr_left hchar).trans (List.map_id _)
  rw [ofDigits, hback, Nat.ofDigitChars_ten_toDigits]

theorem number_injective {m n : ℕ} (h : number m = number n) : m = n := by
  rw [← ofDigits_number m, h, ofDigits_number]

theorem number_ne_nil (n : ℕ) : number n ≠ [] := by
  simp [number, ascii, Nat.toDigits_ne_nil]

theorem decimal_of_nonneg {n : ℤ} (h : 0 ≤ n) : decimal n = number n.natAbs := by
  rw [decimal, decimalChars, if_neg (not_lt.mpr h), number]

theorem decimal_of_neg {n : ℤ} (h : n < 0) : decimal n = 45 :: number n.natAbs := by
  rw [decimal, decimalChars, if_pos h, number]
  rfl

/-- The minus sign is no digit. -/
theorem minus_notMem (n : ℕ) : (45 : UInt8) ∉ number n := by
  intro h
  have hrange := (digit_range h).1
  simp at hrange

theorem decimal_injective {m n : ℤ} (h : decimal m = decimal n) : m = n := by
  have hminus : ∀ (k : ℕ) (rest : QByteArray), number k ≠ 45 :: rest := fun k rest heq =>
    minus_notMem k (heq ▸ List.mem_cons_self)
  rcases lt_or_ge m 0 with hm | hm
  · rcases lt_or_ge n 0 with hn | hn
    · rw [decimal_of_neg hm, decimal_of_neg hn] at h
      have habs := number_injective (List.cons.inj h).2
      omega
    · rw [decimal_of_neg hm, decimal_of_nonneg hn] at h
      exact absurd h.symm (hminus _ _)
  · rcases lt_or_ge n 0 with hn | hn
    · rw [decimal_of_nonneg hm, decimal_of_neg hn] at h
      exact absurd h (hminus _ _)
    · rw [decimal_of_nonneg hm, decimal_of_nonneg hn] at h
      have habs := number_injective h
      omega

/-! ## Properties -/

/-- `QVariant`, as far as it is asked for its type. -/
inductive QVariant where
  /-- `QMetaType::Bool` -/
  | bool (b : Bool)
  /-- `QMetaType::Int` and `QMetaType::UInt` -/
  | int (n : ℤ)
  /-- `QMetaType::LongLong` and `QMetaType::ULongLong` -/
  | longLong (n : ℤ)
  /-- `QMetaType::QDate`, by its text in ISO format -/
  | date (iso : QByteArray)
  /-- `QMetaType::QDateTime`, by its text in ISO format -/
  | dateTime (iso : QByteArray)
  /-- `QMetaType::QString` -/
  | string (s : List QChar)
  deriving DecidableEq

/-- `KFileMetaData::PropertyMultiMap`: the values with the numbers of their properties. -/
abbrev PropertyMultiMap : Type := List (ℕ × QVariant)

/-- The prefix of the terms of a property. -/
def propertyPrefix (property : ℕ) : QByteArray := ascii ['X'] ++ number property ++ ascii ['-']

/-- `QVariant::toString` of a value that is split as a text. -/
def QVariant.text : QVariant → List QChar
  | .longLong n => latin1String (decimalChars n)
  | .string s => s
  | _ => []

/-- The terms of a value. -/
def QVariant.terms (termList : List QChar → List Term) (pre : QByteArray) : QVariant → List Term
  | .bool _ => [pre]
  | .int n => [pre ++ decimal n]
  | .date iso => [pre ++ iso]
  | .dateTime iso => [pre ++ iso]
  | value => if value.text = [] then [] else (termList value.text).map (pre ++ ·)

variable (tokens : Tokenizer)

/-- The body of the loop of `indexProperties`. -/
def indexValue (pre : QByteArray) (termGen : TermGenerator) : QVariant → TermGenerator
  | .bool _ => { termGen with doc := termGen.doc.addTerm pre }
  | .int n => { termGen with doc := termGen.doc.addTerm (pre ++ decimal n) }
  | .date iso => { termGen with doc := termGen.doc.addTerm (pre ++ iso) }
  | .dateTime iso => { termGen with doc := termGen.doc.addTerm (pre ++ iso) }
  | value =>
    let val := value.text
    if val = [] then termGen else termGen.indexProperty tokens val pre

/-- `indexProperties`. -/
def indexProperties (termGen : TermGenerator) (properties : PropertyMultiMap) : TermGenerator :=
  properties.foldl (fun termGen e => indexValue tokens (propertyPrefix e.1) termGen e.2) termGen

/-- `indexText`. -/
def indexText (termGen : TermGenerator) (text : List (List QChar)) : TermGenerator :=
  text.foldl (fun termGen block => termGen.indexText tokens block) termGen

/-- `Result`. -/
structure Result where
  /-- `m_doc` -/
  doc : Document
  /-- `m_map` -/
  map : PropertyMultiMap := []
  /-- `m_text` -/
  text : List (List QChar) := []

/-- `Result::finish`; `json` is the serialized object with the properties and the mimetype. -/
def Result.finish (json : PropertyMultiMap → QByteArray) (r : Result) : Document :=
  let doc := { r.doc with data := json r.map }
  let termGen := indexProperties tokens { doc } r.map
  (indexText tokens termGen r.text).doc

/-! ## The terms of a result -/

/-- A property is known by the beginning of a term. -/
theorem eq_of_prefix {p q : ℕ} {rest : QByteArray} (h : propertyPrefix p <+: propertyPrefix q ++ rest) : p = q := by
  obtain ⟨s, hs⟩ := h
  have hdigits : ∀ (n : ℕ) (s : QByteArray),
      (number n ++ 45 :: s).takeWhile (fun b => decide (b ≠ 45)) = number n := by
    intro n s
    rw [List.takeWhile_append_of_pos, List.takeWhile_cons_of_neg (by simp), List.append_nil]
    intro b hb
    rw [decide_eq_true_iff]
    rintro rfl
    exact minus_notMem n hb
  have hcons : number p ++ 45 :: s = number q ++ 45 :: rest := by
    simpa [propertyPrefix, ascii] using hs
  have htake := congrArg (List.takeWhile fun b => decide (b ≠ 45)) hcons
  rw [hdigits, hdigits] at htake
  exact number_injective htake

variable {tokens} {t : Term}

/-- A value adds its terms. -/
theorem indexValue_eq (pre : QByteArray) (termGen : TermGenerator) (value : QVariant) :
    indexValue tokens pre termGen value = { termGen with
      doc := { termGen.doc with
        terms := (value.terms tokens.termList pre).foldl Document.touch termGen.doc.terms } } := by
  have htext : ∀ val : List QChar, (if val = [] then termGen else termGen.indexProperty tokens val pre) =
      { termGen with
        doc := { termGen.doc with
          terms := (if val = [] then [] else (tokens.termList val).map (pre ++ ·)).foldl Document.touch
            termGen.doc.terms } } := by
    intro val
    split
    · rfl
    · rw [TermGenerator.indexProperty, foldl_addTerm]
  cases value with
  | longLong n => exact htext _
  | string s => exact htext s
  | _ => rfl

/-- The terms of a property list. -/
def propertyTerms (termList : List QChar → List Term) (map : PropertyMultiMap) : List Term :=
  map.flatMap fun e => e.2.terms termList (propertyPrefix e.1)

theorem indexProperties_eq (termGen : TermGenerator) (map : PropertyMultiMap) :
    indexProperties tokens termGen map = { termGen with
      doc := { termGen.doc with
        terms := (propertyTerms tokens.termList map).foldl Document.touch termGen.doc.terms } } := by
  induction map generalizing termGen with
  | nil => rfl
  | cons e map ih =>
    rw [indexProperties, List.foldl_cons, ← indexProperties, ih, indexValue_eq]
    simp only [propertyTerms, List.flatMap_cons, List.foldl_append]

/-- The running text adds no other terms. -/
theorem get_indexText (termGen : TermGenerator) (text : List (List QChar))
    (ht : ∀ block ∈ text, t ∉ tokens.termList block) :
    (indexText tokens termGen text).doc.terms.get t = termGen.doc.terms.get t := by
  have hblock : ∀ (terms : List Term) (tg : TermGenerator), t ∉ terms →
      (terms.foldl (fun tg term =>
        ({ doc := tg.doc.addPositionTerm term tg.position, position := tg.position + 1 } : TermGenerator))
        tg).doc.terms.get t = tg.doc.terms.get t := by
    intro terms
    induction terms with
    | nil => exact fun _ _ => rfl
    | cons term terms ih =>
      intro tg hmem
      rw [List.mem_cons, not_or] at hmem
      rw [List.foldl_cons, ih _ hmem.2]
      exact (OrdMap.get_put ..).trans (if_neg hmem.1)
  induction text generalizing termGen with
  | nil => rfl
  | cons block text ih =>
    rw [List.forall_mem_cons] at ht
    rw [indexText, List.foldl_cons, ← indexText, ih _ ht.2]
    exact hblock _ _ ht.1

/-- The running text adds its terms. -/
theorem contains_indexText (termGen : TermGenerator) (text : List (List QChar)) :
    (indexText tokens termGen text).doc.terms.contains t = true ↔
      termGen.doc.terms.contains t = true ∨ ∃ block ∈ text, t ∈ tokens.termList block := by
  have hblock : ∀ (terms : List Term) (tg : TermGenerator), (terms.foldl (fun tg term =>
      ({ doc := tg.doc.addPositionTerm term tg.position, position := tg.position + 1 } : TermGenerator))
      tg).doc.terms.contains t = true ↔ tg.doc.terms.contains t = true ∨ t ∈ terms := by
    intro terms
    induction terms with
    | nil => simp
    | cons term terms ih =>
      intro tg
      have hadd : (tg.doc.addPositionTerm term tg.position).terms.contains t = true ↔
          t = term ∨ tg.doc.terms.contains t = true := by
        simp [Document.addPositionTerm, Document.appendPosition]
      rw [List.foldl_cons, ih, hadd, List.mem_cons]
      tauto
  induction text generalizing termGen with
  | nil => simp [indexText]
  | cons block text ih =>
    rw [List.exists_mem_cons_iff, ← or_assoc]
    exact (ih _).trans (or_congr_left (hblock _ _))

/-- Adding terms gives none of them positions. -/
theorem get_foldl_touch (list : List Term) (terms : OrdMap Term TermData) :
    (list.foldl Document.touch terms).get t =
      if t ∈ list ∧ terms.contains t = false then some {} else terms.get t := by
  induction list generalizing terms with
  | nil => simp
  | cons term list ih =>
    rw [List.foldl_cons, ih, Document.touch]
    by_cases hterm : terms.contains term = true
    · rw [if_pos hterm]
      by_cases heq : t = term
      · subst heq
        simp [hterm]
      · simp [heq]
    · rw [if_neg hterm]
      by_cases heq : t = term
      · subst heq
        simp [hterm]
      · simp [heq]

variable {json : PropertyMultiMap → QByteArray} {r : Result}

/-- **A term that neither the document nor the text has** comes from a property, without positions. -/
theorem get_finish (hdoc : r.doc.terms.contains t = false) (htext : ∀ block ∈ r.text, t ∉ tokens.termList block) :
    (r.finish tokens json).terms.get t = if t ∈ propertyTerms tokens.termList r.map then some {} else none := by
  have hnone : r.doc.terms.get t = none := by
    rwa [OrdMap.contains, Option.isSome_eq_false_iff, Option.isNone_iff_eq_none] at hdoc
  rw [Result.finish, get_indexText _ _ htext, indexProperties_eq]
  simp [get_foldl_touch, hdoc, hnone]

/-- Running text changes nothing but the terms. -/
theorem indexText_frame (tokens : Tokenizer) (text : List (List QChar)) (tg : TermGenerator) :
    ∃ terms, (indexText tokens tg text).doc = { tg.doc with terms := terms } := by
  have hblock : ∀ (list : List Term) (tg : TermGenerator), ∃ terms, (list.foldl (fun tg term =>
      ({ doc := tg.doc.addPositionTerm term tg.position, position := tg.position + 1 } : TermGenerator)) tg).doc =
        { tg.doc with terms := terms } := by
    intro list
    induction list with
    | nil => exact fun tg => ⟨tg.doc.terms, rfl⟩
    | cons term list ih =>
      intro tg
      obtain ⟨terms, hterms⟩ := ih { doc := tg.doc.addPositionTerm term tg.position, position := tg.position + 1 }
      exact ⟨terms, hterms⟩
  induction text generalizing tg with
  | nil => exact ⟨tg.doc.terms, rfl⟩
  | cons block text ih =>
    obtain ⟨terms, hterms⟩ := ih (tg.indexText tokens block)
    obtain ⟨terms', hterms'⟩ := hblock (tokens.termList block) tg
    refine ⟨terms, hterms.trans ?_⟩
    rw [TermGenerator.indexText, hterms']

/-- Nothing but the terms and the data is changed. -/
theorem finish_frame (tokens : Tokenizer) (json : PropertyMultiMap → QByteArray) (r : Result) :
    ∃ terms, r.finish tokens json = { r.doc with data := json r.map, terms := terms } := by
  rw [Result.finish, indexProperties_eq]
  exact indexText_frame tokens r.text _

/-- The terms of a result come from the document, from the properties and from the text. -/
theorem contains_finish : (r.finish tokens json).terms.contains t = true ↔ r.doc.terms.contains t = true ∨
    t ∈ propertyTerms tokens.termList r.map ∨ ∃ block ∈ r.text, t ∈ tokens.termList block := by
  rw [Result.finish, contains_indexText, indexProperties_eq]
  simp only [contains_foldl_touch]
  tauto

/-- The terms of one property are those of its values. -/
theorem mem_propertyTerms {p : ℕ} {rest : QByteArray} {termList : List QChar → List Term} {map : PropertyMultiMap} :
    propertyPrefix p ++ rest ∈ propertyTerms termList map ↔
      ∃ value, (p, value) ∈ map ∧ propertyPrefix p ++ rest ∈ value.terms termList (propertyPrefix p) := by
  have hstarts : ∀ (q : ℕ) (value : QVariant), ∀ t ∈ value.terms termList (propertyPrefix q),
      propertyPrefix q <+: t := by
    intro q value t ht
    have hsplit : ∀ val : List QChar, t ∈ (if val = [] then [] else (termList val).map (propertyPrefix q ++ ·)) →
        propertyPrefix q <+: t := by
      intro val hmem
      split at hmem
      · cases hmem
      · obtain ⟨_, -, rfl⟩ := List.mem_map.mp hmem
        exact List.prefix_append _ _
    cases value with
    | longLong n => exact hsplit _ ht
    | string s => exact hsplit s ht
    | bool b =>
      obtain rfl := List.mem_singleton.mp ht
      exact List.prefix_refl _
    | _ =>
      obtain rfl := List.mem_singleton.mp ht
      exact List.prefix_append _ _
  rw [propertyTerms, List.mem_flatMap]
  constructor
  · rintro ⟨⟨q, value⟩, hmem, ht⟩
    obtain rfl := eq_of_prefix (hstarts q value _ ht)
    exact ⟨value, hmem, ht⟩
  · rintro ⟨value, hmem, ht⟩
    exact ⟨(p, value), hmem, ht⟩

end Baloo
