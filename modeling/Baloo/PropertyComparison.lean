import Baloo.Result
import Baloo.SearchDenotation
import Baloo.TextQueries
import Baloo.Transactions
import Mathlib.Data.FinEnum

/-!
# Comparing properties

A term such as `width > 100` runs through one of three mechanisms. `=` looks for the terms of the text of
the value; an integer is compared with the numbers that the terms of the property read as, a strict
comparison being one with the next integer; a date-time is compared with the terms as byte strings.

They do not agree. The minus sign is no part of a term of the text, `<` and `>` have no next integer at the
limits and none at all for date-times, and the term of a 64-bit integer has lost its sign (`Misread`).
The documents that are found are the right ones exactly if no document depends on a value that is
misread (`comparison_iff`).
-/

namespace Baloo

/-! ## Reading the tables -/

/-- What Qt reads in byte arrays. -/
structure ByteNumbers (Double : Type) where
  /-- `QByteArray::toLongLong` -/
  toLongLong : QByteArray → Option ℤ
  /-- it reads 64-bit integers -/
  toLongLong_decimal : ∀ n, toLongLong (decimal n) = if -2 ^ 63 ≤ n ∧ n < 2 ^ 63 then some n else none
  /-- `QByteArray::toDouble` -/
  toDouble : QByteArray → Option Double
  /-- `<=` -/
  doubleLe : Double → Double → Bool

section

open Search (CompValue PostingComparator)

variable {Double : Type} (numbers : ByteNumbers Double)

/-- The validators of the three `PostingDB::compIter`. -/
def compares : CompValue Double → PostingComparator → QByteArray → Bool
  | .int comVal, com, arr =>
    match numbers.toLongLong arr, com with
    | none, _ => false
    | some val, .lessEqual => val ≤ comVal
    | some val, .greaterEqual => comVal ≤ val
  | .double comVal, com, arr =>
    match numbers.toDouble arr, com with
    | none, _ => false
    | some val, .lessEqual => numbers.doubleLe val comVal
    | some val, .greaterEqual => numbers.doubleLe comVal val
  | .bytes comVal, .lessEqual, arr => arr ≤ comVal
  | .bytes comVal, .greaterEqual, arr => comVal ≤ arr

/-- `PostingDB::compIter`. -/
def PostingDB.compIter (t : PostingDB) (pre : QByteArray) (comVal : CompValue Double) (com : PostingComparator) :
    PostingTree :=
  t.validIter pre (compares numbers comVal com)

/-- The vectors for the phrase iterator in `Transaction::postingIterator` of an `EngineQuery` with several
terms; `none` is a null pointer. -/
def phraseVectors (db : Database) (terms : List Term) : Option (List (List PositionInfo)) :=
  terms.mapM fun term => OrdMap.get db.positionDb term

/-- The lookups of a transaction read the tables. -/
structure Reads (tr : Search.Lookups Double) (db : Database) : Prop where
  /-- one term -/
  postingIterator : ∀ term, (tr.postingIterator term).ids = (db.postingDb.iter term).ids
  /-- several terms -/
  phraseIterator : ∀ terms, 2 ≤ terms.length → (tr.phraseIterator terms).ids =
    {i | ∃ ls, phraseVectors db terms = some ls ∧ PhraseAndIterator.Hit ls i}
  /-- comparisons -/
  postingCompIterator : ∀ pre comVal com,
    (tr.postingCompIterator pre comVal com).ids = (db.postingDb.compIter numbers pre comVal com).ids

end

/-! ## The index of a property -/

variable {tokens : Tokenizer} {json : PropertyMultiMap → QByteArray} {p : ℕ} {db : Database}
  {docs : DocId → Option Result} {t rest : Term} {i : DocId}

/-- The database of committed documents, of which some are results. Nothing but the properties of a result
makes terms with the prefix of the property `p`. -/
structure Indexed (tokens : Tokenizer) (json : PropertyMultiMap → QByteArray) (p : ℕ) (db : Database)
    (docs : DocId → Option Result) : Prop where
  /-- what has been committed -/
  committed : ∃ A, Committed KeepsApart db A ∧
    (∀ i r, docs i = some r → A i .terms = (r.finish tokens json).terms) ∧
    ∀ i f t, propertyPrefix p <+: t → (f = .terms → docs i = none) → (A i f).contains t = false
  /-- the terms that a result starts with -/
  doc : ∀ i r, docs i = some r → ∀ t, propertyPrefix p <+: t → r.doc.terms.contains t = false
  /-- the terms of its text -/
  text : ∀ i r, docs i = some r → ∀ t, propertyPrefix p <+: t → ∀ block ∈ r.text, t ∉ tokens.termList block

/-- The entries of the terms of a property. -/
theorem Indexed.entry (h : Indexed tokens json p db docs) (ht : propertyPrefix p <+: t) (i : DocId) :
    db.entry t i =
      { posted := decide (∃ r ∈ docs i, t ∈ propertyTerms tokens.termList r.map), positions := none } := by
  obtain ⟨A, hcommitted, hresults, hothers⟩ := h.committed
  have hnone : ∀ f, (f = .terms → docs i = none) → (A i f).get t = none := fun f hf => by
    have hcontains := hothers i f t ht hf
    rwa [OrdMap.contains, Option.isSome_eq_false_iff, Option.isNone_iff_eq_none] at hcontains
  have hother : ∀ f, f ≠ .terms → (A i f).get t = none := fun f hf => hnone f fun h => absurd h hf
  rw [hcommitted.holds.entry_eq]
  rcases hdoc : docs i with _ | r
  · have hlookup : lookup (A i) t = none := lookup_eq_none.mpr fun f => hnone f fun _ => hdoc
    simp [hlookup, Entry.ofTermData]
  · have hterms : (A i .terms).get t = if t ∈ propertyTerms tokens.termList r.map then some {} else none := by
      rw [hresults i r hdoc]
      exact get_finish (h.doc i r hdoc t ht) (h.text i r hdoc t ht)
    rw [lookup, hterms, hother .xattrTerms (by simp), hother .fileNameTerms (by simp)]
    by_cases hmem : t ∈ propertyTerms tokens.termList r.map
    · simp [hmem, Entry.ofTermData]
    · simp [hmem, Entry.ofTermData]

/-- A document is posted under the terms of the values that its result has. -/
theorem Indexed.posted (h : Indexed tokens json p db docs) : i ∈ db.postingDb.get (propertyPrefix p ++ rest) ↔
    ∃ r, docs i = some r ∧ ∃ value, (p, value) ∈ r.map ∧
      propertyPrefix p ++ rest ∈ value.terms tokens.termList (propertyPrefix p) := by
  have hentry := congrArg Entry.posted (h.entry (List.prefix_append (propertyPrefix p) rest) i)
  simp only [Database.entry, decide_eq_decide] at hentry
  rw [hentry]
  exact exists_congr fun r => and_congr Iff.rfl mem_propertyTerms

/-- The terms of a property have no positions. -/
theorem Indexed.no_positions (h : Indexed tokens json p db docs) (ht : propertyPrefix p <+: t) :
    OrdMap.get db.positionDb t = none := by
  obtain ⟨A, hcommitted, -, -⟩ := h.committed
  rcases hget : OrdMap.get db.positionDb t with _ | list
  · rfl
  · obtain ⟨hascending, hne, -⟩ := hcommitted.holds.sorted.position t list hget
    obtain ⟨info, hinfo⟩ := List.exists_mem_of_ne_nil list hne
    have hentry := congrArg Entry.positions (h.entry ht info.docId)
    rw [Database.entry, PositionDB.get, OrdMap.values, hget, Option.getD_some,
      SortedSeq.find_of_mem hascending hinfo] at hentry
    cases hentry

/-- A phrase of such terms is found nowhere. -/
theorem Indexed.phraseVectors_eq (h : Indexed tokens json p db docs) {first : Term} {terms : List Term} :
    phraseVectors db ((first :: terms).map (propertyPrefix p ++ ·)) = none := by
  rw [phraseVectors, List.map_cons, List.mapM_cons, h.no_positions (List.prefix_append _ _)]
  rfl

/-! ## Values -/

open Search (Comparator CompValue DateTime Lookups MetaType Platform PostingComparator ascii constructQuery number)

/-- Texts of date-times of equal precision and zone: they are ordered like the times. -/
structure IsoTexts where
  /-- the texts -/
  texts : Set QByteArray
  /-- their times -/
  time : QByteArray → ℤ
  /-- the order -/
  le_iff : ∀ s ∈ texts, ∀ t ∈ texts, s ≤ t ↔ time s ≤ time t

/-- What a property is compared with. -/
inductive Compared where
  /-- an integer -/
  | integer (x : ℤ)
  /-- a date-time, by its text in ISO format -/
  | dateTime (iso : QByteArray)

/-- What a comparison says. -/
def Search.Comparator.Compares : Comparator → ℤ → ℤ → Prop
  | .equal, v, x => v = x
  | .less, v, x => v < x
  | .lessEqual, v, x => v ≤ x
  | .greater, v, x => x < v
  | .greaterEqual, v, x => x ≤ v
  | .contains, _, _ | .auto, _, _ => False

/-- An integer whose term has its sign, and for which the comparison is nevertheless wrong: the text of `x`
has lost its sign, or there is no next integer. -/
def MisreadSigned (n x : ℤ) : Comparator → Prop
  | .equal => x < 0 ∧ (n = x ∨ n = -x)
  | .less => n = x ∧ x = -2 ^ 63
  | .greater => n = x ∧ x = 2 ^ 63 - 1
  | _ => False

/-- A negative integer whose term has lost its sign. The lowest one is not read at all. -/
def MisreadUnsigned (n x : ℤ) : Comparator → Prop
  | .equal => x = -n
  | .less => n < x ∧ x ≤ -n
  | .lessEqual => n ≤ x ∧ x < -n
  | .greater => n ≠ -2 ^ 63 ∧ (n ≤ x ∧ x < -n ∨ x = -n ∧ x = 2 ^ 63 - 1)
  | .greaterEqual => n ≠ -2 ^ 63 ∧ n < x ∧ x ≤ -n ∨ n = -2 ^ 63 ∧ x = n
  | .contains | .auto => False

/-- An integer that is too large to be read. -/
def MisreadLarge (n x : ℤ) : Comparator → Prop
  | .equal => x = -n
  | .greater | .greaterEqual => True
  | _ => False

namespace Compared

variable (isoTexts : IsoTexts) (com : Comparator)

/-- The type of the property. -/
def valueType : Compared → MetaType
  | integer _ => .int
  | dateTime _ => .qDateTime

/-- A value that is stored for a property of the type. -/
def Stores (tokens : Tokenizer) : Compared → QVariant → Prop
  | integer _, .int n => -2 ^ 63 ≤ n ∧ n < 2 ^ 63
  | integer _, .longLong n => -2 ^ 63 ≤ n ∧ n < 2 ^ 64 ∧
    -- punctuation is no part of a term
    tokens.termList (latin1String (decimalChars n)) = [number n.natAbs]
  | dateTime _, .dateTime iso => iso ∈ isoTexts.texts
  | _, _ => False

/-- The stored value compares as the operator says. -/
def Satisfies : Compared → QVariant → Prop
  | integer x, .int n => com.Compares n x
  | integer x, .longLong n => com.Compares n x
  | dateTime x, .dateTime iso => com.Compares (isoTexts.time iso) (isoTexts.time x)
  | _, _ => False

/-- The lookup takes the stored value for one that satisfies the comparison although it does not, or the
other way round. -/
def Misread : Compared → QVariant → Prop
  | integer x, .int n => MisreadSigned n x com
  | integer x, .longLong n =>
    if n < 0 then MisreadUnsigned n x com else if n < 2 ^ 63 then MisreadSigned n x com else MisreadLarge n x com
  | dateTime x, .dateTime iso =>
    (com = .equal ∨ com = .less ∨ com = .greater) ∧ isoTexts.time iso = isoTexts.time x
  | _, _ => False

/-- The text of a term says the value; that of a date-time has several words. -/
def Says {Date Double : Type} (qt : Platform Date Double) (tr : Lookups Double) (value : QString) :
    Compared → Prop
  | integer x => qt.toLongLong value = some x ∧ tr.termList value = [number x.natAbs]
  | dateTime iso => (∃ dt, qt.dateTimeFromString value = some dt ∧ dt.isoDate = iso) ∧
    2 ≤ (tr.termList value).length

/-- A value that can be asked for. -/
def Valid : Compared → Prop
  | integer x => -2 ^ 63 ≤ x ∧ x < 2 ^ 63
  | dateTime iso => iso ∈ isoTexts.texts

end Compared

/-- What stands behind the prefix in the term of a value. -/
def QVariant.body : QVariant → QByteArray
  | .int n => decimal n
  | .longLong n => decimal n.natAbs
  | .date iso | .dateTime iso => iso
  | _ => []

variable {isoTexts : IsoTexts} {com : Comparator} {c : Compared} {v : QVariant} {r : Result}

/-- A value has one term. -/
theorem Compared.Stores.terms (h : c.Stores isoTexts tokens v) (pre : QByteArray) :
    v.terms tokens.termList pre = [pre ++ v.body] := by
  cases v with
  | longLong n =>
    cases c with
    | integer x =>
      obtain ⟨-, -, hterms⟩ := h
      have hne : latin1String (decimalChars n) ≠ [] := by
        simp only [latin1String, decimalChars]
        split
        · simp
        · simp [Nat.toDigits_ne_nil]
      rw [QVariant.terms, QVariant.text, if_neg hne, hterms, QVariant.body, decimal_of_nonneg (Int.natCast_nonneg _),
        Int.natAbs_natCast]
      · rfl
      all_goals nofun
    | dateTime iso => cases h
  | bool b => cases c <;> cases h
  | string s => cases c <;> cases h
  | _ => rfl

/-- Documents are found by what stands behind the prefix in the terms of their values. -/
theorem Indexed.found (h : Indexed tokens json p db docs)
    (hstores : ∀ i r, docs i = some r → ∀ v, (p, v) ∈ r.map → c.Stores isoTexts tokens v) {P : QByteArray → Prop} :
    (∃ rest, P rest ∧ i ∈ db.postingDb.get (propertyPrefix p ++ rest)) ↔
      ∃ r, docs i = some r ∧ ∃ v, (p, v) ∈ r.map ∧ P v.body := by
  constructor
  · rintro ⟨rest, hrest, hi⟩
    obtain ⟨r, hr, v, hv, hterm⟩ := h.posted.mp hi
    rw [(hstores i r hr v hv).terms, List.mem_singleton, List.append_cancel_left_eq] at hterm
    exact ⟨r, hr, v, hv, hterm ▸ hrest⟩
  · rintro ⟨r, hr, v, hv, hP⟩
    refine ⟨v.body, hP, h.posted.mpr ⟨r, hr, v, hv, ?_⟩⟩
    rw [(hstores i r hr v hv).terms]
    exact List.mem_singleton_self _

/-! ## Lookups -/

section

variable {Date Double : Type} {qt : Platform Date Double} {tr : Lookups Double} {numbers : ByteNumbers Double}
  {value : QString}

/-- The comparator of a lookup. -/
def postingComparator (com : Comparator) : PostingComparator :=
  if com = .greater ∨ com = .greaterEqual then .greaterEqual else .lessEqual

/-- The integer with which a lookup compares. -/
def adjusted (com : Comparator) (x : ℤ) : ℤ :=
  if com = .greater ∧ x < 2 ^ 63 - 1 then x + 1 else if com = .less ∧ -2 ^ 63 < x then x - 1 else x

/-- What is found behind the prefix. -/
def Compared.Finds (numbers : ByteNumbers Double) (com : Comparator) : Compared → QByteArray → Prop
  | integer x, rest =>
    if com = .equal then rest = number x.natAbs
    else compares numbers (.int (adjusted com x)) (postingComparator com) rest = true
  | dateTime iso, rest => com ≠ .equal ∧ compares numbers (.bytes iso) (postingComparator com) rest = true

/-- **The lookup of a comparison.** -/
theorem ids_constructPropertyQuery (h : Indexed tokens json p db docs) (hreads : Reads numbers tr db)
    (hquery : c.Says qt tr value) (hcontains : com ≠ .contains) :
    (Search.constructPropertyQuery qt tr true (number p) c.valueType value com).ids =
      {i | ∃ rest, c.Finds numbers com rest ∧ i ∈ db.postingDb.get (propertyPrefix p ++ rest)} := by
  have hpre : ascii ['X'] ++ number p ++ ascii ['-'] = propertyPrefix p := rfl
  have hcomp : ∀ comVal, (tr.postingCompIterator (propertyPrefix p) comVal (postingComparator com)).ids =
      {i | ∃ rest, compares numbers comVal (postingComparator com) rest = true ∧
        i ∈ db.postingDb.get (propertyPrefix p ++ rest)} := fun comVal => by
    rw [hreads.postingCompIterator, PostingDB.compIter, PostingDB.ids_validIter]
  rw [Search.constructPropertyQuery]
  cases c with
  | integer x =>
    obtain ⟨hread, hterms⟩ := hquery
    simp only [Compared.valueType, hcontains, if_false, if_true, false_and, hpre, Compared.Finds, hread,
      Search.constructEqualsQuery, hterms]
    by_cases hequal : com = .equal
    · simp only [hequal, if_true]
      rw [if_neg (by simp), if_neg (by simp), hreads.postingIterator, PostingDB.ids_iter]
      ext i
      simp
    · simp only [hequal, if_false]
      rw [if_neg (by simp)]
      exact hcomp _
  | dateTime iso =>
    obtain ⟨⟨dt, hdt, rfl⟩, hlen⟩ := hquery
    simp only [Compared.valueType, hcontains, if_false, if_true, false_and, hpre, Compared.Finds, hdt,
      Search.constructEqualsQuery]
    by_cases hequal : com = .equal
    · obtain ⟨first, second, terms, hterms⟩ : ∃ first second terms, tr.termList value = first :: second :: terms := by
        match tr.termList value, hlen with
        | first :: second :: terms, _ => exact ⟨first, second, terms, rfl⟩
      rw [if_neg (by simp), if_pos hequal, hterms]
      dsimp only
      rw [hreads.phraseIterator _ (by simp), h.phraseVectors_eq]
      ext i
      simp [hequal]
    · rw [if_neg (by simp), if_neg hequal]
      simp only [hequal, not_false_iff, true_and, ne_eq]
      exact hcomp _

theorem compares_decimal (n y : ℤ) (pcom : PostingComparator) :
    compares numbers (.int y) pcom (decimal n) = true ↔
      (-2 ^ 63 ≤ n ∧ n < 2 ^ 63) ∧ match pcom with | .lessEqual => n ≤ y | .greaterEqual => y ≤ n := by
  have hread := numbers.toLongLong_decimal n
  split at hread
  · next hn =>
    rw [and_iff_right hn]
    cases pcom <;> simp [compares, hread]
  · next hn =>
    refine ⟨fun h => ?_, fun h => absurd h.1 hn⟩
    simp [compares, hread] at h

theorem decimal_eq_number (n x : ℤ) : decimal n = number x.natAbs ↔ n = x.natAbs := by
  rw [← Int.natAbs_natCast x.natAbs, ← decimal_of_nonneg (Int.natCast_nonneg _), Int.natAbs_natCast]
  exact ⟨fun h => decimal_injective h, fun h => h ▸ rfl⟩

/-- What is found of the integers. -/
def FindsInteger (n x : ℤ) : Comparator → Prop
  | .equal => n = x.natAbs
  | .less => (-2 ^ 63 ≤ n ∧ n < 2 ^ 63) ∧ n ≤ if -2 ^ 63 < x then x - 1 else x
  | .lessEqual => (-2 ^ 63 ≤ n ∧ n < 2 ^ 63) ∧ n ≤ x
  | .greater => (-2 ^ 63 ≤ n ∧ n < 2 ^ 63) ∧ (if x < 2 ^ 63 - 1 then x + 1 else x) ≤ n
  | .greaterEqual => (-2 ^ 63 ≤ n ∧ n < 2 ^ 63) ∧ x ≤ n
  | .contains | .auto => False

theorem finds_decimal (x n : ℤ) (hcontains : com ≠ .contains) (hauto : com ≠ .auto) :
    Compared.Finds numbers com (.integer x) (decimal n) ↔ FindsInteger n x com := by
  cases com with
  | contains => exact absurd rfl hcontains
  | auto => exact absurd rfl hauto
  | equal => simp only [Compared.Finds, if_true, decimal_eq_number, FindsInteger]
  | _ => simp [Compared.Finds, compares_decimal, postingComparator, adjusted, FindsInteger]

/-- **The lookup goes wrong exactly for the values that are misread.** -/
theorem Compared.finds_iff (hvalid : c.Valid isoTexts) (hstores : c.Stores isoTexts tokens v)
    (hcontains : com ≠ .contains) (hauto : com ≠ .auto) : c.Finds numbers com v.body ↔
      c.Satisfies isoTexts com v ∧ ¬c.Misread isoTexts com v ∨
        ¬c.Satisfies isoTexts com v ∧ c.Misread isoTexts com v := by
  cases com
  case contains => exact absurd rfl hcontains
  case auto => exact absurd rfl hauto
  all_goals
    match c, v, hvalid, hstores with
    | .integer x, .int n, ⟨hlow, hhigh⟩, ⟨hlow', hhigh'⟩ =>
      rw [QVariant.body, finds_decimal x n hcontains hauto]
      simp only [FindsInteger, Satisfies, Misread, Comparator.Compares, MisreadSigned, and_false, or_false,
        not_false_iff, and_true]
      omega
    | .integer x, .longLong n, ⟨hlow, hhigh⟩, ⟨hlow', hhigh', _⟩ =>
      rw [QVariant.body, finds_decimal x _ hcontains hauto]
      by_cases hneg : n < 0
      · simp only [FindsInteger, Satisfies, Misread, Comparator.Compares, hneg, if_true, MisreadUnsigned]
        omega
      · by_cases hlarge : n < 2 ^ 63
        · simp only [FindsInteger, Satisfies, Misread, Comparator.Compares, hneg, hlarge, if_true, if_false,
            MisreadSigned, and_false, or_false, not_false_iff, and_true]
          omega
        · simp only [FindsInteger, Satisfies, Misread, Comparator.Compares, hneg, hlarge, if_false, MisreadLarge,
            and_false, or_false, false_or, not_false_iff, and_true, not_true]
          omega
    | .dateTime iso, .dateTime iso', hvalid, hstores =>
      have hle := isoTexts.le_iff iso hvalid iso' hstores
      have hge := isoTexts.le_iff iso' hstores iso hvalid
      simp only [Finds, QVariant.body, compares, postingComparator, Satisfies, Misread, Comparator.Compares]
      simp [hle, hge]
      all_goals omega

/-! ## Documents -/

open Fuel (Returns)

/-- The iterator that is built for a term yields the ids of `S`, ascending and each once. -/
def Yields (qt : Platform Date Double) (tr : Lookups Double) (term : Search.Term) (S : Set ℕ) : Prop :=
  ∃ it, Returns (fun n => (constructQuery qt tr n term).bind (PostingTree.build n)) it ∧
    PostingIterator.Answers it S

/-- It yields no other ids than those that the term denotes. -/
theorem yields_iff {term : Search.Term} {S S' : Set ℕ} (h : Search.Constructs qt tr term S) :
    Yields qt tr term S' ↔ S' = S := by
  obtain ⟨tree, htree, hproper, rfl⟩ := h
  obtain ⟨it, hit, hanswers⟩ := hproper.answers
  have hbuilt := htree.bind hit
  constructor
  · rintro ⟨it', hit', hanswers'⟩
    obtain rfl := hit'.unique hbuilt
    cases it' with
    | none => exact hanswers'.trans hanswers.symm
    | some it' =>
      obtain ⟨ids, hids, -, hmem⟩ := hanswers
      obtain ⟨ids', hids', -, hmem'⟩ := hanswers'
      obtain rfl := hids'.unique hids
      exact Set.ext fun x => (hmem' x).symm.trans (hmem x)
  · rintro rfl
    exact ⟨it, hbuilt, hanswers⟩

/-- No document depends on a value that is misread: either a value that satisfies the comparison is read as
one that does, or if one that satisfies it is missed, another that does not is taken for it. -/
def Compared.RightFor (isoTexts : IsoTexts) (com : Comparator) (c : Compared) (values : Set QVariant) : Prop :=
  (∃ v ∈ values, c.Satisfies isoTexts com v ∧ ¬c.Misread isoTexts com v) ∨
    ((∃ v ∈ values, c.Satisfies isoTexts com v ∧ c.Misread isoTexts com v) ↔
      ∃ v ∈ values, ¬c.Satisfies isoTexts com v ∧ c.Misread isoTexts com v)

/-- A document is found by its values that are found. -/
theorem Compared.rightFor_iff {values : Set QVariant} : c.RightFor isoTexts com values ↔
    ((∃ v ∈ values, c.Satisfies isoTexts com v) ↔
      ∃ v ∈ values, c.Satisfies isoTexts com v ∧ ¬c.Misread isoTexts com v ∨
        ¬c.Satisfies isoTexts com v ∧ c.Misread isoTexts com v) := by
  rw [RightFor]
  by_cases hright : ∃ v ∈ values, c.Satisfies isoTexts com v ∧ ¬c.Misread isoTexts com v
  · obtain ⟨v, hv, hsat, hread⟩ := hright
    exact iff_of_true (.inl ⟨v, hv, hsat, hread⟩)
      (iff_of_true ⟨v, hv, hsat⟩ ⟨v, hv, .inl ⟨hsat, hread⟩⟩)
  · have hmis : ∀ v ∈ values, c.Satisfies isoTexts com v → c.Misread isoTexts com v := fun v hv hsat =>
      not_not.mp fun hread => hright ⟨v, hv, hsat, hread⟩
    rw [or_iff_right hright]
    refine iff_congr ?_ ?_
    · exact exists_congr fun v => and_congr_right fun hv => and_iff_left_of_imp (hmis v hv)
    · refine exists_congr fun v => and_congr_right fun hv => (or_iff_right ?_).symm
      exact fun hsat => hright ⟨v, hv, hsat⟩

/-- A property that is not special. -/
theorem propertyIds_of_notMem {name : QByteArray} (hspecial : name ∉ Search.specialNames) :
    Search.propertyIds qt tr name value com = (Search.constructPropertyQuery qt tr (Search.propertyInfo qt name).1
      (Search.propertyInfo qt name).2.1 (Search.propertyInfo qt name).2.2 value com).ids := by
  simp only [Search.specialNames, List.mem_cons, not_or, List.not_mem_nil, not_false_iff, and_true] at hspecial
  obtain ⟨htype, hkind, hfolder, hmodified, hmtime, -, hfilename, hmimetype, hmetadata, hempty⟩ := hspecial
  simp only [Search.propertyIds, htype, hkind, hfolder, hmodified, hmtime, hfilename, hmimetype, hmetadata, hempty,
    or_self, if_false]

/-- **The documents that are found** are those with a value that is found. -/
theorem constructs_comparison {name : List QChar} (h : Indexed tokens json p db docs) (hreads : Reads numbers tr db)
    (hinfo : Search.propertyInfo qt (Search.nameOf qt name) = (true, number p, c.valueType))
    (hspecial : Search.nameOf qt name ∉ Search.specialNames)
    (hstores : ∀ i r, docs i = some r → ∀ v, (p, v) ∈ r.map → c.Stores isoTexts tokens v)
    (hquery : c.Says qt tr value) (hvalue : value ≠ none) (hcontains : com ≠ .contains) (hauto : com ≠ .auto) :
    Search.Constructs qt tr (.ofProperty (some name) value com)
      {i | ∃ r, docs i = some r ∧ ∃ v, (p, v) ∈ r.map ∧ c.Finds numbers com v.body} := by
  have htag : Search.nameOf qt name ≠ ascii ['t', 'a', 'g'] := fun heq => hspecial (by simp [heq, Search.specialNames])
  have hknown : ¬Search.Unknown qt (Search.nameOf qt name) := by
    rintro ⟨-, htype⟩
    rw [hinfo] at htype
    cases c <;> cases htype
  have hconstructs : Search.Constructs qt tr (.ofProperty (some name) value com)
      (Search.propertyIds qt tr (Search.nameOf qt name) value (if com = .auto then .contains else com)) :=
    Search.constructs_property rfl hvalue htag hknown
  rw [if_neg hauto, propertyIds_of_notMem hspecial, hinfo,
    ids_constructPropertyQuery h hreads hquery hcontains] at hconstructs
  have hfound : {i | ∃ rest, c.Finds numbers com rest ∧ i ∈ db.postingDb.get (propertyPrefix p ++ rest)} =
      {i | ∃ r, docs i = some r ∧ ∃ v, (p, v) ∈ r.map ∧ c.Finds numbers com v.body} :=
    Set.ext fun i => h.found hstores
  rwa [hfound] at hconstructs

/-- **A comparison selects by value** exactly if no document depends on a value that is misread. -/
theorem comparison_iff {name : List QChar} (h : Indexed tokens json p db docs) (hreads : Reads numbers tr db)
    (hinfo : Search.propertyInfo qt (Search.nameOf qt name) = (true, number p, c.valueType))
    (hspecial : Search.nameOf qt name ∉ Search.specialNames)
    (hstores : ∀ i r, docs i = some r → ∀ v, (p, v) ∈ r.map → c.Stores isoTexts tokens v)
    (hvalid : c.Valid isoTexts) (hquery : c.Says qt tr value) (hvalue : value ≠ none) (hcontains : com ≠ .contains)
    (hauto : com ≠ .auto) :
    Yields qt tr (.ofProperty (some name) value com)
        {i | ∃ r, docs i = some r ∧ ∃ v, (p, v) ∈ r.map ∧ c.Satisfies isoTexts com v} ↔
      ∀ i r, docs i = some r → c.RightFor isoTexts com {v | (p, v) ∈ r.map} := by
  rw [yields_iff (constructs_comparison h hreads hinfo hspecial hstores hquery hvalue hcontains hauto), Set.ext_iff]
  have hfinds : ∀ i r, docs i = some r → ∀ v, (p, v) ∈ r.map → (c.Finds numbers com v.body ↔ _) :=
    fun i r hr v hv => Compared.finds_iff hvalid (hstores i r hr v hv) hcontains hauto
  refine forall_congr' fun i => ?_
  constructor
  · intro hiff r hr
    simp only [Set.mem_ofPred_eq, hr, Option.some.injEq, exists_eq_left'] at hiff
    rw [Compared.rightFor_iff]
    exact hiff.trans (exists_congr fun v => and_congr_right fun hv => hfinds i r hr v hv)
  · intro hright
    refine exists_congr fun r => and_congr_right fun hr => (Compared.rightFor_iff.mp (hright r hr)).trans ?_
    exact exists_congr fun v => and_congr_right fun hv => (hfinds i r hr v hv).symm

end

/-! ## A file with a negative width -/

/-- `QByteArray::toLongLong`, as far as signs and digits go. -/
def readDecimal (arr : QByteArray) : Option ℤ :=
  let digits := if arr.head? = some 45 then arr.tail else arr
  let n : ℤ := if arr.head? = some 45 then -ofDigits digits else ofDigits digits
  if digits ≠ [] ∧ (∀ b ∈ digits, 48 ≤ b.toNat ∧ b.toNat ≤ 57) ∧ -2 ^ 63 ≤ n ∧ n < 2 ^ 63 then some n else none

theorem readDecimal_decimal (n : ℤ) :
    readDecimal (decimal n) = if -2 ^ 63 ≤ n ∧ n < 2 ^ 63 then some n else none := by
  have hdigits : number n.natAbs ≠ [] ∧ ∀ b ∈ number n.natAbs, 48 ≤ b.toNat ∧ b.toNat ≤ 57 :=
    ⟨number_ne_nil _, fun b hb => digit_range hb⟩
  rcases lt_or_ge n 0 with hn | hn
  · have hvalue : -(n.natAbs : ℤ) = n := by omega
    simp only [readDecimal, decimal_of_neg hn, List.head?_cons, if_true, List.tail_cons, ofDigits_number, hvalue,
      hdigits.1, ne_eq, not_false_iff, true_and]
    exact if_congr (and_iff_right hdigits.2) rfl rfl
  · have hvalue : (n.natAbs : ℤ) = n := by omega
    have hhead : ¬(number n.natAbs).head? = some 45 := fun h => minus_notMem _ (List.mem_of_mem_head? h)
    simp only [readDecimal, decimal_of_nonneg hn, hhead, if_false, ofDigits_number, hvalue, hdigits.1, ne_eq,
      not_false_iff, true_and]
    exact if_congr (and_iff_right hdigits.2) rfl rfl

/-- Numbers without doubles. -/
def decimals : ByteNumbers Unit where
  toLongLong := readDecimal
  toLongLong_decimal := readDecimal_decimal
  toDouble _ := none
  doubleLe _ _ := false

/-- The digits of a text are its only term. -/
def digitTokens : Tokenizer where
  termList text :=
    let digits := (text.filter fun c => 0x30 ≤ c ∧ c ≤ 0x39).map fun c => UInt8.ofNat c.toNat
    if digits = [] then [] else [digits]
  ne_nil text h := by
    dsimp only at h
    split at h
    · cases h
    · next hne => exact hne (List.mem_singleton.mp h).symm

/-- The ids of a list as what a lookup returns. -/
def lookupOf (values : List DocId) : Search.Lookup :=
  some {
    values := SortedSeq.sortUnique (values.filter fun i => i ≠ 0)
    ascending := SortedSeq.ascending_sortUnique _
    zero_notMem := fun h => by simpa using (List.mem_filter.mp (SortedSeq.mem_sortUnique.mp h)).2 }

theorem ids_lookupOf {values : List DocId} (h : 0 ∉ values) : (lookupOf values).ids = {i | i ∈ values} := by
  ext i
  change i ∈ SortedSeq.sortUnique (values.filter fun i => i ≠ 0) ↔ _
  rw [SortedSeq.mem_sortUnique, List.mem_filter, decide_eq_true_iff]
  exact and_iff_left_of_imp fun hi hzero => h (hzero ▸ hi)

/-- The lookups of terms in a database without positions. -/
def postingLookups (tokens : Tokenizer) (numbers : ByteNumbers Double) (db : Database) : Lookups Double where
  termList value := tokens.termList value.chars
  postingIterator term := lookupOf (db.postingDb.get term)
  postingPrefixIterator pre := lookupOf ((db.postingDb.startingWith pre).flatMap Prod.snd)
  phraseIterator _ := none
  documentId _ := 0
  docUrlIter _ := none
  mTimeRangeIter _ _ := none
  filenameIterator _ _ := none
  mimetypeIterator _ _ := none
  propertyIterator _ _ _ := none
  postingCompIterator pre comVal com := lookupOf (((db.postingDb.startingWith pre).filter fun e =>
    compares numbers comVal com (e.1.drop pre.length)).flatMap Prod.snd)

theorem reads_postingLookups {Double : Type} {numbers : ByteNumbers Double}
    (hzero : ∀ term, 0 ∉ db.postingDb.get term) (hpositions : ∀ term, OrdMap.get db.positionDb term = none) :
    Reads numbers (postingLookups tokens numbers db) db where
  postingIterator term := by
    rw [PostingDB.ids_iter]
    exact ids_lookupOf (hzero term)
  phraseIterator terms hlen := by
    obtain ⟨first, terms, rfl⟩ := List.exists_cons_of_length_pos (Nat.zero_lt_of_lt hlen)
    have hvectors : phraseVectors db (first :: terms) = none := by
      rw [phraseVectors, List.mapM_cons, hpositions]
      rfl
    rw [hvectors]
    refine (Set.eq_empty_of_forall_notMem ?_).symm
    rintro i ⟨ls, hls, -⟩
    cases hls
  postingCompIterator pre comVal com := by
    have hmem : ∀ i, i ∈ ((db.postingDb.startingWith pre).filter fun e =>
        compares numbers comVal com (e.1.drop pre.length)).flatMap Prod.snd ↔
          ∃ rest, compares numbers comVal com rest = true ∧ i ∈ db.postingDb.get (pre ++ rest) := fun i =>
      List.mem_flatMap.trans PostingDB.mem_valid
    rw [PostingDB.compIter, PostingDB.ids_validIter]
    refine (ids_lookupOf fun h => ?_).trans (Set.ext hmem)
    obtain ⟨rest, -, hrest⟩ := (hmem 0).mp h
    exact hzero _ hrest

/-- What an extractor says about the file `/a`: an image of a negative width. -/
def wide : Result where
  doc := { id := 2, parentId := 1, url := [47, 97], terms := (∅ : OrdMap Term TermData).put [84, 53] {} }
  map := [(26, .int (-5))]

/-- The document. -/
def wideDocument : Document := wide.finish digitTokens fun _ => []

/-- The transaction that adds it. -/
def addingWide : WriteTransaction := ({} : WriteTransaction).addDocument noFiles wideDocument

/-- The database. -/
def wideDb : Database := addingWide.commit addingWide.pendingOperations.keys

/-- The only result. -/
def wideResult (i : DocId) : Option Result := if i = 2 then some wide else none

/-- What has been written. -/
def wideIndex : Index := Index.keep (Index.replace (fun _ _ => ∅) wideDocument fun _ => true) addingWide.dbis

theorem wide_committed : Committed KeepsApart wideDb wideIndex := by
  have hadd : Step KeepsApart ({}, fun _ _ => ∅) (addingWide, wideIndex) :=
    .addDocument noFiles wideDocument (by decide) (by decide) (by decide)
      ⟨by decide, fun t f g _ _ _ ht => by simp at ht⟩
  exact .transaction .empty (.single hadd) (List.Perm.refl _)

theorem wideIndex_of_ne (hi : i ≠ 2) : wideIndex i = fun _ => ∅ := by
  funext f
  have hid : i ≠ wideDocument.id := hi
  simp [wideIndex, Index.keep, Index.replace, hid]

theorem wideIndex_two (f : Family) : wideIndex 2 f = wideDocument.family f := by
  have hstored : addingWide.dbis.docTermsDb.contains 2 = true := by decide
  rw [wideIndex, Index.keep, if_pos hstored]
  exact if_pos ⟨rfl, rfl⟩

theorem wide_indexed : Indexed digitTokens (fun _ => []) 26 wideDb wideResult := by
  have htwo : ∀ i r, wideResult i = some r → i = 2 ∧ r = wide := by
    intro i r hr
    rw [wideResult] at hr
    split at hr
    · next hi => exact ⟨hi, (Option.some.inj hr).symm⟩
    · cases hr
  refine ⟨⟨wideIndex, wide_committed, fun i r hr => ?_, fun i f t ht hf => ?_⟩, fun i r hr t ht => ?_,
    fun i r hr t ht => ?_⟩
  · obtain ⟨rfl, rfl⟩ := htwo i r hr
    exact wideIndex_two .terms
  · by_cases hi : i = 2
    · subst hi
      rw [wideIndex_two]
      cases f with
      | terms => cases hf rfl
      | _ => rfl
    · rw [wideIndex_of_ne hi]
      simp
  · obtain ⟨rfl, rfl⟩ := htwo i r hr
    obtain ⟨rest, rfl⟩ := ht
    simp [wide, propertyPrefix, ascii]
  · obtain ⟨rfl, rfl⟩ := htwo i r hr
    exact fun block hblock => absurd hblock List.not_mem_nil

/-- The lookups in this database. -/
def wideLookups : Lookups Unit := postingLookups digitTokens decimals wideDb

theorem wide_reads : Reads decimals wideLookups wideDb := by
  have hzero : ∀ term, 0 ∉ wideDb.postingDb.get term := by
    intro term hmem
    have hentry := congrArg Entry.posted (wide_committed.holds.entry_eq term 0)
    have hnone : lookup (wideIndex 0) term = none := by
      rw [wideIndex_of_ne (by simp)]
      exact lookup_eq_none.mpr fun f => OrdMap.get_empty term
    rw [hnone] at hentry
    simp [Database.entry, Entry.ofTermData, hmem] at hentry
  have hkeys : OrdMap.keys wideDb.positionDb = [] := by decide
  refine reads_postingLookups hzero fun term => ?_
  rcases hget : OrdMap.get wideDb.positionDb term with _ | list
  · rfl
  · exact absurd (hkeys ▸ OrdMap.mem_keys.mpr ⟨list, hget⟩) List.not_mem_nil

/-- A property for the width of an image, and a number. -/
def widths : Platform Unit Unit where
  lower s := s
  utf8 _ := []
  typeFromName _ := none
  propertyFromName name :=
    if name = ascii "width".toList then some { property := 26, valueType := .int, shouldBeIndexed := true } else none
  allProperties := []
  dateTimeFromString _ := none
  toLongLong value := if value = some (latin1String "-5".toList) then some (-5) else none
  toDouble _ := none
  date _ _ _ := ()
  year _ := 0
  month _ := 0
  daysInMonth _ := 0
  startOfDay _ := 0
  endOfDay _ := 0

/-- No date-times. -/
def noTexts : IsoTexts where
  texts := ∅
  time _ := 0
  le_iff _ hs := hs.elim

theorem wideResult_eq {r : Result} (hr : wideResult i = some r) : r = wide := by
  rw [wideResult] at hr
  split at hr
  · exact (Option.some.inj hr).symm
  · cases hr

theorem wide_value (hr : wideResult i = some r) (hv : (26, v) ∈ r.map) : v = .int (-5) := by
  obtain rfl := wideResult_eq hr
  simpa [wide] using hv

theorem wide_stores (i : DocId) (r : Result) (hr : wideResult i = some r) (v : QVariant) (hv : (26, v) ∈ r.map) :
    (Compared.integer (-5)).Stores noTexts digitTokens v := by
  obtain rfl := wide_value hr hv
  rw [Compared.Stores]
  omega

theorem minusFive_valid : (Compared.integer (-5)).Valid noTexts := by
  rw [Compared.Valid]
  omega

theorem minusFive_says : (Compared.integer (-5)).Says widths wideLookups (some (latin1String "-5".toList)) :=
  ⟨rfl, by decide⟩

theorem width_info : Search.propertyInfo widths (Search.nameOf widths (latin1String "width".toList)) =
    (true, number 26, (Compared.integer (-5)).valueType) := by
  decide

theorem width_notMem : Search.nameOf widths (latin1String "width".toList) ∉ Search.specialNames := by decide

/-- The documents with a width that compares with `-5`. -/
def comparedWithMinusFive (com : Comparator) : Set ℕ :=
  {i | ∃ r, wideResult i = some r ∧ ∃ v, (26, v) ∈ r.map ∧ (Compared.integer (-5)).Satisfies noTexts com v}

/-- A term that compares the width with `-5`. -/
def widthTerm (com : Comparator) : Search.Term :=
  .ofProperty (some (latin1String "width".toList)) (some (latin1String "-5".toList)) com

/-- `width<=-5` finds the file. -/
theorem negative_width_selected :
    Yields widths wideLookups (widthTerm .lessEqual) (comparedWithMinusFive .lessEqual) := by
  have hcontains : Comparator.lessEqual ≠ .contains := nofun
  have hauto : Comparator.lessEqual ≠ .auto := nofun
  refine (comparison_iff wide_indexed wide_reads width_info width_notMem wide_stores minusFive_valid minusFive_says
    nofun hcontains hauto).mpr fun i r hr => .inl ⟨.int (-5), ?_, le_refl (-5 : ℤ), id⟩
  obtain rfl := wideResult_eq hr
  exact List.mem_singleton_self _

/-- `width=-5` does not: its text has the term `5`, the width is stored as `-5`. -/
theorem negative_width_missed : ¬Yields widths wideLookups (widthTerm .equal) (comparedWithMinusFive .equal) := by
  have hcontains : Comparator.equal ≠ .contains := nofun
  have hauto : Comparator.equal ≠ .auto := nofun
  have hconstructs := constructs_comparison wide_indexed wide_reads width_info width_notMem wide_stores
    minusFive_says nofun hcontains hauto
  intro hyields
  have hset := Set.ext_iff.mp ((yields_iff hconstructs).mp hyields) 2
  obtain ⟨r, hr, v, hv, hfinds⟩ := hset.mp ⟨wide, rfl, .int (-5), List.mem_singleton_self _, rfl⟩
  obtain rfl := wide_value hr hv
  have hequal : (-5 : ℤ) = ((-5 : ℤ).natAbs : ℤ) := (finds_decimal (-5) (-5) hcontains hauto).mp hfinds
  omega

end Baloo
