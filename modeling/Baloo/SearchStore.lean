import Baloo.Posting
import Baloo.QueryParser

/-!
# Building iterators from queries

A query is turned into an iterator: its search text is parsed, the leaves without a property are
searched for in the scopes of the query, terms become intersections and unions of lookups, and the
filters of the query are intersected with the result. A null pointer stands for the empty result.

The lookups themselves are given (`Lookups`); each returns a null pointer or an iterator over a
strictly ascending list of ids. So is what Qt and KFileMetaData know (`Platform`): characters beyond
ASCII, numbers, dates, and the properties and types of files. `constructQuery` calls itself with
terms that it makes up, so it takes fuel.
-/

namespace Baloo.Search

/-- A strictly ascending list of ids. -/
structure AscendingIds where
  /-- the ids -/
  values : List DocId
  /-- they ascend -/
  ascending : values.Pairwise (· < ·)
  /-- `0` is no id -/
  zero_notMem : 0 ∉ values

/-- What a lookup returns; `none` is a null pointer. -/
abbrev Lookup : Type := Option AscendingIds

/-- The iterator of a lookup. -/
def Lookup.tree : Lookup → PostingTree
  | none => .null
  | some l => .vector l.values

/-- The bytes of an ASCII string. -/
def ascii (s : List Char) : QByteArray := s.map fun c => UInt8.ofNat c.toNat

/-- `QByteArray::number`. -/
def number (n : ℕ) : QByteArray := ascii (Nat.toDigits 10 n)

/-- `QMetaType::Type`, as far as it is asked for. -/
inductive MetaType where
  /-- no type -/
  | unknownType
  /-- strings -/
  | qString
  /-- integers -/
  | int
  /-- floating point numbers -/
  | double
  /-- dates with times -/
  | qDateTime
  /-- any other type -/
  | other
  deriving DecidableEq

/-- `KFileMetaData::PropertyInfo`. -/
structure PropertyInfo where
  /-- the number of the property -/
  property : ℕ
  /-- the type of its values -/
  valueType : MetaType
  /-- it is indexed by default -/
  shouldBeIndexed : Bool

/-- `QDateTime`, as seconds since the epoch, with the bounds of its day and its text. -/
structure DateTime where
  /-- `toSecsSinceEpoch` -/
  secs : ℤ
  /-- the first second of the day -/
  startOfDay : ℤ
  /-- the last second of the day -/
  endOfDay : ℤ
  /-- `toString(Qt::ISODate)` -/
  isoDate : QByteArray

/-- Qt and KFileMetaData. `Date` is `QDate`, `Double` is `double`. -/
structure Platform (Date Double : Type) where
  /-- `QString::toLower` of strings with characters beyond ASCII -/
  lower : List QChar → List QChar
  /-- `QString::toUtf8` of strings with characters beyond ASCII -/
  utf8 : List QChar → QByteArray
  /-- `TypeInfo::fromName`; `none` is the empty type -/
  typeFromName : QString → Option ℕ
  /-- `PropertyInfo::fromName`; `none` is the empty property -/
  propertyFromName : QByteArray → Option PropertyInfo
  /-- the properties of `PropertyInfo::allNames` -/
  allProperties : List PropertyInfo
  /-- `QDateTime::fromString` -/
  dateTimeFromString : QString → Option DateTime
  /-- `QString::toLongLong` -/
  toLongLong : QString → Option ℤ
  /-- `QString::toDouble` -/
  toDouble : QString → Option Double
  /-- the date of a year, a month and a day -/
  date : ℤ → ℤ → ℤ → Date
  /-- `QDate::year` -/
  year : Date → ℤ
  /-- `QDate::month` -/
  month : Date → ℤ
  /-- `QDate::daysInMonth` -/
  daysInMonth : Date → ℤ
  /-- the first second of a day -/
  startOfDay : Date → ℤ
  /-- the last second of a day -/
  endOfDay : Date → ℤ

/-- `PostingDB::Comparator`. -/
inductive PostingComparator where
  /-- up to a value -/
  | lessEqual
  /-- from a value on -/
  | greaterEqual

/-- The values of the three `Transaction::postingCompIterator`. -/
inductive CompValue (Double : Type) where
  /-- an integer -/
  | int (value : ℤ)
  /-- a floating point number -/
  | double (value : Double)
  /-- a byte array -/
  | bytes (value : QByteArray)

/-- The lookups of a transaction, and the term generator. -/
structure Lookups (Double : Type) where
  /-- `TermGenerator::termList` -/
  termList : QString → List QByteArray
  /-- `Transaction::postingIterator` of a term -/
  postingIterator : QByteArray → Lookup
  /-- `Transaction::postingPrefixIterator` -/
  postingPrefixIterator : QByteArray → Lookup
  /-- `Transaction::postingIterator` of an `EngineQuery` -/
  phraseIterator : List QByteArray → Lookup
  /-- `Transaction::documentId` -/
  documentId : QByteArray → DocId
  /-- `Transaction::docUrlIter` -/
  docUrlIter : DocId → Lookup
  /-- `Transaction::mTimeRangeIter` -/
  mTimeRangeIter : ℕ → ℕ → Lookup
  /-- `Transaction::postingIterator` of a `FilenameQuery` -/
  filenameIterator : QString → Bool → Lookup
  /-- `Transaction::postingIterator` of a `MimetypeQuery` -/
  mimetypeIterator : QString → Bool → Lookup
  /-- `Transaction::postingIterator` of a `PropertyPhraseQuery` -/
  propertyIterator : QString → QByteArray → Bool → Lookup
  /-- `Transaction::postingCompIterator` -/
  postingCompIterator : QByteArray → CompValue Double → PostingComparator → Lookup

section

variable {Date Double : Type} (qt : Platform Date Double) (tr : Lookups Double)

/-- The string has ASCII characters only. -/
def isAscii (s : List QChar) : Bool := s.all fun c => c < 0x80

/-- `QString::toLower`. -/
def toLower (s : List QChar) : List QChar :=
  if isAscii s then
    s.map fun c => if latin1Char 'A' ≤ c ∧ c ≤ latin1Char 'Z' then c + 0x20 else c
  else qt.lower s

/-- `QString::toUtf8`. -/
def toUtf8 (s : List QChar) : QByteArray :=
  if isAscii s then s.map fun c => UInt8.ofNat c.toNat else qt.utf8 s

/-- The largest 32-bit number. -/
def maxUInt32 : ℤ := 0xffffffff

/-- Clamp to 32 bits. -/
def clamp32 (secs : ℤ) : ℕ := (max 0 (min secs maxUInt32)).toNat

/-- `calculateTimeRange`. -/
def calculateTimeRange (value : QString) (com : Comparator) : ℕ × ℕ :=
  match qt.dateTimeFromString value with
  | none => (1, 0)
  | some dt =>
    let timet := clamp32 dt.secs
    match com with
    | .equal | .contains => (clamp32 dt.startOfDay, clamp32 dt.endOfDay)
    | .lessEqual => (0, timet)
    | .less => (0, if 0 < timet then timet - 1 else 0)
    | .greaterEqual => (timet, maxUInt32.toNat)
    | .greater => ((timet + 1) % 2 ^ 32, maxUInt32.toNat)
    | .auto => (1, 0)

/-- `internalProperties`: name, prefix and value type. -/
def internalProperties : List (QByteArray × QByteArray × MetaType) :=
  [(ascii ['c', 'o', 'n', 't', 'e', 'n', 't'], [], .qString),
    (ascii ['r', 'a', 't', 'i', 'n', 'g'], ascii ['R'], .int),
    (ascii ['t', 'a', 'g', 's'], ascii ['T', 'A'], .qString),
    (ascii ['u', 's', 'e', 'r', 'c', 'o', 'm', 'm', 'e', 'n', 't'], ascii ['C'], .qString)]

/-- `propertyInfo`: a property of KFileMetaData, its prefix and the type of its values. -/
def propertyInfo (property : QByteArray) : Bool × QByteArray × MetaType :=
  match internalProperties.find? fun entry => property = entry.1 with
  | some entry => (false, entry.2.1, entry.2.2)
  | none =>
    match qt.propertyFromName property with
    | none => (false, [], .unknownType)
    | some pi => (true, number pi.property, pi.valueType)

/-- `defaultIndexedProperties`. -/
def defaultIndexedProperties : List QByteArray :=
  (qt.allProperties.filter fun pi => pi.shouldBeIndexed ∧ pi.valueType = .qString).map fun pi =>
    number pi.property

/-- `constructEqualsQuery`. -/
def constructEqualsQuery (pre : QByteArray) (value : QString) (expandLast : Bool) : Lookup :=
  match tr.termList value with
  | [] => none
  | [term] =>
    if expandLast ∧ 3 ≤ term.length then tr.postingPrefixIterator (pre ++ term)
    else tr.postingIterator (pre ++ term)
  | terms => tr.phraseIterator (terms.map (pre ++ ·))

/-- `constructContainsQuery`. -/
def constructContainsQuery (pre : QByteArray) (value : QString) : Lookup :=
  constructEqualsQuery tr pre value true

/-- `constructFolderQuery`. -/
def constructFolderQuery (value : QString) : Lookup :=
  let folder := toUtf8 qt value.chars
  if folder = [] then none
  else if folder.head? ≠ some slash then none
  else
    let id := tr.documentId folder
    if id = 0 then none else tr.docUrlIter id

/-- `constructTypeQuery`. -/
def constructTypeQuery (value : QString) : Lookup :=
  match qt.typeFromName value with
  | none => none
  | some num => tr.postingIterator (ascii ['T'] ++ number num)

/-- The text of a comparator in `reconstructFromTerm`. -/
def Comparator.chars : Comparator → List QChar
  | .equal => [latin1Char '=']
  | .lessEqual => [latin1Char '<', latin1Char '=']
  | .greaterEqual => [latin1Char '>', latin1Char '=']
  | .less => [latin1Char '<']
  | .greater => [latin1Char '>']
  | .contains | .auto => [latin1Char ':']

/-- `reconstructFromTerm`. -/
def reconstructFromTerm (term : Term) : QString :=
  some (term.property.chars ++ (term.comparator.chars ++ term.value.chars))

/-- The scopes `cleanedScopes` knows. -/
def knownScopes : List (List QChar) :=
  [latin1String ['f', 'i', 'l', 'e', 'n', 'a', 'm', 'e'],
    latin1String ['c', 'o', 'n', 't', 'e', 'n', 't'],
    latin1String ['m', 'e', 't', 'a', 'd', 'a', 't', 'a']]

/-- `cleanedScopes`. -/
def cleanedScopes (scopes : List (List QChar)) : List (List QChar) :=
  let cleaned := (scopes.map (toLower qt)).filter fun lower => lower ∈ knownScopes
  if cleaned = [] then knownScopes else cleaned

/-- The leaf of `expandScopes`: the disjunction over the scopes. -/
def expandLeaf (scopes : List (List QChar)) (term : Term) : Term :=
  scopes.foldl (fun expanded scope =>
    expanded.join .or (.ofProperty (some scope) term.value term.comparator)) .empty

mutual

/-- `expandScopes`. -/
def expandScopes (scopes : List (List QChar)) : Term → Term
  | .mk op comp property value [] =>
    if property.isEmpty then expandLeaf scopes (.mk op comp property value [])
    else .mk op comp property value []
  | .mk op _ _ _ (subterm :: subTerms) =>
    .ofTerms op (expandScopes scopes subterm :: expandAll scopes subTerms)

/-- The loop of `expandScopes`. -/
def expandAll (scopes : List (List QChar)) : List Term → List Term
  | [] => []
  | subterm :: subTerms => expandScopes scopes subterm :: expandAll scopes subTerms

end

/-- A null pointer. -/
def isNull : PostingTree → Bool
  | .null => true
  | _ => false

/-- The loop over the subterms in `constructQuery`; `none` means that it returned a null pointer. -/
def collect (op : Operation) : List PostingTree → Option (List PostingTree)
  | [] => some []
  | iterator :: iterators =>
    if isNull iterator then if op = .and then none else collect op iterators
    else (collect op iterators).map (iterator :: ·)

/-- The branch of `constructQuery` for operations. -/
def combine (op : Operation) (iterators : List PostingTree) : PostingTree :=
  match collect op iterators with
  | none => .null
  | some [] => .null
  | some [it] => it
  | some vec => if op = .and then .and vec else .or vec

/-- The end of `constructQuery`: the lookups for properties that are not special. `isProperty`,
`pre` and `valueType` are what `propertyInfo` says about the property. -/
def constructPropertyQuery (isProperty : Bool) (pre : QByteArray) (valueType : MetaType)
    (value : QString) (comparator : Comparator) : Lookup :=
  if isProperty ∧ valueType = .qString then tr.propertyIterator value pre (comparator = .contains)
  else
    let pre := if isProperty then ascii ['X'] ++ pre ++ ascii ['-'] else pre
    let com := if comparator = .contains ∧ valueType = .int then .equal else comparator
    if com = .contains then constructContainsQuery tr pre value
    else if com = .equal then constructEqualsQuery tr pre value false
    else
      -- the source asserts that there is a comparator
      let pcom := if com = .greater ∨ com = .greaterEqual then PostingComparator.greaterEqual
        else .lessEqual
      match valueType with
      | .int =>
        match qt.toLongLong value with
        | none => none
        | some intVal =>
          let intVal := if comparator = .greater ∧ intVal < 2 ^ 63 - 1 then intVal + 1
            else if comparator = .less ∧ -2 ^ 63 < intVal then intVal - 1
            else intVal
          tr.postingCompIterator pre (.int intVal) pcom
      | .double =>
        match qt.toDouble value with
        | none => none
        | some dVal => tr.postingCompIterator pre (.double dVal) pcom
      | .qDateTime =>
        match qt.dateTimeFromString value with
        | none => none
        | some dt => tr.postingCompIterator pre (.bytes dt.isoDate) pcom
      | _ => none

/-- The lookup of a time range in `constructQuery`. -/
def constructTimeQuery (value : QString) (comparator : Comparator) : Lookup :=
  let timerange := calculateTimeRange qt value comparator
  if timerange.2 < timerange.1 then none else tr.mTimeRangeIter timerange.1 timerange.2

/-- `constructQuery`; `none` means that the fuel did not suffice. -/
def constructQuery : ℕ → Term → Option PostingTree
  | 0, _ => none
  | fuel + 1, term =>
    if term.operation = .and ∨ term.operation = .or then
      (term.subTerms.mapM (constructQuery fuel)).map (combine term.operation)
    else if term.value = none then some .null
    else
      let value := term.value
      let property := toUtf8 qt (toLower qt term.property.chars)
      let com := term.comparator
      if property = ascii ['t', 'y', 'p', 'e'] ∨ property = ascii ['k', 'i', 'n', 'd'] then
        some (constructTypeQuery qt tr value).tree
      else if property = ascii ['i', 'n', 'c', 'l', 'u', 'd', 'e', 'f', 'o', 'l', 'd', 'e', 'r'] then
        some (constructFolderQuery qt tr value).tree
      else if property = ascii ['m', 'o', 'd', 'i', 'f', 'i', 'e', 'd'] ∨
          property = ascii ['m', 't', 'i', 'm', 'e'] then
        some (constructTimeQuery qt tr value com).tree
      else if property = ascii ['t', 'a', 'g'] then
        if com = .equal then
          some (tr.postingIterator (ascii ['T', 'A', 'G', '-'] ++ toUtf8 qt value.chars)).tree
        else
          -- Delegate to "internalProperties" "tags" handler
          constructQuery fuel (.ofProperty (some (latin1String ['t', 'a', 'g', 's'])) value com)
      else if property = ascii ['f', 'i', 'l', 'e', 'n', 'a', 'm', 'e'] then
        some (tr.filenameIterator value (com = .contains)).tree
      else if property = ascii ['m', 'i', 'm', 'e', 't', 'y', 'p', 'e'] then
        some (tr.mimetypeIterator value (com = .contains)).tree
      else if property = ascii ['m', 'e', 't', 'a', 'd', 'a', 't', 'a'] then
        some (.or ((defaultIndexedProperties qt).map fun infix_ =>
          (tr.propertyIterator value infix_ (com = .contains)).tree))
      else if property = [] then
        some (constructPropertyQuery qt tr false [] .qString value com).tree
      else
        let (isProperty, pre, valueType) := propertyInfo qt property
        if valueType = .unknownType then
          constructQuery fuel (expandScopes (cleanedScopes qt [])
            (.ofProperty none (reconstructFromTerm term) .equal))
        else some (constructPropertyQuery qt tr isProperty pre valueType value com).tree

/-- `Query`, as far as it selects ids. -/
structure Query where
  /-- `searchString` -/
  searchString : QString
  /-- `searchScopes` -/
  searchScopes : List (List QChar)
  /-- `types` -/
  types : List QString
  /-- `includeFolder` -/
  includeFolder : QString
  /-- `yearFilter` -/
  yearFilter : ℤ
  /-- `monthFilter` -/
  monthFilter : ℤ
  /-- `dayFilter` -/
  dayFilter : ℤ

/-- The lookup of the date filter. -/
def constructDateQuery (q : Query) : Lookup :=
  let year := q.yearFilter
  let month := if 0 ≤ q.monthFilter ∧ q.monthFilter ≤ 12 then q.monthFilter else 0
  let day := if 0 ≤ q.dayFilter ∧ q.dayFilter ≤ 31 then q.dayFilter else 0
  let startDate := qt.date year (if month = 0 then 1 else month) (if day = 0 then 1 else day)
  let endDate :=
    if month = 0 then qt.date (qt.year startDate) 12 31
    else if day = 0 then qt.date (qt.year startDate) (qt.month startDate) (qt.daysInMonth startDate)
    else startDate
  tr.mTimeRangeIter (qt.startOfDay startDate % 2 ^ 32).toNat (qt.endOfDay endDate % 2 ^ 32).toNat

/-- The filters of a query, in the order in which they are looked up. -/
def filters (q : Query) : List Lookup :=
  q.types.map (constructTypeQuery qt tr) ++
    ((if q.includeFolder.isEmpty then [] else [constructFolderQuery qt tr q.includeFolder]) ++
      if q.yearFilter = 0 ∧ q.monthFilter = 0 ∧ q.dayFilter = 0 then []
      else [constructDateQuery qt tr q])

/-- `constructFromQuery` behind the parser: `term` is the term of the search text, if there is one.
A null pointer among the operands is returned at once. -/
def constructFromTerm (fuel : ℕ) (term : Option Term) (q : Query) : Option PostingTree :=
  (match term with
    | none => some []
    | some term =>
      (constructQuery qt tr fuel (expandScopes (cleanedScopes qt q.searchScopes) term)).map
        fun it => [it]).map fun vec =>
    let vec := vec ++ (filters qt tr q).map Lookup.tree
    if vec.any isNull then .null else .and vec

/-- `constructFromQuery`. -/
def constructFromQuery (fuel : ℕ) (q : Query) : Option (Option PostingIterator) :=
  (constructFromTerm qt tr fuel
    (if q.searchString.isEmpty then none else some (parse q.searchString.chars)) q).bind
      (PostingTree.build fuel)

end

end Baloo.Search
