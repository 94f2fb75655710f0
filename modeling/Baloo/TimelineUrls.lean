import Baloo.UrlForest
import Mathlib.Data.List.Basic
import Mathlib.Data.List.Infix
import Mathlib.Data.Int.Order.Basic

/-!
# Addresses of the timeline

The folders of the timeline are told apart by their addresses: the root, the calendar, the months and the
days. Before an address is looked at, it is brought into a normal form, and an address that is not in
normal form is redirected. A folder whose name is made from a date is found again under that name
(`parse_month`, `parse_day`).
-/

namespace Baloo

/-! ## Dates -/

/-- A leap year; there is no year zero. -/
def isLeapYear (year : ℤ) : Bool :=
  let y := if year < 1 then year + 1 else year
  y % 4 = 0 && (y % 100 ≠ 0 || y % 400 = 0)

/-- `QDate::daysInMonth` -/
def daysInMonth (year : ℤ) (month : ℕ) : ℕ :=
  if month = 2 then if isLeapYear year then 29 else 28
  else if month = 4 ∨ month = 6 ∨ month = 9 ∨ month = 11 then 30
  else 31

/-- `QDate::isValid` -/
def isValidDate (year : ℤ) (month day : ℕ) : Bool :=
  year ≠ 0 && 1 ≤ month && month ≤ 12 && 1 ≤ day && day ≤ daysInMonth year month

/-- A valid `QDate`; the invalid one is `none`. -/
structure QDate where
  year : ℤ
  month : ℕ
  day : ℕ
  isValid : isValidDate year month day = true
  deriving DecidableEq

namespace QDate

/-- `QDate(year, month, day)` -/
def ofParts (year : ℤ) (month day : ℕ) : Option QDate :=
  if h : isValidDate year month day = true then some ⟨year, month, day, h⟩ else none

/-- `operator<=` -/
def le (a b : QDate) : Bool :=
  a.year < b.year || a.year = b.year && (a.month < b.month || a.month = b.month && a.day ≤ b.day)

theorem ofParts_self (date : QDate) : ofParts date.year date.month date.day = some date := by
  rw [ofParts, dif_pos date.isValid]

end QDate

/-- A number with at least so many digits. -/
def padded (width n : ℕ) : List Char := List.leftpad width '0' (Nat.toDigits 10 n)

namespace QDate

/-- `yyyy` -/
def yearString (year : ℤ) : List Char := (if year < 0 then ['-'] else []) ++ padded 4 year.natAbs

/-- `toString("yyyy-MM")` -/
def monthString (year : ℤ) (month : ℕ) : List Char := yearString year ++ '-' :: padded 2 month

/-- `toString("yyyy-MM-dd")` -/
def dayString (date : QDate) : List Char := monthString date.year date.month ++ '-' :: padded 2 date.day

end QDate

/-- `\d{4}-\d{2}(?:-(\d{2}))?`, anchored: whether there is a day. -/
def matchDate (text : List Char) : Option Bool :=
  match text with
  | [a, b, c, d, '-', e, f] => if [a, b, c, d, e, f].all Char.isDigit then some false else none
  | [a, b, c, d, '-', e, f, '-', g, h] =>
    if [a, b, c, d, e, f, g, h].all Char.isDigit then some true else none
  | _ => none

namespace QDate

/-- `QDate::fromString(text, "yyyy-MM")`, of a text that is matched -/
def fromMonth (text : List Char) : Option QDate :=
  ofParts (Nat.ofDigitChars 10 (text.take 4) 0) (Nat.ofDigitChars 10 ((text.drop 5).take 2) 0) 1

/-- `QDate::fromString(text, "yyyy-MM-dd")`, of a text that is matched -/
def fromDay (text : List Char) : Option QDate :=
  ofParts (Nat.ofDigitChars 10 (text.take 4) 0) (Nat.ofDigitChars 10 ((text.drop 5).take 2) 0)
    (Nat.ofDigitChars 10 ((text.drop 8).take 2) 0)

end QDate

/-! ## Names of dates -/

section

variable {width n : ℕ}

theorem length_padded (h : n < 10 ^ width) (hpos : 0 < width) : (padded width n).length = width := by
  have hlen : (Nat.toDigits 10 n).length ≤ width := (Nat.length_toDigits_le_iff (by decide) hpos).mpr h
  rw [padded, List.length_leftpad]
  exact max_eq_left hlen

theorem isDigit_of_mem_padded {c : Char} (h : c ∈ padded width n) : c.isDigit = true := by
  rw [padded, List.leftpad] at h
  rcases List.mem_append.mp h with hzero | hdigit
  · rw [List.eq_of_mem_replicate hzero]
    rfl
  · exact Nat.isDigit_of_mem_toDigits (by decide) (by decide) hdigit

theorem ofDigitChars_padded (width n : ℕ) : Nat.ofDigitChars 10 (padded width n) 0 = n := by
  rw [padded, List.leftpad, Nat.ofDigitChars_append, Nat.ofDigitChars_replicate_zero, Nat.mul_zero,
    Nat.ofDigitChars_ten_toDigits]

end

theorem exists_pair {l : List Char} (h : l.length = 2) : ∃ a b, l = [a, b] := List.length_eq_two.mp h

theorem exists_four {l : List Char} (h : l.length = 4) : ∃ a b c d, l = [a, b, c, d] := by
  match l, h with
  | [a, b, c, d], _ => exact ⟨a, b, c, d, rfl⟩

theorem matchDate_month {year month : List Char} (hyear : year.length = 4) (hmonth : month.length = 2)
    (hdigits : ∀ c ∈ year ++ month, c.isDigit = true) : matchDate (year ++ '-' :: month) = some false := by
  obtain ⟨a, b, c, d, rfl⟩ := exists_four hyear
  obtain ⟨e, f, rfl⟩ := exists_pair hmonth
  exact if_pos (List.all_eq_true.mpr hdigits)

theorem matchDate_day {year month day : List Char} (hyear : year.length = 4) (hmonth : month.length = 2)
    (hday : day.length = 2) (hdigits : ∀ c ∈ year ++ month ++ day, c.isDigit = true) :
    matchDate (year ++ '-' :: month ++ '-' :: day) = some true := by
  obtain ⟨a, b, c, d, rfl⟩ := exists_four hyear
  obtain ⟨e, f, rfl⟩ := exists_pair hmonth
  obtain ⟨g, h, rfl⟩ := exists_pair hday
  exact if_pos (List.all_eq_true.mpr hdigits)

namespace QDate

/-- The year has four digits. -/
def HasFourDigits (year : ℤ) : Prop := 0 < year ∧ year < 10000

section

variable {year : ℤ} {month day : ℕ}

theorem yearString_eq (h : HasFourDigits year) : yearString year = padded 4 year.natAbs := by
  rw [yearString, if_neg (not_lt.mpr h.1.le), List.nil_append]

theorem length_year (h : HasFourDigits year) : (padded 4 year.natAbs).length = 4 := by
  refine length_padded ?_ (by decide)
  have hlt := h.2
  have hpos := h.1
  omega

theorem le_of_isValidDate (h : isValidDate year month day = true) :
    1 ≤ month ∧ month ≤ 12 ∧ 1 ≤ day ∧ day ≤ 31 := by
  simp only [isValidDate, Bool.and_eq_true, decide_eq_true_eq] at h
  obtain ⟨⟨⟨⟨-, hm1⟩, hm2⟩, hd1⟩, hd2⟩ := h
  refine ⟨hm1, hm2, hd1, hd2.trans ?_⟩
  rw [daysInMonth]
  split_ifs <;> decide

theorem length_part {n : ℕ} (h : n ≤ 31) : (padded 2 n).length = 2 :=
  length_padded (by omega) (by decide)

theorem matchDate_monthString (hyear : HasFourDigits year) (hmonth : month ≤ 12) :
    matchDate (monthString year month) = some false := by
  rw [monthString, yearString_eq hyear]
  refine matchDate_month (length_year hyear) (length_part (by omega)) fun c hc => ?_
  exact (List.mem_append.mp hc).elim isDigit_of_mem_padded isDigit_of_mem_padded

theorem matchDate_dayString {date : QDate} (hyear : HasFourDigits date.year) :
    matchDate date.dayString = some true := by
  obtain ⟨-, hmonth, -, hday⟩ := le_of_isValidDate date.isValid
  rw [dayString, monthString, yearString_eq hyear]
  refine matchDate_day (length_year hyear) (length_part (by omega)) (length_part hday) fun c hc => ?_
  rcases List.mem_append.mp hc with hc | hc
  · exact (List.mem_append.mp hc).elim isDigit_of_mem_padded isDigit_of_mem_padded
  · exact isDigit_of_mem_padded hc

/-- The name of a month is read back. -/
theorem fromMonth_monthString (hyear : HasFourDigits year) (hmonth : month ≤ 12) :
    fromMonth (monthString year month) = ofParts year month 1 := by
  have htake : (monthString year month).take 4 = padded 4 year.natAbs := by
    rw [monthString, yearString_eq hyear, List.take_left' (length_year hyear)]
  have hdrop : ((monthString year month).drop 5).take 2 = padded 2 month := by
    rw [monthString, yearString_eq hyear, List.append_cons,
      List.drop_left' (by rw [List.length_append, length_year hyear]; rfl)]
    exact List.take_of_length_le (length_part (by omega)).le
  rw [fromMonth, htake, hdrop, ofDigitChars_padded, ofDigitChars_padded, Int.natAbs_of_nonneg hyear.1.le]

/-- The name of a day is read back. -/
theorem fromDay_dayString {date : QDate} (hyear : HasFourDigits date.year) :
    fromDay date.dayString = some date := by
  obtain ⟨-, hmonth, -, hday⟩ := le_of_isValidDate date.isValid
  have hlen : (padded 4 date.year.natAbs ++ '-' :: padded 2 date.month).length = 7 := by
    rw [List.length_append, List.length_cons, length_year hyear, length_part (by omega)]
  have htake : date.dayString.take 4 = padded 4 date.year.natAbs := by
    rw [dayString, monthString, yearString_eq hyear, List.append_assoc, List.take_left' (length_year hyear)]
  have hmiddle : (date.dayString.drop 5).take 2 = padded 2 date.month := by
    rw [dayString, monthString, yearString_eq hyear, List.append_assoc, List.cons_append, List.append_cons,
      List.drop_left' (by rw [List.length_append, length_year hyear]; rfl),
      List.take_left' (length_part (by omega))]
  have hdrop : (date.dayString.drop 8).take 2 = padded 2 date.day := by
    rw [dayString, monthString, yearString_eq hyear, List.append_cons,
      List.drop_left' (by rw [List.length_append, hlen]; rfl)]
    exact List.take_of_length_le (length_part hday).le
  rw [fromDay, htake, hmiddle, hdrop, ofDigitChars_padded, ofDigitChars_padded, ofDigitChars_padded,
    Int.natAbs_of_nonneg hyear.1.le, ofParts_self]

theorem slash_notMem_monthString (hyear : HasFourDigits year) : '/' ∉ monthString year month := by
  have hdigit : ∀ {width n}, '/' ∉ padded width n := fun hmem =>
    absurd (isDigit_of_mem_padded hmem) (by decide)
  rw [monthString, yearString_eq hyear]
  simp [hdigit]

theorem slash_notMem_dayString {date : QDate} (hyear : HasFourDigits date.year) : '/' ∉ date.dayString := by
  have hdigit : ∀ {width n}, '/' ∉ padded width n := fun hmem =>
    absurd (isDigit_of_mem_padded hmem) (by decide)
  rw [dayString]
  simp [hdigit, slash_notMem_monthString hyear]

end

end QDate

/-! ## Addresses -/

/-- What stands between two slashes. -/
abbrev Section : Type := List Char

/-- `path.split('/', Qt::SkipEmptyParts)` -/
def sections (path : List Char) : List Section := (path.splitOn '/').filter (· ≠ [])

/-- The path with these sections. -/
def pathOf : List Section → List Char
  | [] => ['/']
  | names => (names.map ('/' :: ·)).flatten

/-- `canonicalizeTimelineUrl`, of the path of an address. -/
def canonicalizeTimelineUrl (path : List Char) : List Char :=
  let path := if ['/', '/'] <:+: path then '/' :: ['/'].intercalate (sections path) else path
  let path := if 1 < path.length ∧ path.getLast? = some '/' then path.dropLast else path
  if path.head? = some '/' then path else '/' :: path

/-! ### The normal form -/

/-- The path without a slash at its end. -/
def trimmed (path : List Char) : List Char :=
  if path.getLast? = some '/' then path.dropLast else path

theorem sections_cons_slash (path : List Char) : sections ('/' :: path) = sections path := by
  have hsplit := @List.splitOn_append_cons_self Char _ _ '/' [] path
  rw [List.nil_append, List.splitOn_nil, List.singleton_append] at hsplit
  rw [sections, sections, hsplit, List.filter_cons_of_neg (by simp)]

theorem sections_append_slash {name : Section} (hname : '/' ∉ name) (hne : name ≠ []) (path : List Char) :
    sections (name ++ '/' :: path) = name :: sections path := by
  rw [sections, sections, List.splitOn_append_cons_self, List.splitOn_eq_singleton hname,
    List.singleton_append, List.filter_cons_of_pos (by simpa using hne)]

theorem sections_singleton {name : Section} (hname : '/' ∉ name) (hne : name ≠ []) :
    sections name = [name] := by
  rw [sections, List.splitOn_eq_singleton hname, List.filter_cons_of_pos (by simpa using hne),
    List.filter_nil]

theorem sections_nil : sections [] = [] := rfl

/-- Sections are not empty, and have no slash. -/
def AreSections (names : List Section) : Prop := ∀ name ∈ names, name ≠ [] ∧ '/' ∉ name

theorem areSections_sections (path : List Char) : AreSections (sections path) := by
  intro name hname
  obtain ⟨hmem, hne⟩ := List.mem_filter.mp hname
  refine ⟨by simpa using hne, fun hslash => ?_⟩
  have hfalse := eq_false_of_mem_splitOnP (q := (· == '/')) hmem hslash
  simp at hfalse

theorem slash_intercalate (names : List Section) : '/' :: ['/'].intercalate names = pathOf names := by
  induction names with
  | nil => rfl
  | cons name names ih =>
    cases names with
    | nil => simp [pathOf]
    | cons name' names =>
      rw [List.intercalate_cons_cons, List.append_assoc, List.singleton_append, ih]
      simp [pathOf]

theorem sections_pathOf {names : List Section} (h : AreSections names) : sections (pathOf names) = names := by
  rw [← slash_intercalate, sections_cons_slash]
  rcases eq_or_ne names [] with rfl | hne
  · rfl
  · rw [sections, List.splitOn_intercalate '/' (fun name hname => (h name hname).2) hne]
    exact List.filter_eq_self.mpr fun name hname => by simpa using (h name hname).1

/-- A path without two slashes in a row that does not begin with one. -/
theorem cons_trimmed {path : List Char} (hhead : path.head? ≠ some '/') (h : ¬ ['/', '/'] <:+: path) :
    '/' :: trimmed path = pathOf (sections path) := by
  generalize hn : path.length = n
  induction n using Nat.strongRecOn generalizing path with
  | ind n ih =>
    by_cases hslash : '/' ∈ path
    · obtain ⟨name, rest, rfl, hname⟩ := List.eq_append_cons_of_mem hslash
      have hne : name ≠ [] := by
        rintro rfl
        exact hhead rfl
      have hrest : rest.head? ≠ some '/' := fun hsome => by
        obtain ⟨rest, rfl⟩ := List.head?_eq_some_iff.mp hsome
        exact h ⟨name, rest, by simp⟩
      have hrest' : ¬ ['/', '/'] <:+: rest := fun hwithin =>
        h (hwithin.trans ⟨name ++ ['/'], [], by simp⟩)
      have hshorter : rest.length < n := by
        rw [← hn, List.length_append, List.length_cons]
        omega
      have hinner := ih rest.length hshorter hrest hrest' rfl
      rw [sections_append_slash hname hne]
      cases rest with
      | nil => simp [trimmed, sections_nil, pathOf]
      | cons c rest =>
        have htrimmed : trimmed (name ++ '/' :: c :: rest) = name ++ '/' :: trimmed (c :: rest) := by
          have hlast : (name ++ '/' :: c :: rest).getLast? = (c :: rest).getLast? := by
            rw [List.append_cons, List.getLast?_append_of_ne_nil _ (List.cons_ne_nil _ _)]
          rw [trimmed, trimmed, hlast]
          split
          · rw [List.dropLast_append_of_ne_nil (List.cons_ne_nil _ _),
              List.dropLast_cons_of_ne_nil (List.cons_ne_nil _ _)]
          · rfl
        rw [htrimmed, hinner]
        have hsome : sections (c :: rest) ≠ [] := by
          intro hnil
          rw [hnil, pathOf] at hinner
          have htrim := (List.cons.inj hinner).2
          rw [trimmed] at htrim
          split at htrim
          · next hlast =>
            cases rest with
            | nil =>
              obtain rfl : c = '/' := Option.some.inj hlast
              exact hrest rfl
            | cons d rest => cases htrim
          · cases htrim
        cases hsections : sections (c :: rest) with
        | nil => exact absurd hsections hsome
        | cons name' names => simp [pathOf]
    · rcases eq_or_ne path [] with rfl | hne
      · rfl
      · have hlast : path.getLast? ≠ some '/' := fun hsome => hslash (List.mem_of_getLast? hsome)
        rw [trimmed, if_neg hlast, sections_singleton hslash hne]
        simp [pathOf]

/-- What is left to be done when the sections have been joined: nothing. -/
theorem head?_pathOf (names : List Section) : (pathOf names).head? = some '/' := by
  cases names with
  | nil => rfl
  | cons name names => simp [pathOf]

theorem getLast?_pathOf {names : List Section} (h : AreSections names) (hne : names ≠ []) :
    (pathOf names).getLast? ≠ some '/' := by
  rcases List.eq_nil_or_concat names with rfl | ⟨names, name, rfl⟩
  · exact absurd rfl hne
  · rw [List.concat_eq_append] at h ⊢
    obtain ⟨hname, hslash⟩ := h name (by simp)
    have hpath : pathOf (names ++ [name]) = (names.map ('/' :: ·)).flatten ++ '/' :: name := by
      cases names <;> simp [pathOf]
    obtain ⟨c, hlast⟩ := Option.ne_none_iff_exists'.mp (mt List.getLast?_eq_none_iff.mp hname)
    rw [hpath]
    simp only [List.getLast?_append, List.getLast?_cons, hlast, Option.getD_some, Option.some_or]
    rintro heq
    obtain rfl := Option.some.inj heq
    exact hslash (List.mem_of_getLast? hlast)

/-- The normal form of a path has its sections. -/
theorem canonicalizeTimelineUrl_eq (path : List Char) :
    canonicalizeTimelineUrl path = pathOf (sections path) := by
  rw [canonicalizeTimelineUrl]
  by_cases hwithin : ['/', '/'] <:+: path
  · have hlast : ¬ (1 < (pathOf (sections path)).length ∧ (pathOf (sections path)).getLast? = some '/') := by
      rintro ⟨hlen, hlast⟩
      refine getLast?_pathOf (areSections_sections path) (fun hnil => ?_) hlast
      rw [hnil] at hlen
      exact Nat.lt_irrefl 1 hlen
    simp only [if_pos hwithin, slash_intercalate, if_neg hlast, head?_pathOf, if_true]
  · simp only [if_neg hwithin]
    cases path with
    | nil => rfl
    | cons c path =>
      rcases eq_or_ne c '/' with rfl | hc
      · cases path with
        | nil => rfl
        | cons d path =>
          have hhead : (d :: path).head? ≠ some '/' := fun hsome => by
            obtain rfl : d = '/' := Option.some.inj hsome
            exact hwithin ⟨[], path, rfl⟩
          have hrest : ¬ ['/', '/'] <:+: d :: path := fun h => hwithin (h.trans (List.suffix_cons _ _).isInfix)
          have hlen : 1 < ('/' :: d :: path).length := by simp
          rw [sections_cons_slash, ← cons_trimmed hhead hrest, trimmed, List.getLast?_cons_cons]
          by_cases hlast : (d :: path).getLast? = some '/'
          · simp only [hlen, hlast, and_self, if_true]
            rfl
          · simp only [hlast, and_false, if_false]
            rfl
      · have hhead : (c :: path).head? ≠ some '/' := fun hsome => hc (Option.some.inj hsome)
        rw [← cons_trimmed hhead hwithin, trimmed]
        cases path with
        | nil => simp [hc]
        | cons d path => split <;> simp_all

/-- It is not changed again. -/
theorem canonicalizeTimelineUrl_idem (path : List Char) :
    canonicalizeTimelineUrl (canonicalizeTimelineUrl path) = canonicalizeTimelineUrl path := by
  rw [canonicalizeTimelineUrl_eq, canonicalizeTimelineUrl_eq, sections_pathOf (areSections_sections path)]

theorem canonicalizeTimelineUrl_pathOf {names : List Section} (h : AreSections names) :
    canonicalizeTimelineUrl (pathOf names) = pathOf names := by
  rw [canonicalizeTimelineUrl_eq, sections_pathOf h]

/-! ### Folders -/

/-- `TimelineFolderType` -/
inductive TimelineFolderType where
  | noFolder
  | rootFolder
  | calendarFolder
  | monthFolder
  | dayFolder
  deriving DecidableEq

/-- What the parser of addresses finds. -/
structure TimelineFolder where
  folderType : TimelineFolderType := .noFolder
  /-- `*date`, `none` if it is not valid -/
  date : Option QDate := none
  /-- `*filename`, if it is set -/
  filename : Option (List Char) := none

/-- An address of the timeline: its path, and the items of its query. -/
structure TimelineUrl where
  path : List Char
  queryItems : List (List Char × List Char) := []
  deriving DecidableEq

/-- What the timeline takes from Qt. -/
structure TimelineLibrary where
  /-- `QDate::currentDate` -/
  currentDate : QDate
  /-- `QString::toInt` -/
  toInt : List Char → Option ℤ
  /-- `QDate::addYears` -/
  addYears : Option QDate → ℤ → Option QDate
  /-- `QDate::addMonths` -/
  addMonths : Option QDate → ℤ → Option QDate
  /-- `QDate::addDays` -/
  addDays : Option QDate → ℤ → Option QDate

namespace TimelineLibrary

variable (qt : TimelineLibrary)

/-- The number that a modificator gives; of two with the same key the last is inserted. -/
def modificator (queryItems : List (List Char × List Char)) (key : String) : Option ℤ :=
  (queryItems.reverse.lookup key.toList).bind qt.toInt

/-- `applyRelativeDateModificators` -/
def applyRelativeDateModificators (date : Option QDate) (queryItems : List (List Char × List Char)) :
    Option QDate :=
  let newDate := match qt.modificator queryItems "relYears" with
    | some relYears => qt.addYears date relYears
    | none => date
  let newDate := match qt.modificator queryItems "relMonths" with
    | some relMonths => qt.addMonths newDate relMonths
    | none => newDate
  let newDate := match qt.modificator queryItems "relWeeks" with
    | some relWeeks => qt.addDays newDate (relWeeks * 7)
    | none => newDate
  match qt.modificator queryItems "relDays" with
  | some relDays => qt.addDays newDate relDays
  | none => newDate

/-- The end of `parseTimelineUrl`, for a section that has been matched. -/
def parseDate (url : TimelineUrl) (dateString : Section) (day : Bool) (filename : Option (List Char)) :
    TimelineFolder :=
  if !day then
    let date := QDate.fromMonth dateString
    -- `month()` and `year()` of an invalid date are zero
    match date with
    | some valid => { folderType := if 0 < valid.year then .monthFolder else .noFolder, date, filename }
    | none => { date, filename }
  else
    let date := qt.applyRelativeDateModificators (QDate.fromDay dateString) url.queryItems
    { folderType := if date.isSome then .dayFolder else .noFolder, date, filename }

/-- `parseTimelineUrl`; `none` if the last section of a path without sections is asked for. -/
def parseTimelineUrl (url : TimelineUrl) : Option TimelineFolder :=
  let path := if url.path.getLast? = some '/' then url.path.dropLast else url.path
  if path = [] then some { folderType := .rootFolder }
  else if "/today".toList.isPrefixOf path then
    some { folderType := .dayFolder, date := some qt.currentDate, filename := some (path.drop 7) }
  else if path = "/calendar".toList then some { folderType := .calendarFolder }
  else
    match (sections path).reverse with
    | [] => none
    | last :: before =>
      match matchDate last with
      | some day => some (qt.parseDate url last day none)
      | none =>
        match before.head?.bind fun dateString => (matchDate dateString).map fun day => (dateString, day) with
        | some (dateString, day) => some (qt.parseDate url dateString day (some last))
        | none => some {}

/-! ### What is parsed -/

/-- A path in normal form has a section to look at. -/
theorem parseTimelineUrl_isSome {names : List Section} (h : AreSections names)
    (queryItems : List (List Char × List Char)) :
    (qt.parseTimelineUrl { path := pathOf names, queryItems }).isSome = true := by
  rw [parseTimelineUrl]
  dsimp only
  rcases eq_or_ne names [] with rfl | hne
  · rfl
  · rw [if_neg (getLast?_pathOf h hne), sections_pathOf h]
    have hreverse : names.reverse ≠ [] := by simpa using hne
    split_ifs
    · rfl
    · rfl
    · rfl
    · obtain ⟨last, before, heq⟩ := List.exists_cons_of_ne_nil hreverse
      rw [heq]
      dsimp only
      split
      · rfl
      · split <;> rfl

/-- A folder below the calendar. -/
theorem parseTimelineUrl_calendar {names : List Section} (h : AreSections names) (hne : names ≠ []) :
    qt.parseTimelineUrl { path := pathOf ("calendar".toList :: names) } =
      match names.reverse ++ ["calendar".toList] with
      | [] => none
      | last :: before =>
        match matchDate last with
        | some day => some (qt.parseDate { path := pathOf ("calendar".toList :: names) } last day none)
        | none =>
          match before.head?.bind fun dateString => (matchDate dateString).map fun day => (dateString, day) with
          | some (dateString, day) =>
            some (qt.parseDate { path := pathOf ("calendar".toList :: names) } dateString day (some last))
          | none => some {} := by
  have hall : AreSections ("calendar".toList :: names) := by
    intro name hname
    rcases List.mem_cons.mp hname with rfl | hname
    · exact ⟨by decide, by decide⟩
    · exact h name hname
  have hpath : pathOf ("calendar".toList :: names) = "/calendar".toList ++ (names.map ('/' :: ·)).flatten := rfl
  have hmore : (names.map ('/' :: ·)).flatten ≠ [] := by
    obtain ⟨name, names, rfl⟩ := List.exists_cons_of_ne_nil hne
    simp
  rw [parseTimelineUrl]
  dsimp only
  rw [if_neg (getLast?_pathOf hall (List.cons_ne_nil _ _)), sections_pathOf hall, List.reverse_cons,
    if_neg (by rw [hpath]; exact List.append_ne_nil_of_left_ne_nil (by decide) _),
    if_neg (by rw [hpath]; simp), if_neg (by rw [hpath]; simpa using hmore)]

/-- The folder of a month. -/
theorem parse_month {year : ℤ} {month : ℕ} (hyear : QDate.HasFourDigits year) (hmonth : 1 ≤ month ∧ month ≤ 12) :
    qt.parseTimelineUrl { path := pathOf ["calendar".toList, QDate.monthString year month] } =
      some { folderType := .monthFolder, date := QDate.ofParts year month 1 } := by
  have hvalid : isValidDate year month 1 = true := by
    have hdays : 1 ≤ daysInMonth year month := by
      rw [daysInMonth]
      split_ifs <;> decide
    simp [isValidDate, hyear.1.ne', hmonth.1, hmonth.2, hdays]
  have hsections : AreSections [QDate.monthString year month] := by
    intro name hname
    obtain rfl := List.mem_singleton.mp hname
    exact ⟨by simp [QDate.monthString], QDate.slash_notMem_monthString hyear⟩
  rw [qt.parseTimelineUrl_calendar hsections (List.cons_ne_nil _ _), List.reverse_singleton, List.singleton_append]
  dsimp only
  rw [QDate.matchDate_monthString hyear hmonth.2]
  dsimp only
  rw [parseDate, Bool.not_false, if_pos rfl, QDate.fromMonth_monthString hyear hmonth.2, QDate.ofParts,
    dif_pos hvalid]
  dsimp only
  rw [if_pos hyear.1]

/-- The folder of a day. -/
theorem parse_day {year : ℤ} {month : ℕ} {date : QDate} (hyear : QDate.HasFourDigits year)
    (hdate : QDate.HasFourDigits date.year) :
    qt.parseTimelineUrl { path := pathOf ["calendar".toList, QDate.monthString year month, date.dayString] } =
      some { folderType := .dayFolder, date := some date } := by
  have hsections : AreSections [QDate.monthString year month, date.dayString] := by
    intro name hname
    rcases List.mem_cons.mp hname with rfl | hname
    · exact ⟨by simp [QDate.monthString], QDate.slash_notMem_monthString hyear⟩
    · obtain rfl := List.mem_singleton.mp hname
      exact ⟨by simp [QDate.dayString], QDate.slash_notMem_dayString hdate⟩
  rw [qt.parseTimelineUrl_calendar hsections (List.cons_ne_nil _ _)]
  simp only [List.reverse_cons, List.reverse_nil, List.nil_append, List.cons_append]
  rw [QDate.matchDate_dayString hdate]
  dsimp only
  rw [parseDate, Bool.not_true, if_neg Bool.false_ne_true, QDate.fromDay_dayString hdate]
  rfl

end TimelineLibrary

end Baloo
