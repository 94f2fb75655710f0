import Baloo.DateSearch
import Baloo.ResultPages
import Baloo.TimelineUrls

/-!
# Browsing the timeline

The worker lists the folders of the timeline: the root, the months of this year, the days of a month, and
the documents of a day, each found by a search with a date filter. Who goes down from the root finds
exactly the documents that have been changed this year and not after today (`timeline_browsed`).

The name of a file in an address is kept from one request to the next. Where it is not set again, a day
folder is asked for with the name of an earlier request, and nothing is said about it
(`stat_day_iff`).
-/

namespace Baloo

open Fuel (Returns)
open Search

/-- An entry of a folder. -/
inductive TimelineEntry where
  /-- `createFolderUDSEntry` -/
  | folder (name : List Char)
  /-- `createDateFolderUDSEntry`, without the name to be shown -/
  | dateFolder (name : List Char) (date : QDate)
  /-- `UdsFactory::createUdsEntry` -/
  | file (result : SearchResult)

/-- What a request is answered with. -/
inductive TimelineResponse where
  | redirection (url : TimelineUrl)
  | entries (entries : List TimelineEntry)
  | mimetype
  /-- `KIO::ERR_DOES_NOT_EXIST` -/
  | doesNotExist

/-- `createMonthUDSEntry`; the month is valid. -/
def createMonthUDSEntry (month : ℕ) (year : ℤ) : Option TimelineEntry :=
  (QDate.ofParts year month 1).map fun date => .dateFolder (QDate.monthString year month) date

/-- `createDayUDSEntry` -/
def createDayUDSEntry (date : QDate) : TimelineEntry := .dateFolder date.dayString date

/-- `TimelineProtocol` -/
structure TimelineProtocol where
  date : Option QDate := none
  filename : List Char := []

/-- What the worker uses. -/
structure TimelineWorker (Date Double : Type) where
  lib : TimelineLibrary
  /-- the search -/
  qt : Platform Date Double
  /-- the index -/
  tr : Lookups Double
  docs : Documents
  sorting : Sorting
  /-- a file is there to make an entry of -/
  isThere : QByteArray → Bool

namespace TimelineWorker

variable {Date Double : Type} (w : TimelineWorker Date Double)

/-- A query with a date filter. -/
def dateQuery (limit : UInt32) (year : ℤ) (month day : ℕ) : PagedQuery where
  searchString := none
  searchScopes := []
  types := []
  includeFolder := none
  yearFilter := year
  monthFilter := month
  dayFilter := day
  sortingOption := .sortNone
  limit := limit
  offset := 0

/-- Whether the query has a result: `it.next()`. -/
def hasResult (fuel : ℕ) (query : PagedQuery) : Option Bool :=
  (exec w.qt w.tr w.docs w.sorting fuel query).map fun results => !results.isEmpty

/-- `filesInDate` -/
def filesInDate (fuel : ℕ) (date : QDate) : Option Bool :=
  w.hasResult fuel (dateQuery 1 date.year date.month date.day)

/-- The days of a month. -/
def daysOf (year : ℤ) (month : ℕ) : List QDate :=
  (List.range' 1 (daysInMonth year month)).filterMap (QDate.ofParts year month)

/-- `listDays` -/
def listDays (fuel : ℕ) (month : ℕ) (year : ℤ) : Option (List TimelineEntry) :=
  ((daysOf year month).mapM fun date : QDate =>
    if date.le w.lib.currentDate then
      (w.filesInDate fuel date).map fun found => if found then [createDayUDSEntry date] else []
    else some []).map List.flatten

/-- `listThisYearsMonths` -/
def listThisYearsMonths (fuel : ℕ) : Option (List TimelineEntry) :=
  let year := w.lib.currentDate.year
  ((List.range' 1 w.lib.currentDate.month).mapM fun month =>
    (w.hasResult fuel (dateQuery 1 year month 0)).map fun found =>
      if found then (createMonthUDSEntry month year).toList else []).map List.flatten

/-- The documents of a day. -/
def listFiles (fuel : ℕ) (date : QDate) : Option (List TimelineEntry) :=
  (exec w.qt w.tr w.docs w.sorting fuel (dateQuery unlimited date.year date.month date.day)).map fun results =>
    (results.filter fun result => w.isThere result.filePath).map .file

/-- What `parseTimelineUrl` leaves in the members. -/
def found (protocol : TimelineProtocol) (folder : TimelineFolder) : TimelineProtocol where
  date := folder.date
  filename := folder.filename.getD protocol.filename

/-- The switch of `listDir`. -/
def listFolder (fuel : ℕ) (folder : TimelineFolder) : Option TimelineResponse :=
  match folder.folderType, folder.date with
  | .rootFolder, _ => some (.entries [.folder ['.'],
      .dateFolder "today".toList w.lib.currentDate, .dateFolder "calendar".toList w.lib.currentDate])
  | .calendarFolder, _ => (w.listThisYearsMonths fuel).map fun months => .entries (.folder ['.'] :: months)
  | .monthFolder, some date =>
    (w.listDays fuel date.month date.year).map fun days => .entries (.folder ['.'] :: days)
  | .dayFolder, some date => (w.listFiles fuel date).map fun files => .entries (.folder ['.'] :: files)
  | _, _ => some .doesNotExist

/-- The switch of `stat`. -/
def statFolder (protocol : TimelineProtocol) (folder : TimelineFolder) : TimelineResponse :=
  match folder.folderType, folder.date with
  | .rootFolder, _ => .entries [.folder ['/']]
  | .calendarFolder, _ => .entries [.dateFolder "calendar".toList w.lib.currentDate]
  | .monthFolder, some date => .entries (createMonthUDSEntry date.month date.year).toList
  | .dayFolder, some date => .entries (if protocol.filename = [] then [createDayUDSEntry date] else [])
  | _, _ => .doesNotExist

/-- The switch of `mimetype`. -/
def mimetypeFolder (folder : TimelineFolder) : TimelineResponse :=
  match folder.folderType with
  | .rootFolder => .mimetype
  | .calendarFolder => .mimetype
  | .monthFolder => .mimetype
  | .dayFolder => .mimetype
  | .noFolder => .doesNotExist

/-- The head of the requests, and their switch; an assertion may fail in the parser. -/
def request (switch : TimelineProtocol → TimelineFolder → Option TimelineResponse) (protocol : TimelineProtocol)
    (url : TimelineUrl) : Option (TimelineProtocol × TimelineResponse) :=
  let canonicalUrl := { url with path := canonicalizeTimelineUrl url.path }
  if url ≠ canonicalUrl then some (protocol, .redirection canonicalUrl)
  else
    (w.lib.parseTimelineUrl url).bind fun folder =>
      (switch (found protocol folder) folder).map fun answer => (found protocol folder, answer)

/-- `listDir` -/
def listDir (fuel : ℕ) : TimelineProtocol → TimelineUrl → Option (TimelineProtocol × TimelineResponse) :=
  w.request fun _ folder => w.listFolder fuel folder

/-- `stat` -/
def stat : TimelineProtocol → TimelineUrl → Option (TimelineProtocol × TimelineResponse) :=
  w.request fun protocol folder => some (w.statFolder protocol folder)

/-- `mimetype` -/
def mimetype : TimelineProtocol → TimelineUrl → Option (TimelineProtocol × TimelineResponse) :=
  w.request fun _ folder => some (mimetypeFolder folder)

end TimelineWorker

/-! ## The days of a year -/

/-- What is known of the dates of a year: `QDate` gives their parts back, a day ends where the next one of
its month begins, and the year lies within the times of the index. -/
structure CivilYear {Date Double : Type} (qt : Platform Date Double) (year : ℤ) : Prop where
  digits : QDate.HasFourDigits year
  parts : ∀ month day, isValidDate year month day = true →
    qt.year (qt.date year month day) = year ∧ qt.month (qt.date year month day) = month
  days : ∀ month : ℕ, 1 ≤ month → month ≤ 12 → qt.daysInMonth (qt.date year month 1) = daysInMonth year month
  le : ∀ month day, isValidDate year month day = true →
    qt.startOfDay (qt.date year month day) ≤ qt.endOfDay (qt.date year month day)
  next : ∀ month day : ℕ, isValidDate year month day = true → isValidDate year month (day + 1) = true →
    qt.endOfDay (qt.date year month day) + 1 = qt.startOfDay (qt.date year month (day + 1 : ℕ))
  range : ∀ month day, isValidDate year month day = true →
    0 ≤ qt.startOfDay (qt.date year month day) ∧ qt.endOfDay (qt.date year month day) < 2 ^ 32

section

variable {Date Double : Type} {qt : Platform Date Double} {year : ℤ} {month day : ℕ}

theorem isValidDate_iff (hyear : year ≠ 0) : isValidDate year month day = true ↔
    1 ≤ month ∧ month ≤ 12 ∧ 1 ≤ day ∧ day ≤ daysInMonth year month := by
  simp [isValidDate, hyear, and_assoc]

theorem one_le_daysInMonth (year : ℤ) (month : ℕ) : 28 ≤ daysInMonth year month := by
  rw [daysInMonth]
  split_ifs <;> decide

/-- The month begins before its days end. -/
theorem CivilYear.first_le (h : CivilYear qt year) (hmonth : 1 ≤ month ∧ month ≤ 12) {last : ℕ}
    (hpos : 1 ≤ last) (hle : last ≤ daysInMonth year month) :
    qt.startOfDay (qt.date year month 1) ≤ qt.endOfDay (qt.date year month last) := by
  have hne := h.digits.1.ne'
  induction last, hpos using Nat.le_induction with
  | base => exact h.le month 1 ((isValidDate_iff hne).mpr ⟨hmonth.1, hmonth.2, le_refl 1, hle⟩)
  | succ last hpos ih =>
    have hvalid := (isValidDate_iff hne).mpr ⟨hmonth.1, hmonth.2, hpos, Nat.le_of_succ_le hle⟩
    have hvalid' := (isValidDate_iff hne).mpr ⟨hmonth.1, hmonth.2, Nat.le_add_left 1 last, hle⟩
    calc qt.startOfDay (qt.date year month 1)
        ≤ qt.endOfDay (qt.date year month last) := ih (Nat.le_of_succ_le hle)
      _ ≤ qt.startOfDay (qt.date year month (last + 1 : ℕ)) := by
          rw [← h.next month last hvalid hvalid']
          exact Int.le_add_one (le_refl _)
      _ ≤ qt.endOfDay (qt.date year month (last + 1 : ℕ)) := h.le month (last + 1) hvalid'

/-- A time of the month is a time of one of its days. -/
theorem CivilYear.mem_month_iff (h : CivilYear qt year) (hmonth : 1 ≤ month ∧ month ≤ 12) {last : ℕ}
    (hpos : 1 ≤ last) (hle : last ≤ daysInMonth year month) (t : ℤ) :
    qt.startOfDay (qt.date year month 1) ≤ t ∧ t ≤ qt.endOfDay (qt.date year month last) ↔
      ∃ day : ℕ, 1 ≤ day ∧ day ≤ last ∧ qt.startOfDay (qt.date year month day) ≤ t ∧
        t ≤ qt.endOfDay (qt.date year month day) := by
  have hne := h.digits.1.ne'
  induction last, hpos using Nat.le_induction with
  | base =>
    constructor
    · exact fun ht => ⟨1, le_refl 1, le_refl 1, ht⟩
    · rintro ⟨day, hone, hday, ht⟩
      obtain rfl := Nat.le_antisymm hday hone
      exact ht
  | succ last hpos ih =>
    have hvalid := (isValidDate_iff hne).mpr ⟨hmonth.1, hmonth.2, hpos, Nat.le_of_succ_le hle⟩
    have hvalid' := (isValidDate_iff hne).mpr ⟨hmonth.1, hmonth.2, Nat.le_add_left 1 last, hle⟩
    have hnext := h.next month last hvalid hvalid'
    have hday := h.le month (last + 1) hvalid'
    have hfirst := h.first_le hmonth hpos (Nat.le_of_succ_le hle)
    have hbefore := ih (Nat.le_of_succ_le hle)
    constructor
    · rintro ⟨hstart, hend⟩
      by_cases ht : t ≤ qt.endOfDay (qt.date year month last)
      · obtain ⟨day, hone, hday, hin⟩ := hbefore.mp ⟨hstart, ht⟩
        exact ⟨day, hone, Nat.le_succ_of_le hday, hin⟩
      · refine ⟨last + 1, Nat.le_add_left 1 last, le_refl _, ?_, hend⟩
        omega
    · rintro ⟨day, hone, hle', hin⟩
      rcases Nat.lt_or_ge last day with hlast | hlast
      · obtain rfl := Nat.le_antisymm hle' hlast
        refine ⟨?_, hin.2⟩
        omega
      · obtain ⟨hstart, hend⟩ := hbefore.mpr ⟨day, hone, hlast, hin⟩
        refine ⟨hstart, ?_⟩
        omega

end

/-! ## What a query finds -/

namespace TimelineWorker

variable {Date Double : Type} {w : TimelineWorker Date Double} {docTimeDb : DocumentTimeDB} {mtimeDb : MTimeDB}
  {year : ℤ} {month day : ℕ} {id : DocId}

/-- The index that the worker reads. -/
structure Reads (w : TimelineWorker Date Double) (docTimeDb : DocumentTimeDB) (mtimeDb : MTimeDB) : Prop where
  agree : TimesAgree docTimeDb mtimeDb
  fits : ∀ i info, OrdMap.get docTimeDb i = some info → info.mTime < 2 ^ 32
  reads : ReadsTimes w.tr mtimeDb
  /-- a query without a limit has a limit -/
  few : (OrdMap.keys docTimeDb).length < 2 ^ 32

/-- The document has been changed between these times. -/
def ChangedIn (docTimeDb : DocumentTimeDB) (first last : ℤ) (id : DocId) : Prop :=
  ∃ info, OrdMap.get docTimeDb id = some info ∧ first ≤ info.mTime ∧ info.mTime ≤ last

theorem matching_dateQuery (hyear : year ≠ 0) (limit : UInt32) :
    Matching w.qt w.tr (dateQuery limit year month day).toQuery =
      (constructDateQuery w.qt w.tr (dateQuery limit year month day).toQuery).ids := by
  have hno : ¬ ((dateQuery limit year month day).yearFilter = 0 ∧
      (dateQuery limit year month day).monthFilter = 0 ∧ (dateQuery limit year month day).dayFilter = 0) :=
    fun h => hyear h.1
  have hempty : (dateQuery limit year month day).searchString.isEmpty = true := rfl
  have hfolder : (dateQuery limit year month day).includeFolder.isEmpty = true := rfl
  rw [Matching, Search.selected, filters, if_pos hempty, if_pos hfolder, if_neg hno]
  exact inter_singleton _

/-- A filter whose days are known selects the documents that have been changed between them. -/
theorem mem_dateQuery (h : w.Reads docTimeDb mtimeDb) (hyear : year ≠ 0) {limit : UInt32}
    (hcalendar : Calendar w.qt (dateQuery limit year month day).toQuery)
    (hfirst : firstDay w.qt (dateQuery limit year month day).toQuery =
      startDay w.qt (dateQuery limit year month day).toQuery)
    (hlow : 0 ≤ w.qt.startOfDay (startDay w.qt (dateQuery limit year month day).toQuery))
    (hhigh : w.qt.endOfDay (lastDay w.qt (dateQuery limit year month day).toQuery) < 2 ^ 32) :
    id ∈ Matching w.qt w.tr (dateQuery limit year month day).toQuery ↔
      ChangedIn docTimeDb (w.qt.startOfDay (startDay w.qt (dateQuery limit year month day).toQuery))
        (w.qt.endOfDay (lastDay w.qt (dateQuery limit year month day).toQuery)) id := by
  have hle := hcalendar.le_last
  have hcut := (cut_range_iff hcalendar.first_le hle hcalendar.span).mpr
    (.inl ⟨by rw [hfirst, max_eq_right hlow], hlow.trans hle, hhigh⟩)
  rw [matching_dateQuery hyear, constructDateQuery_eq hcalendar, ids_of_agree h.agree h.reads]
  refine exists_congr fun info => and_congr_right fun hinfo => ?_
  rw [hcut info.mTime (h.fits id info hinfo), hfirst]

/-- The filter of a day. -/
theorem mem_day (h : w.Reads docTimeDb mtimeDb) (hyear : CivilYear w.qt year)
    (hvalid : isValidDate year month day = true) {limit : UInt32} :
    id ∈ Matching w.qt w.tr (dateQuery limit year month day).toQuery ↔
      ChangedIn docTimeDb (w.qt.startOfDay (w.qt.date year month day))
        (w.qt.endOfDay (w.qt.date year month day)) id := by
  obtain ⟨hmonth, hmonth', hday, hday'⟩ := QDate.le_of_isValidDate hvalid
  have hm : (dateQuery limit year month day).monthFilter ≠ 0 := Int.natCast_ne_zero.mpr (by omega)
  have hd : (dateQuery limit year month day).dayFilter ≠ 0 := Int.natCast_ne_zero.mpr (by omega)
  have hstart : startDay w.qt (dateQuery limit year month day).toQuery = w.qt.date year month day := by
    rw [startDay, if_neg hm, if_neg hd]
    rfl
  have hfirst : firstDay w.qt (dateQuery limit year month day).toQuery = w.qt.date year month day := by
    rw [firstDay, if_neg hm, if_neg hd]
    rfl
  have hlast : lastDay w.qt (dateQuery limit year month day).toQuery = w.qt.date year month day := by
    rw [lastDay, if_neg hm, if_neg hd]
    rfl
  obtain ⟨hy, hmo⟩ := hyear.parts month day hvalid
  obtain ⟨hlow, hhigh⟩ := hyear.range month day hvalid
  have hcalendar : Calendar w.qt (dateQuery limit year month day).toQuery :=
    { month := ⟨Int.natCast_nonneg _, by simpa [dateQuery] using hmonth'⟩
      day := ⟨Int.natCast_nonneg _, by simpa [dateQuery] using hday'⟩
      year_start := by rw [hstart]; exact hy
      month_start := by rw [hstart, hmo]; exact (if_neg hm).symm
      first_le := by rw [hstart, hfirst]
      le_last := by rw [hstart, hlast]; exact hyear.le month day hvalid
      span := by
        rw [hfirst, hlast]
        omega }
  have hmem := @mem_dateQuery _ _ _ _ _ _ _ _ id h hyear.digits.1.ne' _ hcalendar (hfirst.trans hstart.symm)
    (by rw [hstart]; exact hlow) (by rw [hlast]; exact hhigh)
  rwa [hstart, hlast] at hmem

/-- The filter of a month. -/
theorem mem_month (h : w.Reads docTimeDb mtimeDb) (hyear : CivilYear w.qt year)
    (hmonth : 1 ≤ month ∧ month ≤ 12) {limit : UInt32} :
    id ∈ Matching w.qt w.tr (dateQuery limit year month 0).toQuery ↔
      ∃ day, isValidDate year month day = true ∧ ChangedIn docTimeDb
        (w.qt.startOfDay (w.qt.date year month day)) (w.qt.endOfDay (w.qt.date year month day)) id := by
  have hne := hyear.digits.1.ne'
  have hm : (dateQuery limit year month 0).monthFilter ≠ 0 := Int.natCast_ne_zero.mpr (by omega)
  have hd : (dateQuery limit year month 0).dayFilter = 0 := rfl
  have hpos := (by decide : 1 ≤ 28).trans (one_le_daysInMonth year month)
  have hone := (isValidDate_iff hne).mpr ⟨hmonth.1, hmonth.2, le_refl 1, hpos⟩
  have hend := (isValidDate_iff hne).mpr ⟨hmonth.1, hmonth.2, hpos, le_refl _⟩
  have hstart : startDay w.qt (dateQuery limit year month 0).toQuery = w.qt.date year month 1 := by
    rw [startDay, if_neg hm, if_pos hd]
    rfl
  have hfirst : firstDay w.qt (dateQuery limit year month 0).toQuery = w.qt.date year month 1 := by
    rw [firstDay, if_neg hm, if_pos hd]
    rfl
  have hlast : lastDay w.qt (dateQuery limit year month 0).toQuery =
      w.qt.date year month (daysInMonth year month : ℕ) := by
    rw [lastDay, if_neg hm, if_pos hd, ← hyear.days month hmonth.1 hmonth.2]
    rfl
  obtain ⟨hy, hmo⟩ := hyear.parts month 1 hone
  have hlow := (hyear.range month 1 hone).1
  have hhigh := (hyear.range month _ hend).2
  have hle := hyear.first_le hmonth hpos (le_refl _)
  have hcalendar : Calendar w.qt (dateQuery limit year month 0).toQuery :=
    { month := ⟨Int.natCast_nonneg _, by simpa [dateQuery] using hmonth.2⟩
      day := ⟨hd.ge, hd.le.trans (by decide)⟩
      year_start := by rw [hstart]; exact hy
      month_start := by rw [hstart]; exact hmo.trans (if_neg hm).symm
      first_le := by rw [hstart, hfirst]
      le_last := by rw [hstart, hlast]; exact hle
      span := by
        rw [hfirst, hlast]
        have hlow' : 0 ≤ w.qt.startOfDay (w.qt.date year month 1) := hlow
        omega }
  have hmem := @mem_dateQuery _ _ _ _ _ _ _ _ id h hne _ hcalendar (hfirst.trans hstart.symm)
    (by rw [hstart]; exact hlow) (by rw [hlast]; exact hhigh)
  rw [hstart, hlast] at hmem
  rw [hmem]
  constructor
  · rintro ⟨info, hinfo, hin⟩
    obtain ⟨day, hday, hday', htime⟩ := (hyear.mem_month_iff hmonth hpos (le_refl _) info.mTime).mp hin
    exact ⟨day, (isValidDate_iff hne).mpr ⟨hmonth.1, hmonth.2, hday, hday'⟩, info, hinfo, htime⟩
  · rintro ⟨day, hvalid, info, hinfo, htime⟩
    obtain ⟨-, -, hday, hday'⟩ := (isValidDate_iff hne).mp hvalid
    exact ⟨info, hinfo, (hyear.mem_month_iff hmonth hpos (le_refl _) info.mTime).mpr ⟨day, hday, hday', htime⟩⟩

/-- Whether a query has a result. -/
theorem hasResult_returns (w : TimelineWorker Date Double) (year : ℤ) (month day : ℕ) :
    ∃ found, Returns (fun n => w.hasResult n (dateQuery 1 year month day)) found ∧
      (found = true ↔ ∃ id, id ∈ Matching w.qt w.tr (dateQuery 1 year month day).toQuery) := by
  obtain ⟨ids, -, hmem, hreturns⟩ := exists_exec w.qt w.tr w.docs w.sorting (dateQuery 1 year month day).toQuery
  refine ⟨_, (hreturns (dateQuery 1 year month day) rfl).map fun results => !results.isEmpty, ?_⟩
  cases ids with
  | nil =>
    refine iff_of_false (by simp [page, dateQuery]) ?_
    rintro ⟨id, hid⟩
    exact List.not_mem_nil ((hmem id).mpr hid)
  | cons id ids =>
    exact iff_of_true (by simp [page, dateQuery]) ⟨id, (hmem id).mp List.mem_cons_self⟩

/-- The documents of a day are listed if they are there. -/
theorem listFiles_returns (h : w.Reads docTimeDb mtimeDb) {date : QDate} (hyear : CivilYear w.qt date.year) :
    ∃ entries, Returns (fun n => w.listFiles n date) entries ∧
      (∀ name day, TimelineEntry.dateFolder name day ∉ entries) ∧
      ∀ id, TimelineEntry.file (resultOf w.docs id) ∈ entries ↔
        w.isThere (w.docs.documentUrl id) = true ∧ ChangedIn docTimeDb
          (w.qt.startOfDay (w.qt.date date.year date.month date.day))
          (w.qt.endOfDay (w.qt.date date.year date.month date.day)) id := by
  obtain ⟨ids, hids, hmem, hreturns⟩ := exists_exec w.qt w.tr w.docs w.sorting
    (dateQuery unlimited date.year date.month date.day).toQuery
  have hday : ∀ id, id ∈ ids ↔ ChangedIn docTimeDb (w.qt.startOfDay (w.qt.date date.year date.month date.day))
      (w.qt.endOfDay (w.qt.date date.year date.month date.day)) id := fun id =>
    (hmem id).trans (mem_day h hyear date.isValid)
  -- the limit is not reached
  have hfew : ids.length ≤ unlimited.toNat := by
    have hsubset : ids ⊆ OrdMap.keys docTimeDb := fun id hid => by
      obtain ⟨info, hinfo, -⟩ := (hday id).mp hid
      exact OrdMap.mem_keys.mpr ⟨info, hinfo⟩
    have hnodup : ids.Nodup := hids.imp fun hlt => Nat.ne_of_lt hlt
    exact Nat.le_of_lt_succ ((List.subperm_of_subset hnodup hsubset).length_le.trans_lt h.few)
  have hpage : page w.docs w.sorting ids (dateQuery unlimited date.year date.month date.day) =
      ids.map (resultOf w.docs) := by
    simp only [page, dateQuery, UInt32.toNat_zero, List.drop_zero]
    rw [List.take_of_length_le hfew]
  have hlisted := (hreturns (dateQuery unlimited date.year date.month date.day) rfl).map fun results =>
    (results.filter fun result => w.isThere result.filePath).map TimelineEntry.file
  rw [hpage] at hlisted
  refine ⟨_, hlisted, fun name day hentry => ?_, fun id => ?_⟩
  · obtain ⟨result, -, heq⟩ := List.mem_map.mp hentry
    cases heq
  · constructor
    · intro hentry
      obtain ⟨result, hresult, heq⟩ := List.mem_map.mp hentry
      cases heq
      obtain ⟨hfound, hthere⟩ := List.mem_filter.mp hresult
      obtain ⟨id', hid', heq⟩ := List.mem_map.mp hfound
      obtain rfl : id' = id := congrArg SearchResult.documentId heq
      exact ⟨hthere, (hday id').mp hid'⟩
    · rintro ⟨hthere, hchanged⟩
      exact List.mem_map.mpr ⟨_, List.mem_filter.mpr
        ⟨List.mem_map.mpr ⟨id, (hday id).mpr hchanged, rfl⟩, hthere⟩, rfl⟩

/-- What is listed for each element of a list. -/
theorem flatten_returns {α : Type} {f : ℕ → α → Option (List TimelineEntry)} {l : List α}
    {S : α → TimelineEntry → Prop}
    (h : ∀ a ∈ l, ∃ entries, Returns (fun n => f n a) entries ∧ ∀ entry, entry ∈ entries ↔ S a entry) :
    ∃ entries, Returns (fun n => (l.mapM (f n)).map List.flatten) entries ∧
      ∀ entry, entry ∈ entries ↔ ∃ a ∈ l, S a entry := by
  obtain ⟨lists, hlists, hall⟩ := Returns.mapM (R := fun entries a => ∀ entry, entry ∈ entries ↔ S a entry) h
  refine ⟨_, hlists.map List.flatten, fun entry => ?_⟩
  clear h hlists
  induction hall with
  | nil => simp
  | cons hhead _ ih => rw [List.flatten_cons, List.mem_append, hhead, ih, List.exists_mem_cons_iff]

/-- A document has been changed on the day. -/
def HasDocuments (w : TimelineWorker Date Double) (docTimeDb : DocumentTimeDB) (date : QDate) : Prop :=
  ∃ id, ChangedIn docTimeDb (w.qt.startOfDay (w.qt.date date.year date.month date.day))
    (w.qt.endOfDay (w.qt.date date.year date.month date.day)) id

theorem mem_daysOf {date : QDate} : date ∈ daysOf year month ↔ date.year = year ∧ date.month = month := by
  rw [daysOf, List.mem_filterMap]
  constructor
  · rintro ⟨day, -, hdate⟩
    rw [QDate.ofParts] at hdate
    split at hdate
    · cases hdate
      exact ⟨rfl, rfl⟩
    · cases hdate
  · rintro ⟨rfl, rfl⟩
    have hvalid := date.isValid
    simp only [isValidDate, Bool.and_eq_true, decide_eq_true_eq] at hvalid
    refine ⟨date.day, List.mem_range'_1.mpr ?_, date.ofParts_self⟩
    omega

/-- The days of a month up to today are listed on which documents have been changed. -/
theorem listDays_returns (h : w.Reads docTimeDb mtimeDb) (hyear : CivilYear w.qt year) :
    ∃ entries, Returns (fun n => w.listDays n month year) entries ∧
      ∀ entry, entry ∈ entries ↔ ∃ date : QDate, (date.year = year ∧ date.month = month) ∧
        date.le w.lib.currentDate = true ∧ w.HasDocuments docTimeDb date ∧ entry = createDayUDSEntry date := by
  have hday : ∀ date ∈ daysOf year month, ∃ entries, Returns (fun n =>
      if date.le w.lib.currentDate then
        (w.filesInDate n date).map fun found => if found then [createDayUDSEntry date] else []
      else some []) entries ∧
      ∀ entry, entry ∈ entries ↔ date.le w.lib.currentDate = true ∧ w.HasDocuments docTimeDb date ∧
        entry = createDayUDSEntry date := by
    intro date hdate
    obtain ⟨rfl, rfl⟩ := mem_daysOf.mp hdate
    by_cases hle : date.le w.lib.currentDate = true
    · simp only [hle, if_true, true_and]
      obtain ⟨found, hfound, hiff⟩ := hasResult_returns w date.year date.month date.day
      refine ⟨_, hfound.map fun found => if found then [createDayUDSEntry date] else [], fun entry => ?_⟩
      have hhas : found = true ↔ w.HasDocuments docTimeDb date :=
        hiff.trans (exists_congr fun id => mem_day h hyear date.isValid)
      rw [← hhas]
      cases found <;> simp
    · simp only [hle, Bool.false_eq_true, if_false, false_and, iff_false]
      exact ⟨[], Returns.pure _, fun _ => List.not_mem_nil⟩
  obtain ⟨entries, hreturns, hentries⟩ := flatten_returns hday
  refine ⟨entries, hreturns, fun entry => (hentries entry).trans ?_⟩
  exact exists_congr fun date => and_congr_left fun _ => mem_daysOf

/-- The months of this year up to the current one are listed in which documents have been changed. -/
theorem listThisYearsMonths_returns (h : w.Reads docTimeDb mtimeDb)
    (hyear : CivilYear w.qt w.lib.currentDate.year) :
    ∃ entries, Returns (fun n => w.listThisYearsMonths n) entries ∧
      ∀ entry, entry ∈ entries ↔ ∃ month ∈ List.range' 1 w.lib.currentDate.month,
        (∃ date : QDate, (date.year = w.lib.currentDate.year ∧ date.month = month) ∧
          w.HasDocuments docTimeDb date) ∧
        ∃ date, entry = .dateFolder (QDate.monthString w.lib.currentDate.year month) date ∧
          QDate.ofParts w.lib.currentDate.year month 1 = some date := by
  refine flatten_returns fun month hmonth => ?_
  have hne := hyear.digits.1.ne'
  obtain ⟨-, hcurrent, -⟩ := QDate.le_of_isValidDate w.lib.currentDate.isValid
  obtain ⟨hpos, hlt⟩ := List.mem_range'_1.mp hmonth
  have hmonth' : 1 ≤ month ∧ month ≤ 12 := ⟨hpos, by omega⟩
  have hpos' := (by decide : 1 ≤ 28).trans (one_le_daysInMonth w.lib.currentDate.year month)
  have hone := (isValidDate_iff hne).mpr ⟨hmonth'.1, hmonth'.2, le_refl 1, hpos'⟩
  obtain ⟨found, hfound, hiff⟩ := hasResult_returns w w.lib.currentDate.year month 0
  refine ⟨_, hfound.map fun found =>
    if found then (createMonthUDSEntry month w.lib.currentDate.year).toList else [], fun entry => ?_⟩
  have hhas : found = true ↔ ∃ date : QDate, (date.year = w.lib.currentDate.year ∧ date.month = month) ∧
      w.HasDocuments docTimeDb date := by
    rw [hiff]
    constructor
    · rintro ⟨id, hid⟩
      obtain ⟨day, hvalid, hchanged⟩ := (mem_month h hyear hmonth').mp hid
      exact ⟨⟨_, month, day, hvalid⟩, ⟨rfl, rfl⟩, id, hchanged⟩
    · rintro ⟨date, ⟨hdate, rfl⟩, id, hchanged⟩
      rw [hdate] at hchanged
      exact ⟨id, (mem_month h hyear hmonth').mpr ⟨date.day, hdate ▸ date.isValid, hchanged⟩⟩
  have hentry : createMonthUDSEntry month w.lib.currentDate.year =
      some (.dateFolder (QDate.monthString w.lib.currentDate.year month) ⟨_, month, 1, hone⟩) := by
    rw [createMonthUDSEntry, QDate.ofParts, dif_pos hone]
    rfl
  rw [← hhas, hentry, QDate.ofParts, dif_pos hone]
  cases found with
  | false => simp
  | true => simp [eq_comm]

/-! ## Browsing -/

/-- The request is answered with these entries, whatever came before. -/
def Lists (w : TimelineWorker Date Double) (url : TimelineUrl) (entries : List TimelineEntry) : Prop :=
  ∀ protocol, ∃ protocol', Returns (fun n => w.listDir n protocol url) (protocol', .entries entries)

/-- The address of an entry. -/
def child (path name : List Char) : List Char :=
  if path = ['/'] then '/' :: name else path ++ '/' :: name

/-- The folders that are reached from the root. -/
inductive Browsed (w : TimelineWorker Date Double) : TimelineUrl → Prop
  | root : Browsed w { path := ['/'] }
  | folder {url : TimelineUrl} {entries : List TimelineEntry} {name : List Char} {date : QDate} :
    Browsed w url → w.Lists url entries → TimelineEntry.dateFolder name date ∈ entries →
    Browsed w { path := child url.path name }

theorem child_pathOf {names : List Section} (h : AreSections names) (name : Section) :
    child (pathOf names) name = pathOf (names ++ [name]) := by
  cases names with
  | nil => simp [child, pathOf]
  | cons first names =>
    have hne : pathOf (first :: names) ≠ ['/'] := fun heq => by
      have hsections := sections_pathOf h
      rw [heq] at hsections
      cases hsections
    rw [child, if_neg hne]
    simp [pathOf]

/-- A request for an address in normal form. -/
theorem request_canonical {names : List Section} (hnames : AreSections names)
    {queryItems : List (List Char × List Char)} {folder : TimelineFolder}
    (hfolder : w.lib.parseTimelineUrl { path := pathOf names, queryItems } = some folder)
    (switch : TimelineProtocol → TimelineFolder → Option TimelineResponse) (protocol : TimelineProtocol) :
    w.request switch protocol { path := pathOf names, queryItems } =
      (switch (found protocol folder) folder).map fun answer => (found protocol folder, answer) := by
  rw [request]
  dsimp only
  rw [canonicalizeTimelineUrl_pathOf hnames, if_neg (fun hne => hne rfl), hfolder]
  rfl

/-- The entries of a folder whose address is in normal form. -/
theorem lists_of {names : List Section} (hnames : AreSections names) {folder : TimelineFolder}
    (hfolder : w.lib.parseTimelineUrl { path := pathOf names } = some folder) {entries : List TimelineEntry}
    (hreturns : Returns (fun n => w.listFolder n folder) (.entries entries)) :
    w.Lists { path := pathOf names } entries := by
  intro protocol
  refine ⟨found protocol folder, ?_⟩
  simp only [listDir, request_canonical hnames hfolder]
  exact hreturns.map fun answer => (found protocol folder, answer)

/-- The folders of the timeline. -/
inductive IsFolder (w : TimelineWorker Date Double) (docTimeDb : DocumentTimeDB) : List Section → Prop
  | root : IsFolder w docTimeDb []
  | today : IsFolder w docTimeDb ["today".toList]
  | calendar : IsFolder w docTimeDb ["calendar".toList]
  | month {month : ℕ} : 1 ≤ month ∧ month ≤ 12 →
    IsFolder w docTimeDb ["calendar".toList, QDate.monthString w.lib.currentDate.year month]
  | day {date : QDate} : date.year = w.lib.currentDate.year → date.le w.lib.currentDate = true →
    IsFolder w docTimeDb ["calendar".toList, QDate.monthString date.year date.month, date.dayString]

theorem IsFolder.areSections {names : List Section} (h : IsFolder w docTimeDb names)
    (hyear : CivilYear w.qt w.lib.currentDate.year) : AreSections names := by
  have hmonth : ∀ month, QDate.monthString w.lib.currentDate.year month ≠ [] ∧
      '/' ∉ QDate.monthString w.lib.currentDate.year month := fun month =>
    ⟨by simp [QDate.monthString], QDate.slash_notMem_monthString hyear.digits⟩
  cases h with
  | root => exact fun name hname => absurd hname List.not_mem_nil
  | today => simp [AreSections]
  | calendar => simp [AreSections]
  | month _ => simpa [AreSections] using hmonth _
  | @day date hdate _ =>
    have hday : date.dayString ≠ [] ∧ '/' ∉ date.dayString :=
      ⟨by simp [QDate.dayString], QDate.slash_notMem_dayString (hdate ▸ hyear.digits)⟩
    rw [hdate]
    simpa [AreSections] using ⟨hmonth _, hday⟩

theorem root_lists : w.Lists { path := pathOf [] } [.folder ['.'],
    .dateFolder "today".toList w.lib.currentDate, .dateFolder "calendar".toList w.lib.currentDate] :=
  lists_of (fun _ hname => absurd hname List.not_mem_nil) rfl (Returns.pure _)

/-- The calendar lists the months of this year in which documents have been changed. -/
theorem calendar_lists (h : w.Reads docTimeDb mtimeDb) (hyear : CivilYear w.qt w.lib.currentDate.year) :
    ∃ months, w.Lists { path := pathOf ["calendar".toList] } (.folder ['.'] :: months) ∧
      ∀ entry, entry ∈ months ↔ ∃ month ∈ List.range' 1 w.lib.currentDate.month,
        (∃ date : QDate, (date.year = w.lib.currentDate.year ∧ date.month = month) ∧
          w.HasDocuments docTimeDb date) ∧
        ∃ date, entry = .dateFolder (QDate.monthString w.lib.currentDate.year month) date ∧
          QDate.ofParts w.lib.currentDate.year month 1 = some date := by
  obtain ⟨months, hreturns, hmonths⟩ := listThisYearsMonths_returns h hyear
  exact ⟨months, lists_of ((@IsFolder.calendar _ _ w docTimeDb).areSections hyear) rfl (hreturns.map fun months =>
    TimelineResponse.entries (.folder ['.'] :: months)), hmonths⟩

/-- A month lists its days. -/
theorem month_lists (h : w.Reads docTimeDb mtimeDb) (hyear : CivilYear w.qt w.lib.currentDate.year)
    (hmonth : 1 ≤ month ∧ month ≤ 12) : ∃ days,
      w.Lists { path := pathOf ["calendar".toList, QDate.monthString w.lib.currentDate.year month] }
        (.folder ['.'] :: days) ∧
      ∀ entry, entry ∈ days ↔ ∃ date : QDate, (date.year = w.lib.currentDate.year ∧ date.month = month) ∧
        date.le w.lib.currentDate = true ∧ w.HasDocuments docTimeDb date ∧ entry = createDayUDSEntry date := by
  obtain ⟨days, hreturns, hdays⟩ := @listDays_returns _ _ w _ _ _ month h hyear
  have hone := (isValidDate_iff hyear.digits.1.ne').mpr ⟨hmonth.1, hmonth.2, le_refl 1,
    (by decide : 1 ≤ 28).trans (one_le_daysInMonth w.lib.currentDate.year month)⟩
  have hparse := w.lib.parse_month hyear.digits hmonth
  rw [QDate.ofParts, dif_pos hone] at hparse
  exact ⟨days, lists_of ((@IsFolder.month _ _ w docTimeDb month hmonth).areSections hyear) hparse
    (hreturns.map fun days => TimelineResponse.entries (.folder ['.'] :: days)), hdays⟩

/-- A day folder lists the documents of its day. -/
theorem day_lists (h : w.Reads docTimeDb mtimeDb) {names : List Section} (hnames : AreSections names)
    {folder : TimelineFolder} {date : QDate}
    (hfolder : w.lib.parseTimelineUrl { path := pathOf names } = some folder)
    (htype : folder.folderType = .dayFolder) (hdate : folder.date = some date) (hyear : CivilYear w.qt date.year) :
    ∃ files, w.Lists { path := pathOf names } (.folder ['.'] :: files) ∧
      (∀ name day, TimelineEntry.dateFolder name day ∉ files) ∧
      ∀ id, TimelineEntry.file (resultOf w.docs id) ∈ files ↔
        w.isThere (w.docs.documentUrl id) = true ∧ ChangedIn docTimeDb
          (w.qt.startOfDay (w.qt.date date.year date.month date.day))
          (w.qt.endOfDay (w.qt.date date.year date.month date.day)) id := by
  obtain ⟨files, hreturns, hno, hfiles⟩ := listFiles_returns h hyear
  refine ⟨files, lists_of hnames hfolder ?_, hno, hfiles⟩
  have hlist : ∀ n, w.listFolder n folder = (w.listFiles n date).map fun files =>
      .entries (.folder ['.'] :: files) := fun n => by rw [listFolder, htype, hdate]
  simp only [hlist]
  exact hreturns.map fun files => TimelineResponse.entries (.folder ['.'] :: files)

/-- An entry behind the first one. -/
theorem mem_of_mem_cons {entry : TimelineEntry} {entries : List TimelineEntry} (h : entry ∈ .folder ['.'] :: entries)
    (hne : ∀ name, entry ≠ .folder name) : entry ∈ entries :=
  (List.mem_cons.mp h).resolve_left (hne _)

/-- What the folders list: folders of the timeline, and documents of days. -/
theorem IsFolder.lists {names : List Section} (h : IsFolder w docTimeDb names)
    (hreads : w.Reads docTimeDb mtimeDb) (hyear : CivilYear w.qt w.lib.currentDate.year) :
    ∃ entries, w.Lists { path := pathOf names } entries ∧
      (∀ name date, TimelineEntry.dateFolder name date ∈ entries → IsFolder w docTimeDb (names ++ [name])) ∧
      (∀ id, TimelineEntry.file (resultOf w.docs id) ∈ entries →
        w.isThere (w.docs.documentUrl id) = true ∧ ∃ date : QDate, date.year = w.lib.currentDate.year ∧
          date.le w.lib.currentDate = true ∧ ChangedIn docTimeDb
            (w.qt.startOfDay (w.qt.date date.year date.month date.day))
            (w.qt.endOfDay (w.qt.date date.year date.month date.day)) id) := by
  have hnames := h.areSections hyear
  cases h with
  | root =>
    refine ⟨_, root_lists, fun name date hentry => ?_, fun id hentry => by simp at hentry⟩
    simp only [List.mem_cons, List.not_mem_nil, reduceCtorEq, or_false, false_or] at hentry
    rcases hentry with heq | heq
    · cases heq
      exact .today
    · cases heq
      exact .calendar
  | today =>
    obtain ⟨files, hlists, hno, hfiles⟩ := day_lists hreads hnames rfl rfl rfl hyear
    refine ⟨_, hlists, fun name date hentry => ?_, fun id hentry => ?_⟩
    · exact absurd (mem_of_mem_cons hentry fun _ => TimelineEntry.noConfusion) (hno name date)
    · obtain ⟨hthere, hchanged⟩ := (hfiles id).mp (mem_of_mem_cons hentry fun _ => TimelineEntry.noConfusion)
      exact ⟨hthere, w.lib.currentDate, rfl, by simp [QDate.le], hchanged⟩
  | calendar =>
    obtain ⟨months, hlists, hmonths⟩ := calendar_lists hreads hyear
    refine ⟨_, hlists, fun name date hentry => ?_, fun id hentry => ?_⟩
    · obtain ⟨month, hmonth, -, date', heq, -⟩ := (hmonths _).mp
        (mem_of_mem_cons hentry fun _ => TimelineEntry.noConfusion)
      cases heq
      obtain ⟨-, hcurrent, -⟩ := QDate.le_of_isValidDate w.lib.currentDate.isValid
      obtain ⟨hpos, hlt⟩ := List.mem_range'_1.mp hmonth
      exact .month ⟨hpos, by omega⟩
    · obtain ⟨month, -, -, date', heq, -⟩ := (hmonths _).mp
        (mem_of_mem_cons hentry fun _ => TimelineEntry.noConfusion)
      cases heq
  | month hmonth =>
    obtain ⟨days, hlists, hdays⟩ := month_lists hreads hyear hmonth
    refine ⟨_, hlists, fun name date hentry => ?_, fun id hentry => ?_⟩
    · obtain ⟨day, ⟨hdayYear, rfl⟩, hle, -, heq⟩ := (hdays _).mp
        (mem_of_mem_cons hentry fun _ => TimelineEntry.noConfusion)
      cases heq
      rw [← hdayYear]
      exact .day hdayYear hle
    · obtain ⟨day, -, -, -, heq⟩ := (hdays _).mp (mem_of_mem_cons hentry fun _ => TimelineEntry.noConfusion)
      cases heq
  | @day date hdate hle =>
    have hyear' : CivilYear w.qt date.year := hdate ▸ hyear
    obtain ⟨files, hlists, hno, hfiles⟩ := day_lists hreads hnames
      (w.lib.parse_day hyear'.digits hyear'.digits) rfl rfl hyear'
    refine ⟨_, hlists, fun name day hentry => ?_, fun id hentry => ?_⟩
    · exact absurd (mem_of_mem_cons hentry fun _ => TimelineEntry.noConfusion) (hno name day)
    · obtain ⟨hthere, hchanged⟩ := (hfiles id).mp (mem_of_mem_cons hentry fun _ => TimelineEntry.noConfusion)
      exact ⟨hthere, date, hdate, hle, hchanged⟩

/-- A folder is listed in one way. -/
theorem Lists.unique {url : TimelineUrl} {entries entries' : List TimelineEntry} (h : w.Lists url entries)
    (h' : w.Lists url entries') : entries = entries' := by
  obtain ⟨protocol, hreturns⟩ := h {}
  obtain ⟨protocol', hreturns'⟩ := h' {}
  exact TimelineResponse.entries.inj (congrArg Prod.snd (hreturns.unique hreturns'))

/-- Only folders of the timeline are reached. -/
theorem Browsed.isFolder {url : TimelineUrl} (hbrowsed : w.Browsed url) (h : w.Reads docTimeDb mtimeDb)
    (hyear : CivilYear w.qt w.lib.currentDate.year) :
    ∃ names, IsFolder w docTimeDb names ∧ url = { path := pathOf names } := by
  induction hbrowsed with
  | root => exact ⟨[], .root, rfl⟩
  | folder _ hlists hentry ih =>
    obtain ⟨names, hfolder, rfl⟩ := ih
    obtain ⟨entries, hlists', hfolders, -⟩ := hfolder.lists h hyear
    obtain rfl := hlists'.unique hlists
    refine ⟨_, hfolders _ _ hentry, ?_⟩
    rw [child_pathOf (hfolder.areSections hyear)]

/-- **Who browses the timeline finds exactly the documents that have been changed this year and not after
today**, as far as their files are there; and every folder on the way can be listed. -/
theorem timeline_browsed (h : w.Reads docTimeDb mtimeDb) (hyear : CivilYear w.qt w.lib.currentDate.year) :
    (∀ url, w.Browsed url → ∃ entries, w.Lists url entries) ∧
      ∀ id, (∃ url entries, w.Browsed url ∧ w.Lists url entries ∧ .file (resultOf w.docs id) ∈ entries) ↔
        w.isThere (w.docs.documentUrl id) = true ∧ ∃ date : QDate, date.year = w.lib.currentDate.year ∧
          date.le w.lib.currentDate = true ∧ ChangedIn docTimeDb
            (w.qt.startOfDay (w.qt.date date.year date.month date.day))
            (w.qt.endOfDay (w.qt.date date.year date.month date.day)) id := by
  refine ⟨fun url hbrowsed => ?_, fun id => ⟨?_, ?_⟩⟩
  · obtain ⟨names, hfolder, rfl⟩ := hbrowsed.isFolder h hyear
    obtain ⟨entries, hlists, -⟩ := hfolder.lists h hyear
    exact ⟨entries, hlists⟩
  · rintro ⟨url, entries, hbrowsed, hlists, hentry⟩
    obtain ⟨names, hfolder, rfl⟩ := hbrowsed.isFolder h hyear
    obtain ⟨entries', hlists', -, hfiles⟩ := hfolder.lists h hyear
    obtain rfl := hlists'.unique hlists
    exact hfiles id hentry
  · rintro ⟨hthere, date, hdate, hle, hchanged⟩
    have hyear' : CivilYear w.qt date.year := hdate ▸ hyear
    obtain ⟨hpos, hmonth, -⟩ := QDate.le_of_isValidDate date.isValid
    have hcalendar : w.Browsed { path := pathOf ["calendar".toList] } :=
      .folder .root root_lists (List.mem_cons_of_mem _ (List.mem_cons_of_mem _ List.mem_cons_self))
    -- the month
    obtain ⟨months, hlists, hmonths⟩ := calendar_lists h hyear
    have hone := (isValidDate_iff hyear.digits.1.ne').mpr ⟨hpos, hmonth, le_refl 1,
      (by decide : 1 ≤ 28).trans (one_le_daysInMonth w.lib.currentDate.year date.month)⟩
    have hcurrent : date.month ∈ List.range' 1 w.lib.currentDate.month := by
      simp only [QDate.le, hdate, lt_irrefl, decide_false, Bool.false_or, decide_true, Bool.true_and,
        Bool.or_eq_true, Bool.and_eq_true, decide_eq_true_eq] at hle
      exact List.mem_range'_1.mpr ⟨hpos, by omega⟩
    have hmonthEntry := (hmonths (.dateFolder (QDate.monthString w.lib.currentDate.year date.month)
      ⟨_, date.month, 1, hone⟩)).mpr ⟨date.month, hcurrent, ⟨date, ⟨hdate, rfl⟩, id, hchanged⟩, _, rfl,
        by rw [QDate.ofParts, dif_pos hone]⟩
    have hmonthFolder := Browsed.folder hcalendar hlists (List.mem_cons_of_mem _ hmonthEntry)
    rw [child_pathOf ((@IsFolder.calendar _ _ w docTimeDb).areSections hyear), List.singleton_append]
      at hmonthFolder
    -- the day
    obtain ⟨days, hlists, hdays⟩ := month_lists h hyear ⟨hpos, hmonth⟩
    have hdayEntry := (hdays (createDayUDSEntry date)).mpr ⟨date, ⟨hdate, rfl⟩, hle, ⟨id, hchanged⟩, rfl⟩
    have hdayFolder := Browsed.folder hmonthFolder hlists (List.mem_cons_of_mem _ hdayEntry)
    rw [child_pathOf ((@IsFolder.month _ _ w docTimeDb _ ⟨hpos, hmonth⟩).areSections hyear),
      ← hdate] at hdayFolder
    -- the document
    obtain ⟨files, hlists, -, hfiles⟩ := day_lists h ((@IsFolder.day _ _ w docTimeDb _ hdate hle).areSections hyear)
      (w.lib.parse_day hyear'.digits hyear'.digits) rfl rfl hyear'
    exact ⟨_, _, hdayFolder, hlists, List.mem_cons_of_mem _ ((hfiles id).mpr ⟨hthere, hchanged⟩)⟩

/-- The worker on the second of December 2014, without any date modificators. -/
def of2014 (tr : Lookups Unit) : TimelineWorker (ℤ × ℤ × ℤ) Unit where
  lib :=
    { currentDate := ⟨2014, 12, 2, by decide⟩
      toInt := fun _ => none
      addYears := fun date _ => date
      addMonths := fun date _ => date
      addDays := fun date _ => date }
  qt := utc
  tr := tr
  docs := sameTimes
  sorting := byTime
  isThere _ := true

theorem civilYear_2014 : CivilYear utc 2014 where
  digits := ⟨by decide, by decide⟩
  parts _ _ _ := ⟨rfl, rfl⟩
  days month hpos hle := by
    have hmonths : ∀ month ∈ List.range' 1 12,
        utc.daysInMonth (utc.date 2014 (month : ℕ) 1) = daysInMonth 2014 month := by
      decide
    exact hmonths month (List.mem_range'_1.mpr ⟨hpos, Nat.lt_succ_of_le hle⟩)
  le _ _ _ := Int.le_add_of_nonneg_right (by decide)
  next month day _ _ := by
    simp only [utc, daysSinceEpoch, Nat.cast_add, Nat.cast_one]
    omega
  range month day hvalid := by
    obtain ⟨hpos, hle, hday, hday'⟩ := QDate.le_of_isValidDate hvalid
    simp only [utc, daysSinceEpoch]
    omega

/-- The only document has been changed today. -/
theorem timeline_browsed_2014 : ∃ tr url entries, (of2014 tr).Browsed url ∧ (of2014 tr).Lists url entries ∧
    .file (resultOf sameTimes 1) ∈ entries := by
  have hagree := timesAgree_single 1 Nat.one_ne_zero 1417562521
  have hget : OrdMap.get (OrdMap.put ∅ 1 ({ mTime := 1417562521 } : TimeInfo)) 1 = some { mTime := 1417562521 } := by
    rw [OrdMap.get_put, if_pos rfl]
  have htoday : ChangedIn (OrdMap.put ∅ 1 { mTime := 1417562521 }) (utc.startOfDay (2014, 12, 2))
      (utc.endOfDay (2014, 12, 2)) 1 := ⟨_, hget, by decide, by decide⟩
  choose lookup hlookup using exists_iterator hagree.zero_notMem
  have hreads : (of2014 (onlyTimes Unit lookup)).Reads (OrdMap.put ∅ 1 { mTime := 1417562521 })
      (MTimeDB.put ∅ 1417562521 1) :=
    { agree := hagree
      fits := fun i info hinfo => by
        rw [OrdMap.get_put] at hinfo
        split at hinfo
        · cases hinfo
          decide
        · rw [OrdMap.get_empty] at hinfo
          cases hinfo
      reads := hlookup
      few := by decide }
  have hbrowsed := ((timeline_browsed hreads civilYear_2014).2 1).mpr
    ⟨rfl, ⟨2014, 12, 2, by decide⟩, rfl, rfl, htoday⟩
  exact ⟨_, hbrowsed⟩

/-! ## Requests -/

/-- The requests that an address comes with. -/
inductive Request where
  | listDir
  | stat
  | mimetype

/-- A request is handled. -/
def handle (w : TimelineWorker Date Double) (fuel : ℕ) (protocol : TimelineProtocol) (request : Request)
    (url : TimelineUrl) : Option (TimelineProtocol × TimelineResponse) :=
  match request with
  | .listDir => w.listDir fuel protocol url
  | .stat => w.stat protocol url
  | .mimetype => w.mimetype protocol url

theorem listFolder_returns (w : TimelineWorker Date Double) (folder : TimelineFolder) :
    ∃ answer, Returns (fun n => w.listFolder n folder) answer ∧ ∀ url, answer ≠ .redirection url := by
  have hentries : ∀ f : ℕ → Option (List TimelineEntry), (∃ entries, Returns f entries) →
      ∃ answer, Returns (fun n => (f n).map fun entries => TimelineResponse.entries (.folder ['.'] :: entries))
        answer ∧ ∀ url, answer ≠ .redirection url := by
    rintro f ⟨entries, hreturns⟩
    exact ⟨_, hreturns.map fun entries => TimelineResponse.entries (.folder ['.'] :: entries),
      fun _ => TimelineResponse.noConfusion⟩
  have hother : ∀ answer : TimelineResponse, (∀ url, answer ≠ .redirection url) →
      ∃ answer', Returns (fun _ : ℕ => some answer) answer' ∧ ∀ url, answer' ≠ .redirection url :=
    fun answer hanswer => ⟨answer, Returns.pure _, hanswer⟩
  have hresult : ∀ (year : ℤ) (month day : ℕ), ∃ found,
      Returns (fun n => w.hasResult n (dateQuery 1 year month day)) found := fun year month day => by
    obtain ⟨found, hfound, -⟩ := hasResult_returns w year month day
    exact ⟨found, hfound⟩
  obtain ⟨folderType, date, filename⟩ := folder
  cases folderType with
  | noFolder => exact hother _ fun _ => TimelineResponse.noConfusion
  | rootFolder => exact hother _ fun _ => TimelineResponse.noConfusion
  | calendarFolder =>
    refine hentries (fun n => w.listThisYearsMonths n) ?_
    obtain ⟨lists, hlists, -⟩ := @Returns.mapM _ _ (fun n month =>
      (w.hasResult n (dateQuery 1 w.lib.currentDate.year month 0)).map fun found =>
        if found then (createMonthUDSEntry month w.lib.currentDate.year).toList else []) (fun _ _ => True)
      (List.range' 1 w.lib.currentDate.month) fun month _ => by
        obtain ⟨found, hfound⟩ := hresult w.lib.currentDate.year month 0
        exact ⟨_, hfound.map fun found =>
          if found then (createMonthUDSEntry month w.lib.currentDate.year).toList else [], trivial⟩
    exact ⟨_, hlists.map List.flatten⟩
  | monthFolder =>
    cases date with
    | none => exact hother _ fun _ => TimelineResponse.noConfusion
    | some date =>
      refine hentries (fun n => w.listDays n date.month date.year) ?_
      obtain ⟨lists, hlists, -⟩ := @Returns.mapM _ _ (fun n (day : QDate) =>
        if day.le w.lib.currentDate then
          (w.filesInDate n day).map fun found => if found then [createDayUDSEntry day] else []
        else some []) (fun _ _ => True) (daysOf date.year date.month) fun day _ => by
          by_cases hle : day.le w.lib.currentDate = true
          · obtain ⟨found, hfound⟩ := hresult day.year day.month day.day
            simp only [hle, if_true]
            exact ⟨_, hfound.map fun found => if found then [createDayUDSEntry day] else [], trivial⟩
          · simp only [hle, Bool.false_eq_true, if_false]
            exact ⟨[], Returns.pure _, trivial⟩
      exact ⟨_, hlists.map List.flatten⟩
  | dayFolder =>
    cases date with
    | none => exact hother _ fun _ => TimelineResponse.noConfusion
    | some date =>
      refine hentries (fun n => w.listFiles n date) ?_
      obtain ⟨ids, -, -, hreturns⟩ := exists_exec w.qt w.tr w.docs w.sorting
        (dateQuery unlimited date.year date.month date.day).toQuery
      have hlisted := (hreturns (dateQuery unlimited date.year date.month date.day) rfl).map fun results =>
        (results.filter fun result => w.isThere result.filePath).map TimelineEntry.file
      exact ⟨_, hlisted⟩

/-- An address in normal form is not redirected, and the parser finds what it looks for. -/
theorem handle_canonical {names : List Section} (hnames : AreSections names)
    (queryItems : List (List Char × List Char)) (request : Request) (protocol : TimelineProtocol) :
    ∃ folder answer, w.lib.parseTimelineUrl { path := pathOf names, queryItems } = some folder ∧
      Returns (fun n => w.handle n protocol request { path := pathOf names, queryItems })
        (found protocol folder, answer) ∧ ∀ url, answer ≠ .redirection url := by
  obtain ⟨folder, hfolder⟩ := Option.isSome_iff_exists.mp (w.lib.parseTimelineUrl_isSome hnames queryItems)
  have hsame := canonicalizeTimelineUrl_pathOf hnames
  cases request with
  | listDir =>
    obtain ⟨answer, hanswer, hno⟩ := w.listFolder_returns folder
    simp only [handle, listDir, request_canonical hnames hfolder]
    exact ⟨folder, answer, hfolder, hanswer.map fun answer => (found protocol folder, answer), hno⟩
  | stat =>
    simp only [handle, stat, request_canonical hnames hfolder]
    refine ⟨folder, w.statFolder (found protocol folder) folder, hfolder, Returns.pure _, fun url => ?_⟩
    rw [statFolder.eq_def]
    split <;> exact TimelineResponse.noConfusion
  | mimetype =>
    simp only [handle, mimetype, request_canonical hnames hfolder]
    refine ⟨folder, mimetypeFolder folder, hfolder, Returns.pure _, fun url => ?_⟩
    rw [mimetypeFolder]
    split <;> exact TimelineResponse.noConfusion

/-- Requests that are handled one after the other. -/
inductive Handled (w : TimelineWorker Date Double) : List TimelineUrl → TimelineProtocol → Prop
  | nil : Handled w [] {}
  | concat {urls : List TimelineUrl} {protocol protocol' : TimelineProtocol} {answer : TimelineResponse}
    (request : Request) (url : TimelineUrl) : Handled w urls protocol →
    Returns (fun n => w.handle n protocol request url) (protocol', answer) →
    Handled w (urls ++ [url]) protocol'

/-- The name of a file that an address in normal form sets: below a day, or today. -/
def fileName (w : TimelineWorker Date Double) (url : TimelineUrl) : Option (List Char) :=
  if url.path = canonicalizeTimelineUrl url.path then
    (w.lib.parseTimelineUrl url).bind TimelineFolder.filename
  else none

theorem request_filename {switch : TimelineProtocol → TimelineFolder → Option TimelineResponse}
    {protocol protocol' : TimelineProtocol} {answer : TimelineResponse} {url : TimelineUrl}
    (h : w.request switch protocol url = some (protocol', answer)) :
    protocol'.filename = (w.fileName url).getD protocol.filename := by
  rw [request] at h
  rw [fileName]
  by_cases hsame : url.path = canonicalizeTimelineUrl url.path
  · have hurl : url = { url with path := canonicalizeTimelineUrl url.path } := by rw [← hsame]
    rw [if_neg (fun hne => hne hurl)] at h
    rw [if_pos hsame]
    obtain ⟨folder, hfolder, h⟩ := Option.bind_eq_some_iff.mp h
    obtain ⟨answered, -, hpair⟩ := Option.map_eq_some_iff.mp h
    obtain rfl : found protocol folder = protocol' := congrArg Prod.fst hpair
    rw [hfolder]
    rfl
  · have hurl : url ≠ { url with path := canonicalizeTimelineUrl url.path } := fun heq =>
      hsame (congrArg TimelineUrl.path heq)
    rw [if_pos hurl] at h
    obtain rfl : protocol = protocol' := congrArg Prod.fst (Option.some.inj h)
    rw [if_neg hsame, Option.getD_none]

/-- What a request does to the name. -/
theorem handle_filename {protocol protocol' : TimelineProtocol} {answer : TimelineResponse} {request : Request}
    {url : TimelineUrl} (h : Returns (fun n => w.handle n protocol request url) (protocol', answer)) :
    protocol'.filename = (w.fileName url).getD protocol.filename := by
  obtain ⟨n, hn⟩ := h
  cases request with
  | listDir =>
    have hlist : w.listDir n protocol url = some (protocol', answer) := hn n (le_refl n)
    rw [listDir] at hlist
    exact request_filename hlist
  | stat =>
    have hstat : w.stat protocol url = some (protocol', answer) := hn n (le_refl n)
    rw [stat] at hstat
    exact request_filename hstat
  | mimetype =>
    have hmimetype : w.mimetype protocol url = some (protocol', answer) := hn n (le_refl n)
    rw [mimetype] at hmimetype
    exact request_filename hmimetype

/-- The name is the last one that has been set. -/
theorem Handled.filename {urls : List TimelineUrl} {protocol : TimelineProtocol} (h : w.Handled urls protocol) :
    protocol.filename = ((urls.filterMap w.fileName).getLast?).getD [] := by
  induction h with
  | nil => rfl
  | concat request url _ hreturns ih =>
    rw [handle_filename hreturns, ih, List.filterMap_append]
    cases hname : w.fileName url with
    | none => simp [hname]
    | some name => simp [hname]

/-- **A day is shown exactly if the name of a file has not been left behind by an earlier request**: `stat`
answers for a day folder with its entry if the last request that set a name set an empty one, and with no
entry at all otherwise. -/
theorem stat_day_iff {urls : List TimelineUrl} {protocol : TimelineProtocol} (h : w.Handled urls protocol)
    {month : ℕ} {date : QDate} (hyear : QDate.HasFourDigits date.year) (hmonth : QDate.HasFourDigits year) :
    ∃ protocol', w.stat protocol
        { path := pathOf ["calendar".toList, QDate.monthString year month, date.dayString] } =
      some (protocol', .entries
        (if ∀ name ∈ (urls.filterMap w.fileName).getLast?, name = [] then [createDayUDSEntry date] else [])) := by
  have hnames : AreSections ["calendar".toList, QDate.monthString year month, date.dayString] := by
    have hmonth' : QDate.monthString year month ≠ [] ∧ '/' ∉ QDate.monthString year month :=
      ⟨by simp [QDate.monthString], QDate.slash_notMem_monthString hmonth⟩
    have hday : date.dayString ≠ [] ∧ '/' ∉ date.dayString :=
      ⟨by simp [QDate.dayString], QDate.slash_notMem_dayString hyear⟩
    simpa [AreSections] using ⟨hmonth', hday⟩
  rw [stat, request_canonical hnames (w.lib.parse_day hmonth hyear)]
  refine ⟨_, congrArg some (Prod.ext rfl ?_)⟩
  have hname : (found protocol { folderType := .dayFolder, date := some date }).filename =
      ((urls.filterMap w.fileName).getLast?).getD [] := h.filename
  dsimp only [statFolder]
  rw [hname]
  cases hlast : (urls.filterMap w.fileName).getLast? with
  | none => simp
  | some name => simp

/-- After a request for a file of the day, nothing is said about the day. -/
theorem stat_day_leftBehind : ∃ protocol protocol',
    (of2014 (onlyTimes Unit fun _ _ => none)).Handled
        [{ path := pathOf ["calendar".toList, "2014-12".toList, "2014-12-02".toList, ['a']] }] protocol ∧
      (of2014 (onlyTimes Unit fun _ _ => none)).stat protocol
        { path := pathOf ["calendar".toList, QDate.monthString 2014 12, QDate.dayString ⟨2014, 12, 2, by decide⟩] } =
          some (protocol', .entries []) := by
  have hnames : AreSections ["calendar".toList, "2014-12".toList, "2014-12-02".toList, ['a']] := by
    simp [AreSections]
  have hdigits : QDate.HasFourDigits 2014 := ⟨by decide, by decide⟩
  obtain ⟨folder, answer, -, hreturns, -⟩ :=
    @handle_canonical _ _ (of2014 (onlyTimes Unit fun _ _ => none)) _ hnames [] .stat {}
  have hhandled := Handled.concat .stat _ .nil hreturns
  obtain ⟨protocol', hstat⟩ := @stat_day_iff _ _ _ 2014 _ _ hhandled 12 ⟨2014, 12, 2, by decide⟩ hdigits hdigits
  have hname : (of2014 (onlyTimes Unit fun _ _ => none)).fileName
      { path := pathOf ["calendar".toList, "2014-12".toList, "2014-12-02".toList, ['a']] } = some ['a'] := by decide
  refine ⟨_, protocol', hhandled, ?_⟩
  rw [hstat, List.nil_append, List.filterMap_cons, hname, if_neg (by simp)]

end TimelineWorker

end Baloo
