import Baloo.MTimeIndex
import Baloo.SearchDenotation

/-!
# Searching by time

The index keeps modification times as 32-bit numbers of seconds since the epoch, dates are 64-bit
numbers of seconds. A `modified` term clamps the seconds of its date to 32 bits and reads a range of
times that ends or begins there. So where nothing is to be selected the end of the 32-bit numbers is,
and `>` at the largest number wraps around to all (`calculateTimeRange_iff` says for which dates the
range is right).

The date filter of a query does not clamp: the bounds of the year, the month or the day are cut off to
32 bits. A filter that does not lie within the 32-bit numbers selects the times of another year, unless
the cut bounds happen to be in the wrong order (`dateFilter_iff`).
-/

namespace Baloo.Search

open PostingIterator (Answers)

/-! ## Comparing with a date -/

/-- What a term says about a time. -/
def DateTime.Selects (dt : DateTime) (t : ℕ) : Comparator → Prop
  | .less => t < dt.secs
  | .lessEqual => t ≤ dt.secs
  | .greater => dt.secs < t
  | .greaterEqual => dt.secs ≤ t
  | .equal | .contains => dt.startOfDay ≤ t ∧ t ≤ dt.endOfDay
  | .auto => False

/-- Something is selected on the side of the date at which the range is clamped. -/
def DateTime.WithinReach (dt : DateTime) : Comparator → Prop
  | .less => 0 < dt.secs ∧ dt.secs ≤ maxUInt32
  | .lessEqual => 0 ≤ dt.secs
  | .greater => 0 ≤ dt.secs ∧ dt.secs < maxUInt32
  | .greaterEqual => dt.secs ≤ maxUInt32
  | .equal | .contains => 0 ≤ dt.endOfDay ∧ dt.startOfDay ≤ maxUInt32
  | .auto => False

section

variable {Date Double : Type} {qt : Platform Date Double} {value : QString} {dt : DateTime}

/-- **A `modified` term selects the times it says** for exactly those dates that are within reach. -/
theorem calculateTimeRange_iff (hvalue : qt.dateTimeFromString value = some dt)
    (hday : dt.startOfDay ≤ dt.endOfDay) {com : Comparator} (hcom : com ≠ .auto) :
    (∀ t < 2 ^ 32, ((calculateTimeRange qt value com).1 ≤ t ∧ t ≤ (calculateTimeRange qt value com).2 ↔
      dt.Selects t com)) ↔ dt.WithinReach com := by
  have hpred : ∀ n : ℕ, (if 0 < n then n - 1 else 0) = n - 1 := by
    intro n
    split <;> omega
  simp only [calculateTimeRange, hvalue, hpred]
  constructor
  · intro h
    -- the two ends of the 32-bit numbers decide
    have hlow := h 0 (by omega)
    have hhigh := h 4294967295 (by omega)
    cases com
    case auto => exact absurd rfl hcom
    all_goals
      simp only [DateTime.Selects, DateTime.WithinReach, clamp32, maxUInt32] at hlow hhigh ⊢
      omega
  · intro h t ht
    cases com
    case auto => exact absurd rfl hcom
    all_goals
      simp only [DateTime.Selects, DateTime.WithinReach, clamp32, maxUInt32] at h ⊢
      omega

/-! ## The filter of a query -/

/-- The iterator a lookup stands for. -/
def Lookup.iterator (l : Lookup) : Option PostingIterator := l.map fun l => .vector l.values (-1)

/-- `Transaction::mTimeRangeIter` reads the table. -/
def ReadsTimes (tr : Lookups Double) (mtimeDb : MTimeDB) : Prop :=
  ∀ a b, (tr.mTimeRangeIter a b).iterator = mtimeDb.iterRange a b

theorem exists_iterator {mtimeDb : MTimeDB} (hzero : ∀ m, 0 ∉ OrdMap.values mtimeDb m) (a b : ℕ) :
    ∃ l : Lookup, l.iterator = mtimeDb.iterRange a b := by
  rw [MTimeDB.iterRange]
  split
  · exact ⟨none, rfl⟩
  · dsimp only
    split
    · exact ⟨none, rfl⟩
    · refine ⟨some ⟨_, SortedSeq.ascending_sortUnique _, fun hmem => ?_⟩, rfl⟩
      obtain ⟨m, -, -, h0⟩ := (MTimeDB.mem_range mtimeDb a b 0).mp (SortedSeq.mem_sortUnique.mp hmem)
      exact hzero m h0

/-- A lookup that reads the table finds the documents with a time in the range. -/
theorem ids_eq_range {mtimeDb : MTimeDB} {l : Lookup} {a b : ℕ} (h : l.iterator = mtimeDb.iterRange a b) :
    l.ids = {i | ∃ m, a ≤ m ∧ m ≤ b ∧ i ∈ OrdMap.values mtimeDb m} := by
  have hrange := fun i => MTimeDB.mem_range mtimeDb a b i
  rw [MTimeDB.iterRange] at h
  ext i
  split at h
  · next hba =>
    obtain rfl : l = none := by simpa [Lookup.iterator] using h
    refine ⟨False.elim, ?_⟩
    rintro ⟨m, ha, hb, -⟩
    exact absurd (ha.trans hb) (not_le.mpr hba)
  · dsimp only at h
    split at h
    · next hnil =>
      obtain rfl : l = none := by simpa [Lookup.iterator] using h
      refine ⟨False.elim, fun hi => ?_⟩
      have hmem := (hrange i).mpr hi
      rw [hnil] at hmem
      cases hmem
    · cases l with
      | none => cases h
      | some l =>
        simp only [Lookup.iterator, Option.map_some, Option.some.injEq, PostingIterator.vector.injEq] at h
        change i ∈ l.values ↔ _
        rw [h.1, SortedSeq.mem_sortUnique, hrange i]
        rfl

theorem ids_of_agree {docTimeDb : DocumentTimeDB} {mtimeDb : MTimeDB} {tr : Lookups Double}
    (h : TimesAgree docTimeDb mtimeDb) (hreads : ReadsTimes tr mtimeDb) (a b : ℕ) : (tr.mTimeRangeIter a b).ids =
      {i | ∃ info, OrdMap.get docTimeDb i = some info ∧ a ≤ info.mTime ∧ info.mTime ≤ b} := by
  rw [ids_eq_range (hreads a b), h.range a b]

/-- The first day of the year, of the month, or the day itself; a day without a month is ignored. -/
def firstDay (qt : Platform Date Double) (q : Query) : Date :=
  if q.monthFilter = 0 then qt.date q.yearFilter 1 1
  else qt.date q.yearFilter q.monthFilter (if q.dayFilter = 0 then 1 else q.dayFilter)

/-- The last day of the year, of the month, or the day itself. -/
def lastDay (qt : Platform Date Double) (q : Query) : Date :=
  if q.monthFilter = 0 then qt.date q.yearFilter 12 31
  else if q.dayFilter = 0 then
    qt.date q.yearFilter q.monthFilter (qt.daysInMonth (qt.date q.yearFilter q.monthFilter 1))
  else qt.date q.yearFilter q.monthFilter q.dayFilter

/-- The day at which `constructFromQuery` starts: it does not ignore a day without a month. -/
def startDay (qt : Platform Date Double) (q : Query) : Date :=
  qt.date q.yearFilter (if q.monthFilter = 0 then 1 else q.monthFilter) (if q.dayFilter = 0 then 1 else q.dayFilter)

/-- What is known of the dates of a filter: `QDate` gives their parts back, they ascend, and a year is
shorter than `2 ^ 32` seconds. -/
structure Calendar (qt : Platform Date Double) (q : Query) : Prop where
  /-- the months -/
  month : 0 ≤ q.monthFilter ∧ q.monthFilter ≤ 12
  /-- the days -/
  day : 0 ≤ q.dayFilter ∧ q.dayFilter ≤ 31
  /-- `QDate::year` -/
  year_start : qt.year (startDay qt q) = q.yearFilter
  /-- `QDate::month` -/
  month_start : qt.month (startDay qt q) = if q.monthFilter = 0 then 1 else q.monthFilter
  /-- the first day is not behind the start -/
  first_le : qt.startOfDay (firstDay qt q) ≤ qt.startOfDay (startDay qt q)
  /-- the last day is not before the start -/
  le_last : qt.startOfDay (startDay qt q) ≤ qt.endOfDay (lastDay qt q)
  /-- the range is not long -/
  span : qt.endOfDay (lastDay qt q) - qt.startOfDay (firstDay qt q) < 2 ^ 32

/-- The bounds of the range, as the source computes them. -/
theorem constructDateQuery_eq {q : Query} (h : Calendar qt q) (tr : Lookups Double) :
    constructDateQuery qt tr q = tr.mTimeRangeIter (qt.startOfDay (startDay qt q) % 2 ^ 32).toNat
      (qt.endOfDay (lastDay qt q) % 2 ^ 32).toNat := by
  have hyear := h.year_start
  have hmonth := h.month_start
  simp only [constructDateQuery, if_pos h.month, if_pos h.day]
  rw [← startDay, hyear, hmonth, lastDay]
  congr 3
  by_cases hm : q.monthFilter = 0
  · simp only [if_pos hm]
  · simp only [if_neg hm]
    by_cases hd : q.dayFilter = 0
    · simp only [if_pos hd, startDay, if_neg hm]
    · simp only [if_neg hd, startDay, if_neg hm]

/-- The filter starts with the first second of the year, month or day (or with the epoch) and ends within the
32-bit numbers; or it lies outside of them and its bounds are cut off so that they are in the wrong order. -/
def FitsTimes (first start last : ℤ) : Prop :=
  start = max 0 first ∧ 0 ≤ last ∧ last < 2 ^ 32 ∨ (last < 0 ∨ 2 ^ 32 ≤ first) ∧ last % 2 ^ 32 < start % 2 ^ 32

/-- A range whose bounds are cut off to 32 bits, as a range of 32-bit numbers. -/
theorem cut_range_iff {first start last : ℤ} (hfirst : first ≤ start) (hlast : start ≤ last)
    (hspan : last - first < 2 ^ 32) :
    (∀ t : ℕ, t < 2 ^ 32 → ((start % 2 ^ 32).toNat ≤ t ∧ t ≤ (last % 2 ^ 32).toNat ↔ first ≤ t ∧ t ≤ last)) ↔
      FitsTimes first start last := by
  rw [FitsTimes]
  constructor
  · intro h
    by_cases hout : last < 0 ∨ 2 ^ 32 ≤ first
    · -- nothing lies in the range, not even the first time that the cut bounds could select
      have hfirst' := h (start % 2 ^ 32).toNat (by omega)
      exact .inr ⟨hout, by omega⟩
    · -- the last of the 32-bit numbers and the first time of the range are to be selected if they are in it
      have hmax := h (2 ^ 32 - 1) (by omega)
      have hmin := h (max 0 first).toNat (by omega)
      exact .inl (by omega)
  · rintro (⟨rfl, hlow, hhigh⟩ | ⟨hout, hcut⟩) t ht
    · omega
    · omega

/-- Only times are looked up. -/
def onlyTimes (Double : Type) (mTimeRangeIter : ℕ → ℕ → Lookup) : Lookups Double where
  termList _ := []
  postingIterator _ := none
  postingPrefixIterator _ := none
  phraseIterator _ := none
  documentId _ := 0
  docUrlIter _ := none
  mTimeRangeIter := mTimeRangeIter
  filenameIterator _ _ := none
  mimetypeIterator _ _ := none
  propertyIterator _ _ _ := none
  postingCompIterator _ _ _ := none

/-- The index of a document with one time. -/
theorem timesAgree_single (i : DocId) (hi : i ≠ 0) (t : ℕ) :
    TimesAgree (OrdMap.put ∅ i { mTime := t }) (MTimeDB.put ∅ t i) :=
  TimesAgree.empty.put hi (by simp [OrdMap.contains]) { mTime := t }

/-- The date filter selects the documents of the year, the month or the day, whatever the index. -/
def SelectsRange (qt : Platform Date Double) (q : Query) : Prop :=
  ∀ (docTimeDb : DocumentTimeDB) (mtimeDb : MTimeDB) (tr : Lookups Double), TimesAgree docTimeDb mtimeDb →
    (∀ i info, OrdMap.get docTimeDb i = some info → info.mTime < 2 ^ 32) → ReadsTimes tr mtimeDb →
      (constructDateQuery qt tr q).ids = {i | ∃ info, OrdMap.get docTimeDb i = some info ∧
        qt.startOfDay (firstDay qt q) ≤ info.mTime ∧ info.mTime ≤ qt.endOfDay (lastDay qt q)}

/-- An index of a single document shows whether a time is selected. -/
theorem SelectsRange.time {q : Query} (hselects : SelectsRange qt q) (h : Calendar qt q) {t : ℕ} (ht : t < 2 ^ 32) :
    (qt.startOfDay (startDay qt q) % 2 ^ 32).toNat ≤ t ∧ t ≤ (qt.endOfDay (lastDay qt q) % 2 ^ 32).toNat ↔
      qt.startOfDay (firstDay qt q) ≤ t ∧ t ≤ qt.endOfDay (lastDay qt q) := by
  have hagree := timesAgree_single 1 Nat.one_ne_zero t
  have hget : ∀ i info, OrdMap.get (OrdMap.put ∅ 1 ({ mTime := t } : TimeInfo)) i = some info ↔
      i = 1 ∧ { mTime := t } = info := fun i info => by
    rw [OrdMap.get_put]
    split
    · next hi => simp [hi]
    · next hi => simp [hi]
  choose lookup hlookup using exists_iterator hagree.zero_notMem
  have hreads : ReadsTimes (onlyTimes Double lookup) (MTimeDB.put ∅ t 1) := hlookup
  have h32 : ∀ i info, OrdMap.get (OrdMap.put ∅ 1 ({ mTime := t } : TimeInfo)) i = some info →
      info.mTime < 2 ^ 32 := by
    intro i info hinfo
    obtain ⟨-, rfl⟩ := (hget i info).mp hinfo
    exact ht
  have hids := hselects _ _ _ hagree h32 hreads
  rw [constructDateQuery_eq h, ids_of_agree hagree hreads] at hids
  have hone := Set.ext_iff.mp hids 1
  simpa [hget] using hone

/-- **The date filter selects the documents of the year, the month or the day** for exactly those filters
that fit the times of the index. -/
theorem dateFilter_iff {q : Query} (h : Calendar qt q) : SelectsRange qt q ↔
    FitsTimes (qt.startOfDay (firstDay qt q)) (qt.startOfDay (startDay qt q)) (qt.endOfDay (lastDay qt q)) := by
  rw [← cut_range_iff h.first_le h.le_last h.span]
  refine ⟨fun hselects t ht => hselects.time h ht, fun hcut docTimeDb mtimeDb tr hagree h32 hreads => ?_⟩
  rw [constructDateQuery_eq h, ids_of_agree hagree hreads]
  ext i
  refine exists_congr fun info => and_congr_right fun hinfo => ?_
  exact hcut info.mTime (h32 i info hinfo)

end

/-! ## The Gregorian calendar -/

/-- The days from the epoch to a date. -/
def daysSinceEpoch (date : ℤ × ℤ × ℤ) : ℤ :=
  -- years begin with March, so that a leap day is the last of its year
  let y := if date.2.1 ≤ 2 then date.1 - 1 else date.1
  let m := (date.2.1 + 9) % 12
  365 * y + y / 4 - y / 100 + y / 400 + (153 * m + 2) / 5 + date.2.2 - 719469

/-- Dates and times in UTC; of the texts only two date-times are known. -/
def utc : Platform (ℤ × ℤ × ℤ) Unit where
  lower s := s
  utf8 _ := []
  typeFromName _ := none
  propertyFromName _ := none
  allProperties := []
  dateTimeFromString value :=
    if value = some (latin1String "2014-12-02T23:22:01Z".toList) then
      some { secs := 1417562521, startOfDay := 1417478400, endOfDay := 1417564799, isoDate := [] }
    else if value = some (latin1String "2106-02-07T06:28:15Z".toList) then
      some { secs := 4294967295, startOfDay := 4294944000, endOfDay := 4295030399, isoDate := [] }
    else none
  toLongLong _ := none
  toDouble _ := none
  date year month day := (year, month, day)
  year date := date.1
  month date := date.2.1
  daysInMonth date := daysSinceEpoch (date.1, date.2.1 + 1, 1) - daysSinceEpoch (date.1, date.2.1, 1)
  startOfDay date := 86400 * daysSinceEpoch date
  endOfDay date := 86400 * daysSinceEpoch date + 86399

example : utc.startOfDay (2014, 12, 2) = 1417478400 ∧ utc.endOfDay (2106, 2, 7) = 4295030399 := by decide

example : daysSinceEpoch (1970, 1, 1) = 0 ∧ daysSinceEpoch (2000, 2, 29) = 11016 := by decide

/-- A date in the middle of the 32-bit times. -/
theorem calculateTimeRange_2014 : DateTime.WithinReach ⟨1417562521, 1417478400, 1417564799, []⟩ .less ∧
    ∀ t < 2 ^ 32,
      ((calculateTimeRange utc (some (latin1String "2014-12-02T23:22:01Z".toList)) .less).1 ≤ t ∧
        t ≤ (calculateTimeRange utc (some (latin1String "2014-12-02T23:22:01Z".toList)) .less).2 ↔
        DateTime.Selects ⟨1417562521, 1417478400, 1417564799, []⟩ t .less) := by
  have hreach : DateTime.WithinReach ⟨1417562521, 1417478400, 1417564799, []⟩ .less := by
    simp only [DateTime.WithinReach, maxUInt32]
    omega
  exact ⟨hreach, (calculateTimeRange_iff rfl (by decide) (by decide)).mpr hreach⟩

/-- No time is later than the last 32-bit one, but all are selected. -/
theorem calculateTimeRange_2106 : ¬∀ t < 2 ^ 32,
    ((calculateTimeRange utc (some (latin1String "2106-02-07T06:28:15Z".toList)) .greater).1 ≤ t ∧
      t ≤ (calculateTimeRange utc (some (latin1String "2106-02-07T06:28:15Z".toList)) .greater).2 ↔
      DateTime.Selects ⟨4294967295, 4294944000, 4295030399, []⟩ t .greater) := by
  intro h
  have hselected := (h 0 (by omega)).mp (by decide)
  simp only [DateTime.Selects] at hselected
  omega

/-- A query for a year and a month. -/
def inMonth (year month : ℤ) : Query :=
  { searchString := none, searchScopes := [], types := [], includeFolder := none, yearFilter := year,
    monthFilter := month, dayFilter := 0 }

theorem calendar_february : Calendar utc (inMonth 2014 2) := by
  constructor <;> decide

/-- From the first to the twenty-eighth of February 2014. -/
theorem dateFilter_february : SelectsRange utc (inMonth 2014 2) :=
  (dateFilter_iff calendar_february).mpr (.inl (by decide))

theorem calendar_2150 : Calendar utc (inMonth 2150 0) := by
  constructor <;> decide

/-- The year 2150 is cut off to November 2013 and November 2014: a document of May 2014 is found. -/
theorem dateFilter_2150 : ¬SelectsRange utc (inMonth 2150 0) := by
  intro h
  have htime := (h.time calendar_2150 (show 1400000000 < 2 ^ 32 by omega)).mp (by decide)
  exact absurd htime.1 (by decide)

end Baloo.Search
