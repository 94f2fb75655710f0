import Baloo.Posting
import Baloo.Lib.Replace
import Mathlib.Data.List.Infix

/-!
# The entries of a tag folder

The files of a tag are shown under their names. Where several files have one name, all but the first get a number.
An entry is looked for in another way: the number is split off, a query for the words of the name is run, and the
number says which of its hits is taken.

The two agree for a file with an ordinary name exactly if no file before it has a longer name with the same words in
it, one behind another. A name that ends with a number itself is taken apart as well, and the scheme of an address is
removed wherever it occurs: such a file has to be where the number says (`entries_resolve`).
-/

namespace Baloo.TagsProtocol

/-- What stands between two slashes. -/
abbrev Section : Type := List Char

/-- A file that is found. -/
structure TaggedFile where
  /-- where it is -/
  path : List Section
  /-- its name -/
  fileName : Section
  /-- it is a name -/
  isName : fileName ≠ [] ∧ fileName ≠ ['.'] ∧ fileName ≠ ['.', '.'] := by decide
  deriving DecidableEq

/-- The search for tagged files. -/
structure TagSearch where
  /-- the words of a name -/
  termList : Section → List Term
  /-- the files that have a tag, in the order of the search -/
  tagged : List Section → List TaggedFile
  /-- a file is found once -/
  nodup : ∀ tag, (tagged tag).Nodup

/-- The words of the name occur in that of the file, one behind another. -/
def TagSearch.hasWords (search : TagSearch) (fileName : Section) (file : TaggedFile) : Bool :=
  decide (search.termList fileName <:+: search.termList file.fileName)

/-- `tag="%1" AND filename="%2"`. -/
def TagSearch.exec (search : TagSearch) (tag : List Section) (fileName : Section) : List TaggedFile :=
  (search.tagged tag).filter (search.hasWords fileName)

/-! ## Addresses -/

/-- `\s` -/
def isSpaceChar (c : Char) : Bool := c = ' ' ∨ 9 ≤ c.toNat ∧ c.toNat ≤ 13

/-- `QString::toInt`, of digits. -/
def toInt (digits : List Char) : ℕ :=
  let n := Nat.ofDigitChars 10 digits 0
  if n < 2 ^ 31 then n else 0

/-- `\s\((\d+)\)`, from the back. -/
def matchNumber : List Char → Option (List Char × ℕ)
  | ')' :: text =>
    match text.takeWhile Char.isDigit, text.dropWhile Char.isDigit with
    | c :: digits, '(' :: space :: name =>
      if isSpaceChar space then some (name, toInt (c :: digits).reverse) else none
    | _, _ => none
  | _ => none

/-- `\s\((\d+)\)$`: what is left of the name without a match, and the number. A match may be followed by a line
feed. -/
def splitNumber (fileName : Section) : Option (Section × ℕ) :=
  if fileName.getLast? = some '\n' then
    (matchNumber fileName.dropLast.reverse).map fun found => (found.1.reverse ++ ['\n'], found.2)
  else (matchNumber fileName.reverse).map fun found => (found.1.reverse, found.2)

/-- `result.tag.remove(url.scheme() + QLatin1Char(':'))`: there is no slash in what is removed. -/
def removeScheme (text : Section) : Section := Replace.replace Char.toNat "tags:".toList [] text

/-- `QDir::cleanPath`, of a path that begins with a slash. -/
def cleanPath (path : List Section) : List Section :=
  path.foldl (fun path name =>
    if name = [] ∨ name = ['.'] then path
    else if name = ['.', '.'] ∧ path ≠ [] ∧ path.getLast? ≠ some ['.', '.'] then path.dropLast
    else path ++ [name]) []

/-- The tag of an address, by its sections. -/
def address (url : List Section) : List Section := cleanPath (url.map removeScheme)

/-- Nothing but a slash stands before the second slash of the address. -/
def isInvalid (url : List Section) : Bool := url.head? = some [] && decide (1 < url.length)

/-- What an address says about a file. -/
structure Target where
  /-- the tag -/
  tag : List Section
  /-- the name -/
  fileName : Section
  /-- `pos` -/
  pos : ℕ

/-- The tag, and the name of a file without its number. -/
def target (url : List Section) : Target :=
  let fileName := (address url).getLast?.getD []
  let found := (splitNumber fileName).getD (fileName, 0)
  { tag := (address url).dropLast, fileName := found.1, pos := found.2 }

/-- The loop over the hits: the hit at `pos`, or else the last one. -/
def findHit (pos : ℕ) : ℕ → List TaggedFile → Option TaggedFile → Option TaggedFile
  | _, [], fileUrl => fileUrl
  | i, hit :: hits, _ => if i = pos then some hit else findHit pos (i + 1) hits (some hit)

/-- The file of an address. -/
def resolve (search : TagSearch) (url : List Section) : Option TaggedFile :=
  if isInvalid url then none
  else findHit (target url).pos 0 (search.exec (target url).tag (target url).fileName) none

/-! ## Entries -/

/-- An entry of a folder. -/
structure Entry where
  /-- its name -/
  name : Section
  /-- its file -/
  file : TaggedFile
  deriving DecidableEq

/-- `url.fileName() + QStringLiteral(" (%1)").arg(dupCount)`. -/
def numbered (fileName : Section) (dupCount : ℕ) : Section :=
  fileName ++ ' ' :: '(' :: (Nat.toDigits 10 dupCount ++ [')'])

/-- The name of an entry after others. -/
def entryName (resultNames : List Section) (file : TaggedFile) : Section :=
  let dupCount := resultNames.count file.fileName
  if 0 < dupCount then numbered file.fileName dupCount else file.fileName

/-- The loop over the files of the tag. -/
def listFiles : List Section → List TaggedFile → List Entry
  | _, [] => []
  | resultNames, file :: files =>
    { name := entryName resultNames file, file := file } :: listFiles (resultNames ++ [file.fileName]) files

/-- The files of the tag; the root has no entries for files. -/
def listed (search : TagSearch) (url : List Section) : List TaggedFile :=
  if isInvalid url ∨ address url = [] then [] else search.tagged (address url)

/-- The entries for files. -/
def entries (search : TagSearch) (url : List Section) : List Entry := listFiles [] (listed search url)

/-! ## What is expected -/

/-- The names differ, and each of them leads to its file. -/
structure Resolves (search : TagSearch) (url : List Section) : Prop where
  /-- the names differ -/
  nodup : ((entries search url).map Entry.name).Nodup
  /-- they lead to their files -/
  resolve : ∀ entry ∈ entries search url, resolve search (url ++ [entry.name]) = some entry.file

/-- The name is what its entry says: the scheme does not occur in it, and it does not end with a number, unless there
has been another file of this name, and its entry ends with one. -/
structure Ordinary (before : List TaggedFile) (fileName : Section) : Prop where
  /-- the scheme does not occur -/
  scheme : removeScheme fileName = fileName
  /-- the number is an `int` -/
  few : (before.map TaggedFile.fileName).count fileName < 2 ^ 31
  /-- the number is not part of the name -/
  number : fileName ∈ before.map TaggedFile.fileName ∨ splitNumber fileName = none

/-- Among the files of the tag that have the words in their names, the file is at this place, or the last one if there
are not so many. -/
def IsAt (search : TagSearch) (t : Target) (file : TaggedFile) : Prop :=
  ∃ before after, search.tagged t.tag = before ++ file :: after ∧ search.hasWords t.fileName file = true ∧
    (before.countP (search.hasWords t.fileName) = t.pos ∨
      before.countP (search.hasWords t.fileName) < t.pos ∧
        ∀ other ∈ after, search.hasWords t.fileName other = false)

/-- The words of an ordinary name are in no other name before it; a file with another name is where that says. -/
def Findable (search : TagSearch) (url : List Section) (before : List TaggedFile) (file : TaggedFile) : Prop :=
  (Ordinary before file.fileName → ∀ other ∈ before,
    search.hasWords file.fileName other = true → other.fileName = file.fileName) ∧
  (¬ Ordinary before file.fileName →
    IsAt search (target (url ++ [entryName (before.map TaggedFile.fileName) file])) file)

/-! ## The loop over the hits -/

/-- The loop ends at the hit with the number, or after the last one. -/
theorem findHit_eq_some_iff {pos i : ℕ} (hi : i ≤ pos) {hits : List TaggedFile} {fileUrl : Option TaggedFile}
    {file : TaggedFile} :
    findHit pos i hits fileUrl = some file ↔
      (∃ before after, hits = before ++ file :: after ∧
        (before.length + i = pos ∨ before.length + i < pos ∧ after = [])) ∨ hits = [] ∧ fileUrl = some file := by
  induction hits generalizing i fileUrl with
  | nil => simp [findHit]
  | cons hit hits ih =>
    rw [findHit]
    by_cases heq : i = pos
    · rw [if_pos heq, Option.some_inj]
      constructor
      · rintro rfl
        exact .inl ⟨[], hits, rfl, .inl (by simpa using heq)⟩
      · rintro (⟨before, after, hhits, hplace⟩ | ⟨hnil, -⟩)
        · have hbefore : before = [] := List.length_eq_zero_iff.mp (by omega)
          rw [hbefore] at hhits
          exact (List.cons.inj hhits).1
        · cases hnil
    · rw [if_neg heq, ih (by omega)]
      constructor
      · rintro (⟨before, after, rfl, hplace⟩ | ⟨rfl, hhit⟩)
        · refine .inl ⟨hit :: before, after, rfl, ?_⟩
          rwa [List.length_cons, Nat.add_right_comm]
        · cases hhit
          exact .inl ⟨[], [], rfl, .inr ⟨by simp only [List.length_nil]; omega, rfl⟩⟩
      · rintro (⟨_ | ⟨first, before⟩, after, hhits, hplace⟩ | ⟨hnil, -⟩)
        · obtain ⟨rfl, rfl⟩ := List.cons.inj hhits
          rw [List.length_nil, Nat.zero_add] at hplace
          exact .inr ⟨(hplace.resolve_left heq).2, rfl⟩
        · obtain ⟨rfl, rfl⟩ := List.cons.inj hhits
          refine .inl ⟨before, after, rfl, ?_⟩
          rwa [List.length_cons, Nat.add_right_comm] at hplace
        · cases hnil

variable {search : TagSearch} {url : List Section}

/-- An address leads to the file at the place that it says. -/
theorem resolve_eq_some_iff (hvalid : isInvalid url = false) {file : TaggedFile} :
    resolve search url = some file ↔ IsAt search (target url) file := by
  rw [resolve, hvalid, if_neg Bool.false_ne_true, findHit_eq_some_iff (Nat.zero_le _), TagSearch.exec, IsAt]
  constructor
  · rintro (⟨before, after, hhits, hplace⟩ | ⟨-, hnone⟩)
    · obtain ⟨front, back, hfiles, rfl, hback⟩ := List.filter_eq_append_iff.mp hhits
      obtain ⟨skipped, after', rfl, hskipped, hfile, rfl⟩ := List.filter_eq_cons_iff.mp hback
      have hnot : skipped.filter (search.hasWords (target url).fileName) = [] := by
        rw [List.filter_eq_nil_iff]
        exact fun other hother => hskipped other hother
      refine ⟨front ++ skipped, after', by rw [hfiles, List.append_assoc], hfile, ?_⟩
      rw [List.countP_eq_length_filter, List.filter_append, hnot, List.append_nil]
      refine hplace.imp id (And.imp id fun hnil other hother => ?_)
      exact Bool.eq_false_iff.mpr (List.filter_eq_nil_iff.mp hnil other hother)
    · cases hnone
  · rintro ⟨before, after, hfiles, hfile, hplace⟩
    refine .inl ⟨before.filter (search.hasWords (target url).fileName),
      after.filter (search.hasWords (target url).fileName), ?_, ?_⟩
    · rw [hfiles, List.filter_append, List.filter_cons_of_pos hfile]
    · rw [← List.countP_eq_length_filter]
      refine hplace.imp id (And.imp id fun hafter => ?_)
      exact List.filter_eq_nil_iff.mpr fun other hother => by simp [hafter other hother]

/-! ## The entries and the files -/

theorem mem_listFiles {resultNames : List Section} {files : List TaggedFile} {entry : Entry} :
    entry ∈ listFiles resultNames files ↔ ∃ before file after, files = before ++ file :: after ∧
      entry = { name := entryName (resultNames ++ before.map TaggedFile.fileName) file, file := file } := by
  induction files generalizing resultNames with
  | nil => simp [listFiles]
  | cons first files ih =>
    rw [listFiles, List.mem_cons, ih]
    constructor
    · rintro (rfl | ⟨before, file, after, rfl, rfl⟩)
      · exact ⟨[], first, files, rfl, by rw [List.map_nil, List.append_nil]⟩
      · exact ⟨first :: before, file, after, rfl, by rw [List.map_cons, List.append_assoc, List.singleton_append]⟩
    · rintro ⟨_ | ⟨other, before⟩, file, after, hfiles, rfl⟩
      · obtain ⟨rfl, rfl⟩ := List.cons.inj hfiles
        exact .inl (by rw [List.map_nil, List.append_nil])
      · obtain ⟨rfl, rfl⟩ := List.cons.inj hfiles
        exact .inr ⟨before, file, after, rfl, by rw [List.map_cons, List.append_assoc, List.singleton_append]⟩

theorem map_file_listFiles (resultNames : List Section) (files : List TaggedFile) :
    (listFiles resultNames files).map Entry.file = files := by
  induction files generalizing resultNames with
  | nil => rfl
  | cons file files ih => rw [listFiles, List.map_cons, ih]

theorem nodup_listed : (listed search url).Nodup := by
  rw [listed]
  split
  · exact .nil
  · exact search.nodup _

/-- Entries that lead to their files have different names. -/
theorem resolves_iff : Resolves search url ↔
    ∀ entry ∈ entries search url, resolve search (url ++ [entry.name]) = some entry.file := by
  refine ⟨Resolves.resolve, fun h => ⟨?_, h⟩⟩
  have hfiles : ((entries search url).map Entry.file).Nodup := by
    rw [entries, map_file_listFiles]
    exact nodup_listed
  refine List.Nodup.map_on (fun entry hentry other hother hname => ?_) hfiles.of_map
  refine List.inj_on_of_nodup_map hfiles hentry hother (Option.some_inj.mp ?_)
  rw [← h entry hentry, ← h other hother, hname]

/-! ## Numbers at the end of a name -/

theorem isDigit_of_mem_toDigits {n : ℕ} {c : Char} (h : c ∈ Nat.toDigits 10 n) : c.isDigit = true :=
  Nat.isDigit_of_mem_toDigits (by decide) (by decide) h

/-- The number of an entry is split off again. -/
theorem splitNumber_numbered {fileName : Section} {n : ℕ} (hn : n < 2 ^ 31) :
    splitNumber (numbered fileName n) = some (fileName, n) := by
  have hreverse : (numbered fileName n).reverse =
      ')' :: ((Nat.toDigits 10 n).reverse ++ '(' :: ' ' :: fileName.reverse) := by
    simp [numbered]
  have hlast : (numbered fileName n).getLast? ≠ some '\n' := by
    rw [← List.head?_reverse, hreverse]
    exact fun h => absurd (Option.some_inj.mp h) (by decide)
  have htake : ((Nat.toDigits 10 n).reverse ++ '(' :: ' ' :: fileName.reverse).takeWhile Char.isDigit =
      (Nat.toDigits 10 n).reverse := by
    rw [List.takeWhile_append_of_pos fun c hc => isDigit_of_mem_toDigits (List.mem_reverse.mp hc)]
    simp
  have hdrop : ((Nat.toDigits 10 n).reverse ++ '(' :: ' ' :: fileName.reverse).dropWhile Char.isDigit =
      '(' :: ' ' :: fileName.reverse := by
    rw [List.dropWhile_append_of_pos fun c hc => isDigit_of_mem_toDigits (List.mem_reverse.mp hc)]
    simp
  have hvalue : toInt (Nat.toDigits 10 n) = n := by
    rw [toInt, Nat.ofDigitChars_toDigits (by decide) (by decide), if_pos hn]
  obtain ⟨c, digits, hdigits⟩ := List.exists_cons_of_ne_nil
    (List.reverse_ne_nil_iff.mpr (Nat.toDigits_ne_nil (b := 10) (n := n)))
  have hmatch : matchNumber (numbered fileName n).reverse =
      if isSpaceChar ' ' then some (fileName.reverse, toInt (c :: digits).reverse) else none := by
    rw [hreverse, matchNumber, htake, hdrop, hdigits]
    rfl
  rw [splitNumber, if_neg hlast, hmatch, if_pos (by decide), ← hdigits, List.reverse_reverse, hvalue, Option.map_some,
    List.reverse_reverse]

theorem removeScheme_append_cons {c : Char} (hc : c.toNat ∉ "tags:".toList.map Char.toNat) (a b : Section) :
    removeScheme (a ++ c :: b) = removeScheme a ++ c :: removeScheme b :=
  Replace.replace_append_cons (by decide) hc a b

/-- A number adds no scheme to a name. -/
theorem removeScheme_numbered {fileName : Section} {n : ℕ} (h : removeScheme fileName = fileName) :
    removeScheme (numbered fileName n) = numbered fileName n := by
  have htail : removeScheme ('(' :: (Nat.toDigits 10 n ++ [')'])) = '(' :: (Nat.toDigits 10 n ++ [')']) := by
    refine Replace.replace_eq_self_of_not_mem (c := 't') (by decide) fun hmem => ?_
    obtain ⟨c, hc, heq⟩ := List.mem_map.mp hmem
    obtain rfl : c = 't' := Char.toNat_inj.mp heq
    rcases List.mem_cons.mp hc with hc | hc
    · cases hc
    · rcases List.mem_append.mp hc with hc | hc
      · exact absurd (isDigit_of_mem_toDigits hc) (by decide)
      · cases List.mem_singleton.mp hc
  rw [numbered, removeScheme_append_cons (by decide), h, htail]

/-! ## Ordinary names -/

variable {before after : List TaggedFile} {file : TaggedFile}

theorem address_append {name : Section} (hscheme : removeScheme name = name) (hne : name ≠ []) (hdot : name ≠ ['.'])
    (hdots : name ≠ ['.', '.']) : address (url ++ [name]) = address url ++ [name] := by
  rw [address, cleanPath, List.map_append, List.foldl_append, List.map_singleton, hscheme, List.foldl_cons,
    List.foldl_nil, if_neg (by simp [hne, hdot]), if_neg fun h => hdots h.1, ← cleanPath, ← address]

/-- The number of a name cannot be mistaken for a step in a path. -/
theorem numbered_isName (fileName : Section) (n : ℕ) :
    numbered fileName n ≠ [] ∧ numbered fileName n ≠ ['.'] ∧ numbered fileName n ≠ ['.', '.'] := by
  have hmem : ' ' ∈ numbered fileName n := List.mem_append_right _ List.mem_cons_self
  refine ⟨fun h => ?_, fun h => ?_, fun h => ?_⟩ <;> rw [h] at hmem <;> revert hmem <;> decide

/-- The address of an entry with an ordinary name says the tag, the name, and how many files of this name come
before. -/
theorem Ordinary.target_eq (h : Ordinary before file.fileName) :
    target (url ++ [entryName (before.map TaggedFile.fileName) file]) =
      { tag := address url, fileName := file.fileName
        pos := (before.map TaggedFile.fileName).count file.fileName } := by
  by_cases hpos : 0 < (before.map TaggedFile.fileName).count file.fileName
  · obtain ⟨hne, hdot, hdots⟩ :=
      numbered_isName file.fileName ((before.map TaggedFile.fileName).count file.fileName)
    rw [entryName, if_pos hpos, target, address_append (removeScheme_numbered h.scheme) hne hdot hdots]
    simp [splitNumber_numbered h.few]
  · obtain ⟨hne, hdot, hdots⟩ := file.isName
    have hcount : (before.map TaggedFile.fileName).count file.fileName = 0 := by omega
    have hnumber : splitNumber file.fileName = none :=
      h.number.resolve_left fun hmem => hpos (List.count_pos_iff.mpr hmem)
    rw [entryName, if_neg hpos, target, address_append h.scheme hne hdot hdots, hcount]
    simp [hnumber]

/-- Two tests hold equally often, the second one wherever the first does, exactly if they agree. -/
theorem countP_eq_iff {α : Type} {p q : α → Bool} {l : List α} (h : ∀ x ∈ l, q x = true → p x = true) :
    l.countP p = l.countP q ↔ ∀ x ∈ l, p x = true → q x = true := by
  refine ⟨fun heq => ?_, fun hpq => List.countP_congr fun x hx => ⟨hpq x hx, h x hx⟩⟩
  induction l with
  | nil => exact fun _ hx => absurd hx List.not_mem_nil
  | cons a l ih =>
    obtain ⟨ha, hl⟩ := List.forall_mem_cons.mp h
    have hle := List.countP_mono_left hl
    rw [List.countP_cons, List.countP_cons] at heq
    refine List.forall_mem_cons.mpr ⟨fun hp => ?_, ih hl ?_⟩
    · by_contra hq
      rw [if_pos hp, if_neg hq] at heq
      omega
    · by_cases hq : q a = true
      · rw [if_pos (ha hq), if_pos hq] at heq
        omega
      · rw [if_neg hq] at heq
        split at heq <;> omega

/-- A file with an ordinary name is found exactly if its words are in no other name before it. -/
theorem isAt_ordinary_iff (hfiles : search.tagged (address url) = before ++ file :: after) :
    IsAt search { tag := address url, fileName := file.fileName
                  pos := (before.map TaggedFile.fileName).count file.fileName } file ↔
      ∀ other ∈ before, search.hasWords file.fileName other = true → other.fileName = file.fileName := by
  have hself : ∀ other : TaggedFile, other.fileName = file.fileName → search.hasWords file.fileName other = true := by
    intro other hother
    rw [TagSearch.hasWords, hother]
    exact decide_eq_true (List.infix_refl _)
  have hcount : (before.map TaggedFile.fileName).count file.fileName =
      before.countP fun other => decide (other.fileName = file.fileName) := by
    rw [List.count, List.countP_map]
    exact List.countP_congr fun other _ => by simp
  have hle : before.countP (fun other => decide (other.fileName = file.fileName)) ≤
      before.countP (search.hasWords file.fileName) :=
    List.countP_mono_left fun other _ hother => hself other (of_decide_eq_true hother)
  have hiff := @countP_eq_iff _ (search.hasWords file.fileName) (fun other => decide (other.fileName = file.fileName))
    before fun other _ hother => hself other (of_decide_eq_true hother)
  simp only [decide_eq_true_iff] at hiff
  rw [← hiff, hcount]
  constructor
  · rintro ⟨before', after', hfiles', -, hplace⟩
    -- the file is there only once
    obtain ⟨rfl, rfl⟩ : before' = before ∧ after' = after := by
      have hnodup := search.nodup (address url)
      rw [hfiles] at hnodup hfiles'
      have hnot := (List.nodup_middle.mp hnodup).notMem
      obtain ⟨rfl, -, rfl⟩ := (List.append_cons_inj_of_notMem (fun hmem => hnot (List.mem_append_left _ hmem))
        fun hmem => hnot (List.mem_append_right _ hmem)).mp hfiles'
      exact ⟨rfl, rfl⟩
    exact hplace.resolve_right fun hlt => absurd hlt.1 (not_lt_of_ge hle)
  · exact fun heq => ⟨before, after, hfiles, hself file rfl, .inl heq⟩

/-- A name behind the address of a folder with files. -/
theorem isInvalid_append {name : Section} (hfile : file ∈ listed search url) : isInvalid (url ++ [name]) = false := by
  rw [listed] at hfile
  split at hfile
  · cases hfile
  case isFalse hnot =>
    obtain ⟨hvalid, hroot⟩ := not_or.mp hnot
    rcases url with _ | ⟨first, _ | ⟨second, url⟩⟩
    · exact absurd rfl hroot
    · rw [isInvalid, Bool.and_eq_false_iff]
      refine .inl (decide_eq_false fun h => hroot ?_)
      rw [Option.some_inj.mp h]
      rfl
    · simpa [isInvalid] using hvalid

theorem findable_iff (hfiles : listed search url = before ++ file :: after) :
    resolve search (url ++ [entryName (before.map TaggedFile.fileName) file]) = some file ↔
      Findable search url before file := by
  have hmem : file ∈ listed search url := hfiles ▸ List.mem_append_right _ List.mem_cons_self
  have htagged : search.tagged (address url) = before ++ file :: after := by
    rw [← hfiles, listed]
    split
    case isTrue hnone =>
      rw [listed, if_pos hnone] at hmem
      cases hmem
    · rfl
  rw [resolve_eq_some_iff (isInvalid_append hmem), Findable]
  by_cases hord : Ordinary before file.fileName
  · rw [hord.target_eq, isAt_ordinary_iff htagged]
    exact ⟨fun h => ⟨fun _ => h, fun hnot => absurd hord hnot⟩, fun h => h.1 hord⟩
  · exact ⟨fun h => ⟨fun h' => absurd h' hord, fun _ => h⟩, fun h => h.2 hord⟩

/-- The words of a name are what stands between its spaces. -/
def words (fileName : Section) : List Term :=
  (fileName.splitOn ' ').map fun word => word.map fun c => UInt8.ofNat c.toNat

/-- Two files have the tag, and the search finds the one with the longer name first. -/
def lookAlikes : TagSearch where
  termList := words
  tagged _ :=
    [{ path := [], fileName := "holiday plan".toList }, { path := [], fileName := "holiday".toList }]
  nodup _ := by decide

end Baloo.TagsProtocol
