import Baloo.Lib.Sections
import Baloo.TagEntries
import Baloo.TagFolders

/-!
# Browsing the tags

The tags are shown as a tree of folders: a slash in a tag leads to a folder below. For every address the worker goes
through all tags, without regard to case, and lists the section that follows, once for all tags that have it.

A tag that goes on where the name of the folder ends is taken for one in the folder, so a folder may list what is not
below it (`folder_listed`). And an address may lead to a file that is found under the words of the section, instead of
to the folder. Apart from that every tag can be browsed to, but of the tags that differ in case only one can
(`tag_browsed`).
-/

namespace Baloo.TagsProtocol

open Replace (startsWith)

/-! ## Sections -/

/-- The sections that are not empty. -/
def sectionsOf (tag : Tag) : List Section := (tag.splitOn '/').filter (· ≠ [])

/-- `tag.section(QLatin1Char('/'), index, index, QString::SectionSkipEmpty)`. -/
def sectionAt (tag : Tag) (index : ℕ) : Section := (sectionsOf tag)[index]?.getD []

/-- `tag.section(QLatin1Char('/'), -n)`. -/
def lastSections (n : ℕ) (tag : Tag) : List Char :=
  ['/'].intercalate ((tag.splitOn '/').drop ((tag.splitOn '/').length - n))

/-- Sections as a text. -/
def text (path : List Section) : Tag := ['/'].intercalate path

/-! ## Entries -/

/-- `displayType`. -/
inductive DisplayType where
  | tag
  | tagFragment
  | allTags
  deriving DecidableEq

/-- What `createUDSEntryForTag` makes, apart from what all entries for tags have in common. -/
structure TagEntry where
  /-- `UDS_NAME` -/
  name : Section
  /-- `UDS_EXTRA` -/
  extra : Tag
  /-- `UDS_DISPLAY_TYPE` -/
  displayType : DisplayType
  /-- `UDS_DISPLAY_NAME` -/
  displayName : List Char
  deriving DecidableEq

/-- `createUDSEntryForTag`. -/
def createUDSEntryForTag (tagSection : Section) (tag : Tag) : TagEntry :=
  if tagSection = tag then
    { name := tagSection, extra := tag, displayType := .tag, displayName := lastSections 1 tag }
  else if tag ≠ [] then
    { name := tagSection, extra := tag, displayType := .tagFragment
      displayName :=
        if tagSection = ['.', '.'] then lastSections 2 tag
        else if tagSection = ['.'] then lastSections 1 tag
        else tagSection }
  else { name := tagSection, extra := tag, displayType := .allTags, displayName := "All Tags".toList }

/-- An entry that is listed. -/
inductive UDSEntry where
  /-- for a tag -/
  | tag (entry : TagEntry)
  /-- for a file -/
  | file (entry : Entry)
  deriving DecidableEq

/-- The entry is for a folder in the folder: neither `.` nor `..`. -/
def UDSEntry.subfolder : UDSEntry → Option Section
  | tag entry => if entry.name = ['.'] ∨ entry.name = ['.', '.'] then none else some entry.name
  | file _ => none

/-- `entry.stringValue(KIO::UDSEntry::UDS_EXTRA)`, empty for files. -/
def UDSEntry.extra : UDSEntry → Tag
  | tag entry => entry.extra
  | file _ => []

/-- The loop over the tags of `parseUrl`: the sections, each with its tag. -/
def listTags (foldCase : Char → ℕ) (tag : Tag) (index : ℕ) : List Tag → List Section → List (Section × Tag)
  | [], _ => []
  | other :: tags, tagPaths =>
    let tagSection := sectionAt other index
    if (tag = [] ∨ startsWith foldCase other tag = true) ∧
        ¬ (tagPaths.any fun path => path.map foldCase = tagSection.map foldCase) = true ∧ tagSection ≠ [] then
      (tagSection, other) :: listTags foldCase tag index tags (tagPaths ++ [tagSection])
    else listTags foldCase tag index tags tagPaths

/-! ## The worker -/

/-- `TagsProtocol::ParseFlags`. -/
structure ParseFlags where
  chopLastSection : Bool := false
  lazyValidation : Bool := false

/-- An address. -/
inductive Address where
  /-- `tags:/`, and what follows -/
  | tags (url : List Section)
  /-- the address of a local file -/
  | localFile (decodedUrl : List Char) (file : TaggedFile)
  /-- another one -/
  | other (decodedUrl : List Char)

/-- `QUrl::fromPercentEncoding(url.toString().toUtf8())`. -/
def Address.decodedUrl : Address → List Char
  | tags url => "tags:/".toList ++ text url
  | localFile decodedUrl _ => decodedUrl
  | other decodedUrl => decodedUrl

/-- `TagsProtocol::ParseResult`, with what is listed. -/
structure Parsed where
  urlType : UrlType := .invalidUrl
  tag : List Section := []
  fileUrl : Option TaggedFile := none
  /-- the text of `query` -/
  query : List Char := []
  pathUDSResults : List UDSEntry := []

/-- The worker, and what it finds. -/
structure TagWorker where
  /-- the key of a character without regard to case -/
  foldCase : Char → ℕ
  /-- the searches -/
  search : TagSearch
  /-- the tags of `TagListJob`, unless it fails -/
  tagJob : Option (List Tag)
  /-- `m_unassignedTags` -/
  unassignedTags : List Tag := []

namespace TagWorker

/-- `query.prepend("tag:")`, with the blanks and the slashes replaced. -/
def queryOf (tag : Tag) : List Char :=
  let query := "tag:".toList ++ tag
  let query := Replace.replace Char.toNat [' '] " AND tag:".toList query
  Replace.replace Char.toNat ['/'] " AND tag:".toList query

/-- `TagsProtocol::parseUrl` of an address with the scheme of the tags. -/
def parseTags (w : TagWorker) (flags : ParseFlags) (url : List Section) (tags : List Tag) : Parsed :=
  let fileUrl := resolve w.search url
  let tag := if fileUrl.isSome ∨ flags.chopLastSection then (address url).dropLast else address url
  let tags := tags ++ w.unassignedTags
  let index := (text tag).count '/' + if text tag = [] then 0 else 1
  let folders := (listTags w.foldCase (text tag) index tags []).map fun found =>
    UDSEntry.tag (createUDSEntryForTag found.1 found.2)
  let validTag := flags.lazyValidation || tag = [] || tags.any fun other => startsWith w.foldCase other (text tag)
  let urlType := if !validTag then .invalidUrl else if fileUrl.isNone then .tagUrl else .fileUrl
  { urlType := urlType
    tag := tag
    fileUrl := fileUrl
    query := if tag = [] then [] else queryOf (text tag)
    pathUDSResults :=
      if urlType = .fileUrl then folders
      else if tag = [] then folders ++ [.tag (createUDSEntryForTag ['.'] (text tag))]
      else
        folders ++ [.tag (createUDSEntryForTag ['.'] (text tag)), .tag (createUDSEntryForTag ['.', '.'] (text tag))] ++
          (listFiles [] (w.search.tagged tag)).map .file }

/-- `TagsProtocol::parseUrl`. -/
def parseUrl (w : TagWorker) (flags : ParseFlags) : Address → Parsed
  | .tags url =>
    if isInvalid url then {}
    else
      match w.tagJob with
      | none => {}
      | some tags => w.parseTags flags url tags
  | .localFile _ file => if w.tagJob.isNone then {} else { urlType := .fileUrl, fileUrl := some file }
  | .other _ =>
    if w.tagJob.isNone then {} else { pathUDSResults := [.tag (createUDSEntryForTag ['.'] [])] }

/-- `TagsProtocol::listDir`. -/
def listDir (w : TagWorker) (url : Address) : Except (List Char) (List UDSEntry) :=
  let result := w.parseUrl {} url
  match result.urlType with
  | .tagUrl => .ok result.pathUDSResults
  | .invalidUrl => .error url.decodedUrl
  | .fileUrl => .error url.decodedUrl

/-- What `stat` answers. -/
inductive StatAnswer where
  /-- it is forwarded to the file -/
  | forwarded (file : Option TaggedFile)
  /-- an entry -/
  | entry (entry : UDSEntry)
  /-- no entry -/
  | nothing

/-- `TagsProtocol::stat`. -/
def stat (w : TagWorker) (url : Address) : Except (List Char) StatAnswer :=
  let result := w.parseUrl {} url
  match result.urlType with
  | .invalidUrl => .error url.decodedUrl
  | .fileUrl => .ok (.forwarded result.fileUrl)
  | .tagUrl =>
    match result.pathUDSResults.find? fun entry => entry.extra = text result.tag with
    | some entry => .ok (.entry entry)
    | none => .ok .nothing

/-- `TagsProtocol::mkdir`. -/
def mkdir (w : TagWorker) (url : Address) : Except (List Char) TagWorker :=
  let result := w.parseUrl { lazyValidation := true } url
  match result.urlType with
  | .tagUrl => .ok { w with unassignedTags := w.unassignedTags ++ [text result.tag] }
  | .invalidUrl => .error url.decodedUrl
  | .fileUrl => .error url.decodedUrl

/-- The tags that folders are made of. -/
def allTags (w : TagWorker) : List Tag := w.tagJob.getD [] ++ w.unassignedTags

end TagWorker

/-! ## Tags and sections -/

/-- A name that can be a section: cleaning the path and removing the scheme leave it as it is. -/
structure IsSection (s : Section) : Prop where
  ne_nil : s ≠ []
  slash : '/' ∉ s
  ne_dot : s ≠ ['.']
  ne_dotdot : s ≠ ['.', '.']
  scheme : removeScheme s = s

/-- A tag is made of sections. -/
def IsTag (tag : Tag) : Prop := ∃ path : List Section, path ≠ [] ∧ (∀ s ∈ path, IsSection s) ∧ tag = text path

variable (foldCase : Char → ℕ)

/-- The texts differ in case at most. -/
def SameText (a b : List Char) : Prop := a.map foldCase = b.map foldCase

/-- The paths differ in case at most. -/
def SamePath (path path' : List Section) : Prop := path.map (·.map foldCase) = path'.map (·.map foldCase)

/-- The tag is that of the folder or of one below, up to case. -/
def Inside (path : List Section) (tag : Tag) : Prop :=
  path.map (·.map foldCase) <+: (sectionsOf tag).map (·.map foldCase)

/-- The name of the folder ends within a section of the tag, and this section comes next. -/
def RunsOn (path : List Section) (tag : Tag) (name : Section) : Prop :=
  ∃ front last front' longer rest, path = front ++ [last] ∧ sectionsOf tag = front' ++ longer :: name :: rest ∧
    SamePath foldCase front' front ∧ startsWith foldCase longer last = true ∧ ¬ SameText foldCase longer last

variable {foldCase} {path : List Section} {tag name : List Char}

theorem sectionsOf_text (h : ∀ s ∈ path, IsSection s) : sectionsOf (text path) = path := by
  rcases eq_or_ne path [] with rfl | hne
  · rfl
  · rw [sectionsOf, text, List.splitOn_intercalate '/' (fun s hs => (h s hs).slash) hne]
    exact List.filter_eq_self.mpr fun s hs => decide_eq_true (h s hs).ne_nil

theorem IsTag.text_sectionsOf (h : IsTag tag) : text (sectionsOf tag) = tag := by
  obtain ⟨path, -, hsections, rfl⟩ := h
  rw [sectionsOf_text hsections]

theorem IsTag.isSection (h : IsTag tag) {s : Section} (hs : s ∈ sectionsOf tag) : IsSection s := by
  obtain ⟨path, -, hsections, rfl⟩ := h
  rw [sectionsOf_text hsections] at hs
  exact hsections s hs

theorem IsTag.sectionsOf_ne (h : IsTag tag) : sectionsOf tag ≠ [] := by
  obtain ⟨path, hne, hsections, rfl⟩ := h
  rwa [sectionsOf_text hsections]

theorem sectionAt_eq_iff {index : ℕ} (hname : name ≠ []) :
    sectionAt tag index = name ↔ (sectionsOf tag)[index]? = some name := by
  rw [sectionAt]
  cases (sectionsOf tag)[index]? with
  | none => simpa using hname.symm
  | some s => simp

/-- The sections of an address are those of the tag. -/
theorem address_eq (h : ∀ s ∈ path, IsSection s) : address path = path := by
  have hscheme : path.map removeScheme = path :=
    (List.map_congr_left fun s hs => (h s hs).scheme).trans (List.map_id' path)
  rw [address, hscheme, cleanPath]
  clear hscheme
  induction path using List.reverseRecOn with
  | nil => rfl
  | append_singleton path s ih =>
    have hs := h s (by simp)
    rw [List.foldl_append, ih fun s hs => h s (List.mem_append_left _ hs), List.foldl_cons, List.foldl_nil,
      if_neg (not_or.mpr ⟨hs.ne_nil, hs.ne_dot⟩), if_neg fun hdots => hs.ne_dotdot hdots.1]

theorem isInvalid_eq (h : ∀ s ∈ path, IsSection s) : isInvalid path = false := by
  cases path with
  | nil => rfl
  | cons s path => simp [isInvalid, (h s List.mem_cons_self).ne_nil]

theorem text_eq_nil_iff (h : ∀ s ∈ path, IsSection s) : text path = [] ↔ path = [] := by
  constructor
  · intro htext
    rw [← sectionsOf_text h, htext]
    rfl
  · rintro rfl
    rfl

/-- The number of the section that comes next. -/
theorem index_eq (h : ∀ s ∈ path, IsSection s) :
    (text path).count '/' + (if text path = [] then 0 else 1) = path.length := by
  simp only [text_eq_nil_iff h]
  induction path with
  | nil => rfl
  | cons s path ih =>
    have hs : s.count '/' = 0 := List.count_eq_zero.mpr (h s List.mem_cons_self).slash
    cases path with
    | nil => simpa [text] using hs
    | cons s' path =>
      have hrest := ih fun s hs => h s (List.mem_cons_of_mem _ hs)
      rw [if_neg (List.cons_ne_nil _ _)] at hrest ⊢
      rw [text, Sections.intercalate_cons_cons, List.count_append, List.count_cons_self, hs, ← text]
      simp only [List.length_cons] at hrest ⊢
      omega

theorem map_text : (text path).map foldCase = [foldCase '/'].intercalate (path.map (·.map foldCase)) :=
  Sections.map_intercalate foldCase '/' path

/-! ## What is in a folder -/

/-- No other character counts as a slash. -/
def KeepsSlash (foldCase : Char → ℕ) : Prop := ∀ c, foldCase c = foldCase '/' → c = '/'

/-- The section follows in a tag of the folder, or of one below. -/
def Below (foldCase : Char → ℕ) (path : List Section) (tag : Tag) (name : Section) : Prop :=
  Inside foldCase path tag ∧ (sectionsOf tag)[path.length]? = some name

theorem SamePath.length_eq {path' : List Section} (h : SamePath foldCase path path') :
    path.length = path'.length := by
  have hlength := congrArg List.length h
  rwa [List.length_map, List.length_map] at hlength

theorem map_eq_concat_iff {l : List Section} {front : List (List ℕ)} {a : List ℕ} :
    l.map (·.map foldCase) = front ++ [a] ↔
      ∃ first last, l = first ++ [last] ∧ first.map (·.map foldCase) = front ∧ last.map foldCase = a := by
  constructor
  · intro h
    obtain ⟨first, back, rfl, hfirst, hback⟩ := List.map_eq_append_iff.mp h
    obtain ⟨last, rfl, hlast⟩ := List.map_eq_singleton_iff.mp hback
    exact ⟨first, last, rfl, hfirst, hlast⟩
  · rintro ⟨first, last, rfl, rfl, rfl⟩
    simp

theorem map_eq_append_cons_iff {l : List Section} {front rest : List (List ℕ)} {b : List ℕ} :
    l.map (·.map foldCase) = front ++ b :: rest ↔
      ∃ first s back, l = first ++ s :: back ∧ first.map (·.map foldCase) = front ∧ s.map foldCase = b ∧
        back.map (·.map foldCase) = rest := by
  constructor
  · intro h
    obtain ⟨first, l', rfl, hfirst, hl'⟩ := List.map_eq_append_iff.mp h
    obtain ⟨s, back, rfl, hs, hback⟩ := List.map_eq_cons_iff.mp hl'
    exact ⟨first, s, back, rfl, hfirst, hs, hback⟩
  · rintro ⟨first, s, back, rfl, rfl, rfl, rfl⟩
    simp

/-- A folded text without slashes has no slash. -/
theorem notMem_map (hfold : KeepsSlash foldCase) {s : Section} (hs : '/' ∉ s) : foldCase '/' ∉ s.map foldCase := by
  intro h
  obtain ⟨c, hc, heq⟩ := List.mem_map.mp h
  exact hs (hfold c heq ▸ hc)

/-- The tag starts with the text of the folder: its sections do, where the last one may go on. -/
theorem startsWith_text_iff (hfold : KeepsSlash foldCase) (h : ∀ s ∈ path, IsSection s) (hne : path ≠ [])
    (htag : IsTag tag) : startsWith foldCase tag (text path) = true ↔
      ∃ front last front' longer rest, path = front ++ [last] ∧ sectionsOf tag = front' ++ longer :: rest ∧
        SamePath foldCase front' front ∧ startsWith foldCase longer last = true := by
  have hslash : ∀ p : List Section, (∀ s ∈ p, IsSection s) → ∀ t ∈ p.map (·.map foldCase), foldCase '/' ∉ t := by
    intro p hp t ht
    obtain ⟨s, hs, rfl⟩ := List.mem_map.mp ht
    exact notMem_map hfold (hp s hs).slash
  rw [startsWith, List.isPrefixOf_iff_prefix, map_text]
  conv_lhs => rw [← htag.text_sectionsOf, map_text]
  rw [Sections.intercalate_prefix_iff (hslash path h) (hslash _ fun s hs => htag.isSection hs) (by simpa using hne)
    (by simpa using htag.sectionsOf_ne)]
  constructor
  · rintro ⟨front, a, b, rest, hp, hq, hab⟩
    obtain ⟨first, last, rfl, rfl, rfl⟩ := map_eq_concat_iff.mp hp
    obtain ⟨first', longer, back, hsections, hfirst, rfl, -⟩ := map_eq_append_cons_iff.mp hq
    refine ⟨first, last, first', longer, back, rfl, hsections, hfirst, ?_⟩
    rwa [startsWith, List.isPrefixOf_iff_prefix]
  · rintro ⟨front, last, front', longer, rest, rfl, hsections, hfront, hlonger⟩
    rw [startsWith, List.isPrefixOf_iff_prefix] at hlonger
    refine ⟨_, _, _, rest.map (·.map foldCase), map_eq_concat_iff.mpr ⟨front, last, rfl, rfl, rfl⟩, ?_, hlonger⟩
    rw [hsections, ← hfront]
    simp

/-- The sections of a tag of the folder. -/
theorem inside_concat_iff {front : List Section} {last : Section} : Inside foldCase (front ++ [last]) tag ↔
    ∃ front' longer rest, sectionsOf tag = front' ++ longer :: rest ∧ SamePath foldCase front' front ∧
      SameText foldCase longer last := by
  rw [Inside, List.map_append, List.map_singleton]
  constructor
  · rintro ⟨rest, hrest⟩
    rw [List.append_assoc, List.singleton_append] at hrest
    obtain ⟨front', longer, back, hsections, hfront, hlonger, -⟩ := map_eq_append_cons_iff.mp hrest.symm
    exact ⟨front', longer, back, hsections, hfront, hlonger⟩
  · rintro ⟨front', longer, rest, hsections, hfront, hlonger⟩
    refine ⟨rest.map (·.map foldCase), ?_⟩
    rw [hsections, ← hfront, ← hlonger]
    simp

theorem startsWith_of_sameText {a b : List Char} (h : SameText foldCase a b) : startsWith foldCase a b = true := by
  rw [startsWith, List.isPrefixOf_iff_prefix, h]

theorem Inside.startsWith (hfold : KeepsSlash foldCase) (h : ∀ s ∈ path, IsSection s) (hne : path ≠ [])
    (htag : IsTag tag) (hin : Inside foldCase path tag) : startsWith foldCase tag (text path) = true := by
  obtain ⟨front, last, rfl⟩ := (List.eq_nil_or_concat' path).resolve_left hne
  obtain ⟨front', longer, rest, hsections, hfront, hlonger⟩ := inside_concat_iff.mp hin
  exact (startsWith_text_iff hfold h hne htag).mpr
    ⟨front, last, front', longer, rest, rfl, hsections, hfront, startsWith_of_sameText hlonger⟩

/-- The tags whose next section is listed. -/
theorem shows_iff (hfold : KeepsSlash foldCase) (h : ∀ s ∈ path, IsSection s) (htag : IsTag tag) :
    (path = [] ∨ startsWith foldCase tag (text path) = true) ∧ (sectionsOf tag)[path.length]? = some name ↔
      Below foldCase path tag name ∨ RunsOn foldCase path tag name := by
  rcases List.eq_nil_or_concat' path with rfl | ⟨front, last, rfl⟩
  · simp [Below, Inside, RunsOn]
  · rw [startsWith_text_iff hfold h (by simp) htag, Below, inside_concat_iff]
    have hnext : ∀ {front' : List Section} {longer : Section} {rest : List Section}, SamePath foldCase front' front →
        sectionsOf tag = front' ++ longer :: rest →
        ((sectionsOf tag)[(front ++ [last]).length]? = some name ↔ rest.head? = some name) := by
      intro front' longer rest hfront hsections
      rw [hsections, List.length_append, ← hfront.length_eq, List.getElem?_append_right (Nat.le_add_right _ _)]
      simp [List.head?_eq_getElem?]
    constructor
    · rintro ⟨hnil | ⟨front₀, last₀, front', longer, rest, heq, hsections, hfront, hlonger⟩, hname⟩
      · simp at hnil
      · obtain ⟨rfl, hlast⟩ := List.append_inj' heq rfl
        obtain rfl := List.singleton_inj.mp hlast
        by_cases hsame : SameText foldCase longer last
        · exact .inl ⟨⟨front', longer, rest, hsections, hfront, hsame⟩, hname⟩
        · obtain ⟨rest', rfl⟩ := List.head?_eq_some_iff.mp ((hnext hfront hsections).mp hname)
          exact .inr ⟨front, last, front', longer, rest', rfl, hsections, hfront, hlonger, hsame⟩
    · rintro (⟨⟨front', longer, rest, hsections, hfront, hlonger⟩, hname⟩ |
        ⟨front₀, last₀, front', longer, rest, heq, hsections, hfront, hlonger, -⟩)
      · exact ⟨.inr ⟨front, last, front', longer, rest, rfl, hsections, hfront, startsWith_of_sameText hlonger⟩, hname⟩
      · obtain ⟨rfl, hlast⟩ := List.append_inj' heq rfl
        obtain rfl := List.singleton_inj.mp hlast
        exact ⟨.inr ⟨front, last, front', longer, name :: rest, rfl, hsections, hfront, hlonger⟩,
          (hnext hfront hsections).mpr rfl⟩

/-! ## What is listed -/

/-- The section of a tag that may be listed. -/
def candidate (foldCase : Char → ℕ) (tag : Tag) (index : ℕ) (other : Tag) : Option (Section × Tag) :=
  if (tag = [] ∨ startsWith foldCase other tag = true) ∧ sectionAt other index ≠ [] then
    some (sectionAt other index, other)
  else none

theorem listTags_eq (tag : Tag) (index : ℕ) (tags : List Tag) (tagPaths : List Section) :
    listTags foldCase tag index tags tagPaths =
      Sections.firsts (fun found : Section × Tag => found.1.map foldCase)
        (tags.filterMap (candidate foldCase tag index)) (tagPaths.map (·.map foldCase)) := by
  induction tags generalizing tagPaths with
  | nil => rfl
  | cons other tags ih =>
    have hseen : (tagPaths.any fun path => path.map foldCase = (sectionAt other index).map foldCase) = true ↔
        (sectionAt other index).map foldCase ∈ tagPaths.map (·.map foldCase) := by
      simp
    simp only [listTags, hseen, List.filterMap_cons, candidate]
    by_cases hcandidate : (tag = [] ∨ startsWith foldCase other tag = true) ∧ sectionAt other index ≠ []
    · rw [if_pos hcandidate, Sections.firsts]
      by_cases hmem : (sectionAt other index).map foldCase ∈ tagPaths.map (·.map foldCase)
      · rw [if_neg fun h => h.2.1 hmem, if_pos hmem]
        exact ih tagPaths
      · rw [if_pos ⟨hcandidate.1, hmem, hcandidate.2⟩, if_neg hmem, ih, List.map_append]
        rfl
    · rw [if_neg hcandidate, if_neg fun h => hcandidate ⟨h.1, h.2.2⟩]
      exact ih tagPaths

variable {w : TagWorker} {entries : List UDSEntry}

namespace TagWorker

/-- The folders that `parseUrl` makes for an address without a file. -/
def folders (w : TagWorker) (path : List Section) : List (Section × Tag) :=
  listTags w.foldCase (text path) path.length w.allTags []

/-- The names of the folders in a folder. -/
def names (entries : List UDSEntry) : List Section := entries.filterMap UDSEntry.subfolder

/-- The folder is known: some tag starts with its text. -/
def Known (w : TagWorker) (path : List Section) : Prop :=
  path = [] ∨ ∃ tag ∈ w.allTags, startsWith w.foldCase tag (text path) = true

/-- What is listed for a folder. -/
def contents (w : TagWorker) (path : List Section) : List UDSEntry :=
  ((w.folders path).map fun found => UDSEntry.tag (createUDSEntryForTag found.1 found.2)) ++
    .tag (createUDSEntryForTag ['.'] (text path)) ::
      if path = [] then []
      else .tag (createUDSEntryForTag ['.', '.'] (text path)) :: (listFiles [] (w.search.tagged path)).map .file

instance (path : List Section) : Decidable (w.Known path) :=
  inferInstanceAs (Decidable (path = [] ∨ ∃ tag ∈ w.allTags, startsWith w.foldCase tag (text path) = true))

theorem parseUrl_tags (h : ∀ s ∈ path, IsSection s) (hjob : w.tagJob.isSome) (flags : ParseFlags) :
    w.parseUrl flags (.tags path) = w.parseTags flags path (w.tagJob.getD []) := by
  obtain ⟨tags, htags⟩ := Option.isSome_iff_exists.mp hjob
  simp [parseUrl, isInvalid_eq h, htags]

theorem parseTags_eq (h : ∀ s ∈ path, IsSection s) (hfile : resolve w.search path = none) :
    w.parseTags {} path (w.tagJob.getD []) =
      { urlType := if w.Known path then .tagUrl else .invalidUrl
        tag := path
        fileUrl := none
        query := if path = [] then [] else queryOf (text path)
        pathUDSResults := w.contents path } := by
  have hvalid : (false || decide (path = []) || w.allTags.any fun other => startsWith w.foldCase other (text path)) =
      decide (w.Known path) := Bool.eq_iff_iff.mpr (by rw [decide_eq_true_iff]; simp [Known])
  have hindex := index_eq h
  simp only [parseTags, hfile, address_eq h, Option.isSome_none, Bool.false_eq_true, or_false, if_false,
    Option.isNone_none, if_true, hindex]
  rw [← allTags, hvalid, contents, folders]
  have htype : (if (!decide (w.Known path)) = true then UrlType.invalidUrl else .tagUrl) =
      if w.Known path then .tagUrl else .invalidUrl := by
    by_cases hknown : w.Known path <;> simp [hknown]
  have hno : ¬ (if w.Known path then UrlType.tagUrl else .invalidUrl) = .fileUrl := by
    split <;> exact UrlType.noConfusion
  rw [htype, if_neg hno]
  by_cases hpath : path = []
  · simp only [hpath, if_true]
  · simp only [hpath, if_false, List.append_assoc, List.cons_append, List.nil_append]

theorem urlType_of_file (flags : ParseFlags) (tags : List Tag) (hfile : resolve w.search path ≠ none) :
    (w.parseTags flags path tags).urlType ≠ .tagUrl := by
  obtain ⟨file, hfile⟩ := Option.ne_none_iff_exists'.mp hfile
  have hfileUrl : ∀ P [Decidable P], (if P then UrlType.invalidUrl else .fileUrl) ≠ .tagUrl := by
    intro P _
    split <;> exact UrlType.noConfusion
  simp only [parseTags, hfile, Option.isNone_some, Bool.false_eq_true, if_false]
  exact hfileUrl _

/-- A folder that no file has the address of is opened if it is known. -/
theorem listDir_eq_ok_iff (h : ∀ s ∈ path, IsSection s) : w.listDir (.tags path) = .ok entries ↔
    (w.tagJob.isSome ∧ resolve w.search path = none ∧ w.Known path) ∧ w.contents path = entries := by
  cases hjob : w.tagJob with
  | none => simp [listDir, parseUrl, hjob]
  | some tags =>
    rw [listDir, parseUrl_tags h (by rw [hjob]; rfl)]
    by_cases hfile : resolve w.search path = none
    · rw [parseTags_eq h hfile]
      by_cases hknown : w.Known path <;> simp [hfile, hknown]
    · have htype := urlType_of_file {} (w.tagJob.getD []) hfile
      split
      · contradiction
      · simp [hfile]
      · simp [hfile]

theorem mem_candidates {found : Section × Tag} (hfold : KeepsSlash w.foldCase) (htags : ∀ tag ∈ w.allTags, IsTag tag)
    (h : ∀ s ∈ path, IsSection s) :
    found ∈ w.allTags.filterMap (candidate w.foldCase (text path) path.length) ↔ found.2 ∈ w.allTags ∧
      (Below w.foldCase path found.2 found.1 ∨ RunsOn w.foldCase path found.2 found.1) := by
  rw [List.mem_filterMap]
  constructor
  · rintro ⟨tag, htag, hfound⟩
    rw [candidate, Option.ite_none_right_eq_some] at hfound
    obtain ⟨⟨hstarts, hne⟩, hfound⟩ := hfound
    obtain rfl := Option.some.inj hfound
    rw [text_eq_nil_iff h] at hstarts
    exact ⟨htag, (shows_iff hfold h (htags tag htag)).mp ⟨hstarts, (sectionAt_eq_iff hne).mp rfl⟩⟩
  · rintro ⟨htag, hshown⟩
    obtain ⟨hstarts, hnext⟩ := (shows_iff hfold h (htags _ htag)).mpr hshown
    have hne := ((htags _ htag).isSection (List.mem_of_getElem? hnext)).ne_nil
    have hname := (sectionAt_eq_iff hne).mpr hnext
    rw [← text_eq_nil_iff h] at hstarts
    exact ⟨found.2, htag, by rw [candidate, hname, if_pos ⟨hstarts, hne⟩]⟩

theorem mem_folders {found : Section × Tag} (hfold : KeepsSlash w.foldCase) (htags : ∀ tag ∈ w.allTags, IsTag tag)
    (h : ∀ s ∈ path, IsSection s) (hfound : found ∈ w.folders path) : found.2 ∈ w.allTags ∧
      (Below w.foldCase path found.2 found.1 ∨ RunsOn w.foldCase path found.2 found.1) := by
  rw [folders, listTags_eq] at hfound
  obtain ⟨-, before, after, heq, -⟩ := Sections.mem_firsts.mp hfound
  exact (mem_candidates hfold htags h).mp (heq ▸ List.mem_append_right _ List.mem_cons_self)

@[simp]
theorem name_createUDSEntryForTag (tagSection : Section) (tag : Tag) :
    (createUDSEntryForTag tagSection tag).name = tagSection := by
  rw [createUDSEntryForTag]
  split_ifs <;> rfl

@[simp]
theorem extra_createUDSEntryForTag (tagSection : Section) (tag : Tag) :
    (createUDSEntryForTag tagSection tag).extra = tag := by
  rw [createUDSEntryForTag]
  split_ifs <;> rfl

theorem subfolder_folder {found : Section × Tag} (h : IsSection found.1) :
    (UDSEntry.tag (createUDSEntryForTag found.1 found.2)).subfolder = some found.1 := by
  simp [UDSEntry.subfolder, h.ne_dot, h.ne_dotdot]

theorem names_contents (hfold : KeepsSlash w.foldCase) (htags : ∀ tag ∈ w.allTags, IsTag tag)
    (h : ∀ s ∈ path, IsSection s) : names (w.contents path) = (w.folders path).map Prod.fst := by
  have hfolders : ∀ folders : List (Section × Tag), (∀ found ∈ folders, IsSection found.1) →
      (folders.map fun found => UDSEntry.tag (createUDSEntryForTag found.1 found.2)).filterMap UDSEntry.subfolder =
        folders.map Prod.fst := by
    intro folders hsections
    rw [List.filterMap_map, ← List.filterMap_eq_map]
    exact List.filterMap_congr fun found hfound => subfolder_folder (hsections found hfound)
  have hsections : ∀ found ∈ w.folders path, IsSection found.1 := by
    intro found hfound
    obtain ⟨htag, hshown⟩ := mem_folders hfold htags h hfound
    obtain ⟨-, hnext⟩ := (shows_iff hfold h (htags _ htag)).mpr hshown
    exact (htags _ htag).isSection (List.mem_of_getElem? hnext)
  have hrest : names (.tag (createUDSEntryForTag ['.'] (text path)) ::
      if path = [] then []
      else .tag (createUDSEntryForTag ['.', '.'] (text path)) :: (listFiles [] (w.search.tagged path)).map .file) =
        [] := by
    rw [names, List.filterMap_eq_nil_iff]
    split <;> simp [UDSEntry.subfolder]
  rw [contents, names, List.filterMap_append, hfolders _ hsections, ← names, hrest, List.append_nil]

/-! ## Folders -/

/-- **What a folder lists**: the sections that follow in the tags of the folder and below, and those that follow in
tags that only go on where the name of the folder ends. Of names that differ in case there is one. -/
theorem folder_listed (hfold : KeepsSlash w.foldCase) (htags : ∀ tag ∈ w.allTags, IsTag tag)
    (h : ∀ s ∈ path, IsSection s) (hlist : w.listDir (.tags path) = .ok entries) :
    (∀ name ∈ names entries, ∃ tag ∈ w.allTags,
      Below w.foldCase path tag name ∨ RunsOn w.foldCase path tag name) ∧
    (∀ tag ∈ w.allTags, ∀ name, Below w.foldCase path tag name ∨ RunsOn w.foldCase path tag name →
      ∃ name' ∈ names entries, SameText w.foldCase name' name) ∧
    (names entries).Pairwise fun a b => ¬ SameText w.foldCase a b := by
  obtain ⟨-, rfl⟩ := (listDir_eq_ok_iff h).mp hlist
  rw [names_contents hfold htags h]
  refine ⟨?_, ?_, ?_⟩
  · intro name hname
    obtain ⟨found, hfound, rfl⟩ := List.mem_map.mp hname
    exact ⟨found.2, mem_folders hfold htags h hfound⟩
  · intro tag htag name hshown
    have hcandidate : (name, tag) ∈ w.allTags.filterMap (candidate w.foldCase (text path) path.length) :=
      (mem_candidates hfold htags h).mpr ⟨htag, hshown⟩
    have hexists : ∃ found ∈ w.allTags.filterMap (candidate w.foldCase (text path) path.length),
        found.1.map w.foldCase = name.map w.foldCase := ⟨_, hcandidate, rfl⟩
    obtain ⟨found, hfound, hsame⟩ := Sections.exists_mem_firsts.mpr ⟨List.not_mem_nil, hexists⟩
    refine ⟨found.1, List.mem_map_of_mem ?_, hsame⟩
    rw [folders, listTags_eq]
    exact hfound
  · rw [folders, listTags_eq, List.pairwise_map]
    exact Sections.pairwise_firsts

/-- The tag of the second file goes on where the tag of the first one has a slash. -/
def workTags : TagWorker where
  foldCase := lowerCase
  search := { termList := fun _ => [], tagged := fun _ => [], nodup := fun _ => .nil }
  tagJob := some ["work/Tax".toList, "workshop/Saw".toList]

theorem keepsSlash_lowerCase : KeepsSlash lowerCase := by
  intro c h
  have hlower : c.toLower = '/' := Char.toNat_inj.mp h
  delta Char.toLower at hlower
  split at hlower
  · next hcase =>
    -- a capital letter becomes a small one
    have hnat : (c.val + 32).toNat = 47 := congrArg Char.toNat hlower
    have hge : 65 ≤ c.val.toNat := hcase.1
    have hle : c.val.toNat ≤ 90 := hcase.2
    rw [UInt32.toNat_add] at hnat
    change (c.val.toNat + 32) % 2 ^ 32 = 47 at hnat
    omega
  · exact hlower

theorem isTag_workTags : ∀ tag ∈ workTags.allTags, IsTag tag := by
  have hsection : ∀ s ∈ ["work".toList, "Tax".toList, "workshop".toList, "Saw".toList], IsSection s := by
    intro s hs
    exact ⟨by revert s; decide, by revert s; decide, by revert s; decide, by revert s; decide, by revert s; decide⟩
  simp only [workTags, allTags, Option.getD_some, List.append_nil, List.forall_mem_cons, List.not_mem_nil,
    false_implies, implies_true, and_true]
  exact ⟨⟨["work".toList, "Tax".toList], by simp, fun s hs => hsection s (by simp at hs ⊢; tauto), rfl⟩,
    ⟨["workshop".toList, "Saw".toList], by simp, fun s hs => hsection s (by simp at hs ⊢; tauto), rfl⟩⟩

theorem isSection_workTags {name : Section} (hname : name ∈ ["work".toList, "Tax".toList]) :
    ∀ s ∈ [name], IsSection s := by
  intro s hs
  obtain rfl := List.mem_singleton.mp hs
  exact (isTag_workTags "work/Tax".toList (by decide)).isSection hname

theorem listDir_work : workTags.listDir (.tags ["work".toList]) = .ok (workTags.contents ["work".toList]) :=
  (listDir_eq_ok_iff (isSection_workTags (by decide))).mpr ⟨⟨rfl, rfl, by decide⟩, rfl⟩

/-- `Saw` is listed in `work`, but it is in `workshop`. -/
theorem folder_listed_work :
    ∃ name ∈ names (workTags.contents ["work".toList]), SameText lowerCase name "Saw".toList :=
  (folder_listed keepsSlash_lowerCase isTag_workTags (isSection_workTags (by decide)) listDir_work).2.1
    "workshop/Saw".toList (by decide) "Saw".toList
    (.inr ⟨[], "work".toList, [], "workshop".toList, [], rfl, rfl, rfl, by decide, by unfold SameText; decide⟩)

/-! ## Browsing -/

/-- The folders one gets to from the root, opening what is listed. -/
inductive Browsed (w : TagWorker) : List Section → Prop
  /-- `tags:/` -/
  | root : Browsed w []
  /-- a folder that is listed in an opened one -/
  | enter {path : List Section} {entries : List UDSEntry} {name : Section} : Browsed w path →
      w.listDir (.tags path) = .ok entries → name ∈ names entries → Browsed w (path ++ [name])

/-- The folder is opened. -/
def Opens (w : TagWorker) (path : List Section) : Prop := ∃ entries, w.listDir (.tags path) = .ok entries

theorem Browsed.isSection (hfold : KeepsSlash w.foldCase) (htags : ∀ tag ∈ w.allTags, IsTag tag)
    (hbrowsed : w.Browsed path) : ∀ s ∈ path, IsSection s := by
  induction hbrowsed with
  | root => exact fun s hs => absurd hs List.not_mem_nil
  | enter hpath hlist hname ih =>
    obtain ⟨tag, htag, hshown⟩ := (folder_listed hfold htags ih hlist).1 _ hname
    obtain ⟨-, hnext⟩ := (shows_iff hfold ih (htags tag htag)).mpr hshown
    have hsection := (htags tag htag).isSection (List.mem_of_getElem? hnext)
    intro s hs
    rcases List.mem_append.mp hs with hs | hs
    · exact ih s hs
    · exact List.mem_singleton.mp hs ▸ hsection

theorem Browsed.of_append {back : List Section} (hbrowsed : w.Browsed (path ++ back)) :
    w.Browsed path ∧ (back ≠ [] → w.Opens path) := by
  induction back using List.reverseRecOn with
  | nil => exact ⟨by rwa [List.append_nil] at hbrowsed, fun h => absurd rfl h⟩
  | append_singleton back name ih =>
    rw [← List.append_assoc] at hbrowsed
    generalize hfull : path ++ back ++ [name] = full at hbrowsed
    cases hbrowsed with
    | root => simp at hfull
    | enter hpath hlist hname =>
      obtain ⟨rfl, -⟩ := List.append_inj' hfull rfl
      obtain ⟨hbrowsed, hopens⟩ := ih hpath
      refine ⟨hbrowsed, fun _ => ?_⟩
      by_cases hback : back = []
      · subst hback
        exact ⟨_, by rwa [List.append_nil] at hlist⟩
      · exact hopens hback

/-- Folders that differ in case are not both there. -/
theorem Browsed.unique {path' : List Section} (hfold : KeepsSlash w.foldCase)
    (htags : ∀ tag ∈ w.allTags, IsTag tag) (hbrowsed : w.Browsed path) (hbrowsed' : w.Browsed path')
    (hsame : SamePath w.foldCase path path') : path = path' := by
  induction hbrowsed generalizing path' with
  | root => exact (List.map_eq_nil_iff.mp hsame.symm).symm
  | @enter path entries name hpath hlist hname ih =>
    cases hbrowsed' with
    | root => simp [SamePath] at hsame
    | @enter path' entries' name' hpath' hlist' hname' =>
      rw [SamePath, List.map_append, List.map_append] at hsame
      obtain ⟨hpaths, hnames⟩ := List.append_inj' hsame rfl
      obtain rfl := ih hpath' hpaths
      obtain rfl := Except.ok.inj (hlist.symm.trans hlist')
      have hpairwise := (folder_listed hfold htags (hpath.isSection hfold htags) hlist).2.2
      have hnodup : ((names entries).map (·.map w.foldCase)).Nodup := List.pairwise_map.mpr hpairwise
      rw [List.inj_on_of_nodup_map hnodup hname hname' (List.singleton_inj.mp hnames)]

theorem Inside.known (hfold : KeepsSlash w.foldCase) (h : ∀ s ∈ path, IsSection s) (htag : tag ∈ w.allTags)
    (hwell : IsTag tag) (hin : Inside w.foldCase path tag) : w.Known path := by
  by_cases hpath : path = []
  · exact .inl hpath
  · exact .inr ⟨tag, htag, hin.startsWith hfold h hpath hwell⟩

/-- In a folder of the tag the next section is entered. -/
theorem Browsed.next (hfold : KeepsSlash w.foldCase) (htags : ∀ tag ∈ w.allTags, IsTag tag)
    (hbrowsed : w.Browsed path) (htag : tag ∈ w.allTags) (hin : Inside w.foldCase path tag)
    (hopens : w.Opens path) (hnext : (sectionsOf tag)[path.length]? = some name) :
    ∃ name', w.Browsed (path ++ [name']) ∧ SameText w.foldCase name' name := by
  obtain ⟨entries, hlist⟩ := hopens
  obtain ⟨name', hname', hsame⟩ :=
    (folder_listed hfold htags (hbrowsed.isSection hfold htags) hlist).2.1 tag htag name (.inl ⟨hin, hnext⟩)
  exact ⟨name', hbrowsed.enter hlist hname', hsame⟩

/-- The way to a tag, one section after the other. -/
theorem exists_browsed (hfold : KeepsSlash w.foldCase) (htags : ∀ tag ∈ w.allTags, IsTag tag)
    (htag : tag ∈ w.allTags) (hopens : ∀ path, w.Browsed path → Inside w.foldCase path tag → w.Opens path) {n : ℕ}
    (hn : n ≤ (sectionsOf tag).length) :
    ∃ path, w.Browsed path ∧ SamePath w.foldCase path ((sectionsOf tag).take n) := by
  induction n with
  | zero => exact ⟨[], .root, rfl⟩
  | succ n ih =>
    obtain ⟨path, hbrowsed, hpath⟩ := ih (Nat.le_of_succ_le hn)
    have hin : Inside w.foldCase path tag := by
      rw [Inside, hpath]
      exact (List.take_prefix n _).map _
    have hlength : path.length = n := by
      rw [hpath.length_eq, List.length_take, min_eq_left (Nat.le_of_succ_le hn)]
    have hnext : (sectionsOf tag)[path.length]? = some (sectionsOf tag)[n] := by
      rw [hlength, List.getElem?_eq_getElem hn]
    obtain ⟨name', hbrowsed', hname⟩ := hbrowsed.next hfold htags htag hin (hopens path hbrowsed hin) hnext
    refine ⟨_, hbrowsed', ?_⟩
    rw [List.take_succ_eq_append_getElem hn, SamePath, List.map_append, List.map_append, hpath]
    exact congrArg (_ ++ [·]) hname

/-- **Every tag can be browsed to**, in one way, exactly if no folder on the way has the address of a file. Tags that
differ in case lead to one folder. -/
theorem tag_browsed (hfold : KeepsSlash w.foldCase) (htags : ∀ tag ∈ w.allTags, IsTag tag) (hjob : w.tagJob.isSome)
    (htag : tag ∈ w.allTags) :
    (∃! path, w.Browsed path ∧ SamePath w.foldCase path (sectionsOf tag) ∧ w.Opens path) ↔
      ∀ path, w.Browsed path → Inside w.foldCase path tag → resolve w.search path = none := by
  constructor
  · rintro ⟨full, ⟨hfull, hsame, hopens⟩, -⟩ path hbrowsed hin
    -- the folder is on the way to the tag
    have hprefix : path.map (·.map w.foldCase) <+: full.map (·.map w.foldCase) := hsame ▸ hin
    obtain ⟨rest, hrest⟩ := hprefix
    obtain ⟨front, back, rfl, hfront, -⟩ := List.map_eq_append_iff.mp hrest.symm
    obtain ⟨hbrowsed', hopens'⟩ := hfull.of_append
    obtain rfl := hbrowsed.unique hfold htags hbrowsed' hfront.symm
    have hopen : w.Opens path := by
      by_cases hback : back = []
      · simpa [hback] using hopens
      · exact hopens' hback
    obtain ⟨entries, hlist⟩ := hopen
    exact ((listDir_eq_ok_iff (hbrowsed.isSection hfold htags)).mp hlist).1.2.1
  · intro hfiles
    have hopens : ∀ path, w.Browsed path → Inside w.foldCase path tag → w.Opens path := by
      intro path hbrowsed hin
      have hsections := hbrowsed.isSection hfold htags
      exact ⟨_, (listDir_eq_ok_iff hsections).mpr
        ⟨⟨hjob, hfiles path hbrowsed hin, Inside.known hfold hsections htag (htags tag htag) hin⟩, rfl⟩⟩
    obtain ⟨path, hbrowsed, hpath⟩ := exists_browsed hfold htags htag hopens le_rfl
    rw [List.take_length] at hpath
    have hin : Inside w.foldCase path tag := by
      rw [Inside, hpath]
    refine ⟨path, ⟨hbrowsed, hpath, hopens path hbrowsed hin⟩, ?_⟩
    rintro path' ⟨hbrowsed', hpath', -⟩
    exact hbrowsed'.unique hfold htags hbrowsed (hpath'.trans hpath.symm)

theorem resolve_workTags (path : List Section) : resolve workTags.search path = none := by
  rw [resolve]
  split <;> rfl

theorem tag_browsed_tax : ∃! path, workTags.Browsed path ∧
    SamePath lowerCase path (sectionsOf "work/Tax".toList) ∧ workTags.Opens path :=
  (tag_browsed keepsSlash_lowerCase isTag_workTags rfl (by decide)).mpr fun path _ _ => resolve_workTags path

/-! ## `stat` and `mkdir` -/

theorem extra_folder {found : Section × Tag} (h : ∀ s ∈ path, IsSection s) (hfound : found ∈ w.folders path) :
    found.2 ≠ text path := by
  rw [folders, listTags_eq] at hfound
  obtain ⟨-, before, after, heq, -⟩ := Sections.mem_firsts.mp hfound
  obtain ⟨tag, -, hcandidate⟩ := List.mem_filterMap.mp (heq ▸ List.mem_append_right before List.mem_cons_self)
  rw [candidate, Option.ite_none_right_eq_some] at hcandidate
  obtain ⟨⟨-, hne⟩, hfound⟩ := hcandidate
  obtain rfl := Option.some.inj hfound
  -- behind the sections of the folder there is none
  rintro rfl
  exact hne (by simp [sectionAt, sectionsOf_text h])

/-- What `stat` finds among the entries is the entry for the folder itself. -/
theorem find_contents (h : ∀ s ∈ path, IsSection s) :
    ((w.contents path).find? fun entry => entry.extra = text path) =
      some (.tag (createUDSEntryForTag ['.'] (text path))) := by
  have hfolders : (((w.folders path).map fun found => UDSEntry.tag (createUDSEntryForTag found.1 found.2)).find?
      fun entry => entry.extra = text path) = none := by
    rw [List.find?_eq_none]
    intro entry hentry
    obtain ⟨found, hfound, rfl⟩ := List.mem_map.mp hentry
    simpa [UDSEntry.extra] using extra_folder h hfound
  rw [contents, List.find?_append, hfolders, Option.none_or, List.find?_cons_of_pos]
  simp [UDSEntry.extra]

/-- **What `stat` answers** about the address of a folder: its entry, if the folder is opened. -/
theorem stat_folder (h : ∀ s ∈ path, IsSection s) : w.stat (.tags path) ≠ .ok .nothing ∧
    ∀ entry, w.stat (.tags path) = .ok (.entry entry) ↔
      w.Opens path ∧ entry = .tag (createUDSEntryForTag ['.'] (text path)) := by
  have hopens : w.Opens path ↔ w.tagJob.isSome ∧ resolve w.search path = none ∧ w.Known path := by
    simp [Opens, listDir_eq_ok_iff h]
  rw [hopens]
  cases hjob : w.tagJob with
  | none => simp [stat, parseUrl, hjob]
  | some tags =>
    rw [stat, parseUrl_tags h (by rw [hjob]; rfl)]
    by_cases hfile : resolve w.search path = none
    · rw [parseTags_eq h hfile]
      by_cases hknown : w.Known path
      · simp only [hknown, if_true, find_contents h]
        exact ⟨by simp, fun entry => by simp [hfile, eq_comm]⟩
      · simp [hknown]
    · have htype := urlType_of_file {} (w.tagJob.getD []) hfile
      split
      · simp [hfile]
      · simp [hfile]
      · contradiction

theorem stat_folder_work : workTags.stat (.tags ["work".toList]) =
    .ok (.entry (.tag (createUDSEntryForTag ['.'] "work".toList))) :=
  ((stat_folder (isSection_workTags (by decide))).2 _).mpr ⟨⟨_, listDir_work⟩, rfl⟩

variable {w' : TagWorker}

theorem mkdir_eq_ok_iff (h : ∀ s ∈ path, IsSection s) : w.mkdir (.tags path) = .ok w' ↔
    (w.tagJob.isSome ∧ resolve w.search path = none) ∧
      { w with unassignedTags := w.unassignedTags ++ [text path] } = w' := by
  by_cases hjob : w.tagJob.isSome
  · rw [mkdir, parseUrl_tags h hjob]
    by_cases hfile : resolve w.search path = none
    · simp [parseTags, hfile, hjob, address_eq h]
    · have htype := urlType_of_file { lazyValidation := true } (w.tagJob.getD []) hfile
      split
      · contradiction
      · simp [hfile]
      · simp [hfile]
  · simp [mkdir, parseUrl, Option.not_isSome_iff_eq_none.mp hjob]

/-- **A folder that is made** can be browsed to, if no folder on the way has the address of a file. The other tags
stay as they are. -/
theorem folder_made (hfold : KeepsSlash w.foldCase) (htags : ∀ tag ∈ w.allTags, IsTag tag)
    (h : ∀ s ∈ path, IsSection s) (hne : path ≠ []) (hmkdir : w.mkdir (.tags path) = .ok w') :
    (∀ tag, tag ∈ w'.allTags ↔ tag ∈ w.allTags ∨ tag = text path) ∧
    ((∃! path', w'.Browsed path' ∧ SamePath w.foldCase path' path ∧ w'.Opens path') ↔
      ∀ path', w'.Browsed path' → Inside w.foldCase path' (text path) → resolve w.search path' = none) := by
  obtain ⟨⟨hjob, -⟩, rfl⟩ := (mkdir_eq_ok_iff h).mp hmkdir
  have hmem : ∀ tag, tag ∈ allTags { w with unassignedTags := w.unassignedTags ++ [text path] } ↔
      tag ∈ w.allTags ∨ tag = text path := by
    intro tag
    simp [allTags, or_assoc]
  have htags' : ∀ tag ∈ allTags { w with unassignedTags := w.unassignedTags ++ [text path] }, IsTag tag := by
    intro tag htag
    rcases (hmem tag).mp htag with htag | rfl
    · exact htags tag htag
    · exact ⟨path, hne, h, rfl⟩
  refine ⟨hmem, ?_⟩
  have hbrowsed := tag_browsed (w := { w with unassignedTags := w.unassignedTags ++ [text path] }) hfold htags' hjob
    ((hmem _).mpr (.inr rfl))
  rwa [sectionsOf_text h] at hbrowsed

theorem folder_made_tax : ∃ w', workTags.mkdir (.tags ["Tax".toList]) = .ok w' ∧
    ∃! path, w'.Browsed path ∧ SamePath lowerCase path ["Tax".toList] ∧ w'.Opens path := by
  have hsections := isSection_workTags (show "Tax".toList ∈ ["work".toList, "Tax".toList] by decide)
  have hmkdir := (mkdir_eq_ok_iff hsections).mpr ⟨⟨rfl, resolve_workTags _⟩, rfl⟩
  exact ⟨_, hmkdir, (folder_made keepsSlash_lowerCase isTag_workTags hsections (List.cons_ne_nil _ _) hmkdir).2.mpr
    fun path _ _ => resolve_workTags path⟩

end TagWorker

end Baloo.TagsProtocol
