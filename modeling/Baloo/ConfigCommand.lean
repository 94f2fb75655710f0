import Baloo.Lib.LongestMatch
import Baloo.SearchableFolders

/-!
# Editing the configuration

`balooctl config` adds folders to the lists of the configuration and removes them. What it edits are not
the lists of the file but those that `FileIndexerConfig` makes of them, where excluded folders are missing
that say nothing new; and the edited list replaces the one of the file.

So a folder that is added decides about what is in it up to the next configured folders
(`addFolder_decides`), but when an excluded folder is removed, the folders in it that are excluded
themselves are indexed as well (`removeExcludeFolder_decides`).
-/

namespace Baloo

open LongestMatch (Rules decision Free)

/-- The lists of folders. -/
inductive FolderList where
  | includeFolders
  | excludeFolders
  deriving DecidableEq

/-- What is asked for behind `balooctl config`; a value that is not understood is `none`. -/
inductive ConfigCommand where
  | addFolder (list : FolderList) (arg : List QChar)
  | removeFolder (list : FolderList) (arg : List QChar)
  | addFilter (filter : List QChar)
  | removeFilter (filter : List QChar)
  | addMimetype (mimetype : List QChar)
  | removeMimetype (mimetype : List QChar)
  | setHidden (value : Option Bool)
  | setContentIndexing (value : Option Bool)

/-- The command edits the list. -/
def ConfigCommand.Edits (list : FolderList) : ConfigCommand → Prop
  | .addFolder list' _ => list' = list
  | .removeFolder list' _ => list' = list
  | _ => False

/-- What is answered; everything but `done` is printed, and `exec` returns one. -/
inductive ConfigAnswer where
  | done
  /-- `Path does not exist` -/
  | doesNotExist
  /-- `Path is not a directory` -/
  | isNotDirectory
  /-- `is already in the list` -/
  | alreadyInList
  /-- `is in the list of` the other folders -/
  | inOtherList
  /-- `is not in the list` -/
  | notInList
  /-- `Invalid value` -/
  | invalidValue
  deriving DecidableEq

/-- The file with the settings. -/
structure ConfigFile extends BalooSettings where
  excludedFilters : List (List QChar)
  excludedMimetypes : List (List QChar)
  onlyBasicIndexing : Bool

/-- What the command takes from Qt. -/
structure ConfigLibrary where
  /-- `QDir::cleanPath` -/
  cleanPath : List QChar → List QChar
  /-- `QFileInfo::exists` -/
  exists' : List QChar → Bool
  /-- `QFileInfo::isDir` -/
  isDir : List QChar → Bool
  /-- `QFileInfo::absoluteFilePath` -/
  absoluteFilePath : List QChar → List QChar
  /-- `replace("$HOME", QDir::homePath())` -/
  replaceHome : List QChar → List QChar
  /-- `RegExpCache::exactMatch` for these filters -/
  exactMatch : List (List QChar) → List QChar → Bool

namespace FolderList

/-- `includeFolders` or `excludeFolders` of the configuration. -/
def read (config : FileIndexerConfig) : FolderList → List (List QChar)
  | includeFolders => config.includeFolders
  | excludeFolders => config.excludeFolders

/-- `setIncludeFolders` or `setExcludeFolders`. -/
def write (file : ConfigFile) (folders : List (List QChar)) : FolderList → ConfigFile
  | includeFolders => { file with folders }
  | excludeFolders => { file with excludedFolders := folders }

/-- The other list. -/
def other : FolderList → FolderList
  | includeFolders => excludeFolders
  | excludeFolders => includeFolders

/-- Whether its folders are to be indexed. -/
def isIncluded : FolderList → Bool
  | includeFolders => true
  | excludeFolders => false

end FolderList

namespace ConfigFile

variable (lib : ConfigLibrary) (allMedia : List Medium) (file : ConfigFile)

/-- `IndexerConfig`, as it is made for a command. -/
def config : FileIndexerConfig :=
  FileIndexerConfig.load lib.cleanPath file.toBalooSettings allMedia (lib.exactMatch file.excludedFilters)

/-- `add includeFolders` and `add excludeFolders`. -/
def addFolder (list : FolderList) (arg : List QChar) : ConfigFile × ConfigAnswer :=
  if !lib.exists' arg then (file, .doesNotExist)
  else if !lib.isDir arg then (file, .isNotDirectory)
  else
    let path := normalizeTrailingSlashes (lib.absoluteFilePath arg)
    let folders := list.read (file.config lib allMedia)
    if path ∈ folders then (file, .alreadyInList)
    else if path ∈ list.other.read (file.config lib allMedia) then (file, .inOtherList)
    else (list.write file (folders ++ [path]), .done)

/-- `remove includeFolders` and `remove excludeFolders`. -/
def removeFolder (list : FolderList) (arg : List QChar) : ConfigFile × ConfigAnswer :=
  let path := normalizeTrailingSlashes (lib.replaceHome arg)
  let folders := list.read (file.config lib allMedia)
  if path ∉ folders then (file, .notInList)
  else (list.write file (folders.filter (· ≠ path)), .done)

/-- `ConfigCommand::exec`; a set does not say in which order `excludeMimetypes` lists its types. -/
def exec : ConfigCommand → ConfigFile × ConfigAnswer
  | .addFolder list arg => file.addFolder lib allMedia list arg
  | .removeFolder list arg => file.removeFolder lib allMedia list arg
  | .addFilter filter =>
    if filter ∈ file.excludedFilters then (file, .alreadyInList)
    else ({ file with excludedFilters := file.excludedFilters ++ [filter] }, .done)
  | .removeFilter filter =>
    if filter ∉ file.excludedFilters then (file, .notInList)
    else ({ file with excludedFilters := file.excludedFilters.filter (· ≠ filter) }, .done)
  | .addMimetype mimetype =>
    if mimetype ∈ file.excludedMimetypes then (file, .alreadyInList)
    else ({ file with excludedMimetypes := file.excludedMimetypes.dedup ++ [mimetype] }, .done)
  | .removeMimetype mimetype =>
    if mimetype ∉ file.excludedMimetypes then (file, .notInList)
    else ({ file with excludedMimetypes := file.excludedMimetypes.dedup.filter (· ≠ mimetype) }, .done)
  | .setHidden none => (file, .invalidValue)
  | .setHidden (some value) => ({ file with indexHiddenFolders := value }, .done)
  | .setContentIndexing none => (file, .invalidValue)
  | .setContentIndexing (some value) => ({ file with onlyBasicIndexing := !value }, .done)

end ConfigFile

/-! ## Folders as rules -/

namespace FolderCache

variable {entries pre start : List FolderConfig} {entry e : FolderConfig} {path k : List QChar} {flag : Bool}

/-- What the entries say. -/
def rules (entries : List FolderConfig) : Rules QChar := fun k =>
  (entries.find? fun entry => entry.path = k).map FolderConfig.isIncluded

theorem rules_eq_some_iff (hsorted : entries.Pairwise FolderConfig.Before) :
    rules entries k = some flag ↔ ⟨k, flag⟩ ∈ entries := by
  induction entries with
  | nil => simp [rules]
  | cons entry entries ih =>
    obtain ⟨hentry, hentries⟩ := List.pairwise_cons.mp hsorted
    by_cases hk : entry.path = k
    · have hrule : rules (entry :: entries) k = some entry.isIncluded := by
        rw [rules, List.find?_cons_of_pos (p := fun e : FolderConfig => e.path = k) (by simpa using hk)]
        rfl
      rw [hrule, List.mem_cons, Option.some.injEq]
      constructor
      · rintro rfl
        subst hk
        exact .inl rfl
      · rintro (heq | hmem)
        · rw [← heq]
        · exact absurd hk (hentry _ hmem).path_ne
    · have hrule : rules (entry :: entries) k = rules entries k := by
        rw [rules, List.find?_cons_of_neg (by simpa using hk), rules]
      rw [hrule, ih hentries, List.mem_cons]
      refine ⟨.inr, ?_⟩
      rintro (heq | hmem)
      · exact absurd (congrArg FolderConfig.path heq).symm hk
      · exact hmem

/-- The lookup is a longest match. -/
theorem lookup_eq_decision (hsorted : entries.Pairwise FolderConfig.Before) (path : List QChar) :
    lookup entries path = decision (rules entries) path := by
  rw [lookup]
  cases hfind : entries.find? fun entry => entry.path.isPrefixOf path with
  | none =>
    refine (LongestMatch.decision_eq_default fun k hk => ?_).symm
    cases hrule : rules entries k with
    | none => rfl
    | some flag =>
      exact absurd (List.isPrefixOf_iff_prefix.mpr hk)
        (List.find?_eq_none.mp hfind ⟨k, flag⟩ ((rules_eq_some_iff hsorted).mp hrule))
  | some entry =>
    obtain ⟨hentry, hprefix, hmax⟩ := FileIndexerConfig.find?_decides hsorted hfind
    have hfree : Free (rules entries) entry.path path := by
      intro k hk hne hkpath
      cases hrule : rules entries k with
      | none => rfl
      | some flag =>
        have hle := hmax ⟨k, flag⟩ ((rules_eq_some_iff hsorted).mp hrule) hkpath
        exact absurd (hk.eq_of_length (Nat.le_antisymm hk.length_le hle)).symm hne
    rw [LongestMatch.decision_of_free hprefix hfree, LongestMatch.decision_eq,
      (rules_eq_some_iff hsorted).mpr hentry]
    rfl

/-- An excluded folder is kept if the folders behind it say that it is included. -/
theorem mem_cleanupLoop_append (hsorted : (pre ++ e :: start).Pairwise FolderConfig.Before) :
    e ∈ cleanupLoop (pre ++ e :: start) ↔ e.isIncluded = true ∨ lookup start e.path = true := by
  induction pre with
  | nil =>
    obtain ⟨hlater, -⟩ := List.pairwise_cons.mp hsorted
    have hnot : e ∉ cleanupLoop start := fun hmem =>
      (hlater e ((cleanupLoop_sublist start).subset hmem)).path_ne rfl
    rw [List.nil_append, cleanupLoop, lookup]
    cases hflag : e.isIncluded with
    | true => simp
    | false =>
      cases hfind : start.find? fun parent => parent.path.isPrefixOf e.path with
      | none => simp [hnot]
      | some parent =>
        cases hparent : parent.isIncluded with
        | false => simp [hparent, hnot]
        | true => simp [hparent]
  | cons entry pre ih =>
    obtain ⟨hentry, hentries⟩ := List.pairwise_cons.mp hsorted
    have hne : e ≠ entry := by
      rintro rfl
      exact (hentry e (by simp)).path_ne rfl
    have ih := ih hentries
    rw [← ih, List.cons_append, cleanupLoop]
    split
    · rw [List.mem_cons, or_iff_right hne]
    · split
      · split
        · exact Iff.rfl
        · rw [List.mem_cons, or_iff_right hne]
      · exact Iff.rfl

/-- Cleaning up keeps the included folders, and the excluded ones that the folders above them include. -/
theorem mem_cleanupLoop_iff (hsorted : entries.Pairwise FolderConfig.Before) : e ∈ cleanupLoop entries ↔
    e ∈ entries ∧ (e.isIncluded = true ∨ LongestMatch.above (rules entries) e.path = true) := by
  by_cases hmem : e ∈ entries
  · obtain ⟨pre, start, rfl⟩ := List.append_of_mem hmem
    obtain ⟨hpre, hrest, hcross⟩ := List.pairwise_append.mp hsorted
    obtain ⟨hlater, hstart⟩ := List.pairwise_cons.mp hrest
    have hnone : rules start e.path = none := by
      cases hrule : rules start e.path with
      | none => rfl
      | some flag => exact absurd rfl (hlater _ ((rules_eq_some_iff hstart).mp hrule)).path_ne
    -- what comes before is not shorter
    have habove : LongestMatch.above (rules start) e.path =
        LongestMatch.above (rules (pre ++ e :: start)) e.path := by
      refine LongestMatch.above_congr fun k hk hne => ?_
      refine Option.ext fun flag => ?_
      rw [rules_eq_some_iff hstart, rules_eq_some_iff hsorted, List.mem_append, List.mem_cons]
      refine ⟨fun h => .inr (.inr h), ?_⟩
      rintro (h | h | h)
      · rcases hcross _ h e List.mem_cons_self with hlt | ⟨hlen, -⟩
        · exact absurd hk.length_le (not_le.mpr hlt)
        · exact absurd (hk.eq_of_length hlen) hne
      · exact absurd (congrArg FolderConfig.path h) hne
      · exact h
    rw [mem_cleanupLoop_append hsorted, lookup_eq_decision hstart, LongestMatch.decision_eq, hnone, habove]
    exact (and_iff_right hmem).symm
  · exact iff_of_false (fun h => hmem ((cleanupLoop_sublist entries).subset h)) fun h => hmem h.1

end FolderCache

namespace BalooSettings

section

variable (cleanPath : List QChar → List QChar) (allMedia : List Medium) (settings : BalooSettings)

/-- A folder as it is kept in the cache. -/
def entryPath (folder : List QChar) : List QChar := cleanPath folder ++ [separator]

/-- The media that are not usable. -/
def unusable : List (List QChar) :=
  (allMedia.filter fun device => !device.isUsable ∧ device.mountPath ≠ []).map fun device =>
    entryPath cleanPath device.mountPath

/-- What the settings and the media say. -/
def rules : Rules QChar := fun k =>
  if k ∈ settings.folders.map (entryPath cleanPath) then some true
  else if k ∈ settings.excludedFolders.map (entryPath cleanPath) ++ unusable cleanPath allMedia then some false
  else none

end

variable {cleanPath : List QChar → List QChar} {allMedia : List Medium} {settings : BalooSettings} {k : List QChar}
  {exactMatch : List QChar → Bool}

theorem rules_eq_true_iff : settings.rules cleanPath allMedia k = some true ↔
    k ∈ settings.folders.map (entryPath cleanPath) := by
  rw [rules]
  split_ifs <;> simp_all

theorem rules_eq_false_iff : settings.rules cleanPath allMedia k = some false ↔
    k ∉ settings.folders.map (entryPath cleanPath) ∧
      (k ∈ settings.excludedFolders.map (entryPath cleanPath) ∨ k ∈ unusable cleanPath allMedia) := by
  rw [rules, ← List.mem_append]
  split_ifs <;> simp_all

/-- Media that are included by their mount paths make no difference. -/
theorem mem_excluded_iff (hincluded : k ∉ settings.folders.map (entryPath cleanPath)) :
    k ∈ (settings.excluded allMedia).map (entryPath cleanPath) ↔
      k ∈ settings.excludedFolders.map (entryPath cleanPath) ∨ k ∈ unusable cleanPath allMedia := by
  rw [excluded, List.map_append, List.mem_append, List.map_map]
  refine or_congr_right ?_
  simp only [unusable, List.mem_map, List.mem_filter, decide_eq_true_eq, Function.comp_apply]
  constructor
  · rintro ⟨device, ⟨hmem, husable, hne, -⟩, rfl⟩
    exact ⟨device, ⟨hmem, husable, hne⟩, rfl⟩
  · rintro ⟨device, ⟨hmem, husable, hne⟩, rfl⟩
    refine ⟨device, ⟨hmem, husable, hne, fun hfolder => hincluded ?_⟩, rfl⟩
    exact List.mem_map_of_mem hfolder

/-- Before it is cleaned up, the cache says what the settings and the media say. -/
theorem exists_cache_rules (habs : settings.Absolute allMedia) :
    ∃ cache : FolderCache, FileIndexerConfig.buildFolderCache cleanPath settings allMedia = cache.cleanup ∧
      FolderCache.rules cache.entries = settings.rules cleanPath allMedia := by
  have hne : ∀ folder ∈ settings.folders ++ settings.excluded allMedia, folder ≠ [] := by
    rintro folder hmem rfl
    cases habs [] hmem
  let included := settings.folders.foldl
    (fun cache folder => cache.addFolderConfig cleanPath folder true) FolderCache.empty
  have hincluded : ∀ e, e ∈ included.entries ↔ e.isIncluded = true ∧
      e.path ∈ settings.folders.map (entryPath cleanPath) := by
    intro e
    rw [FolderCache.mem_foldl_addFolderConfig cleanPath true _ _
      fun folder hmem => hne folder (List.mem_append_left _ hmem)]
    simp only [FolderCache.empty, List.not_mem_nil, false_or, IsEmpty.forall_iff, implies_true, and_true,
      List.mem_map, entryPath]
    exact and_congr_right fun _ => exists_congr fun folder => and_congr_right fun _ => eq_comm
  refine ⟨(settings.excluded allMedia).foldl
    (fun cache folder => cache.addFolderConfig cleanPath folder false) included, ?_,
      funext fun k => Option.ext fun flag => ?_⟩
  · rw [FileIndexerConfig.buildFolderCache, excluded, List.foldl_append, List.foldl_map, List.foldl_filter]
    simp only [decide_eq_true_eq, included]
  · rw [FolderCache.rules_eq_some_iff (FolderCache.sorted _), FolderCache.mem_foldl_addFolderConfig cleanPath false _ _
      fun folder hmem => hne folder (List.mem_append_right _ hmem), hincluded]
    cases flag with
    | true => simp [rules_eq_true_iff]
    | false =>
      simp only [Bool.false_eq_true, false_and, false_or, true_and, rules_eq_false_iff]
      constructor
      · rintro ⟨⟨folder, hfolder, hk⟩, hother⟩
        have hnot : k ∉ settings.folders.map (entryPath cleanPath) := fun hk' =>
          hother ⟨k, true⟩ ((hincluded _).mpr ⟨rfl, hk'⟩) rfl
        exact ⟨hnot, (mem_excluded_iff hnot).mp (List.mem_map.mpr ⟨folder, hfolder, hk.symm⟩)⟩
      · rintro ⟨hnot, hk⟩
        obtain ⟨folder, hfolder, hk'⟩ := List.mem_map.mp ((mem_excluded_iff hnot).mpr hk)
        refine ⟨⟨folder, hfolder, hk'.symm⟩, ?_⟩
        rintro e' he' rfl
        exact hnot ((hincluded e').mp he').2

/-- The folder that decides is the longest match. -/
theorem folderInFolderList_eq_decision (habs : settings.Absolute allMedia) (path : List QChar) :
    ((FileIndexerConfig.load cleanPath settings allMedia exactMatch).folderInFolderList path).1 =
      decision (settings.rules cleanPath allMedia) (normalizeTrailingSlashes path) := by
  obtain ⟨cache, hcache, hrules⟩ := @exists_cache_rules cleanPath _ _ habs
  rw [FolderCache.folderInFolderList_fst, ← hrules, ← FolderCache.lookup_eq_decision cache.sorted,
    ← FolderCache.lookup_cleanupLoop cache.sorted]
  exact congrArg (fun c => FolderCache.lookup c.entries _) hcache

/-- The included folders that are listed. -/
theorem mem_includeFolders_iff (habs : settings.Absolute allMedia) :
    k ∈ (FileIndexerConfig.load cleanPath settings allMedia exactMatch).includeFolders ↔
      settings.rules cleanPath allMedia k = some true := by
  obtain ⟨cache, hcache, hrules⟩ := @exists_cache_rules cleanPath _ _ habs
  have hentries : (FileIndexerConfig.load cleanPath settings allMedia exactMatch).folderCache.entries =
      FolderCache.cleanupLoop cache.entries := congrArg FolderCache.entries hcache
  rw [FileIndexerConfig.includeFolders, hentries, ← hrules, FolderCache.rules_eq_some_iff cache.sorted]
  simp only [List.mem_map, List.mem_filter, FolderCache.mem_cleanupLoop_iff cache.sorted]
  constructor
  · rintro ⟨e, ⟨⟨he, -⟩, hflag⟩, rfl⟩
    rwa [← hflag]
  · exact fun h => ⟨⟨k, true⟩, ⟨⟨h, .inl rfl⟩, rfl⟩, rfl⟩

/-- The excluded folders that are listed: those below which something would be included without them. -/
theorem mem_excludeFolders_iff (habs : settings.Absolute allMedia) :
    k ∈ (FileIndexerConfig.load cleanPath settings allMedia exactMatch).excludeFolders ↔
      settings.rules cleanPath allMedia k = some false ∧
        LongestMatch.above (settings.rules cleanPath allMedia) k = true := by
  obtain ⟨cache, hcache, hrules⟩ := @exists_cache_rules cleanPath _ _ habs
  have hentries : (FileIndexerConfig.load cleanPath settings allMedia exactMatch).folderCache.entries =
      FolderCache.cleanupLoop cache.entries := congrArg FolderCache.entries hcache
  rw [FileIndexerConfig.excludeFolders, hentries, ← hrules, FolderCache.rules_eq_some_iff cache.sorted]
  simp only [List.mem_map, List.mem_filter, FolderCache.mem_cleanupLoop_iff cache.sorted, Bool.not_eq_true']
  constructor
  · rintro ⟨e, ⟨⟨he, habove⟩, hflag⟩, rfl⟩
    rw [← hflag]
    exact ⟨he, habove.resolve_left (by simp [hflag])⟩
  · exact fun h => ⟨⟨k, false⟩, ⟨⟨h.1, .inr h.2⟩, rfl⟩, rfl⟩

end BalooSettings

/-! ## Edited lists -/

/-- What is known of Qt's paths: a clean path stays as it is, and an absolute file path is clean. -/
structure ConfigLibrary.Lawful (lib : ConfigLibrary) : Prop where
  clean : CleansPaths lib.cleanPath
  again : ∀ path, path.head? = some separator →
    lib.cleanPath (lib.cleanPath path ++ [separator]) = lib.cleanPath path
  absolute : ∀ arg, ∃ path, path.head? = some separator ∧
    normalizeTrailingSlashes (lib.absoluteFilePath arg) = normalizeTrailingSlashes (lib.cleanPath path)

namespace ConfigFile

open BalooSettings (entryPath unusable rules_eq_true_iff rules_eq_false_iff)

section

variable (lib : ConfigLibrary) (allMedia : List Medium) (file : ConfigFile)

/-- What the file and the media say. -/
def rules : Rules QChar := file.toBalooSettings.rules lib.cleanPath allMedia

/-- The folder that decides about the path is included. -/
def includes (path : List QChar) : Bool := ((file.config lib allMedia).folderInFolderList path).1

end

variable {lib : ConfigLibrary} {allMedia : List Medium} {file file' : ConfigFile} {list : FolderList}
  {arg k path : List QChar} {flag : Bool}

theorem includes_eq (habs : file.Absolute allMedia) (path : List QChar) :
    file.includes lib allMedia path = decision (file.rules lib allMedia) (normalizeTrailingSlashes path) :=
  BalooSettings.folderInFolderList_eq_decision habs path

theorem mem_includeFolders (habs : file.Absolute allMedia) :
    k ∈ (file.config lib allMedia).includeFolders ↔ file.rules lib allMedia k = some true :=
  BalooSettings.mem_includeFolders_iff habs

theorem mem_excludeFolders (habs : file.Absolute allMedia) : k ∈ (file.config lib allMedia).excludeFolders ↔
    file.rules lib allMedia k = some false ∧ LongestMatch.above (file.rules lib allMedia) k = true :=
  BalooSettings.mem_excludeFolders_iff habs

theorem exists_folder_of_rule (h : file.rules lib allMedia k = some flag) :
    ∃ folder ∈ file.folders ++ file.excluded allMedia, entryPath lib.cleanPath folder = k := by
  simp only [List.mem_append, or_and_right, exists_or, ← List.mem_map]
  cases flag with
  | true => exact .inl (rules_eq_true_iff.mp h)
  | false =>
    obtain ⟨hnot, hk⟩ := rules_eq_false_iff.mp h
    exact .inr ((BalooSettings.mem_excluded_iff hnot).mpr hk)

/-- An entry of the cache is stored as it is. -/
theorem entryPath_of_rule (hlib : lib.Lawful) (habs : file.Absolute allMedia)
    (h : file.rules lib allMedia k = some flag) : entryPath lib.cleanPath k = k := by
  obtain ⟨folder, hfolder, rfl⟩ := exists_folder_of_rule h
  rw [entryPath, entryPath, hlib.again folder (habs folder hfolder)]

/-- A folder that is given is the root, or it is stored as it is given. -/
theorem arg_cases (hlib : lib.Lawful) (arg : List QChar) :
    normalizeTrailingSlashes (lib.absoluteFilePath arg) = [separator] ∨ ∃ path, path.head? = some separator ∧
      normalizeTrailingSlashes (lib.absoluteFilePath arg) = entryPath lib.cleanPath path := by
  obtain ⟨path, hpath, heq⟩ := hlib.absolute arg
  obtain ⟨names, hnames, hclean⟩ := hlib.clean path hpath
  rcases List.eq_nil_or_concat' names with rfl | ⟨parent, name, rfl⟩
  · left
    rw [heq, hclean]
    rfl
  · refine .inr ⟨path, hpath, ?_⟩
    have hshape := cleaned_concat parent name
    rw [← List.cons_append] at hshape
    rw [heq, entryPath, hclean, hshape]
    exact normalizeTrailingSlashes_append_name (hnames name (by simp))

theorem entryPath_of_arg (hlib : lib.Lawful)
    (hroot : normalizeTrailingSlashes (lib.absoluteFilePath arg) ≠ [separator]) :
    entryPath lib.cleanPath (normalizeTrailingSlashes (lib.absoluteFilePath arg)) =
      normalizeTrailingSlashes (lib.absoluteFilePath arg) := by
  obtain ⟨path, hpath, heq⟩ := (arg_cases hlib arg).resolve_left hroot
  rw [heq, entryPath, entryPath, hlib.again path hpath]

theorem entryPath_of_mem_read (hlib : lib.Lawful) (habs : file.Absolute allMedia)
    (h : k ∈ list.read (file.config lib allMedia)) : entryPath lib.cleanPath k = k := by
  cases list with
  | includeFolders => exact entryPath_of_rule hlib habs ((mem_includeFolders habs).mp h)
  | excludeFolders => exact entryPath_of_rule hlib habs ((mem_excludeFolders habs).mp h).1

/-- The lists that are read are stored as they are. -/
theorem map_read (hlib : lib.Lawful) (habs : file.Absolute allMedia) (list : FolderList) :
    (list.read (file.config lib allMedia)).map (entryPath lib.cleanPath) = list.read (file.config lib allMedia) :=
  (List.map_congr_left fun _ hk => entryPath_of_mem_read hlib habs hk).trans (List.map_id _)

theorem mem_map_filter_read (hlib : lib.Lawful) (habs : file.Absolute allMedia) {k' : List QChar} :
    k' ∈ ((list.read (file.config lib allMedia)).filter (· ≠ k)).map (entryPath lib.cleanPath) ↔
      k' ∈ list.read (file.config lib allMedia) ∧ k' ≠ k := by
  have hmap : ((list.read (file.config lib allMedia)).filter (· ≠ k)).map (entryPath lib.cleanPath) = _ :=
    (List.map_congr_left fun _ hk => entryPath_of_mem_read hlib habs (List.mem_of_mem_filter hk)).trans
      (List.map_id _)
  rw [hmap, List.mem_filter, decide_eq_true_eq]

/-- Rules that say yes and no to the same folders. -/
theorem rules_ext {rules rules' : Rules QChar} (htrue : rules' k = some true ↔ rules k = some true)
    (hfalse : rules' k = some false ↔ rules k = some false) : rules' k = rules k :=
  Option.ext fun flag => by
    cases flag with
    | true => exact htrue
    | false => exact hfalse

theorem eq_none_of_ne {rule : Option Bool} (htrue : rule ≠ some true) (hfalse : rule ≠ some false) : rule = none := by
  cases rule with
  | none => rfl
  | some flag =>
    cases flag with
    | true => exact absurd rfl htrue
    | false => exact absurd rfl hfalse

/-- An edited list of included folders. -/
theorem rules_writeIncludeFolders (folders : List (List QChar)) (hother : ∀ k' ≠ k,
    (k' ∈ folders.map (entryPath lib.cleanPath) ↔ file.rules lib allMedia k' = some true)) :
    ∀ k' ≠ k, (FolderList.includeFolders.write file folders).rules lib allMedia k' = file.rules lib allMedia k' := by
  intro k' hk'
  have htrue : (FolderList.includeFolders.write file folders).rules lib allMedia k' = some true ↔
      file.rules lib allMedia k' = some true := rules_eq_true_iff.trans (hother k' hk')
  refine rules_ext htrue (rules_eq_false_iff.trans (Iff.trans ?_ rules_eq_false_iff.symm))
  exact and_congr_left' (not_congr ((hother k' hk').trans rules_eq_true_iff))

/-- An edited list of excluded folders: those go that are redundant, unless they are media. -/
theorem rules_writeExcludeFolders (folders : List (List QChar)) (hother : ∀ k' ≠ k,
    (k' ∈ folders.map (entryPath lib.cleanPath) ↔ file.rules lib allMedia k' = some false ∧
      LongestMatch.above (file.rules lib allMedia) k' = true)) :
    ∀ k' ≠ k,
      (FolderList.excludeFolders.write file folders).rules lib allMedia k' = file.rules lib allMedia k' ∨
        (FolderList.excludeFolders.write file folders).rules lib allMedia k' = none ∧
          file.rules lib allMedia k' = some false ∧ LongestMatch.above (file.rules lib allMedia) k' = false ∧
            k' ∉ unusable lib.cleanPath allMedia := by
  intro k' hk'
  have htrue : (FolderList.excludeFolders.write file folders).rules lib allMedia k' = some true ↔
      file.rules lib allMedia k' = some true :=
    rules_eq_true_iff.trans (@rules_eq_true_iff _ allMedia file.toBalooSettings k').symm
  have hfalse : (FolderList.excludeFolders.write file folders).rules lib allMedia k' = some false ↔
      file.rules lib allMedia k' ≠ some true ∧
        (k' ∈ folders.map (entryPath lib.cleanPath) ∨ k' ∈ unusable lib.cleanPath allMedia) :=
    rules_eq_false_iff.trans (and_congr_left'
      (not_congr (@rules_eq_true_iff _ allMedia file.toBalooSettings k').symm))
  rw [hother k' hk'] at hfalse
  by_cases hmedium : k' ∈ unusable lib.cleanPath allMedia
  · refine .inl (rules_ext htrue (hfalse.trans ⟨fun h => ?_, fun h => ⟨by simp [h], .inr hmedium⟩⟩))
    exact rules_eq_false_iff.mpr ⟨fun hmem => h.1 (rules_eq_true_iff.mpr hmem), .inr hmedium⟩
  · cases hrule : file.rules lib allMedia k' with
    | none =>
      rw [hrule] at htrue hfalse
      exact .inl (eq_none_of_ne (by simp [htrue]) (by simp [hfalse, hmedium]))
    | some flag =>
      cases flag with
      | true => exact .inl (htrue.mpr hrule)
      | false =>
        rw [hrule] at htrue hfalse
        cases habove : LongestMatch.above (file.rules lib allMedia) k' with
        | true => exact .inl (hfalse.mpr ⟨by simp, .inl ⟨rfl, habove⟩⟩)
        | false =>
          exact .inr ⟨eq_none_of_ne (by simp [htrue]) (by simp [hfalse, habove, hmedium]), rfl, rfl, hmedium⟩

/-- Folders that are added. -/
theorem exec_addFolder (h : file.exec lib allMedia (.addFolder list arg) = (file', .done)) :
    normalizeTrailingSlashes (lib.absoluteFilePath arg) ∉ list.read (file.config lib allMedia) ∧
      normalizeTrailingSlashes (lib.absoluteFilePath arg) ∉ list.other.read (file.config lib allMedia) ∧
        file' = list.write file
          (list.read (file.config lib allMedia) ++ [normalizeTrailingSlashes (lib.absoluteFilePath arg)]) := by
  rw [exec, addFolder] at h
  split at h
  · simp at h
  · split at h
    · simp at h
    · dsimp only at h
      split at h
      · simp at h
      · next hnew =>
        split at h
        · simp at h
        · next hother => exact ⟨hnew, hother, (congrArg Prod.fst h).symm⟩

/-- Folders that are removed. -/
theorem exec_removeFolder (h : file.exec lib allMedia (.removeFolder list arg) = (file', .done)) :
    normalizeTrailingSlashes (lib.replaceHome arg) ∈ list.read (file.config lib allMedia) ∧
      file' = list.write file ((list.read (file.config lib allMedia)).filter
        (· ≠ normalizeTrailingSlashes (lib.replaceHome arg))) := by
  rw [exec, removeFolder] at h
  split at h
  · simp at h
  · next hmem => exact ⟨not_not.mp hmem, (congrArg Prod.fst h).symm⟩

/-! ### Absolute paths -/

/-- The media are mounted at absolute paths. -/
theorem absolute_mountPath (habs : file.Absolute allMedia) {device : Medium} (hdevice : device ∈ allMedia)
    (hunusable : !device.isUsable ∧ device.mountPath ≠ []) : device.mountPath.head? = some separator := by
  by_cases hmem : device.mountPath ∈ file.folders
  · exact habs _ (List.mem_append_left _ hmem)
  · refine habs _ (List.mem_append_right _ (List.mem_append_right _ (List.mem_map.mpr ⟨device, ?_, rfl⟩)))
    exact List.mem_filter.mpr ⟨hdevice, by simpa [hmem] using hunusable⟩

theorem absolute_write {folders : List (List QChar)} (habs : file.Absolute allMedia)
    (hfolders : ∀ folder ∈ folders, folder.head? = some separator) : (list.write file folders).Absolute allMedia := by
  have hmedia : ∀ folder ∈ (allMedia.filter fun device => !device.isUsable ∧ device.mountPath ≠ [] ∧
      device.mountPath ∉ (list.write file folders).folders).map Medium.mountPath,
        folder.head? = some separator := by
    intro folder hfolder
    obtain ⟨device, hdevice, rfl⟩ := List.mem_map.mp hfolder
    obtain ⟨hdevice, hunusable⟩ := List.mem_filter.mp hdevice
    simp only [decide_eq_true_eq] at hunusable
    exact absolute_mountPath habs hdevice ⟨hunusable.1, hunusable.2.1⟩
  intro folder hfolder
  rw [BalooSettings.excluded, ← List.append_assoc, List.mem_append] at hfolder
  refine hfolder.elim (fun hfolder => ?_) (hmedia folder)
  cases list with
  | includeFolders =>
    rcases List.mem_append.mp hfolder with hmem | hmem
    · exact hfolders folder hmem
    · exact habs folder (List.mem_append_right _ (List.mem_append_left _ hmem))
  | excludeFolders =>
    rcases List.mem_append.mp hfolder with hmem | hmem
    · exact habs folder (List.mem_append_left _ hmem)
    · exact hfolders folder hmem

/-- What a clean path begins with. -/
theorem head?_entryPath (hlib : lib.Lawful) (hpath : path.head? = some separator) :
    (entryPath lib.cleanPath path).head? = some separator := by
  obtain ⟨names, -, hclean⟩ := hlib.clean path hpath
  rw [entryPath, hclean, ← stored]
  cases names with
  | nil => rfl
  | cons name names => simp [stored, cleaned]

theorem head?_arg (hlib : lib.Lawful) :
    (normalizeTrailingSlashes (lib.absoluteFilePath arg)).head? = some separator := by
  rcases arg_cases hlib arg with heq | ⟨path, hpath, heq⟩
  · rw [heq]
    rfl
  · rw [heq]
    exact head?_entryPath hlib hpath

theorem head?_of_rule (hlib : lib.Lawful) (habs : file.Absolute allMedia)
    (h : file.rules lib allMedia k = some flag) : k.head? = some separator := by
  obtain ⟨folder, hfolder, rfl⟩ := exists_folder_of_rule h
  exact head?_entryPath hlib (habs folder hfolder)

/-- The folders that are listed are absolute. -/
theorem head?_of_mem_read (hlib : lib.Lawful) (habs : file.Absolute allMedia)
    (h : k ∈ list.read (file.config lib allMedia)) : k.head? = some separator := by
  cases list with
  | includeFolders => exact head?_of_rule hlib habs ((mem_includeFolders habs).mp h)
  | excludeFolders => exact head?_of_rule hlib habs ((mem_excludeFolders habs).mp h).1

theorem absolute_exec_addFolder (hlib : lib.Lawful) (habs : file.Absolute allMedia)
    (h : file.exec lib allMedia (.addFolder list arg) = (file', .done)) : file'.Absolute allMedia := by
  obtain ⟨-, -, rfl⟩ := exec_addFolder h
  refine absolute_write habs fun folder hfolder => ?_
  rcases List.mem_append.mp hfolder with hmem | hmem
  · exact head?_of_mem_read hlib habs hmem
  · rw [List.mem_singleton.mp hmem]
    exact head?_arg hlib

theorem absolute_exec_removeFolder (hlib : lib.Lawful) (habs : file.Absolute allMedia)
    (h : file.exec lib allMedia (.removeFolder list arg) = (file', .done)) : file'.Absolute allMedia := by
  obtain ⟨-, rfl⟩ := exec_removeFolder h
  exact absolute_write habs fun folder hfolder => head?_of_mem_read hlib habs (List.mem_of_mem_filter hfolder)

/-! ### Folders that are added -/

theorem rules_addIncludeFolder (hlib : lib.Lawful) (habs : file.Absolute allMedia)
    (hk : entryPath lib.cleanPath k = k) :
    (FolderList.includeFolders.write file ((file.config lib allMedia).includeFolders ++ [k])).rules lib allMedia =
      Function.update (file.rules lib allMedia) k (some true) := by
  funext k'
  by_cases hne : k' = k
  · subst hne
    rw [Function.update_self]
    exact rules_eq_true_iff.mpr (List.mem_map.mpr ⟨k', List.mem_append_right _ (List.mem_singleton_self k'), hk⟩)
  · rw [Function.update_of_ne hne]
    refine rules_writeIncludeFolders _ (fun k' hne => ?_) k' hne
    rw [List.map_append, List.mem_append, List.map_singleton, hk, List.mem_singleton, or_iff_left hne]
    exact (iff_of_eq (congrArg (k' ∈ ·) (map_read hlib habs .includeFolders))).trans (mem_includeFolders habs)

theorem rules_addExcludeFolder (hlib : lib.Lawful) (habs : file.Absolute allMedia)
    (hk : entryPath lib.cleanPath k = k) (hnew : file.rules lib allMedia k ≠ some true) :
    LongestMatch.Excludes (file.rules lib allMedia)
      ((FolderList.excludeFolders.write file ((file.config lib allMedia).excludeFolders ++ [k])).rules lib allMedia)
      k := by
  constructor
  · refine rules_eq_false_iff.mpr ⟨fun hmem => hnew (rules_eq_true_iff.mpr hmem), .inl ?_⟩
    exact List.mem_map.mpr ⟨k, List.mem_append_right _ (List.mem_singleton_self k), hk⟩
  · intro k' hne
    refine (rules_writeExcludeFolders _ (fun k' hne => ?_) k' hne).imp_right fun h => ⟨h.1, h.2.1, h.2.2.1⟩
    rw [List.map_append, List.mem_append, List.map_singleton, hk, List.mem_singleton, or_iff_left hne]
    exact (iff_of_eq (congrArg (k' ∈ ·) (map_read hlib habs .excludeFolders))).trans (mem_excludeFolders habs)

/-- Qt's paths without dots, in the root directory. -/
def inRoot : ConfigLibrary where
  cleanPath := rejoined
  exists' _ := true
  isDir _ := true
  absoluteFilePath arg := rejoined (if arg.head? = some separator then arg else separator :: arg)
  replaceHome arg := arg
  exactMatch _ _ := false

theorem lawful_inRoot : inRoot.Lawful where
  clean := cleansPaths_rejoined
  again path hpath := by
    obtain ⟨names, hnames, hclean⟩ := cleansPaths_rejoined path hpath
    change rejoined (rejoined path ++ [separator]) = rejoined path
    rw [rejoined, components_concat, hclean, components_cleaned hnames]
  absolute arg := by
    refine ⟨if arg.head? = some separator then arg else separator :: arg, ?_, rfl⟩
    split
    · next hhead => exact hhead
    · rfl

/-- A file with these lists. -/
def withFolders (folders excludedFolders : List (List QChar)) : ConfigFile where
  folders := folders
  excludedFolders := excludedFolders
  indexHiddenFolders := false
  excludedFilters := []
  excludedMimetypes := []
  onlyBasicIndexing := false

theorem rules_removeIncludeFolder (hlib : lib.Lawful) (habs : file.Absolute allMedia) :
    (FolderList.includeFolders.write file ((file.config lib allMedia).includeFolders.filter (· ≠ k))).rules lib
      allMedia = Function.update (file.rules lib allMedia) k
        (if k ∈ file.excludedFolders.map (entryPath lib.cleanPath) ++ unusable lib.cleanPath allMedia then some false
          else none) := by
  have hmem : ∀ k', k' ∈ ((file.config lib allMedia).includeFolders.filter (· ≠ k)).map (entryPath lib.cleanPath) ↔
      file.rules lib allMedia k' = some true ∧ k' ≠ k := fun k' =>
    (@mem_map_filter_read lib allMedia file .includeFolders k hlib habs k').trans
      (and_congr_left' (mem_includeFolders habs))
  funext k'
  by_cases hne : k' = k
  · subst hne
    rw [Function.update_self]
    exact if_neg fun hself => ((hmem k').mp hself).2 rfl
  · rw [Function.update_of_ne hne]
    exact rules_writeIncludeFolders _ (fun k' hne => (hmem k').trans (and_iff_left hne)) k' hne

theorem rules_removeExcludeFolder (hlib : lib.Lawful) (habs : file.Absolute allMedia) (k : List QChar) :
    let rules := file.rules lib allMedia
    let rules' := (FolderList.excludeFolders.write file
      ((file.config lib allMedia).excludeFolders.filter (· ≠ k))).rules lib allMedia
    (∀ k' ≠ k, rules' k' = rules k' ∨
      rules' k' = none ∧ rules k' = some false ∧ LongestMatch.above rules k' = false) ∧
      (∀ k', rules' k' = some true ↔ rules k' = some true) ∧
      ∀ k', rules' k' = some false ↔ rules k' ≠ some true ∧
        (rules k' = some false ∧ LongestMatch.above rules k' = true ∧ k' ≠ k ∨
          k' ∈ unusable lib.cleanPath allMedia) := by
  intro rules rules'
  have hmem : ∀ k', k' ∈ ((file.config lib allMedia).excludeFolders.filter (· ≠ k)).map (entryPath lib.cleanPath) ↔
      rules k' = some false ∧ LongestMatch.above rules k' = true ∧ k' ≠ k := fun k' =>
    (@mem_map_filter_read lib allMedia file .excludeFolders k hlib habs k').trans
      ((and_congr_left' (mem_excludeFolders habs)).trans and_assoc)
  refine ⟨fun k' hne => ?_, fun k' => ?_, fun k' => ?_⟩
  · refine (rules_writeExcludeFolders _ (fun k' hne => ?_) k' hne).imp_right fun h => ⟨h.1, h.2.1, h.2.2.1⟩
    rw [hmem, ← and_assoc, and_iff_left hne]
  · exact rules_eq_true_iff.trans (@rules_eq_true_iff _ allMedia file.toBalooSettings k').symm
  · rw [← hmem]
    exact rules_eq_false_iff.trans (and_congr_left'
      (not_congr (@rules_eq_true_iff _ allMedia file.toBalooSettings k').symm))

/-- No rule is left below an excluded folder that is removed, as far as there are no included folders and no
media. -/
theorem free_of_removed {rules rules' : Rules QChar} {media : List (List QChar)} {word : List QChar}
    (hrule : rules k = some false) (htrue : ∀ k', rules' k' = some true ↔ rules k' = some true)
    (hfalse : ∀ k', rules' k' = some false ↔ rules k' ≠ some true ∧
      (rules k' = some false ∧ LongestMatch.above rules k' = true ∧ k' ≠ k ∨ k' ∈ media))
    (hmedium : k ∉ media) : Free rules' k word ↔
      ∀ k', k <+: k' → k' <+: word → rules k' ≠ some true ∧ k' ∉ media := by
  refine ⟨fun h k' hkk' hk' => ?_, fun h k' hkk' hne hk' => ?_⟩
  · by_cases hne : k' = k
    · rw [hne]
      exact ⟨by simp [hrule], hmedium⟩
    · have hnone := h k' hkk' hne hk'
      have hnot : rules k' ≠ some true := fun ht => by simp [(htrue k').mpr ht] at hnone
      exact ⟨hnot, fun hmem => by simp [(hfalse k').mpr ⟨hnot, .inr hmem⟩] at hnone⟩
  · refine eq_none_of_ne (fun ht => (h k' hkk' hk').1 ((htrue k').mp ht)) fun hf => ?_
    refine ((hfalse k').mp hf).2.elim (fun hkept => ?_) (h k' hkk' hk').2
    -- nothing above is included
    refine Bool.false_ne_true ((LongestMatch.above_eq_false hkk' hne (LongestMatch.decision_of_rule hrule)
      fun w hw _ hw' => ?_).symm.trans hkept.2.1)
    exact (h w hw (hw'.trans hk')).1

/-- **An excluded folder that is removed** takes along the excluded folders in it: everything in it is included
up to the next included folders, and up to media that are not usable. -/
theorem removeExcludeFolder_decides (hlib : lib.Lawful) (habs : file.Absolute allMedia)
    (h : file.exec lib allMedia (.removeFolder .excludeFolders arg) = (file', .done)) (path : List QChar) :
    let k := normalizeTrailingSlashes (lib.replaceHome arg)
    let Reached : Prop := k <+: normalizeTrailingSlashes path ∧
      ∀ k', k <+: k' → k' <+: normalizeTrailingSlashes path →
        file.rules lib allMedia k' ≠ some true ∧ k' ∉ unusable lib.cleanPath allMedia
    (Reached → file'.includes lib allMedia path = true) ∧
      (¬ Reached → file'.includes lib allMedia path = file.includes lib allMedia path) := by
  intro k Reached
  have habs' := absolute_exec_removeFolder hlib habs h
  obtain ⟨hmem, rfl⟩ := exec_removeFolder h
  obtain ⟨hrule, habove⟩ : file.rules lib allMedia k = some false ∧
      LongestMatch.above (file.rules lib allMedia) k = true := (mem_excludeFolders habs).mp hmem
  obtain ⟨hothers, htrue, hfalse⟩ := rules_removeExcludeFolder hlib habs k
  rw [includes_eq habs, includes_eq habs']
  by_cases hmedium : k ∈ unusable lib.cleanPath allMedia
  · -- the medium stays excluded
    refine ⟨fun hin => absurd hmedium (hin.2 k (List.prefix_refl k) hin.1).2, fun _ => ?_⟩
    refine LongestMatch.decision_eq_of_redundant fun k' _ => ?_
    by_cases hne : k' = k
    · rw [hne]
      exact .inl (((hfalse k).mpr ⟨by simp [hrule], .inr hmedium⟩).trans hrule.symm)
    · refine (hothers k' hne).imp_right fun hgone => ⟨hgone.1, ?_⟩
      rw [hgone.2.1, hgone.2.2]
  · have hunexcludes : LongestMatch.Unexcludes (file.rules lib allMedia) _ k :=
      ⟨eq_none_of_ne (fun ht => by simp [(htrue k).mp ht] at hrule)
        (fun hf => ((hfalse k).mp hf).2.elim (fun h => h.2.2 rfl) hmedium), hothers⟩
    have hfree := @free_of_removed k _ _ _ (normalizeTrailingSlashes path) hrule htrue hfalse hmedium
    refine ⟨fun hin => ?_, fun hout => ?_⟩
    · exact (hunexcludes.decision_of_free hin.1 (hfree.mpr hin.2)).trans habove
    · exact hunexcludes.decision_of_not_free fun hin => hout ⟨hin.1, hfree.mp hin.2⟩

/-- `/a/b/c` is excluded itself, but without `/a/b` it is not. -/
theorem removeExcludeFolder_decides_removeB :
    ((withFolders [[separator, 97]] [[separator, 97, separator, 98],
      [separator, 97, separator, 98, separator, 99]]).exec inRoot []
        (.removeFolder .excludeFolders [separator, 97, separator, 98])).1.includes inRoot []
          [separator, 97, separator, 98, separator, 99] = true := by
  have habs : (withFolders [[separator, 97]] [[separator, 97, separator, 98],
      [separator, 97, separator, 98, separator, 99]]).Absolute [] := by
    unfold BalooSettings.Absolute
    decide
  have hdone : (withFolders [[separator, 97]] [[separator, 97, separator, 98],
      [separator, 97, separator, 98, separator, 99]]).exec inRoot []
        (.removeFolder .excludeFolders [separator, 97, separator, 98]) = (_, .done) := Prod.ext rfl (by decide)
  refine (removeExcludeFolder_decides lawful_inRoot habs hdone [separator, 97, separator, 98, separator, 99]).1
    ⟨by decide, fun k' hk _ => ⟨fun hrule => ?_, List.not_mem_nil⟩⟩
  -- the only included folder is shorter
  obtain rfl := List.mem_singleton.mp (rules_eq_true_iff.mp hrule)
  exact absurd hk (by decide)

/-! ## Many commands -/

/-- The list as it is in the file. -/
def raw (file : ConfigFile) : FolderList → List (List QChar)
  | .includeFolders => file.folders
  | .excludeFolders => file.excludedFolders

/-- What the command would do to the list of the file itself. -/
def edit (lib : ConfigLibrary) (file : ConfigFile) : ConfigCommand → ConfigFile
  | .addFolder list arg => list.write file (file.raw list ++ [normalizeTrailingSlashes (lib.absoluteFilePath arg)])
  | .removeFolder list arg => list.write file ((file.raw list).filter fun folder =>
      entryPath lib.cleanPath folder ≠ normalizeTrailingSlashes (lib.replaceHome arg))
  | _ => file

/-- Commands one after the other, each with the media there are, as long as the condition is met; beside the file
one whose own lists are edited by the commands that succeed. -/
inductive Run (lib : ConfigLibrary) (P : List Medium → ConfigFile → ConfigCommand → Prop) (start : ConfigFile) :
    List (List Medium × ConfigCommand) → ConfigFile → ConfigFile → Prop
  | nil : Run lib P start [] start start
  | done {steps : List (List Medium × ConfigCommand)} {file plain file' : ConfigFile} {allMedia : List Medium}
    {command : ConfigCommand} : Run lib P start steps file plain → P allMedia file command →
    file.exec lib allMedia command = (file', .done) →
    Run lib P start (steps ++ [(allMedia, command)]) file' (plain.edit lib command)
  | refused {steps : List (List Medium × ConfigCommand)} {file plain file' : ConfigFile} {allMedia : List Medium}
    {command : ConfigCommand} {answer : ConfigAnswer} : Run lib P start steps file plain → P allMedia file command →
    file.exec lib allMedia command = (file', answer) → answer ≠ .done →
    Run lib P start (steps ++ [(allMedia, command)]) file' plain

/-- A folder of the list. -/
def Keeps (lib : ConfigLibrary) (file : ConfigFile) (list : FolderList) (k : List QChar) : Prop :=
  k ∈ (file.raw list).map (entryPath lib.cleanPath)

/-- A command that is refused changes nothing. -/
theorem exec_refused {command : ConfigCommand} {answer : ConfigAnswer}
    (h : file.exec lib allMedia command = (file', answer)) (hne : answer ≠ .done) : file' = file := by
  have hcases : (file.exec lib allMedia command).2 = .done ∨ (file.exec lib allMedia command).1 = file := by
    cases command with
    | addFolder list arg =>
      simp only [exec, addFolder]
      split_ifs <;> simp
    | removeFolder list arg =>
      simp only [exec, removeFolder]
      split_ifs <;> simp
    | addFilter filter =>
      rw [exec]
      split_ifs <;> simp
    | removeFilter filter =>
      rw [exec]
      split_ifs <;> simp
    | addMimetype mimetype =>
      rw [exec]
      split_ifs <;> simp
    | removeMimetype mimetype =>
      rw [exec]
      split_ifs <;> simp
    | setHidden value => cases value <;> simp [exec]
    | setContentIndexing value => cases value <;> simp [exec]
  rw [h] at hcases
  exact hcases.resolve_left hne

theorem keeps_write_self {folders : List (List QChar)} :
    (list.write file folders).Keeps lib list k ↔ k ∈ folders.map (entryPath lib.cleanPath) := by
  cases list with
  | includeFolders => exact Iff.rfl
  | excludeFolders => exact Iff.rfl

theorem keeps_write_of_ne {list' : FolderList} {folders : List (List QChar)} (hne : list ≠ list') :
    (list.write file folders).Keeps lib list' k ↔ file.Keeps lib list' k := by
  cases list <;> cases list' <;> first | exact absurd rfl hne | exact Iff.rfl

/-- Other commands leave the lists of folders as they are. -/
theorem raw_exec {command : ConfigCommand} (hno : ∀ list, ¬ command.Edits list) (list : FolderList) :
    (file.exec lib allMedia command).1.raw list = file.raw list := by
  cases command with
  | addFolder list arg => exact absurd rfl (hno list)
  | removeFolder list arg => exact absurd rfl (hno list)
  | addFilter filter =>
    rw [exec]
    split_ifs <;> cases list <;> rfl
  | removeFilter filter =>
    rw [exec]
    split_ifs <;> cases list <;> rfl
  | addMimetype mimetype =>
    rw [exec]
    split_ifs <;> cases list <;> rfl
  | removeMimetype mimetype =>
    rw [exec]
    split_ifs <;> cases list <;> rfl
  | setHidden value => cases value <;> cases list <;> rfl
  | setContentIndexing value => cases value <;> cases list <;> rfl

theorem edit_eq {command : ConfigCommand} (hno : ∀ list, ¬ command.Edits list) : file.edit lib command = file := by
  cases command with
  | addFolder list arg => exact absurd rfl (hno list)
  | removeFolder list arg => exact absurd rfl (hno list)
  | addFilter filter => rfl
  | removeFilter filter => rfl
  | addMimetype mimetype => rfl
  | removeMimetype mimetype => rfl
  | setHidden value => rfl
  | setContentIndexing value => rfl

/-- What a command does to a list, and what it would do to the list of the file itself. -/
theorem keeps_exec (hlib : lib.Lawful) (habs : file.Absolute allMedia) {command : ConfigCommand}
    (h : file.exec lib allMedia command = (file', .done)) (plain : ConfigFile) (list : FolderList) :
    ¬ command.Edits list ∧ (∀ k, file'.Keeps lib list k ↔ file.Keeps lib list k) ∧
        (∀ k, (plain.edit lib command).Keeps lib list k ↔ plain.Keeps lib list k) ∨
      command.Edits list ∧ ∃ edited : Prop → List QChar → Prop, (∀ k, Monotone (edited · k)) ∧
        (∀ k, file'.Keeps lib list k ↔ edited (k ∈ list.read (file.config lib allMedia)) k) ∧
        ∀ k, (plain.edit lib command).Keeps lib list k ↔ edited (plain.Keeps lib list k) k := by
  by_cases hno : ∀ list, ¬ command.Edits list
  · refine .inl ⟨hno list, fun k => ?_, fun k => ?_⟩
    · have hraw := @raw_exec lib allMedia file command hno list
      rw [h] at hraw
      rw [Keeps, hraw, Keeps]
    · rw [edit_eq hno]
  · cases command with
    | addFolder list' arg =>
      obtain ⟨-, -, rfl⟩ := exec_addFolder h
      by_cases hlist : list' = list
      · subst hlist
        refine .inr ⟨rfl, fun kept k => kept ∨ k = entryPath lib.cleanPath (normalizeTrailingSlashes
          (lib.absoluteFilePath arg)), fun k a b hab => Or.imp_left hab, fun k => ?_, fun k => ?_⟩
        · rw [keeps_write_self, List.map_append, map_read hlib habs]
          simp
        · rw [edit, keeps_write_self, List.map_append, List.mem_append]
          exact or_congr_right (by simp)
      · exact .inl ⟨hlist, fun k => keeps_write_of_ne hlist, fun k => keeps_write_of_ne hlist⟩
    | removeFolder list' arg =>
      obtain ⟨-, rfl⟩ := exec_removeFolder h
      by_cases hlist : list' = list
      · subst hlist
        refine .inr ⟨rfl, fun kept k => kept ∧ k ≠ normalizeTrailingSlashes (lib.replaceHome arg),
          fun k a b hab => And.imp_left hab, fun k => ?_, fun k => ?_⟩
        · rw [keeps_write_self]
          exact mem_map_filter_read hlib habs
        · rw [edit, keeps_write_self, Keeps]
          simp only [List.mem_map, List.mem_filter, decide_eq_true_eq]
          constructor
          · rintro ⟨folder, ⟨hfolder, hne⟩, rfl⟩
            exact ⟨⟨folder, hfolder, rfl⟩, hne⟩
          · rintro ⟨⟨folder, hfolder, rfl⟩, hne⟩
            exact ⟨folder, ⟨hfolder, hne⟩, rfl⟩
      · exact .inl ⟨hlist, fun k => keeps_write_of_ne hlist, fun k => keeps_write_of_ne hlist⟩
    | addFilter filter => exact absurd (fun _ => id) hno
    | removeFilter filter => exact absurd (fun _ => id) hno
    | addMimetype mimetype => exact absurd (fun _ => id) hno
    | removeMimetype mimetype => exact absurd (fun _ => id) hno
    | setHidden value => exact absurd (fun _ => id) hno
    | setContentIndexing value => exact absurd (fun _ => id) hno

/-- The folders of the file are absolute. -/
def AbsoluteFolders (file : ConfigFile) : Prop :=
  ∀ folder ∈ file.folders ++ file.excludedFolders, folder.head? = some separator

/-- Media are mounted at absolute paths. -/
def AbsoluteMedia (allMedia : List Medium) : Prop :=
  ∀ device ∈ allMedia, device.mountPath ≠ [] → device.mountPath.head? = some separator

theorem AbsoluteFolders.absolute (h : file.AbsoluteFolders) (hmedia : AbsoluteMedia allMedia) :
    file.Absolute allMedia := by
  intro folder hfolder
  rw [BalooSettings.excluded, ← List.append_assoc, List.mem_append] at hfolder
  refine hfolder.elim (h folder) fun hfolder => ?_
  obtain ⟨device, hdevice, rfl⟩ := List.mem_map.mp hfolder
  obtain ⟨hdevice, hunusable⟩ := List.mem_filter.mp hdevice
  simp only [decide_eq_true_eq] at hunusable
  exact hmedia device hdevice hunusable.2.1

/-- The edited file follows the one whose own lists are edited: it includes the same folders, and excludes no
others but media that have been there. -/
structure Follows (lib : ConfigLibrary) (seen : List (List QChar)) (file plain : ConfigFile) : Prop where
  absolute : file.AbsoluteFolders
  absolutePlain : plain.AbsoluteFolders
  included : ∀ k, file.Keeps lib .includeFolders k ↔ plain.Keeps lib .includeFolders k
  excluded : ∀ k, file.Keeps lib .excludeFolders k → plain.Keeps lib .excludeFolders k ∨ k ∈ seen

theorem absoluteFolders_exec (hlib : lib.Lawful) (h : file.AbsoluteFolders) (hmedia : AbsoluteMedia allMedia)
    {command : ConfigCommand} (hdone : file.exec lib allMedia command = (file', .done)) : file'.AbsoluteFolders := by
  have habs := h.absolute hmedia
  have hof : file'.Absolute allMedia → file'.AbsoluteFolders := fun habs' folder hfolder =>
    habs' folder (List.append_assoc .. ▸ List.mem_append_left _ hfolder)
  by_cases hno : ∀ list, ¬ command.Edits list
  · have hraw := @raw_exec lib allMedia file command hno
    rw [hdone] at hraw
    have hfolders : file'.folders = file.folders := hraw .includeFolders
    have hexcluded : file'.excludedFolders = file.excludedFolders := hraw .excludeFolders
    rwa [AbsoluteFolders, hfolders, hexcluded]
  · cases command with
    | addFolder list arg => exact hof (absolute_exec_addFolder hlib habs hdone)
    | removeFolder list arg => exact hof (absolute_exec_removeFolder hlib habs hdone)
    | addFilter filter => exact absurd (fun _ => id) hno
    | removeFilter filter => exact absurd (fun _ => id) hno
    | addMimetype mimetype => exact absurd (fun _ => id) hno
    | removeMimetype mimetype => exact absurd (fun _ => id) hno
    | setHidden value => exact absurd (fun _ => id) hno
    | setContentIndexing value => exact absurd (fun _ => id) hno

theorem absoluteFolders_write {folders : List (List QChar)} (h : file.AbsoluteFolders)
    (hfolders : ∀ folder ∈ folders, folder.head? = some separator) : (list.write file folders).AbsoluteFolders := by
  intro folder hfolder
  cases list with
  | includeFolders =>
    exact (List.mem_append.mp hfolder).elim (hfolders folder) fun hmem => h folder (List.mem_append_right _ hmem)
  | excludeFolders =>
    exact (List.mem_append.mp hfolder).elim (fun hmem => h folder (List.mem_append_left _ hmem)) (hfolders folder)

theorem absoluteFolders_edit (hlib : lib.Lawful) (h : file.AbsoluteFolders) (command : ConfigCommand) :
    (file.edit lib command).AbsoluteFolders := by
  have hraw : ∀ list : FolderList, ∀ folder ∈ file.raw list, folder.head? = some separator := by
    intro list folder hfolder
    cases list with
    | includeFolders => exact h folder (List.mem_append_left _ hfolder)
    | excludeFolders => exact h folder (List.mem_append_right _ hfolder)
  by_cases hno : ∀ list, ¬ command.Edits list
  · rwa [edit_eq hno]
  · cases command with
    | addFolder list arg =>
      refine absoluteFolders_write h fun folder hfolder => ?_
      rcases List.mem_append.mp hfolder with hmem | hmem
      · exact hraw list folder hmem
      · rw [List.mem_singleton.mp hmem]
        exact head?_arg hlib
    | removeFolder list arg =>
      exact absoluteFolders_write h fun folder hfolder => hraw list folder (List.mem_of_mem_filter hfolder)
    | addFilter filter => exact absurd (fun _ => id) hno
    | removeFilter filter => exact absurd (fun _ => id) hno
    | addMimetype mimetype => exact absurd (fun _ => id) hno
    | removeMimetype mimetype => exact absurd (fun _ => id) hno
    | setHidden value => exact absurd (fun _ => id) hno
    | setContentIndexing value => exact absurd (fun _ => id) hno

/-- The included folders that are listed are those of the file. -/
theorem mem_read_includeFolders (habs : file.Absolute allMedia) :
    k ∈ FolderList.includeFolders.read (file.config lib allMedia) ↔ file.Keeps lib .includeFolders k :=
  (mem_includeFolders habs).trans rules_eq_true_iff

theorem Follows.done {seen : List (List QChar)} {plain : ConfigFile} (h : Follows lib seen file plain)
    (hlib : lib.Lawful) (hmedia : AbsoluteMedia allMedia) {command : ConfigCommand}
    (hdone : file.exec lib allMedia command = (file', .done)) :
    Follows lib (seen ++ unusable lib.cleanPath allMedia) file' (plain.edit lib command) := by
  have habs := h.absolute.absolute hmedia
  refine ⟨absoluteFolders_exec hlib h.absolute hmedia hdone, absoluteFolders_edit hlib h.absolutePlain command,
    fun k => ?_, fun k hk => ?_⟩
  · rcases keeps_exec hlib habs hdone plain .includeFolders with
      ⟨-, hfile, hplain⟩ | ⟨-, edited, hmono, hfile, hplain⟩
    · rw [hfile, hplain, h.included]
    · rw [hfile, hplain, mem_read_includeFolders habs, h.included]
  · rw [List.mem_append]
    rcases keeps_exec hlib habs hdone plain .excludeFolders with
      ⟨-, hfile, hplain⟩ | ⟨-, edited, hmono, hfile, hplain⟩
    · rw [hplain]
      exact (h.excluded k ((hfile k).mp hk)).imp_right .inl
    · by_cases hseen : k ∈ seen ∨ k ∈ unusable lib.cleanPath allMedia
      · exact .inr hseen
      · refine .inl ((hplain k).mpr (hmono k (fun hread => ?_) ((hfile k).mp hk)))
        obtain ⟨-, hkept⟩ := rules_eq_false_iff.mp ((mem_excludeFolders habs).mp hread).1
        rw [not_or] at hseen
        exact (h.excluded k (hkept.resolve_right hseen.2)).resolve_right hseen.1

theorem Follows.run {P : List Medium → ConfigFile → ConfigCommand → Prop} {start plain : ConfigFile}
    {steps : List (List Medium × ConfigCommand)} (hlib : lib.Lawful) (habs : start.AbsoluteFolders)
    (hrun : Run lib P start steps file plain) (hmedia : ∀ step ∈ steps, AbsoluteMedia step.1) :
    Follows lib (steps.flatMap fun step => unusable lib.cleanPath step.1) file plain := by
  induction hrun with
  | nil => exact ⟨habs, habs, fun _ => Iff.rfl, fun _ => .inl⟩
  | @done steps file plain file' allMedia command hrun hcondition hdone ih =>
    have h := ih fun step hstep => hmedia step (List.mem_append_left _ hstep)
    rw [List.flatMap_append, List.flatMap_singleton]
    exact h.done hlib (hmedia _ (List.mem_append_right _ (List.mem_singleton_self _))) hdone
  | refused hrun hcondition hrefused hne ih =>
    have h := ih fun step hstep => hmedia step (List.mem_append_left _ hstep)
    rw [exec_refused hrefused hne, List.flatMap_append]
    exact ⟨h.absolute, h.absolutePlain, h.included, fun k hk => (h.excluded k hk).imp_right (List.mem_append_left _)⟩

/-- Where the excluded folders are edited, those of the file are listed, and no others. -/
def ListsExcluded (lib : ConfigLibrary) (allMedia : List Medium) (file : ConfigFile) (command : ConfigCommand) :
    Prop :=
  command.Edits .excludeFolders → ∀ k,
    k ∈ (file.config lib allMedia).excludeFolders ↔ file.Keeps lib .excludeFolders k

/-- Nothing gets lost as long as all excluded folders are listed. -/
theorem excluded_of_run {start plain : ConfigFile} {steps : List (List Medium × ConfigCommand)} (hlib : lib.Lawful)
    (habs : start.AbsoluteFolders) (hrun : Run lib (ListsExcluded lib) start steps file plain)
    (hmedia : ∀ step ∈ steps, AbsoluteMedia step.1) :
    ∀ k, file.Keeps lib .excludeFolders k ↔ plain.Keeps lib .excludeFolders k := by
  induction hrun with
  | nil => exact fun k => Iff.rfl
  | @done steps file plain file' allMedia command hrun hlists hdone ih =>
    have hmedia' := fun step hstep => hmedia step (List.mem_append_left _ hstep)
    have habs' := (Follows.run hlib habs hrun hmedia').absolute.absolute
      (hmedia _ (List.mem_append_right _ (List.mem_singleton_self (allMedia, command))))
    intro k
    rcases keeps_exec hlib habs' hdone plain .excludeFolders with
      ⟨-, hfile, hplain⟩ | ⟨hedits, edited, hmono, hfile, hplain⟩
    · rw [hfile, hplain, ih hmedia']
    · rw [hfile, hplain, ← ih hmedia', ← hlists hedits]
      rfl
  | refused hrun hlists hrefused hne ih =>
    rw [exec_refused hrefused hne]
    exact ih fun step hstep => hmedia step (List.mem_append_left _ hstep)

/-- Files that keep the same folders say the same. -/
theorem rules_eq_of_keeps {plain : ConfigFile}
    (h : ∀ list k, file.Keeps lib list k ↔ plain.Keeps lib list k) :
    file.rules lib allMedia = plain.rules lib allMedia :=
  funext fun _ => rules_ext
    (rules_eq_true_iff.trans ((h .includeFolders _).trans rules_eq_true_iff.symm))
    (rules_eq_false_iff.trans ((and_congr (not_congr (h .includeFolders _))
      (or_congr_left (h .excludeFolders _))).trans rules_eq_false_iff.symm))

end ConfigFile

end Baloo
