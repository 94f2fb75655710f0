import Baloo.QtText

/-!
# The configuration of the indexer

Folders are included in the index or excluded from it; the longest configured folder that a path is
in decides, and below an included folder every component of the path has to pass the name filters.

The configured folders are kept sorted, longest first, without duplicates, and each of them ends with
a slash; the type `FolderCache` says so. Entries that change nothing are cleaned up, except for
included folders, which are all kept.
-/

namespace Baloo

/-- The separator of paths. -/
abbrev separator : QChar := 0x2f

/-- `normalizeTrailingSlashes`: exactly one slash at the end. -/
def normalizeTrailingSlashes (path : List QChar) : List QChar :=
  (path.reverse.dropWhile (· = separator)).reverse ++ [separator]

/-- `FileIndexerConfig::FolderConfig`. -/
structure FolderConfig where
  /-- the folder, with a slash at the end -/
  path : List QChar
  /-- it is included -/
  isIncluded : Bool
  deriving DecidableEq

/-- `FolderConfig::operator<`: longer paths come first. -/
def FolderConfig.Before (a b : FolderConfig) : Prop :=
  b.path.length < a.path.length ∨ a.path.length = b.path.length ∧ a.path < b.path

instance (a b : FolderConfig) : Decidable (a.Before b) := inferInstanceAs (Decidable (_ ∨ _))

theorem FolderConfig.Before.trans {a b c : FolderConfig} (h : a.Before b) (h' : b.Before c) :
    a.Before c := by
  rcases h with h | ⟨hlen, h⟩
  · rcases h' with h' | ⟨hlen', -⟩
    · exact Or.inl (Nat.lt_trans h' h)
    · exact Or.inl (hlen' ▸ h)
  · rcases h' with h' | ⟨hlen', h'⟩
    · exact Or.inl (hlen ▸ h')
    · exact Or.inr ⟨hlen.trans hlen', List.lt_trans h h'⟩

theorem FolderConfig.Before.path_ne {a b : FolderConfig} (h : a.Before b) : a.path ≠ b.path := by
  intro heq
  rcases h with hlt | ⟨-, hlt⟩
  · rw [heq] at hlt
    exact Nat.lt_irrefl _ hlt
  · rw [heq] at hlt
    exact List.lt_irrefl _ hlt

/-- Paths that are not smaller and not equal are larger. -/
theorem FolderConfig.before_of_not {a b : FolderConfig} (h : ¬ a.Before b) (hne : b.path ≠ a.path) :
    b.Before a := by
  rcases Nat.lt_trichotomy a.path.length b.path.length with hlen | hlen | hlen
  · exact Or.inl hlen
  · have hle : b.path ≤ a.path := fun hlt => h (Or.inr ⟨hlen, hlt⟩)
    exact Or.inr ⟨hlen.symm, Std.lt_of_le_of_ne hle hne⟩
  · exact absurd (Or.inl hlen) h

/-- `FileIndexerConfig::FolderCache`. -/
structure FolderCache where
  /-- the entries -/
  entries : List FolderConfig
  /-- they are sorted, without duplicates -/
  sorted : entries.Pairwise FolderConfig.Before
  /-- paths end with a slash -/
  slash : ∀ entry ∈ entries, entry.path.getLast? = some separator

namespace FolderCache

/-- No entries. -/
def empty : FolderCache where
  entries := []
  sorted := .nil
  slash := fun _ h => absurd h List.not_mem_nil

/-- The entries of which some are left. -/
def restrict (cache : FolderCache) (entries : List FolderConfig)
    (h : entries.Sublist cache.entries) : FolderCache where
  entries := entries
  sorted := cache.sorted.sublist h
  slash := fun entry hentry => cache.slash entry (h.subset hentry)

/-- Insert an entry where `std::lower_bound` finds its place, unless its path is there. -/
def insertEntry (entry : FolderConfig) : List FolderConfig → List FolderConfig
  | [] => [entry]
  | e :: entries =>
    if e.Before entry then e :: insertEntry entry entries
    else if e.path = entry.path then e :: entries
    else entry :: e :: entries

theorem mem_insertEntry {entry e : FolderConfig} {entries : List FolderConfig}
    (h : e ∈ insertEntry entry entries) : e = entry ∨ e ∈ entries := by
  induction entries with
  | nil => exact Or.inl (List.mem_singleton.mp h)
  | cons e' entries ih =>
    rw [insertEntry] at h
    split at h
    · rcases List.mem_cons.mp h with rfl | h
      · exact Or.inr (List.mem_cons_self ..)
      · exact (ih h).imp_right (List.mem_cons_of_mem _)
    · split at h
      · exact Or.inr h
      · exact List.mem_cons.mp h

theorem sorted_insertEntry {entry : FolderConfig} {entries : List FolderConfig}
    (h : entries.Pairwise FolderConfig.Before) :
    (insertEntry entry entries).Pairwise FolderConfig.Before := by
  induction entries with
  | nil => exact List.pairwise_singleton _ _
  | cons e entries ih =>
    obtain ⟨he, hentries⟩ := List.pairwise_cons.mp h
    rw [insertEntry]
    split
    · next hbefore =>
      refine List.pairwise_cons.mpr ⟨fun e' he' => ?_, ih hentries⟩
      rcases mem_insertEntry he' with rfl | he'
      · exact hbefore
      · exact he e' he'
    · next hbefore =>
      split
      · exact h
      · next hne =>
        have hentry : entry.Before e := FolderConfig.before_of_not hbefore (Ne.symm hne)
        refine List.pairwise_cons.mpr ⟨fun e' he' => ?_, h⟩
        rcases List.mem_cons.mp he' with rfl | he'
        · exact hentry
        · exact hentry.trans (he e' he')

/-- `FolderCache::addFolderConfig`; `cleanPath` is `QDir::cleanPath`. -/
def addFolderConfig (cleanPath : List QChar → List QChar) (cache : FolderCache) (path : List QChar)
    (isIncluded : Bool) : FolderCache :=
  if path = [] then cache
  else
    let newConfig : FolderConfig := { path := cleanPath path ++ [separator], isIncluded := isIncluded }
    { entries := insertEntry newConfig cache.entries
      sorted := sorted_insertEntry cache.sorted
      slash := fun entry hentry => by
        rcases mem_insertEntry hentry with rfl | hentry
        · exact List.getLast?_concat
        · exact cache.slash entry hentry }

/-- The loop of `FolderCache::cleanup`. -/
def cleanupLoop : List FolderConfig → List FolderConfig
  | [] => []
  | entry :: start =>
    -- included folders are all kept
    if entry.isIncluded then entry :: cleanupLoop start
    else
      match start.find? fun parent => parent.path.isPrefixOf entry.path with
      | some parent =>
        -- remove identical config
        if entry.isIncluded = parent.isIncluded then cleanupLoop start
        else entry :: cleanupLoop start
      | none =>
        -- remove excluded a topmost level (default)
        cleanupLoop start

theorem cleanupLoop_sublist (entries : List FolderConfig) :
    (cleanupLoop entries).Sublist entries := by
  induction entries with
  | nil => exact List.Sublist.refl _
  | cons entry start ih =>
    rw [cleanupLoop]
    split
    · exact ih.cons_cons entry
    · split
      · split
        · exact ih.cons entry
        · exact ih.cons_cons entry
      · exact ih.cons entry

/-- `FolderCache::cleanup`. -/
def cleanup (cache : FolderCache) : FolderCache :=
  cache.restrict (cleanupLoop cache.entries) (cleanupLoop_sublist cache.entries)

end FolderCache

/-- A removable medium or a network share. -/
structure Medium where
  /-- `mountPath` -/
  mountPath : List QChar
  /-- `isUsable` -/
  isUsable : Bool

/-- `BalooSettings`, as far as it selects files. -/
structure BalooSettings where
  /-- the included folders -/
  folders : List (List QChar)
  /-- the excluded folders -/
  excludedFolders : List (List QChar)
  /-- index hidden files and folders -/
  indexHiddenFolders : Bool

/-- `FileIndexerConfig`. -/
structure FileIndexerConfig where
  /-- `m_folderCache` -/
  folderCache : FolderCache
  /-- `m_excludeFilterRegExpCache.exactMatch` -/
  exactMatch : List QChar → Bool
  /-- `m_indexHidden` -/
  indexHidden : Bool

namespace FileIndexerConfig

/-- `buildFolderCache`. -/
def buildFolderCache (cleanPath : List QChar → List QChar) (settings : BalooSettings)
    (allMedia : List Medium) : FolderCache :=
  let cache := settings.folders.foldl
    (fun cache folder => cache.addFolderConfig cleanPath folder true) FolderCache.empty
  let cache := settings.excludedFolders.foldl
    (fun cache folder => cache.addFolderConfig cleanPath folder false) cache
  -- Add all removable media and network shares as ignored unless they have been explicitly added
  let cache := allMedia.foldl (fun cache device =>
    if !device.isUsable ∧ device.mountPath ≠ [] ∧ device.mountPath ∉ settings.folders then
      cache.addFolderConfig cleanPath device.mountPath false
    else cache) cache
  cache.cleanup

/-- The configuration read from the settings. -/
def load (cleanPath : List QChar → List QChar) (settings : BalooSettings) (allMedia : List Medium)
    (exactMatch : List QChar → Bool) : FileIndexerConfig where
  folderCache := buildFolderCache cleanPath settings allMedia
  exactMatch := exactMatch
  indexHidden := settings.indexHiddenFolders

variable (config : FileIndexerConfig)

/-- `includeFolders`. -/
def includeFolders : List (List QChar) :=
  (config.folderCache.entries.filter fun entry => entry.isIncluded).map FolderConfig.path

/-- `excludeFolders`. -/
def excludeFolders : List (List QChar) :=
  (config.folderCache.entries.filter fun entry => !entry.isIncluded).map FolderConfig.path

/-- `folderInFolderList`: whether the entry that decides about a path is included, and its folder. -/
def folderInFolderList (path : List QChar) : Bool × List QChar :=
  match config.folderCache.entries.find? fun entry =>
      entry.path.isPrefixOf (normalizeTrailingSlashes path) with
  | some entry => (entry.isIncluded, entry.path)
  | none => (false, [])

/-- `shouldFileBeIndexed`. -/
def shouldFileBeIndexed (fileName : List QChar) : Bool :=
  if !config.indexHidden ∧ fileName.head? = some (latin1Char '.') then false
  else !config.exactMatch fileName

/-- The parts of a string between separators. -/
def split : List QChar → List (List QChar)
  | [] => [[]]
  | c :: s =>
    match split s with
    | [] => []
    | part :: parts => if c = separator then [] :: part :: parts else (c :: part) :: parts

/-- The components of a path. -/
def components (path : List QChar) : List (List QChar) := (split path).filter (· ≠ [])

/-- `shouldFolderBeIndexed`. -/
def shouldFolderBeIndexed (path : List QChar) : Bool :=
  let normalizedPath := normalizeTrailingSlashes path
  let (included, folder) := config.folderInFolderList normalizedPath
  if included then
    -- we always index the folders in the list, ignoring the name filters
    if folder = normalizedPath then true
    else
      -- check the exclude filters for all components of the path after folder
      (components (normalizedPath.drop folder.length)).all config.shouldFileBeIndexed
  else false

end FileIndexerConfig

/-! ## Files -/

/-- `QFileInfo::fileName`. -/
def fileName (path : List QChar) : List QChar := (path.reverse.takeWhile (· ≠ separator)).reverse

/-- `QFileInfo::absolutePath` of an absolute path: the directory of a file. -/
def absolutePath (path : List QChar) : List QChar :=
  match (path.reverse.dropWhile (· ≠ separator)).reverse.dropLast with
  | [] => if path = [] then [] else [separator]
  | dir => dir

/-- `QFileInfo::isHidden`. -/
def isHidden (path : List QChar) : Bool := (fileName path).head? = some (latin1Char '.')

/-- `FileIndexerConfig::shouldBeIndexed`; `isDir` is `QFileInfo::isDir`. -/
def FileIndexerConfig.shouldBeIndexed (config : FileIndexerConfig) (isDir : List QChar → Bool)
    (path : List QChar) : Bool :=
  if isDir path then config.shouldFolderBeIndexed path
  else
    config.shouldFolderBeIndexed (absolutePath path) && (!isHidden path || config.indexHidden) &&
      config.shouldFileBeIndexed (fileName path)

end Baloo
