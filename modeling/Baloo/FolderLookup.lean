import Baloo.FolderDecision
import Mathlib.Data.List.Find
import Mathlib.Order.Lattice.Nat

/-!
# Looking up a folder

`folderInFolderList` compares strings: an entry decides about a path if the path, with one slash at its end,
begins with the entry, and the longest such entry wins. What is meant is the longest configured folder that
the path is, or lies in, component by component. The two agree as long as the folder is found in the string
(`folder_lookup`): the root never is, because `QDir::cleanPath` leaves its slash and `addFolderConfig` adds
another one, and neither is a folder behind a repeated slash.

`cleanup` drops entries, but no answer changes (`lookup_cleanupLoop`).
-/

namespace Baloo

open FileIndexerConfig (components split components_append components_name split_append_separator)

/-! ## Components of normal paths -/

/-- The path of these components, as `QDir::cleanPath` writes it. -/
def cleaned (names : List (List QChar)) : List QChar :=
  if names = [] then [separator] else (names.map (separator :: ·)).flatten

/-- `QDir::cleanPath` of an absolute path: one slash in front of every component, the root being a slash. -/
def CleansPaths (cleanPath : List QChar → List QChar) : Prop :=
  ∀ path, path.head? = some separator → ∃ names, (∀ name ∈ names, IsName name) ∧ cleanPath path = cleaned names

/-- A folder in the cache. -/
def stored (names : List (List QChar)) : List QChar := cleaned names ++ [separator]

theorem components_concat (s : List QChar) : components (s ++ [separator]) = components s := by
  rw [components, split_append_separator, List.filter_append, components]
  simp [split]

theorem components_normalize (path : List QChar) :
    components (normalizeTrailingSlashes path) = components path := by
  induction path using List.reverseRecOn with
  | nil => exact components_concat []
  | append_singleton path c ih =>
    by_cases hc : c = separator
    · subst hc
      rw [normalizeTrailingSlashes_concat, components_concat, ih]
    · have hnormal : normalizeTrailingSlashes (path ++ [c]) = path ++ [c] ++ [separator] := by
        rw [normalizeTrailingSlashes, List.reverse_append, List.reverse_singleton, List.singleton_append,
          List.dropWhile_cons_of_neg (by simpa using hc), List.reverse_cons, List.reverse_reverse]
      rw [hnormal, components_concat]

theorem components_cleaned {names : List (List QChar)} (h : ∀ name ∈ names, IsName name) :
    components (cleaned names) = names := by
  rcases eq_or_ne names [] with rfl | hne
  · exact components_concat []
  rw [cleaned, if_neg hne]
  clear hne
  induction names using List.reverseRecOn with
  | nil => exact FileIndexerConfig.components_nil
  | append_singleton names name ih =>
    have hname := h name (List.mem_append_right _ (List.mem_singleton_self name))
    have hshape : ((names ++ [name]).map (separator :: ·)).flatten =
        (names.map (separator :: ·)).flatten ++ [separator] ++ name := by simp
    rw [hshape, components_append (closed_concat _), components_concat,
      ih fun n hn => h n (List.mem_append_left _ hn), ← components_concat name, components_name hname]

theorem components_stored {names : List (List QChar)} (h : ∀ name ∈ names, IsName name) :
    components (stored names) = names := by
  rw [stored, components_concat, components_cleaned h]

theorem stored_injective {names names' : List (List QChar)} (h : ∀ name ∈ names, IsName name)
    (h' : ∀ name ∈ names', IsName name) (heq : stored names = stored names') : names = names' := by
  rw [← components_stored h, heq, components_stored h']

/-- The path, with one slash at its end, begins with the folder as it is stored. -/
def Spelled (path : List QChar) (names : List (List QChar)) : Prop :=
  stored names <+: normalizeTrailingSlashes path

/-- A folder that is found in the path is the path or one of its ancestors. -/
theorem Spelled.inside {path : List QChar} {names : List (List QChar)} (h : Spelled path names)
    (hnames : ∀ name ∈ names, IsName name) : names <+: components path := by
  obtain ⟨rest, hrest⟩ := h
  rw [← components_normalize path, ← hrest, stored, components_append (closed_concat _), ← stored,
    components_stored hnames]
  exact List.prefix_append _ _

/-! ## The cache -/

namespace FolderCache

variable {entries : List FolderConfig} {entry e : FolderConfig} {path : List QChar}

/-- What is inserted is there, unless its path was there before. -/
theorem mem_insertEntry_iff (hsorted : entries.Pairwise FolderConfig.Before) :
    e ∈ insertEntry entry entries ↔ e ∈ entries ∨ e = entry ∧ ∀ e' ∈ entries, e'.path ≠ entry.path := by
  induction entries with
  | nil => simp [insertEntry]
  | cons e' entries ih =>
    obtain ⟨he', hentries⟩ := List.pairwise_cons.mp hsorted
    rw [insertEntry]
    split
    · next hbefore =>
      have hne : e'.path ≠ entry.path := hbefore.path_ne
      rw [List.mem_cons, ih hentries, List.mem_cons, List.forall_mem_cons]
      tauto
    · next hbefore =>
      split
      · next heq =>
        rw [List.forall_mem_cons]
        tauto
      · next hne =>
        have hentry : entry.Before e' := FolderConfig.before_of_not hbefore (Ne.symm hne)
        have hall : ∀ e'' ∈ e' :: entries, e''.path ≠ entry.path := by
          intro e'' hmem
          rcases List.mem_cons.mp hmem with rfl | hmem
          · exact hne
          · exact (hentry.trans (he' e'' hmem)).path_ne.symm
        rw [List.mem_cons]
        tauto

/-- Folders that are added one after another, with the same flag. -/
theorem mem_foldl_addFolderConfig (cleanPath : List QChar → List QChar) (isIncluded : Bool)
    (folders : List (List QChar)) (cache : FolderCache) (h : ∀ folder ∈ folders, folder ≠ []) :
    e ∈ (folders.foldl (fun cache folder => cache.addFolderConfig cleanPath folder isIncluded) cache).entries ↔
      e ∈ cache.entries ∨ e.isIncluded = isIncluded ∧
        (∃ folder ∈ folders, e.path = cleanPath folder ++ [separator]) ∧
        ∀ e' ∈ cache.entries, e'.path ≠ e.path := by
  induction folders generalizing cache with
  | nil => simp
  | cons folder folders ih =>
    obtain ⟨hne, hfolders⟩ := List.forall_mem_cons.mp h
    rw [List.foldl_cons, ih _ hfolders, addFolderConfig, if_neg hne]
    simp only [mem_insertEntry_iff cache.sorted, List.exists_mem_cons_iff]
    constructor
    · rintro ((hmem | ⟨rfl, hall⟩) | ⟨hincl, ⟨f, hf, hpath⟩, hall⟩)
      · exact .inl hmem
      · exact .inr ⟨rfl, .inl rfl, hall⟩
      · exact .inr ⟨hincl, .inr ⟨f, hf, hpath⟩, fun e' he' => hall e' (.inl he')⟩
    · rintro (hmem | ⟨hincl, hpath | ⟨f, hf, hpath⟩, hall⟩)
      · exact .inl (.inl hmem)
      · have heq : e = { path := cleanPath folder ++ [separator], isIncluded := isIncluded } := by
          cases e
          simp only [FolderConfig.mk.injEq]
          exact ⟨hpath, hincl⟩
        exact .inl (.inr ⟨heq, fun e' he' => hpath ▸ hall e' he'⟩)
      · by_cases hsame : e.path = cleanPath folder ++ [separator]
        · have heq : e = { path := cleanPath folder ++ [separator], isIncluded := isIncluded } := by
            cases e
            simp only [FolderConfig.mk.injEq]
            exact ⟨hsame, hincl⟩
          exact .inl (.inr ⟨heq, fun e' he' => hsame ▸ hall e' he'⟩)
        · refine .inr ⟨hincl, ⟨f, hf, hpath⟩, ?_⟩
          rintro e' (he' | ⟨rfl, -⟩)
          · exact hall e' he'
          · exact Ne.symm hsame

/-- The flag of the first entry that the path begins with. -/
def lookup (entries : List FolderConfig) (path : List QChar) : Bool :=
  ((entries.find? fun entry => entry.path.isPrefixOf path).map FolderConfig.isIncluded).getD false

theorem folderInFolderList_fst (config : FileIndexerConfig) (path : List QChar) :
    (config.folderInFolderList path).1 =
      lookup config.folderCache.entries (normalizeTrailingSlashes path) := by
  rw [FileIndexerConfig.folderInFolderList, lookup]
  split
  · next entry hfind => rw [hfind]; rfl
  · next hfind => rw [hfind]; rfl

theorem lookup_cons_found {start : List FolderConfig} (h : entry.path <+: path) :
    lookup (entry :: start) path = entry.isIncluded := by
  rw [lookup, List.find?_cons_of_pos (p := fun e : FolderConfig => e.path.isPrefixOf path)
    (List.isPrefixOf_iff_prefix.mpr h)]
  rfl

theorem lookup_cons_skipped {start : List FolderConfig} (h : ¬ entry.path <+: path) :
    lookup (entry :: start) path = lookup start path := by
  rw [lookup, List.find?_cons_of_neg (by simpa using h), lookup]

/-- In a path that begins with a longer entry, the entries are found as they are in that entry. -/
theorem lookup_inside {start : List FolderConfig} (h : entry.path <+: path)
    (hlength : ∀ e ∈ start, e.path.length ≤ entry.path.length) :
    lookup start path = lookup start entry.path := by
  have hsame : ∀ e ∈ start, e.path.isPrefixOf path = e.path.isPrefixOf entry.path := by
    intro e he
    rw [Bool.eq_iff_iff, List.isPrefixOf_iff_prefix, List.isPrefixOf_iff_prefix]
    exact ⟨fun hpre => List.prefix_of_prefix_length_le hpre h (hlength e he), fun hpre => hpre.trans h⟩
  rw [lookup, lookup, List.find?_congr hsame]

/-- An entry that goes says what the entries behind it say about its folder. -/
theorem lookup_cleanupLoop (hsorted : entries.Pairwise FolderConfig.Before) (path : List QChar) :
    lookup (cleanupLoop entries) path = lookup entries path := by
  induction entries with
  | nil => rfl
  | cons entry start ih =>
    obtain ⟨hentry, hstart⟩ := List.pairwise_cons.mp hsorted
    have hlength : ∀ e ∈ start, e.path.length ≤ entry.path.length := by
      intro e he
      rcases hentry e he with hlt | ⟨heq, -⟩
      · exact Nat.le_of_lt hlt
      · exact Nat.le_of_eq heq.symm
    have hkept : lookup (entry :: cleanupLoop start) path = lookup (entry :: start) path := by
      by_cases hpre : entry.path <+: path
      · rw [lookup_cons_found hpre, lookup_cons_found hpre]
      · rw [lookup_cons_skipped hpre, lookup_cons_skipped hpre, ih hstart]
    have hdropped : lookup start entry.path = entry.isIncluded →
        lookup (cleanupLoop start) path = lookup (entry :: start) path := by
      intro hsame
      rw [ih hstart]
      by_cases hpre : entry.path <+: path
      · rw [lookup_cons_found hpre, lookup_inside hpre hlength, hsame]
      · rw [lookup_cons_skipped hpre]
    rw [cleanupLoop]
    split
    · exact hkept
    · next hexcluded =>
      split
      · next parent hparent =>
        split
        · next hflag => exact hdropped (by rw [lookup, hparent, hflag]; rfl)
        · exact hkept
      · next hnone =>
        refine hdropped ?_
        rw [lookup, hnone, Bool.eq_false_iff.mpr hexcluded]
        rfl

end FolderCache

/-! ## The configured folders -/

namespace BalooSettings

section

variable (cleanPath : List QChar → List QChar) (allMedia : List Medium) (settings : BalooSettings)

/-- The folders that are excluded: those of the settings, and the mount paths of media that are not usable,
unless they are among the included folders. -/
def excluded : List (List QChar) :=
  settings.excludedFolders ++ ((allMedia.filter fun device =>
    !device.isUsable ∧ device.mountPath ≠ [] ∧ device.mountPath ∉ settings.folders).map Medium.mountPath)

/-- The folder of these components is included. -/
def Included (names : List (List QChar)) : Prop :=
  ∃ folder ∈ settings.folders, components (cleanPath folder) = names

/-- The folder of these components is configured, with this flag. -/
inductive Configured (names : List (List QChar)) : Bool → Prop
  /-- included folders -/
  | included : settings.Included cleanPath names → Configured names true
  /-- excluded folders that are not included as well -/
  | excluded {folder : List QChar} : ¬ settings.Included cleanPath names → folder ∈ settings.excluded allMedia →
    components (cleanPath folder) = names → Configured names false

/-- Of the configured folders with the property this one is the longest. -/
def Longest (P : List (List QChar) → Prop) (names : List (List QChar)) (isIncluded : Bool) : Prop :=
  settings.Configured cleanPath allMedia names isIncluded ∧ P names ∧
    ∀ names' isIncluded', settings.Configured cleanPath allMedia names' isIncluded' → P names' →
      names'.length ≤ names.length

/-- The flag of the longest configured folder with the property, `false` if there is none. -/
def FlagOf (P : List (List QChar) → Prop) (flag : Bool) : Prop :=
  (∃ names, settings.Longest cleanPath allMedia P names flag) ∨
    flag = false ∧ ∀ names isIncluded, settings.Configured cleanPath allMedia names isIncluded → ¬ P names

/-- The folders are absolute paths. -/
def Absolute : Prop :=
  ∀ folder ∈ settings.folders ++ settings.excluded allMedia, folder.head? = some separator

end

variable {cleanPath : List QChar → List QChar} {allMedia : List Medium} {settings : BalooSettings}
  {P : List (List QChar) → Prop} {names names' : List (List QChar)} {isIncluded isIncluded' : Bool}
  {path : List QChar}

theorem Configured.unique (h : settings.Configured cleanPath allMedia names isIncluded)
    (h' : settings.Configured cleanPath allMedia names isIncluded') : isIncluded = isIncluded' := by
  cases h with
  | included hincl =>
    cases h' with
    | included _ => rfl
    | excluded hnot _ _ => exact absurd hincl hnot
  | excluded hnot _ _ =>
    cases h' with
    | included hincl => exact absurd hincl hnot
    | excluded _ _ _ => rfl

theorem Configured.isName (h : settings.Configured cleanPath allMedia names isIncluded)
    (hclean : CleansPaths cleanPath) (habs : settings.Absolute allMedia) : ∀ name ∈ names, IsName name := by
  have hfolder : ∃ folder ∈ settings.folders ++ settings.excluded allMedia,
      components (cleanPath folder) = names := by
    cases h with
    | included hincl =>
      obtain ⟨folder, hmem, hnames⟩ := hincl
      exact ⟨folder, List.mem_append_left _ hmem, hnames⟩
    | @excluded folder _ hmem hnames => exact ⟨folder, List.mem_append_right _ hmem, hnames⟩
  obtain ⟨folder, hmem, rfl⟩ := hfolder
  obtain ⟨clean, hclean, heq⟩ := hclean folder (habs folder hmem)
  rw [heq, components_cleaned hclean]
  exact hclean

/-- Prefixes of one path are told apart by their lengths. -/
theorem FlagOf.unique {flag flag' : Bool} {all : List (List QChar)}
    (hP : ∀ names isIncluded, settings.Configured cleanPath allMedia names isIncluded → P names → names <+: all)
    (h : settings.FlagOf cleanPath allMedia P flag) (h' : settings.FlagOf cleanPath allMedia P flag') :
    flag = flag' := by
  rcases h with ⟨names, hconf, hnames, hmax⟩ | ⟨rfl, hnone⟩
  · rcases h' with ⟨names', hconf', hnames', hmax'⟩ | ⟨rfl, hnone⟩
    · have hle := hmax _ _ hconf' hnames'
      have hle' := hmax' _ _ hconf hnames
      have heq : names = names' :=
        (List.prefix_of_prefix_length_le (hP _ _ hconf hnames) (hP _ _ hconf' hnames') hle').eq_of_length
          (Nat.le_antisymm hle' hle)
      subst heq
      exact hconf.unique hconf'
    · exact absurd hnames (hnone _ _ hconf)
  · rcases h' with ⟨names', hconf', hnames', -⟩ | ⟨rfl, -⟩
    · exact absurd hnames' (hnone _ _ hconf')
    · rfl

/-- If some configured prefix has the property, there is a longest one. -/
theorem exists_longest {all : List (List QChar)} (hP : ∀ names, P names → names <+: all)
    (hconf : settings.Configured cleanPath allMedia names isIncluded) (hnames : P names) :
    ∃ names isIncluded, settings.Longest cleanPath allMedia P names isIncluded := by
  let lengths : Set ℕ := {n | ∃ names isIncluded,
    settings.Configured cleanPath allMedia names isIncluded ∧ P names ∧ names.length = n}
  have hbound : BddAbove lengths := by
    refine ⟨all.length, ?_⟩
    rintro _ ⟨names, _, -, hnames, rfl⟩
    exact (hP names hnames).length_le
  have hne : lengths.Nonempty := ⟨_, names, _, hconf, hnames, rfl⟩
  obtain ⟨longest, flag, hlongest, hproperty, hlength⟩ := Nat.sSup_mem hne hbound
  refine ⟨longest, flag, hlongest, hproperty, fun names' flag' hconf' hnames' => ?_⟩
  rw [hlength]
  exact le_csSup hbound ⟨names', flag', hconf', hnames', rfl⟩

theorem stored_components (hclean : CleansPaths cleanPath) {folder : List QChar}
    (hfolder : folder.head? = some separator) :
    stored (components (cleanPath folder)) = cleanPath folder ++ [separator] := by
  obtain ⟨names, hnames, heq⟩ := hclean folder hfolder
  rw [heq, components_cleaned hnames, stored]

/-- Before `cleanup` the cache holds exactly the configured folders. -/
theorem exists_uncleaned (hclean : CleansPaths cleanPath) (habs : settings.Absolute allMedia) :
    ∃ cache : FolderCache, FileIndexerConfig.buildFolderCache cleanPath settings allMedia = cache.cleanup ∧
      ∀ e, e ∈ cache.entries ↔
        ∃ names, settings.Configured cleanPath allMedia names e.isIncluded ∧ e.path = stored names := by
  have hne : ∀ folder ∈ settings.folders ++ settings.excluded allMedia, folder ≠ [] := by
    rintro folder hmem rfl
    cases habs [] hmem
  have hstored : ∀ folder ∈ settings.folders ++ settings.excluded allMedia,
      stored (components (cleanPath folder)) = cleanPath folder ++ [separator] :=
    fun folder hmem => stored_components hclean (habs folder hmem)
  let included := settings.folders.foldl
    (fun cache folder => cache.addFolderConfig cleanPath folder true) FolderCache.empty
  have hincluded : ∀ e, e ∈ included.entries ↔ e.isIncluded = true ∧
      ∃ folder ∈ settings.folders, e.path = cleanPath folder ++ [separator] := by
    intro e
    rw [FolderCache.mem_foldl_addFolderConfig cleanPath true _ _
      fun folder hmem => hne folder (List.mem_append_left _ hmem)]
    simp [FolderCache.empty]
  refine ⟨(settings.excluded allMedia).foldl
    (fun cache folder => cache.addFolderConfig cleanPath folder false) included, ?_, fun e => ?_⟩
  · rw [FileIndexerConfig.buildFolderCache, excluded, List.foldl_append, List.foldl_map, List.foldl_filter]
    simp only [decide_eq_true_eq, included]
  · rw [FolderCache.mem_foldl_addFolderConfig cleanPath false _ _
      fun folder hmem => hne folder (List.mem_append_right _ hmem), hincluded]
    constructor
    · rintro (⟨hflag, folder, hmem, hpath⟩ | ⟨hflag, ⟨folder, hmem, hpath⟩, hother⟩)
      · refine ⟨components (cleanPath folder), ?_, ?_⟩
        · rw [hflag]
          exact .included ⟨folder, hmem, rfl⟩
        · rw [hpath, hstored folder (List.mem_append_left _ hmem)]
      · refine ⟨components (cleanPath folder), ?_, ?_⟩
        · rw [hflag]
          refine .excluded ?_ hmem rfl
          rintro ⟨folder', hmem', hnames⟩
          refine hother ⟨e.path, true⟩ ((hincluded _).mpr ⟨rfl, folder', hmem', ?_⟩) rfl
          rw [hpath, ← hstored folder (List.mem_append_right _ hmem), ← hnames,
            hstored folder' (List.mem_append_left _ hmem')]
        · rw [hpath, hstored folder (List.mem_append_right _ hmem)]
    · rintro ⟨names, hconf, hpath⟩
      have hnames := hconf.isName hclean habs
      generalize hflag : e.isIncluded = flag at hconf
      cases hconf with
      | included hincl =>
        obtain ⟨folder, hmem, rfl⟩ := hincl
        exact .inl ⟨rfl, folder, hmem, by rw [hpath, hstored folder (List.mem_append_left _ hmem)]⟩
      | @excluded folder hnot hmem heq =>
        subst heq
        refine .inr ⟨rfl, ⟨folder, hmem, by rw [hpath, hstored folder (List.mem_append_right _ hmem)]⟩, ?_⟩
        intro e' he' heq
        obtain ⟨-, folder', hmem', hpath'⟩ := (hincluded e').mp he'
        refine hnot ⟨folder', hmem', ?_⟩
        obtain ⟨names', hnames', hclean'⟩ := hclean folder' (habs folder' (List.mem_append_left _ hmem'))
        have hcomponents : components (cleanPath folder') = names' := by rw [hclean', components_cleaned hnames']
        rw [hcomponents]
        refine stored_injective hnames' hnames ?_
        rw [← hpath, ← heq, hpath', stored, hclean']

/-- What the lookup finds, by the configured folders that are found in the path. -/
theorem flagOf_lookup (hclean : CleansPaths cleanPath) (habs : settings.Absolute allMedia)
    (exactMatch : List QChar → Bool) (path : List QChar) :
    settings.FlagOf cleanPath allMedia (Spelled path)
      ((FileIndexerConfig.load cleanPath settings allMedia exactMatch).folderInFolderList path).1 := by
  obtain ⟨cache, hcache, hmem⟩ := exists_uncleaned hclean habs
  rw [FolderCache.folderInFolderList_fst]
  have hlookup : FolderCache.lookup
      (FileIndexerConfig.load cleanPath settings allMedia exactMatch).folderCache.entries
        (normalizeTrailingSlashes path) = FolderCache.lookup cache.entries (normalizeTrailingSlashes path) := by
    rw [← FolderCache.lookup_cleanupLoop cache.sorted]
    exact congrArg (fun c => FolderCache.lookup c.entries _) hcache
  rw [hlookup, FolderCache.lookup]
  rcases hfind : cache.entries.find? fun entry =>
      entry.path.isPrefixOf (normalizeTrailingSlashes path) with _ | entry
  · rw [hfind]
    refine .inr ⟨rfl, fun names flag hconf hspelled => ?_⟩
    exact List.find?_eq_none.mp hfind ⟨stored names, flag⟩ ((hmem _).mpr ⟨names, hconf, rfl⟩)
      (List.isPrefixOf_iff_prefix.mpr hspelled)
  · obtain ⟨hentry, hprefix, hmax⟩ := FileIndexerConfig.find?_decides cache.sorted hfind
    obtain ⟨names, hconf, hpath⟩ := (hmem entry).mp hentry
    rw [hfind]
    refine .inl ⟨names, hconf, ?_, fun names' flag' hconf' hspelled' => ?_⟩
    · rw [Spelled, ← hpath]
      exact hprefix
    · -- the longest string has the most components
      have hle : (stored names').length ≤ (stored names).length := by
        rw [← hpath]
        exact hmax ⟨stored names', flag'⟩ ((hmem _).mpr ⟨names', hconf', rfl⟩) hspelled'
      have hpre : stored names' <+: stored names := by
        rw [← hpath]
        exact List.prefix_of_prefix_length_le hspelled' hprefix (hpath ▸ hle)
      obtain ⟨rest, hrest⟩ := hpre
      have hnames' := components_stored (hconf'.isName hclean habs)
      rw [← components_stored (hconf.isName hclean habs), ← hrest, stored,
        components_append (closed_concat _), ← stored, hnames', List.length_append]
      exact Nat.le_add_right _ _

end BalooSettings

open BalooSettings in
/-- **Folders and their configuration.** `folderInFolderList` gives the flag of the longest configured folder
that is the path or one of its ancestors, and `cleanup` changes nothing about that, exactly if this folder is
found in the path as it is stored, or has the flag of the longest folder that is. -/
theorem folder_lookup {cleanPath : List QChar → List QChar} (hclean : CleansPaths cleanPath)
    {settings : BalooSettings} {allMedia : List Medium} (habs : settings.Absolute allMedia)
    (exactMatch : List QChar → Bool) (path : List QChar) :
    (settings.FlagOf cleanPath allMedia (· <+: components path)
        ((FileIndexerConfig.load cleanPath settings allMedia exactMatch).folderInFolderList path).1 ∧
      ∀ config : FileIndexerConfig,
        ({ config with folderCache := config.folderCache.cleanup }.folderInFolderList path).1 =
          (config.folderInFolderList path).1) ↔
    ∀ names isIncluded, settings.Longest cleanPath allMedia (· <+: components path) names isIncluded →
      ¬ Spelled path names → settings.FlagOf cleanPath allMedia (Spelled path) isIncluded := by
  have hfound := flagOf_lookup hclean habs exactMatch path
  have hspelled : ∀ names flag, settings.Configured cleanPath allMedia names flag → Spelled path names →
      names <+: components path := fun names flag hconf h => h.inside (hconf.isName hclean habs)
  have hinside : ∀ names flag, settings.Configured cleanPath allMedia names flag →
      names <+: components path → names <+: components path := fun _ _ _ h => h
  constructor
  · rintro ⟨hflag, -⟩ names flag hlongest -
    rw [FlagOf.unique hinside (.inl ⟨names, hlongest⟩) hflag]
    exact hfound
  · intro hcond
    refine ⟨?_, fun config => ?_⟩
    · by_cases hex : ∃ names flag, settings.Configured cleanPath allMedia names flag ∧ names <+: components path
      · obtain ⟨names, flag, hconf, hpre⟩ := hex
        obtain ⟨longest, flag, hlongest⟩ := exists_longest (fun _ h => h) hconf hpre
        have hfound' : settings.FlagOf cleanPath allMedia (Spelled path) flag := by
          by_cases hspell : Spelled path longest
          · exact .inl ⟨longest, hlongest.1, hspell, fun names' flag' hconf' h =>
              hlongest.2.2 names' flag' hconf' (hspelled names' flag' hconf' h)⟩
          · exact hcond longest flag hlongest hspell
        rw [FlagOf.unique hspelled hfound hfound']
        exact .inl ⟨longest, hlongest⟩
      · have hnone : ∀ names flag, settings.Configured cleanPath allMedia names flag →
            ¬ names <+: components path := fun names flag hconf hpre => hex ⟨names, flag, hconf, hpre⟩
        have hfalse : settings.FlagOf cleanPath allMedia (Spelled path) false :=
          .inr ⟨rfl, fun names flag hconf h => hnone names flag hconf (hspelled names flag hconf h)⟩
        rw [FlagOf.unique hspelled hfound hfalse]
        exact .inr ⟨rfl, hnone⟩
    · rw [FolderCache.folderInFolderList_fst, FolderCache.folderInFolderList_fst]
      exact FolderCache.lookup_cleanupLoop config.folderCache.sorted _

/-! ## The root -/

/-- `QDir::cleanPath` of a path without dots. -/
def rejoined (path : List QChar) : List QChar := cleaned (components path)

theorem separator_notMem_split {s name : List QChar} (h : name ∈ split s) : separator ∉ name := by
  induction s generalizing name with
  | nil =>
    rw [split, List.mem_singleton] at h
    subst h
    exact List.not_mem_nil
  | cons c s ih =>
    rw [split] at h
    split at h
    · cases h
    · next part parts hsplit =>
      rw [hsplit] at ih
      split at h
      · rcases List.mem_cons.mp h with rfl | h
        · exact List.not_mem_nil
        · exact ih h
      · next hc =>
        rcases List.mem_cons.mp h with rfl | h
        · rw [List.mem_cons, not_or]
          exact ⟨Ne.symm hc, ih List.mem_cons_self⟩
        · exact ih (List.mem_cons_of_mem _ h)

theorem cleansPaths_rejoined : CleansPaths rejoined := by
  intro path _
  refine ⟨components path, fun name hname => ?_, rfl⟩
  obtain ⟨hmem, hne⟩ := List.mem_filter.mp hname
  exact ⟨of_decide_eq_true hne, separator_notMem_split hmem⟩

/-- `/a` is included, `/a/b` is not. -/
def includeA : BalooSettings where
  folders := [[separator, 97]]
  excludedFolders := [[separator, 97, separator, 98]]
  indexHiddenFolders := false

/-- The decision about `/a/c`. -/
theorem folder_lookup_includeA : includeA.FlagOf rejoined [] (· <+: components [separator, 97, separator, 99])
    ((FileIndexerConfig.load rejoined includeA [] fun _ => false).folderInFolderList
      [separator, 97, separator, 99]).1 ∧
    ∀ config : FileIndexerConfig,
      ({ config with folderCache := config.folderCache.cleanup }.folderInFolderList [separator, 97, separator, 99]).1 =
        (config.folderInFolderList [separator, 97, separator, 99]).1 := by
  have habs : includeA.Absolute [] := by
    unfold BalooSettings.Absolute
    decide
  refine (folder_lookup cleansPaths_rejoined habs _ _).mpr ?_
  rintro names flag ⟨hconf, hpre, -⟩ hnot
  cases hconf with
  | included hincl =>
    obtain ⟨folder, hmem, rfl⟩ := hincl
    rw [List.mem_singleton.mp hmem] at hnot
    exact absurd (by rw [Spelled, ← List.isPrefixOf_iff_prefix]; decide) hnot
  | @excluded folder _ hmem hnames =>
    subst hnames
    rw [List.mem_singleton.mp hmem, ← List.isPrefixOf_iff_prefix] at hpre
    exact absurd hpre (by decide)

/-- Everything is included. -/
def includeRoot : BalooSettings where
  folders := [[separator]]
  excludedFolders := []
  indexHiddenFolders := false

/-- The root is included, but nothing in it is found in it. -/
theorem root_not_found : ¬ includeRoot.FlagOf rejoined [] (· <+: components [separator, 104])
    ((FileIndexerConfig.load rejoined includeRoot [] fun _ => false).folderInFolderList [separator, 104]).1 := by
  have hfalse : ((FileIndexerConfig.load rejoined includeRoot [] fun _ => false).folderInFolderList
      [separator, 104]).1 = false := by decide
  rw [hfalse]
  rintro (⟨names, hconf, -⟩ | ⟨-, hnone⟩)
  · cases hconf with
    | excluded _ hmem _ => cases hmem
  · have hroot : includeRoot.Configured rejoined [] [] true :=
      .included ⟨[separator], List.mem_singleton_self _, rfl⟩
    exact hnone [] true hroot List.nil_prefix

end Baloo
