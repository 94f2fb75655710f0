import Baloo.FolderLookup

/-!
# Folders that can be searched

`canBeSearched` is to say whether a folder, or a folder below it, is indexed. It asks about
`QFileInfo::absolutePath` instead, which is the folder itself only if the path ends with a slash and the
directory above otherwise, and then looks for included folders whose paths begin with that string, whether or
not a component ends there. So it never refuses a folder that can be searched, but it offers others
(`can_be_searched_iff`).
-/

namespace Baloo

open FileIndexerConfig (components Decides passes_append shouldFolderBeIndexed_iff)

/-- `FileIndexerConfig::canBeSearched`; `isDir` is `QFileInfo::isDir`. -/
def FileIndexerConfig.canBeSearched (config : FileIndexerConfig) (isDir : List QChar → Bool)
    (folder : List QChar) : Bool :=
  let path := absolutePath folder
  if !isDir folder then false
  else if config.shouldFolderBeIndexed path then true
  -- look for included descendants
  else config.folderCache.entries.any fun entry => entry.isIncluded && path.isPrefixOf entry.path

/-! ## Paths of directories -/

/-- A directory is given with or without a slash at the end. -/
def given (dir : List (List QChar)) (slash : Bool) : List QChar :=
  if slash = true ∧ dir ≠ [] then stored dir else cleaned dir

/-- The directory `QFileInfo::absolutePath` gives. -/
def above (dir : List (List QChar)) (slash : Bool) : List (List QChar) := if slash then dir else dir.dropLast

/-- The folder is, or lies in, this one or one beside it whose name begins with its name. -/
def Begins (dir names : List (List QChar)) : Prop :=
  dir = [] ∨ ∃ parent name name', dir = parent ++ [name] ∧ name <+: name' ∧ parent ++ [name'] <+: names

theorem begins_of_prefix {dir names : List (List QChar)} (h : dir <+: names) : Begins dir names := by
  rcases List.eq_nil_or_concat' dir with rfl | ⟨parent, name, rfl⟩
  · exact .inl rfl
  · exact .inr ⟨parent, name, name, rfl, List.prefix_rfl, h⟩

/-- The components, each with a slash behind it. -/
def closed (names : List (List QChar)) : List QChar := (names.map (· ++ [separator])).flatten

variable {dir names parent : List (List QChar)} {name : List QChar} {slash : Bool}

theorem flatten_concat (names : List (List QChar)) :
    (names.map (separator :: ·)).flatten ++ [separator] = separator :: closed names := by
  induction names with
  | nil => rfl
  | cons name names ih =>
    rw [List.map_cons, List.flatten_cons, List.append_assoc, ih, closed, closed, List.map_cons,
      List.flatten_cons]
    simp

theorem cleaned_concat (parent : List (List QChar)) (name : List QChar) :
    cleaned (parent ++ [name]) = separator :: (closed parent ++ name) := by
  have hshape : cleaned (parent ++ [name]) = (parent.map (separator :: ·)).flatten ++ [separator] ++ name := by
    rw [cleaned, if_neg (by simp)]
    simp
  rw [hshape, flatten_concat, List.cons_append]

theorem stored_of_ne_nil (h : names ≠ []) : stored names = separator :: closed names := by
  rw [stored, cleaned, if_neg h, flatten_concat]

theorem closed_eq (names : List (List QChar)) : Closed (separator :: closed names) := by
  rw [← flatten_concat]
  exact closed_concat _

theorem absolutePath_stored (h : dir ≠ []) : absolutePath (stored dir) = cleaned dir := by
  have hne : cleaned dir ≠ [] := by
    obtain ⟨parent, name, rfl⟩ := (List.eq_nil_or_concat' dir).resolve_left h
    rw [cleaned_concat]
    exact List.cons_ne_nil _ _
  have hparent : ((stored dir).reverse.dropWhile (· ≠ separator)).reverse.dropLast = cleaned dir := by
    rw [stored, List.reverse_append, List.reverse_singleton, List.singleton_append,
      List.dropWhile_cons_of_neg (by simp), List.reverse_cons, List.reverse_reverse, List.dropLast_concat]
  rw [absolutePath, hparent]
  split
  · next hnil => exact absurd hnil hne
  · rfl

theorem absolutePath_cleaned (h : IsName name) (parent : List (List QChar)) :
    absolutePath (cleaned (parent ++ [name])) = cleaned parent := by
  have hname : ∀ c ∈ name.reverse, decide (c ≠ separator) = true := by
    intro c hc
    rw [decide_eq_true_eq]
    rintro rfl
    exact h.2 (List.mem_reverse.mp hc)
  have hparent : ((cleaned (parent ++ [name])).reverse.dropWhile (· ≠ separator)).reverse.dropLast =
      (parent.map (separator :: ·)).flatten := by
    rw [cleaned_concat, ← List.cons_append, ← flatten_concat, List.reverse_append,
      List.dropWhile_append_of_pos hname, List.reverse_append, List.reverse_singleton, List.singleton_append,
      List.dropWhile_cons_of_neg (by simp), List.reverse_cons, List.reverse_reverse, List.dropLast_concat]
  rw [absolutePath, hparent]
  rcases eq_or_ne parent [] with rfl | hne
  · rw [cleaned_concat]
    rfl
  · have hclean : cleaned parent = (parent.map (separator :: ·)).flatten := if_neg hne
    rw [hclean]
    split
    · next hnil =>
      obtain ⟨n, parent, rfl⟩ := List.exists_cons_of_ne_nil hne
      cases hnil
    · rfl

theorem absolutePath_given (hdir : ∀ name ∈ dir, IsName name) :
    absolutePath (given dir slash) = cleaned (above dir slash) := by
  rcases List.eq_nil_or_concat' dir with rfl | ⟨parent, name, rfl⟩
  · have hroot : given [] slash = [separator] := if_neg fun h => h.2 rfl
    have habove : above [] slash = [] := by cases slash <;> rfl
    rw [hroot, habove]
    rfl
  · have hne : parent ++ [name] ≠ [] := by simp
    cases slash with
    | true =>
      rw [given, if_pos ⟨rfl, hne⟩, absolutePath_stored hne]
      rfl
    | false =>
      have hname := hdir name (List.mem_append_right _ (List.mem_singleton_self name))
      have habove : above (parent ++ [name]) false = parent := List.dropLast_concat
      rw [given, if_neg (fun h => Bool.false_ne_true h.1), absolutePath_cleaned hname, habove]

theorem normalize_cleaned (hdir : ∀ name ∈ dir, IsName name) :
    normalizeTrailingSlashes (cleaned dir) = separator :: closed dir := by
  rcases List.eq_nil_or_concat' dir with rfl | ⟨parent, name, rfl⟩
  · rfl
  · have hname := hdir name (List.mem_append_right _ (List.mem_singleton_self name))
    rw [cleaned_concat, ← List.cons_append, normalizeTrailingSlashes_append_name hname]
    simp [closed]

theorem normalize_closed (hdir : ∀ name ∈ dir, IsName name) :
    normalizeTrailingSlashes (separator :: closed dir) = separator :: closed dir := by
  rcases eq_or_ne dir [] with rfl | hne
  · rfl
  · have hclean : cleaned dir = (dir.map (separator :: ·)).flatten := if_neg hne
    rw [← flatten_concat, normalizeTrailingSlashes_concat, ← hclean, normalize_cleaned hdir, hclean, flatten_concat]

/-! ## Strings that begin with strings -/

/-- Up to the first slash, the strings agree. -/
theorem prefix_slash_iff {p n u v : List QChar} (hp : separator ∉ p) (hn : separator ∉ n) :
    p ++ separator :: u <+: n ++ separator :: v ↔ p = n ∧ u <+: v := by
  induction p generalizing n with
  | nil =>
    cases n with
    | nil => simp
    | cons c n =>
      have hc : separator ≠ c := fun h => hn (h ▸ List.mem_cons_self)
      simp [hc]
  | cons c p ih =>
    rw [List.mem_cons, not_or] at hp
    cases n with
    | nil =>
      have hc : c ≠ separator := Ne.symm hp.1
      simp [hc]
    | cons d n =>
      rw [List.mem_cons, not_or] at hn
      rw [List.cons_append, List.cons_append, List.cons_prefix_cons, ih hp.2 hn.2, List.cons.injEq, and_assoc]

theorem prefix_name_iff {p n v : List QChar} (hp : separator ∉ p) : p <+: n ++ separator :: v ↔ p <+: n := by
  refine ⟨fun h => ?_, fun h => h.trans (List.prefix_append _ _)⟩
  rcases Nat.lt_or_ge n.length p.length with hlt | hge
  · -- the slash would be part of the name
    have hlonger : n ++ [separator] <+: p :=
      List.prefix_of_prefix_length_le ⟨v, by simp⟩ h (by rw [List.length_append]; exact hlt)
    exact absurd (hlonger.subset (by simp)) hp
  · exact List.prefix_of_prefix_length_le h (List.prefix_append _ _) hge

theorem closed_prefix_iff (hparent : ∀ n ∈ parent, separator ∉ n) (hname : separator ∉ name)
    (hne : name ≠ []) (hnames : ∀ n ∈ names, separator ∉ n) :
    closed parent ++ name <+: closed names ↔ ∃ name', name <+: name' ∧ parent ++ [name'] <+: names := by
  induction parent generalizing names with
  | nil =>
    cases names with
    | nil => simp [closed, hne]
    | cons n names =>
      have hshape : closed (n :: names) = n ++ separator :: closed names := by simp [closed]
      rw [hshape, closed, List.map_nil, List.flatten_nil, List.nil_append, prefix_name_iff hname]
      simp
  | cons p parent ih =>
    obtain ⟨hp, hparent⟩ := List.forall_mem_cons.mp hparent
    have hshape : closed (p :: parent) ++ name = p ++ separator :: (closed parent ++ name) := by simp [closed]
    rw [hshape]
    cases names with
    | nil => simp [closed]
    | cons n names =>
      obtain ⟨hn, hnames⟩ := List.forall_mem_cons.mp hnames
      have hshape' : closed (n :: names) = n ++ separator :: closed names := by simp [closed]
      rw [hshape', prefix_slash_iff hp hn, ih hparent hnames]
      simp only [List.cons_append, List.cons_prefix_cons]
      constructor
      · rintro ⟨rfl, name', hpre, hmore⟩
        exact ⟨name', hpre, rfl, hmore⟩
      · rintro ⟨name', hpre, rfl, hmore⟩
        exact ⟨rfl, name', hpre, hmore⟩

/-- When the path of a folder begins with that of a directory. -/
theorem cleaned_prefix_iff (hdir : ∀ name ∈ dir, IsName name) (hnames : ∀ name ∈ names, IsName name)
    (hne : names ≠ []) : cleaned dir <+: stored names ↔ Begins dir names := by
  rw [stored_of_ne_nil hne]
  rcases List.eq_nil_or_concat' dir with rfl | ⟨parent, name, rfl⟩
  · refine ⟨fun _ => .inl rfl, fun _ => ?_⟩
    exact ⟨closed names, rfl⟩
  · obtain ⟨hparent, hname⟩ := List.forall_mem_append.mp hdir
    have hname := hname name (List.mem_singleton_self name)
    rw [cleaned_concat, List.cons_prefix_cons, closed_prefix_iff (fun n hn => (hparent n hn).2) hname.2
      hname.1 fun n hn => (hnames n hn).2]
    constructor
    · rintro ⟨-, name', hpre, hmore⟩
      exact .inr ⟨parent, name, name', rfl, hpre, hmore⟩
    · rintro (hnil | ⟨parent', n, name', heq, hpre, hmore⟩)
      · simp at hnil
      · obtain ⟨rfl, hn⟩ := List.append_inj' heq rfl
        obtain rfl := (List.cons.inj hn).1
        exact ⟨rfl, name', hpre, hmore⟩

/-! ## What `canBeSearched` answers -/

/-- No included folder gets lost. -/
theorem FolderCache.mem_cleanupLoop {entries : List FolderConfig} {e : FolderConfig} (h : e.isIncluded = true) :
    e ∈ FolderCache.cleanupLoop entries ↔ e ∈ entries := by
  refine ⟨fun he => (FolderCache.cleanupLoop_sublist entries).subset he, fun he => ?_⟩
  induction entries with
  | nil => cases he
  | cons entry start ih =>
    have hkept : e ∈ entry :: FolderCache.cleanupLoop start :=
      (List.mem_cons.mp he).elim (fun heq => heq ▸ List.mem_cons_self) fun he => List.mem_cons_of_mem _ (ih he)
    have hdropped : entry.isIncluded ≠ true → e ∈ FolderCache.cleanupLoop start := by
      intro hexcluded
      rcases List.mem_cons.mp he with rfl | he
      · exact absurd h hexcluded
      · exact ih he
    rw [FolderCache.cleanupLoop]
    split
    · exact hkept
    · next hexcluded =>
      split
      · split
        · exact hdropped hexcluded
        · exact hkept
      · exact hdropped hexcluded

namespace BalooSettings

variable {cleanPath : List QChar → List QChar} {allMedia : List Medium} {settings : BalooSettings}
  {exactMatch : List QChar → Bool} {isDir : List QChar → Bool}

/-- No configured folder is the root. -/
def NoRoot (cleanPath : List QChar → List QChar) (allMedia : List Medium) (settings : BalooSettings) : Prop :=
  ∀ folder ∈ settings.folders ++ settings.excluded allMedia, components (cleanPath folder) ≠ []

theorem mem_load_included (hclean : CleansPaths cleanPath) (habs : settings.Absolute allMedia) {e : FolderConfig}
    (h : e.isIncluded = true) :
    e ∈ (FileIndexerConfig.load cleanPath settings allMedia exactMatch).folderCache.entries ↔
      ∃ names, settings.Included cleanPath names ∧ e.path = stored names := by
  obtain ⟨cache, hcache, hmem⟩ := exists_uncleaned hclean habs
  have hentries : (FileIndexerConfig.load cleanPath settings allMedia exactMatch).folderCache.entries =
      FolderCache.cleanupLoop cache.entries := congrArg FolderCache.entries hcache
  rw [hentries, FolderCache.mem_cleanupLoop h, hmem, h]
  constructor
  · rintro ⟨names, hconf, hpath⟩
    cases hconf with
    | included hincl => exact ⟨names, hincl, hpath⟩
  · rintro ⟨names, hincl, hpath⟩
    exact ⟨names, .included hincl, hpath⟩

theorem Included.isName (h : settings.Included cleanPath names) (hclean : CleansPaths cleanPath)
    (habs : settings.Absolute allMedia) : ∀ name ∈ names, IsName name :=
  Configured.isName (.included h) hclean habs

theorem Included.ne_nil (h : settings.Included cleanPath names) (hroot : settings.NoRoot cleanPath allMedia) :
    names ≠ [] := by
  obtain ⟨folder, hmem, rfl⟩ := h
  exact hroot folder (List.mem_append_left _ hmem)

/-- The folder should be indexed, or an included folder is below it. -/
def Offers (cleanPath : List QChar → List QChar) (settings : BalooSettings) (config : FileIndexerConfig)
    (dir : List (List QChar)) : Prop :=
  config.shouldFolderBeIndexed (cleaned dir) = true ∨
    ∃ names, settings.Included cleanPath names ∧ dir <+: names ∧ names ≠ dir

theorem canBeSearched_eq (hclean : CleansPaths cleanPath) (habs : settings.Absolute allMedia)
    (hroot : settings.NoRoot cleanPath allMedia) (hdir : ∀ name ∈ dir, IsName name)
    (hexists : isDir (given dir slash) = true) :
    (FileIndexerConfig.load cleanPath settings allMedia exactMatch).canBeSearched isDir (given dir slash) = true ↔
      (FileIndexerConfig.load cleanPath settings allMedia exactMatch).shouldFolderBeIndexed
          (cleaned (above dir slash)) = true ∨
        ∃ names, settings.Included cleanPath names ∧ Begins (above dir slash) names := by
  have habove : ∀ name ∈ above dir slash, IsName name := by
    intro name hname
    cases slash with
    | true => exact hdir name hname
    | false => exact hdir name (List.mem_of_mem_dropLast hname)
  have hany : (FileIndexerConfig.load cleanPath settings allMedia exactMatch).folderCache.entries.any (fun entry =>
      entry.isIncluded && (cleaned (above dir slash)).isPrefixOf entry.path) = true ↔
      ∃ names, settings.Included cleanPath names ∧ Begins (above dir slash) names := by
    rw [List.any_eq_true]
    constructor
    · rintro ⟨e, he, h⟩
      rw [Bool.and_eq_true, List.isPrefixOf_iff_prefix] at h
      obtain ⟨names, hincl, hpath⟩ := (mem_load_included hclean habs h.1).mp he
      exact ⟨names, hincl, (cleaned_prefix_iff habove (hincl.isName hclean habs) (hincl.ne_nil hroot)).mp
        (hpath ▸ h.2)⟩
    · rintro ⟨names, hincl, hbegins⟩
      refine ⟨⟨stored names, true⟩, (mem_load_included hclean habs rfl).mpr ⟨names, hincl, rfl⟩, ?_⟩
      rw [Bool.and_eq_true, List.isPrefixOf_iff_prefix]
      exact ⟨rfl, (cleaned_prefix_iff habove (hincl.isName hclean habs) (hincl.ne_nil hroot)).mpr hbegins⟩
  rw [FileIndexerConfig.canBeSearched, absolutePath_given hdir, hexists, ← hany]
  cases (FileIndexerConfig.load cleanPath settings allMedia exactMatch).shouldFolderBeIndexed
    (cleaned (above dir slash)) with
  | true => simp
  | false => simp

/-- A folder that should be indexed is included itself, or the directory above it should be indexed. -/
theorem indexed_above (hclean : CleansPaths cleanPath) (habs : settings.Absolute allMedia)
    (hparent : ∀ n ∈ parent, IsName n) (hname : IsName name)
    (h : (FileIndexerConfig.load cleanPath settings allMedia exactMatch).shouldFolderBeIndexed
      (cleaned (parent ++ [name])) = true) :
    settings.Included cleanPath (parent ++ [name]) ∨
      (FileIndexerConfig.load cleanPath settings allMedia exactMatch).shouldFolderBeIndexed (cleaned parent) =
        true := by
  have hdir : ∀ n ∈ parent ++ [name], IsName n :=
    List.forall_mem_append.mpr ⟨hparent, fun n hn => List.mem_singleton.mp hn ▸ hname⟩
  have hchild : separator :: closed (parent ++ [name]) = separator :: closed parent ++ name ++ [separator] := by
    simp [closed]
  have hsame : ∀ {dir : List (List QChar)}, (∀ n ∈ dir, IsName n) →
      (FileIndexerConfig.load cleanPath settings allMedia exactMatch).shouldFolderBeIndexed (cleaned dir) =
        (FileIndexerConfig.load cleanPath settings allMedia exactMatch).shouldFolderBeIndexed
          (separator :: closed dir) := fun hdir =>
    FileIndexerConfig.shouldFolderBeIndexed_congr ((normalize_cleaned hdir).trans (normalize_closed hdir).symm)
  rw [hsame hdir, shouldFolderBeIndexed_iff (normalize_closed hdir)] at h
  obtain ⟨entry, hdecides, hincl, hpasses⟩ := h
  rw [hchild] at hdecides hpasses
  rcases FilteredDirIterator.decides_child hname hdecides with hpath | hdecides'
  · obtain ⟨names, hincluded, hstored⟩ := (mem_load_included hclean habs hincl).mp hdecides.1
    rw [hpath, ← hchild, ← stored_of_ne_nil (by simp)] at hstored
    rw [stored_injective hdir (hincluded.isName hclean habs) hstored]
    exact .inl hincluded
  · refine .inr ?_
    rw [hsame hparent, shouldFolderBeIndexed_iff (normalize_closed hparent)]
    refine ⟨entry, hdecides', hincl, ?_⟩
    have hle : entry.path.length ≤ (separator :: closed parent).length := hdecides'.2.1.length_le
    have hclosed : Closed ((separator :: closed parent).drop entry.path.length) :=
      (closed_eq parent).drop _
    rw [List.append_assoc, List.drop_append_of_le_length hle, passes_append hclosed] at hpasses
    exact hpasses.1

/-- A folder that can be searched is not refused. -/
theorem Offers.found (hclean : CleansPaths cleanPath) (habs : settings.Absolute allMedia)
    (hdir : ∀ name ∈ dir, IsName name) (slash : Bool)
    (h : settings.Offers cleanPath (FileIndexerConfig.load cleanPath settings allMedia exactMatch) dir) :
    (FileIndexerConfig.load cleanPath settings allMedia exactMatch).shouldFolderBeIndexed
        (cleaned (above dir slash)) = true ∨
      ∃ names, settings.Included cleanPath names ∧ Begins (above dir slash) names := by
  have hbelow : above dir slash <+: dir := by
    cases slash with
    | true => exact List.prefix_rfl
    | false => exact List.dropLast_prefix dir
  rcases h with hindexed | ⟨names, hincl, hpre, -⟩
  · rcases List.eq_nil_or_concat' dir with rfl | ⟨parent, name, rfl⟩
    · have hroot : above [] slash = [] := by cases slash <;> rfl
      rw [hroot]
      exact .inl hindexed
    · cases slash with
      | true => exact .inl hindexed
      | false =>
        have habove : above (parent ++ [name]) false = parent := List.dropLast_concat
        obtain ⟨hparent, hname⟩ := List.forall_mem_append.mp hdir
        rw [habove]
        rcases indexed_above hclean habs hparent (hname name (List.mem_singleton_self name)) hindexed with
          hincl | hindexed
        · exact .inr ⟨_, hincl, begins_of_prefix (List.prefix_append _ _)⟩
        · exact .inl hindexed
  · exact .inr ⟨names, hincl, begins_of_prefix (hbelow.trans hpre)⟩

end BalooSettings

open BalooSettings in
/-- **Folders that can be searched.** `canBeSearched` says whether the folder should be indexed or an included
folder is below it, exactly if, when neither is the case, the directory of `absolutePath` should not be indexed
and the path of no included folder begins with it. -/
theorem can_be_searched {cleanPath : List QChar → List QChar} (hclean : CleansPaths cleanPath)
    {settings : BalooSettings} {allMedia : List Medium} (habs : settings.Absolute allMedia)
    (hroot : settings.NoRoot cleanPath allMedia) (exactMatch : List QChar → Bool) {isDir : List QChar → Bool}
    {dir : List (List QChar)} (hdir : ∀ name ∈ dir, IsName name) {slash : Bool}
    (hexists : isDir (given dir slash) = true) :
    ((FileIndexerConfig.load cleanPath settings allMedia exactMatch).canBeSearched isDir (given dir slash) = true ↔
      settings.Offers cleanPath (FileIndexerConfig.load cleanPath settings allMedia exactMatch) dir) ↔
    (¬ settings.Offers cleanPath (FileIndexerConfig.load cleanPath settings allMedia exactMatch) dir →
      (FileIndexerConfig.load cleanPath settings allMedia exactMatch).shouldFolderBeIndexed
          (cleaned (above dir slash)) = false ∧
        ∀ names, settings.Included cleanPath names → ¬ Begins (above dir slash) names) := by
  have hfound := @Offers.found dir cleanPath allMedia settings exactMatch hclean habs hdir slash
  rw [canBeSearched_eq hclean habs hroot hdir hexists]
  constructor
  · intro heq hnot
    have hnone := mt heq.mp hnot
    rw [not_or] at hnone
    exact ⟨Bool.eq_false_iff.mpr hnone.1, fun names hincl hbegins => hnone.2 ⟨names, hincl, hbegins⟩⟩
  · refine fun hcond => ⟨fun hyes => ?_, hfound⟩
    by_contra hnot
    obtain ⟨hindexed, hnone⟩ := hcond hnot
    rcases hyes with hyes | ⟨names, hincl, hbegins⟩
    · rw [hindexed] at hyes
      cases hyes
    · exact hnone names hincl hbegins

/-- `/a/b` is a directory in an included folder, given with a slash. -/
theorem can_be_searched_includeA :
    ((FileIndexerConfig.load rejoined includeA [] fun _ => false).canBeSearched (fun _ => true)
        (given [[97]] true) = true ↔
      includeA.Offers rejoined (FileIndexerConfig.load rejoined includeA [] fun _ => false) [[97]]) := by
  have habs : includeA.Absolute [] := by
    unfold BalooSettings.Absolute
    decide
  have hroot : includeA.NoRoot rejoined [] := by
    unfold BalooSettings.NoRoot
    decide
  refine (can_be_searched cleansPaths_rejoined habs hroot (fun _ => false) ?_ rfl).mpr ?_
  · intro name hname
    rw [List.mem_singleton.mp hname]
    exact ⟨by decide, by decide⟩
  · exact fun hnot => absurd (.inl (by decide)) hnot

/-- Only `/ab` is included. -/
def includeAb : BalooSettings where
  folders := [[separator, 97, 98]]
  excludedFolders := []
  indexHiddenFolders := false

/-- `/a` is not to be indexed, and nothing below it is included; but `/ab` begins with `/a`. -/
theorem sibling_offered :
    ¬ ((FileIndexerConfig.load rejoined includeAb [] fun _ => false).canBeSearched (fun _ => true)
        (given [[97]] true) = true ↔
      includeAb.Offers rejoined (FileIndexerConfig.load rejoined includeAb [] fun _ => false) [[97]]) := by
  intro h
  have hoffers := h.mp (by decide)
  rcases hoffers with hindexed | ⟨names, ⟨folder, hmem, rfl⟩, hpre, -⟩
  · exact absurd hindexed (by decide)
  · rw [List.mem_singleton.mp hmem, ← List.isPrefixOf_iff_prefix] at hpre
    exact absurd hpre (by decide)

end Baloo
