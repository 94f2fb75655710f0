import Baloo.FilteredDirIterator

/-!
# Which folder decides

The longest configured folder that is a prefix of a directory decides about it, and the components of
the rest of the path have to pass the filters. So a directory that is not configured itself is to be
indexed if its parent directory is and its own name passes, which is what the directory iterator
checks on its way down (`accepts_dir`).
-/

namespace Baloo

/-! ## Components of paths -/

/-- A name of a file or directory. -/
def IsName (name : List QChar) : Prop := name ≠ [] ∧ separator ∉ name

/-- The string is empty or ends with a slash. -/
def Closed (s : List QChar) : Prop := s = [] ∨ s.getLast? = some separator

theorem Closed.cases {s : List QChar} (h : Closed s) : s = [] ∨ ∃ s', s = s' ++ [separator] := by
  rcases h with h | h
  · exact Or.inl h
  · exact Or.inr (List.getLast?_eq_some_iff.mp h)

/-- What is left of it behind some characters ends with the slash too. -/
theorem Closed.drop {s : List QChar} (h : Closed s) (n : ℕ) : Closed (s.drop n) := by
  rcases h with rfl | hlast
  · exact Or.inl List.drop_nil
  · rcases eq_or_ne (s.drop n) [] with hnil | hnil
    · exact Or.inl hnil
    · refine Or.inr ?_
      rw [← hlast, ← List.take_append_drop n s, List.getLast?_append_of_ne_nil _ hnil, List.take_append_drop]

theorem closed_concat (s : List QChar) : Closed (s ++ [separator]) := Or.inr List.getLast?_concat

namespace FileIndexerConfig

theorem split_ne_nil (s : List QChar) : split s ≠ [] := by
  cases s with
  | nil => simp [split]
  | cons c s =>
    rw [split]
    rcases hs : split s with _ | ⟨part, parts⟩
    · exact absurd hs (split_ne_nil s)
    · dsimp only
      split <;> simp

theorem split_append_separator (a b : List QChar) : split (a ++ separator :: b) = split a ++ split b := by
  induction a with
  | nil =>
    rcases hb : split b with _ | ⟨part, parts⟩
    · exact absurd hb (split_ne_nil b)
    · simp [split, hb]
  | cons c a ih =>
    rcases ha : split a with _ | ⟨part, parts⟩
    · exact absurd ha (split_ne_nil a)
    · rw [List.cons_append, split, ih, ha, split, ha]
      dsimp only [List.cons_append]
      split <;> rfl

@[simp] theorem components_nil : components [] = [] := by simp [components, split]

theorem components_append {a : List QChar} (ha : Closed a) (b : List QChar) :
    components (a ++ b) = components a ++ components b := by
  rcases ha.cases with rfl | ⟨a', rfl⟩
  · simp
  · have hab : a' ++ [separator] ++ b = a' ++ separator :: b := by simp
    rw [hab, components, components, components, split_append_separator, split_append_separator]
    simp [split]

theorem split_name {name : List QChar} (h : separator ∉ name) : split name = [name] := by
  induction name with
  | nil => rfl
  | cons c name ih =>
    rw [List.mem_cons, not_or] at h
    rw [split, ih h.2]
    dsimp only
    rw [if_neg (Ne.symm h.1)]

theorem components_name {name : List QChar} (h : IsName name) :
    components (name ++ [separator]) = [name] := by
  have hsplit : split (name ++ [separator]) = [name, []] := by
    rw [split_append_separator, split_name h.2]
    rfl
  rw [components, hsplit]
  simp [h.1]

end FileIndexerConfig

/-! ## Normal paths of directories -/

theorem normalizeTrailingSlashes_append_name {dir name : List QChar} (h : IsName name) :
    normalizeTrailingSlashes (dir ++ name) = dir ++ name ++ [separator] := by
  obtain ⟨init, c, rfl⟩ := List.eq_nil_or_concat' name |>.resolve_left h.1
  have hc : c ≠ separator := by
    rintro rfl
    exact h.2 (List.mem_append_right _ (List.mem_singleton_self _))
  rw [normalizeTrailingSlashes, ← List.append_assoc, List.reverse_append, List.reverse_singleton,
    List.singleton_append, List.dropWhile_cons_of_neg (by simpa using hc), List.reverse_cons,
    List.reverse_reverse]

theorem normalizeTrailingSlashes_concat (path : List QChar) :
    normalizeTrailingSlashes (path ++ [separator]) = normalizeTrailingSlashes path := by
  rw [normalizeTrailingSlashes, normalizeTrailingSlashes, List.reverse_append, List.reverse_singleton,
    List.singleton_append, List.dropWhile_cons_of_pos (by simp)]

theorem fileName_append {dir name : List QChar} (hdir : Closed dir) (h : IsName name) :
    fileName (dir ++ name) = name := by
  have hname : ∀ c ∈ name.reverse, decide (c ≠ separator) = true := by
    intro c hc
    simp only [decide_not, Bool.not_eq_true', decide_eq_false_iff_not]
    rintro rfl
    exact h.2 (List.mem_reverse.mp hc)
  rw [fileName, List.reverse_append, List.takeWhile_append_of_pos hname]
  rcases hdir.cases with rfl | ⟨dir', rfl⟩
  · simp
  · simp

/-! ## The folder that decides -/

namespace FileIndexerConfig

variable {config : FileIndexerConfig} {path : List QChar} {entry e : FolderConfig}

/-- The entry decides about the path: it is the longest one that the path is in. -/
def Decides (config : FileIndexerConfig) (path : List QChar) (entry : FolderConfig) : Prop :=
  entry ∈ config.folderCache.entries ∧ entry.path <+: path ∧
    ∀ e ∈ config.folderCache.entries, e.path <+: path → e.path.length ≤ entry.path.length

/-- Entries differ in their paths. -/
theorem entry_ext (he : e ∈ config.folderCache.entries) (hentry : entry ∈ config.folderCache.entries)
    (hpath : e.path = entry.path) : e = entry := by
  by_contra hne
  rcases List.pairwise_iff_getElem.mp config.folderCache.sorted with hsorted
  obtain ⟨i, hi, rfl⟩ := List.getElem_of_mem he
  obtain ⟨j, hj, rfl⟩ := List.getElem_of_mem hentry
  rcases Nat.lt_trichotomy i j with hij | rfl | hij
  · exact (hsorted i j hi hj hij).path_ne hpath
  · exact hne rfl
  · exact (hsorted j i hj hi hij).path_ne hpath.symm

theorem Decides.unique (h : config.Decides path entry) (h' : config.Decides path e) : entry = e := by
  have hle := h.2.2 e h'.1 h'.2.1
  have hle' := h'.2.2 entry h.1 h.2.1
  exact entry_ext h.1 h'.1
    ((List.prefix_of_prefix_length_le h.2.1 h'.2.1 hle').eq_of_length (Nat.le_antisymm hle' hle))

theorem find?_decides {entries : List FolderConfig} (hsorted : entries.Pairwise FolderConfig.Before)
    (h : entries.find? (fun e => e.path.isPrefixOf path) = some entry) :
    entry ∈ entries ∧ entry.path <+: path ∧
      ∀ e ∈ entries, e.path <+: path → e.path.length ≤ entry.path.length := by
  induction entries with
  | nil => simp at h
  | cons e' entries ih =>
    obtain ⟨he', hentries⟩ := List.pairwise_cons.mp hsorted
    rcases hpre : e'.path.isPrefixOf path
    · rw [List.find?_cons_of_neg (by simp [hpre])] at h
      obtain ⟨hmem, hprefix, hmax⟩ := ih hentries h
      refine ⟨List.mem_cons_of_mem _ hmem, hprefix, fun e he hep => ?_⟩
      rcases List.mem_cons.mp he with rfl | he
      · rw [← List.isPrefixOf_iff_prefix, hpre] at hep
        cases hep
      · exact hmax e he hep
    · rw [List.find?_cons_of_pos (p := fun e : FolderConfig => e.path.isPrefixOf path) hpre,
        Option.some.injEq] at h
      subst h
      refine ⟨List.mem_cons_self .., List.isPrefixOf_iff_prefix.mp hpre, fun e he _ => ?_⟩
      rcases List.mem_cons.mp he with rfl | he
      · exact Nat.le_refl _
      · rcases he' e he with hlt | ⟨heq, -⟩
        · exact Nat.le_of_lt hlt
        · exact Nat.le_of_eq heq.symm

/-- What `folderInFolderList` finds. -/
theorem folderInFolderList_cases (config : FileIndexerConfig) (path : List QChar) :
    (∃ entry, config.Decides (normalizeTrailingSlashes path) entry ∧
      config.folderInFolderList path = (entry.isIncluded, entry.path)) ∨
    ((∀ entry, ¬ config.Decides (normalizeTrailingSlashes path) entry) ∧
      config.folderInFolderList path = (false, [])) := by
  rw [folderInFolderList]
  rcases hfind : config.folderCache.entries.find? fun entry =>
      entry.path.isPrefixOf (normalizeTrailingSlashes path) with _ | entry
  · refine Or.inr ⟨fun entry h => ?_, by rw [hfind]⟩
    have hnot := List.find?_eq_none.mp hfind entry h.1
    exact hnot (List.isPrefixOf_iff_prefix.mpr h.2.1)
  · exact Or.inl ⟨entry, find?_decides config.folderCache.sorted hfind, by rw [hfind]⟩

/-- Every component passes the filters. -/
def Passes (config : FileIndexerConfig) (s : List QChar) : Prop :=
  ∀ name ∈ components s, config.shouldFileBeIndexed name = true

theorem passes_nil (config : FileIndexerConfig) : config.Passes [] := by simp [Passes]

theorem passes_append {a b : List QChar} (ha : Closed a) :
    config.Passes (a ++ b) ↔ config.Passes a ∧ config.Passes b := by
  simp only [Passes, components_append ha, List.mem_append, or_imp, forall_and]

/-- A directory is to be indexed if an included folder decides about it and the components below
that folder pass. -/
theorem shouldFolderBeIndexed_iff (hpath : normalizeTrailingSlashes path = path) :
    config.shouldFolderBeIndexed path = true ↔
      ∃ entry, config.Decides path entry ∧ entry.isIncluded = true ∧
        config.Passes (path.drop entry.path.length) := by
  rw [shouldFolderBeIndexed, hpath]
  rcases folderInFolderList_cases config path with ⟨entry, hdecides, hlist⟩ | ⟨hnone, hlist⟩
  · rw [hpath] at hdecides
    rw [hlist]
    have hunique : (∃ entry, config.Decides path entry ∧ entry.isIncluded = true ∧
          config.Passes (path.drop entry.path.length)) ↔
        entry.isIncluded = true ∧ config.Passes (path.drop entry.path.length) := by
      refine ⟨?_, fun h => ⟨entry, hdecides, h⟩⟩
      rintro ⟨e, he, h⟩
      rw [hdecides.unique he]
      exact h
    rw [hunique]
    rcases entry.isIncluded
    · simp
    · rcases eq_or_ne entry.path path with heq | hne
      · simp [heq, passes_nil]
      · simp [hne, Passes]
  · rw [hpath] at hnone
    rw [hlist]
    simpa using fun entry h => absurd h (hnone entry)

theorem shouldFolderBeIndexed_congr {a b : List QChar}
    (h : normalizeTrailingSlashes a = normalizeTrailingSlashes b) :
    config.shouldFolderBeIndexed a = config.shouldFolderBeIndexed b := by
  rw [shouldFolderBeIndexed, shouldFolderBeIndexed, h]

/-- If a path is in some configured folder, one of them decides. -/
theorem exists_decides (he : e ∈ config.folderCache.entries) (hpre : e.path <+: path) :
    ∃ entry, config.Decides path entry := by
  rcases hfind : config.folderCache.entries.find? fun e => e.path.isPrefixOf path with _ | entry
  · exact absurd (List.isPrefixOf_iff_prefix.mpr hpre) (List.find?_eq_none.mp hfind e he)
  · exact ⟨entry, find?_decides config.folderCache.sorted hfind⟩

end FileIndexerConfig

/-! ## Prefixes that end with a slash -/

/-- A prefix of a directory that ends with a slash is a prefix of its parent or the directory. -/
theorem prefix_child {dir name s : List QChar} (h : IsName name) (hs : s.getLast? = some separator)
    (hpre : s <+: dir ++ name ++ [separator]) : s <+: dir ∨ s = dir ++ name ++ [separator] := by
  rcases Nat.lt_or_ge dir.length s.length with hlt | hge
  · right
    have hdir : dir <+: s := by
      refine List.prefix_of_prefix_length_le ⟨name ++ [separator], by simp⟩ hpre (Nat.le_of_lt hlt)
    obtain ⟨t, rfl⟩ := hdir
    rw [List.append_assoc, List.prefix_append_right_inj] at hpre
    have htne : t ≠ [] := by
      rintro rfl
      simp at hlt
    -- the part of `s` after `dir` ends with a slash, and the name has none
    obtain ⟨t', rfl⟩ : ∃ t', t = t' ++ [separator] := by
      rw [List.getLast?_append_of_ne_nil _ htne] at hs
      exact List.getLast?_eq_some_iff.mp hs
    rcases Nat.lt_or_ge t'.length name.length with hlt' | hge'
    · have hname : t' ++ [separator] <+: name :=
        List.prefix_of_prefix_length_le hpre ⟨[separator], rfl⟩
          (by rw [List.length_append, List.length_singleton]; exact hlt')
      exact absurd (hname.subset (by simp)) h.2
    · have hlen : (t' ++ [separator]).length = (name ++ [separator]).length := by
        have hle := hpre.length_le
        simp only [List.length_append, List.length_cons, List.length_nil] at hle ⊢
        omega
      rw [hpre.eq_of_length hlen, List.append_assoc]
  · exact Or.inl (List.prefix_of_prefix_length_le hpre ⟨name ++ [separator], by simp⟩ hge)

namespace FilteredDirIterator

open FileIndexerConfig

variable {config : FileIndexerConfig} {dir name : List QChar}

/-- The entry that decides about a directory is its own, or the one of its parent. -/
theorem decides_child {entry : FolderConfig} (hname : IsName name)
    (h : config.Decides (dir ++ name ++ [separator]) entry) :
    entry.path = dir ++ name ++ [separator] ∨ config.Decides dir entry := by
  rcases prefix_child hname (config.folderCache.slash entry h.1) h.2.1 with hpre | heq
  · exact Or.inr ⟨h.1, hpre, fun e he hep =>
      h.2.2 e he (hep.trans ⟨name ++ [separator], by simp⟩)⟩
  · exact Or.inl heq

/-- On the way down a directory is accepted exactly if it should be indexed. -/
theorem shouldIndexFolder_child {info : FileInfo} (hname : IsName name) (hdir : Closed dir)
    (hnormal : normalizeTrailingSlashes dir = dir) (hparent : config.shouldFolderBeIndexed dir = true)
    (hinfo : info.filePath = dir ++ name) : shouldIndexFolder (some config) info =
      config.shouldFolderBeIndexed (dir ++ name ++ [separator]) := by
  have hpath : normalizeTrailingSlashes (dir ++ name) = dir ++ name ++ [separator] :=
    normalizeTrailingSlashes_append_name hname
  have hchild : normalizeTrailingSlashes (dir ++ name ++ [separator]) = dir ++ name ++ [separator] := by
    rw [normalizeTrailingSlashes_concat, hpath]
  obtain ⟨parent, hp, hpincl, hppasses⟩ := (shouldFolderBeIndexed_iff hnormal).mp hparent
  obtain ⟨entry, hdecides⟩ := exists_decides hp.1
    (hp.2.1.trans ⟨name ++ [separator], (List.append_assoc ..).symm⟩ :
      parent.path <+: dir ++ name ++ [separator])
  have hlist : config.folderInFolderList (dir ++ name) = (entry.isIncluded, entry.path) := by
    rcases folderInFolderList_cases config (dir ++ name) with ⟨e, he, hlist⟩ | ⟨hnone, -⟩
    · rw [hpath] at he
      rw [hlist, hdecides.unique he]
    · rw [hpath] at hnone
      exact absurd hdecides (hnone entry)
  have hiff : config.shouldFolderBeIndexed (dir ++ name ++ [separator]) = true ↔
      entry.isIncluded = true ∧
        config.Passes ((dir ++ name ++ [separator]).drop entry.path.length) := by
    rw [shouldFolderBeIndexed_iff hchild]
    refine ⟨?_, fun h => ⟨entry, hdecides, h⟩⟩
    rintro ⟨e, he, h⟩
    rw [hdecides.unique he]
    exact h
  rw [Bool.eq_iff_iff, hiff, shouldIndexFolder, hinfo, hlist]
  rcases hincl : entry.isIncluded
  · simp
  rcases decides_child hname hdecides with heq | hdecides'
  · simp [heq, passes_nil]
  · -- the same entry decides about the parent
    obtain rfl := hp.unique hdecides'
    have hlen : parent.path.length ≤ dir.length := hp.2.1.length_le
    have hne : parent.path ≠ dir ++ name ++ [separator] := by
      intro heq
      rw [heq] at hlen
      simp only [List.length_append, List.length_singleton] at hlen
      omega
    have hne' : parent.path ≠ dir ++ name := by
      intro heq
      rw [heq, List.length_append] at hlen
      exact hname.1 (List.length_eq_zero_iff.mp (by omega))
    have hclosed : Closed (dir.drop parent.path.length) := hdir.drop _
    have hpasses : config.Passes ((dir ++ name ++ [separator]).drop parent.path.length) ↔
        config.shouldFileBeIndexed name = true := by
      rw [List.append_assoc, List.drop_append_of_le_length hlen, passes_append hclosed,
        and_iff_right hppasses]
      simp [Passes, components_name hname]
    rw [hpasses, fileName_append hdir hname]
    simp only [Bool.not_true, Bool.false_eq_true, ↓reduceIte, hne, hne', or_self, true_and]
    -- a hidden name does not pass either
    rcases hhidden : !config.indexHidden && isHidden (dir ++ name)
    · simp
    · simp only [↓reduceIte, Bool.false_eq_true, false_iff]
      simp only [isHidden, fileName_append hdir hname, Bool.and_eq_true, Bool.not_eq_true',
        decide_eq_true_eq] at hhidden
      simp [shouldFileBeIndexed, hhidden.1, hhidden.2]

end FilteredDirIterator

end Baloo
