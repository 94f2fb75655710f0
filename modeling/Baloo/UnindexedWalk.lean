import Baloo.WatchUpdate

/-!
# The walk of the check for unindexed files

The check walks through every included folder and takes what `FilteredDirIterator` gives, until that
gives no path. The iterator decides on its way down, by the last component of a path;
`shouldBeIndexed` looks for the folder that decides and at all the components below it. Both come to
the same paths (`walk_iff_shouldBeIndexed`).

The stack and the rest of the open directory are apart: none of their paths is a part of another one.
So what is below them is given once (`Walk.nodup`).
-/

namespace Baloo

namespace FilteredDirIterator

/-- What a caller gets that calls `next` until it gives no path. -/
def collect (listing : Listing) : ℕ → FilteredDirIterator → Option (List (List QChar))
  | 0, _ => none
  | n + 1, it =>
    let (it, path) := it.next listing
    if path = [] then some [] else (collect listing n it).map (path :: ·)

/-- The entries of a directory are in it, and each has a name of its own. -/
structure Named (listing : Listing) : Prop where
  /-- an entry is the directory and a name -/
  name : ∀ path, ∀ info ∈ listing path,
    ∃ name, IsName name ∧ info.filePath = normalizeTrailingSlash path ++ name
  /-- there are no two of the same name -/
  nodup : ∀ path, ((listing path).map FileInfo.filePath).Nodup

/-- Neither of two paths is in the other. -/
def Apart (a b : List QChar) : Prop :=
  ¬ normalizeTrailingSlash a <+: normalizeTrailingSlash b ∧
    ¬ normalizeTrailingSlash b <+: normalizeTrailingSlash a

section

variable {listing : Listing} {config : Option FileIndexerConfig} {filter : Filter}
  {it : FilteredDirIterator} {info : FileInfo} {path a b c : List QChar}

/-- The caller gets what the iterator lists. -/
theorem Lists.collect {l : List (List QChar)} (h : Lists listing it l) (hne : [] ∉ l) :
    Fuel.Returns (fun n => collect listing n it) l := by
  induction l generalizing it with
  | nil =>
    rcases h.next with ⟨-, hempty, -⟩ | ⟨d, l', hcons, -⟩
    · apply Fuel.Returns.succ
      simp only [FilteredDirIterator.collect, hempty, if_true]
      exact Fuel.Returns.pure []
    · cases hcons
  | cons d l ih =>
    rcases h.next with ⟨hnil, -⟩ | ⟨d', l', hcons, hpath, -, hrest⟩
    · cases hnil
    · obtain ⟨rfl, rfl⟩ := List.cons.inj hcons
      have hd : d ≠ [] := fun heq => hne (heq ▸ List.mem_cons_self ..)
      apply Fuel.Returns.succ
      simp only [FilteredDirIterator.collect, hpath, if_neg hd]
      exact (ih hrest fun hmem => hne (List.mem_cons_of_mem d hmem)).map (d :: ·)

/-! ## Nothing is given twice -/

theorem Apart.symm (h : Apart a b) : Apart b a := ⟨h.2, h.1⟩

/-- What is in `a` is apart from what `a` is apart from. -/
theorem Apart.below (h : Apart a b) (hc : normalizeTrailingSlash a <+: normalizeTrailingSlash c) :
    Apart c b := by
  refine ⟨fun hcb => h.1 (hc.trans hcb), fun hbc => ?_⟩
  rcases List.prefix_or_prefix_of_prefix hc hbc with hab | hba
  · exact h.1 hab
  · exact h.2 hba

theorem Named.normalize (hnamed : Named listing) (h : info ∈ listing path) :
    ∃ name, IsName name ∧ info.filePath = normalizeTrailingSlash path ++ name ∧
      normalizeTrailingSlash info.filePath = normalizeTrailingSlash path ++ name ++ [separator] := by
  obtain ⟨name, hname, hpath⟩ := hnamed.name path info h
  exact ⟨name, hname, hpath, by rw [hpath, DirTree.normalize_name hname]⟩

/-- What is below a directory is longer. -/
theorem Below.longer (hnamed : Named listing) (h : Below listing config filter path info) :
    normalizeTrailingSlash path <+: normalizeTrailingSlash info.filePath ∧
      (normalizeTrailingSlash path).length < (normalizeTrailingSlash info.filePath).length := by
  have hchild : ∀ {path info}, info ∈ qDirIterator listing filter path →
      normalizeTrailingSlash path <+: normalizeTrailingSlash info.filePath ∧
        (normalizeTrailingSlash path).length < (normalizeTrailingSlash info.filePath).length := by
    intro path info hmem
    obtain ⟨name, -, -, hnormal⟩ := hnamed.normalize (List.mem_of_mem_filter hmem)
    rw [hnormal, List.append_assoc]
    refine ⟨List.prefix_append _ _, ?_⟩
    simp only [List.length_append, List.length_singleton]
    omega
  induction h with
  | child hmem _ => exact hchild hmem
  | descend hmem _ _ _ ih =>
    obtain ⟨hpre, hlt⟩ := hchild hmem
    exact ⟨hpre.trans ih.1, Nat.lt_trans hlt ih.2⟩

/-- The entries of a directory are apart. -/
theorem Named.apart (hnamed : Named listing) (filter : Filter) (path : List QChar) :
    ((qDirIterator listing filter path).map FileInfo.filePath).Pairwise Apart := by
  have hnodup : ((qDirIterator listing filter path).map FileInfo.filePath).Nodup :=
    (hnamed.nodup path).sublist (List.filter_sublist.map _)
  -- a name has no slash, so that a path with another name is no part of it
  have hnot : ∀ i ∈ qDirIterator listing filter path, ∀ j ∈ qDirIterator listing filter path,
      i.filePath ≠ j.filePath →
        ¬ normalizeTrailingSlash i.filePath <+: normalizeTrailingSlash j.filePath := by
    intro i hi j hj hne hpre
    obtain ⟨name, -, hpath, hnormal⟩ := hnamed.normalize (List.mem_of_mem_filter hi)
    obtain ⟨name', hname', hpath', hnormal'⟩ := hnamed.normalize (List.mem_of_mem_filter hj)
    rw [hnormal, hnormal'] at hpre
    rcases prefix_child hname' List.getLast?_concat hpre with hle | heq
    · have hlen := hle.length_le
      simp only [List.length_append, List.length_singleton] at hlen
      omega
    · apply hne
      rw [hpath, hpath', List.append_cancel_right heq]
  refine List.Pairwise.imp_of_mem (fun ha hb hne => ?_) hnodup
  obtain ⟨i, hi, rfl⟩ := List.mem_map.mp ha
  obtain ⟨j, hj, rfl⟩ := List.mem_map.mp hb
  exact ⟨hnot i hi j hj hne, hnot j hj i hi (Ne.symm hne)⟩

/-- If what is still to be opened is apart, no path is given twice. -/
theorem Walk.nodup (hnamed : Named listing) {current out : List FileInfo} {paths : List (List QChar)}
    (h : Walk listing config filter current paths out)
    (hapart : (current.map FileInfo.filePath ++ paths).Pairwise Apart) :
    (out.map fun info => normalizeTrailingSlash info.filePath).Nodup := by
  induction h with
  | done => exact List.nodup_nil
  | @openDir path paths out _ ih =>
    obtain ⟨hpath, hpaths⟩ := List.pairwise_cons.mp hapart
    apply ih
    refine List.pairwise_append.mpr ⟨hnamed.apart filter path, hpaths, fun p hp p' hp' => ?_⟩
    obtain ⟨i, hi, rfl⟩ := List.mem_map.mp hp
    obtain ⟨name, -, -, hnormal⟩ := hnamed.normalize (List.mem_of_mem_filter hi)
    exact (hpath p' hp').below ⟨name ++ [separator], by rw [hnormal, List.append_assoc]⟩
  | skip _ _ ih => exact ih (List.pairwise_cons.mp hapart).2
  | @found info current paths out hyes h ih =>
    obtain ⟨hinfo, hrest⟩ := List.pairwise_cons.mp hapart
    have hstack : (current.map FileInfo.filePath ++
        if info.isDir then info.filePath :: paths else paths).Pairwise Apart := by
      split
      · exact (List.perm_middle.pairwise_iff Apart.symm).mpr hapart
      · exact hrest
    refine List.nodup_cons.mpr ⟨fun hmem => ?_, ih hstack⟩
    obtain ⟨j, hj, hnormal⟩ := List.mem_map.mp hmem
    change normalizeTrailingSlash j.filePath = normalizeTrailingSlash info.filePath at hnormal
    -- the entry is not again in what is apart from it, and what is below it is longer
    rcases (h.mem_iff j).mp hj with ⟨i, hi, -, rfl | ⟨-, hbelow⟩⟩ | ⟨p, hp, hbelow⟩
    · have happ := hinfo _ (List.mem_append_left _ (List.mem_map_of_mem hi))
      exact happ.1 (hnormal ▸ List.prefix_rfl)
    · have happ := hinfo _ (List.mem_append_left _ (List.mem_map_of_mem hi))
      exact happ.2 (hnormal ▸ (hbelow.longer hnamed).1)
    · have hlonger := hbelow.longer hnamed
      rw [hnormal] at hlonger
      have hcases : p = info.filePath ∨ p ∈ paths := by
        split at hp
        · exact List.mem_cons.mp hp
        · exact Or.inr hp
      rcases hcases with rfl | hp
      · exact Nat.lt_irrefl _ hlonger.2
      · exact (hinfo p (List.mem_append_right _ hp)).2 hlonger.1

/-- A walk from a folder gives no path twice. -/
theorem Lists.nodup (hnamed : Named listing) {folder : List QChar} {l : List (List QChar)}
    (h : Lists listing (construct listing config folder filter) l) :
    (l.map normalizeTrailingSlash).Nodup := by
  have hconfig : (construct listing config folder filter).config = config ∧
      (construct listing config folder filter).filter = filter ∧
      (construct listing config folder filter).folder = folder ∧
      (construct listing config folder filter).paths = [] := by
    rw [construct]
    split <;> exact ⟨rfl, rfl, rfl, rfl⟩
  have hcurrent : ∀ current, (construct listing config folder filter).currentIter = some current →
      current = qDirIterator listing filter folder := by
    intro current hcurrent
    rw [construct] at hcurrent
    split at hcurrent
    · exact (Option.some.inj hcurrent).symm
    · cases hcurrent
  obtain ⟨hconfig, hfilter, hfolder, hpaths⟩ := hconfig
  cases h with
  | @first current out _ hiter hwalk =>
    rw [hconfig, hfilter, hpaths, hcurrent current hiter] at hwalk
    rw [hfolder, List.map_cons, List.map_map]
    refine List.nodup_cons.mpr ⟨fun hmem => ?_, hwalk.nodup hnamed ?_⟩
    · obtain ⟨i, hi, hnormal⟩ := List.mem_map.mp hmem
      have hbelow : Below listing config filter folder i := by
        rw [hwalk.mem_iff] at hi
        simpa [← Below.cases] using hi
      have hlonger := (hbelow.longer hnamed).2
      rw [← hnormal] at hlonger
      exact Nat.lt_irrefl _ hlonger
    · rw [List.append_nil]
      exact hnamed.apart filter folder
  | @rest out h =>
    rw [List.map_map]
    have hgives := h.2
    rw [hconfig, hfilter, hpaths] at hgives
    rcases hiter : (construct listing config folder filter).currentIter with _ | current
    · simp only [hiter] at hgives
      simp [hgives]
    · simp only [hiter] at hgives
      rw [hcurrent current hiter] at hgives
      apply hgives.nodup hnamed
      rw [List.append_nil]
      exact hnamed.apart filter folder

end

end FilteredDirIterator

/-! ## A tree of directories and files -/

open FilteredDirIterator

/-- Directories and regular files by their paths; only the paths of directories end with a slash. -/
structure FileTree extends DirTree where
  /-- the files -/
  files : List (List QChar)
  /-- a file is in a directory -/
  inDir : ∀ f ∈ files, ∃ dir ∈ dirs, ∃ name, IsName name ∧ f = dir ++ name
  /-- no file has the path of a directory -/
  notDir : ∀ f ∈ files, f ++ [separator] ∉ dirs
  /-- a directory is there once -/
  dirsNodup : dirs.Nodup
  /-- a file is there once -/
  filesNodup : files.Nodup

namespace FileTree

open DirTree (parentDir)

/-- What `QDirIterator` gives for a folder, in some order. -/
def listing (tree : FileTree) : Listing := fun folder =>
  tree.toDirTree.listing folder ++
    (tree.files.filter fun f => parentDir (f ++ [separator]) = normalizeTrailingSlash folder).map fun f =>
      { filePath := f, isDir := false, isFile := true }

/-- `QFileInfo::isDir`. -/
def isDir (tree : FileTree) (path : List QChar) : Bool :=
  path ≠ [] ∧ normalizeTrailingSlash path ∈ tree.dirs

/-- There is a directory or file with this path; the path of a directory may end with a slash. -/
def Exists (tree : FileTree) (path : List QChar) : Prop := tree.isDir path = true ∨ path ∈ tree.files

section

variable {tree : FileTree} {config : FileIndexerConfig} {listing : Listing} {info : FileInfo}
  {d dir name path folder : List QChar}

theorem isDir_child (hname : IsName name) :
    tree.isDir (dir ++ name) = true ↔ dir ++ name ++ [separator] ∈ tree.dirs := by
  have hne : dir ++ name ≠ [] := fun hnil => hname.1 (List.append_eq_nil_iff.mp hnil).2
  rw [isDir, decide_eq_true_eq, DirTree.normalize_name hname]
  exact and_iff_right hne

theorem isDir_file (hf : path ∈ tree.files) : tree.isDir path = false := by
  obtain ⟨dir, -, name, hname, rfl⟩ := tree.inDir path hf
  rw [Bool.eq_false_iff, Ne, isDir_child hname]
  exact tree.notDir _ hf

theorem mem_listing : info ∈ tree.listing folder ↔ ∃ name, IsName name ∧
    info.filePath = normalizeTrailingSlash folder ++ name ∧
      ((normalizeTrailingSlash folder ++ name ++ [separator] ∈ tree.dirs ∧
          info.isDir = true ∧ info.isFile = false) ∨
        (normalizeTrailingSlash folder ++ name ∈ tree.files ∧
          info.isDir = false ∧ info.isFile = true)) := by
  rw [FileTree.listing, List.mem_append, DirTree.mem_listing]
  simp only [List.mem_map, List.mem_filter, decide_eq_true_eq]
  constructor
  · rintro (⟨name, hname, hd, rfl⟩ | ⟨f, ⟨hf, hparent⟩, rfl⟩)
    · exact ⟨name, hname, rfl, Or.inl ⟨hd, rfl, rfl⟩⟩
    · obtain ⟨dir, hdir, name, hname, rfl⟩ := tree.inDir f hf
      rw [DirTree.parentDir_child (Or.inr (DirTree.closed_of_mem hdir)) hname] at hparent
      subst hparent
      exact ⟨name, hname, rfl, Or.inr ⟨hf, rfl, rfl⟩⟩
  · obtain ⟨filePath, isDir, isFile⟩ := info
    rintro ⟨name, hname, rfl, ⟨hd, rfl, rfl⟩ | ⟨hf, rfl, rfl⟩⟩
    · exact Or.inl ⟨name, hname, hd, rfl⟩
    · refine Or.inr ⟨_, ⟨hf, ?_⟩, rfl⟩
      apply DirTree.parentDir_child _ hname
      rw [normalizeTrailingSlash]
      split
      · next hlast => exact Or.inr hlast
      · exact closed_concat _

/-- The entries of a directory, in any order, have names of their own. -/
theorem named (hlisting : ∀ folder, (listing folder).Perm (tree.listing folder)) : Named listing where
  name path info hinfo := by
    obtain ⟨name, hname, hpath, -⟩ := mem_listing.mp ((hlisting path).mem_iff.mp hinfo)
    exact ⟨name, hname, hpath⟩
  nodup path := by
    rw [((hlisting path).map FileInfo.filePath).nodup_iff, FileTree.listing, DirTree.listing,
      List.map_append, List.map_map, List.map_map]
    refine List.nodup_append.mpr ⟨?_, ?_, ?_⟩
    · refine List.Nodup.map_on (fun d hd d' hd' heq => ?_) (tree.dirsNodup.filter _)
      obtain ⟨s, rfl⟩ := List.getLast?_eq_some_iff.mp (DirTree.closed_of_mem (List.mem_of_mem_filter hd))
      obtain ⟨s', rfl⟩ := List.getLast?_eq_some_iff.mp (DirTree.closed_of_mem (List.mem_of_mem_filter hd'))
      change (s ++ [separator]).dropLast = (s' ++ [separator]).dropLast at heq
      rw [List.dropLast_concat, List.dropLast_concat] at heq
      rw [heq]
    · have hid : (FileInfo.filePath ∘ fun f : List QChar => (⟨f, false, true⟩ : FileInfo)) = id := rfl
      rw [hid, List.map_id]
      exact tree.filesNodup.filter _
    · intro p hp p' hp' heq
      obtain ⟨d, hd, rfl⟩ := List.mem_map.mp hp
      obtain ⟨f, hf, rfl⟩ := List.mem_map.mp hp'
      have hmem := List.mem_of_mem_filter hd
      obtain ⟨s, rfl⟩ := List.getLast?_eq_some_iff.mp (DirTree.closed_of_mem hmem)
      change (s ++ [separator]).dropLast = f at heq
      rw [List.dropLast_concat] at heq
      subst heq
      exact tree.notDir _ (List.mem_of_mem_filter hf) hmem

/-- Below some depth there is nothing. -/
theorem exists_depth (hlisting : ∀ folder, (listing folder).Perm (tree.listing folder)) :
    ∃ depth, ∀ path : List QChar, depth ≤ path.length → listing path = [] := by
  refine ⟨((tree.dirs ++ tree.files).map List.length).sum + 1, fun path hpath => ?_⟩
  rw [List.eq_nil_iff_forall_not_mem]
  intro info hinfo
  obtain ⟨name, -, -, hmem⟩ := mem_listing.mp ((hlisting path).mem_iff.mp hinfo)
  have hle : (normalizeTrailingSlash path ++ name).length ≤ ((tree.dirs ++ tree.files).map List.length).sum := by
    rcases hmem with ⟨hd, -⟩ | ⟨hf, -⟩
    · have hsum := List.le_sum_of_mem (List.mem_map_of_mem (f := List.length)
        (List.mem_append_left tree.files hd))
      rw [List.length_append] at hsum
      exact Nat.le_of_add_right_le hsum
    · exact List.le_sum_of_mem (List.mem_map_of_mem (f := List.length) (List.mem_append_right tree.dirs hf))
  have hlong := DirTree.le_normalize path
  rw [List.length_append] at hle
  omega

/-! ## What is accepted on the way down -/

/-- `absolutePath` is the directory that the file is in. -/
theorem normalize_absolutePath (hdir : dir ∈ tree.dirs) (hname : IsName name) :
    normalizeTrailingSlashes (absolutePath (dir ++ name)) = dir := by
  have hparent : ((dir ++ name).reverse.dropWhile (· ≠ separator)).reverse = dir := by
    have h := DirTree.parentDir_child (Or.inr (DirTree.closed_of_mem hdir)) hname
    rwa [parentDir, List.dropLast_concat] at h
  obtain ⟨s, rfl⟩ := List.getLast?_eq_some_iff.mp (DirTree.closed_of_mem hdir)
  rw [absolutePath, hparent, List.dropLast_concat]
  rcases s with _ | ⟨c, s⟩
  · rw [if_neg (by simp)]
    rfl
  · rw [← normalizeTrailingSlashes_concat]
    exact DirTree.normalize_of_mem hdir

/-- Below a directory that should be indexed, the iterator accepts what should be indexed. -/
theorem accepts_listed (hdir : normalizeTrailingSlash folder ∈ tree.dirs)
    (hyes : config.shouldFolderBeIndexed (normalizeTrailingSlash folder) = true)
    (hinfo : info ∈ tree.listing folder) :
    accepts (some config) info = config.shouldBeIndexed tree.isDir info.filePath := by
  obtain ⟨filePath, isDir, isFile⟩ := info
  obtain ⟨name, hname, rfl, ⟨hd, rfl, rfl⟩ | ⟨hf, rfl, rfl⟩⟩ := mem_listing.mp hinfo
  · rw [DirTree.accepts_child hdir hyes hname, FileIndexerConfig.shouldBeIndexed,
      if_pos ((isDir_child hname).mpr hd)]
    apply FileIndexerConfig.shouldFolderBeIndexed_congr
    exact normalizeTrailingSlashes_concat _
  · have hparent : config.shouldFolderBeIndexed (absolutePath (normalizeTrailingSlash folder ++ name)) =
        true := by
      rw [← hyes]
      apply FileIndexerConfig.shouldFolderBeIndexed_congr
      rw [normalize_absolutePath hdir hname, DirTree.normalize_of_mem hdir]
    rw [FileIndexerConfig.shouldBeIndexed, isDir_file hf, hparent]
    rcases hhidden : isHidden (normalizeTrailingSlash folder ++ name) <;>
      rcases hindex : config.indexHidden <;> simp [accepts, hhidden, hindex]

/-- What the iterator finds in a directory. -/
theorem mem_qDirIterator (hlisting : ∀ folder, (listing folder).Perm (tree.listing folder)) :
    info ∈ qDirIterator listing .filesAndDirs folder ↔ info ∈ tree.listing folder := by
  rw [qDirIterator, List.mem_filter, (hlisting folder).mem_iff]
  refine and_iff_left_of_imp fun hinfo => ?_
  obtain ⟨-, -, -, ⟨-, hdir, -⟩ | ⟨-, -, hfile⟩⟩ := mem_listing.mp hinfo
  · simp [hdir]
  · simp [hfile]

/-- What is given below a directory exists and should be indexed. -/
theorem below_indexed (hlisting : ∀ folder, (listing folder).Perm (tree.listing folder))
    (h : Below listing (some config) .filesAndDirs folder info)
    (hdir : normalizeTrailingSlash folder ∈ tree.dirs)
    (hyes : config.shouldFolderBeIndexed (normalizeTrailingSlash folder) = true) :
    tree.Exists info.filePath ∧ config.shouldBeIndexed tree.isDir info.filePath = true := by
  induction h with
  | @child folder info hmem haccepts =>
    rw [mem_qDirIterator hlisting] at hmem
    rw [accepts_listed hdir hyes hmem] at haccepts
    obtain ⟨name, hname, hpath, ⟨hd, -⟩ | ⟨hf, -⟩⟩ := mem_listing.mp hmem
    · exact ⟨Or.inl (hpath ▸ (isDir_child hname).mpr hd), haccepts⟩
    · exact ⟨Or.inr (hpath ▸ hf), haccepts⟩
  | @descend folder sub info hmem haccepts hisDir _ ih =>
    rw [mem_qDirIterator hlisting] at hmem
    rw [accepts_listed hdir hyes hmem] at haccepts
    obtain ⟨name, hname, hpath, ⟨hd, -⟩ | ⟨-, hfile, -⟩⟩ := mem_listing.mp hmem
    · have hsub := (isDir_child hname).mpr hd
      rw [hpath, FileIndexerConfig.shouldBeIndexed, if_pos hsub,
        ← FileIndexerConfig.shouldFolderBeIndexed_congr (normalizeTrailingSlashes_concat _)] at haccepts
      rw [hpath, DirTree.normalize_name hname] at ih
      exact ih hd haccepts
    · rw [hfile] at hisDir
      cases hisDir

/-- A directory that should be indexed is an included folder, or its parent should be indexed too. -/
theorem parent_indexed (hdir : dir ∈ tree.dirs) (hname : IsName name)
    (hyes : config.shouldFolderBeIndexed (dir ++ name ++ [separator]) = true) :
    dir ++ name ++ [separator] ∈ config.includeFolders ∨ config.shouldFolderBeIndexed dir = true := by
  have hnormal : normalizeTrailingSlashes (dir ++ name ++ [separator]) = dir ++ name ++ [separator] := by
    rw [normalizeTrailingSlashes_concat, normalizeTrailingSlashes_append_name hname]
  obtain ⟨entry, hdecides, hincl, hpasses⟩ := (FileIndexerConfig.shouldFolderBeIndexed_iff hnormal).mp hyes
  rcases decides_child hname hdecides with heq | hparent
  · left
    rw [FileWatch.mem_includeFolders, ← heq, ← hincl]
    exact hdecides.1
  · right
    refine (FileIndexerConfig.shouldFolderBeIndexed_iff (DirTree.normalize_of_mem hdir)).mpr
      ⟨entry, hparent, hincl, ?_⟩
    exact ((FileWatch.passes_split hparent.2.1 ⟨name ++ [separator], by simp⟩
      (DirTree.closed_of_mem hdir)).mp hpasses).1

/-- An accepted entry of a directory that a walk comes to is given too. -/
theorem below_entry (hlisting : ∀ folder, (listing folder).Perm (tree.listing folder)) {q : List QChar}
    (hdir : dir ∈ tree.dirs) (hreach : dir = q ∨ ∃ i, Below listing (some config) .filesAndDirs q i ∧
      i.isDir = true ∧ normalizeTrailingSlash i.filePath = dir)
    (hinfo : info ∈ tree.listing dir) (haccepts : accepts (some config) info = true) :
    Below listing (some config) .filesAndDirs q info := by
  rcases hreach with rfl | ⟨i, hbelow, hisDir, rfl⟩
  · exact .child ((mem_qDirIterator hlisting).mpr hinfo) haccepts
  · refine hbelow.snoc hisDir ((mem_qDirIterator hlisting).mpr ?_) haccepts
    rw [mem_listing] at hinfo ⊢
    rwa [DirTree.normalize_mem hdir] at hinfo

/-- Some included folder is walked down to a directory that should be indexed. -/
theorem exists_walk_to (hlisting : ∀ folder, (listing folder).Perm (tree.listing folder))
    (hd : d ∈ tree.dirs) (hyes : config.shouldFolderBeIndexed d = true) :
    ∃ q ∈ config.includeFolders, config.shouldFolderBeIndexed q = true ∧
      (d = q ∨ ∃ info, Below listing (some config) .filesAndDirs q info ∧ info.isDir = true ∧
        normalizeTrailingSlash info.filePath = d) := by
  induction hn : d.length using Nat.strong_induction_on generalizing d with
  | _ n ih =>
    subst hn
    rcases tree.parent d hd with rfl | ⟨dir, hdir, name, hname, rfl⟩
    · -- only the root is in the root
      obtain ⟨entry, hdecides, hincl, -⟩ :=
        (FileIndexerConfig.shouldFolderBeIndexed_iff (DirTree.normalize_of_mem hd)).mp hyes
      have hroot : entry.path = [separator] := by
        obtain ⟨s, hs⟩ := List.getLast?_eq_some_iff.mp (config.folderCache.slash entry hdecides.1)
        refine hdecides.2.1.eq_of_length (Nat.le_antisymm hdecides.2.1.length_le ?_)
        rw [hs, List.length_append]
        exact Nat.le_add_left _ _
      refine ⟨[separator], ?_, hyes, Or.inl rfl⟩
      rw [FileWatch.mem_includeFolders, ← hroot, ← hincl]
      exact hdecides.1
    · rcases parent_indexed hdir hname hyes with hincl | hparent
      · exact ⟨_, hincl, hyes, Or.inl rfl⟩
      · have hlen : dir.length < (dir ++ name ++ [separator]).length := by
          simp only [List.length_append, List.length_singleton]
          omega
        have hlisted : (⟨dir ++ name, true, false⟩ : FileInfo) ∈ tree.listing dir := by
          rw [mem_listing, DirTree.normalize_mem hdir]
          exact ⟨name, hname, rfl, Or.inl ⟨hd, rfl, rfl⟩⟩
        have haccepts := (DirTree.accepts_child hdir hparent hname).trans hyes
        obtain ⟨q, hq, hqyes, hreach⟩ := ih dir.length hlen hdir hparent rfl
        exact ⟨q, hq, hqyes, Or.inr ⟨_, below_entry hlisting hdir hreach hlisted haccepts, rfl,
          DirTree.normalize_name hname⟩⟩

/-! ## The walks from the included folders -/

theorem normalizeTrailingSlashes_normalize (path : List QChar) :
    normalizeTrailingSlashes (normalizeTrailingSlash path) = normalizeTrailingSlashes path := by
  rw [normalizeTrailingSlash]
  split
  · rfl
  · exact normalizeTrailingSlashes_concat path

theorem normalize_file (hf : path ∈ tree.files) : normalizeTrailingSlash path = path ++ [separator] := by
  obtain ⟨dir, -, name, hname, rfl⟩ := tree.inDir path hf
  exact DirTree.normalize_name hname

/-- A slash at the end of a path makes no difference. -/
theorem shouldBeIndexed_congr {a b : List QChar} (ha : tree.Exists a) (hb : tree.Exists b)
    (h : normalizeTrailingSlash a = normalizeTrailingSlash b) :
    config.shouldBeIndexed tree.isDir a = config.shouldBeIndexed tree.isDir b := by
  have hnotDir : ∀ {p q}, tree.isDir p = true → q ∈ tree.files →
      normalizeTrailingSlash p ≠ normalizeTrailingSlash q := by
    intro p q hp hq heq
    rw [isDir, decide_eq_true_eq, heq, normalize_file hq] at hp
    exact tree.notDir q hq hp.2
  rcases ha with ha | ha
  · rcases hb with hb | hb
    · rw [FileIndexerConfig.shouldBeIndexed, FileIndexerConfig.shouldBeIndexed, if_pos ha, if_pos hb]
      apply FileIndexerConfig.shouldFolderBeIndexed_congr
      rw [← normalizeTrailingSlashes_normalize a, h, normalizeTrailingSlashes_normalize]
    · exact absurd h (hnotDir ha hb)
  · rcases hb with hb | hb
    · exact absurd h.symm (hnotDir hb ha)
    · rw [normalize_file ha, normalize_file hb] at h
      rw [List.append_cancel_right h]

/-- What a walk from a folder gives exists and should be indexed. -/
theorem walked_indexed (hlisting : ∀ folder, (listing folder).Perm (tree.listing folder))
    (hdir : dir ∈ tree.dirs) (hyes : config.shouldFolderBeIndexed dir = true)
    (hd : d = dir ∨ ∃ info, Below listing (some config) .filesAndDirs dir info ∧ info.filePath = d) :
    tree.Exists d ∧ config.shouldBeIndexed tree.isDir d = true := by
  have hnormal := DirTree.normalize_mem hdir
  rcases hd with rfl | ⟨info, hbelow, rfl⟩
  · have hisDir : tree.isDir d = true := by
      rw [isDir, decide_eq_true_eq, hnormal]
      refine ⟨?_, hdir⟩
      rintro rfl
      cases DirTree.closed_of_mem hdir
    exact ⟨Or.inl hisDir, by rwa [FileIndexerConfig.shouldBeIndexed, if_pos hisDir]⟩
  · exact below_indexed hlisting hbelow (hnormal.symm ▸ hdir) (hnormal.symm ▸ hyes)

/-- What should be indexed is given by a walk from an included folder. -/
theorem indexed_walked (hlisting : ∀ folder, (listing folder).Perm (tree.listing folder))
    (hpath : tree.Exists path) (hyes : config.shouldBeIndexed tree.isDir path = true) :
    ∃ q ∈ config.includeFolders, config.shouldFolderBeIndexed q = true ∧
      ∃ d, (d = q ∨ ∃ info, Below listing (some config) .filesAndDirs q info ∧ info.filePath = d) ∧
        normalizeTrailingSlash d = normalizeTrailingSlash path := by
  rcases hpath with hisDir | hf
  · rw [FileIndexerConfig.shouldBeIndexed, if_pos hisDir,
      ← FileIndexerConfig.shouldFolderBeIndexed_congr (normalizeTrailingSlashes_normalize path)] at hyes
    rw [isDir, decide_eq_true_eq] at hisDir
    obtain ⟨q, hq, hqyes, hreach⟩ := exists_walk_to hlisting hisDir.2 hyes
    refine ⟨q, hq, hqyes, ?_⟩
    rcases hreach with rfl | ⟨info, hbelow, -, hnormal⟩
    · exact ⟨_, Or.inl rfl, DirTree.normalize_mem hisDir.2⟩
    · exact ⟨info.filePath, Or.inr ⟨info, hbelow, rfl⟩, hnormal⟩
  · obtain ⟨dir, hdir, name, hname, rfl⟩ := tree.inDir path hf
    have hnormal := DirTree.normalize_mem hdir
    have hparent : config.shouldFolderBeIndexed dir = true := by
      rw [FileIndexerConfig.shouldBeIndexed, isDir_file hf, if_neg Bool.false_ne_true,
        Bool.and_eq_true, Bool.and_eq_true] at hyes
      rw [← hyes.1.1]
      apply FileIndexerConfig.shouldFolderBeIndexed_congr
      rw [normalize_absolutePath hdir hname, DirTree.normalize_of_mem hdir]
    have hlisted : (⟨dir ++ name, false, true⟩ : FileInfo) ∈ tree.listing dir := by
      rw [mem_listing, hnormal]
      exact ⟨name, hname, rfl, Or.inr ⟨hf, rfl, rfl⟩⟩
    have haccepts := accepts_listed (hnormal.symm ▸ hdir) (hnormal.symm ▸ hparent) hlisted
    obtain ⟨q, hq, hqyes, hreach⟩ := exists_walk_to hlisting hdir hparent
    have hbelow := below_entry hlisting hdir hreach hlisted (haccepts.trans hyes)
    exact ⟨q, hq, hqyes, dir ++ name, Or.inr ⟨_, hbelow, rfl⟩, rfl⟩

/-- The check walks through exactly the files and directories that should be indexed: the walk from
an included folder ends and gives no path twice, and the walks from all included folders together
give an existing path, up to a slash at its end, exactly if it should be indexed. -/
theorem walk_iff_shouldBeIndexed (tree : FileTree) (config : FileIndexerConfig)
    (hfolders : ∀ q ∈ config.includeFolders, q ∈ tree.dirs) {listing : Listing}
    (hlisting : ∀ folder, (listing folder).Perm (tree.listing folder)) :
    ∃ walk : List QChar → List (List QChar),
      (∀ q ∈ config.includeFolders,
        Fuel.Returns (fun n => collect listing n (construct listing (some config) q .filesAndDirs)) (walk q) ∧
          ((walk q).map normalizeTrailingSlash).Nodup ∧ ∀ d ∈ walk q, tree.Exists d) ∧
      ∀ path, tree.Exists path →
        ((∃ q ∈ config.includeFolders, ∃ d ∈ walk q,
            normalizeTrailingSlash d = normalizeTrailingSlash path) ↔
          config.shouldBeIndexed tree.isDir path = true) := by
  have hnamed := named hlisting
  obtain ⟨depth, hdepth⟩ := exists_depth hlisting
  have hlonger : ∀ path, ∀ info ∈ listing path, path.length < info.filePath.length := by
    intro path info hinfo
    obtain ⟨name, hname, hpath⟩ := hnamed.name path info hinfo
    have hpos := List.length_pos_iff.mpr hname.1
    have hlong := DirTree.le_normalize path
    rw [hpath, List.length_append]
    omega
  choose walk hwalk hmem using fun q => exists_lists hdepth hlonger (some config) q .filesAndDirs
  -- what is given exists and should be indexed
  have hgiven : ∀ q ∈ config.includeFolders, ∀ d ∈ walk q,
      tree.Exists d ∧ config.shouldBeIndexed tree.isDir d = true := by
    intro q hq d hd
    obtain ⟨hyes, hreach⟩ := (hmem q d).mp hd
    exact walked_indexed hlisting (hfolders q hq) hyes hreach
  refine ⟨walk, fun q hq => ⟨?_, (hwalk q).nodup hnamed, fun d hd => (hgiven q hq d hd).1⟩,
    fun path hpath => ⟨?_, fun hyes => ?_⟩⟩
  · apply (hwalk q).collect
    intro hnil
    rcases (hgiven q hq [] hnil).1 with hisDir | hf
    · simp [isDir] at hisDir
    · obtain ⟨dir, -, name, hname, heq⟩ := tree.inDir [] hf
      exact hname.1 (List.append_eq_nil_iff.mp heq.symm).2
  · rintro ⟨q, hq, d, hd, hnormal⟩
    obtain ⟨hexists, hindexed⟩ := hgiven q hq d hd
    rw [← shouldBeIndexed_congr hexists hpath hnormal]
    exact hindexed
  · obtain ⟨q, hq, hqyes, d, hreach, hnormal⟩ := indexed_walked hlisting hpath hyes
    exact ⟨q, hq, d, (hmem q d).mpr ⟨hqyes, hreach⟩, hnormal⟩

end

/-- The directories `/`, `/a` and `/a/b`, and the file `/a/b/c`. -/
def treeABC : FileTree where
  toDirTree := FileWatch.treeAB
  files := [[47, 97, 47, 98, 47, 99]]
  inDir f hf := by
    obtain rfl := List.mem_singleton.mp hf
    exact ⟨[47, 97, 47, 98, 47], by decide, [99], ⟨by decide, by decide⟩, rfl⟩
  notDir f hf := by
    obtain rfl := List.mem_singleton.mp hf
    decide
  dirsNodup := by decide
  filesNodup := List.nodup_singleton _

theorem walk_iff_shouldBeIndexed_treeABC :
    let config := FileWatch.including [[47, 97]]
    ∃ walk : List QChar → List (List QChar),
      (∀ q ∈ config.includeFolders,
        Fuel.Returns (fun n => collect treeABC.listing n
          (construct treeABC.listing (some config) q .filesAndDirs)) (walk q) ∧
          ((walk q).map normalizeTrailingSlash).Nodup ∧ ∀ d ∈ walk q, treeABC.Exists d) ∧
      ∀ path, treeABC.Exists path →
        ((∃ q ∈ config.includeFolders, ∃ d ∈ walk q,
            normalizeTrailingSlash d = normalizeTrailingSlash path) ↔
          config.shouldBeIndexed treeABC.isDir path = true) :=
  walk_iff_shouldBeIndexed treeABC (FileWatch.including [[47, 97]]) (by decide) fun _ => List.Perm.refl _

end FileTree

end Baloo
