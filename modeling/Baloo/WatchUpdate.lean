import Baloo.FolderDecision
import Baloo.KInotify
import Mathlib.Algebra.Order.BigOperators.Group.List
import Mathlib.Algebra.Order.Group.Nat

/-!
# Updating the watches after a change of the configuration

`FileWatch` remembers the lists of folders it has last seen. When they have changed it drops the
watches below folders that are newly excluded or no longer included, and queues a walk for folders
that are no longer excluded or newly included, unless they are watched already.

A dropped subtree is not always walked again: the folder that would lead to it may have been in the
list before, or may be watched itself. `incremental_update_iff` says when the result is the one of a
fresh setup.
-/

namespace Baloo

open FilteredDirIterator FileIndexerConfig

/-- `FileWatch`, as far as it looks after the watches. -/
structure FileWatch (σ : Type) where
  /-- `m_config` -/
  config : FileIndexerConfig
  /-- `m_dirWatch`; it has the same configuration -/
  dirWatch : KInotify σ
  /-- `m_excludedFolders` -/
  excludedFolders : List (List QChar) := []
  /-- `m_includedFolders` -/
  includedFolders : List (List QChar) := []

namespace FileWatch

open KInotify

variable {σ : Type} [Inotify σ]

/-- The configuration has been read again. -/
def setConfig (fw : FileWatch σ) (config : FileIndexerConfig) : FileWatch σ :=
  { fw with config := config, dirWatch := { fw.dirWatch with config := some config } }

/-- `watchFolder`. -/
def watchFolder (dirWatch : KInotify σ) (path : List QChar) : KInotify σ :=
  if !dirWatch.watchingPath path then
    (dirWatch.addWatch path (EventMove ||| EventDelete ||| EventDeleteSelf ||| EventCloseWrite |||
      EventCreate ||| EventAttributeChange ||| EventModify) FlagOnlyDir).1
  else dirWatch

/-- The folders of `l` that are not in `l'`. -/
def others (l l' : List (List QChar)) : List (List QChar) := l.filter fun folder => folder ∉ l'

/-- `updateIndexedFoldersWatches`. -/
def updateIndexedFoldersWatches (fw : FileWatch σ) : FileWatch σ :=
  let excludedFolders := fw.config.excludeFolders
  let includedFolders := fw.config.includeFolders
  -- remove watch for new excluded folders
  let dirWatch := (others excludedFolders fw.excludedFolders).foldl KInotify.removeWatch fw.dirWatch
  -- add no longer excluded folders
  let dirWatch := (others fw.excludedFolders excludedFolders).foldl watchFolder dirWatch
  -- remove no longer included folders
  let dirWatch := (others fw.includedFolders includedFolders).foldl KInotify.removeWatch dirWatch
  let dirWatch := (others includedFolders fw.includedFolders).foldl watchFolder dirWatch
  { fw with dirWatch := dirWatch, excludedFolders := excludedFolders, includedFolders := includedFolders }

/-- The event loop makes the calls of `_k_addWatches` that are posted, until there are none. -/
def installWatches (listing : Listing) : ℕ → KInotify σ → Option (KInotify σ)
  | 0, k => if k.posted = 0 then some k else none
  | n + 1, k =>
    if k.posted = 0 then some k
    else installWatches listing n (Private.addWatches listing { k with posted := k.posted - 1 }).1

end FileWatch

/-! ## A fixed tree of directories -/

/-- The directories of a file system by their paths, which end with a slash. -/
structure DirTree where
  /-- the directories -/
  dirs : List (List QChar)
  /-- a directory is the root or in a directory -/
  parent : ∀ d ∈ dirs, d = [separator] ∨
    ∃ dir ∈ dirs, ∃ name, IsName name ∧ d = dir ++ name ++ [separator]

namespace DirTree

/-- The path of the parent directory. -/
def parentDir (d : List QChar) : List QChar := (d.dropLast.reverse.dropWhile (· ≠ separator)).reverse

/-- What `QDirIterator` gives for a folder. -/
def listing (tree : DirTree) : Listing := fun folder =>
  (tree.dirs.filter fun d => parentDir d = normalizeTrailingSlash folder).map fun d =>
    { filePath := d.dropLast, isDir := true, isFile := false }

/-- The kernel's watches on the directories of a tree; there is no limit. -/
structure Kernel where
  /-- the tree -/
  tree : DirTree
  /-- the watched directories with their descriptors -/
  watches : Hash (List QChar) ℤ := ∅
  /-- the next descriptor -/
  nextWd : ℤ := 1

instance : Inotify Kernel where
  addWatch kernel path _ :=
    if path ∈ kernel.tree.dirs then
      match kernel.watches.get path with
      | some wd => (kernel, .ok wd)
      | none =>
        ({ kernel with
            watches := kernel.watches.insert path kernel.nextWd
            nextWd := kernel.nextWd + 1 }, .ok kernel.nextWd)
    else (kernel, .error .other)
  rmWatch kernel wd := { kernel with watches := kernel.watches.filter fun _ w => w ≠ wd }

section

variable {tree : DirTree} {d dir name folder : List QChar} {info : FileInfo}

theorem closed_of_mem (h : d ∈ tree.dirs) : d.getLast? = some separator := by
  rcases tree.parent d h with rfl | ⟨dir, -, name, -, rfl⟩
  · rfl
  · exact List.getLast?_concat

theorem normalize_of_mem (h : d ∈ tree.dirs) : normalizeTrailingSlashes d = d := by
  rcases tree.parent d h with rfl | ⟨dir, -, name, hname, rfl⟩
  · rfl
  · rw [normalizeTrailingSlashes_concat, normalizeTrailingSlashes_append_name hname]

theorem parentDir_child (hdir : Closed dir) (hname : IsName name) :
    parentDir (dir ++ name ++ [separator]) = dir := by
  have hslash : ∀ c ∈ name.reverse, decide (c ≠ separator) = true := by
    intro c hc
    simp only [decide_not, Bool.not_eq_true', decide_eq_false_iff_not]
    rintro rfl
    exact hname.2 (List.mem_reverse.mp hc)
  rw [parentDir, List.dropLast_concat, List.reverse_append, List.dropWhile_append_of_pos hslash]
  rcases hdir.cases with rfl | ⟨dir', rfl⟩
  · rfl
  · simp

theorem mem_listing : info ∈ tree.listing folder ↔ ∃ name, IsName name ∧
    normalizeTrailingSlash folder ++ name ++ [separator] ∈ tree.dirs ∧
      info = { filePath := normalizeTrailingSlash folder ++ name, isDir := true, isFile := false } := by
  have hclosed : (normalizeTrailingSlash folder).getLast? = some separator := by
    rw [normalizeTrailingSlash]
    split
    · assumption
    · exact List.getLast?_concat
  simp only [listing, List.mem_map, List.mem_filter, decide_eq_true_eq]
  constructor
  · rintro ⟨d, ⟨hd, hparent⟩, rfl⟩
    rcases tree.parent d hd with rfl | ⟨dir, hdir, name, hname, rfl⟩
    · rw [← hparent] at hclosed
      simp [parentDir] at hclosed
    · rw [parentDir_child (Or.inr (closed_of_mem hdir)) hname] at hparent
      rw [← hparent]
      exact ⟨name, hname, hd, by rw [List.dropLast_concat]⟩
  · rintro ⟨name, hname, hd, rfl⟩
    exact ⟨_, ⟨hd, parentDir_child (Or.inr hclosed) hname⟩, by rw [List.dropLast_concat]⟩

/-- A prefix of a directory that ends with a slash is a directory. -/
theorem mem_of_prefix {s : List QChar} (h : d ∈ tree.dirs) (hpre : s <+: d)
    (hs : s.getLast? = some separator) : s ∈ tree.dirs := by
  induction hn : d.length using Nat.strong_induction_on generalizing d with
  | _ n ih =>
    subst hn
    rcases tree.parent d h with rfl | ⟨dir, hdir, name, hname, rfl⟩
    · have hlen := hpre.length_le
      rcases s with _ | ⟨c, s⟩
      · cases hs
      · have heq : c :: s = [separator] := hpre.eq_of_length (by simp at hlen ⊢; omega)
        rwa [heq]
    · rcases prefix_child hname hs hpre with hdirpre | rfl
      · refine ih dir.length ?_ hdir hdirpre rfl
        simp only [List.length_append, List.length_singleton]
        omega
      · exact h

end

end DirTree

/-! ## Walks through a tree -/

namespace DirTree

/-- The directory is to be indexed. -/
def Indexed (tree : DirTree) (config : FileIndexerConfig) (d : List QChar) : Prop :=
  d ∈ tree.dirs ∧ config.shouldFolderBeIndexed d = true

/-- From `q` down to `d` every directory is to be indexed. -/
def Leads (tree : DirTree) (config : FileIndexerConfig) (q d : List QChar) : Prop :=
  q <+: d ∧ ∀ e ∈ tree.dirs, q <+: e → e <+: d → config.shouldFolderBeIndexed e = true

section

variable {tree : DirTree} {config : FileIndexerConfig} {q d dir name : List QChar} {info : FileInfo}

theorem normalize_child : normalizeTrailingSlash (dir ++ name ++ [separator]) = dir ++ name ++ [separator] := by
  rw [normalizeTrailingSlash, if_pos List.getLast?_concat]

theorem normalize_name (h : IsName name) :
    normalizeTrailingSlash (dir ++ name) = dir ++ name ++ [separator] := by
  rw [normalizeTrailingSlash, if_neg]
  intro hlast
  obtain ⟨init, c, rfl⟩ := List.eq_nil_or_concat' name |>.resolve_left h.1
  rw [← List.append_assoc, List.getLast?_concat, Option.some.injEq] at hlast
  exact h.2 (hlast ▸ List.mem_append_right _ (List.mem_singleton_self _))

theorem normalize_mem (h : d ∈ tree.dirs) : normalizeTrailingSlash d = d := by
  rw [normalizeTrailingSlash, if_pos (closed_of_mem h)]

theorem accepts_child (hdir : dir ∈ tree.dirs) (hparent : config.shouldFolderBeIndexed dir = true)
    (hname : IsName name) : accepts (some config) { filePath := dir ++ name, isDir := true, isFile := false } =
      config.shouldFolderBeIndexed (dir ++ name ++ [separator]) := by
  rw [accepts]
  exact shouldIndexFolder_child hname (Or.inr (closed_of_mem hdir)) (normalize_of_mem hdir) hparent rfl

theorem qDirIterator_dirs (folder : List QChar) (filter : Filter) :
    qDirIterator tree.listing filter folder = tree.listing folder := by
  rw [qDirIterator, List.filter_eq_self]
  intro info hinfo
  obtain ⟨name, -, -, rfl⟩ := mem_listing.mp hinfo
  rfl

theorem le_normalize (folder : List QChar) : folder.length ≤ (normalizeTrailingSlash folder).length := by
  rw [normalizeTrailingSlash]
  split
  · exact Nat.le_refl _
  · simp

/-- Directories below some depth are empty. -/
theorem exists_depth (tree : DirTree) :
    ∃ depth, ∀ path : List QChar, depth ≤ path.length → tree.listing path = [] := by
  refine ⟨(tree.dirs.map List.length).sum, fun path hpath => ?_⟩
  rw [List.eq_nil_iff_forall_not_mem]
  intro info hinfo
  obtain ⟨name, -, hmem, -⟩ := mem_listing.mp hinfo
  have hle := List.le_sum_of_mem (List.mem_map_of_mem (f := List.length) hmem)
  have hlong := le_normalize path
  simp only [List.length_append, List.length_singleton] at hle
  omega

theorem listing_longer (tree : DirTree) (path : List QChar) :
    ∀ info ∈ tree.listing path, path.length < info.filePath.length := by
  intro info hinfo
  obtain ⟨name, hname, -, rfl⟩ := mem_listing.mp hinfo
  have hpos := List.length_pos_iff.mpr hname.1
  have hlong := le_normalize path
  rw [List.length_append]
  omega

theorem filePath_ne_nil {config : Option FileIndexerConfig} {path : List QChar}
    (h : Below tree.listing config .dirsOnly path info) : info.filePath ≠ [] := by
  induction h with
  | child hmem =>
    rw [qDirIterator_dirs] at hmem
    have hlong := tree.listing_longer _ _ hmem
    intro hnil
    rw [hnil] at hlong
    cases hlong
  | descend _ _ _ _ ih => exact ih

/-- A walk down from a directory leads along directories that should be indexed. -/
theorem leads_of_below {x : List QChar} (h : Below tree.listing (some config) .dirsOnly x info)
    (hx : normalizeTrailingSlash x ∈ tree.dirs)
    (hyes : config.shouldFolderBeIndexed (normalizeTrailingSlash x) = true) :
    normalizeTrailingSlash info.filePath ∈ tree.dirs ∧
      tree.Leads config (normalizeTrailingSlash x) (normalizeTrailingSlash info.filePath) := by
  induction h with
  | @child x info hmem haccepts =>
    rw [qDirIterator_dirs] at hmem
    obtain ⟨name, hname, hdir, rfl⟩ := mem_listing.mp hmem
    rw [accepts_child hx hyes hname] at haccepts
    rw [normalize_name hname]
    refine ⟨hdir, ⟨name ++ [separator], by simp⟩, fun e he hpre hpre' => ?_⟩
    rcases prefix_child hname (closed_of_mem he) hpre' with hle | rfl
    · rw [hle.eq_of_length (Nat.le_antisymm hle.length_le hpre.length_le)]
      exact hyes
    · exact haccepts
  | @descend x dir info hmem haccepts _ _ ih =>
    rw [qDirIterator_dirs] at hmem
    obtain ⟨name, hname, hdir, rfl⟩ := mem_listing.mp hmem
    rw [accepts_child hx hyes hname] at haccepts
    rw [normalize_name hname] at ih
    obtain ⟨hd, hpre, hleads⟩ := ih hdir haccepts
    refine ⟨hd, List.IsPrefix.trans ⟨name ++ [separator], by simp⟩ hpre, fun e he hpre₁ hpre₂ => ?_⟩
    rcases Nat.le_total e.length (normalizeTrailingSlash x ++ name ++ [separator]).length with hle | hle
    · rcases prefix_child hname (closed_of_mem he)
        (List.prefix_of_prefix_length_le hpre₂ hpre hle) with hle' | rfl
      · rw [hle'.eq_of_length (Nat.le_antisymm hle'.length_le hpre₁.length_le)]
        exact hyes
      · exact haccepts
    · exact hleads e he (List.prefix_of_prefix_length_le hpre hpre₂ hle) hpre₂

/-- What a walk from a folder gets to. -/
theorem walk_iff (hq : q.getLast? = some separator) :
    ((config.shouldFolderBeIndexed q = true ∧
      (d = q ∨ ∃ info, Below tree.listing (some config) .dirsOnly q info ∧
        d = normalizeTrailingSlash info.filePath)) ∧ d ∈ tree.dirs) ↔
      d ∈ tree.dirs ∧ tree.Leads config q d := by
  have hnormal : normalizeTrailingSlash q = q := by rw [normalizeTrailingSlash, if_pos hq]
  constructor
  · rintro ⟨⟨hyes, rfl | ⟨info, hbelow, rfl⟩⟩, hd⟩
    · refine ⟨hd, List.prefix_rfl, fun e _ hpre hpre' => ?_⟩
      rwa [hpre'.eq_of_length (Nat.le_antisymm hpre'.length_le hpre.length_le)]
    · -- the folder is a directory, since something is in it
      have hmem : q ∈ tree.dirs := by
        obtain ⟨i, hi, -⟩ := Below.cases.mp hbelow
        rw [qDirIterator_dirs, mem_listing, hnormal] at hi
        obtain ⟨name, -, hchild, -⟩ := hi
        exact mem_of_prefix hchild ⟨name ++ [separator], by simp⟩ hq
      have hleads := leads_of_below hbelow (hnormal.symm ▸ hmem) (hnormal.symm ▸ hyes)
      rwa [hnormal] at hleads
  · rintro ⟨hd, hleads⟩
    have hmem : q ∈ tree.dirs := mem_of_prefix hd hleads.1 hq
    have hyes : config.shouldFolderBeIndexed q = true := hleads.2 q hmem List.prefix_rfl hleads.1
    refine ⟨⟨hyes, ?_⟩, hd⟩
    induction hn : d.length using Nat.strong_induction_on generalizing d with
    | _ n ih =>
      subst hn
      rcases tree.parent d hd with rfl | ⟨dir, hdir, name, hname, rfl⟩
      · left
        have hlen := hleads.1.length_le
        have hpos : 0 < q.length := by
          cases q with
          | nil => cases hq
          | cons c q => exact Nat.succ_pos _
        exact (hleads.1.eq_of_length (by simp at hlen ⊢; omega)).symm
      · rcases prefix_child hname hq hleads.1 with hpre | rfl
        · have hdown : tree.Leads config q dir :=
            ⟨hpre, fun e he h₁ h₂ => hleads.2 e he h₁ (h₂.trans ⟨name ++ [separator], by simp⟩)⟩
          have hparent : config.shouldFolderBeIndexed dir = true :=
            hdown.2 dir hdir hpre List.prefix_rfl
          have hchild : config.shouldFolderBeIndexed (dir ++ name ++ [separator]) = true :=
            hleads.2 _ hd hleads.1 List.prefix_rfl
          have haccepts := (accepts_child hdir hparent hname).trans hchild
          have hlen : dir.length < (dir ++ name ++ [separator]).length := by
            simp only [List.length_append, List.length_singleton]
            omega
          right
          refine ⟨{ filePath := dir ++ name, isDir := true, isFile := false }, ?_,
            (normalize_name hname).symm⟩
          rcases ih dir.length hlen hdir hdown rfl with rfl | ⟨info, hbelow, rfl⟩
          · refine .child ?_ haccepts
            rw [qDirIterator_dirs, mem_listing, hnormal]
            exact ⟨name, hname, hd, rfl⟩
          · have hisDir : info.isDir = true := by
              have hlisted : ∃ folder, info ∈ tree.listing folder := by
                clear * - hbelow
                induction hbelow with
                | child hmem => exact ⟨_, qDirIterator_dirs _ _ ▸ hmem⟩
                | descend _ _ _ _ ih => exact ih
              obtain ⟨folder, hlisted⟩ := hlisted
              obtain ⟨_, -, -, rfl⟩ := mem_listing.mp hlisted
              rfl
            refine hbelow.snoc hisDir ?_ haccepts
            rw [qDirIterator_dirs, mem_listing]
            exact ⟨name, hname, hd, rfl⟩
        · exact Or.inl rfl

end

end DirTree

/-! ## Adding and removing watches -/

namespace KInotify

open DirTree (Kernel)

/-- The tables agree with each other and with the kernel. -/
structure Synced (k : KInotify Kernel) : Prop where
  /-- descriptors to paths -/
  paths : ∀ wd p, k.watchPathHash.get wd = some p ↔ k.inotify.watches.get p = some wd
  /-- paths to descriptors -/
  descriptors : ∀ p, k.pathWatchHash.get p = k.inotify.watches.get p
  /-- the next descriptor is new -/
  fresh : ∀ p wd, k.inotify.watches.get p = some wd → wd < k.inotify.nextWd

/-- The directory is watched. -/
def Watching (k : KInotify Kernel) (d : List QChar) : Prop := ∃ wd, k.inotify.watches.get d = some wd

section

variable {k : KInotify Kernel} {path d : List QChar}

theorem watchingPath_iff (hk : k.Synced) (hd : d.getLast? = some separator) :
    k.watchingPath d = true ↔ k.Watching d := by
  rw [watchingPath, normalizeTrailingSlash, if_pos hd, hk.descriptors, Option.isSome_iff_exists]
  rfl

theorem foldl_rmWatch (inside : List (Σ _ : ℤ, List QChar)) (kernel : Kernel) :
    let kernel' := inside.foldl (fun inotify it => Inotify.rmWatch inotify it.1) kernel
    kernel'.tree = kernel.tree ∧ kernel'.nextWd = kernel.nextWd ∧ ∀ p,
      kernel'.watches.get p = (kernel.watches.get p).filter fun w => decide (∀ it ∈ inside, w ≠ it.1) := by
  induction inside generalizing kernel with
  | nil => exact ⟨rfl, rfl, fun p => by
    cases hp : kernel.watches.get p <;> simp [hp, Option.filter]⟩
  | cons it inside ih =>
    obtain ⟨htree, hnext, hget⟩ := ih (Inotify.rmWatch kernel it.1)
    refine ⟨htree, hnext, fun p => ?_⟩
    rw [List.foldl_cons, hget]
    change (Option.filter _ ((kernel.watches.filter fun _ w => w ≠ it.1).get p)) = _
    rw [Hash.get_filter, Option.filter_filter]
    congr 1
    funext w
    simp

theorem foldl_erase (inside : List (Σ _ : ℤ, List QChar)) (hash : Hash (List QChar) ℤ)
    (p : List QChar) : (inside.foldl (fun hash it => hash.erase it.2) hash).get p =
      if ∃ it ∈ inside, it.2 = p then none else hash.get p := by
  induction inside generalizing hash with
  | nil => simp
  | cons it inside ih =>
    rw [List.foldl_cons, ih, Hash.get_erase]
    rcases eq_or_ne p it.2 with rfl | hne
    · simp
    · simp only [Function.update_of_ne hne, List.mem_cons, exists_eq_or_imp, hne.symm, false_or]

/-- `removeWatch` drops the watches below a path, and the queued walks. -/
theorem removeWatch_watches (hk : k.Synced) (path p : List QChar) :
    (k.removeWatch path).inotify.watches.get p =
      if path <+: p then none else k.inotify.watches.get p := by
  have hget := (foldl_rmWatch (k.watchPathHash.entries.filter fun it => path.isPrefixOf it.2)
    k.inotify).2.2 p
  refine hget.trans ?_
  rcases hp : k.inotify.watches.get p with _ | wd
  · simp
  · have hwd : k.watchPathHash.get wd = some p := (hk.paths wd p).mpr hp
    have hiff : (∀ it ∈ k.watchPathHash.entries.filter fun it => path.isPrefixOf it.2, wd ≠ it.1) ↔
        ¬ path <+: p := by
      simp only [List.mem_filter, List.isPrefixOf_iff_prefix, and_imp]
      constructor
      · exact fun h hpre => h ⟨wd, p⟩ (Hash.mem_entries.mpr hwd) hpre rfl
      · rintro h ⟨wd', q⟩ hmem hpre rfl
        rw [Hash.mem_entries, hwd, Option.some.injEq] at hmem
        exact h (hmem ▸ hpre)
    rw [Option.filter_some]
    simp only [hiff, decide_not, Bool.not_eq_true', decide_eq_false_iff_not, ite_not]

theorem Synced.removeWatch (hk : k.Synced) (path : List QChar) : (k.removeWatch path).Synced where
  paths wd p := by
    rw [removeWatch_watches hk]
    change (k.watchPathHash.filter fun _ p => !path.isPrefixOf p).get wd = _ ↔ _
    rw [Hash.get_filter, Option.filter_eq_some_iff, hk.paths]
    simp [List.isPrefixOf_iff_prefix, ← Bool.not_eq_true, and_comm]
  descriptors p := by
    rw [removeWatch_watches hk]
    refine (foldl_erase _ _ p).trans ?_
    rw [hk.descriptors]
    rcases hp : k.inotify.watches.get p with _ | wd
    · simp
    · have hiff : (∃ it ∈ k.watchPathHash.entries.filter fun it => path.isPrefixOf it.2, it.2 = p) ↔
          path <+: p := by
        simp only [List.mem_filter, List.isPrefixOf_iff_prefix]
        constructor
        · rintro ⟨it, ⟨-, hpre⟩, rfl⟩
          exact hpre
        · exact fun hpre => ⟨⟨wd, p⟩, ⟨Hash.mem_entries.mpr ((hk.paths wd p).mpr hp), hpre⟩, rfl⟩
      simp only [hiff]
  fresh p wd h := by
    rw [removeWatch_watches hk] at h
    split at h
    · cases h
    · have hnext : (k.removeWatch path).inotify.nextWd = k.inotify.nextWd := (foldl_rmWatch _ _).2.1
      rw [hnext]
      exact hk.fresh p wd h

/-- A new watch, in the kernel and in the tables. -/
def entered (k : KInotify Kernel) (p : List QChar) : KInotify Kernel :=
  { k with
    inotify := { k.inotify with
      watches := k.inotify.watches.insert p k.inotify.nextWd
      nextWd := k.inotify.nextWd + 1 }
    watchPathHash := k.watchPathHash.insert k.inotify.nextWd p
    pathWatchHash := k.pathWatchHash.insert p k.inotify.nextWd }

theorem Synced.entered (hk : k.Synced) (hget : k.inotify.watches.get path = none) : (entered k path).Synced where
  paths wd q := by
    have hnone : k.watchPathHash.get k.inotify.nextWd = none := by
      rw [Option.eq_none_iff_forall_ne_some]
      intro q hq
      exact Int.lt_irrefl _ (hk.fresh q _ ((hk.paths _ q).mp hq))
    rw [KInotify.entered, Hash.get_insert, Hash.get_insert]
    rcases eq_or_ne wd k.inotify.nextWd with rfl | hwd
    · rw [Function.update_self, Option.some.injEq]
      rcases eq_or_ne q path with rfl | hq
      · simp
      · rw [Function.update_of_ne hq, ← hk.paths, hnone]
        simp [hq.symm]
    · rw [Function.update_of_ne hwd, hk.paths]
      rcases eq_or_ne q path with rfl | hq
      · rw [hget, Function.update_self]
        simp [hwd.symm]
      · rw [Function.update_of_ne hq]
  descriptors q := by
    rw [KInotify.entered, Hash.get_insert, Hash.get_insert, funext hk.descriptors]
  fresh q wd hq := by
    rw [KInotify.entered, Hash.get_insert] at hq
    rcases eq_or_ne q path with rfl | hne
    · rw [Function.update_self, Option.some.injEq] at hq
      exact hq ▸ Int.lt_succ _
    · rw [Function.update_of_ne hne] at hq
      exact Int.lt_trans (hk.fresh q wd hq) (Int.lt_succ _)

theorem watching_entered : (entered k path).Watching d ↔ k.Watching d ∨ d = path := by
  rw [Watching, entered, Hash.get_insert]
  rcases eq_or_ne d path with rfl | hne
  · simp
  · rw [Function.update_of_ne hne]
    simp [Watching, hne]

/-- What is entered again is what the tables have. -/
theorem Synced.entered_again (hk : k.Synced) {wd : ℤ} (hget : k.inotify.watches.get path = some wd) :
    Synced { k with
      watchPathHash := k.watchPathHash.insert wd path
      pathWatchHash := k.pathWatchHash.insert path wd } where
  paths wd' q := by
    have hpaths : Function.update k.watchPathHash.get wd (some path) = k.watchPathHash.get :=
      Function.update_eq_self_iff.mpr ((hk.paths wd path).mpr hget).symm
    rw [Hash.get_insert, hpaths]
    exact hk.paths wd' q
  descriptors q := by
    have hdescriptors : Function.update k.pathWatchHash.get path (some wd) = k.pathWatchHash.get :=
      Function.update_eq_self_iff.mpr ((hk.descriptors path).trans hget).symm
    rw [Hash.get_insert, hdescriptors]
    exact hk.descriptors q
  fresh := hk.fresh

/-- What `Private::addWatch` can do: nothing, if there is no such directory; enter a new watch; or enter one again. -/
theorem addWatch_cases (k : KInotify Kernel) (path : List QChar) :
    (normalizeTrailingSlash path ∉ k.inotify.tree.dirs ∧ (Private.addWatch k path).1 = k) ∨
      normalizeTrailingSlash path ∈ k.inotify.tree.dirs ∧
        ((k.inotify.watches.get (normalizeTrailingSlash path) = none ∧
            (Private.addWatch k path).1 = entered k (normalizeTrailingSlash path)) ∨
          ∃ wd, k.inotify.watches.get (normalizeTrailingSlash path) = some wd ∧
            (Private.addWatch k path).1 = { k with
              watchPathHash := k.watchPathHash.insert wd (normalizeTrailingSlash path)
              pathWatchHash := k.pathWatchHash.insert (normalizeTrailingSlash path) wd }) := by
  by_cases hmem : normalizeTrailingSlash path ∈ k.inotify.tree.dirs
  · refine .inr ⟨hmem, ?_⟩
    rcases hget : k.inotify.watches.get (normalizeTrailingSlash path) with _ | wd
    · refine .inl ⟨rfl, ?_⟩
      simp only [Private.addWatch, Inotify.addWatch, if_pos hmem, hget, entered]
    · refine .inr ⟨wd, rfl, ?_⟩
      simp only [Private.addWatch, Inotify.addWatch, if_pos hmem, hget]
  · refine .inl ⟨hmem, ?_⟩
    simp only [Private.addWatch, Inotify.addWatch, if_neg hmem]
    rfl

/-- `Private::addWatch` watches a directory that there is. -/
theorem addWatch_spec (hk : k.Synced) (path : List QChar) :
    let k' := (Private.addWatch k path).1
    k'.Synced ∧ k'.inotify.tree = k.inotify.tree ∧
      (∀ d, k'.Watching d ↔ k.Watching d ∨
        d = normalizeTrailingSlash path ∧ d ∈ k.inotify.tree.dirs) ∧
      k'.config = k.config ∧ k'.userLimitReachedSignaled = k.userLimitReachedSignaled ∧
      k'.paths = k.paths ∧ k'.dirIter = k.dirIter ∧ k'.posted = k.posted := by
  intro k'
  rcases addWatch_cases k path with ⟨hmem, hk'⟩ | ⟨hmem, ⟨hget, hk'⟩ | ⟨wd, hget, hk'⟩⟩
  · rw [show k' = k from hk']
    refine ⟨hk, rfl, fun d => ⟨Or.inl, ?_⟩, rfl, rfl, rfl, rfl, rfl⟩
    rintro (h | ⟨rfl, hd⟩)
    · exact h
    · exact absurd hd hmem
  · rw [show k' = entered k _ from hk']
    refine ⟨hk.entered hget, rfl, fun d => ?_, rfl, rfl, rfl, rfl, rfl⟩
    rw [watching_entered]
    exact or_congr_right (and_iff_left_of_imp fun heq => heq ▸ hmem).symm
  · rw [show k' = _ from hk']
    refine ⟨hk.entered_again hget, rfl, fun d => ⟨Or.inl, ?_⟩, rfl, rfl, rfl, rfl, rfl⟩
    rintro (h | ⟨rfl, -⟩)
    · exact h
    · exact ⟨wd, hget⟩

/-- Watches keep their descriptors. -/
theorem addWatch_get {wd : ℤ} (h : k.inotify.watches.get d = some wd) (path : List QChar) :
    (Private.addWatch k path).1.inotify.watches.get d = some wd := by
  rcases addWatch_cases k path with ⟨-, hk'⟩ | ⟨-, ⟨hget, hk'⟩ | ⟨_, -, hk'⟩⟩
  · rwa [hk']
  · have hne : d ≠ normalizeTrailingSlash path := by
      rintro rfl
      rw [hget] at h
      cases h
    rw [hk', entered, Hash.get_insert, Function.update_of_ne hne]
    exact h
  · rwa [hk']

end

/-- The path of an entry of a watched directory. -/
theorem eventPath_of_get {σ : Type} {env : Surroundings} {k : KInotify σ} {event : Event} {d : List QChar}
    (hget : k.watchPathHash.get event.wd = some d) (hlast : d.getLast? = some separator)
    (hname : IsName (env.decodeName event.name))
    (hself : hasBit event.mask (EventDeleteSelf ||| EventMoveSelf) = false) :
    eventPath env k event = d ++ env.decodeName event.name ++
      if hasBit event.mask InIsDir then [separator] else [] := by
  have hne : d ≠ [] := by
    rintro rfl
    cases hlast
  have hconcat : concatPath d (env.decodeName event.name) = d ++ env.decodeName event.name := by
    rw [concatPath, if_neg (by simp [hne, hlast])]
  rw [eventPath, hself, hget, Option.getD_some, if_neg Bool.false_ne_true, hconcat]
  cases hasBit event.mask InIsDir with
  | false => simp
  | true =>
    rw [if_pos rfl, if_pos rfl]
    exact DirTree.normalize_name hname

/-! ## Installing watches -/

/-- `k'` is `k` after watches for these paths have been added, up to what is still queued. -/
structure Added (k : KInotify Kernel) (l : List (List QChar)) (k' : KInotify Kernel) : Prop where
  synced : k'.Synced
  tree : k'.inotify.tree = k.inotify.tree
  config : k'.config = k.config
  unlimited : k'.userLimitReachedSignaled = false
  watching : ∀ d, k'.Watching d ↔
    k.Watching d ∨ (∃ path ∈ l, d = normalizeTrailingSlash path) ∧ d ∈ k.inotify.tree.dirs

/-- The paths that the queued walks will give. -/
structure Todo (listing : Listing) (k : KInotify Kernel) (l : List (List QChar)) : Prop where
  nonempty : ∀ d ∈ l, d ≠ []
  walks : ∃ l₁ ls, (∀ it, k.dirIter = some it → Lists listing it l₁) ∧ (k.dirIter = none → l₁ = []) ∧
    List.Forall₂ (fun path => Lists listing (.construct listing k.config path .dirsOnly)) k.paths ls ∧
      l = l₁ ++ ls.flatten

section

variable {listing : Listing} {k k' k'' : KInotify Kernel} {l l₁ l₂ : List (List QChar)}

theorem Added.refl (hk : k.Synced) (h : k.userLimitReachedSignaled = false) : Added k [] k where
  synced := hk
  tree := rfl
  config := rfl
  unlimited := h
  watching d := by simp

theorem Added.trans (h : Added k l₁ k') (h' : Added k' l₂ k'') : Added k (l₁ ++ l₂) k'' where
  synced := h'.synced
  tree := h'.tree.trans h.tree
  config := h'.config.trans h.config
  unlimited := h'.unlimited
  watching d := by
    rw [h'.watching, h.watching, h.tree]
    simp only [List.mem_append, or_and_right, exists_or, or_assoc]

/-- How much there is to do for the loop. -/
def work (k : KInotify Kernel) (l : List (List QChar)) : ℕ :=
  l.length + 2 * k.paths.length + (if k.dirIter.isSome then 1 else 0)

theorem Synced.same (hk : k.Synced) (hinotify : k'.inotify = k.inotify)
    (hpaths : k'.watchPathHash = k.watchPathHash) (hwds : k'.pathWatchHash = k.pathWatchHash) :
    k'.Synced where
  paths := by rw [hinotify, hpaths]; exact hk.paths
  descriptors := by rw [hinotify, hwds]; exact hk.descriptors
  fresh := by rw [hinotify]; exact hk.fresh

/-- A batch of `n` rounds: it adds a part of the list, and stops early only if nothing is left. -/
def Batch (listing : Listing) (n : ℕ) (k : KInotify Kernel) (l : List (List QChar))
    (result : KInotify Kernel × List Signal × Bool) : Prop :=
  result.2.2 = false ∧ ∃ l₁ l₂, l = l₁ ++ l₂ ∧ Added k l₁ result.1 ∧ Todo listing result.1 l₂ ∧
    result.1.posted = k.posted ∧ ((result.1.dirIter = none ∧ result.1.paths = [] ∧ l₂ = []) ∨
      work result.1 l₂ + n ≤ work k l ∧
        (k.dirIter.isSome = true ∨ n ≠ 0 → result.1.dirIter.isSome = true))

/-- One round more in front. -/
theorem Batch.round (l₁ : List (List QChar)) {n : ℕ} {result result' : KInotify Kernel × List Signal × Bool}
    (h : Batch listing n k' l₂ result) (hadded : Added k l₁ k') (hposted : k'.posted = k.posted)
    (hwork : work k' l₂ < work k (l₁ ++ l₂)) (hiter : k'.dirIter.isSome = true)
    (hresult : result'.1 = result.1) (hreturned : result'.2.2 = result.2.2) :
    Batch listing (n + 1) k (l₁ ++ l₂) result' := by
  obtain ⟨hnot, l₃, l₄, rfl, hadded', htodo, hposted', hend⟩ := h
  refine ⟨hreturned.trans hnot, l₁ ++ l₃, l₄, (List.append_assoc ..).symm, ?_, ?_, ?_, ?_⟩
  · exact hresult ▸ hadded.trans hadded'
  · exact hresult ▸ htodo
  · rw [hresult, hposted', hposted]
  · rw [hresult]
    refine hend.imp_right ?_
    rintro ⟨hle, hit⟩
    exact ⟨by omega, fun _ => hit (Or.inl hiter)⟩

/-- The round that takes the next path, when there is nothing left in the directory iterator. -/
theorem nextPath_spec {n : ℕ} (hk : k.Synced) (h : k.userLimitReachedSignaled = false) {ls}
    (hls : List.Forall₂ (fun path => Lists listing (.construct listing k.config path .dirsOnly))
      k.paths ls) (hne : ∀ d ∈ ls.flatten, d ≠ [])
    (hstep : (k.dirIter.map fun it => it.next listing).filter (fun (_, path) => path ≠ []) = none)
    (ih : ∀ k' : KInotify Kernel, k'.Synced → k'.userLimitReachedSignaled = false →
      Todo listing k' ls.flatten →
        Batch listing n k' ls.flatten (Private.addWatchesLoop listing n k')) :
    Batch listing (n + 1) k ls.flatten (Private.addWatchesLoop listing (n + 1) k) := by
  rcases hpaths : k.paths with _ | ⟨path, paths⟩
  · rw [hpaths, List.forall₂_nil_left_iff] at hls
    subst hls
    have heq : Private.addWatchesLoop listing (n + 1) k = ({ k with dirIter := none }, [], false) := by
      rw [Private.addWatchesLoop, if_neg (by simp [h]), hstep, hpaths]
    rw [heq]
    exact ⟨rfl, [], [], rfl, ⟨hk.same rfl rfl rfl, rfl, rfl, h, fun d => by simp [Watching]⟩,
      ⟨by simp, [], [], fun it hit => (by cases hit), fun _ => rfl, by rw [hpaths]; exact .nil, rfl⟩,
      rfl, Or.inl ⟨rfl, hpaths, rfl⟩⟩
  · rw [hpaths, List.forall₂_cons_left_iff] at hls
    obtain ⟨l₁, ls, hl₁, hls, rfl⟩ := hls
    rw [Private.addWatchesLoop, if_neg (by simp [h]), hstep, hpaths]
    have hbatch := ih { k with
        dirIter := some (.construct listing k.config path .dirsOnly), paths := paths }
      (hk.same rfl rfl rfl) h ⟨hne, l₁, ls, ?_, ?_, hls, rfl⟩
    · refine Batch.round [] hbatch
        ⟨hk.same rfl rfl rfl, rfl, rfl, h, fun d => by simp [Watching]⟩ rfl ?_ rfl rfl rfl
      simp only [work, Option.isSome_some, ↓reduceIte, hpaths, List.length_cons, List.nil_append]
      omega
    · rintro it ⟨⟩
      exact hl₁
    · exact fun hnone => (by cases hnone)

/-- A batch of the installation. -/
theorem addWatchesLoop_spec (n : ℕ) (hk : k.Synced) (h : k.userLimitReachedSignaled = false)
    (htodo : Todo listing k l) : Batch listing n k l (Private.addWatchesLoop listing n k) := by
  induction n generalizing k l with
  | zero =>
    exact ⟨rfl, [], l, rfl, .refl hk h, htodo, rfl, Or.inr ⟨Nat.le_refl _, fun h => h.elim id (absurd rfl)⟩⟩
  | succ n ih =>
    obtain ⟨l₁, ls, hsome, hnone, hls, rfl⟩ := htodo.walks
    have hne : ∀ d ∈ ls.flatten, d ≠ [] := fun d hd =>
      htodo.nonempty d (List.mem_append_right _ hd)
    rcases hiter : k.dirIter with _ | it
    · obtain rfl := hnone hiter
      exact nextPath_spec hk h hls hne (by rw [hiter]; rfl) fun k' hk' h' htodo' => ih hk' h' htodo'
    · rcases (hsome it hiter).next with ⟨rfl, hdone, -⟩ | ⟨d, l₁, rfl, hpath, hfile, hrest⟩
      · exact nextPath_spec hk h hls hne (by simp [hiter, hdone]) fun k' hk' h' htodo' => ih hk' h' htodo'
      · have hd : d ≠ [] := htodo.nonempty d (List.mem_cons_self ..)
        obtain ⟨hsync, htree, hwatch, hconfig, hlimit, hpaths, hit, hposted⟩ :=
          @addWatch_spec { k with dirIter := some (it.next listing).1 } (hk.same rfl rfl rfl) d
        have hstep : Private.addWatchesLoop listing (n + 1) k =
            let k₁ := Private.addWatch { k with dirIter := some (it.next listing).1 } d
            let result := Private.addWatchesLoop listing n k₁.1
            (result.1, k₁.2 ++ result.2.1, result.2.2) := by
          rw [Private.addWatchesLoop, if_neg (by simp [h]), hiter, Option.map_some,
            Option.filter_some_pos (by simpa [hpath] using hd), ← hfile]
        rw [hstep]
        have hbatch := ih hsync (hlimit.trans h)
          ⟨fun x hx => htodo.nonempty x (List.mem_cons_of_mem _ hx), l₁, ls, ?_, ?_, ?_, rfl⟩
        · refine Batch.round [d] hbatch
            ⟨hsync, htree, hconfig, hlimit.trans h, fun x => ?_⟩ hposted ?_ ?_ rfl rfl
          · rw [hwatch]
            simp [Watching]
          · simp only [work, hit, hpaths, hiter, Option.isSome_some, ↓reduceIte, List.length_cons,
              List.singleton_append]
            omega
          · rw [hit]
            rfl
        · intro it' hit'
          rw [hit] at hit'
          cases hit'
          exact hrest
        · intro hnone'
          rw [hit] at hnone'
          cases hnone'
        · rw [hpaths, hconfig]
          exact hls

/-- One call of `_k_addWatches`: all is done, or the call is posted again. -/
theorem addWatches_spec (hk : k.Synced) (h : k.userLimitReachedSignaled = false)
    (htodo : Todo listing k l) : ∃ l₁ l₂, l = l₁ ++ l₂ ∧
      let k' := (Private.addWatches listing k).1
      Added k l₁ k' ∧ Todo listing k' l₂ ∧
        ((k'.dirIter = none ∧ k'.paths = [] ∧ l₂ = [] ∧ k'.posted = k.posted) ∨
          work k' l₂ < work k l ∧ k'.posted = k.posted + 1) := by
  obtain ⟨hnot, l₁, l₂, hl, hadded, htodo', hposted, hend⟩ := addWatchesLoop_spec 1000 hk h htodo
  refine ⟨l₁, l₂, hl, ?_⟩
  simp only [Private.addWatches, hnot, Bool.false_eq_true, ↓reduceIte]
  rcases hend with ⟨hiter, hpaths, rfl⟩ | ⟨hwork, hiter⟩
  · rw [hiter]
    exact ⟨hadded, htodo', Or.inl ⟨hiter, hpaths, rfl, hposted⟩⟩
  · rw [if_pos (hiter (Or.inr (by decide)))]
    refine ⟨⟨hadded.synced.same rfl rfl rfl, hadded.tree, hadded.config, hadded.unlimited,
      hadded.watching⟩, ⟨htodo'.nonempty, htodo'.walks⟩, Or.inr ⟨?_, by rw [hposted]⟩⟩
    change work (Private.addWatchesLoop listing 1000 k).1 l₂ < _
    omega

/-- The event loop comes to the end of the installation. -/
theorem installWatches_returns (hk : k.Synced) (h : k.userLimitReachedSignaled = false)
    (htodo : Todo listing k l) (hposted : k.posted = 0 → l = []) :
    ∃ k', Fuel.Returns (fun n => FileWatch.installWatches listing n k) k' ∧ Added k l k' := by
  induction hm : work k l + k.posted using Nat.strong_induction_on generalizing k l with
  | _ m ih =>
    subst hm
    rcases Nat.eq_zero_or_pos k.posted with hzero | hpos
    · obtain rfl := hposted hzero
      refine ⟨k, ⟨0, fun n _ => ?_⟩, .refl hk h⟩
      change FileWatch.installWatches listing n k = some k
      cases n <;> rw [FileWatch.installWatches, if_pos hzero]
    · obtain ⟨l₁, l₂, rfl, hadded, htodo', hend⟩ := @addWatches_spec listing
        { k with posted := k.posted - 1 } _ (hk.same rfl rfl rfl) h ⟨htodo.nonempty, htodo.walks⟩
      set k₁ := (Private.addWatches listing { k with posted := k.posted - 1 }).1 with hk₁
      have hsmaller : work k₁ l₂ + k₁.posted < work k (l₁ ++ l₂) + k.posted ∧
          (k₁.posted = 0 → l₂ = []) := by
        rcases hend with ⟨hiter, hpaths, rfl, hposted'⟩ | ⟨hwork, hposted'⟩
        · refine ⟨?_, fun _ => rfl⟩
          have hzero : work k₁ [] = 0 := by simp [work, hiter, hpaths]
          rw [hzero, hposted']
          change 0 + (k.posted - 1) < _
          omega
        · change _ < work k (l₁ ++ l₂) at hwork
          change _ = (k.posted - 1) + 1 at hposted'
          exact ⟨by omega, fun h => by omega⟩
      obtain ⟨k', hreturns, hadded'⟩ := ih _ hsmaller.1 hadded.synced hadded.unlimited htodo'
        hsmaller.2 rfl
      refine ⟨k', Fuel.Returns.succ ?_, ?_⟩
      · obtain ⟨n, hn⟩ := hreturns
        refine ⟨n, fun m hm => ?_⟩
        change FileWatch.installWatches listing (m + 1) k = some k'
        rw [FileWatch.installWatches, if_neg (Nat.ne_of_gt hpos), ← hk₁]
        exact hn m hm
      · have htrans := hadded.trans hadded'
        exact ⟨htrans.synced, htrans.tree, htrans.config, htrans.unlimited, htrans.watching⟩

end

end KInotify

/-! ## The update -/

namespace FileWatch

open KInotify DirTree

/-- Nothing is going on: the watches are installed. -/
structure Idle (k : KInotify Kernel) : Prop where
  synced : k.Synced
  unlimited : k.userLimitReachedSignaled = false
  dirIter : k.dirIter = none
  posted : k.posted = 0 → k.paths = []

section

variable {k : KInotify Kernel} {folders : List (List QChar)} {d : List QChar}

theorem removeWatches_spec (hk : Idle k) (folders : List (List QChar)) :
    let k' := folders.foldl KInotify.removeWatch k
    Idle k' ∧ k'.inotify.tree = k.inotify.tree ∧ k'.config = k.config ∧
      (∀ d, k'.Watching d ↔ k.Watching d ∧ ∀ folder ∈ folders, ¬ folder <+: d) ∧
      ∀ q, q ∈ k'.paths ↔ q ∈ k.paths ∧ ∀ folder ∈ folders, ¬ folder <+: q := by
  induction folders generalizing k with
  | nil => exact ⟨hk, rfl, rfl, by simp, by simp⟩
  | cons folder folders ih =>
    have hidle : Idle (k.removeWatch folder) := by
      refine ⟨hk.synced.removeWatch folder, hk.unlimited, ?_, fun hposted => ?_⟩
      · change Option.filter _ k.dirIter = none
        rw [hk.dirIter]
        rfl
      · change List.filter _ k.paths = []
        rw [hk.posted hposted]
        rfl
    obtain ⟨hidle', htree, hconfig, hwatching, hpaths⟩ := ih hidle
    refine ⟨hidle', htree.trans (foldl_rmWatch _ _).1, hconfig, fun d => ?_, fun q => ?_⟩
    · rw [List.foldl_cons, hwatching, Watching, removeWatch_watches hk.synced]
      split
      · next hpre => simp [hpre]
      · next hpre => simp [hpre, Watching]
    · rw [List.foldl_cons, hpaths]
      change q ∈ List.filter _ k.paths ∧ _ ↔ _
      simp [← Bool.not_eq_true, List.isPrefixOf_iff_prefix, and_assoc]

theorem watchFolders_spec (hk : Idle k) (hfolders : ∀ folder ∈ folders, folder.getLast? = some separator) :
    let k' := folders.foldl watchFolder k
    Idle k' ∧ k'.inotify = k.inotify ∧ k'.config = k.config ∧
      ∀ q, q ∈ k'.paths ↔ q ∈ k.paths ∨ q ∈ folders ∧ ¬ k.Watching q := by
  induction folders generalizing k with
  | nil => exact ⟨hk, rfl, rfl, by simp⟩
  | cons folder folders ih =>
    have hslash := hfolders folder (List.mem_cons_self ..)
    have hrest := fun f hf => hfolders f (List.mem_cons_of_mem _ hf)
    have hstep : Idle (watchFolder k folder) ∧ (watchFolder k folder).inotify = k.inotify ∧
        (watchFolder k folder).config = k.config ∧
        ∀ q, q ∈ (watchFolder k folder).paths ↔ q ∈ k.paths ∨ q = folder ∧ ¬ k.Watching q := by
      rw [watchFolder]
      split
      · next hnot =>
        rw [Bool.not_eq_true', ← Bool.not_eq_true, watchingPath_iff hk.synced hslash] at hnot
        rw [KInotify.addWatch, if_neg (by simp [hk.unlimited])]
        refine ⟨⟨hk.synced.same rfl rfl rfl, hk.unlimited, hk.dirIter, fun h => by cases h⟩, rfl, rfl, ?_⟩
        intro q
        simp only [List.mem_append, List.mem_singleton]
        refine or_congr_right ⟨?_, And.left⟩
        rintro rfl
        exact ⟨rfl, hnot⟩
      · next hwatched =>
        rw [Bool.not_eq_true', Bool.not_eq_false, watchingPath_iff hk.synced hslash] at hwatched
        refine ⟨hk, rfl, rfl, fun q => ⟨Or.inl, ?_⟩⟩
        rintro (hq | ⟨rfl, hnot⟩)
        · exact hq
        · exact absurd hwatched hnot
    obtain ⟨hidle, hinotify, hconfig, hpaths⟩ := hstep
    obtain ⟨hidle', hinotify', hconfig', hpaths'⟩ := ih hidle hrest
    refine ⟨hidle', hinotify'.trans hinotify, hconfig'.trans hconfig, fun q => ?_⟩
    have hsame : (watchFolder k folder).Watching q ↔ k.Watching q := by rw [Watching, Watching, hinotify]
    rw [List.foldl_cons, hpaths', hpaths, hsame]
    simp only [List.mem_cons, or_and_right, or_assoc]

end

section

variable {fw : FileWatch Kernel} {d q : List QChar}

theorem mem_others {l l' : List (List QChar)} : q ∈ others l l' ↔ q ∈ l ∧ q ∉ l' := by simp [others]

/-- The watch is dropped by the update. -/
def Dropped (fw : FileWatch Kernel) (d : List QChar) : Prop :=
  ∃ folder, (folder ∈ others fw.config.excludeFolders fw.excludedFolders ∨
    folder ∈ others fw.includedFolders fw.config.includeFolders) ∧ folder <+: d

/-- A walk from the folder is queued by the update. -/
def Walked (fw : FileWatch Kernel) (q : List QChar) : Prop :=
  (q ∈ others fw.excludedFolders fw.config.excludeFolders ∧
    ¬ (fw.dirWatch.Watching q ∧ ∀ folder ∈ others fw.config.excludeFolders fw.excludedFolders, ¬ folder <+: q) ∧
    ∀ folder ∈ others fw.includedFolders fw.config.includeFolders, ¬ folder <+: q) ∨
  q ∈ others fw.config.includeFolders fw.includedFolders ∧ ¬ (fw.dirWatch.Watching q ∧ ¬ fw.Dropped q)

theorem mem_folders_slash {config : FileIndexerConfig}
    (h : q ∈ config.includeFolders ∨ q ∈ config.excludeFolders) : q.getLast? = some separator := by
  simp only [includeFolders, excludeFolders, List.mem_map, List.mem_filter] at h
  rcases h with ⟨entry, ⟨hentry, -⟩, rfl⟩ | ⟨entry, ⟨hentry, -⟩, rfl⟩
  · exact config.folderCache.slash entry hentry
  · exact config.folderCache.slash entry hentry

/-- The update removes what is dropped, and queues the walks. -/
theorem updated_spec (hidle : Idle fw.dirWatch) (hpaths : fw.dirWatch.paths = [])
    (hconfig : fw.dirWatch.config = some fw.config)
    (hseen : ∀ q ∈ fw.excludedFolders, q.getLast? = some separator) :
    Idle fw.updateIndexedFoldersWatches.dirWatch ∧
      fw.updateIndexedFoldersWatches.dirWatch.inotify.tree = fw.dirWatch.inotify.tree ∧
      fw.updateIndexedFoldersWatches.dirWatch.config = some fw.config ∧
      (∀ d, fw.updateIndexedFoldersWatches.dirWatch.Watching d ↔ fw.dirWatch.Watching d ∧ ¬ fw.Dropped d) ∧
      ∀ q, q ∈ fw.updateIndexedFoldersWatches.dirWatch.paths ↔ fw.Walked q := by
  obtain ⟨k₁, hk₁⟩ : ∃ k₁, k₁ = (others fw.config.excludeFolders fw.excludedFolders).foldl
    KInotify.removeWatch fw.dirWatch := ⟨_, rfl⟩
  obtain ⟨k₂, hk₂⟩ : ∃ k₂, k₂ = (others fw.excludedFolders fw.config.excludeFolders).foldl
    watchFolder k₁ := ⟨_, rfl⟩
  obtain ⟨k₃, hk₃⟩ : ∃ k₃, k₃ = (others fw.includedFolders fw.config.includeFolders).foldl
    KInotify.removeWatch k₂ := ⟨_, rfl⟩
  obtain ⟨k₄, hk₄⟩ : ∃ k₄, k₄ = (others fw.config.includeFolders fw.includedFolders).foldl
    watchFolder k₃ := ⟨_, rfl⟩
  have hupdate : fw.updateIndexedFoldersWatches.dirWatch = k₄ := by
    rw [hk₄, hk₃, hk₂, hk₁]
    rfl
  obtain ⟨hidle₁, htree₁, hconfig₁, hwatch₁, hpaths₁⟩ : _ ∧ _ ∧ _ ∧ (∀ d, k₁.Watching d ↔ _) ∧ _ :=
    hk₁ ▸ removeWatches_spec hidle _
  obtain ⟨hidle₂, hinotify₂, hconfig₂, hpaths₂⟩ : _ ∧ _ ∧ _ ∧ (∀ q, q ∈ k₂.paths ↔ _) :=
    hk₂ ▸ watchFolders_spec hidle₁ fun q hq => hseen q (mem_others.mp hq).1
  obtain ⟨hidle₃, htree₃, hconfig₃, hwatch₃, hpaths₃⟩ : _ ∧ _ ∧ _ ∧ (∀ d, k₃.Watching d ↔ _) ∧ _ :=
    hk₃ ▸ removeWatches_spec hidle₂ _
  obtain ⟨hidle₄, hinotify₄, hconfig₄, hpaths₄⟩ : _ ∧ _ ∧ _ ∧ (∀ q, q ∈ k₄.paths ↔ _) :=
    hk₄ ▸ watchFolders_spec hidle₃ fun q hq => mem_folders_slash (Or.inl (mem_others.mp hq).1)
  have hsame : ∀ {k k' : KInotify Kernel}, k'.inotify = k.inotify → ∀ d, k'.Watching d ↔ k.Watching d := by
    intro k k' h d
    rw [Watching, Watching, h]
  rw [hupdate]
  refine ⟨hidle₄, ?_, hconfig₄.trans (hconfig₃.trans (hconfig₂.trans (hconfig₁.trans hconfig))), fun d => ?_,
    fun q => ?_⟩
  · exact (congrArg Kernel.tree hinotify₄).trans
      (htree₃.trans ((congrArg Kernel.tree hinotify₂).trans htree₁))
  · rw [hsame hinotify₄, hwatch₃, hsame hinotify₂, hwatch₁, and_assoc]
    simp only [Dropped, or_and_right, exists_or, not_or, not_exists, not_and]
  · rw [hpaths₄, hpaths₃, hpaths₂, hpaths₁, hwatch₃, hsame hinotify₂, hwatch₁, hpaths]
    simp only [List.not_mem_nil, false_and, false_or, Walked, Dropped, or_and_right, exists_or, not_or,
      not_exists, not_and, and_assoc]

/-- The installation watches what the queued walks lead to. -/
theorem installed_spec {k : KInotify Kernel} {config : FileIndexerConfig} (hidle : Idle k)
    (hconfig : k.config = some config) (hslash : ∀ q ∈ k.paths, q.getLast? = some separator) :
    ∃ k', Fuel.Returns (fun n => installWatches k.inotify.tree.listing n k) k' ∧ k'.Synced ∧
      ∀ d, k'.Watching d ↔ k.Watching d ∨
        ∃ q ∈ k.paths, d ∈ k.inotify.tree.dirs ∧ k.inotify.tree.Leads config q d := by
  -- what the queued walks will give
  obtain ⟨depth, hdepth⟩ := k.inotify.tree.exists_depth
  choose lists hlists hmem using fun q => exists_lists hdepth k.inotify.tree.listing_longer k.config q
    FilteredDirIterator.Filter.dirsOnly
  have htodo : Todo k.inotify.tree.listing k (k.paths.map lists).flatten := by
    refine ⟨fun d hd => ?_, [], k.paths.map lists, fun it hit => ?_, fun _ => rfl, ?_, rfl⟩
    · obtain ⟨l, hl, hd⟩ := List.mem_flatten.mp hd
      obtain ⟨q, hq, rfl⟩ := List.mem_map.mp hl
      rcases ((hmem q d).mp hd).2 with rfl | ⟨info, hbelow, rfl⟩
      · rintro rfl
        cases hslash _ hq
      · exact filePath_ne_nil hbelow
    · rw [hidle.dirIter] at hit
      cases hit
    · rw [List.forall₂_map_right_iff, List.forall₂_same]
      exact fun q _ => hlists q
  obtain ⟨k', hreturns, hadded⟩ := installWatches_returns hidle.synced hidle.unlimited htodo
    fun hposted => by rw [hidle.posted hposted]; rfl
  refine ⟨k', hreturns, hadded.synced, fun d => ?_⟩
  rw [hadded.watching]
  refine or_congr_right ?_
  constructor
  · rintro ⟨⟨x, hx, rfl⟩, hd⟩
    obtain ⟨l, hl, hx⟩ := List.mem_flatten.mp hx
    obtain ⟨q, hq, rfl⟩ := List.mem_map.mp hl
    rw [hmem, hconfig, Option.all_some] at hx
    refine ⟨q, hq, (walk_iff (hslash q hq)).mp ⟨⟨hx.1, ?_⟩, hd⟩⟩
    rcases hx.2 with rfl | ⟨info, hbelow, rfl⟩
    · exact Or.inl (by rw [normalizeTrailingSlash, if_pos (hslash _ hq)])
    · exact Or.inr ⟨info, hbelow, rfl⟩
  · rintro ⟨q, hq, h⟩
    obtain ⟨⟨hyes, h⟩, hd⟩ := (walk_iff (hslash q hq)).mpr h
    refine ⟨?_, hd⟩
    rcases h with rfl | ⟨info, hbelow, rfl⟩
    · refine ⟨d, List.mem_flatten.mpr ⟨lists d, List.mem_map_of_mem hq, ?_⟩, (normalize_mem hd).symm⟩
      rw [hmem, hconfig, Option.all_some]
      exact ⟨hyes, Or.inl rfl⟩
    · refine ⟨info.filePath, List.mem_flatten.mpr ⟨lists q, List.mem_map_of_mem hq, ?_⟩, rfl⟩
      rw [hmem, hconfig, Option.all_some]
      exact ⟨hyes, Or.inr ⟨info, hbelow, rfl⟩⟩

/-- The update and the installation that follows. -/
theorem update_spec (hidle : Idle fw.dirWatch) (hpaths : fw.dirWatch.paths = [])
    (hconfig : fw.dirWatch.config = some fw.config)
    (hseen : ∀ q ∈ fw.excludedFolders, q.getLast? = some separator) :
    ∃ k', Fuel.Returns (fun n => installWatches fw.dirWatch.inotify.tree.listing n
        fw.updateIndexedFoldersWatches.dirWatch) k' ∧ k'.Synced ∧
      ∀ d, k'.Watching d ↔ (fw.dirWatch.Watching d ∧ ¬ fw.Dropped d) ∨
        ∃ q, fw.Walked q ∧ d ∈ fw.dirWatch.inotify.tree.dirs ∧
          fw.dirWatch.inotify.tree.Leads fw.config q d := by
  obtain ⟨hidle', htree, hconfig', hkept, hqueued⟩ := updated_spec hidle hpaths hconfig hseen
  have hslash : ∀ q ∈ fw.updateIndexedFoldersWatches.dirWatch.paths, q.getLast? = some separator := by
    intro q hq
    rcases (hqueued q).mp hq with ⟨h, -⟩ | ⟨h, -⟩
    · exact hseen q (mem_others.mp h).1
    · exact mem_folders_slash (Or.inl (mem_others.mp h).1)
  obtain ⟨k', hreturns, hsynced, hwatching⟩ := installed_spec hidle' hconfig' hslash
  rw [htree] at hreturns hwatching
  refine ⟨k', hreturns, hsynced, fun d => ?_⟩
  simp only [hwatching, hkept, hqueued]

end

/-! ## Two configurations -/

section

variable (tree : DirTree) (old new : FileIndexerConfig)

/-- The directory is below a folder that is newly excluded or no longer included. -/
def BelowDropped (d : List QChar) : Prop :=
  ∃ folder, (folder ∈ new.excludeFolders ∧ folder ∉ old.excludeFolders ∨
    folder ∈ old.includeFolders ∧ folder ∉ new.includeFolders) ∧ folder <+: d

/-- The folder is walked again: it is no longer excluded, and not below a folder that is no longer
included; or it is newly included, and it was not watched before or its watch is dropped. -/
def WalkedAgain (q : List QChar) : Prop :=
  (q ∈ old.excludeFolders ∧ q ∉ new.excludeFolders ∧
    ∀ folder ∈ old.includeFolders, folder ∉ new.includeFolders → ¬ folder <+: q) ∨
  q ∈ new.includeFolders ∧ q ∉ old.includeFolders ∧
    (¬ tree.Indexed old q ∨ BelowDropped old new q)

/-- To every directory that should be indexed and is below a dropped folder, a folder that is walked
again leads. -/
def DroppedIsWalked : Prop :=
  ∀ d, tree.Indexed new d → BelowDropped old new d → ∃ q, WalkedAgain tree old new q ∧ tree.Leads new q d

variable {tree old new} {config : FileIndexerConfig} {d q : List QChar} {F F' : FolderConfig}

theorem mem_includeFolders : q ∈ config.includeFolders ↔ ⟨q, true⟩ ∈ config.folderCache.entries := by
  simp only [includeFolders, List.mem_map, List.mem_filter]
  constructor
  · rintro ⟨⟨path, incl⟩, ⟨hmem, rfl⟩, rfl⟩
    exact hmem
  · exact fun hmem => ⟨⟨q, true⟩, ⟨hmem, rfl⟩, rfl⟩

theorem mem_excludeFolders : q ∈ config.excludeFolders ↔ ⟨q, false⟩ ∈ config.folderCache.entries := by
  simp only [excludeFolders, List.mem_map, List.mem_filter, Bool.not_eq_true']
  constructor
  · rintro ⟨⟨path, incl⟩, ⟨hmem, rfl⟩, rfl⟩
    exact hmem
  · exact fun hmem => ⟨⟨q, false⟩, ⟨hmem, rfl⟩, rfl⟩

theorem indexed_iff : tree.Indexed config d ↔ d ∈ tree.dirs ∧ ∃ F, config.Decides d F ∧
    F.isIncluded = true ∧ config.Passes (d.drop F.path.length) :=
  and_congr_right fun hd => shouldFolderBeIndexed_iff (normalize_of_mem hd)

/-- The rest of a path in two parts. -/
theorem passes_split {a b : List QChar} (ha : a <+: b) (hb : b <+: d) (hlast : b.getLast? = some separator) :
    config.Passes (d.drop a.length) ↔
      config.Passes (b.drop a.length) ∧ config.Passes (d.drop b.length) := by
  obtain ⟨t, rfl⟩ := hb
  rw [List.drop_append_of_le_length ha.length_le, List.drop_left, passes_append]
  obtain ⟨u, rfl⟩ := ha
  rw [List.drop_left]
  rcases eq_or_ne u [] with rfl | hu
  · exact Or.inl rfl
  · rw [List.getLast?_append_of_ne_nil _ hu] at hlast
    exact Or.inr hlast

/-- Below the folder that decides about a directory, every folder leads to it. -/
theorem leads_of_decides (hF : new.Decides d F) (hincl : F.isIncluded = true)
    (hpasses : new.Passes (d.drop F.path.length)) (hq : F.path <+: q) (hqd : q <+: d) :
    tree.Leads new q d := by
  refine ⟨hqd, fun e he hqe hed => (shouldFolderBeIndexed_iff (normalize_of_mem he)).mpr ⟨F, ?_, hincl, ?_⟩⟩
  · exact ⟨hF.1, hq.trans hqe, fun F' hF' hpre => hF.2.2 F' hF' (hpre.trans hed)⟩
  · exact ((passes_split (hq.trans hqe) hed (closed_of_mem he)).mp hpasses).1

theorem passes_congr (hexact : new.exactMatch = old.exactMatch) (hhidden : new.indexHidden = old.indexHidden)
    (s : List QChar) : new.Passes s ↔ old.Passes s := by
  simp only [Passes, shouldFileBeIndexed, hexact, hhidden]

/-- What is kept is still to be indexed. -/
theorem indexed_of_kept (hexact : new.exactMatch = old.exactMatch)
    (hhidden : new.indexHidden = old.indexHidden) (h : tree.Indexed old d)
    (hkept : ¬ BelowDropped old new d) : tree.Indexed new d := by
  obtain ⟨hd, F, hF, hincl, hpasses⟩ := indexed_iff.mp h
  obtain ⟨path, incl⟩ := F
  obtain rfl : incl = true := hincl
  have hnew : (⟨path, true⟩ : FolderConfig) ∈ new.folderCache.entries := by
    rw [← mem_includeFolders]
    by_contra hnot
    exact hkept ⟨path, Or.inr ⟨mem_includeFolders.mpr hF.1, hnot⟩, hF.2.1⟩
  obtain ⟨F', hF'⟩ := exists_decides hnew hF.2.1
  have hpre : path <+: F'.path :=
    List.prefix_of_prefix_length_le hF.2.1 hF'.2.1 (hF'.2.2 _ hnew hF.2.1)
  refine indexed_iff.mpr ⟨hd, F', hF', ?_, ?_⟩
  · by_contra hexcl
    obtain ⟨path', incl'⟩ := F'
    obtain rfl : incl' = false := by simpa using hexcl
    refine hkept ⟨path', Or.inl ⟨mem_excludeFolders.mpr hF'.1, fun hold => ?_⟩, hF'.2.1⟩
    -- then it decides in the old configuration as well
    have hle := hF.2.2 _ (mem_excludeFolders.mp hold) hF'.2.1
    obtain rfl : path = path' := hpre.eq_of_length (Nat.le_antisymm hpre.length_le hle)
    have hsame := entry_ext hF'.1 hnew rfl
    cases hsame
  · rw [passes_congr hexact hhidden]
    exact ((passes_split hpre hF'.2.1 (new.folderCache.slash _ hF'.1)).mp hpasses).2

/-- A longer folder of the old configuration that is gone was an excluded one, and is walked. -/
theorem walkedAgain_of_longer (hF : old.Decides d F) (hF' : new.Decides d F') (hincl : F'.isIncluded = true)
    (hpasses : new.Passes (d.drop F'.path.length)) (hlt : F'.path.length < F.path.length)
    (hkept : ¬ BelowDropped old new d) : ∃ q, WalkedAgain tree old new q ∧ tree.Leads new q d := by
  have hgone : ∀ incl, (⟨F.path, incl⟩ : FolderConfig) ∉ new.folderCache.entries := by
    intro incl hmem
    have hle := hF'.2.2 _ hmem hF.2.1
    exact absurd hlt (Nat.not_lt.mpr hle)
  have hpre : F'.path <+: F.path := List.prefix_of_prefix_length_le hF'.2.1 hF.2.1 (Nat.le_of_lt hlt)
  obtain ⟨path, incl⟩ := F
  cases incl with
  | true =>
    exact absurd ⟨path, Or.inr ⟨mem_includeFolders.mpr hF.1, fun h => hgone true (mem_includeFolders.mp h)⟩,
      hF.2.1⟩ hkept
  | false =>
    refine ⟨path, Or.inl ⟨mem_excludeFolders.mpr hF.1, fun h => hgone false (mem_excludeFolders.mp h), ?_⟩,
      leads_of_decides hF' hincl hpasses hpre hF.2.1⟩
    exact fun folder hmem hnot hfolder => hkept ⟨folder, Or.inr ⟨hmem, hnot⟩, hfolder.trans hF.2.1⟩

/-- What is to be indexed and not below a dropped folder is watched already or walked. -/
theorem watched_or_walked (hexact : new.exactMatch = old.exactMatch)
    (hhidden : new.indexHidden = old.indexHidden) (h : tree.Indexed new d)
    (hkept : ¬ BelowDropped old new d) :
    tree.Indexed old d ∨ ∃ q, WalkedAgain tree old new q ∧ tree.Leads new q d := by
  obtain ⟨hd, F', hF', hincl, hpasses⟩ := indexed_iff.mp h
  -- a folder of the old configuration decides, or none does
  have hcompare : ∀ F₀ ∈ old.folderCache.entries, F₀.path <+: d → F₀.isIncluded = true →
      F₀.path.length ≤ F'.path.length → old.Passes (d.drop F₀.path.length) →
        (∀ F, old.Decides d F → F.path.length ≤ F'.path.length → F = F₀) →
          tree.Indexed old d ∨ ∃ q, WalkedAgain tree old new q ∧ tree.Leads new q d := by
    intro F₀ hF₀ hpre hincl₀ hle hpasses₀ honly
    obtain ⟨F, hF⟩ := exists_decides hF₀ hpre
    rcases Nat.lt_or_ge F'.path.length F.path.length with hlt | hge
    · exact Or.inr (walkedAgain_of_longer hF hF' hincl hpasses hlt hkept)
    · obtain rfl := honly F hF hge
      exact Or.inl (indexed_iff.mpr ⟨hd, F, hF, hincl₀, hpasses₀⟩)
  obtain ⟨path, incl⟩ := F'
  obtain rfl : incl = true := hincl
  rcases Decidable.em (path ∈ old.includeFolders) with hold | hold
  · refine hcompare ⟨path, true⟩ (mem_includeFolders.mp hold) hF'.2.1 rfl (Nat.le_refl _)
      ((passes_congr hexact hhidden _).mp hpasses) fun F hF hle => ?_
    have hge := hF.2.2 _ (mem_includeFolders.mp hold) hF'.2.1
    exact entry_ext hF.1 (mem_includeFolders.mp hold)
      ((List.prefix_of_prefix_length_le hF.2.1 hF'.2.1 hle).eq_of_length (Nat.le_antisymm hle hge))
  · have hmem : path ∈ tree.dirs := mem_of_prefix hd hF'.2.1 (new.folderCache.slash _ hF'.1)
    by_cases hindexed : tree.Indexed old path
    · obtain ⟨-, F₀, hF₀, hincl₀, hpasses₀⟩ := indexed_iff.mp hindexed
      refine hcompare F₀ hF₀.1 (hF₀.2.1.trans hF'.2.1) hincl₀ hF₀.2.1.length_le ?_ fun F hF hle => ?_
      · rw [passes_split hF₀.2.1 hF'.2.1 (new.folderCache.slash _ hF'.1)]
        exact ⟨hpasses₀, (passes_congr hexact hhidden _).mp hpasses⟩
      · -- it decides about the new folder as well
        refine Decides.unique ⟨hF.1, List.prefix_of_prefix_length_le hF.2.1 hF'.2.1 hle, ?_⟩ hF₀
        exact fun e he hpre => hF.2.2 e he (hpre.trans hF'.2.1)
    · exact Or.inr ⟨path, Or.inr ⟨mem_includeFolders.mpr hF'.1, hold, Or.inl hindexed⟩,
        leads_of_decides hF' rfl hpasses List.prefix_rfl hF'.2.1⟩

/-- An excluded folder is not to be indexed. -/
theorem not_indexed_of_excluded (h : q ∈ config.excludeFolders) : ¬ tree.Indexed config q := by
  intro hindexed
  obtain ⟨-, F, hF, hincl, -⟩ := indexed_iff.mp hindexed
  have hmem := mem_excludeFolders.mp h
  have hle := hF.2.2 _ hmem List.prefix_rfl
  have hsame := entry_ext hF.1 hmem (hF.2.1.eq_of_length (Nat.le_antisymm hF.2.1.length_le hle))
  rw [hsame] at hincl
  cases hincl

end

/-! ## The update and a fresh setup -/

/-- The watches are those for the configuration that was seen last, and nothing is queued. -/
structure Settled (tree : DirTree) (old : FileIndexerConfig) (fw : FileWatch Kernel) : Prop where
  idle : Idle fw.dirWatch
  done : fw.dirWatch.paths = []
  onTree : fw.dirWatch.inotify.tree = tree
  included : fw.includedFolders = old.includeFolders
  excluded : fw.excludedFolders = old.excludeFolders
  watching : ∀ d, fw.dirWatch.Watching d ↔ tree.Indexed old d

/-- Before anything is watched. -/
def fresh (tree : DirTree) (config : FileIndexerConfig) : FileWatch Kernel where
  config := config
  dirWatch := { config := some config, inotify := { tree := tree } }

section

variable {tree : DirTree} {old new config : FileIndexerConfig} {fw : FileWatch Kernel} {d q : List QChar}

theorem indexed_of_leads (hd : d ∈ tree.dirs) (h : tree.Leads new q d) : tree.Indexed new d :=
  ⟨hd, h.2 d hd h.1 List.prefix_rfl⟩

/-- A fresh setup watches exactly what is to be indexed. -/
theorem fresh_spec (tree : DirTree) (config : FileIndexerConfig) :
    ∃ k, Fuel.Returns (fun n => installWatches tree.listing n
        (fresh tree config).updateIndexedFoldersWatches.dirWatch) k ∧ k.Synced ∧
      ∀ d, k.Watching d ↔ tree.Indexed config d := by
  have hidle : Idle (fresh tree config).dirWatch :=
    ⟨⟨by simp [fresh], by simp [fresh], by simp [fresh]⟩, rfl, rfl, fun _ => rfl⟩
  obtain ⟨k, hreturns, hsynced, hwatching⟩ := update_spec hidle rfl rfl (by simp [fresh])
  have hnone : ∀ d, ¬ (fresh tree config).dirWatch.Watching d := by simp [fresh, Watching]
  refine ⟨k, hreturns, hsynced, fun d => ?_⟩
  rw [hwatching]
  constructor
  · rintro (⟨h, -⟩ | ⟨q, -, hd, hleads⟩)
    · exact absurd h (hnone d)
    · exact indexed_of_leads hd hleads
  · intro h
    obtain ⟨hd, F, hF, hincl, hpasses⟩ := indexed_iff.mp h
    obtain ⟨path, incl⟩ := F
    obtain rfl : incl = true := hincl
    refine Or.inr ⟨path, Or.inr ⟨mem_others.mpr ⟨mem_includeFolders.mpr hF.1, List.not_mem_nil⟩, ?_⟩, hd,
      leads_of_decides hF rfl hpasses List.prefix_rfl hF.2.1⟩
    exact fun h => hnone path h.1

/-- What is watched after the update. -/
theorem settled_update (hsettled : Settled tree old fw) (new : FileIndexerConfig) :
    ∃ k, Fuel.Returns (fun n => installWatches tree.listing n
        (fw.setConfig new).updateIndexedFoldersWatches.dirWatch) k ∧ k.Synced ∧
      ∀ d, k.Watching d ↔ (tree.Indexed old d ∧ ¬ BelowDropped old new d) ∨
        ∃ q, WalkedAgain tree old new q ∧ d ∈ tree.dirs ∧ tree.Leads new q d := by
  obtain ⟨hidle, hdone, htree, hincluded, hexcluded, hwatch⟩ := hsettled
  have hseen : ∀ q ∈ fw.excludedFolders, q.getLast? = some separator := fun q hq =>
    mem_folders_slash (Or.inr (hexcluded ▸ hq))
  obtain ⟨k, hreturns, hsynced, hwatching⟩ := @update_spec (fw.setConfig new)
    ⟨hidle.synced.same rfl rfl rfl, hidle.unlimited, hidle.dirIter, hidle.posted⟩ hdone rfl hseen
  change Fuel.Returns (fun n => installWatches fw.dirWatch.inotify.tree.listing n _) k at hreturns
  rw [htree] at hreturns
  refine ⟨k, hreturns, hsynced, fun d => ?_⟩
  have hdropped : ∀ d, (fw.setConfig new).Dropped d ↔ BelowDropped old new d := by
    intro d
    simp only [Dropped, BelowDropped, mem_others, setConfig, hincluded, hexcluded]
  have hwatch' : ∀ d, (fw.setConfig new).dirWatch.Watching d ↔ tree.Indexed old d := hwatch
  have hwalked : ∀ q, (fw.setConfig new).Walked q ↔ WalkedAgain tree old new q := by
    intro q
    simp only [Walked, hwatch', hdropped, mem_others, WalkedAgain]
    simp only [setConfig, hincluded, hexcluded, not_and, and_imp, not_not, and_assoc]
    refine or_congr (and_congr_right fun hq => and_congr_right fun _ => ?_)
      (and_congr_right fun _ => and_congr_right fun _ => ?_)
    · rw [and_iff_right]
      exact fun hindexed => absurd hindexed (not_indexed_of_excluded hq)
    · rw [imp_iff_not_or]
  rw [hwatching, hwatch', hdropped]
  simp only [hwalked]
  change _ ∨ (∃ q, WalkedAgain tree old new q ∧ d ∈ fw.dirWatch.inotify.tree.dirs ∧
    fw.dirWatch.inotify.tree.Leads new q d) ↔ _
  rw [htree]

/-- **When the update equals a fresh setup.** From watches that are right for the old configuration,
the update comes to an end, and it leaves the watches of a fresh setup, which are those of all
directories that should be indexed, if and only if a folder that is walked again leads to each of
these directories that is below a dropped folder. -/
theorem incremental_update_iff (hexact : new.exactMatch = old.exactMatch)
    (hhidden : new.indexHidden = old.indexHidden) (hsettled : Settled tree old fw) :
    ∃ k k₀, Fuel.Returns (fun n => installWatches tree.listing n
        (fw.setConfig new).updateIndexedFoldersWatches.dirWatch) k ∧ k.Synced ∧
      Fuel.Returns (fun n => installWatches tree.listing n
        (fresh tree new).updateIndexedFoldersWatches.dirWatch) k₀ ∧ k₀.Synced ∧
      (∀ d, k₀.Watching d ↔ tree.Indexed new d) ∧
      ((∀ d, k.Watching d ↔ k₀.Watching d) ↔ DroppedIsWalked tree old new) := by
  obtain ⟨k, hreturns, hsynced, hwatching⟩ := settled_update hsettled new
  obtain ⟨k₀, hreturns₀, hsynced₀, hwatching₀⟩ := fresh_spec tree new
  refine ⟨k, k₀, hreturns, hsynced, hreturns₀, hsynced₀, hwatching₀, fun h d hd hdropped => ?_, fun h d => ?_⟩
  · rcases (hwatching d).mp ((h d).mpr ((hwatching₀ d).mpr hd)) with ⟨-, hkept⟩ | ⟨q, hq, -, hleads⟩
    · exact absurd hdropped hkept
    · exact ⟨q, hq, hleads⟩
  · rw [hwatching, hwatching₀]
    constructor
    · rintro (⟨hd, hkept⟩ | ⟨q, -, hd, hleads⟩)
      · exact indexed_of_kept hexact hhidden hd hkept
      · exact indexed_of_leads hd hleads
    · intro hd
      by_cases hdropped : BelowDropped old new d
      · obtain ⟨q, hq, hleads⟩ := h d hd hdropped
        exact Or.inr ⟨q, hq, hd.1, hleads⟩
      · rcases watched_or_walked hexact hhidden hd hdropped with hold | ⟨q, hq, hleads⟩
        · exact Or.inl ⟨hold, hdropped⟩
        · exact Or.inr ⟨q, hq, hd.1, hleads⟩

end

/-! ## A folder below another one -/

/-- The directories `/`, `/a` and `/a/b`. -/
def treeAB : DirTree where
  dirs := [[47], [47, 97, 47], [47, 97, 47, 98, 47]]
  parent d hd := by
    simp only [List.mem_cons, List.not_mem_nil, or_false] at hd
    rcases hd with rfl | rfl | rfl
    · exact Or.inl rfl
    · exact Or.inr ⟨[47], by simp, [97], ⟨by decide, by decide⟩, rfl⟩
    · exact Or.inr ⟨[47, 97, 47], by simp, [98], ⟨by decide, by decide⟩, rfl⟩

/-- A configuration with these folders included, and without filters. -/
def including (folders : List (List QChar)) : FileIndexerConfig :=
  .load id { folders := folders, excludedFolders := [], indexHiddenFolders := false } [] fun _ => false

/-- `/a` and `/a/b` are included and watched. -/
def watchingAB : FileWatch Kernel where
  config := including [[47, 97], [47, 97, 47, 98]]
  dirWatch := {
    config := some (including [[47, 97], [47, 97, 47, 98]])
    inotify := {
      tree := treeAB
      watches := ((∅ : Hash (List QChar) ℤ).insert [47, 97, 47] 1).insert [47, 97, 47, 98, 47] 2
      nextWd := 3 }
    watchPathHash := ((∅ : Hash ℤ (List QChar)).insert (1 : ℤ) [47, 97, 47]).insert (2 : ℤ) [47, 97, 47, 98, 47]
    pathWatchHash := ((∅ : Hash (List QChar) ℤ).insert [47, 97, 47] 1).insert [47, 97, 47, 98, 47] 2 }
  includedFolders := (including [[47, 97], [47, 97, 47, 98]]).includeFolders

theorem settled_watchingAB : Settled treeAB (including [[47, 97], [47, 97, 47, 98]]) watchingAB := by
  have hpaths : ∀ wd, watchingAB.dirWatch.watchPathHash.get wd =
      if wd = 2 then some [47, 97, 47, 98, 47] else if wd = 1 then some [47, 97, 47] else none := by
    intro wd
    simp only [watchingAB, Hash.get_insert, Function.update_apply, Hash.get_empty]
  have hwatches : ∀ d, watchingAB.dirWatch.inotify.watches.get d =
      if d = [47, 97, 47, 98, 47] then some 2 else if d = [47, 97, 47] then some 1 else none := by
    intro d
    simp only [watchingAB, Hash.get_insert, Function.update_apply, Hash.get_empty]
  refine ⟨⟨⟨fun wd p => ?_, fun p => rfl, fun p wd h => ?_⟩, rfl, rfl, fun _ => rfl⟩, rfl, rfl, rfl, rfl,
    fun d => ?_⟩
  · rw [hpaths, hwatches]
    grind
  · rw [hwatches] at h
    change wd < 3
    grind
  · rw [Watching, DirTree.Indexed]
    simp only [hwatches]
    constructor
    · rintro ⟨wd, hwd⟩
      split at hwd
      · next h => subst h; decide
      · split at hwd
        · next h => subst h; decide
        · cases hwd
    · rintro ⟨hd, hyes⟩
      simp only [treeAB, List.mem_cons, List.not_mem_nil, or_false] at hd
      rcases hd with rfl | rfl | rfl
      · exact absurd hyes (by decide)
      · exact ⟨1, rfl⟩
      · exact ⟨2, rfl⟩

theorem incremental_update_iff_watchingAB :
    let old := including [[47, 97], [47, 97, 47, 98]]
    let new := including [[47, 97]]
    ∃ k k₀, Fuel.Returns (fun n => installWatches treeAB.listing n
        (watchingAB.setConfig new).updateIndexedFoldersWatches.dirWatch) k ∧ k.Synced ∧
      Fuel.Returns (fun n => installWatches treeAB.listing n
        (fresh treeAB new).updateIndexedFoldersWatches.dirWatch) k₀ ∧ k₀.Synced ∧
      (∀ d, k₀.Watching d ↔ treeAB.Indexed new d) ∧
      ((∀ d, k.Watching d ↔ k₀.Watching d) ↔ DroppedIsWalked treeAB old new) :=
  incremental_update_iff rfl rfl settled_watchingAB

/-- When `/a/b` is no longer included by itself, it loses its watch, although it should still be
indexed. -/
theorem subfolder_loses_watch : ¬ ∀ (tree : DirTree) (old new : FileIndexerConfig)
    (fw : FileWatch Kernel), new.exactMatch = old.exactMatch → new.indexHidden = old.indexHidden →
      Settled tree old fw → ∀ n k, installWatches tree.listing n
        (fw.setConfig new).updateIndexedFoldersWatches.dirWatch = some k →
          ∀ d, k.Watching d ↔ tree.Indexed new d := by
  intro h
  have hwatching := h treeAB (including [[47, 97], [47, 97, 47, 98]]) (including [[47, 97]]) watchingAB rfl rfl
    settled_watchingAB 0
    (watchingAB.setConfig (including [[47, 97]])).updateIndexedFoldersWatches.dirWatch rfl
    [47, 97, 47, 98, 47]
  obtain ⟨wd, hwd⟩ := hwatching.mpr ⟨by decide, by decide⟩
  have hnone : (watchingAB.setConfig (including [[47, 97]])).updateIndexedFoldersWatches.dirWatch.inotify.watches.get
      [47, 97, 47, 98, 47] = none := by decide +kernel
  rw [hnone] at hwd
  cases hwd

end FileWatch

end Baloo
