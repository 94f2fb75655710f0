import Baloo.WatchUpdate
import Mathlib.Logic.Relation

/-!
# Watches are removed while others are installed

The walks through the queued folders go on in batches, and between two batches folders are queued and watches are
removed. A removal stops the walks of folders below the path. Of the walk in progress it looks at the place where
it stands, not at its folder; so it can stop the walk of a folder above, and what that walk had still to give is
never watched (`walk_stopped`).

As long as no removal hits a walk that way (`Spares`), every queued folder is walked to its end, and when
`installedWatches` is signalled, everything that should be is watched (`watches_installed`).
-/

namespace Baloo

open Relation (ReflTransGen)
open FilteredDirIterator (Listing Lists Below)

namespace FilteredDirIterator

theorem folder_advance (listing : Listing) (it : FilteredDirIterator) :
    (it.advance listing).1.folder = it.folder := by
  rcases advance_cases listing it with ⟨-, heq⟩ | ⟨-, -, heq⟩ | ⟨_, _, -, -, heq⟩ | ⟨_, _, -, -, heq⟩ |
    ⟨_, _, -, -, heq⟩
  all_goals rw [heq]

/-- An iterator keeps its folder. -/
theorem folder_next (listing : Listing) (it : FilteredDirIterator) : (it.next listing).1.folder = it.folder := by
  have hloop : ∀ (n : ℕ) (it : FilteredDirIterator), (nextLoop listing n it).1.folder = it.folder := by
    intro n
    induction n with
    | zero => exact fun it => rfl
    | succ n ih =>
      intro it
      have hround := folder_advance listing it
      rw [nextLoop]
      split
      · next heq => rwa [heq] at hround
      · next heq =>
        rw [heq] at hround
        exact (ih _).trans hround
      · next heq => rwa [heq] at hround
  rw [FilteredDirIterator.next]
  split
  · rfl
  · exact hloop _ _

end FilteredDirIterator

namespace KInotify

open DirTree (Kernel)

/-! ## Walks -/

/-- The walk of a folder gives the directory: it is the folder itself, or below it along accepted directories. -/
def Walks (tree : DirTree) (config : Option FileIndexerConfig) (folder d : List QChar) : Prop :=
  config.all (fun config => config.shouldFolderBeIndexed folder) = true ∧
    (d = folder ∨ ∃ info, Below tree.listing config .dirsOnly folder info ∧ info.filePath = d)

section

variable {tree : DirTree} {config : Option FileIndexerConfig} {folder d path : List QChar}

theorem exists_lists (tree : DirTree) (config : Option FileIndexerConfig) (folder : List QChar) :
    ∃ l, Lists tree.listing (.construct tree.listing config folder .dirsOnly) l ∧
      ∀ d, d ∈ l ↔ Walks tree config folder d := by
  obtain ⟨depth, hdepth⟩ := tree.exists_depth
  exact FilteredDirIterator.exists_lists hdepth tree.listing_longer config folder .dirsOnly

theorem Walks.ne_nil (h : Walks tree config folder d) (hfolder : folder ≠ []) : d ≠ [] := by
  obtain ⟨-, rfl | ⟨info, hbelow, rfl⟩⟩ := h
  · exact hfolder
  · exact DirTree.filePath_ne_nil hbelow

/-- What the walk gives is below the folder. -/
theorem Walks.prefix (h : Walks tree config folder d) : normalizeTrailingSlash folder <+: normalizeTrailingSlash d := by
  obtain ⟨-, rfl | ⟨info, hbelow, rfl⟩⟩ := h
  · exact List.prefix_rfl
  · have hchild : ∀ (path : List QChar) (info : FileInfo),
        info ∈ FilteredDirIterator.qDirIterator tree.listing .dirsOnly path →
        normalizeTrailingSlash path <+: normalizeTrailingSlash info.filePath := by
      intro path info hmem
      rw [DirTree.qDirIterator_dirs] at hmem
      obtain ⟨name, hname, -, rfl⟩ := DirTree.mem_listing.mp hmem
      rw [DirTree.normalize_name hname, List.append_assoc]
      exact List.prefix_append _ _
    induction hbelow with
    | child hmem => exact hchild _ _ hmem
    | descend hmem _ _ _ ih => exact (hchild _ _ hmem).trans ih

theorem prefix_normalize (folder : List QChar) : folder <+: normalizeTrailingSlash folder := by
  rw [normalizeTrailingSlash]
  split
  · exact List.prefix_rfl
  · exact List.prefix_append _ _

end

/-! ## One batch -/

/-- A folder has been walked, is queued, or is being walked: what the walk has not given yet it will give. -/
def Progress (k : KInotify Kernel) (given : List QChar → Prop) (folder : List QChar) : Prop :=
  (∀ d, Walks k.inotify.tree k.config folder d → given d) ∨ folder ∈ k.paths ∨
    ∃ it l, k.dirIter = some it ∧ it.folder = folder ∧ Lists k.inotify.tree.listing it l ∧ (∀ d ∈ l, d ≠ []) ∧
      ∀ d, Walks k.inotify.tree k.config folder d → given d ∨ d ∈ l

section

variable {k k' : KInotify Kernel} {given : List QChar → Prop} {folder path : List QChar}

theorem Progress.mono {given' : List QChar → Prop} (h : Progress k given folder) (hmono : ∀ d, given d → given' d) :
    Progress k given' folder := by
  rcases h with hdone | hqueued | ⟨it, l, hiter, hfolder, hl, hne, hgives⟩
  · exact .inl fun d hd => hmono d (hdone d hd)
  · exact .inr (.inl hqueued)
  · exact .inr (.inr ⟨it, l, hiter, hfolder, hl, hne, fun d hd => (hgives d hd).imp_left (hmono d)⟩)

/-- The iterator has come to its end. -/
theorem Progress.exhausted (h : Progress k given folder)
    (hend : (k.dirIter.map fun it => it.next k.inotify.tree.listing).filter (fun (_, path) => path ≠ []) = none) :
    (∀ d, Walks k.inotify.tree k.config folder d → given d) ∨ folder ∈ k.paths := by
  rcases h with hdone | hqueued | ⟨it, l, hiter, -, hl, hne, hgives⟩
  · exact .inl hdone
  · exact .inr hqueued
  · left
    rw [hiter, Option.map_some] at hend
    rcases hl.next with ⟨rfl, -⟩ | ⟨d, l', rfl, hd, -⟩
    · exact fun d hd => (hgives d hd).resolve_right List.not_mem_nil
    · have hnil : d ≠ [] := hne d List.mem_cons_self
      rw [Option.filter_some_pos (by simpa [hd] using hnil)] at hend
      cases hend

/-- The iterator gives the next directory. -/
theorem Progress.next {it : FilteredDirIterator} (h : Progress k given folder) (hiter : k.dirIter = some it)
    (hstep : (it.next k.inotify.tree.listing).2 ≠ []) (htree : k'.inotify.tree = k.inotify.tree)
    (hconfig : k'.config = k.config) (hpaths : k'.paths = k.paths)
    (hiter' : k'.dirIter = some (it.next k.inotify.tree.listing).1) :
    Progress k' (fun d => given d ∨ d = (it.next k.inotify.tree.listing).1.filePath) folder := by
  have hfolder' : (it.next k.inotify.tree.listing).1.folder = it.folder := it.folder_next _
  rw [Progress, htree, hconfig, hpaths]
  rcases h with hdone | hqueued | ⟨it', l, hit', hfolder, hl, hne, hgives⟩
  · exact .inl fun d hd => .inl (hdone d hd)
  · exact .inr (.inl hqueued)
  · rw [hiter, Option.some.injEq] at hit'
    subst hit'
    rcases hl.next with ⟨-, hdone, -⟩ | ⟨d, l', rfl, -, hfile, hrest⟩
    · exact absurd hdone hstep
    · refine .inr (.inr ⟨_, l', hiter', hfolder'.trans hfolder, hrest,
        fun x hx => hne x (List.mem_cons_of_mem _ hx), fun x hx => ?_⟩)
      rcases hgives x hx with hgiven | hmem
      · exact .inl (.inl hgiven)
      · rcases List.mem_cons.mp hmem with rfl | hmem
        · exact .inl (.inr hfile.symm)
        · exact .inr hmem

/-- What a batch does: it hands directories over, and each folder gets on. -/
structure Installs (k : KInotify Kernel) (new : List (List QChar)) (k' : KInotify Kernel) : Prop
    extends Added k new k' where
  /-- what the walks have given has been handed over -/
  progress : ∀ folder given, folder ≠ [] → Progress k given folder →
    Progress k' (fun d => given d ∨ d ∈ new) folder

theorem Installs.round {new new' : List (List QChar)} {k'' : KInotify Kernel} (h : Installs k new k')
    (h' : Installs k' new' k'') : Installs k (new ++ new') k'' := by
  refine ⟨h.toAdded.trans h'.toAdded, fun folder given hne hprogress => ?_⟩
  apply (h'.progress folder _ hne (h.progress folder given hne hprogress)).mono
  intro d hd
  rw [List.mem_append]
  exact or_assoc.mp hd

/-- The walk in progress is at its end, and the next folder is taken from the queue. -/
theorem Installs.take {folder : List QChar} {paths : List (List QChar)} (hk : k.Synced)
    (hlimit : k.userLimitReachedSignaled = false) (hpaths : k.paths = folder :: paths)
    (hend : (k.dirIter.map fun it => it.next k.inotify.tree.listing).filter (fun (_, path) => path ≠ []) = none) :
    Installs k [] { k with
      dirIter := some (.construct k.inotify.tree.listing k.config folder .dirsOnly), paths := paths } := by
  refine ⟨⟨hk.same rfl rfl rfl, rfl, rfl, hlimit, fun d => by simp [Watching]⟩, fun f given hne hprogress => ?_⟩
  rcases hprogress.exhausted hend with hdone | hqueued
  · exact .inl fun d hd => .inl (hdone d hd)
  · rw [hpaths] at hqueued
    rcases List.mem_cons.mp hqueued with rfl | hqueued
    · obtain ⟨l, hl, hmem⟩ := exists_lists k.inotify.tree k.config f
      refine .inr (.inr ⟨_, l, rfl, ?_, hl, fun d hd => ((hmem d).mp hd).ne_nil hne, fun d hd => ?_⟩)
      · rw [FilteredDirIterator.construct]
        split <;> rfl
      · exact .inr ((hmem d).mpr hd)
    · exact .inr (.inl hqueued)

/-- The kernel has no limit. -/
theorem addWatch_signals (k : KInotify Kernel) (path : List QChar) : (Private.addWatch k path).2 = [] := by
  by_cases hmem : normalizeTrailingSlash path ∈ k.inotify.tree.dirs
  · rcases hget : k.inotify.watches.get (normalizeTrailingSlash path) with _ | wd
    · simp only [Private.addWatch, Inotify.addWatch, if_pos hmem, hget]
    · simp only [Private.addWatch, Inotify.addWatch, if_pos hmem, hget]
  · simp only [Private.addWatch, Inotify.addWatch, if_neg hmem]
    rfl

/-- The walk in progress gives a directory, which is handed over. -/
theorem Installs.give {it : FilteredDirIterator} (hk : k.Synced) (hlimit : k.userLimitReachedSignaled = false)
    (hiter : k.dirIter = some it) (hstep : (it.next k.inotify.tree.listing).2 ≠ []) :
    Installs k [(it.next k.inotify.tree.listing).1.filePath] (Private.addWatch
      { k with dirIter := some (it.next k.inotify.tree.listing).1 }
      (it.next k.inotify.tree.listing).1.filePath).1 := by
  obtain ⟨hsync, htree, hwatch, hconfig, hlimit', hpaths, hit, -⟩ :=
    @addWatch_spec { k with dirIter := some (it.next k.inotify.tree.listing).1 } (hk.same rfl rfl rfl)
      (it.next k.inotify.tree.listing).1.filePath
  refine ⟨⟨hsync, htree, hconfig, hlimit'.trans hlimit, fun d => ?_⟩, fun f given _ hprogress => ?_⟩
  · rw [hwatch]
    simp [Watching]
  · apply (hprogress.next hiter hstep htree hconfig hpaths hit).mono
    exact fun d hd => hd.imp_right List.mem_singleton.mpr

/-- **A batch** hands directories over, and signals nothing by itself; it stops only when the queue is empty. -/
theorem addWatchesLoop_installs (n : ℕ) (hk : k.Synced) (hlimit : k.userLimitReachedSignaled = false) :
    ∃ new, Installs k new (Private.addWatchesLoop k.inotify.tree.listing n k).1 ∧
      (Private.addWatchesLoop k.inotify.tree.listing n k).2.1 = [] ∧
      (Private.addWatchesLoop k.inotify.tree.listing n k).2.2 = false ∧
      (Private.addWatchesLoop k.inotify.tree.listing n k).1.posted = k.posted ∧
      ((n ≠ 0 ∨ k.dirIter ≠ none) → (Private.addWatchesLoop k.inotify.tree.listing n k).1.dirIter = none →
        (Private.addWatchesLoop k.inotify.tree.listing n k).1.paths = []) := by
  induction n generalizing k with
  | zero =>
    refine ⟨[], ⟨.refl hk hlimit, fun f given _ h => h.mono fun d => .inl⟩, rfl, rfl, rfl, fun h hnone => ?_⟩
    exact absurd hnone (h.resolve_left (absurd rfl))
  | succ n ih =>
    rcases hstep : (k.dirIter.map fun it => it.next k.inotify.tree.listing).filter (fun (_, path) => path ≠ [])
      with _ | ⟨it', d⟩
    · rcases hpaths : k.paths with _ | ⟨folder, paths⟩
      · have heq : Private.addWatchesLoop k.inotify.tree.listing (n + 1) k =
            ({ k with dirIter := none }, [], false) := by
          rw [Private.addWatchesLoop, if_neg (by simp [hlimit]), hstep, hpaths]
        rw [heq]
        refine ⟨[], ⟨⟨hk.same rfl rfl rfl, rfl, rfl, hlimit, fun d => by simp [Watching]⟩, fun f given _ h => ?_⟩,
          rfl, rfl, rfl, fun _ _ => hpaths⟩
        exact (h.exhausted hstep).imp (fun hdone d hd => .inl (hdone d hd)) .inl
      · have htake := Installs.take hk hlimit hpaths hstep
        have heq : Private.addWatchesLoop k.inotify.tree.listing (n + 1) k =
            Private.addWatchesLoop k.inotify.tree.listing n { k with
              dirIter := some (.construct k.inotify.tree.listing k.config folder .dirsOnly), paths := paths } := by
          rw [Private.addWatchesLoop, if_neg (by simp [hlimit]), hstep, hpaths]
        obtain ⟨new, hinstalls, hsignals, hreturned, hposted, hend⟩ := ih htake.synced htake.unlimited
        rw [heq]
        exact ⟨new, htake.round hinstalls, hsignals, hreturned, hposted, fun _ => hend (.inr (Option.some_ne_none _))⟩
    · rcases hiter : k.dirIter with _ | it
      · rw [hiter] at hstep
        cases hstep
      · have hnext : it.next k.inotify.tree.listing = (it', d) ∧ d ≠ [] := by
          rw [hiter, Option.map_some, Option.filter_eq_some_iff] at hstep
          exact ⟨Option.some.inj hstep.1, by simpa using hstep.2⟩
        have hgive := Installs.give hk hlimit hiter (by rw [hnext.1]; exact hnext.2)
        obtain ⟨-, htree, -, -, -, -, hit, hposted₁⟩ :=
          @addWatch_spec { k with dirIter := some it' } (hk.same rfl rfl rfl) it'.filePath
        have hsignals₁ := addWatch_signals { k with dirIter := some it' } it'.filePath
        rw [hnext.1] at hgive
        obtain ⟨new, hinstalls, hsignals, hreturned, hposted, hend⟩ := ih hgive.synced hgive.unlimited
        rw [htree] at hinstalls hsignals hreturned hposted hend
        have heq : Private.addWatchesLoop k.inotify.tree.listing (n + 1) k =
            let k₁ := Private.addWatch { k with dirIter := some it' } it'.filePath
            let result := Private.addWatchesLoop k.inotify.tree.listing n k₁.1
            (result.1, k₁.2 ++ result.2.1, result.2.2) := by
          rw [Private.addWatchesLoop, if_neg (by simp [hlimit]), hstep]
        rw [heq]
        refine ⟨_, hgive.round hinstalls, ?_, hreturned, hposted.trans hposted₁, fun _ => hend (.inr ?_)⟩
        · exact List.append_eq_nil_iff.mpr ⟨hsignals₁, hsignals⟩
        · rw [hit]
          exact Option.some_ne_none _

end

/-! ## Runs -/

/-- The watcher, and what has happened so far. -/
structure Installation where
  /-- the watcher -/
  watcher : KInotify Kernel
  /-- the folders that have been queued -/
  queued : List (List QChar) := []
  /-- the paths below which watches have been removed -/
  removed : List (List QChar) := []
  /-- the directories that have been watched at some time -/
  seen : List QChar → Prop := fun _ => False

/-- Nothing is watched, and nothing is queued. -/
def Installation.fresh (tree : DirTree) (config : Option FileIndexerConfig) : Installation :=
  { watcher := { config := config, inotify := { tree := tree } } }

/-- A call of `_k_addWatches` by the event loop. -/
def batch (k : KInotify Kernel) : KInotify Kernel × List Signal :=
  Private.addWatches k.inotify.tree.listing { k with posted := k.posted - 1 }

/-- A call of `_k_addWatches` signals the end only when nothing is queued. -/
theorem batch_installs {k : KInotify Kernel} (hk : k.Synced) (hlimit : k.userLimitReachedSignaled = false) :
    ∃ new, Installs k new (batch k).1 ∧
      (.installedWatches ∈ (batch k).2 → (batch k).1.dirIter = none ∧ (batch k).1.paths = []) := by
  obtain ⟨new, hinstalls, hsignals, hreturned, -, hend⟩ := @addWatchesLoop_installs
    { k with posted := k.posted - 1 } 1000 (hk.same rfl rfl rfl) hlimit
  have heq : batch k = let r := Private.addWatchesLoop k.inotify.tree.listing 1000 { k with posted := k.posted - 1 }
      if r.1.dirIter.isSome then ({ r.1 with posted := r.1.posted + 1 }, []) else (r.1, [.installedWatches]) := by
    rw [batch, Private.addWatches]
    dsimp only
    rw [hreturned, hsignals]
    rfl
  rw [heq]
  dsimp only
  split
  · refine ⟨new, ⟨⟨hinstalls.synced.same rfl rfl rfl, hinstalls.tree, hinstalls.config, hinstalls.unlimited,
      hinstalls.watching⟩, hinstalls.progress⟩, fun hmem => absurd hmem List.not_mem_nil⟩
  · next hnone =>
    have hiter := Option.not_isSome_iff_eq_none.mp hnone
    refine ⟨new, ⟨⟨hinstalls.synced, hinstalls.tree, hinstalls.config, hinstalls.unlimited,
      hinstalls.watching⟩, hinstalls.progress⟩, fun _ => ⟨hiter, ?_⟩⟩
    exact hend (.inl (by decide)) hiter

/-- The event loop makes a posted call. -/
def Installation.batch (s : Installation) : Installation :=
  { s with
    watcher := (KInotify.batch s.watcher).1
    seen := fun d => s.seen d ∨ (KInotify.batch s.watcher).1.Watching d }

/-- The steps of an installation, with a condition on the removals. -/
inductive InstallStep (condition : KInotify Kernel → List QChar → Prop) : Installation → Installation → Prop
  /-- a folder is queued -/
  | addWatch {s : Installation} (path : List QChar) (mode flags : UInt32) : path ≠ [] →
    InstallStep condition s { s with
      watcher := (s.watcher.addWatch path mode flags).1, queued := path :: s.queued }
  /-- watches are removed -/
  | removeWatch {s : Installation} (path : List QChar) : path.getLast? = some separator →
    condition s.watcher path →
    InstallStep condition s { s with watcher := s.watcher.removeWatch path, removed := path :: s.removed }
  /-- the event loop makes a posted call -/
  | batch {s : Installation} : s.watcher.posted ≠ 0 → InstallStep condition s s.batch

/-- The removal does not stop the walk of a folder above: if the walk in progress stands below the path, then
its folder is at or below the path. -/
def Spares (k : KInotify Kernel) (path : List QChar) : Prop :=
  ∀ it, k.dirIter = some it → path <+: it.filePath → path <+: normalizeTrailingSlash it.folder

/-- Every queued folder has been walked, and what is not below a removed path is watched. -/
structure Installed (tree : DirTree) (config : Option FileIndexerConfig) (s : Installation) : Prop where
  /-- the directories below queued folders are watched -/
  watched : ∀ folder ∈ s.queued, ∀ d, Walks tree config folder d → normalizeTrailingSlash d ∈ tree.dirs →
    (∀ path ∈ s.removed, ¬ path <+: normalizeTrailingSlash d) → s.watcher.watchingPath d = true
  /-- a folder that is not below a removed path has been walked completely -/
  walked : ∀ folder ∈ s.queued, (∀ path ∈ s.removed, ¬ path <+: normalizeTrailingSlash folder) →
    ∀ d, Walks tree config folder d → normalizeTrailingSlash d ∈ tree.dirs → s.seen (normalizeTrailingSlash d)

/-- What holds between two steps. -/
structure InstallInvariant (tree : DirTree) (config : Option FileIndexerConfig) (s : Installation) : Prop where
  /-- the tree is fixed -/
  sameTree : s.watcher.inotify.tree = tree
  /-- and so is the configuration -/
  sameConfig : s.watcher.config = config
  /-- the tables are in order -/
  synced : s.watcher.Synced
  /-- there is no limit -/
  unlimited : s.watcher.userLimitReachedSignaled = false
  /-- no queued path is empty -/
  nonempty : ∀ folder ∈ s.queued, folder ≠ []
  /-- what has been watched is watched, unless it has been removed -/
  kept : ∀ d, s.seen d → (∀ path ∈ s.removed, ¬ path <+: d) → s.watcher.Watching d
  /-- folders that are not below a removed path get on -/
  progress : ∀ folder ∈ s.queued, (∀ path ∈ s.removed, ¬ path <+: normalizeTrailingSlash folder) →
    Progress s.watcher (fun d => normalizeTrailingSlash d ∈ tree.dirs → s.seen (normalizeTrailingSlash d)) folder

namespace InstallInvariant

variable {s s' : Installation} {tree : DirTree} {config : Option FileIndexerConfig}

theorem fresh (tree : DirTree) (config : Option FileIndexerConfig) :
    InstallInvariant tree config (.fresh tree config) where
  sameTree := rfl
  sameConfig := rfl
  synced := ⟨by simp [Installation.fresh], by simp [Installation.fresh], by simp [Installation.fresh]⟩
  unlimited := rfl
  nonempty _ h := absurd h List.not_mem_nil
  kept _ h := h.elim
  progress _ h := absurd h List.not_mem_nil

/-- A folder is queued. -/
theorem addWatch (h : InstallInvariant tree config s) {path : List QChar} (mode flags : UInt32) (hpath : path ≠ []) :
    InstallInvariant tree config { s with
      watcher := (s.watcher.addWatch path mode flags).1, queued := path :: s.queued } := by
  have heq : (s.watcher.addWatch path mode flags).1 = { s.watcher with
      mode := mode, flags := flags, paths := s.watcher.paths ++ [path], posted := s.watcher.posted + 1 } := by
    rw [KInotify.addWatch, if_neg (by simp [h.unlimited])]
  rw [heq]
  refine ⟨h.sameTree, h.sameConfig, h.synced.same rfl rfl rfl, h.unlimited, fun folder hfolder => ?_, h.kept,
    fun folder hfolder hnot => ?_⟩
  · rcases List.mem_cons.mp hfolder with rfl | hfolder
    · exact hpath
    · exact h.nonempty folder hfolder
  · rcases List.mem_cons.mp hfolder with rfl | hfolder
    · exact .inr (.inl (List.mem_append_right _ (List.mem_singleton.mpr rfl)))
    · apply (h.progress folder hfolder hnot).imp_right
      exact fun hrest => hrest.imp_left (List.mem_append_left _)

/-- Watches are removed, and the walk of no folder above is stopped. -/
theorem removeWatch (h : InstallInvariant tree config s) {path : List QChar} (hspares : Spares s.watcher path) :
    InstallInvariant tree config { s with watcher := s.watcher.removeWatch path, removed := path :: s.removed } := by
  have htree : (s.watcher.removeWatch path).inotify.tree = s.watcher.inotify.tree := (foldl_rmWatch _ _).1
  refine ⟨htree.trans h.sameTree, h.sameConfig, h.synced.removeWatch path, h.unlimited, h.nonempty,
    fun d hd hnot => ?_, fun folder hfolder hnot => ?_⟩
  · obtain ⟨wd, hwd⟩ := h.kept d hd fun p hp => hnot p (List.mem_cons_of_mem _ hp)
    refine ⟨wd, ?_⟩
    rw [removeWatch_watches h.synced, if_neg (hnot path List.mem_cons_self)]
    exact hwd
  · have hpath := hnot path List.mem_cons_self
    rw [Progress, htree]
    rcases h.progress folder hfolder fun p hp => hnot p (List.mem_cons_of_mem _ hp) with
      hdone | hqueued | ⟨it, l, hiter, rfl, hl, hne, hgives⟩
    · exact .inl hdone
    · refine .inr (.inl (List.mem_filter.mpr ⟨hqueued, ?_⟩))
      rw [Bool.not_eq_true', Bool.eq_false_iff, ne_eq, List.isPrefixOf_iff_prefix]
      exact fun hpre => hpath (hpre.trans (prefix_normalize _))
    · refine .inr (.inr ⟨it, l, ?_, rfl, hl, hne, hgives⟩)
      change s.watcher.dirIter.filter _ = _
      rw [hiter, Option.filter_some_pos]
      rw [Bool.not_eq_true', Bool.eq_false_iff, ne_eq, List.isPrefixOf_iff_prefix]
      exact fun hpre => hpath (hspares it hiter hpre)

/-- A batch of the installation. -/
theorem batch (h : InstallInvariant tree config s) : InstallInvariant tree config s.batch := by
  obtain ⟨new, hinstalls, -⟩ := batch_installs h.synced h.unlimited
  refine ⟨hinstalls.tree.trans h.sameTree, hinstalls.config.trans h.sameConfig, hinstalls.synced,
    hinstalls.unlimited, h.nonempty, fun d hd hnot => ?_, fun folder hfolder hnot => ?_⟩
  · rcases hd with hd | hd
    · exact (hinstalls.watching d).mpr (.inl (h.kept d hd hnot))
    · exact hd
  · apply (hinstalls.progress folder _ (h.nonempty folder hfolder) (h.progress folder hfolder hnot)).mono
    rintro d (hd | hd) hmem
    · exact .inl (hd hmem)
    · exact .inr ((hinstalls.watching _).mpr (.inr ⟨⟨d, hd, rfl⟩, h.sameTree.symm ▸ hmem⟩))

/-- **A step keeps the invariant.** -/
theorem step (h : InstallInvariant tree config s) (hstep : InstallStep Spares s s') :
    InstallInvariant tree config s' := by
  cases hstep with
  | addWatch path mode flags hpath => exact h.addWatch mode flags hpath
  | removeWatch path _ hspares => exact h.removeWatch hspares
  | batch => exact h.batch

theorem run (h : InstallInvariant tree config s) (hrun : ReflTransGen (InstallStep Spares) s s') :
    InstallInvariant tree config s' := by
  induction hrun with
  | refl => exact h
  | tail _ hstep ih => exact ih.step hstep

end InstallInvariant

/-- **What is queued is installed.** In every run whose removals do not stop the walk of a folder above, when
`installedWatches` is signalled, every directory below a queued folder that is not below a removed path is
watched, and every folder that is not below one has been walked completely. -/
theorem watches_installed {tree : DirTree} {config : Option FileIndexerConfig} {s : Installation}
    (hrun : ReflTransGen (InstallStep Spares) (.fresh tree config) s) (hposted : s.watcher.posted ≠ 0)
    (hsignal : .installedWatches ∈ (batch s.watcher).2) : Installed tree config s.batch := by
  have h : InstallInvariant tree config s := (InstallInvariant.fresh tree config).run hrun
  obtain ⟨new, -, hend⟩ := batch_installs h.synced h.unlimited
  obtain ⟨hiter, hpaths⟩ := hend hsignal
  have h' : InstallInvariant tree config s.batch := h.step (.batch hposted)
  have hwalked : ∀ folder ∈ s.batch.queued, (∀ path ∈ s.batch.removed, ¬ path <+: normalizeTrailingSlash folder) →
      ∀ d, Walks tree config folder d → normalizeTrailingSlash d ∈ tree.dirs →
        s.batch.seen (normalizeTrailingSlash d) := by
    intro folder hfolder hnot d hd hmem
    rcases h'.progress folder hfolder hnot with hdone | hqueued | ⟨it, -, hit, -⟩
    · rw [h'.sameTree, h'.sameConfig] at hdone
      exact hdone d hd hmem
    · exact absurd (hpaths ▸ hqueued) List.not_mem_nil
    · exact absurd (hiter ▸ hit) (Option.some_ne_none it).symm
  refine ⟨fun folder hfolder d hd hmem hnot => ?_, hwalked⟩
  have hfolder' : ∀ path ∈ s.batch.removed, ¬ path <+: normalizeTrailingSlash folder := fun path hpath hpre =>
    hnot path hpath (hpre.trans hd.prefix)
  obtain ⟨wd, hwd⟩ := h'.kept _ (hwalked folder hfolder hfolder' d hd hmem) hnot
  rw [watchingPath, h'.synced.descriptors, hwd]
  rfl

/-! ## A walk that is stopped -/

/-- The directories `/h`, `/h/a`, `/h/a/y`, `/h/c` and `/h/c/x`. -/
def treeH : DirTree where
  dirs := [[47], [47, 104, 47], [47, 104, 47, 97, 47], [47, 104, 47, 97, 47, 121, 47], [47, 104, 47, 99, 47],
    [47, 104, 47, 99, 47, 120, 47]]
  parent d hd := by
    simp only [List.mem_cons, List.not_mem_nil, or_false] at hd
    rcases hd with rfl | rfl | rfl | rfl | rfl | rfl
    · exact .inl rfl
    · exact .inr ⟨[47], by simp, [104], ⟨by decide, by decide⟩, rfl⟩
    · exact .inr ⟨[47, 104, 47], by simp, [97], ⟨by decide, by decide⟩, rfl⟩
    · exact .inr ⟨[47, 104, 47, 97, 47], by simp, [121], ⟨by decide, by decide⟩, rfl⟩
    · exact .inr ⟨[47, 104, 47], by simp, [99], ⟨by decide, by decide⟩, rfl⟩
    · exact .inr ⟨[47, 104, 47, 99, 47], by simp, [120], ⟨by decide, by decide⟩, rfl⟩

/-- The folder `/h/` is included. -/
def includingH : FileIndexerConfig := FileWatch.including [[47, 104]]

/-- Folders that are not to be indexed have been queued, and then `/h/`. -/
def queuedH (n : ℕ) : Installation where
  watcher := {
    config := some includingH
    inotify := { tree := treeH }
    paths := List.replicate n [47, 120, 47] ++ [[47, 104, 47]]
    posted := n + 1 }
  queued := [47, 104, 47] :: List.replicate n [47, 120, 47]

theorem reaches_queuedH (condition : KInotify Kernel → List QChar → Prop) (n : ℕ) :
    ReflTransGen (InstallStep condition) (.fresh treeH (some includingH)) (queuedH n) := by
  have hothers : ReflTransGen (InstallStep condition) (.fresh treeH (some includingH))
      { watcher := {
          config := some includingH, inotify := { tree := treeH }
          paths := List.replicate n [47, 120, 47], posted := n }
        queued := List.replicate n [47, 120, 47] } := by
    induction n with
    | zero => exact .refl
    | succ n ih =>
      have hpaths : List.replicate n ([47, 120, 47] : List QChar) ++ [[47, 120, 47]] =
          List.replicate (n + 1) [47, 120, 47] := List.replicate_succ'.symm
      have hrun := ih.tail (.addWatch [47, 120, 47] 0 0 (by decide))
      rw [KInotify.addWatch] at hrun
      dsimp only at hrun
      rw [hpaths] at hrun
      exact hrun
  exact hothers.tail (.addWatch [47, 104, 47] 0 0 (by decide))

theorem watches_installed_queuedH : Installed treeH (some includingH) (queuedH 0).batch :=
  watches_installed (reaches_queuedH Spares 0) (by decide) (by decide +kernel)

/-- The first batch has come as far as `/h/c/x`, then watches below `/h/c/` are removed. -/
def stoppedH : Installation :=
  { (queuedH 995).batch with
    watcher := (queuedH 995).batch.watcher.removeWatch [47, 104, 47, 99, 47]
    removed := [[47, 104, 47, 99, 47]] }

/-- The walk of `/h/` is stopped, and `/h/a/y` is never watched. -/
theorem walk_stopped : ¬ ∀ (tree : DirTree) (config : Option FileIndexerConfig) (s : Installation),
    ReflTransGen (InstallStep fun _ _ => True) (.fresh tree config) s → s.watcher.posted ≠ 0 →
      .installedWatches ∈ (batch s.watcher).2 → Installed tree config s.batch := by
  intro h
  have hbatch : InstallStep (fun _ _ => True) (queuedH 995) (queuedH 995).batch := .batch (by decide)
  have hremove : InstallStep (fun _ _ => True) (queuedH 995).batch stoppedH :=
    .removeWatch [47, 104, 47, 99, 47] (by decide) trivial
  have hrun := ((reaches_queuedH _ 995).tail hbatch).tail hremove
  have hinstalled := h treeH (some includingH) stoppedH hrun (by decide +kernel) (by decide +kernel)
  have hwalks : Walks treeH (some includingH) [47, 104, 47] [47, 104, 47, 97, 47, 121] := by
    have hy : Below treeH.listing (some includingH) .dirsOnly [47, 104, 47, 97]
        { filePath := [47, 104, 47, 97, 47, 121], isDir := true, isFile := false } :=
      .child (by decide) (by decide +kernel)
    have ha : { filePath := [47, 104, 47, 97], isDir := true, isFile := false } ∈
        FilteredDirIterator.qDirIterator treeH.listing .dirsOnly [47, 104, 47] := by decide
    exact ⟨by decide, .inr ⟨_, .descend ha (by decide +kernel) rfl hy, rfl⟩⟩
  have hwatched := hinstalled.watched [47, 104, 47] List.mem_cons_self [47, 104, 47, 97, 47, 121] hwalks (by decide)
    fun path hpath => by
      rw [List.mem_singleton.mp hpath]
      decide
  have hnot : stoppedH.batch.watcher.watchingPath [47, 104, 47, 97, 47, 121] = false := by decide +kernel
  rw [hnot] at hwatched
  cases hwatched

end KInotify

end Baloo
