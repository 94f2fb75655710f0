import Baloo.FileIndexerConfig
import Baloo.Lib.Fuel
import Mathlib.Algebra.GroupWithZero.Nat

/-!
# Iterating over what should be indexed

`FilteredDirIterator` walks through a folder and what is below it, with a stack of the directories
that are still to be opened. It gives the folder itself first, then the entries that the
configuration accepts; it goes down into accepted directories only.

The file system is a function that lists a directory. One round of the iterator's loop is `advance`;
it takes one entry of the directory that is open, or it opens the next directory of the stack.
-/

namespace Baloo

/-- `QFileInfo`, as far as the iterator looks at it. -/
structure FileInfo where
  /-- the path -/
  filePath : List QChar
  /-- it is a directory -/
  isDir : Bool
  /-- it is a regular file -/
  isFile : Bool
  deriving DecidableEq

namespace FilteredDirIterator

/-- `FilteredDirIterator::Filter`. -/
inductive Filter
  | filesAndDirs
  | dirsOnly
  deriving DecidableEq

/-- The readable entries of a directory, without symbolic links. -/
abbrev Listing : Type := List QChar → List FileInfo

/-- `QDirIterator` with the filters of the iterator: what it gives. -/
def qDirIterator (listing : Listing) (filter : Filter) (folder : List QChar) : List FileInfo :=
  (listing folder).filter fun info => info.isDir || (filter = .filesAndDirs && info.isFile)

/-- `shouldIndexFolder`; the null configuration is `none`. -/
def shouldIndexFolder (config : Option FileIndexerConfig) (info : FileInfo) : Bool :=
  match config with
  | none => !isHidden info.filePath
  | some config =>
    let (included, folder) := config.folderInFolderList info.filePath
    if !included then false
    else if folder = info.filePath ∨ folder = info.filePath ++ [separator] then true
    else if !config.indexHidden && isHidden info.filePath then false
    else config.shouldFileBeIndexed (fileName info.filePath)

/-- The iterator stops at an entry. -/
def accepts (config : Option FileIndexerConfig) (info : FileInfo) : Bool :=
  let shouldIndexHidden := config.any fun config => config.indexHidden
  if info.isDir then shouldIndexFolder config info
  else if info.isFile then
    if !shouldIndexHidden && isHidden info.filePath then false
    else config.all fun config => config.shouldFileBeIndexed (fileName info.filePath)
  else false

end FilteredDirIterator

open FilteredDirIterator (Listing)

/-- `FilteredDirIterator`. -/
structure FilteredDirIterator where
  /-- `m_config` -/
  config : Option FileIndexerConfig
  /-- `m_filters`, the part that varies -/
  filter : FilteredDirIterator.Filter
  /-- the folder it was made for -/
  folder : List QChar
  /-- what `m_currentIter` has still to give; there may be none -/
  currentIter : Option (List FileInfo)
  /-- `m_paths` -/
  paths : List (List QChar) := []
  /-- `m_filePath` -/
  filePath : List QChar := []
  /-- `m_fileInfo`, of the entry it is at -/
  fileInfo : Option FileInfo := none
  /-- `m_firstItem` -/
  firstItem : Bool

namespace FilteredDirIterator

/-- The constructor. -/
def construct (listing : Listing) (config : Option FileIndexerConfig) (folder : List QChar)
    (filter : Filter) : FilteredDirIterator :=
  if config.all fun config => config.shouldFolderBeIndexed folder then
    { config := config, filter := filter, folder := folder
      currentIter := some (qDirIterator listing filter folder), firstItem := true }
  else
    { config := config, filter := filter, folder := folder, currentIter := none, firstItem := false }

/-- What a round of the loop comes to. -/
inductive Round
  | found (info : FileInfo)
  | skipped
  | done

/-- A round of the loop of `next`. -/
def advance (listing : Listing) (it : FilteredDirIterator) : FilteredDirIterator × Round :=
  match it.currentIter with
  | none => ({ it with fileInfo := none }, .done)
  | some [] =>
    match it.paths with
    | [] => ({ it with currentIter := none, fileInfo := none }, .done)
    | path :: paths =>
      ({ it with currentIter := some (qDirIterator listing it.filter path), paths := paths }, .skipped)
  | some (info :: current) =>
    let it : FilteredDirIterator :=
      { it with currentIter := some current, filePath := info.filePath, fileInfo := some info }
    if accepts it.config info then
      -- push a directory to the stack
      (if info.isDir then { it with paths := info.filePath :: it.paths } else it, .found info)
    else (it, .skipped)

/-- The loop of `next`. -/
def nextLoop (listing : Listing) : ℕ → FilteredDirIterator → FilteredDirIterator × List QChar
  | 0, it => (it, [])
  | n + 1, it =>
    match it.advance listing with
    | (it, .found info) => (it, info.filePath)
    | (it, .skipped) => nextLoop listing n it
    | (it, .done) => (it, [])

/-- The loop ends after this many rounds: a round uses up an entry or a directory. -/
def rounds (listing : Listing) (it : FilteredDirIterator) : ℕ :=
  (it.currentIter.getD []).length + 1 +
    (it.paths.map fun path => (qDirIterator listing it.filter path).length + 1).sum

/-- `next`. -/
def next (listing : Listing) (it : FilteredDirIterator) : FilteredDirIterator × List QChar :=
  if it.firstItem then
    ({ it with firstItem := false, filePath := it.folder, fileInfo := none }, it.folder)
  else nextLoop listing (it.rounds listing) { it with filePath := [] }

/-! ## Rounds -/

section

variable {listing : Listing} {it it' : FilteredDirIterator} {info : FileInfo} {d : List QChar}

/-- What a round can do. -/
theorem advance_cases (listing : Listing) (it : FilteredDirIterator) :
    (it.currentIter = none ∧ it.advance listing = ({ it with fileInfo := none }, .done)) ∨
    (it.currentIter = some [] ∧ it.paths = [] ∧
      it.advance listing = ({ it with currentIter := none, fileInfo := none }, .done)) ∨
    (∃ path paths, it.currentIter = some [] ∧ it.paths = path :: paths ∧ it.advance listing =
      ({ it with currentIter := some (qDirIterator listing it.filter path), paths := paths },
        .skipped)) ∨
    (∃ info current, it.currentIter = some (info :: current) ∧ accepts it.config info = false ∧
      it.advance listing = ({ it with currentIter := some current, filePath := info.filePath,
                                      fileInfo := some info }, .skipped)) ∨
    ∃ info current, it.currentIter = some (info :: current) ∧ accepts it.config info = true ∧
      it.advance listing = ({ it with
        currentIter := some current, filePath := info.filePath, fileInfo := some info
        paths := if info.isDir then info.filePath :: it.paths else it.paths }, .found info) := by
  rcases hcurrent : it.currentIter with _ | _ | ⟨info, current⟩
  · exact Or.inl ⟨rfl, by simp only [advance, hcurrent]⟩
  · right
    rcases hpaths : it.paths with _ | ⟨path, paths⟩
    · exact Or.inl ⟨rfl, rfl, by simp only [advance, hcurrent, hpaths]⟩
    · exact Or.inr (Or.inl ⟨path, paths, rfl, rfl, by simp only [advance, hcurrent, hpaths]⟩)
  · right; right; right
    rcases haccepts : accepts it.config info
    · exact Or.inl ⟨info, current, rfl, haccepts, by simp [advance, hcurrent, haccepts]⟩
    · refine Or.inr ⟨info, current, rfl, haccepts, ?_⟩
      rcases hdir : info.isDir <;> simp [advance, hcurrent, haccepts, hdir]

theorem rounds_advance (h : it.advance listing = (it', .skipped)) :
    it'.rounds listing < it.rounds listing := by
  rcases advance_cases listing it with ⟨-, heq⟩ | ⟨-, -, heq⟩ | ⟨path, paths, hc, hp, heq⟩ |
    ⟨info, current, hc, -, heq⟩ | ⟨info, current, -, -, heq⟩
  · simp [heq] at h
  · simp [heq] at h
  · obtain rfl : _ = it' := congrArg Prod.fst (heq.symm.trans h)
    simp only [rounds, hc, hp, Option.getD_some, List.length_nil, List.map_cons, List.sum_cons]
    omega
  · obtain rfl : _ = it' := congrArg Prod.fst (heq.symm.trans h)
    simp only [rounds, hc, Option.getD_some, List.length_cons]
    omega
  · simp [heq] at h

/-- The rule for the loop of `next`: what the rounds that skip keep holds when a round stops. -/
theorem nextLoop_rule {P : FilteredDirIterator → Prop}
    (hskip : ∀ it it', P it → it.advance listing = (it', .skipped) → P it') (n : ℕ) (hit : P it)
    (hn : it.rounds listing ≤ n) :
    ∃ it₁ it₂ path, nextLoop listing n it = (it₂, path) ∧ P it₁ ∧
      ((∃ info, it₁.advance listing = (it₂, .found info) ∧ path = info.filePath) ∨
        it₁.advance listing = (it₂, .done) ∧ path = []) := by
  induction n generalizing it with
  | zero => simp [rounds] at hn
  | succ n ih =>
    rcases hround : it.advance listing with ⟨it', info | - | -⟩
    · exact ⟨it, it', info.filePath, by rw [nextLoop, hround], hit, Or.inl ⟨info, hround, rfl⟩⟩
    · have hlt := rounds_advance hround
      obtain ⟨it₁, it₂, path, hloop, h⟩ := ih (hskip it it' hit hround) (by omega)
      refine ⟨it₁, it₂, path, ?_, h⟩
      rw [nextLoop, hround]
      exact hloop
    · exact ⟨it, it', [], by rw [nextLoop, hround], hit, Or.inr ⟨hround, rfl⟩⟩

end

/-! ## What the iterator gives -/

section

variable (listing : Listing) (config : Option FileIndexerConfig) (filter : Filter)

/-- The iterator, with these entries left in the open directory and this stack, gives this list. -/
inductive Walk : List FileInfo → List (List QChar) → List FileInfo → Prop
  | done : Walk [] [] []
  | openDir {path : List QChar} {paths : List (List QChar)} {out : List FileInfo}
      (h : Walk (qDirIterator listing filter path) paths out) : Walk [] (path :: paths) out
  | skip {info : FileInfo} {current : List FileInfo} {paths : List (List QChar)} {out : List FileInfo}
      (hnot : accepts config info = false) (h : Walk current paths out) :
      Walk (info :: current) paths out
  | found {info : FileInfo} {current : List FileInfo} {paths : List (List QChar)}
      {out : List FileInfo} (hyes : accepts config info = true)
      (h : Walk current (if info.isDir then info.filePath :: paths else paths) out) :
      Walk (info :: current) paths (info :: out)

/-- The entry is below the directory, and so are accepted directories on the way to it. -/
inductive Below : List QChar → FileInfo → Prop
  | child {path : List QChar} {info : FileInfo} (hmem : info ∈ qDirIterator listing filter path)
      (hyes : accepts config info = true) : Below path info
  | descend {path : List QChar} {dir info : FileInfo} (hmem : dir ∈ qDirIterator listing filter path)
      (hyes : accepts config dir = true) (hdir : dir.isDir = true) (h : Below dir.filePath info) :
      Below path info

variable {listing config filter}

theorem Below.cases {path : List QChar} {info : FileInfo} :
    Below listing config filter path info ↔ ∃ i ∈ qDirIterator listing filter path,
      accepts config i = true ∧ (info = i ∨ i.isDir = true ∧ Below listing config filter i.filePath info) := by
  constructor
  · intro h
    cases h with
    | child hmem hyes => exact ⟨info, hmem, hyes, Or.inl rfl⟩
    | descend hmem hyes hdir h => exact ⟨_, hmem, hyes, Or.inr ⟨hdir, h⟩⟩
  · rintro ⟨i, hmem, hyes, rfl | ⟨hdir, h⟩⟩
    · exact .child hmem hyes
    · exact .descend hmem hyes hdir h

theorem Below.snoc {path : List QChar} {dir info : FileInfo} (h : Below listing config filter path dir)
    (hdir : dir.isDir = true) (hmem : info ∈ qDirIterator listing filter dir.filePath)
    (hyes : accepts config info = true) : Below listing config filter path info := by
  induction h with
  | child hmem' hyes' => exact .descend hmem' hyes' hdir (.child hmem hyes)
  | descend hmem' hyes' hdir' _ ih => exact .descend hmem' hyes' hdir' (ih hdir hmem)

/-- The iterator gives the accepted entries of the open directory and of the directories of the
stack, and what is below them. -/
theorem Walk.mem_iff {current out : List FileInfo} {paths : List (List QChar)}
    (h : Walk listing config filter current paths out) (info : FileInfo) : info ∈ out ↔
      (∃ i ∈ current, accepts config i = true ∧
        (info = i ∨ i.isDir = true ∧ Below listing config filter i.filePath info)) ∨
      ∃ path ∈ paths, Below listing config filter path info := by
  induction h with
  | done => simp
  | openDir _ ih =>
    rw [ih, ← Below.cases]
    simp
  | skip hnot _ ih =>
    rw [ih]
    simp [hnot]
  | @found i current paths out hyes _ ih =>
    rw [List.mem_cons, ih]
    rcases hdir : i.isDir
    · simp [hyes, hdir, or_assoc]
    · simp only [↓reduceIte, List.mem_cons, exists_eq_or_imp, hyes, hdir, true_and]
      rw [or_assoc, or_assoc]
      exact or_congr_right or_left_comm

/-- In a tree of bounded depth the iterator comes to an end. -/
theorem exists_walk {depth : ℕ} (hdepth : ∀ path, depth ≤ path.length → listing path = [])
    (hlonger : ∀ path, ∀ info ∈ listing path, path.length < info.filePath.length)
    (current : List FileInfo) (paths : List (List QChar)) :
    ∃ out, Walk listing config filter current paths out := by
  -- entries that are deep in the tree first: `n` is how far they are from the bottom
  have hopen : ∀ n, ∀ current : List FileInfo, ∀ paths out,
      (∀ info ∈ current, depth ≤ info.filePath.length + n) → Walk listing config filter [] paths out →
        ∃ out, Walk listing config filter current paths out := by
    intro n
    induction n with
    | zero =>
      intro current
      induction current with
      | nil => exact fun paths out _ h => ⟨out, h⟩
      | cons info current ih =>
        intro paths out hcurrent h
        have hrest := fun i hi => hcurrent i (List.mem_cons_of_mem _ hi)
        rcases hyes : accepts config info
        · obtain ⟨out', h'⟩ := ih paths out hrest h
          exact ⟨out', .skip hyes h'⟩
        · have hempty : qDirIterator listing filter info.filePath = [] := by
            rw [qDirIterator, hdepth _ (hcurrent info (List.mem_cons_self ..)), List.filter_nil]
          have hpush : Walk listing config filter []
              (if info.isDir then info.filePath :: paths else paths) out := by
            split
            · exact .openDir (hempty ▸ h)
            · exact h
          obtain ⟨out', h'⟩ := ih _ out hrest hpush
          exact ⟨info :: out', .found hyes h'⟩
    | succ n ihn =>
      intro current
      induction current with
      | nil => exact fun paths out _ h => ⟨out, h⟩
      | cons info current ih =>
        intro paths out hcurrent h
        have hrest := fun i hi => hcurrent i (List.mem_cons_of_mem _ hi)
        rcases hyes : accepts config info
        · obtain ⟨out', h'⟩ := ih paths out hrest h
          exact ⟨out', .skip hyes h'⟩
        · have hbelow : ∀ i ∈ qDirIterator listing filter info.filePath,
              depth ≤ i.filePath.length + n := by
            intro i hi
            have hlong := hlonger _ i (List.mem_of_mem_filter hi)
            have hinfo := hcurrent info (List.mem_cons_self ..)
            omega
          have hpush : ∃ out, Walk listing config filter []
              (if info.isDir then info.filePath :: paths else paths) out := by
            split
            · obtain ⟨out', h'⟩ := ihn _ paths out hbelow h
              exact ⟨out', .openDir h'⟩
            · exact ⟨out, h⟩
          obtain ⟨out₁, hpush⟩ := hpush
          obtain ⟨out', h'⟩ := ih _ out₁ hrest hpush
          exact ⟨info :: out', .found hyes h'⟩
  have hstack : ∀ paths : List (List QChar), ∃ out, Walk listing config filter [] paths out := by
    intro paths
    induction paths with
    | nil => exact ⟨[], .done⟩
    | cons path paths ih =>
      obtain ⟨out, h⟩ := ih
      obtain ⟨out', h'⟩ := hopen depth (qDirIterator listing filter path) paths out
        (fun info _ => Nat.le_add_left ..) h
      exact ⟨out', .openDir h'⟩
  obtain ⟨out, h⟩ := hstack paths
  exact hopen depth current paths out (fun info _ => Nat.le_add_left ..) h

/-- What the iterator still gives, once it has given its folder. -/
def Gives (listing : Listing) (it : FilteredDirIterator) (out : List FileInfo) : Prop :=
  it.firstItem = false ∧
    match it.currentIter with
    | none => out = []
    | some current => Walk listing it.config it.filter current it.paths out

variable {it it' : FilteredDirIterator} {info : FileInfo} {out : List FileInfo}

theorem Gives.skip (h : Gives listing it out) (hround : it.advance listing = (it', .skipped)) :
    Gives listing it' out := by
  obtain ⟨hfirst, h⟩ := h
  rcases advance_cases listing it with ⟨-, heq⟩ | ⟨-, -, heq⟩ | ⟨path, paths, hc, hp, heq⟩ |
    ⟨info, current, hc, hnot, heq⟩ | ⟨info, current, -, -, heq⟩
  · simp [heq] at hround
  · simp [heq] at hround
  · obtain rfl : _ = it' := congrArg Prod.fst (heq.symm.trans hround)
    simp only [hc, hp] at h
    cases h with
    | openDir h => exact ⟨hfirst, h⟩
  · obtain rfl : _ = it' := congrArg Prod.fst (heq.symm.trans hround)
    simp only [hc] at h
    cases h with
    | skip _ h => exact ⟨hfirst, h⟩
    | found hyes => simp [hnot] at hyes
  · simp [heq] at hround

theorem Gives.found (h : Gives listing it out) (hround : it.advance listing = (it', .found info)) :
    it'.filePath = info.filePath ∧ it'.fileInfo = some info ∧
      ∃ rest, out = info :: rest ∧ Gives listing it' rest := by
  obtain ⟨hfirst, h⟩ := h
  rcases advance_cases listing it with ⟨-, heq⟩ | ⟨-, -, heq⟩ | ⟨_, _, -, -, heq⟩ |
    ⟨i, current, hc, -, heq⟩ | ⟨i, current, hc, hyes, heq⟩
  · simp [heq] at hround
  · simp [heq] at hround
  · simp [heq] at hround
  · simp [heq] at hround
  · rw [heq, Prod.mk.injEq, Round.found.injEq] at hround
    obtain ⟨rfl, rfl⟩ := hround
    simp only [hc] at h
    cases h with
    | skip hnot => simp [hyes] at hnot
    | found _ h => exact ⟨rfl, rfl, _, rfl, hfirst, h⟩

theorem Gives.done (h : Gives listing it out) (hround : it.advance listing = (it', .done)) :
    out = [] ∧ Gives listing it' [] := by
  obtain ⟨hfirst, h⟩ := h
  rcases advance_cases listing it with ⟨hc, heq⟩ | ⟨hc, hp, heq⟩ | ⟨_, _, -, -, heq⟩ |
    ⟨_, _, -, -, heq⟩ | ⟨_, _, -, -, heq⟩
  · obtain rfl : _ = it' := congrArg Prod.fst (heq.symm.trans hround)
    simp only [hc] at h
    exact ⟨h, hfirst, by simp only [hc]⟩
  · obtain rfl : _ = it' := congrArg Prod.fst (heq.symm.trans hround)
    simp only [hc, hp] at h
    cases h
    exact ⟨rfl, hfirst, rfl⟩
  · simp [heq] at hround
  · simp [heq] at hround
  · simp [heq] at hround

/-- `next` gives the list, one entry after the other. -/
theorem Gives.next (h : Gives listing it out) :
    (out = [] ∧ (it.next listing).2 = [] ∧ Gives listing (it.next listing).1 []) ∨
      ∃ info rest, out = info :: rest ∧ (it.next listing).2 = info.filePath ∧
        (it.next listing).1.filePath = info.filePath ∧ (it.next listing).1.fileInfo = some info ∧
          Gives listing (it.next listing).1 rest := by
  have hfirst : it.firstItem = false := h.1
  have h₀ : Gives listing { it with filePath := [] } out := h
  obtain ⟨it₁, it₂, path, hloop, h₁, hstop⟩ := nextLoop_rule (P := fun it => Gives listing it out)
    (fun _ _ h hround => h.skip hround) (it.rounds listing) h₀ (Nat.le_refl _)
  have hnext : it.next listing = (it₂, path) := by
    rw [FilteredDirIterator.next, if_neg (by simp [hfirst])]
    exact hloop
  rw [hnext]
  rcases hstop with ⟨info, hround, rfl⟩ | ⟨hround, rfl⟩
  · obtain ⟨hpath, hinfo, rest, hout, hrest⟩ := h₁.found hround
    exact Or.inr ⟨info, rest, hout, rfl, hpath, hinfo, hrest⟩
  · obtain ⟨hout, hend⟩ := h₁.done hround
    exact Or.inl ⟨hout, rfl, hend⟩

/-- The paths the iterator still gives. -/
inductive Lists (listing : Listing) (it : FilteredDirIterator) : List (List QChar) → Prop
  | first {current out : List FileInfo} (hfirst : it.firstItem = true)
      (hcurrent : it.currentIter = some current)
      (h : Walk listing it.config it.filter current it.paths out) :
      Lists listing it (it.folder :: out.map FileInfo.filePath)
  | rest {out : List FileInfo} (h : Gives listing it out) : Lists listing it (out.map FileInfo.filePath)

theorem Lists.next {l : List (List QChar)} (h : Lists listing it l) :
    (l = [] ∧ (it.next listing).2 = [] ∧ Lists listing (it.next listing).1 []) ∨
      ∃ d l', l = d :: l' ∧ (it.next listing).2 = d ∧ (it.next listing).1.filePath = d ∧
        Lists listing (it.next listing).1 l' := by
  cases h with
  | @first current out hfirst hcurrent h =>
    have hnext : it.next listing =
        ({ it with firstItem := false, filePath := it.folder, fileInfo := none }, it.folder) := by
      rw [FilteredDirIterator.next, if_pos hfirst]
    refine Or.inr ⟨it.folder, out.map FileInfo.filePath, rfl, by rw [hnext], by rw [hnext], ?_⟩
    rw [hnext]
    exact .rest ⟨rfl, by simpa only [hcurrent] using h⟩
  | rest h =>
    rcases h.next with ⟨rfl, hdone, hend⟩ | ⟨info, rest, rfl, hpath, hfile, -, hrest⟩
    · exact Or.inl ⟨rfl, hdone, .rest hend⟩
    · exact Or.inr ⟨info.filePath, rest.map FileInfo.filePath, rfl, hpath, hfile, .rest hrest⟩

/-- A new iterator gives its folder, if that should be indexed, and what is below. -/
theorem exists_lists {depth : ℕ} (hdepth : ∀ path, depth ≤ path.length → listing path = [])
    (hlonger : ∀ path, ∀ info ∈ listing path, path.length < info.filePath.length)
    (config : Option FileIndexerConfig) (folder : List QChar) (filter : Filter) :
    ∃ l, Lists listing (construct listing config folder filter) l ∧ ∀ d, d ∈ l ↔
      config.all (fun config => config.shouldFolderBeIndexed folder) = true ∧
        (d = folder ∨ ∃ info, Below listing config filter folder info ∧ info.filePath = d) := by
  rcases hyes : config.all fun config => config.shouldFolderBeIndexed folder
  · have hconstruct : construct listing config folder filter =
        { config := config, filter := filter, folder := folder, currentIter := none,
          firstItem := false } := by simp [construct, hyes]
    exact ⟨[], hconstruct ▸ @Lists.rest _ _ [] ⟨rfl, rfl⟩, by simp [hyes]⟩
  · obtain ⟨out, hwalk⟩ : ∃ out, Walk listing config filter (qDirIterator listing filter folder) [] out :=
      exists_walk hdepth hlonger _ _
    have hconstruct : construct listing config folder filter =
        { config := config, filter := filter, folder := folder
          currentIter := some (qDirIterator listing filter folder), firstItem := true } := by
      simp [construct, hyes]
    refine ⟨folder :: out.map FileInfo.filePath, ?_, fun d => ?_⟩
    · rw [hconstruct]
      exact .first rfl rfl hwalk
    · simp [hwalk.mem_iff, ← Below.cases, hyes]

end

end FilteredDirIterator

end Baloo
