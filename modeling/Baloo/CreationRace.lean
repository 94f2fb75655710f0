import Baloo.MovePairing
import Baloo.WatchUpdate

/-!
# Creations in a new directory

While `handleDirCreated` works through a new directory, files and directories are created in it. The
kernel queues an event for an entry if the directory of the entry is watched at that time, and a
listing shows the entries that there were when it was opened; later ones may be missing.

A directory that is found by the iterator is watched before its listing is opened, so that its entries
come by the one way or the other. For the directory itself it is the other way round: an entry that is
created after its listing is opened and before it is watched may be lost (`created_in_between_lost`).
If there is no such entry, every entry that should be indexed is signalled (`creations_signalled`).
-/

namespace Baloo

namespace CreationRace

open KInotify FilteredDirIterator
open DirTree (Kernel)

/-! ## Files and directories -/

/-- A file or a directory that has been created. -/
structure Node where
  /-- the path of the directory that it is in, with a slash -/
  dir : List QChar
  /-- its name -/
  name : QByteArray
  /-- it is a directory -/
  isDir : Bool
  deriving DecidableEq

namespace Node

variable (decode : QByteArray → List QChar) (n : Node)

/-- The path. -/
def path : List QChar := n.dir ++ decode n.name

/-- The path of a directory, with a slash. -/
def folder : List QChar := n.dir ++ decode n.name ++ [separator]

/-- What a listing shows. -/
def info : FileInfo := { filePath := n.path decode, isDir := n.isDir, isFile := !n.isDir }

/-- The event of the creation. -/
def event (wd : ℤ) : KInotify.Event :=
  { wd := wd, mask := if n.isDir then EventCreate ||| InIsDir else EventCreate, cookie := 0, name := n.name }

end Node

/-- The listing shows these files and directories. -/
def Shows (decode : QByteArray → List QChar) (nodes : List Node) (listing : Listing) : Prop :=
  ∀ folder info, info ∈ listing folder ↔
    ∃ n ∈ nodes, n.dir = normalizeTrailingSlash folder ∧ n.info decode = info

/-! ## `handleDirCreated`, step by step -/

/-- What comes next. -/
inductive Stage
  /-- the watch of the directory itself -/
  | opened
  /-- the watch of the directory that has been found -/
  | entering
  /-- a round of the iterator -/
  | walking
  deriving DecidableEq

/-- `handleDirCreated`, at work. -/
structure Handler where
  /-- `it` -/
  it : FilteredDirIterator
  /-- the directory whose listing is open -/
  dir : List QChar
  /-- what comes next -/
  stage : Stage

/-- The directory whose listing is open after a round. -/
def Handler.nextDir (h : Handler) : List QChar :=
  match h.it.currentIter, h.it.paths with
  | some [], path :: _ => normalizeTrailingSlash path
  | _, _ => h.dir

/-- The start of `handleDirCreated`. -/
def Handler.start (listing : Listing) (config : Option FileIndexerConfig) (path : List QChar) : Handler :=
  { it := .construct listing config path .filesAndDirs, dir := normalizeTrailingSlash path, stage := .opened }

/-- A step of `handleDirCreated`; there is no handler when it is done. -/
def Handler.step {σ : Type} [Inotify σ] (listing : Listing) (k : KInotify σ) (h : Handler) :
    KInotify σ × Option Handler × List KInotify.Signal :=
  match h.stage with
  | .opened =>
    let (it, first) := h.it.next listing
    let (k, signals) := if first ≠ [] then Private.addWatch k it.filePath else (k, [])
    (k, some { h with it := it, stage := .walking }, signals)
  | .entering =>
    let (k, signals) := Private.addWatch k h.it.filePath
    (k, some { h with stage := .walking }, signals)
  | .walking =>
    match h.it.advance listing with
    | (it, .found info) =>
      (k, some { h with it := it, stage := if info.isDir then .entering else .walking },
        [.created info.filePath info.isDir])
    | (it, .skipped) => (k, some { it := it, dir := h.nextDir, stage := .walking }, [])
    | (_, .done) => (k, none, [])

section

variable {σ : Type} [Inotify σ] {listing : Listing} {k k' : KInotify σ} {it it' : FilteredDirIterator}

/-- The steps of the handler, when nothing else happens. -/
inductive Works (listing : Listing) : KInotify σ → Handler → KInotify σ → List KInotify.Signal → Prop
  | done {k k' : KInotify σ} {h : Handler} {signals : List KInotify.Signal}
      (hstep : h.step listing k = (k', none, signals)) : Works listing k h k' signals
  | more {k k₁ k' : KInotify σ} {h h₁ : Handler} {signals signals' : List KInotify.Signal}
      (hstep : h.step listing k = (k₁, some h₁, signals)) (hrest : Works listing k₁ h₁ k' signals') :
      Works listing k h k' (signals ++ signals')

/-- No path in the listing that is open is empty. -/
def Named (it : FilteredDirIterator) : Prop :=
  ∀ current, it.currentIter = some current → ∀ info ∈ current, info.filePath ≠ []

/-- A round does not look at the path that the iterator is at. -/
theorem advance_filePath {round : Round} (h : it.advance listing = (it', round)) (path : List QChar) :
    ∃ path', ({ it with filePath := path } : FilteredDirIterator).advance listing =
      ({ it' with filePath := path' }, round) ∧ ∀ info, round = .found info → path' = it'.filePath := by
  rcases advance_cases listing it with ⟨hc, heq⟩ | ⟨hc, hp, heq⟩ | ⟨_, _, hc, hp, heq⟩ |
    ⟨info, current, hc, hnot, heq⟩ | ⟨info, current, hc, hyes, heq⟩
  · cases heq.symm.trans h
    exact ⟨path, by simp only [advance, hc], fun _ hfound => by cases hfound⟩
  · cases heq.symm.trans h
    exact ⟨path, by simp only [advance, hc, hp], fun _ hfound => by cases hfound⟩
  · cases heq.symm.trans h
    exact ⟨path, by simp only [advance, hc, hp], fun _ hfound => by cases hfound⟩
  · cases heq.symm.trans h
    exact ⟨info.filePath, by simp [advance, hc, hnot], fun _ hfound => by cases hfound⟩
  · cases heq.symm.trans h
    refine ⟨info.filePath, ?_, fun _ _ => rfl⟩
    cases hisDir : info.isDir <;> simp [advance, hc, hyes, hisDir]

theorem Named.advance {round : Round} (hlisting : ∀ folder, ∀ info ∈ listing folder, info.filePath ≠ [])
    (hit : Named it) (h : it.advance listing = (it', round)) :
    Named it' ∧ it'.firstItem = it.firstItem ∧
      ∀ info, round = .found info → info.filePath ≠ [] ∧ it'.filePath = info.filePath ∧ it'.fileInfo = some info := by
  rcases advance_cases listing it with ⟨hc, heq⟩ | ⟨hc, hp, heq⟩ | ⟨path, paths, hc, hp, heq⟩ |
    ⟨info, current, hc, hnot, heq⟩ | ⟨info, current, hc, hyes, heq⟩
  · cases heq.symm.trans h
    exact ⟨hit, rfl, fun _ hfound => (nomatch hfound)⟩
  · cases heq.symm.trans h
    exact ⟨fun _ hcurrent => (nomatch hcurrent), rfl, fun _ hfound => (nomatch hfound)⟩
  · cases heq.symm.trans h
    refine ⟨fun current hcurrent info hinfo => ?_, rfl, fun _ hfound => (nomatch hfound)⟩
    obtain rfl := Option.some.inj hcurrent
    exact hlisting path info (List.mem_of_mem_filter hinfo)
  · cases heq.symm.trans h
    refine ⟨fun current hcurrent i hi => ?_, rfl, fun _ hfound => (nomatch hfound)⟩
    obtain rfl := Option.some.inj hcurrent
    exact hit _ hc i (List.mem_cons_of_mem _ hi)
  · cases heq.symm.trans h
    refine ⟨fun current hcurrent i hi => ?_, rfl, fun i hfound => ?_⟩
    · obtain rfl := Option.some.inj hcurrent
      exact hit _ hc i (List.mem_cons_of_mem _ hi)
    · cases hfound
      exact ⟨hit _ hc _ (List.mem_cons_self ..), rfl, rfl⟩

/-- The loop of `handleDirCreated` is what the handler does from a round on. -/
theorem works_loop (hlisting : ∀ folder, ∀ info ∈ listing folder, info.filePath ≠ []) {n : ℕ}
    {signals : List KInotify.Signal} (hloop : handleDirCreatedLoop listing n k it = some (k', signals))
    (hfirst : it.firstItem = false) (hit : Named it) (dir : List QChar) :
    Works listing k { it := it, dir := dir, stage := .walking } k' signals := by
  induction n generalizing k it signals dir with
  | zero => cases hloop
  | succ n ih =>
    -- up to the round that stops the handler has only skipped
    obtain ⟨it₁, it₂, path, hnext, ⟨path₁, dir₁, hnamed₁, hfirst₁, hworks⟩, hstop⟩ :=
      @nextLoop_rule listing { it with filePath := [] } (fun i => ∃ path₁ dir₁, Named i ∧ i.firstItem = false ∧
          ∀ l, Works listing k { it := { i with filePath := path₁ }, dir := dir₁, stage := .walking } k' l →
            Works listing k { it := it, dir := dir, stage := .walking } k' l)
        (by
          rintro i i' ⟨path₁, dir₁, hnamed, hfirst, hworks⟩ hround
          obtain ⟨hnamed', hfirst', -⟩ := hnamed.advance hlisting hround
          obtain ⟨path₂, hround₂, -⟩ := advance_filePath hround path₁
          set h₁ : Handler := { it := { i with filePath := path₁ }, dir := dir₁, stage := .walking } with hh₁
          refine ⟨path₂, h₁.nextDir, hnamed', hfirst'.trans hfirst, fun l hl => hworks l ?_⟩
          have hstep : h₁.step listing k =
              (k, some { it := { i' with filePath := path₂ }, dir := h₁.nextDir, stage := .walking }, []) := by
            simp only [Handler.step, hh₁, hround₂]
          exact .more hstep hl)
        (it.rounds listing) ⟨it.filePath, dir, hit, hfirst, fun _ => id⟩ (Nat.le_refl _)
    have hnext' : it.next listing = (it₂, path) := by
      rw [FilteredDirIterator.next, if_neg (by rw [hfirst]; exact Bool.false_ne_true), hnext]
    rw [handleDirCreatedLoop, hnext'] at hloop
    dsimp only at hloop
    rcases hstop with ⟨info, hround, rfl⟩ | ⟨hround, rfl⟩
    · obtain ⟨hnamed₂, hfirst₂, hfound⟩ := hnamed₁.advance hlisting hround
      obtain ⟨hne, hpath, hinfo⟩ := hfound info rfl
      obtain ⟨path₂, hround₂, hpath₂⟩ := advance_filePath hround path₁
      have hit₂ : ({ it₂ with filePath := path₂ } : FilteredDirIterator) = it₂ := by rw [hpath₂ info rfl]
      rw [hit₂] at hround₂
      rw [if_neg hne, hinfo, Option.any_some, hpath] at hloop
      have hstep : Handler.step listing k { it := { it₁ with filePath := path₁ }, dir := dir₁, stage := .walking } =
          (k, some { it := it₂, dir := dir₁, stage := if info.isDir then .entering else .walking },
            [.created info.filePath info.isDir]) := by
        simp only [Handler.step, hround₂]
      cases hisDir : info.isDir with
      | false =>
        rw [hisDir] at hloop hstep
        obtain ⟨⟨k₂, signals₂⟩, hrest, heq⟩ := Option.map_eq_some_iff.mp hloop
        cases heq
        exact hworks _ (.more hstep (ih hrest (hfirst₂.trans hfirst₁) hnamed₂ dir₁))
      | true =>
        rw [hisDir] at hloop hstep
        obtain ⟨⟨k₂, signals₂⟩, hrest, heq⟩ := Option.map_eq_some_iff.mp hloop
        cases heq
        have henter : Handler.step listing k { it := it₂, dir := dir₁, stage := .entering } =
            ((Private.addWatch k info.filePath).1, some { it := it₂, dir := dir₁, stage := .walking },
              (Private.addWatch k info.filePath).2) := by
          simp only [Handler.step, hpath]
        have hwork := Works.more hstep (.more henter (ih hrest (hfirst₂.trans hfirst₁) hnamed₂ dir₁))
        rw [← List.append_assoc] at hwork
        exact hworks _ hwork
    · rw [if_pos rfl] at hloop
      cases hloop
      obtain ⟨path₂, hround₂, -⟩ := advance_filePath hround path₁
      refine hworks [] (.done ?_)
      simp only [Handler.step, hround₂]

theorem next_construct (listing : Listing) (config : Option FileIndexerConfig) (path : List QChar)
    (filter : Filter) :
    ((construct listing config path filter).next listing).1.firstItem = false ∧
      ((construct listing config path filter).next listing).1.currentIter =
        (construct listing config path filter).currentIter := by
  cases hyes : config.all fun config => config.shouldFolderBeIndexed path with
  | true => simp [construct, hyes, FilteredDirIterator.next]
  | false => simp [construct, hyes, FilteredDirIterator.next, rounds, nextLoop, FilteredDirIterator.advance]

/-- What the handler does comes to `handleDirCreated`. -/
theorem works_handleDirCreated (hlisting : ∀ folder, ∀ info ∈ listing folder, info.filePath ≠ []) {fuel : ℕ}
    {path : List QChar} {signals : List KInotify.Signal}
    (h : handleDirCreated listing fuel k path = some (k', signals)) :
    Works listing k (.start listing k.config path) k' signals := by
  set it := construct listing k.config path .filesAndDirs with hit
  obtain ⟨hfirst, hcurrent⟩ := next_construct listing k.config path .filesAndDirs
  rw [← hit] at hfirst hcurrent
  have hnamed : Named (it.next listing).1 := by
    intro current hc info hinfo
    rw [hcurrent, hit, construct] at hc
    split at hc
    · obtain rfl := Option.some.inj hc
      exact hlisting path info (List.mem_of_mem_filter hinfo)
    · cases hc
  rw [handleDirCreated] at h
  dsimp only at h
  rw [← hit] at h
  obtain ⟨⟨k₂, signals₂⟩, hloop, heq⟩ := Option.map_eq_some_iff.mp h
  cases heq
  refine .more ?_ (works_loop hlisting hloop hfirst hnamed (normalizeTrailingSlash path))
  simp only [Handler.step, Handler.start, ← hit]

end

/-! ## Runs -/

/-- The files and directories, and the watcher at work. -/
structure State where
  /-- what has been created -/
  nodes : List Node
  /-- `KInotify`, with the kernel's watches -/
  k : KInotify Kernel
  /-- the events in the kernel's queue -/
  queue : List KInotify.Event
  /-- `handleDirCreated`, if it is running -/
  handler : Option Handler
  /-- what has been signalled -/
  signals : List KInotify.Signal

section

variable (decode : QByteArray → List QChar)

/-- Something new can be created: its directory exists, and its name is free. -/
structure Possible (s : State) (n : Node) : Prop where
  dir : n.dir ∈ s.k.inotify.tree.dirs
  name : IsName (decode n.name)
  free : ∀ m ∈ s.nodes, m.path decode ≠ n.path decode
  freeDir : n.folder decode ∉ s.k.inotify.tree.dirs

/-- The listing that is open shows something that is created in its directory. -/
def Listed (n : Node) (handler handler' : Option Handler) : Prop :=
  ∃ h l l', handler = some h ∧ h.dir = n.dir ∧ h.it.currentIter = some (l ++ l') ∧
    handler' = some { h with it := { h.it with currentIter := some (l ++ n.info decode :: l') } }

/-- A directory is made. -/
def addDir (tree : DirTree) (n : Node) (hdir : n.dir ∈ tree.dirs) (hname : IsName (decode n.name)) : DirTree where
  dirs := n.folder decode :: tree.dirs
  parent := by
    intro d hd
    cases hd with
    | head => exact .inr ⟨n.dir, List.mem_cons_of_mem _ hdir, decode n.name, hname, rfl⟩
    | tail _ hd =>
      refine (tree.parent d hd).imp_right ?_
      rintro ⟨dir, hmem, name, hname, heq⟩
      exact ⟨dir, List.mem_cons_of_mem _ hmem, name, hname, heq⟩

/-- Something is created, with an event if its directory is watched. -/
def State.create (s : State) (n : Node) (h : Possible decode s n) (handler : Option Handler) : State where
  nodes := n :: s.nodes
  k := { s.k with inotify := { s.k.inotify with
    tree := if n.isDir then addDir decode s.k.inotify.tree n h.dir h.name else s.k.inotify.tree } }
  queue := s.queue ++ ((s.k.inotify.watches.get n.dir).map n.event).toList
  handler := handler
  signals := s.signals

/-- An event is handled; for a directory this starts `handleDirCreated`. -/
def State.handle (s : State) (env : Surroundings) (listing : Listing) (event : KInotify.Event)
    (queue : List KInotify.Event) : State :=
  let path := eventPath env s.k event
  let isDir := hasBit event.mask InIsDir
  { s with
    queue := queue
    handler := if isDir then some (.start listing s.k.config path) else none
    signals := s.signals ++ [.created path isDir] }

/-- A step of the handler. -/
def State.step (s : State) (listing : Listing) (h : Handler) : State :=
  let (k, handler, signals) := h.step listing s.k
  { s with k := k, handler := handler, signals := s.signals ++ signals }

/-- Runs; `P` says what may be created when, and whether the open listing shows it. -/
inductive Run (P : State → Node → Option Handler → Prop) (s₀ : State) : State → Prop
  | nil : Run P s₀ s₀
  | create {s : State} {n : Node} {handler : Option Handler} (hrun : Run P s₀ s) (h : Possible decode s n)
      (hhandler : handler = s.handler ∨ Listed decode n s.handler handler) (hP : P s n handler) :
      Run P s₀ (s.create decode n h handler)
  | handle {s : State} {env : Surroundings} {listing : Listing} {event : KInotify.Event}
      {queue : List KInotify.Event} (hrun : Run P s₀ s) (hidle : s.handler = none)
      (hqueue : s.queue = event :: queue) (henv : env.decodeName = decode) (hshows : Shows decode s.nodes listing) :
      Run P s₀ (s.handle env listing event queue)
  | step {s : State} {listing : Listing} {h : Handler} (hrun : Run P s₀ s) (hhandler : s.handler = some h)
      (hshows : Shows decode s.nodes listing) : Run P s₀ (s.step listing h)

/-- The listing of the directory is open, but the directory is not watched yet. -/
def Between (s : State) (n : Node) : Prop :=
  ∃ h, s.handler = some h ∧ h.stage = .opened ∧ h.it.currentIter.isSome = true ∧ h.it.folder = n.dir ∧
    ¬ s.k.Watching n.dir

/-- What is created in a directory between the opening of its listing and its watch is shown by the
listing, if it should be indexed. -/
def InTime (s : State) (n : Node) (handler : Option Handler) : Prop :=
  Between s n → accepts s.k.config (n.info decode) = true → Listed decode n s.handler handler

/-- It should be indexed: it is accepted, and so are the directories on the way down from a watched
one. -/
inductive Indexable (roots : Set (List QChar)) (s : State) : Node → Prop
  | top {n : Node} (hmem : n ∈ s.nodes) (hdir : n.dir ∈ roots)
      (haccepts : accepts s.k.config (n.info decode) = true) : Indexable roots s n
  | inside {p n : Node} (hparent : Indexable roots s p) (hisDir : p.isDir = true) (hmem : n ∈ s.nodes)
      (hdir : n.dir = p.folder decode) (haccepts : accepts s.k.config (n.info decode) = true) :
      Indexable roots s n

/-- It has been signalled. -/
def Signalled (s : State) (n : Node) : Prop :=
  .created (n.path decode) n.isDir ∈ s.signals ∨ .created (n.folder decode) n.isDir ∈ s.signals

/-- At the start these directories are watched and indexed, and nothing has been created yet. -/
structure Starts (roots : Set (List QChar)) (s : State) : Prop where
  synced : s.k.Synced
  rooted : ∀ d ∈ roots, s.k.Watching d ∧ d ∈ s.k.inotify.tree.dirs ∧
    (s.k.config.all fun config => config.shouldFolderBeIndexed d) = true
  nodes : s.nodes = []
  queue : s.queue = []
  handler : s.handler = none

end

/-! ## What is still to come -/

section

variable {decode : QByteArray → List QChar} {roots : Set (List QChar)} {s s' : State} {n p : Node}
  {listing : Listing}

variable (decode roots) in
/-- It will be signalled: its event waits, or a listing shows it, or will show it. -/
inductive ToCome (s : State) : Node → Prop
  | queued {n : Node} {wd : ℤ} (hwd : s.k.inotify.watches.get n.dir = some wd)
      (hmem : n.event wd ∈ s.queue) : ToCome s n
  | listed {n : Node} {h : Handler} {current : List FileInfo} (hhandler : s.handler = some h)
      (hcurrent : h.it.currentIter = some current) (hmem : n.info decode ∈ current) : ToCome s n
  /-- its directory is on the stack -/
  | stacked {n : Node} {h : Handler} {path : List QChar} (hmem : n ∈ s.nodes) (hhandler : s.handler = some h)
      (hopen : h.it.currentIter.isSome = true) (hpath : path ∈ h.it.paths)
      (hdir : n.dir = normalizeTrailingSlash path) : ToCome s n
  /-- its directory will be signalled -/
  | inside {p n : Node} (hmem : n ∈ s.nodes) (hparent : Indexable decode roots s p) (hisDir : p.isDir = true)
      (hdir : n.dir = p.folder decode) (h : ToCome s p) : ToCome s n

variable (decode) in
/-- The next step of the handler watches the directory. -/
def Entering (s : State) (d : List QChar) : Prop :=
  ∃ h, s.handler = some h ∧ h.it.currentIter.isSome = true ∧
    ((h.stage = .opened ∧ h.it.folder = d) ∨
      (h.stage = .entering ∧ h.it.filePath ∈ h.it.paths ∧ normalizeTrailingSlash h.it.filePath = d))

/-- What can be relied on while the handler works. -/
structure Sound (decode : QByteArray → List QChar) (s : State) (h : Handler) : Prop where
  config : h.it.config = s.k.config
  filter : h.it.filter = .filesAndDirs
  current : ∀ current, h.it.currentIter = some current → ∀ info ∈ current, ∃ n ∈ s.nodes, n.info decode = info
  opened : h.stage = .opened → h.it.paths = [] ∧ h.it.firstItem = h.it.currentIter.isSome
  started : h.stage ≠ .opened → h.it.firstItem = false
  /-- what is on the stack is watched, except the directory that is entered -/
  entering : h.stage = .entering → ∃ paths, h.it.paths = h.it.filePath :: paths ∧
    h.it.currentIter.isSome = true ∧ normalizeTrailingSlash h.it.filePath ∈ s.k.inotify.tree.dirs ∧
    ∀ path ∈ paths, s.k.Watching (normalizeTrailingSlash path)
  walking : h.stage = .walking → ∀ path ∈ h.it.paths, s.k.Watching (normalizeTrailingSlash path)

/-- Nothing is missed. -/
structure Inv (decode : QByteArray → List QChar) (roots : Set (List QChar)) (s : State) : Prop where
  synced : s.k.Synced
  rooted : ∀ d ∈ roots, s.k.Watching d ∧ d ∈ s.k.inotify.tree.dirs ∧
    (s.k.config.all fun config => config.shouldFolderBeIndexed d) = true
  nodes : ∀ n ∈ s.nodes, n.dir ∈ s.k.inotify.tree.dirs ∧ IsName (decode n.name) ∧
    (n.isDir = true → n.folder decode ∈ s.k.inotify.tree.dirs)
  queue : ∀ e ∈ s.queue, ∃ n ∈ s.nodes, ∃ wd, s.k.inotify.watches.get n.dir = some wd ∧ e = n.event wd
  handler : ∀ h, s.handler = some h → Sound decode s h
  signalled : ∀ n, Indexable decode roots s n → Signalled decode s n ∨ ToCome decode roots s n
  watched : ∀ n, Indexable decode roots s n → n.isDir = true →
    s.k.Watching (n.folder decode) ∨ ToCome decode roots s n ∨ Entering s (n.folder decode)

/-- It has been created. -/
theorem Indexable.mem (h : Indexable decode roots s n) : n ∈ s.nodes := by
  cases h with
  | top hmem => exact hmem
  | inside _ _ hmem => exact hmem

theorem Indexable.accepts (h : Indexable decode roots s n) :
    FilteredDirIterator.accepts s.k.config (n.info decode) = true := by
  cases h with
  | top _ _ haccepts => exact haccepts
  | inside _ _ _ _ haccepts => exact haccepts

/-- The folder of an accepted directory should be indexed, if its directory should be. -/
theorem Inv.folder_indexed (hinv : Inv decode roots s) (hmem : n ∈ s.nodes)
    (haccepts : accepts s.k.config (n.info decode) = true)
    (hparent : (s.k.config.all fun config => config.shouldFolderBeIndexed n.dir) = true)
    (hisDir : n.isDir = true) :
    (s.k.config.all fun config => config.shouldFolderBeIndexed (n.folder decode)) = true := by
  cases hconfig : s.k.config with
  | none => rfl
  | some config =>
    obtain ⟨hdir, hname, -⟩ := hinv.nodes n hmem
    rw [hconfig] at hparent haccepts
    simp only [accepts, Node.info, hisDir, ↓reduceIte] at haccepts
    have hchild := shouldIndexFolder_child hname (.inr (DirTree.closed_of_mem hdir))
      (DirTree.normalize_of_mem hdir) (by simpa using hparent)
      (rfl : (FileInfo.mk (n.path decode) true (!true)).filePath = n.dir ++ decode n.name)
    rw [hchild] at haccepts
    exact haccepts

/-- The directories of what should be indexed should be indexed. -/
theorem Indexable.dir_indexed (hinv : Inv decode roots s) (h : Indexable decode roots s n) :
    (s.k.config.all fun config => config.shouldFolderBeIndexed n.dir) = true := by
  induction h with
  | top _ hdir => exact (hinv.rooted _ hdir).2.2
  | inside hparent hisDir _ hdir _ ih =>
    rw [hdir]
    exact hinv.folder_indexed hparent.mem hparent.accepts ih hisDir

/-- How something that is to come stays so, or is signalled by a step (`D`). -/
theorem ToCome.step {D : Node → Prop}
    (hqueued : ∀ n wd, s.k.inotify.watches.get n.dir = some wd → n.event wd ∈ s.queue →
      D n ∨ ToCome decode roots s' n)
    (hlisted : ∀ n h current, s.handler = some h → h.it.currentIter = some current → n.info decode ∈ current →
      accepts s.k.config (n.info decode) = true → D n ∨ ToCome decode roots s' n)
    (hstacked : ∀ n h path, n ∈ s.nodes → s.handler = some h → h.it.currentIter.isSome = true →
      path ∈ h.it.paths → n.dir = normalizeTrailingSlash path → D n ∨ ToCome decode roots s' n)
    (hnow : ∀ n p, n ∈ s.nodes → Indexable decode roots s p → p.isDir = true → n.dir = p.folder decode → D p →
      ToCome decode roots s' n)
    (hnodes : ∀ n ∈ s.nodes, n ∈ s'.nodes) (hindexable : ∀ n, Indexable decode roots s n → Indexable decode roots s' n)
    (h : ToCome decode roots s n) (hn : Indexable decode roots s n) : D n ∨ ToCome decode roots s' n := by
  induction h with
  | queued hwd hmem => exact hqueued _ _ hwd hmem
  | listed hhandler hcurrent hmem => exact hlisted _ _ _ hhandler hcurrent hmem hn.accepts
  | stacked hmem hhandler hopen hpath hdir => exact hstacked _ _ _ hmem hhandler hopen hpath hdir
  | inside hmem hparent hisDir hdir _ ih =>
    cases ih hparent with
    | inl hp => exact .inr (hnow _ _ hmem hparent hisDir hdir hp)
    | inr hp => exact .inr (.inside (hnodes _ hmem) (hindexable _ hparent) hisDir hdir hp)

/-! ## Something is created -/

/-- The handler after something has been created. -/
structure Grown (decode : QByteArray → List QChar) (m : Node) (h h' : Handler) : Prop where
  stage : h'.stage = h.stage
  it : ∃ current, h'.it = { h.it with currentIter := current }
  isSome : h'.it.currentIter.isSome = h.it.currentIter.isSome
  kept : ∀ current, h.it.currentIter = some current →
    ∃ current', h'.it.currentIter = some current' ∧ ∀ info ∈ current, info ∈ current'
  new : ∀ current', h'.it.currentIter = some current' →
    ∃ current, h.it.currentIter = some current ∧ ∀ info ∈ current', info = m.info decode ∨ info ∈ current

theorem grown {m : Node} {handler : Option Handler}
    (hhandler : handler = s.handler ∨ Listed decode m s.handler handler) :
    (s.handler = none ∧ handler = none) ∨
      ∃ h h', s.handler = some h ∧ handler = some h' ∧ Grown decode m h h' := by
  rcases hhandler with rfl | ⟨h, l, l', hh, -, hcurrent, rfl⟩
  · cases hh : s.handler with
    | none => exact .inl ⟨rfl, rfl⟩
    | some h =>
      exact .inr ⟨h, h, rfl, rfl, rfl, ⟨h.it.currentIter, rfl⟩, rfl, fun current hc => ⟨current, hc, fun _ => id⟩,
        fun current hc => ⟨current, hc, fun _ => .inr⟩⟩
  · refine .inr ⟨h, _, hh, rfl, rfl, ⟨_, rfl⟩, by rw [hcurrent]; rfl, fun current hc => ?_, fun current' hc => ?_⟩
    · obtain rfl := Option.some.inj (hcurrent.symm.trans hc)
      refine ⟨_, rfl, fun info hinfo => ?_⟩
      rw [List.mem_append] at hinfo ⊢
      exact hinfo.imp_right (List.mem_cons_of_mem _)
    · obtain rfl := Option.some.inj hc
      refine ⟨_, hcurrent, fun info hinfo => ?_⟩
      rw [List.mem_append, List.mem_cons] at hinfo
      rw [List.mem_append]
      tauto

/-- What was there before is indexable as before. -/
theorem Indexable.create {m : Node} {h : Possible decode s m} {handler : Option Handler}
    (hn : Indexable decode roots s n) : Indexable decode roots (s.create decode m h handler) n := by
  induction hn with
  | top hmem hdir haccepts => exact .top (List.mem_cons_of_mem _ hmem) hdir haccepts
  | inside _ hisDir hmem hdir haccepts ih => exact .inside ih hisDir (List.mem_cons_of_mem _ hmem) hdir haccepts

/-- Nothing but the new node is newly indexable. -/
theorem Indexable.of_create {m : Node} {h : Possible decode s m} {handler : Option Handler}
    (hinv : Inv decode roots s) (hn : Indexable decode roots (s.create decode m h handler) n) :
    n = m ∨ Indexable decode roots s n := by
  induction hn with
  | top hmem hdir haccepts =>
    cases hmem with
    | head => exact .inl rfl
    | tail _ hmem => exact .inr (.top hmem hdir haccepts)
  | @inside p n _ hisDir hmem hdir haccepts ih =>
    cases hmem with
    | head => exact .inl rfl
    | tail _ hmem =>
      rcases ih with rfl | hp
      · -- nothing was in the new directory
        have hold := (hinv.nodes n hmem).1
        rw [hdir] at hold
        exact absurd hold h.freeDir
      · exact .inr (.inside hp hisDir hmem hdir haccepts)

theorem mem_dirs_create {m : Node} {h : Possible decode s m} {handler : Option Handler} {d : List QChar}
    (hd : d ∈ s.k.inotify.tree.dirs) : d ∈ (s.create decode m h handler).k.inotify.tree.dirs := by
  rw [State.create]
  dsimp only
  split
  · exact List.mem_cons_of_mem _ hd
  · exact hd

/-- The new node is to come. -/
theorem toCome_new {m : Node} {h : Possible decode s m} {handler : Option Handler} (hinv : Inv decode roots s)
    (hhandler : handler = s.handler ∨ Listed decode m s.handler handler) (hP : InTime decode s m handler)
    (hkept : ∀ n, Indexable decode roots s n → ToCome decode roots s n →
      ToCome decode roots (s.create decode m h handler) n)
    (hm : Indexable decode roots (s.create decode m h handler) m) :
    ToCome decode roots (s.create decode m h handler) m := by
  have hqueued : s.k.Watching m.dir → ToCome decode roots (s.create decode m h handler) m := by
    rintro ⟨wd, hwd⟩
    refine .queued hwd (List.mem_append_right _ ?_)
    rw [hwd]
    exact List.mem_singleton_self _
  have hlisted : Listed decode m s.handler handler → ToCome decode roots (s.create decode m h handler) m := by
    rintro ⟨h₁, l, l', -, -, -, rfl⟩
    exact .listed rfl rfl (List.mem_append_right _ (List.mem_cons_self ..))
  have haccepts : accepts s.k.config (m.info decode) = true := hm.accepts
  cases hm with
  | top _ hdir _ => exact hqueued (hinv.rooted _ hdir).1
  | @inside p _ hp hisDir _ hdir _ =>
    rcases hp.of_create hinv with rfl | hp
    · -- a directory is not inside itself
      have hlen := congrArg List.length hdir
      simp [Node.folder] at hlen
    rcases hinv.watched p hp hisDir with hwatching | htoCome | ⟨h₁, hh₁, hopen, hstage⟩
    · exact hqueued (hdir ▸ hwatching)
    · exact .inside (List.mem_cons_self ..) hp.create hisDir hdir (hkept p hp htoCome)
    · by_cases hwatching : s.k.Watching m.dir
      · exact hqueued hwatching
      rcases hstage with ⟨hopened, hfolder⟩ | ⟨-, hmem, hfolder⟩
      · exact hlisted (hP ⟨h₁, hh₁, hopened, hopen, hfolder.trans hdir.symm, hwatching⟩ haccepts)
      · rcases grown hhandler with ⟨hnone, -⟩ | ⟨h₂, h₃, hh₂, hh₃, hgrown⟩
        · rw [hh₁] at hnone
          cases hnone
        · obtain rfl := Option.some.inj (hh₁.symm.trans hh₂)
          obtain ⟨current, hit⟩ := hgrown.it
          refine .stacked (List.mem_cons_self ..) hh₃ (hgrown.isSome.trans hopen) ?_ (hdir.trans hfolder.symm)
          rw [hit]
          exact hmem

theorem ToCome.create {m : Node} {h : Possible decode s m} {handler : Option Handler}
    (hhandler : handler = s.handler ∨ Listed decode m s.handler handler)
    (hn : Indexable decode roots s n) (htoCome : ToCome decode roots s n) :
    ToCome decode roots (s.create decode m h handler) n := by
  have hgrown : ∀ h₁, s.handler = some h₁ → ∃ h₂, handler = some h₂ ∧ Grown decode m h₁ h₂ := by
    intro h₁ hh₁
    rcases grown hhandler with ⟨hnone, -⟩ | ⟨h, h₂, hh, hh₂, hgrown⟩
    · rw [hh₁] at hnone
      cases hnone
    · obtain rfl := Option.some.inj (hh₁.symm.trans hh)
      exact ⟨h₂, hh₂, hgrown⟩
  refine (htoCome.step (D := fun _ => False) ?_ ?_ ?_ ?_ ?_ (fun _ => Indexable.create) hn).resolve_left id
  · exact fun n wd hwd hmem => .inr (.queued hwd (List.mem_append_left _ hmem))
  · intro n h₁ current hh₁ hcurrent hmem _
    obtain ⟨h₂, hh₂, hgrown⟩ := hgrown h₁ hh₁
    obtain ⟨current', hcurrent', hsub⟩ := hgrown.kept current hcurrent
    exact .inr (.listed hh₂ hcurrent' (hsub _ hmem))
  · intro n h₁ path hmem hh₁ hopen hpath hdir
    obtain ⟨h₂, hh₂, hgrown⟩ := hgrown h₁ hh₁
    obtain ⟨_, hit⟩ := hgrown.it
    exact .inr (.stacked (List.mem_cons_of_mem _ hmem) hh₂ (hgrown.isSome.trans hopen) (by rw [hit]; exact hpath) hdir)
  · exact fun _ _ _ _ _ _ hfalse => hfalse.elim
  · exact fun n hmem => List.mem_cons_of_mem _ hmem

/-- A creation keeps the invariant. -/
theorem Inv.create {m : Node} (hinv : Inv decode roots s) (h : Possible decode s m) {handler : Option Handler}
    (hhandler : handler = s.handler ∨ Listed decode m s.handler handler) (hP : InTime decode s m handler) :
    Inv decode roots (s.create decode m h handler) where
  synced := ⟨hinv.synced.paths, hinv.synced.descriptors, hinv.synced.fresh⟩
  rooted d hd := ⟨(hinv.rooted d hd).1, mem_dirs_create (hinv.rooted d hd).2.1, (hinv.rooted d hd).2.2⟩
  nodes n hn := by
    cases hn with
    | head =>
      refine ⟨mem_dirs_create h.dir, h.name, fun hisDir => ?_⟩
      rw [State.create]
      dsimp only
      rw [if_pos hisDir]
      exact List.mem_cons_self ..
    | tail _ hn =>
      obtain ⟨hdir, hname, hfolder⟩ := hinv.nodes n hn
      exact ⟨mem_dirs_create hdir, hname, fun hisDir => mem_dirs_create (hfolder hisDir)⟩
  queue e he := by
    rcases List.mem_append.mp he with he | he
    · obtain ⟨n, hn, wd, hwd⟩ := hinv.queue e he
      exact ⟨n, List.mem_cons_of_mem _ hn, wd, hwd⟩
    · rw [Option.mem_toList, Option.map_eq_some_iff] at he
      obtain ⟨wd, hwd, rfl⟩ := he
      exact ⟨m, List.mem_cons_self .., wd, hwd, rfl⟩
  handler h₂ hh₂ := by
    rcases grown hhandler with ⟨-, hnone⟩ | ⟨h₁, h₃, hh₁, hh₃, hgrown⟩
    · rw [hnone] at hh₂
      cases hh₂
    obtain rfl := Option.some.inj (hh₂.symm.trans hh₃)
    have hsound := hinv.handler h₁ hh₁
    obtain ⟨current, hit⟩ := hgrown.it
    exact {
      config := by rw [hit]; exact hsound.config
      filter := by rw [hit]; exact hsound.filter
      current := by
        intro current' hcurrent' info hinfo
        obtain ⟨current₁, hcurrent₁, hnew⟩ := hgrown.new current' hcurrent'
        rcases hnew info hinfo with rfl | hinfo
        · exact ⟨m, List.mem_cons_self .., rfl⟩
        · obtain ⟨n, hn, heq⟩ := hsound.current current₁ hcurrent₁ info hinfo
          exact ⟨n, List.mem_cons_of_mem _ hn, heq⟩
      opened := by
        rw [hgrown.stage, hgrown.isSome]
        rw [hit]
        exact hsound.opened
      started := by
        rw [hgrown.stage, hit]
        exact hsound.started
      entering := by
        intro hstage
        obtain ⟨paths, hpaths, hopen, hdir, hwatching⟩ := hsound.entering (hgrown.stage.symm.trans hstage)
        refine ⟨paths, ?_, hgrown.isSome.trans hopen, ?_, hwatching⟩
        · rw [hit]
          exact hpaths
        · rw [hit]
          exact mem_dirs_create hdir
      walking := by
        intro hstage
        rw [hit]
        exact hsound.walking (hgrown.stage.symm.trans hstage) }
  signalled n hn := by
    rcases hn.of_create hinv with rfl | hold
    · exact .inr (toCome_new hinv hhandler hP (fun n hn => ToCome.create hhandler hn) hn)
    · exact (hinv.signalled n hold).imp_right (ToCome.create hhandler hold)
  watched n hn hisDir := by
    rcases hn.of_create hinv with rfl | hold
    · exact .inr (.inl (toCome_new hinv hhandler hP (fun n hn => ToCome.create hhandler hn) hn))
    · refine (hinv.watched n hold hisDir).imp_right (Or.imp (ToCome.create hhandler hold) ?_)
      rintro ⟨h₁, hh₁, hopen, hstage⟩
      rcases grown hhandler with ⟨hnone, -⟩ | ⟨h₀, h₂, hh₀, hh₂, hgrown⟩
      · rw [hh₁] at hnone
        cases hnone
      obtain rfl := Option.some.inj (hh₁.symm.trans hh₀)
      obtain ⟨current, hit⟩ := hgrown.it
      refine ⟨h₂, hh₂, hgrown.isSome.trans hopen, ?_⟩
      rw [hgrown.stage, hit]
      exact hstage

/-! ## A step without creations -/

/-- What is indexable depends on the nodes and the configuration. -/
theorem Indexable.congr (hn : Indexable decode roots s n) (hnodes : s'.nodes = s.nodes)
    (hconfig : s'.k.config = s.k.config) : Indexable decode roots s' n := by
  induction hn with
  | top hmem hdir haccepts => exact .top (hnodes ▸ hmem) hdir (hconfig ▸ haccepts)
  | inside _ hisDir hmem hdir haccepts ih => exact .inside ih hisDir (hnodes ▸ hmem) hdir (hconfig ▸ haccepts)

/-- Nodes and configuration are the same, and watches and signals are kept. -/
structure Keeps (s s' : State) : Prop where
  nodes : s'.nodes = s.nodes
  config : s'.k.config = s.k.config
  tree : s'.k.inotify.tree = s.k.inotify.tree
  watches : ∀ d wd, s.k.inotify.watches.get d = some wd → s'.k.inotify.watches.get d = some wd
  queue : ∀ e ∈ s'.queue, e ∈ s.queue
  signals : ∀ signal ∈ s.signals, signal ∈ s'.signals

theorem Keeps.indexable (h : Keeps s s') (hn : Indexable decode roots s n) : Indexable decode roots s' n :=
  hn.congr h.nodes h.config

/-- A step keeps the invariant if what was to come still is, or is done now (`D`): it is signalled, and
a directory is watched next. -/
theorem Inv.of_step (hinv : Inv decode roots s) (hkeeps : Keeps s s') (hsynced : s'.k.Synced)
    (hsound : ∀ h, s'.handler = some h → Sound decode s' h) {D : Node → Prop}
    (hD : ∀ n, Indexable decode roots s n → D n →
      Signalled decode s' n ∧ (n.isDir = true → Entering s' (n.folder decode)))
    (hcases : ∀ n, Indexable decode roots s n → ToCome decode roots s n → D n ∨ ToCome decode roots s' n)
    (hentering : ∀ n ∈ s.nodes, n.isDir = true → Entering s (n.folder decode) →
      s'.k.Watching (n.folder decode)) : Inv decode roots s' := by
  have hwatching : ∀ d, s.k.Watching d → s'.k.Watching d := by
    rintro d ⟨wd, hwd⟩
    exact ⟨wd, hkeeps.watches d wd hwd⟩
  have hback : ∀ n, Indexable decode roots s' n → Indexable decode roots s n := fun n hn =>
    hn.congr hkeeps.nodes.symm hkeeps.config.symm
  refine ⟨hsynced, fun d hd => ?_, fun n hn => ?_, fun e he => ?_, hsound, fun n hn => ?_, fun n hn hisDir => ?_⟩
  · rw [hkeeps.config, hkeeps.tree]
    exact ⟨hwatching d (hinv.rooted d hd).1, (hinv.rooted d hd).2⟩
  · rw [hkeeps.tree]
    exact hinv.nodes n (hkeeps.nodes ▸ hn)
  · obtain ⟨n, hn, wd, hwd, heq⟩ := hinv.queue e (hkeeps.queue e he)
    exact ⟨n, hkeeps.nodes ▸ hn, wd, hkeeps.watches _ _ hwd, heq⟩
  · rcases hinv.signalled n (hback n hn) with hold | htoCome
    · exact .inl (hold.imp (hkeeps.signals _) (hkeeps.signals _))
    · exact (hcases n (hback n hn) htoCome).imp (fun h => (hD n (hback n hn) h).1) id
  · rcases hinv.watched n (hback n hn) hisDir with hold | htoCome | hold
    · exact .inl (hwatching _ hold)
    · rcases hcases n (hback n hn) htoCome with hnow | htoCome
      · exact .inr (.inr ((hD n (hback n hn) hnow).2 hisDir))
      · exact .inr (.inl htoCome)
    · exact .inl (hentering n (hback n hn).mem hisDir hold)

/-! ## An event is handled -/

theorem Node.hasBit_isDir (n : Node) (wd : ℤ) : hasBit (n.event wd).mask InIsDir = n.isDir := by
  change hasBit (if n.isDir then EventCreate ||| InIsDir else EventCreate) InIsDir = n.isDir
  cases n.isDir with
  | false => decide
  | true => decide

theorem Node.hasBit_self (n : Node) (wd : ℤ) :
    hasBit (n.event wd).mask (EventDeleteSelf ||| EventMoveSelf) = false := by
  change hasBit (if n.isDir then EventCreate ||| InIsDir else EventCreate) _ = false
  cases n.isDir with
  | false => decide
  | true => decide

/-- An event tells what has been created. -/
theorem Inv.event_inj {m : Node} {wd wd' : ℤ} (hinv : Inv decode roots s)
    (hm : s.k.inotify.watches.get m.dir = some wd) (hn : s.k.inotify.watches.get n.dir = some wd')
    (heq : n.event wd' = m.event wd) : n = m := by
  have hwd : wd' = wd := congrArg KInotify.Event.wd heq
  have hname : n.name = m.name := congrArg KInotify.Event.name heq
  have hisDir : n.isDir = m.isDir := by
    rw [← n.hasBit_isDir wd', ← m.hasBit_isDir wd, heq]
  have hdir : n.dir = m.dir := by
    have hpath := (hinv.synced.paths wd m.dir).mpr hm
    have hpath' := (hinv.synced.paths wd' n.dir).mpr hn
    rw [hwd, hpath] at hpath'
    exact (Option.some.inj hpath').symm
  obtain ⟨dir, name, isDir⟩ := n
  obtain rfl : dir = m.dir := hdir
  obtain rfl : name = m.name := hname
  obtain rfl : isDir = m.isDir := hisDir
  rfl

/-- The listing of a directory shows what is in it. -/
theorem Shows.mem (h : Shows decode s.nodes listing) (hmem : n ∈ s.nodes) {folder : List QChar}
    (hdir : n.dir = normalizeTrailingSlash folder) :
    n.info decode ∈ qDirIterator listing .filesAndDirs folder := by
  refine List.mem_filter.mpr ⟨(h folder _).mpr ⟨n, hmem, hdir, rfl⟩, ?_⟩
  cases hisDir : n.isDir <;> simp [Node.info, hisDir]

/-- The start of the handler. -/
theorem sound_start (h : Shows decode s.nodes listing) (path : List QChar) :
    Sound decode s (.start listing s.k.config path) := by
  cases hyes : s.k.config.all fun config => config.shouldFolderBeIndexed path with
  | false =>
    have hit : (Handler.start listing s.k.config path).it = { config := s.k.config, filter := .filesAndDirs
                                                              folder := path, currentIter := none
                                                              firstItem := false } := by
      simp [Handler.start, construct, hyes]
    refine ⟨by rw [hit], by rw [hit], ?_, fun _ => by rw [hit]; exact ⟨rfl, rfl⟩, fun hne => absurd rfl hne,
      fun hne => (by cases hne), fun hne => (by cases hne)⟩
    rw [hit]
    intro _ hcurrent
    cases hcurrent
  | true =>
    have hit : (Handler.start listing s.k.config path).it = {
        config := s.k.config, filter := .filesAndDirs, folder := path
        currentIter := some (qDirIterator listing .filesAndDirs path), firstItem := true } := by
      simp [Handler.start, construct, hyes]
    refine ⟨by rw [hit], by rw [hit], ?_, fun _ => by rw [hit]; exact ⟨rfl, rfl⟩, fun hne => absurd rfl hne,
      fun hne => (by cases hne), fun hne => (by cases hne)⟩
    rw [hit]
    intro current hcurrent info hinfo
    obtain rfl := Option.some.inj hcurrent
    obtain ⟨n, hn, -, heq⟩ := (h path info).mp (List.mem_of_mem_filter hinfo)
    exact ⟨n, hn, heq⟩

/-- The handling of an event keeps the invariant. -/
theorem Inv.handle {env : Surroundings} {event : KInotify.Event} {queue : List KInotify.Event}
    (hinv : Inv decode roots s) (hidle : s.handler = none) (hqueue : s.queue = event :: queue)
    (henv : env.decodeName = decode) (hshows : Shows decode s.nodes listing) :
    Inv decode roots (s.handle env listing event queue) := by
  obtain ⟨m, hm, wd, hwd, rfl⟩ := hinv.queue event (by rw [hqueue]; exact List.mem_cons_self ..)
  obtain ⟨hdir, hname, -⟩ := hinv.nodes m hm
  have hpath : eventPath env s.k (m.event wd) = m.path decode ++ if m.isDir then [separator] else [] := by
    rw [eventPath_of_get ((hinv.synced.paths wd m.dir).mpr hwd) (DirTree.closed_of_mem hdir) (by rw [henv]; exact hname)
      (m.hasBit_self wd), m.hasBit_isDir, henv]
    rfl
  have hfolder : m.isDir = true → eventPath env s.k (m.event wd) = m.folder decode := by
    intro hisDir
    rw [hpath, if_pos hisDir]
    rfl
  set s' := s.handle env listing (m.event wd) queue with hs'
  have hhandler : s'.handler =
      if m.isDir then some (.start listing s.k.config (eventPath env s.k (m.event wd))) else none := by
    rw [hs', State.handle]
    dsimp only
    rw [m.hasBit_isDir]
  have hsignalled : Signalled decode s' m := by
    have hmem : .created (eventPath env s.k (m.event wd)) m.isDir ∈ s'.signals := by
      rw [hs', State.handle]
      dsimp only
      rw [m.hasBit_isDir]
      exact List.mem_append_right _ (List.mem_singleton_self _)
    cases hisDir : m.isDir with
    | false =>
      rw [hpath, hisDir, if_neg Bool.false_ne_true, List.append_nil] at hmem
      exact .inl (hisDir ▸ hmem)
    | true =>
      rw [hfolder hisDir] at hmem
      exact .inr (hisDir ▸ hmem)
  have hcases : ∀ n, Indexable decode roots s n → ToCome decode roots s n →
      n = m ∨ ToCome decode roots s' n := by
    intro n hn htoCome
    refine @ToCome.step decode roots s s' n (fun n => n = m) ?_ ?_ ?_ ?_ (fun _ hmem => hmem)
      (fun _ hn => hn.congr rfl rfl) htoCome hn
    · intro n wd' hwd' hmem
      rw [hqueue] at hmem
      rcases List.mem_cons.mp hmem with heq | hmem
      · exact .inl (hinv.event_inj hwd hwd' heq)
      · exact .inr (.queued hwd' hmem)
    · intro n h current hh
      rw [hidle] at hh
      cases hh
    · intro n h path _ hh
      rw [hidle] at hh
      cases hh
    · -- the directory is listed now
      rintro n p hmem hp hisDir hn rfl
      rw [if_pos hisDir, hfolder hisDir] at hhandler
      have hindexed := hinv.folder_indexed hp.mem hp.accepts (hp.dir_indexed hinv) hisDir
      have hcurrent : (Handler.start listing s.k.config (p.folder decode)).it.currentIter =
          some (qDirIterator listing .filesAndDirs (p.folder decode)) := by
        simp [Handler.start, construct, hindexed]
      exact .listed hhandler hcurrent (hshows.mem hmem (hn.trans DirTree.normalize_child.symm))
  have hkeeps : Keeps s s' := ⟨rfl, rfl, rfl, fun _ _ => id,
    fun e he => by rw [hqueue]; exact List.mem_cons_of_mem _ he, fun _ => List.mem_append_left _⟩
  refine hinv.of_step hkeeps hinv.synced (fun h hh => ?_) ?_ hcases ?_
  · rw [hhandler] at hh
    split at hh
    · obtain rfl := Option.some.inj hh
      have hsound := sound_start hshows (eventPath env s.k (m.event wd))
      exact ⟨hsound.config, hsound.filter, hsound.current, hsound.opened, hsound.started, hsound.entering,
        hsound.walking⟩
    · cases hh
  · rintro n hn rfl
    refine ⟨hsignalled, fun hisDir => ?_⟩
    rw [if_pos hisDir, hfolder hisDir] at hhandler
    have hindexed := hinv.folder_indexed hn.mem hn.accepts (hn.dir_indexed hinv) hisDir
    exact ⟨_, hhandler, by simp [Handler.start, construct, hindexed],
      .inl ⟨rfl, by simp [Handler.start, construct, hindexed]⟩⟩
  · rintro n - - ⟨h, hh, -⟩
    rw [hidle] at hh
    cases hh

/-! ## A step of the handler -/

/-- The first step of the handler. -/
theorem step_opened (listing : Listing) {h : Handler} (hstage : h.stage = .opened)
    (hfirst : h.it.firstItem = h.it.currentIter.isSome) (k : KInotify Kernel) : ∃ it signals k',
      h.step listing k = (k', some { h with it := it, stage := .walking }, signals) ∧
      it.config = h.it.config ∧ it.filter = h.it.filter ∧ it.currentIter = h.it.currentIter ∧
      it.paths = h.it.paths ∧ it.firstItem = false ∧
      ((h.it.currentIter.isSome = true ∧ h.it.folder ≠ [] ∧ k' = (Private.addWatch k h.it.folder).1) ∨
        ((h.it.currentIter = none ∨ h.it.folder = []) ∧ k' = k)) := by
  cases hcurrent : h.it.currentIter with
  | some current =>
    rw [hcurrent] at hfirst
    have hnext : h.it.next listing =
        ({ h.it with firstItem := false, filePath := h.it.folder, fileInfo := none }, h.it.folder) := by
      have hyes : h.it.firstItem = true := hfirst
      rw [FilteredDirIterator.next, if_pos hyes]
    by_cases hfolder : h.it.folder = []
    · refine ⟨{ h.it with firstItem := false, filePath := h.it.folder, fileInfo := none }, [], k, ?_, rfl, rfl,
        hcurrent, rfl, rfl, .inr ⟨.inr hfolder, rfl⟩⟩
      simp only [Handler.step, hstage, hnext, hfolder, ne_eq, not_true_eq_false, ↓reduceIte]
    · refine ⟨{ h.it with firstItem := false, filePath := h.it.folder, fileInfo := none },
        (Private.addWatch k h.it.folder).2, (Private.addWatch k h.it.folder).1, ?_, rfl, rfl,
        hcurrent, rfl, rfl, .inl ⟨rfl, hfolder, rfl⟩⟩
      simp only [Handler.step, hstage, hnext, hfolder, ne_eq, not_false_eq_true, ↓reduceIte]
  | none =>
    rw [hcurrent] at hfirst
    have hnext : h.it.next listing = ({ h.it with filePath := [], fileInfo := none }, []) := by
      rw [FilteredDirIterator.next, if_neg (by rw [hfirst]; exact Bool.false_ne_true)]
      have hrounds : ∃ n, h.it.rounds listing = n + 1 := ⟨h.it.rounds listing - 1, by simp [rounds]; omega⟩
      obtain ⟨n, hn⟩ := hrounds
      rw [hn, nextLoop, advance]
      dsimp only
      rw [hcurrent]
    refine ⟨{ h.it with filePath := [], fileInfo := none }, [], k, ?_, rfl, rfl, hcurrent, rfl, hfirst,
      .inr ⟨.inl rfl, rfl⟩⟩
    simp only [Handler.step, hstage, hnext, ne_eq, not_true_eq_false, ↓reduceIte]

theorem keeps_addWatch (path : List QChar) (handler : Option Handler) (signals : List KInotify.Signal)
    (hsynced : s.k.Synced) :
    Keeps s { s with k := (Private.addWatch s.k path).1, handler := handler, signals := s.signals ++ signals } := by
  obtain ⟨-, htree, -, hconfig, -⟩ := addWatch_spec hsynced path
  exact ⟨rfl, hconfig, htree, fun _ _ hwd => addWatch_get hwd path, fun _ => id, fun _ => List.mem_append_left _⟩

/-- What is to come does not depend on more watches. -/
theorem ToCome.rewatch (hkeeps : Keeps s s') (hqueue : s'.queue = s.queue) {h h' : Handler}
    (hh : s.handler = some h) (hh' : s'.handler = some h') (hcurrent : h'.it.currentIter = h.it.currentIter)
    (hpaths : h'.it.paths = h.it.paths) (hn : Indexable decode roots s n) (htoCome : ToCome decode roots s n) :
    ToCome decode roots s' n := by
  refine (@ToCome.step decode roots s s' n (fun _ => False) ?_ ?_ ?_ ?_ (fun _ hmem => hkeeps.nodes ▸ hmem)
    (fun _ hn => hkeeps.indexable hn) htoCome hn).resolve_left id
  · exact fun n wd hwd hmem => .inr (.queued (hkeeps.watches _ _ hwd) (hqueue ▸ hmem))
  · intro n h₁ current hh₁ hc hmem _
    obtain rfl := Option.some.inj (hh.symm.trans hh₁)
    exact .inr (.listed hh' (hcurrent.trans hc) hmem)
  · intro n h₁ path hmem hh₁ hopen hpath hdir
    obtain rfl := Option.some.inj (hh.symm.trans hh₁)
    exact .inr (.stacked (hkeeps.nodes ▸ hmem) hh' (hcurrent ▸ hopen) (hpaths ▸ hpath) hdir)
  · exact fun _ _ _ _ _ _ hfalse => hfalse.elim

/-- The first step keeps the invariant. -/
theorem Inv.step_opened {h : Handler} (hinv : Inv decode roots s) (hh : s.handler = some h)
    (hstage : h.stage = .opened) : Inv decode roots (s.step listing h) := by
  have hsound := hinv.handler h hh
  obtain ⟨hnil, hfirst⟩ := hsound.opened hstage
  obtain ⟨it, signals, k', hstep, hconfig, hfilter, hcurrent, hpaths, hfirst', hk'⟩ :=
    CreationRace.step_opened listing hstage hfirst s.k
  have hs' : s.step listing h =
      { s with k := k', handler := some { h with it := it, stage := .walking }, signals := s.signals ++ signals } := by
    rw [State.step, hstep]
  rw [hs']
  have hkeeps : Keeps s { s with
      k := k', handler := some { h with it := it, stage := .walking }, signals := s.signals ++ signals } ∧
      k'.Synced ∧ ∀ n ∈ s.nodes, n.isDir = true → Entering s (n.folder decode) → k'.Watching (n.folder decode) := by
    have hentering : ∀ n ∈ s.nodes, Entering s (n.folder decode) →
        h.it.currentIter.isSome = true ∧ h.it.folder = n.folder decode := by
      rintro n - ⟨h₁, hh₁, hopen, ⟨-, hfolder⟩ | ⟨hentering, -, -⟩⟩
      · obtain rfl := Option.some.inj (hh.symm.trans hh₁)
        exact ⟨hopen, hfolder⟩
      · obtain rfl := Option.some.inj (hh.symm.trans hh₁)
        rw [hstage] at hentering
        cases hentering
    rcases hk' with ⟨-, -, rfl⟩ | ⟨hnone, rfl⟩
    · obtain ⟨hsynced, -, hwatching, -⟩ := addWatch_spec hinv.synced h.it.folder
      refine ⟨keeps_addWatch _ _ _ hinv.synced, hsynced, fun n hn hisDir hent => ?_⟩
      have hfolder := (hentering n hn hent).2
      refine (hwatching _).mpr (.inr ⟨?_, (hinv.nodes n hn).2.2 hisDir⟩)
      rw [hfolder]
      exact DirTree.normalize_child.symm
    · refine ⟨⟨rfl, rfl, rfl, fun _ _ => id, fun _ => id, fun _ => List.mem_append_left _⟩, hinv.synced, ?_⟩
      intro n hn _ hent
      obtain ⟨hopen, hfolder⟩ := hentering n hn hent
      rcases hnone with hnone | hnone
      · rw [hnone] at hopen
        cases hopen
      · rw [hnone] at hfolder
        simp [Node.folder] at hfolder
  obtain ⟨hkeeps, hsynced, hentering⟩ := hkeeps
  refine hinv.of_step (D := fun _ => False) hkeeps hsynced (fun h' hh' => ?_) (fun _ _ hfalse => hfalse.elim) ?_
    hentering
  · obtain rfl := Option.some.inj hh'
    refine ⟨hconfig.trans (hsound.config.trans hkeeps.config.symm), hfilter.trans hsound.filter, ?_,
      fun hne => (nomatch hne), fun _ => hfirst', fun hne => (nomatch hne), ?_⟩
    · exact fun current hc => hsound.current current (hcurrent.symm.trans hc)
    · intro _ path hpath
      rw [hpaths, hnil] at hpath
      cases hpath
  · exact fun n hn htoCome => .inr (ToCome.rewatch hkeeps rfl hh rfl hcurrent hpaths hn htoCome)

/-- The watch of a directory that has been found keeps the invariant. -/
theorem Inv.step_entering {h : Handler} (hinv : Inv decode roots s) (hh : s.handler = some h)
    (hstage : h.stage = .entering) : Inv decode roots (s.step listing h) := by
  have hsound := hinv.handler h hh
  obtain ⟨paths, hpaths, hopen, hdir, hrest⟩ := hsound.entering hstage
  obtain ⟨hsynced, -, hwatching, -⟩ := addWatch_spec hinv.synced h.it.filePath
  have hs' : s.step listing h = { s with
      k := (Private.addWatch s.k h.it.filePath).1, handler := some { h with stage := .walking }
      signals := s.signals ++ (Private.addWatch s.k h.it.filePath).2 } := by
    simp only [State.step, Handler.step, hstage]
  rw [hs']
  have hkeeps := keeps_addWatch h.it.filePath (some { h with stage := .walking })
    (Private.addWatch s.k h.it.filePath).2 hinv.synced
  refine hinv.of_step (D := fun _ => False) hkeeps hsynced (fun h' hh' => ?_) (fun _ _ hfalse => hfalse.elim) ?_ ?_
  · obtain rfl := Option.some.inj hh'
    refine ⟨hsound.config.trans hkeeps.config.symm, hsound.filter, hsound.current, fun hne => (nomatch hne),
      fun _ => hsound.started (by rw [hstage]; decide), fun hne => (nomatch hne), ?_⟩
    intro _ path hpath
    rw [hpaths] at hpath
    cases hpath with
    | head => exact (hwatching _).mpr (.inr ⟨rfl, hdir⟩)
    | tail _ hpath => exact (hwatching _).mpr (.inl (hrest path hpath))
  · exact fun n hn htoCome => .inr (ToCome.rewatch hkeeps rfl hh rfl rfl rfl hn htoCome)
  · rintro n hn hisDir ⟨h₁, hh₁, -, ⟨hopened, -⟩ | ⟨-, -, hfolder⟩⟩
    · obtain rfl := Option.some.inj (hh.symm.trans hh₁)
      rw [hstage] at hopened
      cases hopened
    · obtain rfl := Option.some.inj (hh.symm.trans hh₁)
      exact (hwatching _).mpr (.inr ⟨hfolder.symm, (hinv.nodes n hn).2.2 hisDir⟩)

theorem not_entering {h : Handler} (hh : s.handler = some h) (hstage : h.stage = .walking) (d : List QChar) :
    ¬ Entering s d := by
  rintro ⟨h₁, hh₁, -, ⟨hopened, -⟩ | ⟨hentering, -, -⟩⟩
  · obtain rfl := Option.some.inj (hh.symm.trans hh₁)
    rw [hstage] at hopened
    cases hopened
  · obtain rfl := Option.some.inj (hh.symm.trans hh₁)
    rw [hstage] at hentering
    cases hentering

theorem Sound.congr {h : Handler} (hsound : Sound decode s h) (hnodes : s'.nodes = s.nodes) (hk : s'.k = s.k) :
    Sound decode s' h where
  config := hk ▸ hsound.config
  filter := hsound.filter
  current := hnodes ▸ hsound.current
  opened := hsound.opened
  started := hsound.started
  entering := hk ▸ hsound.entering
  walking := hk ▸ hsound.walking

/-- The rule for a round: what becomes of what is listed and of what is on the stack. -/
theorem Inv.round {h : Handler} {handler : Option Handler} {signals : List KInotify.Signal}
    (hinv : Inv decode roots s) (hh : s.handler = some h) (hstage : h.stage = .walking)
    (hs' : s' = { s with handler := handler, signals := s.signals ++ signals })
    (hsound : ∀ h', handler = some h' → Sound decode s h') {D : Node → Prop}
    (hD : ∀ n, Indexable decode roots s n → D n →
      Signalled decode s' n ∧ (n.isDir = true → Entering s' (n.folder decode)))
    (hlisted : ∀ n current, h.it.currentIter = some current → n.info decode ∈ current →
      accepts h.it.config (n.info decode) = true → D n ∨ ToCome decode roots s' n)
    (hstacked : ∀ n path, n ∈ s.nodes → h.it.currentIter.isSome = true → path ∈ h.it.paths →
      n.dir = normalizeTrailingSlash path → ToCome decode roots s' n)
    (hnow : ∀ n p, n ∈ s.nodes → Indexable decode roots s p → p.isDir = true → n.dir = p.folder decode → D p →
      ToCome decode roots s' n) : Inv decode roots s' := by
  subst hs'
  have hconfig := (hinv.handler h hh).config
  refine hinv.of_step (D := D) ⟨rfl, rfl, rfl, fun _ _ => id, fun _ => id, fun _ => List.mem_append_left _⟩
    hinv.synced (fun h' hh' => (hsound h' hh').congr rfl rfl) hD (fun n hn htoCome => ?_)
    (fun _ _ _ hentering => absurd hentering (not_entering hh hstage _))
  refine @ToCome.step decode roots s _ n D (fun n wd hwd hmem => .inr (.queued hwd hmem)) ?_ ?_ hnow
    (fun _ => id) (fun _ hn => hn.congr rfl rfl) htoCome hn
  · intro n h₁ current hh₁ hcurrent hmem haccepts
    obtain rfl := Option.some.inj (hh.symm.trans hh₁)
    exact hlisted n current hcurrent hmem (hconfig ▸ haccepts)
  · intro n h₁ path hmem hh₁ hopen hpath hdir
    obtain rfl := Option.some.inj (hh.symm.trans hh₁)
    exact .inr (hstacked n path hmem hopen hpath hdir)

/-- A round of the iterator that finds an entry: it is signalled, and a directory is entered. -/
theorem Inv.step_found {h : Handler} {info : FileInfo} {current : List FileInfo} (hinv : Inv decode roots s)
    (hh : s.handler = some h) (hstage : h.stage = .walking) (hcurrent : h.it.currentIter = some (info :: current))
    (heq : h.it.advance listing = ({ h.it with
      currentIter := some current, filePath := info.filePath, fileInfo := some info
      paths := if info.isDir then info.filePath :: h.it.paths else h.it.paths }, .found info)) :
    Inv decode roots (s.step listing h) := by
  have hsound := hinv.handler h hh
  have hfirst := hsound.started (by rw [hstage]; decide)
  have hwatching := hsound.walking hstage
  set h' : Handler := {
    it := { h.it with
      currentIter := some current, filePath := info.filePath, fileInfo := some info
      paths := if info.isDir then info.filePath :: h.it.paths else h.it.paths }
    dir := h.dir, stage := if info.isDir then .entering else .walking } with hh'
  have hs' : s.step listing h =
      { s with handler := some h', signals := s.signals ++ [.created info.filePath info.isDir] } := by
    simp only [State.step, Handler.step, hstage, heq, hh']
  have hfolder : ∀ n ∈ s.nodes, n.info decode = info → normalizeTrailingSlash info.filePath = n.folder decode := by
    rintro n hn rfl
    exact DirTree.normalize_name (hinv.nodes n hn).2.1
  have hpaths : info.isDir = true → h'.stage = .entering ∧ h'.it.paths = info.filePath :: h.it.paths := by
    intro hisDir
    simp only [hh', hisDir, ↓reduceIte, and_self]
  have hkept : ∀ path ∈ h.it.paths, path ∈ h'.it.paths := by
    intro path hpath
    simp only [hh']
    split
    · exact List.mem_cons_of_mem _ hpath
    · exact hpath
  refine hinv.round (D := fun n => n.info decode = info) hh hstage hs' ?_ ?_ ?_ ?_ ?_
  · rintro _ ⟨⟩
    obtain ⟨n, hn, hinfo⟩ := hsound.current _ hcurrent info (List.mem_cons_self ..)
    refine ⟨hsound.config, hsound.filter, ?_, ?_, fun _ => hfirst, ?_, ?_⟩
    · intro current' hc
      obtain rfl := Option.some.inj hc
      exact fun i hi => hsound.current _ hcurrent i (List.mem_cons_of_mem _ hi)
    · intro hopened
      simp only [hh'] at hopened
      split at hopened
      · cases hopened
      · cases hopened
    · intro hentering
      cases hisDir : info.isDir with
      | false =>
        simp only [hh', hisDir, Bool.false_eq_true, ↓reduceIte] at hentering
        cases hentering
      | true =>
        have hnDir : n.isDir = true := by
          rw [← hisDir, ← hinfo]
          rfl
        refine ⟨h.it.paths, (hpaths hisDir).2, rfl, ?_, hwatching⟩
        exact (hfolder n hn hinfo).symm ▸ (hinv.nodes n hn).2.2 hnDir
    · intro hwalking
      cases hisDir : info.isDir with
      | false =>
        simp only [hh', hisDir, Bool.false_eq_true, ↓reduceIte]
        exact hwatching
      | true =>
        rw [(hpaths hisDir).1] at hwalking
        cases hwalking
  · intro n hn hinfo
    subst hinfo
    rw [hs']
    refine ⟨.inl (List.mem_append_right _ (List.mem_singleton_self _)), fun hisDir => ?_⟩
    refine ⟨h', rfl, rfl, .inr ⟨(hpaths hisDir).1, ?_, hfolder n hn.mem rfl⟩⟩
    rw [(hpaths hisDir).2]
    exact List.mem_cons_self ..
  · intro n current' hc hmem _
    obtain rfl := Option.some.inj (hcurrent.symm.trans hc)
    rw [hs']
    cases hmem with
    | head => exact .inl rfl
    | tail _ hmem => exact .inr (.listed rfl rfl hmem)
  · intro n path hmem _ hpath hdir
    rw [hs']
    exact .stacked hmem rfl rfl (hkept path hpath) hdir
  · intro n p hmem hp hisDir hdir hinfo
    subst hinfo
    have hpath : (p.info decode).filePath ∈ h'.it.paths := by
      rw [(hpaths hisDir).2]
      exact List.mem_cons_self ..
    rw [hs']
    exact .stacked hmem rfl rfl hpath (hdir.trans (hfolder p hp.mem rfl).symm)

/-- A round of the iterator keeps the invariant. -/
theorem Inv.step_walking {h : Handler} (hinv : Inv decode roots s) (hh : s.handler = some h)
    (hstage : h.stage = .walking) (hshows : Shows decode s.nodes listing) :
    Inv decode roots (s.step listing h) := by
  have hsound := hinv.handler h hh
  have hfirst := hsound.started (by rw [hstage]; decide)
  have hwatching := hsound.walking hstage
  have hfalse : ∀ n, Indexable decode roots s n → False →
      Signalled decode (s.step listing h) n ∧ (n.isDir = true → Entering (s.step listing h) (n.folder decode)) :=
    fun _ _ hfalse => hfalse.elim
  rcases advance_cases listing h.it with ⟨hcurrent, heq⟩ | ⟨hcurrent, hpaths, heq⟩ |
    ⟨path, paths, hcurrent, hpaths, heq⟩ | ⟨info, current, hcurrent, hnot, heq⟩ |
    ⟨info, current, hcurrent, -, heq⟩
  · -- no listing is open
    have hs' : s.step listing h = { s with handler := none, signals := s.signals ++ [] } := by
      simp only [State.step, Handler.step, hstage, heq]
    refine hinv.round hh hstage hs' (fun _ hnone => (nomatch hnone)) hfalse ?_ ?_ (fun _ _ _ _ _ _ => False.elim)
    · intro n current hc
      rw [hcurrent] at hc
      cases hc
    · intro n path _ hopen
      rw [hcurrent] at hopen
      cases hopen
  · -- the end
    have hs' : s.step listing h = { s with handler := none, signals := s.signals ++ [] } := by
      simp only [State.step, Handler.step, hstage, heq]
    refine hinv.round hh hstage hs' (fun _ hnone => (nomatch hnone)) hfalse ?_ ?_ (fun _ _ _ _ _ _ => False.elim)
    · intro n current hc hmem
      obtain rfl := Option.some.inj (hcurrent.symm.trans hc)
      cases hmem
    · intro n path _ _ hpath
      rw [hpaths] at hpath
      cases hpath
  · -- the next listing is opened: its directory is watched
    set h' : Handler := {
      it := { h.it with currentIter := some (qDirIterator listing h.it.filter path), paths := paths }
      dir := h.nextDir, stage := .walking } with hh'
    have hs' : s.step listing h = { s with handler := some h', signals := s.signals ++ [] } := by
      simp only [State.step, Handler.step, hstage, heq, hh']
    refine hinv.round hh hstage hs' ?_ hfalse ?_ ?_ (fun _ _ _ _ _ _ => False.elim)
    · rintro _ ⟨⟩
      refine ⟨hsound.config, hsound.filter, ?_, fun hne => (nomatch hne), fun _ => hfirst, fun hne => (nomatch hne), ?_⟩
      · intro current hc info hinfo
        obtain rfl := Option.some.inj hc
        obtain ⟨n, hn, -, hinfo⟩ := (hshows path info).mp (List.mem_of_mem_filter hinfo)
        exact ⟨n, hn, hinfo⟩
      · exact fun _ path hpath => hwatching path (hpaths ▸ List.mem_cons_of_mem _ hpath)
    · intro n current hc hmem
      obtain rfl := Option.some.inj (hcurrent.symm.trans hc)
      cases hmem
    · intro n path' hmem _ hpath hdir
      rw [hs']
      rw [hpaths] at hpath
      cases hpath with
      | head =>
        refine .listed rfl rfl ?_
        rw [hsound.filter]
        exact hshows.mem hmem hdir
      | tail _ hpath => exact .stacked hmem rfl rfl hpath hdir
  · -- the entry should not be indexed
    set h' : Handler := {
      it := { h.it with currentIter := some current, filePath := info.filePath, fileInfo := some info }
      dir := h.nextDir, stage := .walking } with hh'
    have hs' : s.step listing h = { s with handler := some h', signals := s.signals ++ [] } := by
      simp only [State.step, Handler.step, hstage, heq, hh']
    refine hinv.round hh hstage hs' ?_ hfalse ?_ ?_ (fun _ _ _ _ _ _ => False.elim)
    · rintro _ ⟨⟩
      refine ⟨hsound.config, hsound.filter, ?_, fun hne => (nomatch hne), fun _ => hfirst, fun hne => (nomatch hne),
        fun _ => hwatching⟩
      intro current' hc
      obtain rfl := Option.some.inj hc
      exact fun i hi => hsound.current _ hcurrent i (List.mem_cons_of_mem _ hi)
    · intro n current' hc hmem haccepts
      obtain rfl := Option.some.inj (hcurrent.symm.trans hc)
      cases hmem with
      | head =>
        rw [hnot] at haccepts
        cases haccepts
      | tail _ hmem =>
        rw [hs']
        exact .inr (.listed rfl rfl hmem)
    · intro n path hmem _ hpath hdir
      rw [hs']
      exact .stacked hmem rfl rfl hpath hdir
  · exact hinv.step_found hh hstage hcurrent heq

theorem Inv.step {h : Handler} (hinv : Inv decode roots s) (hh : s.handler = some h)
    (hshows : Shows decode s.nodes listing) : Inv decode roots (s.step listing h) := by
  cases hstage : h.stage with
  | opened => exact hinv.step_opened hh hstage
  | entering => exact hinv.step_entering hh hstage
  | walking => exact hinv.step_walking hh hstage hshows

theorem Inv.start (h : Starts roots s) : Inv decode roots s where
  synced := h.synced
  rooted := h.rooted
  nodes n hn := by
    rw [h.nodes] at hn
    cases hn
  queue e he := by
    rw [h.queue] at he
    cases he
  handler h₁ hh₁ := by
    rw [h.handler] at hh₁
    cases hh₁
  signalled n hn := by
    have hmem := hn.mem
    rw [h.nodes] at hmem
    cases hmem
  watched n hn := by
    have hmem := hn.mem
    rw [h.nodes] at hmem
    cases hmem

/-- Every run keeps the invariant, if what is created is shown by the listing or comes in time. -/
theorem Run.inv {s₀ : State} (h : Starts roots s₀) (hrun : Run decode (InTime decode) s₀ s) : Inv decode roots s := by
  induction hrun with
  | nil => exact .start h
  | create _ h hhandler hP ih => exact ih.create h hhandler hP
  | handle _ hidle hqueue henv hshows ih => exact ih.handle hidle hqueue henv hshows
  | step _ hh hshows ih => exact ih.step hh hshows

/-- Nothing comes any more when the queue is empty and no handler is running. -/
theorem ToCome.false (hqueue : s.queue = []) (hidle : s.handler = none) (h : ToCome decode roots s n) : False := by
  induction h with
  | queued _ hmem =>
    rw [hqueue] at hmem
    cases hmem
  | listed hh =>
    rw [hidle] at hh
    cases hh
  | stacked _ hh =>
    rw [hidle] at hh
    cases hh
  | inside _ _ _ _ _ ih => exact ih

/-- If nothing is created in a directory between the opening of its listing and its watch without being
shown, then everything that should be indexed has been signalled once all events are processed. -/
theorem creations_signalled {s₀ : State} (hstart : Starts roots s₀) (hrun : Run decode (InTime decode) s₀ s)
    (hqueue : s.queue = []) (hidle : s.handler = none) (hn : Indexable decode roots s n) : Signalled decode s n :=
  ((hrun.inv hstart).signalled n hn).resolve_right fun htoCome => htoCome.false hqueue hidle

/-! ### A file in a new directory -/

/-- What a listing of these nodes shows. -/
def listingOf (decode : QByteArray → List QChar) (nodes : List Node) : Listing := fun folder =>
  (nodes.filter fun n => n.dir = normalizeTrailingSlash folder).map (Node.info decode)

theorem shows_listingOf (decode : QByteArray → List QChar) (nodes : List Node) :
    Shows decode nodes (listingOf decode nodes) := by
  intro folder info
  simp [listingOf, and_assoc]

/-- The next step of the handler, if it is running. -/
def State.next (s : State) (decode : QByteArray → List QChar) : State :=
  match s.handler with
  | some h => s.step (listingOf decode s.nodes) h
  | none => s

theorem Run.next {P : State → Node → Option Handler → Prop} {s₀ : State} (hrun : Run decode P s₀ s) :
    Run decode P s₀ (s.next decode) := by
  rw [State.next]
  split
  · next h hh => exact hrun.step hh (shows_listingOf _ _)
  · exact hrun

end

/-- `/r/` is watched. -/
def watchingR : State where
  nodes := []
  k := {
    config := none
    inotify := {
      tree := {
        dirs := [[47], [47, 114, 47]]
        parent := by
          intro d hd
          rcases List.mem_pair.mp hd with rfl | rfl
          · exact .inl rfl
          · exact .inr ⟨[47], by decide, [114], ⟨by decide, by decide⟩, rfl⟩ }
      watches := AList.insert [47, 114, 47] (1 : ℤ) ∅
      nextWd := 2 }
    watchPathHash := AList.insert (1 : ℤ) [47, 114, 47] ∅
    pathWatchHash := AList.insert [47, 114, 47] (1 : ℤ) ∅ }
  queue := []
  handler := none
  signals := []

/-- `/r/d/`. -/
def dirD : Node := { dir := [47, 114, 47], name := [100], isDir := true }

/-- `/r/d/f`. -/
def fileF : Node := { dir := [47, 114, 47, 100, 47], name := [102], isDir := false }

theorem starts_watchingR : Starts {[47, 114, 47]} watchingR where
  synced := by
    refine ⟨fun wd p => ?_, fun p => ?_, fun p wd h => ?_⟩
    · simp only [watchingR, Hash.get_insert, Function.update_apply, Hash.get_empty]
      split
      · next heq => simp [heq, eq_comm]
      · next hne => simp [Ne.symm hne]
    · rfl
    · simp only [watchingR, Hash.get_insert, Function.update_apply, Hash.get_empty] at h ⊢
      split at h
      · exact (Option.some.inj h) ▸ (by decide)
      · cases h
  rooted := by
    rintro d rfl
    exact ⟨⟨1, by decide +kernel⟩, by decide, rfl⟩
  nodes := rfl
  queue := rfl
  handler := rfl

theorem possible_dirD : Possible noFiles.decodeName watchingR dirD where
  dir := by decide
  name := ⟨by decide, by decide⟩
  free := fun _ hm => nomatch hm
  freeDir := by decide

/-- `/r/d/` has been created. -/
def createdD : State := watchingR.create noFiles.decodeName dirD possible_dirD none

theorem possible_fileF : Possible noFiles.decodeName createdD fileF where
  dir := by decide +kernel
  name := ⟨by decide, by decide⟩
  free := by decide +kernel
  freeDir := by decide +kernel

/-- Then `/r/d/f` has been created, and after that the event of `/r/d/` is handled. -/
def seenF : State :=
  ((((createdD.create noFiles.decodeName fileF possible_fileF none).handle noFiles
    (listingOf noFiles.decodeName [fileF, dirD]) (dirD.event 1) []).next noFiles.decodeName).next
      noFiles.decodeName).next noFiles.decodeName

/-- `/r/d/f` should be indexed when it is there and so is `/r/d/`. -/
theorem indexable_fileF {s : State} (hdir : dirD ∈ s.nodes) (hmem : fileF ∈ s.nodes) (hconfig : s.k.config = none) :
    Indexable noFiles.decodeName {[47, 114, 47]} s fileF := by
  have hparent : Indexable noFiles.decodeName {[47, 114, 47]} s dirD :=
    .top hdir rfl (by rw [hconfig]; decide +kernel)
  exact .inside hparent rfl hmem (by decide +kernel) (by rw [hconfig]; decide +kernel)

/-- The file was there before the directory was listed. -/
theorem creations_signalled_fileF :
    Run noFiles.decodeName (InTime noFiles.decodeName) watchingR seenF ∧ Signalled noFiles.decodeName seenF fileF := by
  have hcreated : Run noFiles.decodeName (InTime noFiles.decodeName) watchingR createdD :=
    Run.nil.create possible_dirD (.inl rfl) (by rintro ⟨h, hh, -⟩; cases hh)
  have hrun : Run noFiles.decodeName (InTime noFiles.decodeName) watchingR seenF :=
    ((hcreated.create possible_fileF (.inl rfl) (by rintro ⟨h, hh, -⟩; cases hh)).handle rfl (by decide +kernel) rfl
      (shows_listingOf _ _)).next.next.next
  refine ⟨hrun, creations_signalled starts_watchingR hrun (by decide +kernel) ?_ ?_⟩
  · exact Option.isNone_iff_eq_none.mp (by decide +kernel)
  · exact indexable_fileF (by decide +kernel) (by decide +kernel) rfl

/-- The event of `/r/d/` is handled at once. -/
def handledD : State := createdD.handle noFiles (listingOf noFiles.decodeName [dirD]) (dirD.event 1) []

theorem possible_late : Possible noFiles.decodeName handledD fileF where
  dir := by decide +kernel
  name := ⟨by decide, by decide⟩
  free := by decide +kernel
  freeDir := by decide +kernel

/-- Then the file is created, and the handler goes on. -/
def lostF : State :=
  ((handledD.create noFiles.decodeName fileF possible_late handledD.handler).next noFiles.decodeName).next
    noFiles.decodeName

/-- A file that is created after the listing of its directory has been opened and before the directory
is watched is never signalled. -/
theorem created_in_between_lost : ¬ ∀ (decode : QByteArray → List QChar) (roots : Set (List QChar)) (s₀ s : State)
    (n : Node), Starts roots s₀ → Run decode (fun _ _ _ => True) s₀ s → s.queue = [] → s.handler = none →
      Indexable decode roots s n → Signalled decode s n := by
  intro h
  have hcreated : Run noFiles.decodeName (fun _ _ _ => True) watchingR createdD :=
    Run.nil.create possible_dirD (.inl rfl) trivial
  have hhandled : Run noFiles.decodeName (fun _ _ _ => True) watchingR handledD :=
    hcreated.handle rfl (by decide +kernel) rfl (shows_listingOf _ _)
  have hrun : Run noFiles.decodeName (fun _ _ _ => True) watchingR lostF :=
    (hhandled.create possible_late (.inl rfl) trivial).next.next
  have hidle : lostF.handler = none := Option.isNone_iff_eq_none.mp (by decide +kernel)
  have hindexable := @indexable_fileF lostF (by decide +kernel) (by decide +kernel) rfl
  rcases h _ _ _ _ fileF starts_watchingR hrun (by decide +kernel) hidle hindexable with hlost | hlost
  · exact absurd hlost (by decide +kernel)
  · exact absurd hlost (by decide +kernel)

end CreationRace

end Baloo
