import Baloo.MovePairing
import Baloo.WatchUpdate

/-!
# Directories that are moved

For the kernel a watch descriptor stays with its directory, and `KInotify` has to follow: when the two
halves of a rename have come, it replaces the path of the directory in both of its tables. It replaces
no other path. As long as no directory is moved that has watched directories inside, the tables agree
with the file system whenever all events are processed (`watch_paths_follow`); the paths of watched
directories inside a moved one go stale (`moved_subdirectory_stale`).
-/

namespace Baloo

namespace KInotify

/-! ## Renames -/

/-- Where the watched directories are. -/
structure Watched where
  /-- the path of the directory of a watch descriptor -/
  path : ℤ → Option (List QChar)
  closed : ∀ {wd p}, path wd = some p → p.getLast? = some separator
  injective : ∀ {wd wd' p}, path wd = some p → path wd' = some p → wd = wd'

/-- A directory is moved from one watched directory to another. -/
structure Rename where
  /-- the watch of the directory -/
  wd : ℤ
  /-- the watch of the directory in which it was -/
  source : ℤ
  /-- its name there -/
  oldName : QByteArray
  /-- the watch of the directory in which it is then -/
  target : ℤ
  /-- its name there -/
  newName : QByteArray
  /-- joins the halves -/
  cookie : UInt32

namespace Rename

/-- The first half. -/
def moveFrom (r : Rename) : Event :=
  { wd := r.source, mask := EventMoveFrom ||| InIsDir, cookie := r.cookie, name := r.oldName }

/-- The second half. -/
def moveTo (r : Rename) : Event :=
  { wd := r.target, mask := EventMoveTo ||| InIsDir, cookie := r.cookie, name := r.newName }

/-- What the kernel delivers. -/
def events (r : Rename) : List Event := [r.moveFrom, r.moveTo]

variable (decode : QByteArray → List QChar) (r : Rename) (dirs : Watched)

/-- The path before the rename. -/
def oldPath : List QChar := (dirs.path r.source).getD [] ++ decode r.oldName ++ [separator]

/-- The path after the rename. -/
def newPath : List QChar := (dirs.path r.target).getD [] ++ decode r.newName ++ [separator]

/-- Where a directory is after the rename. -/
def movePath (p : List QChar) : List QChar :=
  if r.oldPath decode dirs <+: p then r.newPath decode dirs ++ p.drop (r.oldPath decode dirs).length else p

/-- The rename can be done: it moves a directory that is inside another one to a free name, and not
into itself. -/
structure Possible : Prop where
  source : 0 ≤ r.source ∧ (dirs.path r.source).isSome
  target : 0 ≤ r.target ∧ (dirs.path r.target).isSome
  oldName : IsName (decode r.oldName)
  newName : IsName (decode r.newName)
  moved : dirs.path r.wd = some (r.oldPath decode dirs)
  free : ∀ wd p, dirs.path wd = some p → ¬ r.newPath decode dirs <+: p
  outside : ¬ r.oldPath decode dirs <+: (dirs.path r.target).getD []

/-- No other watched directory is inside the directory that is moved. -/
def Leaf : Prop := ∀ wd p, dirs.path wd = some p → r.oldPath decode dirs <+: p → wd = r.wd

variable {decode r dirs} {p : List QChar}

theorem movePath_inside (t : List QChar) :
    r.movePath decode dirs (r.oldPath decode dirs ++ t) = r.newPath decode dirs ++ t := by
  rw [movePath, if_pos (List.prefix_append ..), List.drop_left]

theorem movePath_of_not (h : ¬ r.oldPath decode dirs <+: p) : r.movePath decode dirs p = p := by
  rw [movePath, if_neg h]

theorem movePath_closed (h : p.getLast? = some separator) :
    (r.movePath decode dirs p).getLast? = some separator := by
  by_cases hpre : r.oldPath decode dirs <+: p
  · obtain ⟨t, rfl⟩ := hpre
    rw [movePath_inside, List.getLast?_append]
    rw [List.getLast?_append] at h
    have hnew : (r.newPath decode dirs).getLast? = some separator := List.getLast?_concat
    have hold : (r.oldPath decode dirs).getLast? = some separator := List.getLast?_concat
    rw [hnew]
    rw [hold] at h
    exact h
  · rw [movePath_of_not hpre]
    exact h

/-- Different directories stay different. -/
theorem Possible.movePath_injective (h : r.Possible decode dirs) {wd wd' : ℤ} {p p' : List QChar}
    (hp : dirs.path wd = some p) (hp' : dirs.path wd' = some p')
    (heq : r.movePath decode dirs p = r.movePath decode dirs p') : p = p' := by
  by_cases hpre : r.oldPath decode dirs <+: p
  · obtain ⟨t, rfl⟩ := hpre
    rw [movePath_inside] at heq
    by_cases hpre' : r.oldPath decode dirs <+: p'
    · obtain ⟨t', rfl⟩ := hpre'
      rw [movePath_inside] at heq
      rw [List.append_cancel_left heq]
    · rw [movePath_of_not hpre'] at heq
      exact absurd ⟨t, heq⟩ (h.free wd' p' hp')
  · rw [movePath_of_not hpre] at heq
    by_cases hpre' : r.oldPath decode dirs <+: p'
    · obtain ⟨t', rfl⟩ := hpre'
      rw [movePath_inside] at heq
      exact absurd ⟨t', heq.symm⟩ (h.free wd p hp)
    · rw [movePath_of_not hpre'] at heq
      exact heq

end Rename

/-- The directories after a rename: all that is inside the directory moves with it. -/
def Watched.rename {decode : QByteArray → List QChar} (dirs : Watched) (r : Rename)
    (h : r.Possible decode dirs) : Watched where
  path wd := (dirs.path wd).map (r.movePath decode dirs)
  closed := by
    intro wd p hp
    obtain ⟨p₁, hp₁, rfl⟩ := Option.map_eq_some_iff.mp hp
    exact Rename.movePath_closed (dirs.closed hp₁)
  injective := by
    intro wd wd' p hp hp'
    obtain ⟨p₁, hp₁, rfl⟩ := Option.map_eq_some_iff.mp hp
    obtain ⟨p₂, hp₂, heq⟩ := Option.map_eq_some_iff.mp hp'
    rw [h.movePath_injective hp₂ hp₁ heq] at hp₂
    exact dirs.injective hp₁ hp₂

/-- A rename of a directory without watched directories inside changes one path. -/
theorem Watched.rename_leaf {decode : QByteArray → List QChar} {dirs : Watched} {r : Rename}
    (h : r.Possible decode dirs) (hleaf : r.Leaf decode dirs) :
    (dirs.rename r h).path = Function.update dirs.path r.wd (some (r.newPath decode dirs)) := by
  funext wd
  change (dirs.path wd).map (r.movePath decode dirs) = _
  rcases eq_or_ne wd r.wd with rfl | hne
  · have hself : r.movePath decode dirs (r.oldPath decode dirs) = r.newPath decode dirs := by
      rw [Rename.movePath, if_pos (List.prefix_refl _), List.drop_length, List.append_nil]
    rw [Function.update_self, h.moved, Option.map_some, hself]
  · rw [Function.update_of_ne hne]
    cases hp : dirs.path wd with
    | none => rfl
    | some p => rw [Option.map_some, Rename.movePath_of_not fun hpre => hne (hleaf wd p hp hpre)]

/-! ## The tables -/

section

variable {σ : Type} {decode : QByteArray → List QChar} {k k' : KInotify σ} {dirs dirs' : Watched}
  {r : Rename} {rs : List Rename} {queue : List Event} {event : Event}

/-- The tables are those of the directories. -/
structure Mirrors (k : KInotify σ) (dirs : Watched) : Prop where
  watchPathHash : ∀ wd, k.watchPathHash.get wd = dirs.path wd
  pathWatchHash : ∀ p wd, k.pathWatchHash.get p = some wd ↔ dirs.path wd = some p

/-- The renames that lead from one place of the directories to another; none of them moves a directory
with watched directories inside. -/
inductive Replays (decode : QByteArray → List QChar) : Watched → List Rename → Watched → Prop
  | nil {dirs : Watched} : Replays decode dirs [] dirs
  | cons {dirs dirs' : Watched} {r : Rename} {rs : List Rename} (h : r.Possible decode dirs)
      (hleaf : r.Leaf decode dirs) (hrest : Replays decode (dirs.rename r h) rs dirs') :
      Replays decode dirs (r :: rs) dirs'

theorem Replays.concat (h : Replays decode dirs rs dirs') (hpossible : r.Possible decode dirs')
    (hleaf : r.Leaf decode dirs') : Replays decode dirs (rs ++ [r]) (dirs'.rename r hpossible) := by
  induction h with
  | nil => exact .cons hpossible hleaf .nil
  | cons h hl _ ih => exact .cons h hl (ih hpossible hleaf)

/-- The tables are behind the directories by the events in the queue. -/
inductive Behind (decode : QByteArray → List QChar) (dirs : Watched) (k : KInotify σ) : List Event → Prop
  /-- every rename has been handled, or no half of it -/
  | between {done : Watched} {rs : List Rename} (hmirrors : Mirrors k done)
      (hcookies : ∀ c, k.cookies.get c = none) (hreplays : Replays decode done rs dirs) :
      Behind decode dirs k (rs.flatMap Rename.events)
  /-- the first half of a rename has been handled -/
  | half {done : Watched} {r : Rename} {rs : List Rename} {cookie : MovedFileCookie} (hmirrors : Mirrors k done)
      (hcookies : k.cookies.get = Function.update (fun _ => none) r.cookie (some cookie))
      (hpath : cookie.path = r.oldPath decode done) (h : r.Possible decode done)
      (hleaf : r.Leaf decode done) (hreplays : Replays decode (done.rename r h) rs dirs) :
      Behind decode dirs k (r.moveTo :: rs.flatMap Rename.events)

/-- With an empty queue the tables are up to date. -/
theorem Behind.settled (h : Behind decode dirs k []) : Mirrors k dirs ∧ ∀ c, k.cookies.get c = none := by
  generalize hqueue : [] = queue at h
  cases h with
  | @between _ rs hmirrors hcookies hreplays =>
    cases hreplays with
    | nil => exact ⟨hmirrors, hcookies⟩
    | cons => cases hqueue
  | half => cases hqueue

/-- A rename is queued. -/
theorem Behind.enqueue (h : Behind decode dirs k queue) (hpossible : r.Possible decode dirs)
    (hleaf : r.Leaf decode dirs) :
    Behind decode (dirs.rename r hpossible) k (queue ++ r.events) := by
  have happend : ∀ rs : List Rename,
      rs.flatMap Rename.events ++ r.events = (rs ++ [r]).flatMap Rename.events := by simp
  cases h with
  | between hmirrors hcookies hreplays =>
    rw [happend]
    exact .between hmirrors hcookies (hreplays.concat hpossible hleaf)
  | half hmirrors hcookies hpath h hl hreplays =>
    rw [List.cons_append, happend]
    exact .half hmirrors hcookies hpath h hl (hreplays.concat hpossible hleaf)

/-- What the tables are about is the same. -/
theorem Behind.same (h : Behind decode dirs k queue) (hcookies : k'.cookies.get = k.cookies.get)
    (hwatch : k'.watchPathHash = k.watchPathHash) (hpath : k'.pathWatchHash = k.pathWatchHash) :
    Behind decode dirs k' queue := by
  have hsame : ∀ {done}, Mirrors k done → Mirrors k' done := fun hmirrors =>
    ⟨hwatch ▸ hmirrors.watchPathHash, hpath ▸ hmirrors.pathWatchHash⟩
  cases h with
  | between hmirrors hnone hreplays => exact .between (hsame hmirrors) (hcookies ▸ hnone) hreplays
  | half hmirrors hstored hold h hl hreplays =>
    exact .half (hsame hmirrors) (hcookies.trans hstored) hold h hl hreplays

theorem Rename.hasKind_moveFrom (h : r.Possible decode dirs) : HasKind r.moveFrom EventMoveFrom :=
  ⟨h.source.1, .inr rfl⟩

theorem Rename.hasKind_moveTo (h : r.Possible decode dirs) : HasKind r.moveTo EventMoveTo :=
  ⟨h.target.1, .inr rfl⟩

theorem hasBit_moved_isDir (mask : UInt32)
    (h : mask = EventMoveFrom ||| InIsDir ∨ mask = EventMoveTo ||| InIsDir) :
    hasBit mask InIsDir = true := by
  cases h with
  | inl h => rw [h]; decide
  | inr h => rw [h]; decide

theorem hasBit_moved_self (mask : UInt32)
    (h : mask = EventMoveFrom ||| InIsDir ∨ mask = EventMoveTo ||| InIsDir) :
    hasBit mask (EventDeleteSelf ||| EventMoveSelf) = false := by
  cases h with
  | inl h => rw [h]; decide
  | inr h => rw [h]; decide

theorem updateTimer_tables (k : KInotify σ) : (updateTimer k).watchPathHash = k.watchPathHash ∧
    (updateTimer k).pathWatchHash = k.pathWatchHash := by
  rw [updateTimer]
  split
  · exact ⟨rfl, rfl⟩
  · split
    · exact ⟨rfl, rfl⟩
    · exact ⟨rfl, rfl⟩

variable {env : Surroundings}

/-- The path of an entry of a watched directory. -/
theorem eventPath_entry (hmirrors : Mirrors k dirs) (hdir : (dirs.path event.wd).isSome)
    (hname : IsName (env.decodeName event.name))
    (hself : hasBit event.mask (EventDeleteSelf ||| EventMoveSelf) = false) :
    eventPath env k event = (dirs.path event.wd).getD [] ++ env.decodeName event.name ++
      if hasBit event.mask InIsDir then [separator] else [] := by
  obtain ⟨p, hp⟩ := Option.isSome_iff_exists.mp hdir
  rw [eventPath_of_get ((hmirrors.watchPathHash _).trans hp) (dirs.closed hp) hname hself, hp, Option.getD_some]

variable [Inotify σ] {now : ℕ}

/-- The first half of a rename. -/
theorem handle_moveFrom (henv : env.decodeName = decode) (hmirrors : Mirrors k dirs)
    (hcookies : ∀ c, k.cookies.get c = none) (h : r.Possible decode dirs) (hleaf : r.Leaf decode dirs)
    (hreplays : Replays decode (dirs.rename r h) rs dirs') (deadline : Option ℕ) :
    ∃ k' deadline' handled,
      (∀ n, handleEvent env n now k deadline r.moveFrom = some (k', deadline', handled)) ∧
        Behind decode dirs' k' (r.moveTo :: rs.flatMap Rename.events) := by
  have hpath : eventPath env k r.moveFrom = r.oldPath decode dirs := by
    rw [eventPath_entry hmirrors h.source.2 (henv ▸ h.oldName) (hasBit_moved_self _ (.inl rfl)), henv,
      hasBit_moved_isDir r.moveFrom.mask (.inl rfl)]
    rfl
  set cookie : MovedFileCookie := {
    deadline := deadline.getD (now + 1000), path := eventPath env k r.moveFrom, flags := r.moveFrom.mask }
  have hcookie : cookie.path = r.oldPath decode dirs := hpath
  set k₁ : KInotify σ := { k with cookies := k.cookies.insert r.cookie cookie } with hk₁
  refine ⟨k₁, _, _, fun n => handleEvent_moveFrom (r.hasKind_moveFrom h),
    .half ⟨hmirrors.watchPathHash, hmirrors.pathWatchHash⟩ ?_ hcookie h hleaf hreplays⟩
  rw [hk₁, Hash.get_insert, funext hcookies]

/-- The second half of a rename: the tables follow. -/
theorem handle_moveTo {cookie : MovedFileCookie} (henv : env.decodeName = decode) (hmirrors : Mirrors k dirs)
    (hcookies : k.cookies.get = Function.update (fun _ => none) r.cookie (some cookie))
    (hold : cookie.path = r.oldPath decode dirs) (h : r.Possible decode dirs) (hleaf : r.Leaf decode dirs)
    (deadline : Option ℕ) :
    ∃ k' handled,
      (∀ n, handleEvent env n now k deadline r.moveTo = some (k', deadline, handled)) ∧
        Mirrors k' (dirs.rename r h) ∧ ∀ c, k'.cookies.get c = none := by
  have hpath : eventPath env k r.moveTo = r.newPath decode dirs := by
    rw [eventPath_entry hmirrors h.target.2 (henv ▸ h.newName) (hasBit_moved_self _ (.inr rfl)), henv,
      hasBit_moved_isDir r.moveTo.mask (.inr rfl)]
    rfl
  have hstored : k.cookies.get r.moveTo.cookie = some cookie := by
    rw [hcookies]
    exact Function.update_self ..
  have hwd : k.pathWatchHash.get cookie.path = some r.wd := by
    rw [hold]
    exact (hmirrors.pathWatchHash _ _).mpr h.moved
  have hisDir : hasBit r.moveTo.mask InIsDir = true := hasBit_moved_isDir _ (.inr rfl)
  set k₁ : KInotify σ := { k with
    cookies := k.cookies.erase r.cookie
    watchPathHash := k.watchPathHash.insert r.wd (r.newPath decode dirs)
    pathWatchHash := (k.pathWatchHash.erase cookie.path).insert (r.newPath decode dirs) r.wd } with hk₁
  have hmove : ∀ n, handleMoveTo env n k r.moveTo (r.newPath decode dirs) (r.newPath decode dirs) =
      some (k₁, [.moved cookie.path (r.newPath decode dirs)]) := by
    intro n
    rw [handleMoveTo, hstored]
    dsimp only
    rw [hwd, hisDir]
    rfl
  refine ⟨k₁, ⟨r.moveTo, r.newPath decode dirs, [.moved cookie.path (r.newPath decode dirs)]⟩, fun n => ?_,
    ⟨?_, ?_⟩, ?_⟩
  · rw [handleEvent_moveTo (r.hasKind_moveTo h), hpath, hmove]
    rfl
  · intro wd
    rw [Watched.rename_leaf h hleaf, hk₁, Hash.get_insert, funext hmirrors.watchPathHash]
  · intro p wd
    rw [Watched.rename_leaf h hleaf, hk₁, Hash.get_insert, Hash.get_erase, hold]
    rcases eq_or_ne p (r.newPath decode dirs) with rfl | hnew
    · -- the new path was free
      rw [Function.update_self]
      rcases eq_or_ne wd r.wd with rfl | hne
      · rw [Function.update_self]
        exact ⟨fun _ => rfl, fun _ => rfl⟩
      · rw [Function.update_of_ne hne]
        exact ⟨fun heq => absurd (Option.some.inj heq).symm hne,
          fun hpath => absurd (List.prefix_refl _) (h.free wd _ hpath)⟩
    · rw [Function.update_of_ne hnew]
      rcases eq_or_ne wd r.wd with rfl | hne
      · -- the directory is not at any other path
        rw [Function.update_self]
        rcases eq_or_ne p (r.oldPath decode dirs) with rfl | hold'
        · rw [Function.update_self]
          exact ⟨fun heq => (by cases heq), fun heq => absurd (Option.some.inj heq).symm hnew⟩
        · rw [Function.update_of_ne hold', hmirrors.pathWatchHash, h.moved]
          exact ⟨fun heq => absurd (Option.some.inj heq).symm hold',
            fun heq => absurd (Option.some.inj heq).symm hnew⟩
      · rw [Function.update_of_ne hne]
        rcases eq_or_ne p (r.oldPath decode dirs) with rfl | hold'
        · rw [Function.update_self]
          exact ⟨fun heq => (by cases heq), fun hpath => absurd (dirs.injective hpath h.moved) hne⟩
        · rw [Function.update_of_ne hold']
          exact hmirrors.pathWatchHash p wd
  · intro c
    have herase : k₁.cookies.get = Function.update k.cookies.get r.cookie none := Hash.get_erase ..
    rw [herase, hcookies, Function.update_idem]
    exact congrFun (Function.update_eq_self r.cookie _) c

/-- The next event of the queue. -/
theorem Behind.handle (henv : env.decodeName = decode) (h : Behind decode dirs k (event :: queue))
    (deadline : Option ℕ) :
    ∃ k' deadline' handled, (∀ n, handleEvent env n now k deadline event = some (k', deadline', handled)) ∧
      Behind decode dirs k' queue := by
  generalize hqueue : event :: queue = events at h
  cases h with
  | between hmirrors hcookies hreplays =>
    cases hreplays with
    | nil => cases hqueue
    | cons h hleaf hrest =>
      obtain ⟨rfl, rfl⟩ := List.cons.inj hqueue
      exact handle_moveFrom henv hmirrors hcookies h hleaf hrest deadline
  | half hmirrors hcookies hold h hleaf hreplays =>
    obtain ⟨rfl, rfl⟩ := List.cons.inj hqueue
    obtain ⟨k', handled, hhandle, hmirrors', hcookies'⟩ :=
      handle_moveTo henv hmirrors hcookies hold h hleaf deadline
    exact ⟨k', deadline, handled, hhandle, .between hmirrors' hcookies' hreplays⟩

theorem Behind.dispatch (henv : env.decodeName = decode) {events : List Event}
    (h : Behind decode dirs k (events ++ queue)) (deadline : Option ℕ) :
    ∃ k' trace, (∀ n, KInotify.dispatch env n now k deadline events = some (k', trace)) ∧
      Behind decode dirs k' queue := by
  induction events generalizing k deadline with
  | nil => exact ⟨k, [], fun _ => rfl, h⟩
  | cons event events ih =>
    obtain ⟨k₁, deadline₁, handled, hhandle, h₁⟩ := h.handle henv deadline
    obtain ⟨k₂, trace, hdispatch, h₂⟩ := ih h₁ deadline₁
    refine ⟨k₂, handled :: trace, fun n => ?_, h₂⟩
    rw [KInotify.dispatch, hhandle, Option.bind_some]
    dsimp only
    rw [hdispatch, Option.map_some]

/-- A buffer with the next events of the queue. -/
theorem Behind.processEventBuffer (henv : env.decodeName = decode) {packets : List Packet}
    (hpackets : ∀ packet ∈ packets, packet.WellFormed)
    (h : Behind decode dirs k (packets.map Packet.event ++ queue)) :
    ∃ k' trace,
      (∀ n, KInotify.processEventBuffer env n now k (packets.flatMap Packet.bytes) = some (k', trace)) ∧
      Behind decode dirs k' queue := by
  obtain ⟨k₁, trace, hdispatch, h₁⟩ := h.dispatch henv none
  refine ⟨updateTimer k₁, trace, fun n => ?_,
    h₁.same (by rw [updateTimer_cookies]) (updateTimer_tables k₁).1 (updateTimer_tables k₁).2⟩
  rw [KInotify.processEventBuffer, processLoop_packets env n hpackets, hdispatch]
  rfl

theorem clearCookiesLoop_of_due {entries : List (Σ _ : UInt32, MovedFileCookie)}
    (h : ∀ e ∈ entries, now ≤ e.2.deadline) : clearCookiesLoop now k entries = (k, []) := by
  induction entries with
  | nil => rfl
  | cons e entries ih =>
    rw [clearCookiesLoop, if_neg (Nat.not_lt.mpr (h e (List.mem_cons_self ..)))]
    exact ih fun e he => h e (List.mem_cons_of_mem _ he)

/-- A timeout before the deadline of the cookies. -/
theorem Behind.slotClearCookies (h : Behind decode dirs k queue)
    (hdue : ∀ c cookie, k.cookies.get c = some cookie → now ≤ cookie.deadline) :
    Behind decode dirs (KInotify.slotClearCookies now k).1 queue := by
  rw [KInotify.slotClearCookies]
  dsimp only
  rw [clearCookiesLoop_of_due fun e he => hdue _ _ (Hash.mem_entries.mp he)]
  split
  · exact h.same rfl rfl rfl
  · exact h.same rfl rfl rfl

end

/-! ## Runs -/

/-- The directories, the events that the kernel has queued, and `KInotify`. -/
structure Moving (σ : Type) where
  /-- the directories -/
  dirs : Watched
  /-- the queue -/
  queue : List Event
  /-- the watcher -/
  k : KInotify σ

section

variable {σ : Type} [Inotify σ] {decode : QByteArray → List QChar} {s s' : Moving σ}

/-- Runs in which directories are moved; `P` says which renames there are. Cookies are not swept
before the second half of their rename has been read. -/
inductive Moving.Run (decode : QByteArray → List QChar) (P : Rename → Watched → Prop) (s : Moving σ) :
    Moving σ → Prop
  | nil : Run decode P s s
  /-- a directory is moved -/
  | rename {s' : Moving σ} {r : Rename} (hrun : Run decode P s s') (h : r.Possible decode s'.dirs)
      (hP : P r s'.dirs) :
      Run decode P s { s' with dirs := s'.dirs.rename r h, queue := s'.queue ++ r.events }
  /-- events are read -/
  | read {s' : Moving σ} {env : Surroundings} {now : ℕ} {packets : List Packet} {queue : List Event}
      {k : KInotify σ} {trace : List Handled} (hrun : Run decode P s s') (henv : env.decodeName = decode)
      (hpackets : ∀ packet ∈ packets, packet.WellFormed)
      (hqueue : s'.queue = packets.map Packet.event ++ queue)
      (hreturns : Fuel.Returns (fun n => processEventBuffer env n now s'.k (packets.flatMap Packet.bytes))
        (k, trace)) :
      Run decode P s { s' with queue := queue, k := k }
  /-- the timer fires -/
  | timeout {s' : Moving σ} {now : ℕ} (hrun : Run decode P s s')
      (hdue : ∀ c cookie, s'.k.cookies.get c = some cookie → now ≤ cookie.deadline) :
      Run decode P s { s' with k := (slotClearCookies now s'.k).1 }

theorem Moving.Run.behind (hmirrors : Mirrors s.k s.dirs) (hcookies : s.k.cookies = ∅) (hqueue : s.queue = [])
    (hrun : Moving.Run decode (Rename.Leaf decode) s s') : Behind decode s'.dirs s'.k s'.queue := by
  induction hrun with
  | nil =>
    rw [hqueue]
    exact .between hmirrors (fun c => by rw [hcookies, Hash.get_empty]) .nil
  | rename _ h hleaf ih => exact ih.enqueue h hleaf
  | read _ henv hpackets hread hreturns ih =>
    rw [hread] at ih
    obtain ⟨k', trace', hreturns', h⟩ := ih.processEventBuffer henv hpackets
    cases hreturns.unique ⟨0, fun n _ => hreturns' n⟩
    exact h
  | timeout _ hdue ih => exact ih.slotClearCookies hdue

/-- If no directory is moved that has watched directories inside, then the tables are those of the
directories whenever all events have been processed, and so are the paths of events. -/
theorem watch_paths_follow (hmirrors : Mirrors s.k s.dirs) (hcookies : s.k.cookies = ∅) (hqueue : s.queue = [])
    (hrun : Moving.Run decode (Rename.Leaf decode) s s') (hdone : s'.queue = []) :
    Mirrors s'.k s'.dirs ∧
      ∀ (env : Surroundings) (event : Event) (p : List QChar), s'.dirs.path event.wd = some p →
        IsName (env.decodeName event.name) →
        hasBit event.mask (EventDeleteSelf ||| EventMoveSelf) = false →
          eventPath env s'.k event = p ++ env.decodeName event.name ++
            if hasBit event.mask InIsDir then [separator] else [] := by
  have hbehind := hrun.behind hmirrors hcookies hqueue
  rw [hdone] at hbehind
  have hmirrors' := hbehind.settled.1
  refine ⟨hmirrors', fun env event p hp hname hself => ?_⟩
  rw [eventPath_entry hmirrors' (by rw [hp]; rfl) hname hself, hp, Option.getD_some]

end

/-! ### `/r/a/b` -/

/-- The paths of `/r/`, `/r/a/` and `/r/a/b/`. -/
def pathsRAB : Hash ℤ (List QChar) :=
  AList.insert (1 : ℤ) [47, 114, 47] (AList.insert (2 : ℤ) [47, 114, 47, 97, 47]
    (AList.insert (3 : ℤ) [47, 114, 47, 97, 47, 98, 47] ∅))

/-- The directories. -/
def watchedRAB : Watched where
  path := pathsRAB.get
  closed := by
    intro wd p hp
    have hclosed : ∀ e ∈ pathsRAB.entries, e.2.getLast? = some separator := by decide +kernel
    exact hclosed _ (Hash.mem_entries.mpr hp)
  injective := by
    intro wd wd' p hp hp'
    have hinjective : ∀ e ∈ pathsRAB.entries, ∀ e' ∈ pathsRAB.entries, e.2 = e'.2 → e.1 = e'.1 := by
      decide +kernel
    exact hinjective _ (Hash.mem_entries.mpr hp) _ (Hash.mem_entries.mpr hp') rfl

/-- They are watched. -/
def movingRAB : Moving Numbering where
  dirs := watchedRAB
  queue := []
  k := {
    config := none
    inotify := ⟨4⟩
    watchPathHash := pathsRAB
    pathWatchHash := AList.insert [47, 114, 47] (1 : ℤ) (AList.insert [47, 114, 47, 97, 47] (2 : ℤ)
      (AList.insert [47, 114, 47, 97, 47, 98, 47] (3 : ℤ) ∅)) }

theorem mirrors_movingRAB : Mirrors movingRAB.k movingRAB.dirs where
  watchPathHash _ := rfl
  pathWatchHash p wd := by
    have hinverse : ∀ e ∈ movingRAB.k.pathWatchHash.entries, pathsRAB.get e.2 = some e.1 := by decide +kernel
    have hinverse' : ∀ e ∈ pathsRAB.entries, movingRAB.k.pathWatchHash.get e.2 = some e.1 := by decide +kernel
    exact ⟨fun h => hinverse _ (Hash.mem_entries.mpr h), fun h => hinverse' _ (Hash.mem_entries.mpr h)⟩

/-- `/r/a/b` becomes `/r/a/c`. -/
def moveB : Rename :=
  { wd := 3, source := 2, oldName := [98], target := 2, newName := [99], cookie := 7 }

/-- `/r/a` becomes `/r/c`. -/
def moveA : Rename :=
  { wd := 2, source := 1, oldName := [97], target := 1, newName := [99], cookie := 7 }

theorem possible_moveB : moveB.Possible noFiles.decodeName watchedRAB where
  source := by decide +kernel
  target := by decide +kernel
  oldName := ⟨by decide, by decide⟩
  newName := ⟨by decide, by decide⟩
  moved := by decide +kernel
  free := by
    have hfree : ∀ e ∈ pathsRAB.entries, ¬ moveB.newPath noFiles.decodeName watchedRAB <+: e.2 := by
      decide +kernel
    exact fun wd p hp => hfree _ (Hash.mem_entries.mpr hp)
  outside := by decide +kernel

theorem possible_moveA : moveA.Possible noFiles.decodeName watchedRAB where
  source := by decide +kernel
  target := by decide +kernel
  oldName := ⟨by decide, by decide⟩
  newName := ⟨by decide, by decide⟩
  moved := by decide +kernel
  free := by
    have hfree : ∀ e ∈ pathsRAB.entries, ¬ moveA.newPath noFiles.decodeName watchedRAB <+: e.2 := by
      decide +kernel
    exact fun wd p hp => hfree _ (Hash.mem_entries.mpr hp)
  outside := by decide +kernel

/-- The packets of a rename, without padding. -/
theorem Rename.packets_wellFormed (r : Rename) (hsource : 0 ≤ r.source ∧ r.source < 2 ^ 31)
    (htarget : 0 ≤ r.target ∧ r.target < 2 ^ 31) (hold : 0 ∉ r.oldName ∧ r.oldName.length < 2 ^ 32)
    (hnew : 0 ∉ r.newName ∧ r.newName.length < 2 ^ 32) :
    ∀ packet ∈ r.events.map (Packet.mk · 0), packet.WellFormed := by
  have hself : ∀ {mask : UInt32}, mask = EventMoveFrom ||| InIsDir ∨ mask = EventMoveTo ||| InIsDir →
      hasBit mask (EventDeleteSelf ||| EventMoveSelf ||| EventQueueOverflow) = true → False := by
    intro mask hmask
    cases hmask with
    | inl hmask => rw [hmask]; decide
    | inr hmask => rw [hmask]; decide
  intro packet hpacket
  obtain ⟨event, hevent, rfl⟩ := List.mem_map.mp hpacket
  rcases List.mem_pair.mp hevent with rfl | rfl
  · exact ⟨⟨⟨by have := hsource.1; simp only [moveFrom]; omega, hsource.2⟩,
      .inr ⟨hsource.1, EventMoveFrom, by decide, .inr rfl⟩, hold.1, fun h => (hself (.inl rfl) h).elim⟩, hold.2⟩
  · exact ⟨⟨⟨by have := htarget.1; simp only [moveTo]; omega, htarget.2⟩,
      .inr ⟨htarget.1, EventMoveTo, by decide, .inr rfl⟩, hnew.1, fun h => (hself (.inr rfl) h).elim⟩, hnew.2⟩

/-- A rename of `/r/a/b` is followed. -/
theorem watch_paths_follow_moveB : ∃ k, Moving.Run noFiles.decodeName (Rename.Leaf noFiles.decodeName) movingRAB
      { dirs := watchedRAB.rename moveB possible_moveB, queue := [], k := k } ∧
    Mirrors k (watchedRAB.rename moveB possible_moveB) := by
  have hleaf : moveB.Leaf noFiles.decodeName watchedRAB := by
    have hinside : ∀ e ∈ pathsRAB.entries, moveB.oldPath noFiles.decodeName watchedRAB <+: e.2 → e.1 = 3 := by
      decide +kernel
    exact fun wd p hp => hinside _ (Hash.mem_entries.mpr hp)
  have hrename : Moving.Run noFiles.decodeName (Rename.Leaf noFiles.decodeName) movingRAB _ :=
    Moving.Run.nil.rename possible_moveB hleaf
  have hbehind := hrename.behind mirrors_movingRAB rfl rfl
  have hpackets := moveB.packets_wellFormed (by decide) (by decide) (by decide) (by decide)
  obtain ⟨k, trace, hreturns, -⟩ := @Behind.processEventBuffer _ _ _ _ [] noFiles _ 0 rfl _ hpackets hbehind
  have hrun := hrename.read rfl hpackets rfl ⟨0, fun n _ => hreturns n⟩
  exact ⟨k, hrun, (watch_paths_follow mirrors_movingRAB rfl rfl hrun rfl).1⟩

/-- When `/r/a` is moved, the path of `/r/a/b` stays what it was. -/
theorem moved_subdirectory_stale : ¬ ∀ (decode : QByteArray → List QChar) (s s' : Moving Numbering),
    Mirrors s.k s.dirs → s.k.cookies = ∅ → s.queue = [] → Moving.Run decode (fun _ _ => True) s s' →
      s'.queue = [] → Mirrors s'.k s'.dirs := by
  intro h
  have hdispatch : ∀ n, dispatch noFiles n 0 movingRAB.k none moveA.events =
      dispatch noFiles 0 0 movingRAB.k none moveA.events := fun n => rfl
  have hstale : ((dispatch noFiles 0 0 movingRAB.k none moveA.events).map fun result =>
      result.1.watchPathHash.get 3) = some (some [47, 114, 47, 97, 47, 98, 47]) := by decide +kernel
  obtain ⟨⟨k, trace⟩, hresult, hold⟩ := Option.map_eq_some_iff.mp hstale
  have hpackets := moveA.packets_wellFormed (by decide) (by decide) (by decide) (by decide)
  have hreturns : Fuel.Returns (fun n => processEventBuffer noFiles n 0 movingRAB.k
      ((moveA.events.map (Packet.mk · 0)).flatMap Packet.bytes)) (updateTimer k, trace) := by
    refine ⟨0, fun n _ => ?_⟩
    change processEventBuffer noFiles n 0 movingRAB.k _ = _
    rw [processEventBuffer, processLoop_packets noFiles n hpackets]
    have hevents : (moveA.events.map (Packet.mk · 0)).map Packet.event = moveA.events := rfl
    rw [hevents, hdispatch, hresult]
    rfl
  have hrename : Moving.Run noFiles.decodeName (fun _ _ => True) movingRAB _ :=
    Moving.Run.nil.rename possible_moveA trivial
  have hrun := hrename.read rfl hpackets rfl hreturns
  have hmirrors := h noFiles.decodeName movingRAB _ mirrors_movingRAB rfl rfl hrun rfl
  have hnew := hmirrors.watchPathHash 3
  have hmoved : (watchedRAB.rename moveA possible_moveA).path 3 = some [47, 114, 47, 99, 47, 98, 47] := by
    decide +kernel
  have htables : (updateTimer k).watchPathHash.get 3 = some [47, 114, 47, 97, 47, 98, 47] := by
    rw [(updateTimer_tables k).1]
    exact hold
  exact absurd ((htables.symm.trans hnew).trans hmoved) (by decide)

end KInotify

end Baloo
