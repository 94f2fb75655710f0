import Baloo.FilteredDirIterator
import Baloo.Lib.Hash
import Baloo.PendingFileQueue

/-!
# Watching directories

`KInotify` keeps a table from watch descriptors to paths and its inverse. Watches are installed in
batches by a call that posts itself to the event loop; events of the kernel are read from a buffer of
bytes. The two halves of a rename are joined by their cookie: the path of the first half waits until
the second half comes or a timer sweeps it.

Paths are the texts that the file names decode to. The kernel's side of inotify and the listing of
directories are arguments. A method returns the signals it emits, and `processEventBuffer` returns
them for each event; `none` stands for a read behind the end of the buffer.
-/

namespace Baloo

/-- `normalizeTrailingSlash`. -/
def normalizeTrailingSlash (path : List QChar) : List QChar :=
  if path.getLast? = some separator then path else path ++ [separator]

/-- `concatPath`. -/
def concatPath (p1 p2 : List QChar) : List QChar :=
  (if p1 = [] ∨ (p2 ≠ [] ∧ p1.getLast? ≠ some separator) then p1 ++ [separator] else p1) ++ p2

/-- How `inotify_add_watch` fails. -/
inductive Errno
  | enospc
  | other
  deriving DecidableEq

/-- The kernel's side of inotify; `σ` is its state. -/
class Inotify (σ : Type) where
  /-- `inotify_add_watch` -/
  addWatch : σ → List QChar → UInt32 → σ × Except Errno ℤ
  /-- `inotify_rm_watch` -/
  rmWatch : σ → ℤ → σ

namespace KInotify

/-- `EventAccess`. -/
abbrev EventAccess : UInt32 := 0x00000001
/-- `EventModify`. -/
abbrev EventModify : UInt32 := 0x00000002
/-- `EventAttributeChange`. -/
abbrev EventAttributeChange : UInt32 := 0x00000004
/-- `EventCloseWrite`. -/
abbrev EventCloseWrite : UInt32 := 0x00000008
/-- `EventCloseRead`. -/
abbrev EventCloseRead : UInt32 := 0x00000010
/-- `EventOpen`. -/
abbrev EventOpen : UInt32 := 0x00000020
/-- `EventMoveFrom`. -/
abbrev EventMoveFrom : UInt32 := 0x00000040
/-- `EventMoveTo`. -/
abbrev EventMoveTo : UInt32 := 0x00000080
/-- `EventCreate`. -/
abbrev EventCreate : UInt32 := 0x00000100
/-- `EventDelete`. -/
abbrev EventDelete : UInt32 := 0x00000200
/-- `EventDeleteSelf`. -/
abbrev EventDeleteSelf : UInt32 := 0x00000400
/-- `EventMoveSelf`. -/
abbrev EventMoveSelf : UInt32 := 0x00000800
/-- `EventUnmount`. -/
abbrev EventUnmount : UInt32 := 0x00002000
/-- `EventQueueOverflow`. -/
abbrev EventQueueOverflow : UInt32 := 0x00004000
/-- `EventIgnored`. -/
abbrev EventIgnored : UInt32 := 0x00008000
/-- `FlagOnlyDir`. -/
abbrev FlagOnlyDir : UInt32 := 0x01000000
/-- `FlagExclUnlink`. -/
abbrev FlagExclUnlink : UInt32 := 0x04000000
/-- `IN_ISDIR`. -/
abbrev InIsDir : UInt32 := 0x40000000

/-- `EventMove`. -/
abbrev EventMove : UInt32 := EventMoveFrom ||| EventMoveTo
/-- `EventAll`. -/
abbrev EventAll : UInt32 :=
  EventAccess ||| EventAttributeChange ||| EventCloseWrite ||| EventCloseRead ||| EventCreate |||
    EventDelete ||| EventDeleteSelf ||| EventModify ||| EventMoveSelf ||| EventMoveFrom |||
    EventMoveTo ||| EventOpen

/-- A bit of the mask is set. -/
def hasBit (mask bits : UInt32) : Bool := mask &&& bits ≠ 0

theorem hasBit_or (mask a b : UInt32) : hasBit mask (a ||| b) = (hasBit mask a || hasBit mask b) := by
  have hdistrib : mask &&& (a ||| b) = mask &&& a ||| mask &&& b := by
    rw [← UInt32.toBitVec_inj]
    exact BitVec.and_or_distrib_left
  rw [Bool.eq_iff_iff, Bool.or_eq_true]
  simp only [hasBit, hdistrib, ne_eq, UInt32.or_eq_zero_iff, decide_eq_true_eq]
  exact not_and_or

/-- What `KInotify` signals. -/
inductive Signal
  | accessed (file : List QChar)
  | attributeChanged (file : List QChar)
  | closedWrite (file : List QChar)
  | closedRead (file : List QChar)
  | created (file : List QChar) (isDir : Bool)
  | deleted (file : List QChar) (isDir : Bool)
  | modified (file : List QChar)
  | moved (oldName newName : List QChar)
  | opened (file : List QChar)
  | unmounted (file : List QChar)
  | eventQueueOverflowed
  | watchUserLimitReached (path : List QChar)
  | installedWatches
  deriving DecidableEq

/-- `MovedFileCookie`. -/
structure MovedFileCookie where
  /-- `deadline`, in milliseconds -/
  deadline : ℕ
  /-- `path` -/
  path : List QChar
  /-- `flags` -/
  flags : UInt32
  deriving DecidableEq

end KInotify

open KInotify in
/-- `KInotify`. -/
structure KInotify (σ : Type) where
  /-- `config` -/
  config : Option FileIndexerConfig
  /-- the kernel -/
  inotify : σ
  /-- `cookies` -/
  cookies : Hash UInt32 MovedFileCookie := ∅
  /-- `cookieExpireTimer` -/
  cookieExpireTimer : QTimer := { interval := 1000 }
  /-- `userLimitReachedSignaled` -/
  userLimitReachedSignaled : Bool := false
  /-- `watchPathHash` -/
  watchPathHash : Hash ℤ (List QChar) := ∅
  /-- `pathWatchHash` -/
  pathWatchHash : Hash (List QChar) ℤ := ∅
  /-- `m_paths` -/
  paths : List (List QChar) := []
  /-- `m_dirIter` -/
  dirIter : Option FilteredDirIterator := none
  /-- `mode` -/
  mode : UInt32 := 0
  /-- `flags` -/
  flags : UInt32 := 0
  /-- calls of `_k_addWatches` that wait in the event loop -/
  posted : ℕ := 0

namespace KInotify

open FilteredDirIterator (Listing)

variable {σ : Type} [Inotify σ]

/-! ## Watches -/

/-- `Private::addWatch`. -/
def Private.addWatch (k : KInotify σ) (path : List QChar) : KInotify σ × List Signal :=
  let mask := k.mode ||| k.flags ||| EventUnmount ||| FlagExclUnlink
  let encpath := normalizeTrailingSlash path
  match Inotify.addWatch k.inotify encpath mask with
  | (inotify, .ok wd) =>
    ({ k with
        inotify := inotify
        watchPathHash := k.watchPathHash.insert wd encpath
        pathWatchHash := k.pathWatchHash.insert encpath wd }, [])
  | (inotify, .error errno) =>
    let k := { k with inotify := inotify }
    if errno = .enospc then
      ({ k with userLimitReachedSignaled := true }, [.watchUserLimitReached path])
    else (k, [])

/-- `Private::removeWatch`. -/
def Private.removeWatch (k : KInotify σ) (wd : ℤ) : KInotify σ :=
  { k with
    inotify := Inotify.rmWatch k.inotify wd
    watchPathHash := k.watchPathHash.erase wd
    pathWatchHash := k.pathWatchHash.erase ((k.watchPathHash.get wd).getD []) }

/-- `Private::parentWatched`. -/
def Private.parentWatched (k : KInotify σ) (path : List QChar) : Bool :=
  let parent := (path.dropLast.reverse.dropWhile (· ≠ separator)).reverse
  decide (1 < parent.length) && (k.pathWatchHash.get parent).isSome

/-- The loop of `Private::_k_addWatches`; the flag says that it returned at once. -/
def Private.addWatchesLoop (listing : Listing) : ℕ → KInotify σ → KInotify σ × List Signal × Bool
  | 0, k => (k, [], false)
  | n + 1, k =>
    if k.userLimitReachedSignaled then (k, [], true)
    else
      -- `!m_dirIter || m_dirIter->next().isEmpty()`
      match (k.dirIter.map fun it => it.next listing).filter fun (_, path) => path ≠ [] with
      | none =>
        match k.paths with
        | path :: paths =>
          addWatchesLoop listing n { k with
            dirIter := some (.construct listing k.config path .dirsOnly), paths := paths }
        | [] => ({ k with dirIter := none }, [], false)
      | some (it, _) =>
        let (k, signals) := Private.addWatch { k with dirIter := some it } it.filePath
        let (k, signals', returned) := addWatchesLoop listing n k
        (k, signals ++ signals', returned)

/-- `Private::_k_addWatches`. -/
def Private.addWatches (listing : Listing) (k : KInotify σ) : KInotify σ × List Signal :=
  let (k, signals, returned) := addWatchesLoop listing 1000 k
  if returned then (k, signals)
  else if k.dirIter.isSome then ({ k with posted := k.posted + 1 }, signals)
  else (k, signals ++ [.installedWatches])

/-- `watchingPath`. -/
def watchingPath (k : KInotify σ) (path : List QChar) : Bool :=
  (k.pathWatchHash.get (normalizeTrailingSlash path)).isSome

/-- `addWatch`. -/
def addWatch (k : KInotify σ) (path : List QChar) (mode flags : UInt32) : KInotify σ × Bool :=
  let k := { k with mode := mode, flags := flags, paths := k.paths ++ [path] }
  if k.userLimitReachedSignaled then (k, false) else ({ k with posted := k.posted + 1 }, true)

/-- `removeWatch`. -/
def removeWatch (k : KInotify σ) (path : List QChar) : KInotify σ :=
  let inside := k.watchPathHash.entries.filter fun it => path.isPrefixOf it.2
  { k with
    -- stop all of the iterators which contain path
    paths := k.paths.filter fun p => !path.isPrefixOf p
    dirIter := k.dirIter.filter fun it => !path.isPrefixOf it.filePath
    -- remove all the watches
    inotify := inside.foldl (fun inotify it => Inotify.rmWatch inotify it.1) k.inotify
    pathWatchHash := inside.foldl (fun hash it => hash.erase it.2) k.pathWatchHash
    watchPathHash := k.watchPathHash.filter fun _ p => !path.isPrefixOf p }

/-- The loop of `handleDirCreated`. -/
def handleDirCreatedLoop (listing : Listing) :
    ℕ → KInotify σ → FilteredDirIterator → Option (KInotify σ × List Signal)
  | 0, _, _ => none
  | n + 1, k, it =>
    let (it, path) := it.next listing
    if path = [] then some (k, [])
    else
      let isDir := it.fileInfo.any fun info => info.isDir
      let (k, signals) := if isDir then Private.addWatch k it.filePath else (k, [])
      (handleDirCreatedLoop listing n k it).map fun (k, signals') =>
        (k, .created it.filePath isDir :: signals ++ signals')

/-- `handleDirCreated`. -/
def handleDirCreated (listing : Listing) (fuel : ℕ) (k : KInotify σ) (path : List QChar) :
    Option (KInotify σ × List Signal) :=
  let it := FilteredDirIterator.construct listing k.config path .filesAndDirs
  -- first entry is the directory itself (if not excluded)
  let (it, first) := it.next listing
  let (k, signals) := if first ≠ [] then Private.addWatch k it.filePath else (k, [])
  (handleDirCreatedLoop listing fuel k it).map fun (k, signals') => (k, signals ++ signals')

/-! ## Events -/

/-- An event, as read from the buffer; the name ends at the first null byte. -/
structure Event where
  /-- `wd` -/
  wd : ℤ
  /-- `mask` -/
  mask : UInt32
  /-- `cookie` -/
  cookie : UInt32
  /-- `name` -/
  name : QByteArray
  deriving DecidableEq

/-- The file system, as the handling of an event sees it: a tree of bounded depth. -/
structure Surroundings where
  /-- lists a directory -/
  listing : Listing
  /-- `QFile::decodeName` -/
  decodeName : QByteArray → List QChar
  /-- a bound for the length of paths of directories -/
  depth : ℕ
  /-- deeper down there is nothing -/
  bounded : ∀ path, depth ≤ path.length → listing path = []
  /-- what is in a directory has a longer path -/
  longer : ∀ path, ∀ info ∈ listing path, path.length < info.filePath.length

/-- What has been done about an event. -/
structure Handled where
  /-- the event -/
  event : Event
  /-- its path -/
  path : List QChar
  /-- the signals that were emitted for it -/
  signals : List Signal

/-- A `uint32_t` in memory, the low byte first. -/
def uint32At : QByteArray → Option UInt32
  | b₀ :: b₁ :: b₂ :: b₃ :: _ =>
    some (UInt32.ofNat (b₀.toNat + 256 * b₁.toNat + 65536 * b₂.toNat + 16777216 * b₃.toNat))
  | _ => none

/-- `qstrnlen` with the bytes in front of the null byte, within the memory that there is. -/
def qstrnlen (str : QByteArray) (maxlen : ℕ) : Option QByteArray :=
  let str := str.take maxlen
  if str.length = maxlen ∨ 0 ∈ str then some (str.takeWhile (· ≠ 0)) else none

/-- The event at the start of the memory, and how far it reaches. The name is read only where the
code reads it. -/
def readEvent (memory : QByteArray) : Option (Event × ℕ) :=
  match uint32At memory, uint32At (memory.drop 4), uint32At (memory.drop 8),
    uint32At (memory.drop 12) with
  | some wd, some mask, some cookie, some len =>
    let wd := wd.toInt32.toInt
    let nameless := (wd < 0 && hasBit mask EventQueueOverflow) ||
      hasBit mask (EventDeleteSelf ||| EventMoveSelf)
    (if nameless then some [] else qstrnlen (memory.drop 16) len.toNat).map fun name =>
      ({ wd := wd, mask := mask, cookie := cookie, name := name }, 16 + len.toNat)
  | _, _, _, _ => none

section

variable (env : Surroundings) (fuel : ℕ)

/-- The path of an event. -/
def eventPath (k : KInotify σ) (event : Event) : List QChar :=
  let hashedPath := (k.watchPathHash.get event.wd).getD []
  if hasBit event.mask (EventDeleteSelf ||| EventMoveSelf) then hashedPath
  else
    let path := concatPath hashedPath (env.decodeName event.name)
    if hasBit event.mask InIsDir then normalizeTrailingSlash path else path

/-- `created` for a file or a directory, and for what is in the directory. -/
def emitCreated (k : KInotify σ) (fname : List QChar) (isDir : Bool) :
    Option (KInotify σ × List Signal) :=
  if isDir then
    (handleDirCreated env.listing fuel k fname).map fun (k, signals) =>
      (k, .created fname isDir :: signals)
  else some (k, [.created fname isDir])

/-- `EventMoveTo`. -/
def handleMoveTo (k : KInotify σ) (event : Event) (path fname : List QChar) :
    Option (KInotify σ × List Signal) :=
  let isDir := hasBit event.mask InIsDir
  match k.cookies.get event.cookie with
  | some cookie =>
    let oldPath := cookie.path
    let k := { k with cookies := k.cookies.erase event.cookie }
    -- update the path cache
    let k :=
      match k.pathWatchHash.get oldPath with
      | some wd =>
        if isDir then
          { k with
            watchPathHash := k.watchPathHash.insert wd path
            pathWatchHash := (k.pathWatchHash.erase oldPath).insert path wd }
        else k
      | none => k
    some (k, [.moved oldPath fname])
  | none => emitCreated env fuel k fname isDir

/-- All signals of an event, in the order of the source. -/
def allSignals (event : Event) (path fname : List QChar) (created moved : List Signal) : List Signal :=
  let on (bit : UInt32) (signal : Signal) : List Signal := if hasBit event.mask bit then [signal] else []
  on EventAccess (.accessed fname) ++ on EventAttributeChange (.attributeChanged fname) ++
  on EventCloseWrite (.closedWrite fname) ++ on EventCloseRead (.closedRead fname) ++ created ++
  on EventDeleteSelf (.deleted fname true) ++
  (if !hasBit event.mask InIsDir then on EventDelete (.deleted fname false) else []) ++
  on EventModify (.modified fname) ++ moved ++ on EventOpen (.opened fname) ++
  (if path ≠ [separator] then on EventUnmount (.unmounted fname) else [])

/-- The body of the loop of `processEventBuffer`; `deadline` is the deadline for the cookies of this
buffer, which is set when it is needed. -/
def handleEvent (now : ℕ) (k : KInotify σ) (deadline : Option ℕ) (event : Event) :
    Option (KInotify σ × Option ℕ × Handled) :=
  if event.wd < 0 && hasBit event.mask EventQueueOverflow then
    some (k, deadline, { event := event, path := [], signals := [.eventQueueOverflowed] })
  else
    let path := eventPath env k event
    -- all events which need a decoded path
    let fileEvents := EventAll &&& ~~~(EventMoveFrom ||| EventQueueOverflow ||| EventIgnored)
    let fname := if hasBit event.mask fileEvents then path else []
    let isDir := hasBit event.mask InIsDir
    (if hasBit event.mask EventCreate then emitCreated env fuel k fname isDir
      else some (k, [])).bind fun (k, created) =>
    let k := if hasBit event.mask EventDeleteSelf then Private.removeWatch k event.wd else k
    let (k, deadline) :=
      if hasBit event.mask EventMoveFrom then
        let deadline := deadline.getD (now + 1000)
        let cookie : MovedFileCookie := { deadline := deadline, path := path, flags := event.mask }
        ({ k with cookies := k.cookies.insert event.cookie cookie }, some deadline)
      else (k, deadline)
    (if hasBit event.mask EventMoveTo then handleMoveTo env fuel k event path fname
      else some (k, [])).bind fun (k, moved) =>
    let k := if hasBit event.mask EventUnmount && isDir then Private.removeWatch k event.wd else k
    some (k, deadline,
      { event := event, path := path, signals := allSignals event path fname created moved })

theorem length_pos_of_uint32At {memory : QByteArray} {value : UInt32} (h : uint32At memory = some value) :
    0 < memory.length := by
  cases memory with
  | nil => cases h
  | cons b memory => exact Nat.succ_pos _

theorem readEvent_pos {memory : QByteArray} {event : Event} {size : ℕ}
    (h : readEvent memory = some (event, size)) : 0 < memory.length ∧ 0 < size := by
  rw [readEvent] at h
  split at h
  · next hwd _ _ _ =>
    rw [Option.map_eq_some_iff] at h
    obtain ⟨name, -, hpair⟩ := h
    obtain rfl : _ = size := congrArg Prod.snd hpair
    exact ⟨length_pos_of_uint32At hwd, by omega⟩
  · cases h

/-- The loop of `processEventBuffer`, on the part of the buffer that is left. -/
def processLoop (now : ℕ) (k : KInotify σ) (deadline : Option ℕ) (buffer : QByteArray) :
    Option (KInotify σ × List Handled) :=
  if buffer = [] then some (k, [])
  else
    match _hread : readEvent buffer with
    | none => none
    | some (event, size) =>
      (handleEvent env fuel now k deadline event).bind fun (k, deadline, handled) =>
        (processLoop now k deadline (buffer.drop size)).map fun (k, trace) => (k, handled :: trace)
termination_by buffer.length
decreasing_by
  obtain ⟨hlength, hsize⟩ := readEvent_pos _hread
  rw [List.length_drop]
  omega

/-- The end of `processEventBuffer`: the timer runs if there are cookies. -/
def updateTimer (k : KInotify σ) : KInotify σ :=
  if k.cookies.entries = [] then
    { k with cookieExpireTimer := { k.cookieExpireTimer with active := false } }
  else if !k.cookieExpireTimer.active then
    { k with cookieExpireTimer := k.cookieExpireTimer.start }
  else k

/-- `processEventBuffer`. -/
def processEventBuffer (now : ℕ) (k : KInotify σ) (buffer : QByteArray) :
    Option (KInotify σ × List Handled) :=
  (processLoop env fuel now k none buffer).map fun (k, trace) => (updateTimer k, trace)

end

/-- The loop of `slotClearCookies`. -/
def clearCookiesLoop (now : ℕ) (k : KInotify σ) :
    List (Σ _ : UInt32, MovedFileCookie) → KInotify σ × List (UInt32 × List Signal)
  | [] => (k, [])
  | ⟨cookie, it⟩ :: cookies =>
    if it.deadline < now then
      let k := removeWatch k it.path
      let (k, trace) := clearCookiesLoop now { k with cookies := k.cookies.erase cookie } cookies
      (k, (cookie, [.deleted it.path (hasBit it.flags InIsDir)]) :: trace)
    else clearCookiesLoop now k cookies

/-- `slotClearCookies`, called by the timer, which is a single-shot one. The signals are listed with
their cookie. -/
def slotClearCookies (now : ℕ) (k : KInotify σ) : KInotify σ × List (UInt32 × List Signal) :=
  let k := { k with cookieExpireTimer := { k.cookieExpireTimer with active := false } }
  let (k, trace) := clearCookiesLoop now k k.cookies.entries
  if k.cookies.entries ≠ [] then ({ k with cookieExpireTimer := k.cookieExpireTimer.start }, trace)
  else (k, trace)

end KInotify

end Baloo
