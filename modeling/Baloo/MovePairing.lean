import Baloo.EventBuffer
import Baloo.Lib.Fuel

/-!
# The two halves of a rename

`MoveFrom` leaves a cookie, and `MoveTo` takes it; a cookie whose deadline has passed is swept by the
timer. In any order of buffers and timeouts each `MoveFrom` comes to exactly one of `moved` and
`deleted`, unless its cookie still waits; then the timer is running, and when it fires after the
deadline the cookie is gone (`move_pairing`). What has happened to a cookie is read off the log of a
run: `History`.
-/

namespace Baloo

namespace KInotify

open FilteredDirIterator (Listing Lists)

/-! ## What the handlers leave alone -/

section

variable {σ : Type} {k k' k'' : KInotify σ} {l l' : List Signal}

/-- The cookies and their timer are the same. -/
structure Leaves (k k' : KInotify σ) : Prop where
  cookies : k'.cookies = k.cookies
  timer : k'.cookieExpireTimer = k.cookieExpireTimer

/-- No rename is among the signals. -/
def Quiet (signals : List Signal) : Prop := ∀ signal ∈ signals, ∀ a b, signal ≠ .moved a b

theorem Leaves.refl (k : KInotify σ) : Leaves k k := ⟨rfl, rfl⟩

theorem Leaves.trans (h : Leaves k k') (h' : Leaves k' k'') : Leaves k k'' :=
  ⟨h'.cookies.trans h.cookies, h'.timer.trans h.timer⟩

theorem quiet_nil : Quiet [] := fun _ h => absurd h List.not_mem_nil

theorem Quiet.append (h : Quiet l) (h' : Quiet l') : Quiet (l ++ l') := by
  intro signal hsignal
  rcases List.mem_append.mp hsignal with hsignal | hsignal
  · exact h signal hsignal
  · exact h' signal hsignal

theorem Quiet.cons {signal : Signal} (hsignal : ∀ a b, signal ≠ .moved a b) (h : Quiet l) :
    Quiet (signal :: l) := by
  intro s hs
  rcases List.mem_cons.mp hs with rfl | hs
  · exact hsignal
  · exact h s hs

variable [Inotify σ]

theorem addWatch_leaves (k : KInotify σ) (path : List QChar) :
    Leaves k (Private.addWatch k path).1 ∧ Quiet (Private.addWatch k path).2 := by
  rw [Private.addWatch]
  split
  · exact ⟨⟨rfl, rfl⟩, quiet_nil⟩
  · dsimp only
    split
    · exact ⟨⟨rfl, rfl⟩, .cons (by simp) quiet_nil⟩
    · exact ⟨⟨rfl, rfl⟩, quiet_nil⟩

theorem handleDirCreatedLoop_returns {listing : Listing} {it : FilteredDirIterator}
    {paths : List (List QChar)} (h : Lists listing it paths) (k : KInotify σ) :
    ∃ k' signals, Fuel.Returns (fun n => handleDirCreatedLoop listing n k it) (k', signals) ∧
      Leaves k k' ∧ Quiet signals := by
  induction paths generalizing it k with
  | nil =>
    rcases h.next with ⟨-, hdone, -⟩ | ⟨_, _, hnil, -⟩
    · refine ⟨k, [], Fuel.Returns.succ ⟨0, fun n _ => ?_⟩, .refl k, quiet_nil⟩
      change handleDirCreatedLoop listing (n + 1) k it = _
      rw [handleDirCreatedLoop]
      dsimp only
      rw [if_pos hdone]
    · cases hnil
  | cons d paths ih =>
    rcases h.next with ⟨hcons, -⟩ | ⟨d', paths', hcons, hpath, hfile, hrest⟩
    · cases hcons
    obtain ⟨rfl, rfl⟩ := List.cons.inj hcons
    rcases eq_or_ne (it.next listing).2 [] with hnil | hne
    · refine ⟨k, [], Fuel.Returns.succ ⟨0, fun n _ => ?_⟩, .refl k, quiet_nil⟩
      change handleDirCreatedLoop listing (n + 1) k it = _
      rw [handleDirCreatedLoop]
      dsimp only
      rw [if_pos hnil]
    · -- the entry, with a watch if it is a directory
      set isDir := (it.next listing).1.fileInfo.any fun info => info.isDir with hisDir
      obtain ⟨k₁, signals₁, hadd, hleaves₁, hquiet₁⟩ : ∃ k₁ signals₁,
          (if isDir then Private.addWatch k (it.next listing).1.filePath else (k, [])) = (k₁, signals₁) ∧
            Leaves k k₁ ∧ Quiet signals₁ := by
        split
        · exact ⟨_, _, rfl, (addWatch_leaves k _).1, (addWatch_leaves k _).2⟩
        · exact ⟨k, [], rfl, .refl k, quiet_nil⟩
      obtain ⟨k₂, signals₂, ⟨n, hn⟩, hleaves₂, hquiet₂⟩ := ih hrest k₁
      refine ⟨k₂, .created (it.next listing).1.filePath isDir :: signals₁ ++ signals₂,
        Fuel.Returns.succ ⟨n, fun m hm => ?_⟩, hleaves₁.trans hleaves₂,
        .append (.cons (by simp) hquiet₁) hquiet₂⟩
      change handleDirCreatedLoop listing (m + 1) k it = _
      have hloop : handleDirCreatedLoop listing m k₁ (it.next listing).1 = some (k₂, signals₂) := hn m hm
      rw [handleDirCreatedLoop]
      dsimp only
      rw [if_neg hne, ← hisDir, hadd, hloop]
      rfl

/-- `created` is signalled, and for a directory what is in it. -/
theorem emitCreated_returns (env : Surroundings) (k : KInotify σ) (fname : List QChar) (isDir : Bool) :
    ∃ k' rest, Fuel.Returns (fun n => emitCreated env n k fname isDir) (k', .created fname isDir :: rest) ∧
      Leaves k k' ∧ Quiet rest := by
  cases isDir with
  | false => exact ⟨k, [], .pure _, .refl k, quiet_nil⟩
  | true =>
    obtain ⟨paths, hlists, -⟩ := FilteredDirIterator.exists_lists env.bounded env.longer k.config fname
      .filesAndDirs
    set it := FilteredDirIterator.construct env.listing k.config fname .filesAndDirs with hit
    obtain ⟨k₁, signals₁, hadd, hleaves₁, hquiet₁⟩ : ∃ k₁ signals₁,
        (if (it.next env.listing).2 ≠ [] then Private.addWatch k (it.next env.listing).1.filePath
          else (k, [])) = (k₁, signals₁) ∧ Leaves k k₁ ∧ Quiet signals₁ := by
      split
      · exact ⟨_, _, rfl, (addWatch_leaves k _).1, (addWatch_leaves k _).2⟩
      · exact ⟨k, [], rfl, .refl k, quiet_nil⟩
    obtain ⟨paths', hrest⟩ : ∃ paths', Lists env.listing (it.next env.listing).1 paths' := by
      rcases hlists.next with ⟨-, -, hend⟩ | ⟨_, _, -, -, -, hrest⟩
      · exact ⟨_, hend⟩
      · exact ⟨_, hrest⟩
    obtain ⟨k₂, signals₂, ⟨n, hn⟩, hleaves₂, hquiet₂⟩ := handleDirCreatedLoop_returns hrest k₁
    refine ⟨k₂, signals₁ ++ signals₂, ⟨n, fun m hm => ?_⟩, hleaves₁.trans hleaves₂, hquiet₁.append hquiet₂⟩
    have hloop : handleDirCreatedLoop env.listing m k₁ (it.next env.listing).1 = some (k₂, signals₂) :=
      hn m hm
    change emitCreated env m k fname true = _
    rw [emitCreated, if_pos rfl, handleDirCreated]
    dsimp only
    rw [← hit, hadd, hloop]
    rfl

end

/-! ## Single events -/

section

variable {σ : Type} [Inotify σ] {env : Surroundings} {fuel now : ℕ} {k : KInotify σ} {deadline : Option ℕ}
  {event : Event}

/-- The event has this bit, and maybe the one for directories. -/
def HasKind (event : Event) (bit : UInt32) : Prop :=
  0 ≤ event.wd ∧ (event.mask = bit ∨ event.mask = bit ||| InIsDir)

theorem hasBit_single : ∀ bit ∈ eventBits, ∀ b ∈ eventBits,
    hasBit bit b = decide (bit = b) ∧ hasBit (bit ||| InIsDir) b = decide (bit = b) := by
  have hall : (eventBits.all fun bit => eventBits.all fun b =>
      hasBit bit b == decide (bit = b) && hasBit (bit ||| InIsDir) b == decide (bit = b)) = true := by
    decide
  intro bit hbit b hb
  have hboth := List.all_eq_true.mp (List.all_eq_true.mp hall bit hbit) b hb
  rw [Bool.and_eq_true, beq_iff_eq, beq_iff_eq] at hboth
  exact hboth

theorem HasKind.hasBit {bit b : UInt32} (h : HasKind event bit) (hbit : bit ∈ eventBits)
    (hb : b ∈ eventBits) : hasBit event.mask b = decide (bit = b) := by
  rcases h.2 with hmask | hmask
  · rw [hmask]
    exact (hasBit_single bit hbit b hb).1
  · rw [hmask]
    exact (hasBit_single bit hbit b hb).2

theorem HasKind.hasBit_ne {bit : UInt32} (h : HasKind event bit) (hbit : bit ∈ eventBits)
    (b : UInt32) (hb : b ∈ eventBits) (hne : bit ≠ b) : KInotify.hasBit event.mask b = false := by
  rw [h.hasBit hbit hb]
  exact decide_eq_false hne

theorem handleEvent_moveFrom (h : HasKind event EventMoveFrom) :
    handleEvent env fuel now k deadline event =
      let cookie : MovedFileCookie := {
        deadline := deadline.getD (now + 1000), path := eventPath env k event, flags := event.mask }
      some ({ k with cookies := k.cookies.insert event.cookie cookie }, some (deadline.getD (now + 1000)),
        { event := event, path := eventPath env k event, signals := [] }) := by
  have hnot : ¬ event.wd < 0 := Int.not_lt.mpr h.1
  have hon : hasBit event.mask EventMoveFrom = true := by
    rw [h.hasBit (by decide) (by decide)]
    rfl
  have hoff := h.hasBit_ne (by decide)
  simp [handleEvent, allSignals, hnot, hon, hoff EventAccess (by decide) (by decide),
    hoff EventModify (by decide) (by decide), hoff EventAttributeChange (by decide) (by decide),
    hoff EventCloseWrite (by decide) (by decide), hoff EventCloseRead (by decide) (by decide),
    hoff EventOpen (by decide) (by decide), hoff EventMoveTo (by decide) (by decide),
    hoff EventCreate (by decide) (by decide), hoff EventDelete (by decide) (by decide),
    hoff EventDeleteSelf (by decide) (by decide), hoff EventUnmount (by decide) (by decide)]

theorem handleEvent_moveTo (h : HasKind event EventMoveTo) :
    handleEvent env fuel now k deadline event =
      (handleMoveTo env fuel k event (eventPath env k event) (eventPath env k event)).map
        fun (k', signals) =>
          (k', deadline, { event := event, path := eventPath env k event, signals := signals }) := by
  have hnot : ¬ event.wd < 0 := Int.not_lt.mpr h.1
  have hon : hasBit event.mask EventMoveTo = true := by
    rw [h.hasBit (by decide) (by decide)]
    rfl
  have hfile : hasBit event.mask
      (EventAll &&& ~~~(EventMoveFrom ||| EventQueueOverflow ||| EventIgnored)) = true := by
    rcases h.2 with hmask | hmask
    · rw [hmask]
      decide
    · rw [hmask]
      decide
  have hoff := h.hasBit_ne (by decide)
  rcases hto : handleMoveTo env fuel k event (eventPath env k event) (eventPath env k event) with
    _ | ⟨k', signals⟩
  · simp [handleEvent, hnot, hon, hfile, hto, hoff EventMoveFrom (by decide) (by decide),
      hoff EventCreate (by decide) (by decide), hoff EventDeleteSelf (by decide) (by decide)]
  · simp [handleEvent, allSignals, hnot, hon, hfile, hto, hoff EventAccess (by decide) (by decide),
      hoff EventModify (by decide) (by decide), hoff EventAttributeChange (by decide) (by decide),
      hoff EventCloseWrite (by decide) (by decide), hoff EventCloseRead (by decide) (by decide),
      hoff EventOpen (by decide) (by decide), hoff EventMoveFrom (by decide) (by decide),
      hoff EventCreate (by decide) (by decide), hoff EventDelete (by decide) (by decide),
      hoff EventDeleteSelf (by decide) (by decide), hoff EventUnmount (by decide) (by decide)]

theorem quiet_allSignals {created moved : List Signal} (hcreated : Quiet created) (hmoved : Quiet moved)
    (event : Event) (path fname : List QChar) : Quiet (allSignals event path fname created moved) := by
  have hon : ∀ (bit : UInt32) (signal : Signal), (∀ a b, signal ≠ .moved a b) →
      Quiet (if hasBit event.mask bit then [signal] else []) := by
    intro bit signal hsignal
    split
    · exact .cons hsignal quiet_nil
    · exact quiet_nil
  have hdelete : Quiet (if !hasBit event.mask InIsDir then
      if hasBit event.mask EventDelete then [.deleted fname false] else [] else []) := by
    split
    · exact hon _ _ (by simp)
    · exact quiet_nil
  have hunmount : Quiet (if path ≠ [separator] then
      if hasBit event.mask EventUnmount then [.unmounted fname] else [] else []) := by
    split
    · exact hon _ _ (by simp)
    · exact quiet_nil
  have hfirst := (((hon EventAccess (.accessed fname) (by simp)).append
    (hon EventAttributeChange (.attributeChanged fname) (by simp))).append
    (hon EventCloseWrite (.closedWrite fname) (by simp))).append
    (hon EventCloseRead (.closedRead fname) (by simp))
  exact ((((((hfirst.append hcreated).append (hon _ _ (by simp))).append hdelete).append
    (hon _ _ (by simp))).append hmoved).append (hon _ _ (by simp))).append hunmount

/-- Any other event leaves the cookies alone. -/
theorem handleEvent_other (hfrom : hasBit event.mask EventMoveFrom = false)
    (hto : hasBit event.mask EventMoveTo = false) (k : KInotify σ) (deadline : Option ℕ) :
    ∃ k' handled, Fuel.Returns (fun n => handleEvent env n now k deadline event) (k', deadline, handled) ∧
      Leaves k k' ∧ handled.event = event ∧ Quiet handled.signals := by
  rcases hmarker : decide (event.wd < 0) && hasBit event.mask EventQueueOverflow
  · set path := eventPath env k event with hpath
    set fname := if hasBit event.mask
      (EventAll &&& ~~~(EventMoveFrom ||| EventQueueOverflow ||| EventIgnored)) then path else [] with hfname
    obtain ⟨k₁, created, ⟨n, hn⟩, hleaves₁, hquiet₁⟩ : ∃ k₁ created, Fuel.Returns (fun n =>
        if hasBit event.mask EventCreate then emitCreated env n k fname (hasBit event.mask InIsDir)
        else some (k, [])) (k₁, created) ∧ Leaves k k₁ ∧ Quiet created := by
      rcases hasBit event.mask EventCreate
      · exact ⟨k, [], .pure _, .refl k, quiet_nil⟩
      · obtain ⟨k₁, rest, hreturns, hleaves, hquiet⟩ :=
          emitCreated_returns env k fname (hasBit event.mask InIsDir)
        exact ⟨k₁, _, hreturns, hleaves, .cons (by simp) hquiet⟩
    have hremove : ∀ (b : Bool) (k : KInotify σ),
        Leaves k (if b then Private.removeWatch k event.wd else k) := by
      intro b k
      split
      · exact ⟨rfl, rfl⟩
      · exact .refl k
    refine ⟨_, ⟨event, path, allSignals event path fname created []⟩, ⟨n, fun m hm => ?_⟩,
      hleaves₁.trans ((hremove (hasBit event.mask EventDeleteSelf) k₁).trans
        (hremove (hasBit event.mask EventUnmount && hasBit event.mask InIsDir) _)), rfl,
      quiet_allSignals hquiet₁ quiet_nil _ _ _⟩
    change handleEvent env m now k deadline event = _
    have hcreated := hn m hm
    dsimp only at hcreated
    rw [handleEvent, hmarker]
    simp only [Bool.false_eq_true, ↓reduceIte, ← hpath, ← hfname, hcreated, hfrom, hto]
    rfl
  · refine ⟨k, ⟨event, [], [.eventQueueOverflowed]⟩, ⟨0, fun m _ => ?_⟩, .refl k, rfl,
      .cons (by simp) quiet_nil⟩
    change handleEvent env m now k deadline event = _
    rw [handleEvent, hmarker]
    rfl

end

/-! ## The history of a cookie -/

/-- What is logged: an event that has been handled, or a cookie that has been swept. -/
inductive Entry
  | event (time : ℕ) (handled : Handled)
  | expired (time : ℕ) (cookie : UInt32) (signals : List Signal)

/-- A rename is signalled. -/
def isMoved : Signal → Bool
  | .moved _ _ => true
  | _ => false

/-- The entry is about the cookie: its `MoveFrom`, a rename that is signalled, or its sweep. -/
def concerns (c : UInt32) : Entry → Bool
  | .event _ handled => handled.event.cookie = c &&
      (hasBit handled.event.mask EventMoveFrom || handled.signals.any isMoved)
  | .expired _ cookie _ => cookie = c

/-- The entries about a cookie. -/
def history (c : UInt32) (log : List Entry) : List Entry := log.filter (concerns c)

/-- A `MoveFrom`, for which nothing is signalled yet. -/
structure IsSource (source : Handled) : Prop where
  isMoveFrom : hasBit source.event.mask EventMoveFrom = true
  silent : source.signals = []

/-- What can have happened to a cookie, and what is stored under it then. -/
inductive History (c : UInt32) : Option MovedFileCookie → List Entry → Prop
  /-- there has been no `MoveFrom` with this cookie -/
  | unused : History c none []
  /-- there has been one, and it waits -/
  | waiting {t : ℕ} {source : Handled} (hfrom : IsSource source) :
      History c (some { deadline := t + 1000, path := source.path, flags := source.event.mask })
        [.event t source]
  /-- its `MoveTo` came first -/
  | moved {t t' : ℕ} {source target : Handled} (hfrom : IsSource source)
      (hto : hasBit target.event.mask EventMoveTo = true)
      (hsignals : target.signals = [.moved source.path target.path]) :
      History c none [.event t source, .event t' target]
  /-- its deadline came first -/
  | deleted {t t' : ℕ} {source : Handled} (hfrom : IsSource source)
      (hlate : t + 1000 < t') :
      History c none [.event t source,
        .expired t' c [.deleted source.path (hasBit source.event.mask InIsDir)]]

/-- A `MoveTo` is signalled as a rename if its cookie waits, and as a creation otherwise. -/
def Answers (log : List Entry) (handled : Handled) : Prop :=
  hasBit handled.event.mask EventMoveTo = true →
    (∃ t source, history handled.event.cookie log = [.event t source] ∧
      handled.signals = [.moved source.path handled.path]) ∨
    (∀ t source, history handled.event.cookie log ≠ [.event t source]) ∧
      ∃ rest, handled.signals = .created handled.path (hasBit handled.event.mask InIsDir) :: rest

/-- Every event of the log is answered as it should be at its time. -/
def Answered (log : List Entry) : Prop :=
  ∀ l₁ t handled l₂, log = l₁ ++ .event t handled :: l₂ → Answers l₁ handled

/-- The events of a log. -/
def logEvents (log : List Entry) : List Event :=
  log.filterMap fun entry =>
    match entry with
    | .event _ handled => some handled.event
    | .expired .. => none

/-- The cookies of the `MoveFrom` events. -/
def moveCookies (events : List Event) : List UInt32 :=
  (events.filter fun event => hasBit event.mask EventMoveFrom).map Event.cookie

/-- The log fits the cookies that are stored. -/
def Fits {σ : Type} (k : KInotify σ) (log : List Entry) : Prop :=
  ∀ c, History c (k.cookies.get c) (history c log)

section

variable {log l l' : List Entry} {c : UInt32} {entry : Entry} {handled : Handled} {t : ℕ}
  {stored : Option MovedFileCookie}

theorem history_append : history c (l ++ l') = history c l ++ history c l' := List.filter_append ..

theorem history_concat_of (h : concerns c entry = true) : history c (log ++ [entry]) = history c log ++ [entry] := by
  rw [history_append, history, history, List.filter_cons_of_pos h, List.filter_nil]

theorem history_concat_of_not (h : concerns c entry = false) : history c (log ++ [entry]) = history c log := by
  rw [history_append, history, history, List.filter_cons_of_neg (by simp [h]), List.filter_nil,
    List.append_nil]

theorem answered_nil : Answered [] := by
  intro l₁ t handled l₂ h
  simp at h

theorem Answered.concat_event (h : Answered log) (hhandled : Answers log handled) :
    Answered (log ++ [.event t handled]) := by
  intro l₁ t' handled' l₂ heq
  rcases List.eq_nil_or_concat' l₂ with rfl | ⟨l₂, entry, rfl⟩
  · obtain ⟨rfl, hentry⟩ := List.append_inj' heq rfl
    cases hentry
    exact hhandled
  · have hsplit : log ++ [Entry.event t handled] = (l₁ ++ Entry.event t' handled' :: l₂) ++ [entry] := by
      rw [heq]
      simp
    exact h l₁ t' handled' l₂ (List.append_inj' hsplit rfl).1

theorem Answered.concat_expired {signals : List Signal} (h : Answered log) :
    Answered (log ++ [.expired t c signals]) := by
  intro l₁ t' handled' l₂ heq
  rcases List.eq_nil_or_concat' l₂ with rfl | ⟨l₂, entry, rfl⟩
  · cases (List.append_inj' heq rfl).2
  · have hsplit : log ++ [Entry.expired t c signals] = (l₁ ++ Entry.event t' handled' :: l₂) ++ [entry] := by
      rw [heq]
      simp
    exact h l₁ t' handled' l₂ (List.append_inj' hsplit rfl).1

/-- A cookie with a history has had its `MoveFrom`. -/
theorem History.mem_moveCookies (h : History c stored (history c log)) (hne : history c log ≠ []) :
    c ∈ moveCookies (logEvents log) := by
  have hsource : ∀ t source, Entry.event t source ∈ history c log →
      hasBit source.event.mask EventMoveFrom = true → c ∈ moveCookies (logEvents log) := by
    intro t source hmem hfrom
    obtain ⟨hlog, hconcerns⟩ := List.mem_filter.mp hmem
    simp only [concerns, Bool.and_eq_true, decide_eq_true_eq] at hconcerns
    rw [moveCookies, List.mem_map]
    exact ⟨source.event, List.mem_filter.mpr
      ⟨List.mem_filterMap.mpr ⟨_, hlog, rfl⟩, hfrom⟩, hconcerns.1⟩
  generalize hhistory : history c log = l at h hne hsource
  cases h with
  | unused => exact absurd rfl hne
  | waiting hfrom => exact hsource _ _ (List.mem_cons_self ..) hfrom.isMoveFrom
  | moved hfrom => exact hsource _ _ (List.mem_cons_self ..) hfrom.isMoveFrom
  | deleted hfrom => exact hsource _ _ (List.mem_cons_self ..) hfrom.isMoveFrom

theorem Quiet.any_isMoved {signals : List Signal} (h : Quiet signals) : signals.any isMoved = false := by
  rw [List.any_eq_false]
  intro signal hsignal hmoved
  cases signal with
  | moved a b => exact h _ hsignal a b rfl
  | _ => cases hmoved

/-- A stored cookie waits. -/
theorem History.of_some {cookie : MovedFileCookie} {entries : List Entry}
    (h : History c (some cookie) entries) :
    ∃ t source, IsSource source ∧ entries = [.event t source] ∧
      cookie = { deadline := t + 1000, path := source.path, flags := source.event.mask } := by
  cases h with
  | waiting hfrom => exact ⟨_, _, hfrom, rfl, rfl⟩

/-- A cookie that is not stored does not wait. -/
theorem History.of_none {entries : List Entry} (h : History c none entries) (t : ℕ) (source : Handled) :
    entries ≠ [.event t source] := by
  intro heq
  subst heq
  cases h

end

/-! ## The loop over the buffer -/

section

variable {σ : Type} {k k' : KInotify σ} {log : List Entry} {handled : Handled} {now : ℕ}
  {deadline : Option ℕ} {event : Event}

/-- The log fits, and its events are answered. -/
structure Logged (k : KInotify σ) (log : List Entry) : Prop where
  fits : Fits k log
  answered : Answered log

/-- The deadline of a buffer, once it is set. -/
def Due (now : ℕ) (deadline : Option ℕ) : Prop := deadline = none ∨ deadline = some (now + 1000)

theorem Due.getD (h : Due now deadline) : deadline.getD (now + 1000) = now + 1000 := by
  cases h with
  | inl h => rw [h]; rfl
  | inr h => rw [h]; rfl

theorem Fits.leaves (h : Fits k log) (hleaves : Leaves k k') : Fits k' log := by
  intro c
  rw [hleaves.cookies]
  exact h c

/-- An entry that is about no cookie. -/
theorem Fits.concat_of_not {entry : Entry} (h : Fits k log) (hnot : ∀ c, concerns c entry = false) :
    Fits k (log ++ [entry]) := by
  intro c
  rw [history_concat_of_not (hnot c)]
  exact h c

/-- `MoveFrom` stores its cookie. -/
theorem Logged.moveFrom (h : Logged k log) (hkind : HasKind handled.event EventMoveFrom)
    (hsilent : handled.signals = []) (hfresh : handled.event.cookie ∉ moveCookies (logEvents log))
    (hcookies : k'.cookies = k.cookies.insert handled.event.cookie
      { deadline := now + 1000, path := handled.path, flags := handled.event.mask }) :
    Logged k' (log ++ [.event now handled]) := by
  have hfrom : hasBit handled.event.mask EventMoveFrom = true := by
    rw [hkind.hasBit (by decide) (by decide)]
    rfl
  refine ⟨fun c => ?_, h.answered.concat_event fun hto => ?_⟩
  · rw [hcookies, Hash.get_insert]
    rcases eq_or_ne c handled.event.cookie with rfl | hne
    · have hnil : history handled.event.cookie log = [] := by
        by_contra hne
        exact hfresh ((h.fits _).mem_moveCookies hne)
      rw [Function.update_self, history_concat_of (by simp [concerns, hfrom]), hnil]
      exact .waiting ⟨hfrom, hsilent⟩
    · rw [Function.update_of_ne hne, history_concat_of_not (by simp [concerns, Ne.symm hne])]
      exact h.fits c
  · rw [hkind.hasBit_ne (by decide) EventMoveTo (by decide) (by decide)] at hto
    cases hto

/-- `MoveTo` takes the cookie that waits. -/
theorem Logged.moveTo {cookie : MovedFileCookie} (h : Logged k log)
    (hkind : HasKind handled.event EventMoveTo)
    (hstored : k.cookies.get handled.event.cookie = some cookie)
    (hsignals : handled.signals = [.moved cookie.path handled.path])
    (hcookies : k'.cookies = k.cookies.erase handled.event.cookie) :
    Logged k' (log ++ [.event now handled]) := by
  have hto : hasBit handled.event.mask EventMoveTo = true := by
    rw [hkind.hasBit (by decide) (by decide)]
    rfl
  have hhistory := h.fits handled.event.cookie
  rw [hstored] at hhistory
  obtain ⟨t, source, hfrom, hentries, hcookie⟩ := hhistory.of_some
  have hsignals' : handled.signals = [.moved source.path handled.path] := by
    rw [hsignals, hcookie]
  refine ⟨fun c => ?_, h.answered.concat_event fun _ => .inl ⟨t, source, hentries, hsignals'⟩⟩
  rw [hcookies, Hash.get_erase]
  rcases eq_or_ne c handled.event.cookie with rfl | hne
  · rw [Function.update_self, history_concat_of (by simp [concerns, hsignals', isMoved]), hentries]
    exact .moved hfrom hto hsignals'
  · rw [Function.update_of_ne hne, history_concat_of_not (by simp [concerns, Ne.symm hne])]
    exact h.fits c

/-- Everything else leaves the cookies alone. -/
theorem Logged.other (h : Logged k log) (hfrom : hasBit handled.event.mask EventMoveFrom = false)
    (hquiet : Quiet handled.signals) (hleaves : Leaves k k') (hanswers : Answers log handled) :
    Logged k' (log ++ [.event now handled]) := by
  refine ⟨(h.fits.concat_of_not fun c => ?_).leaves hleaves, h.answered.concat_event hanswers⟩
  simp [concerns, hfrom, hquiet.any_isMoved]

/-- The timer runs exactly if a cookie is stored. -/
def TimerRuns (k : KInotify σ) : Prop := k.cookieExpireTimer.active = true ↔ k.cookies.entries ≠ []

theorem updateTimer_timerRuns (k : KInotify σ) : TimerRuns (updateTimer k) := by
  rw [TimerRuns, updateTimer]
  split
  · next hnil => simp [hnil]
  · next hne =>
    split
    · simp [hne, QTimer.start]
    · next hactive => simpa [hne] using hactive

theorem updateTimer_cookies (k : KInotify σ) : (updateTimer k).cookies = k.cookies := by
  rw [updateTimer]
  split
  · rfl
  · split
    · rfl
    · rfl

variable [Inotify σ] {env : Surroundings}

theorem handleMoveTo_stored {cookie : MovedFileCookie} (hstored : k.cookies.get event.cookie = some cookie)
    (path fname : List QChar) :
    ∃ k', (∀ n, handleMoveTo env n k event path fname = some (k', [.moved cookie.path fname])) ∧
      k'.cookies = k.cookies.erase event.cookie ∧ k'.cookieExpireTimer = k.cookieExpireTimer := by
  simp only [handleMoveTo, hstored]
  refine ⟨_, fun _ => rfl, ?_⟩
  split
  · split
    · exact ⟨rfl, rfl⟩
    · exact ⟨rfl, rfl⟩
  · exact ⟨rfl, rfl⟩

/-- One event of the buffer. -/
theorem handleEvent_logged (hevent : event.WellFormed) (hdue : Due now deadline) (h : Logged k log)
    (hfresh : hasBit event.mask EventMoveFrom = true → event.cookie ∉ moveCookies (logEvents log)) :
    ∃ k' deadline' handled,
      Fuel.Returns (fun n => handleEvent env n now k deadline event) (k', deadline', handled) ∧
      Due now deadline' ∧ handled.event = event ∧ k'.cookieExpireTimer = k.cookieExpireTimer ∧
      Logged k' (log ++ [.event now handled]) := by
  have hother : hasBit event.mask EventMoveFrom = false → hasBit event.mask EventMoveTo = false →
      ∃ k' deadline' handled,
        Fuel.Returns (fun n => handleEvent env n now k deadline event) (k', deadline', handled) ∧
        Due now deadline' ∧ handled.event = event ∧ k'.cookieExpireTimer = k.cookieExpireTimer ∧
        Logged k' (log ++ [.event now handled]) := by
    intro hfrom hto
    obtain ⟨k', handled, hreturns, hleaves, rfl, hquiet⟩ :=
      @handleEvent_other σ _ env now event hfrom hto k deadline
    refine ⟨k', deadline, handled, hreturns, hdue, rfl, hleaves.timer, h.other hfrom hquiet hleaves ?_⟩
    intro hon
    rw [hto] at hon
    cases hon
  rcases hevent.kind with ⟨-, hmask⟩ | ⟨hwd, bit, hbit, hmask⟩
  · exact hother (by rw [hmask]; decide) (by rw [hmask]; decide)
  have hkind : HasKind event bit := ⟨hwd, hmask⟩
  by_cases hfrom : bit = EventMoveFrom
  · subst hfrom
    have hon : hasBit event.mask EventMoveFrom = true := by
      rw [hkind.hasBit (by decide) (by decide)]
      rfl
    refine ⟨_, _, _, ⟨0, fun n _ => handleEvent_moveFrom hkind⟩, .inr (congrArg some hdue.getD), rfl, rfl,
      h.moveFrom hkind rfl (hfresh hon) ?_⟩
    rw [hdue.getD]
  by_cases hto : bit = EventMoveTo
  · subst hto
    set path := eventPath env k event with hpath
    cases hstored : k.cookies.get event.cookie with
    | some cookie =>
      obtain ⟨k', hmove, hcookies, htimer⟩ := handleMoveTo_stored hstored path path
      refine ⟨k', deadline, ⟨event, path, [.moved cookie.path path]⟩, ⟨0, fun n _ => ?_⟩, hdue, rfl, htimer,
        h.moveTo hkind hstored rfl hcookies⟩
      change handleEvent env n now k deadline event = _
      rw [handleEvent_moveTo hkind, ← hpath, hmove]
      rfl
    | none =>
      obtain ⟨k', rest, ⟨n, hn⟩, hleaves, hquiet⟩ :=
        emitCreated_returns env k path (hasBit event.mask InIsDir)
      have hquiet' : Quiet (.created path (hasBit event.mask InIsDir) :: rest) := hquiet.cons (by simp)
      refine ⟨k', deadline, ⟨event, path, _⟩, ⟨n, fun m hm => ?_⟩, hdue, rfl, hleaves.timer,
        h.other (hkind.hasBit_ne (by decide) _ (by decide) (by decide)) hquiet' hleaves ?_⟩
      · change handleEvent env m now k deadline event = _
        have hcreated : emitCreated env m k path (hasBit event.mask InIsDir) = _ := hn m hm
        rw [handleEvent_moveTo hkind, ← hpath, handleMoveTo, hstored]
        dsimp only
        rw [hcreated]
        rfl
      · intro _
        have hhistory := h.fits event.cookie
        rw [hstored] at hhistory
        exact .inr ⟨hhistory.of_none, rest, rfl⟩
  · exact hother (hkind.hasBit_ne hbit _ (by decide) hfrom) (hkind.hasBit_ne hbit _ (by decide) hto)

theorem moveCookies_append (events events' : List Event) :
    moveCookies (events ++ events') = moveCookies events ++ moveCookies events' := by
  rw [moveCookies, List.filter_append, List.map_append]
  rfl

theorem logEvents_concat_event (log : List Entry) (t : ℕ) (handled : Handled) :
    logEvents (log ++ [.event t handled]) = logEvents log ++ [handled.event] := List.filterMap_append ..

/-- The events of a buffer. -/
theorem dispatch_logged {events : List Event} (hevents : ∀ event ∈ events, event.WellFormed)
    (hdue : Due now deadline) (h : Logged k log)
    (hdistinct : (moveCookies (logEvents log ++ events)).Nodup) :
    ∃ k' trace, Fuel.Returns (fun n => dispatch env n now k deadline events) (k', trace) ∧
      trace.map Handled.event = events ∧ k'.cookieExpireTimer = k.cookieExpireTimer ∧
      Logged k' (log ++ trace.map (.event now)) := by
  induction events generalizing k deadline log with
  | nil =>
    refine ⟨k, [], .pure _, rfl, rfl, ?_⟩
    rw [List.map_nil, List.append_nil]
    exact h
  | cons event events ih =>
    have hfresh : hasBit event.mask EventMoveFrom = true → event.cookie ∉ moveCookies (logEvents log) := by
      intro hfrom hmem
      have hmem' : event.cookie ∈ moveCookies (event :: events) :=
        List.mem_map.mpr ⟨event, List.mem_filter.mpr ⟨List.mem_cons_self .., hfrom⟩, rfl⟩
      rw [moveCookies_append] at hdistinct
      exact (List.nodup_append.mp hdistinct).2.2 _ hmem _ hmem' rfl
    obtain ⟨k₁, deadline₁, handled, hhandle, hdue₁, hhandled, htimer₁, h₁⟩ :=
      @handleEvent_logged σ k log now deadline event _ env (hevents event (List.mem_cons_self ..)) hdue h hfresh
    have hdistinct₁ : (moveCookies (logEvents (log ++ [.event now handled]) ++ events)).Nodup := by
      rw [logEvents_concat_event, hhandled, List.append_assoc]
      exact hdistinct
    obtain ⟨k₂, trace, hdispatch, htrace, htimer₂, h₂⟩ :=
      ih (fun event hevent => hevents event (List.mem_cons_of_mem _ hevent)) hdue₁ h₁ hdistinct₁
    refine ⟨k₂, handled :: trace, hhandle.bind (hdispatch.map _), ?_, htimer₂.trans htimer₁, ?_⟩
    · rw [List.map_cons, hhandled, htrace]
    · rw [List.map_cons, List.append_cons]
      exact h₂

/-- A buffer. -/
theorem processEventBuffer_logged {packets : List Packet} (hpackets : ∀ packet ∈ packets, packet.WellFormed)
    (h : Logged k log) (hdistinct : (moveCookies (logEvents log ++ packets.map Packet.event)).Nodup) :
    ∃ k' trace, Fuel.Returns (fun n => processEventBuffer env n now k (packets.flatMap Packet.bytes)) (k', trace) ∧
      trace.map Handled.event = packets.map Packet.event ∧ TimerRuns k' ∧
      Logged k' (log ++ trace.map (.event now)) := by
  have hevents : ∀ event ∈ packets.map Packet.event, event.WellFormed := by
    intro event hevent
    obtain ⟨packet, hpacket, rfl⟩ := List.mem_map.mp hevent
    exact (hpackets packet hpacket).event
  obtain ⟨k', trace, hdispatch, htrace, -, hlogged⟩ :=
    @dispatch_logged σ k log now none _ env _ hevents (Or.inl rfl) h hdistinct
  refine ⟨updateTimer k', trace, ?_, htrace, updateTimer_timerRuns k', ?_⟩
  · have hreturns := hdispatch.map fun r : KInotify σ × List Handled => (updateTimer r.1, r.2)
    simp only [processEventBuffer, processLoop_packets env _ hpackets]
    exact hreturns
  · refine ⟨fun c => ?_, hlogged.answered⟩
    rw [updateTimer_cookies]
    exact hlogged.fits c

end

/-! ## The sweep -/

section

variable {σ : Type} {k : KInotify σ} {log : List Entry} {now : ℕ}

/-- What a sweep logs. -/
def sweptEntries (now : ℕ) (trace : List (UInt32 × List Signal)) : List Entry :=
  trace.map fun (cookie, signals) => .expired now cookie signals

theorem logEvents_sweptEntries (log : List Entry) (now : ℕ) (trace : List (UInt32 × List Signal)) :
    logEvents (log ++ sweptEntries now trace) = logEvents log := by
  have hnone : logEvents (sweptEntries now trace) = [] := by
    rw [logEvents, sweptEntries, List.filterMap_map]
    exact List.filterMap_eq_nil_iff.mpr fun _ _ => rfl
  have happend : logEvents (log ++ sweptEntries now trace) = logEvents log ++ logEvents (sweptEntries now trace) :=
    List.filterMap_append ..
  rw [happend, hnone, List.append_nil]

/-- A cookie whose deadline has passed is swept. -/
theorem Logged.expired {c : UInt32} {cookie : MovedFileCookie} {k' : KInotify σ} (h : Logged k log)
    (hstored : k.cookies.get c = some cookie) (hlate : cookie.deadline < now)
    (hcookies : k'.cookies = k.cookies.erase c) :
    Logged k' (log ++ [.expired now c [.deleted cookie.path (hasBit cookie.flags InIsDir)]]) := by
  refine ⟨fun c' => ?_, h.answered.concat_expired⟩
  rw [hcookies, Hash.get_erase]
  rcases eq_or_ne c' c with rfl | hne
  · have hhistory := h.fits c'
    rw [hstored] at hhistory
    obtain ⟨t, source, hfrom, hentries, rfl⟩ := hhistory.of_some
    rw [Function.update_self, history_concat_of (by simp [concerns]), hentries]
    exact .deleted hfrom hlate
  · rw [Function.update_of_ne hne, history_concat_of_not (by simp [concerns, Ne.symm hne])]
    exact h.fits c'

variable [Inotify σ]

/-- The loop, on entries that are stored: those that are late are swept, and nothing else. -/
theorem clearCookiesLoop_logged {entries : List (Σ _ : UInt32, MovedFileCookie)}
    (hstored : ∀ e ∈ entries, k.cookies.get e.1 = some e.2) (hkeys : entries.NodupKeys) (h : Logged k log) :
    Logged (clearCookiesLoop now k entries).1
        (log ++ sweptEntries now (clearCookiesLoop now k entries).2) ∧
      ∀ c cookie, (clearCookiesLoop now k entries).1.cookies.get c = some cookie →
        k.cookies.get c = some cookie ∧ (⟨c, cookie⟩ ∈ entries → now ≤ cookie.deadline) := by
  induction entries generalizing k log with
  | nil =>
    refine ⟨?_, fun c cookie hget => ⟨hget, fun hmem => absurd hmem List.not_mem_nil⟩⟩
    rw [clearCookiesLoop, sweptEntries, List.map_nil, List.append_nil]
    exact h
  | cons e entries ih =>
    obtain ⟨c, cookie⟩ := e
    obtain ⟨hfresh, hkeys⟩ := List.nodupKeys_cons.mp hkeys
    have hhead := hstored _ (List.mem_cons_self ..)
    rw [clearCookiesLoop]
    split
    · next hlate =>
      set k₁ : KInotify σ := { removeWatch k cookie.path with cookies := k.cookies.erase c } with hk₁
      have hcookies : k₁.cookies = k.cookies.erase c := rfl
      have hstored₁ : ∀ e ∈ entries, k₁.cookies.get e.1 = some e.2 := by
        intro e hmem
        have hne : e.1 ≠ c := fun heq => hfresh (List.mem_map.mpr ⟨e, hmem, heq⟩)
        rw [hcookies, Hash.get_erase, Function.update_of_ne hne]
        exact hstored e (List.mem_cons_of_mem _ hmem)
      obtain ⟨hlogged, hleft⟩ := ih hstored₁ hkeys (h.expired hhead hlate hcookies)
      constructor
      · rw [List.append_assoc] at hlogged
        exact hlogged
      · intro c' cookie' hget
        obtain ⟨hget', hdue⟩ := hleft c' cookie' hget
        rw [hcookies, Hash.get_erase] at hget'
        rcases eq_or_ne c' c with rfl | hne
        · rw [Function.update_self] at hget'
          cases hget'
        · rw [Function.update_of_ne hne] at hget'
          refine ⟨hget', fun hmem => ?_⟩
          cases hmem with
          | head => exact absurd rfl hne
          | tail _ hmem => exact hdue hmem
    · next hearly =>
      obtain ⟨hlogged, hleft⟩ := ih (fun e hmem => hstored e (List.mem_cons_of_mem _ hmem)) hkeys h
      refine ⟨hlogged, fun c' cookie' hget => ?_⟩
      obtain ⟨hget', hdue⟩ := hleft c' cookie' hget
      refine ⟨hget', fun hmem => ?_⟩
      cases hmem with
      | head => exact Nat.le_of_not_lt hearly
      | tail _ hmem => exact hdue hmem

theorem clearCookiesLoop_timer (now : ℕ) (k : KInotify σ) (entries : List (Σ _ : UInt32, MovedFileCookie)) :
    (clearCookiesLoop now k entries).1.cookieExpireTimer = k.cookieExpireTimer := by
  induction entries generalizing k with
  | nil => rfl
  | cons e entries ih =>
    rw [clearCookiesLoop]
    split
    · exact ih _
    · exact ih _

/-- After the timer has fired, the deadline of what is stored has not passed. -/
theorem slotClearCookies_logged (now : ℕ) (h : Logged k log) :
    Logged (slotClearCookies now k).1 (log ++ sweptEntries now (slotClearCookies now k).2) ∧
      TimerRuns (slotClearCookies now k).1 ∧
      ∀ c cookie, (slotClearCookies now k).1.cookies.get c = some cookie → now ≤ cookie.deadline := by
  set k₀ : KInotify σ := { k with cookieExpireTimer := { k.cookieExpireTimer with active := false } } with hk₀
  have h₀ : Logged k₀ log := ⟨h.fits, h.answered⟩
  obtain ⟨hlogged, hleft⟩ := @clearCookiesLoop_logged _ k₀ _ now _ k₀.cookies.entries
    (fun e hmem => Hash.mem_entries.mp hmem) k₀.cookies.nodupKeys h₀
  have htimer := clearCookiesLoop_timer now k₀ k₀.cookies.entries
  have hearly : ∀ c cookie, (clearCookiesLoop now k₀ k₀.cookies.entries).1.cookies.get c = some cookie →
      now ≤ cookie.deadline := by
    intro c cookie hget
    obtain ⟨hbefore, hdue⟩ := hleft c cookie hget
    exact hdue (Hash.mem_entries.mpr hbefore)
  rw [slotClearCookies]
  dsimp only
  rw [← hk₀]
  split
  · next hne => exact ⟨⟨hlogged.fits, hlogged.answered⟩, by simp [TimerRuns, QTimer.start, hne], hearly⟩
  · next hnil =>
    rw [not_not] at hnil
    refine ⟨hlogged, ?_, hearly⟩
    rw [TimerRuns, htimer]
    exact ⟨fun hactive => absurd hactive Bool.false_ne_true, fun hne => absurd hnil hne⟩

end

/-! ## Runs -/

section

variable {σ : Type} [Inotify σ]

/-- Runs from `k₀` with the events that were read and the log: buffers are read, the timer fires while
it is active, and watches change in between. -/
inductive Run (k₀ : KInotify σ) : List Event → KInotify σ → List Entry → Prop
  | nil : Run k₀ [] k₀ []
  /-- `processEventBuffer` -/
  | read {events : List Event} {k k' : KInotify σ} {log : List Entry} {env : Surroundings} {now : ℕ}
      {packets : List Packet} {trace : List Handled} (hrun : Run k₀ events k log)
      (hpackets : ∀ packet ∈ packets, packet.WellFormed)
      (hreturns : Fuel.Returns (fun n => processEventBuffer env n now k (packets.flatMap Packet.bytes))
        (k', trace)) :
      Run k₀ (events ++ packets.map Packet.event) k' (log ++ trace.map (.event now))
  /-- `slotClearCookies` -/
  | timeout {events : List Event} {k : KInotify σ} {log : List Entry} (now : ℕ) (hrun : Run k₀ events k log)
      (hactive : k.cookieExpireTimer.active = true) :
      Run k₀ events (slotClearCookies now k).1 (log ++ sweptEntries now (slotClearCookies now k).2)
  /-- any other method -/
  | elsewhere {events : List Event} {k k' : KInotify σ} {log : List Entry} (hrun : Run k₀ events k log)
      (hleaves : Leaves k k') : Run k₀ events k' log

variable {k₀ k : KInotify σ} {events : List Event} {log : List Entry}

theorem Run.logged (hcookies : k₀.cookies = ∅) (htimer : k₀.cookieExpireTimer.active = false)
    (hrun : Run k₀ events k log) (hdistinct : (moveCookies events).Nodup) :
    logEvents log = events ∧ Logged k log ∧ TimerRuns k := by
  induction hrun with
  | nil =>
    refine ⟨rfl, ⟨fun c => ?_, answered_nil⟩, ?_⟩
    · rw [hcookies, Hash.get_empty]
      exact .unused
    · rw [TimerRuns, htimer, hcookies]
      simp
  | @read events k k' log env now packets trace _ hpackets hreturns ih =>
    have hdistinct' := hdistinct
    rw [moveCookies_append] at hdistinct'
    obtain ⟨hevents, hlogged, -⟩ := ih (List.nodup_append.mp hdistinct').1
    rw [← hevents] at hdistinct
    obtain ⟨k₁, trace₁, hreturns₁, htrace, htimer₁, hlogged₁⟩ :=
      @processEventBuffer_logged _ k log now _ env _ hpackets hlogged hdistinct
    cases hreturns.unique hreturns₁
    refine ⟨?_, hlogged₁, htimer₁⟩
    have happend : logEvents (log ++ trace.map (.event now)) = logEvents log ++ trace.map Handled.event := by
      rw [logEvents, List.filterMap_append, List.filterMap_map]
      exact congrArg _ (congrFun List.filterMap_eq_map' trace)
    rw [happend, hevents, htrace]
  | timeout now _ _ ih =>
    obtain ⟨hevents, hlogged, -⟩ := ih hdistinct
    obtain ⟨hlogged', htimer', -⟩ := slotClearCookies_logged now hlogged
    exact ⟨(logEvents_sweptEntries ..).trans hevents, hlogged', htimer'⟩
  | elsewhere _ hleaves ih =>
    obtain ⟨hevents, hlogged, htimer'⟩ := ih hdistinct
    refine ⟨hevents, ⟨hlogged.fits.leaves hleaves, hlogged.answered⟩, ?_⟩
    rw [TimerRuns, hleaves.timer, hleaves.cookies]
    exact htimer'

/-- Every event is dispatched once and in order, whatever the buffers are; each `MoveFrom` becomes one
of `moved` and `deleted` or still waits, with the timer running, which deletes it when it is late. -/
theorem move_pairing (hcookies : k₀.cookies = ∅) (htimer : k₀.cookieExpireTimer.active = false)
    (hrun : Run k₀ events k log) (hdistinct : (moveCookies events).Nodup) :
    logEvents log = events ∧ (∀ c, History c (k.cookies.get c) (history c log)) ∧ Answered log ∧
      TimerRuns k ∧
      (∀ (env : Surroundings) (now : ℕ) (packets : List Packet), (∀ packet ∈ packets, packet.WellFormed) →
        (moveCookies (events ++ packets.map Packet.event)).Nodup →
        ∃ k' trace, Fuel.Returns (fun n => processEventBuffer env n now k (packets.flatMap Packet.bytes))
          (k', trace) ∧ trace.map Handled.event = packets.map Packet.event) ∧
      ∀ now c t source, history c (log ++ sweptEntries now (slotClearCookies now k).2) = [.event t source] →
        now ≤ t + 1000 := by
  obtain ⟨hevents, hlogged, htimer'⟩ := hrun.logged hcookies htimer hdistinct
  refine ⟨hevents, hlogged.fits, hlogged.answered, htimer', ?_, ?_⟩
  · intro env now packets hpackets hdistinct'
    rw [← hevents] at hdistinct'
    obtain ⟨k', trace, hreturns, htrace, -⟩ := processEventBuffer_logged hpackets hlogged hdistinct'
    exact ⟨k', trace, hreturns, htrace⟩
  · intro now c t source hhistory
    obtain ⟨hlogged', -, hearly⟩ := slotClearCookies_logged now hlogged
    have hfits := hlogged'.fits c
    rw [hhistory] at hfits
    generalize hstored : (slotClearCookies now k).1.cookies.get c = stored at hfits
    cases hfits with
    | waiting _ => exact hearly c _ hstored

end

/-! ### A file that is renamed -/

/-- A kernel that numbers the watches. -/
structure Numbering where
  /-- the next descriptor -/
  next : ℤ

instance : Inotify Numbering where
  addWatch s _ _ := (⟨s.next + 1⟩, .ok s.next)
  rmWatch s _ := s

/-- `/d/` is watched. -/
def watchingD : KInotify Numbering where
  config := none
  inotify := ⟨2⟩
  watchPathHash := AList.insert (1 : ℤ) [47, 100, 47] ∅
  pathWatchHash := AList.insert [47, 100, 47] (1 : ℤ) ∅

/-- `/d/a` is moved away. -/
def moveFromA : Event := { wd := 1, mask := EventMoveFrom, cookie := 7, name := [97] }

/-- It comes to `/d/b`. -/
def moveToB : Event := { wd := 1, mask := EventMoveTo, cookie := 7, name := [98] }

theorem nothing_bounded (path : List QChar) (_ : 0 ≤ path.length) : (fun _ => [] : Listing) path = [] := rfl

theorem nothing_longer (path : List QChar) (info : FileInfo) (h : info ∈ (fun _ => [] : Listing) path) :
    path.length < info.filePath.length := absurd h List.not_mem_nil

/-- Every directory is empty. -/
def noFiles : Surroundings where
  listing _ := []
  decodeName name := name.map fun b => b.toUInt16
  depth := 0
  bounded := nothing_bounded
  longer := nothing_longer

/-- The halves are read one after the other. -/
theorem move_pairing_fileA : ∃ k log, Run watchingD [moveFromA, moveToB] k log ∧
    logEvents log = [moveFromA, moveToB] ∧ (∀ c, History c (k.cookies.get c) (history c log)) ∧
    Answered log ∧ TimerRuns k := by
  have hsource : ∀ packet ∈ [Packet.mk moveFromA 0], packet.WellFormed := by
    rw [List.forall_mem_singleton]
    exact ⟨⟨by decide, .inr ⟨by decide, EventMoveFrom, by decide, .inl rfl⟩, by decide, by decide⟩, by decide⟩
  have htarget : ∀ packet ∈ [Packet.mk moveToB 0], packet.WellFormed := by
    rw [List.forall_mem_singleton]
    exact ⟨⟨by decide, .inr ⟨by decide, EventMoveTo, by decide, .inl rfl⟩, by decide, by decide⟩, by decide⟩
  obtain ⟨-, -, -, -, hread₀, -⟩ := move_pairing rfl rfl (@Run.nil _ _ watchingD) (by decide)
  obtain ⟨k₁, trace₁, hreturns₁, -⟩ := hread₀ noFiles 0 _ hsource (by decide)
  have hrun₁ := Run.nil.read hsource hreturns₁
  obtain ⟨-, -, -, -, hread₁, -⟩ := move_pairing rfl rfl hrun₁ (by decide)
  obtain ⟨k₂, trace₂, hreturns₂, -⟩ := hread₁ noFiles 10 _ htarget (by decide)
  have hrun₂ := hrun₁.read htarget hreturns₂
  obtain ⟨hevents, hhistory, hanswered, htimer, -, -⟩ := move_pairing rfl rfl hrun₂ (by decide)
  exact ⟨k₂, _, hrun₂, hevents, hhistory, hanswered, htimer⟩

end KInotify

end Baloo
