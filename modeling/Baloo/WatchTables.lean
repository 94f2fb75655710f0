import Baloo.Lib.Inverse
import Baloo.MovePairing
import Baloo.WatchUpdate
import Mathlib.Logic.Relation

/-!
# The two tables of watches

`watchPathHash` goes from descriptors to paths and `pathWatchHash` back. They are written together in five places:
a watch is added, watches are removed by their descriptor or below a path, and a directory that is moved gets
its new path. Removals keep the tables inverse to each other. A watch that is added and a directory that is
moved do so exactly if the new entry does not collide with an old one (`addWatch_inverse_iff`,
`rekey_inverse_iff`).

So the tables stay inverse in every run without collisions (`tables_inverse`); and they do not when a directory
replaces an empty one, because the watch of the latter keeps its path until its own event comes
(`replaced_directory_unwatched`).
-/

namespace Baloo

open Relation (ReflTransGen)
open FilteredDirIterator (Listing)

namespace KInotify

variable {σ : Type} [Inotify σ] {k k' : KInotify σ} {path : List QChar}

/-- The two tables are inverse to each other, and no path is empty. -/
structure TablesInverse (k : KInotify σ) : Prop where
  /-- inverse tables -/
  inverse : Inverse k.watchPathHash.get k.pathWatchHash.get
  /-- paths end with a slash -/
  nonempty : k.pathWatchHash.get [] = none

omit [Inotify σ] in
theorem TablesInverse.same (h : TablesInverse k) (hpaths : k'.watchPathHash = k.watchPathHash)
    (hwds : k'.pathWatchHash = k.pathWatchHash) : TablesInverse k' where
  inverse := by rw [hpaths, hwds]; exact h.inverse
  nonempty := by rw [hwds]; exact h.nonempty

theorem normalizeTrailingSlash_ne_nil (path : List QChar) : normalizeTrailingSlash path ≠ [] := by
  rw [normalizeTrailingSlash]
  split
  · next h =>
    rintro rfl
    cases h
  · simp

/-! ## Adding a watch -/

/-- If the kernel gives a descriptor for the path, then the descriptor has this path already, or neither of the
two is in the tables. -/
def WatchFits (k : KInotify σ) (path : List QChar) : Prop :=
  ∀ wd, (Inotify.addWatch k.inotify (normalizeTrailingSlash path)
      (k.mode ||| k.flags ||| EventUnmount ||| FlagExclUnlink)).2 = .ok wd →
    k.watchPathHash.get wd = some (normalizeTrailingSlash path) ∨
      k.watchPathHash.get wd = none ∧ k.pathWatchHash.get (normalizeTrailingSlash path) = none

/-- **A watch that is added** keeps the tables inverse exactly if it fits. -/
theorem addWatch_inverse_iff (h : TablesInverse k) (path : List QChar) :
    TablesInverse (Private.addWatch k path).1 ↔ WatchFits k path := by
  rcases hadd : Inotify.addWatch k.inotify (normalizeTrailingSlash path)
    (k.mode ||| k.flags ||| EventUnmount ||| FlagExclUnlink) with ⟨inotify, errno | wd⟩
  · have hfits : WatchFits k path := by
      intro wd hwd
      rw [hadd] at hwd
      cases hwd
    refine ⟨fun _ => hfits, fun _ => ?_⟩
    simp only [Private.addWatch, hadd]
    split
    · exact h.same rfl rfl
    · exact h.same rfl rfl
  · have heq : (Private.addWatch k path).1 = { k with
        inotify := inotify
        watchPathHash := k.watchPathHash.insert wd (normalizeTrailingSlash path)
        pathWatchHash := k.pathWatchHash.insert (normalizeTrailingSlash path) wd } := by
      simp only [Private.addWatch, hadd]
    have hfits : WatchFits k path ↔ k.watchPathHash.get wd = some (normalizeTrailingSlash path) ∨
        k.watchPathHash.get wd = none ∧ k.pathWatchHash.get (normalizeTrailingSlash path) = none := by
      rw [WatchFits, hadd]
      refine ⟨fun hall => hall wd rfl, fun hone wd' hwd' => ?_⟩
      cases hwd'
      exact hone
    rw [heq, hfits, ← h.inverse.insert_iff, ← Hash.get_insert, ← Hash.get_insert]
    refine ⟨fun h' => h'.inverse, fun h' => ⟨h', ?_⟩⟩
    rw [Hash.get_insert, Function.update_of_ne (normalizeTrailingSlash_ne_nil path).symm]
    exact h.nonempty

/-! ## Removing watches -/

/-- A watch that is removed by its descriptor. -/
theorem TablesInverse.removeDescriptor (h : TablesInverse k) (wd : ℤ) : TablesInverse (Private.removeWatch k wd) := by
  rcases hget : k.watchPathHash.get wd with _ | p
  · have heq : Function.update k.watchPathHash.get wd none = k.watchPathHash.get :=
      Function.update_eq_self_iff.mpr hget.symm
    have heq' : Function.update k.pathWatchHash.get [] none = k.pathWatchHash.get :=
      Function.update_eq_self_iff.mpr h.nonempty.symm
    refine ⟨?_, ?_⟩
    · simp only [Private.removeWatch, hget, Option.getD_none, Hash.get_erase, heq, heq']
      exact h.inverse
    · simp only [Private.removeWatch, hget, Option.getD_none, Hash.get_erase, heq']
      exact h.nonempty
  · refine ⟨?_, ?_⟩
    · simp only [Private.removeWatch, hget, Option.getD_some, Hash.get_erase]
      exact h.inverse.erase hget
    · simp only [Private.removeWatch, Hash.get_erase, Function.update_apply, h.nonempty, ite_self]

/-- Watches that are removed below a path. -/
theorem TablesInverse.removeWatch (h : TablesInverse k) (path : List QChar) : TablesInverse (k.removeWatch path) := by
  have hpaths : ∀ wd, (k.removeWatch path).watchPathHash.get wd =
      (k.watchPathHash.get wd).filter fun p => !path.isPrefixOf p := fun wd => Hash.get_filter _ _ wd
  have hwds : ∀ p, (k.removeWatch path).pathWatchHash.get p =
      if path.isPrefixOf p = true then none else k.pathWatchHash.get p := by
    intro p
    refine (foldl_erase _ _ p).trans ?_
    rcases hget : k.pathWatchHash.get p with _ | wd
    · simp
    · have hmem : ⟨wd, p⟩ ∈ k.watchPathHash.entries := Hash.mem_entries.mpr ((h.inverse wd p).mpr hget)
      have hiff : (∃ it ∈ k.watchPathHash.entries.filter fun it => path.isPrefixOf it.2, it.2 = p) ↔
          path.isPrefixOf p = true := by
        constructor
        · rintro ⟨it, hit, rfl⟩
          exact (List.mem_filter.mp hit).2
        · exact fun hpre => ⟨⟨wd, p⟩, List.mem_filter.mpr ⟨hmem, hpre⟩, rfl⟩
      simp only [hiff]
  refine ⟨fun wd p => ?_, ?_⟩
  · rw [hpaths, hwds, Option.filter_eq_some_iff, h.inverse]
    split
    · next hpre => simp [hpre]
    · next hpre => simp [hpre]
  · rw [hwds, h.nonempty, ite_self]

/-! ## A directory gets its new path -/

/-- The entry of a directory under a new path. -/
def rekey (k : KInotify σ) (oldPath path : List QChar) (wd : ℤ) : KInotify σ :=
  { k with
    watchPathHash := k.watchPathHash.insert wd path
    pathWatchHash := (k.pathWatchHash.erase oldPath).insert path wd }

omit [Inotify σ] in
/-- **A directory that is moved** keeps the tables inverse exactly if nothing is watched under the new path. -/
theorem rekey_inverse_iff (h : TablesInverse k) {oldPath : List QChar} {wd : ℤ} (hpath : path ≠ [])
    (hold : k.pathWatchHash.get oldPath = some wd) :
    TablesInverse (rekey k oldPath path wd) ↔ path = oldPath ∨ k.pathWatchHash.get path = none := by
  rw [← h.inverse.rekey_iff hold, ← Hash.get_insert, ← Hash.get_erase, ← Hash.get_insert]
  refine ⟨fun h' => h'.inverse, fun h' => ⟨h', ?_⟩⟩
  change Hash.get ((k.pathWatchHash.erase oldPath).insert path wd) [] = none
  rw [Hash.get_insert, Function.update_of_ne hpath.symm, Hash.get_erase, Function.update_apply, h.nonempty, ite_self]

/-! ## Watches for many directories -/

/-- Every watch that a batch adds fits. -/
def BatchFits (listing : Listing) : ℕ → KInotify σ → Prop
  | 0, _ => True
  | n + 1, k =>
    if k.userLimitReachedSignaled then True
    else
      match (k.dirIter.map fun it => it.next listing).filter fun (_, path) => path ≠ [] with
      | none =>
        match k.paths with
        | path :: paths => BatchFits listing n { k with
            dirIter := some (.construct listing k.config path .dirsOnly), paths := paths }
        | [] => True
      | some (it, _) => WatchFits { k with dirIter := some it } it.filePath ∧
          BatchFits listing n (Private.addWatch { k with dirIter := some it } it.filePath).1

/-- A batch of the installation. -/
theorem TablesInverse.addWatchesLoop {listing : Listing} {n : ℕ} (h : TablesInverse k)
    (hfits : BatchFits listing n k) : TablesInverse (Private.addWatchesLoop listing n k).1 := by
  induction n generalizing k with
  | zero => exact h
  | succ n ih =>
    rw [BatchFits] at hfits
    rw [Private.addWatchesLoop]
    split
    · exact h
    · next hlimit =>
      rw [if_neg hlimit] at hfits
      rcases hstep : (k.dirIter.map fun it => it.next listing).filter (fun (_, path) => path ≠ []) with
        _ | ⟨it, d⟩
      · rw [hstep] at hfits ⊢
        dsimp only at hfits ⊢
        rcases hpaths : k.paths with _ | ⟨path, paths⟩
        · exact h.same rfl rfl
        · rw [hpaths] at hfits
          have htake : TablesInverse { k with
              dirIter := some (.construct listing k.config path .dirsOnly), paths := paths } := h.same rfl rfl
          exact ih htake hfits
      · rw [hstep] at hfits ⊢
        obtain ⟨hfirst, hrest⟩ := hfits
        have hiter : TablesInverse { k with dirIter := some it } := h.same rfl rfl
        exact ih ((addWatch_inverse_iff hiter _).mpr hfirst) hrest

theorem TablesInverse.addWatches {listing : Listing} (h : TablesInverse k) (hfits : BatchFits listing 1000 k) :
    TablesInverse (Private.addWatches listing k).1 := by
  have hloop := h.addWatchesLoop hfits
  rw [Private.addWatches]
  dsimp only
  split
  · exact hloop
  · split
    · exact hloop.same rfl rfl
    · exact hloop

/-- Every watch fits that is added in the loop of `handleDirCreated`. -/
def DirLoopFits (listing : Listing) : ℕ → KInotify σ → FilteredDirIterator → Prop
  | 0, _, _ => True
  | n + 1, k, it =>
    let (it, path) := it.next listing
    if path = [] then True
    else if it.fileInfo.any fun info => info.isDir then
      WatchFits k it.filePath ∧ DirLoopFits listing n (Private.addWatch k it.filePath).1 it
    else DirLoopFits listing n k it

/-- Every watch fits that is added for a new directory. -/
def DirFits (listing : Listing) (fuel : ℕ) (k : KInotify σ) (path : List QChar) : Prop :=
  let (it, first) := (FilteredDirIterator.construct listing k.config path .filesAndDirs).next listing
  if first ≠ [] then
    WatchFits k it.filePath ∧ DirLoopFits listing fuel (Private.addWatch k it.filePath).1 it
  else DirLoopFits listing fuel k it

theorem TablesInverse.handleDirCreatedLoop {listing : Listing} {n : ℕ} {it : FilteredDirIterator}
    {signals : List Signal} (h : TablesInverse k) (hfits : DirLoopFits listing n k it)
    (hloop : KInotify.handleDirCreatedLoop listing n k it = some (k', signals)) : TablesInverse k' := by
  induction n generalizing k it signals with
  | zero => cases hloop
  | succ n ih =>
    rw [KInotify.handleDirCreatedLoop] at hloop
    rw [DirLoopFits] at hfits
    dsimp only at hloop hfits
    split at hloop
    · cases hloop
      exact h
    · next hnext =>
      rw [if_neg hnext] at hfits
      obtain ⟨⟨k₁, rest⟩, hrest, heq⟩ := Option.map_eq_some_iff.mp hloop
      obtain ⟨rfl, -⟩ := Prod.mk.inj heq
      split at hfits
      · next hdir =>
        rw [if_pos hdir] at hrest
        exact ih ((addWatch_inverse_iff h _).mpr hfits.1) hfits.2 hrest
      · next hdir =>
        rw [if_neg hdir] at hrest
        exact ih h hfits hrest

theorem TablesInverse.handleDirCreated {listing : Listing} {fuel : ℕ} {signals : List Signal}
    (h : TablesInverse k) (hfits : DirFits listing fuel k path)
    (hcreated : KInotify.handleDirCreated listing fuel k path = some (k', signals)) : TablesInverse k' := by
  rw [KInotify.handleDirCreated] at hcreated
  rw [DirFits] at hfits
  dsimp only at hcreated hfits
  obtain ⟨⟨k₁, rest⟩, hrest, heq⟩ := Option.map_eq_some_iff.mp hcreated
  obtain ⟨rfl, -⟩ := Prod.mk.inj heq
  split at hfits
  · next hfirst =>
    rw [if_pos hfirst] at hrest
    exact ((addWatch_inverse_iff h _).mpr hfits.1).handleDirCreatedLoop hfits.2 hrest
  · next hfirst =>
    rw [if_neg hfirst] at hrest
    exact h.handleDirCreatedLoop hfits hrest

/-! ## Events -/

section

variable {env : Surroundings} {fuel now : ℕ} {deadline deadline' : Option ℕ} {event : Event} {handled : Handled}

/-- What an event does fits: the watches for a new directory, and the new path of a directory that is moved,
under which nothing is watched, unless it is the old one. -/
def EventFits (env : Surroundings) (fuel : ℕ) (k : KInotify σ) (event : Event) : Prop :=
  hasBit event.mask InIsDir = true →
    (hasBit event.mask EventCreate = true → DirFits env.listing fuel k (eventPath env k event)) ∧
    (hasBit event.mask EventMoveTo = true →
      match k.cookies.get event.cookie with
      | some cookie => ∀ wd, k.pathWatchHash.get cookie.path = some wd →
          eventPath env k event = cookie.path ∨ k.pathWatchHash.get (eventPath env k event) = none
      | none => DirFits env.listing fuel k (eventPath env k event))

theorem TablesInverse.emitCreated {isDir : Bool} {signals : List Signal} (h : TablesInverse k)
    (hfits : isDir = true → DirFits env.listing fuel k path)
    (hcreated : KInotify.emitCreated env fuel k path isDir = some (k', signals)) : TablesInverse k' := by
  rw [KInotify.emitCreated] at hcreated
  split at hcreated
  · next hdir =>
    obtain ⟨⟨k₁, rest⟩, hrest, heq⟩ := Option.map_eq_some_iff.mp hcreated
    obtain ⟨rfl, -⟩ := Prod.mk.inj heq
    exact h.handleDirCreated (hfits hdir) hrest
  · cases hcreated
    exact h

/-- The second half of a rename. -/
theorem TablesInverse.moveTo (h : TablesInverse k) (hkind : HasKind event EventMoveTo)
    (hfits : EventFits env fuel k event)
    (hevent : handleEvent env fuel now k deadline event = some (k', deadline', handled)) : TablesInverse k' := by
  have hto : hasBit event.mask EventMoveTo = true := hkind.hasBit (by decide) (by decide)
  rw [handleEvent_moveTo hkind] at hevent
  obtain ⟨⟨k₁, signals⟩, hmove, heq⟩ := Option.map_eq_some_iff.mp hevent
  obtain ⟨rfl, -⟩ := Prod.mk.inj heq
  rw [handleMoveTo] at hmove
  dsimp only at hmove
  rcases hcookie : k.cookies.get event.cookie with _ | cookie
  · rw [hcookie] at hmove
    refine h.emitCreated (fun hdir => ?_) hmove
    have hnew := (hfits hdir).2 hto
    rw [hcookie] at hnew
    exact hnew
  · rw [hcookie] at hmove
    dsimp only at hmove
    rcases hold : k.pathWatchHash.get cookie.path with _ | wd
    · rw [hold] at hmove
      cases hmove
      exact h.same rfl rfl
    · rw [hold] at hmove
      dsimp only at hmove
      split at hmove
      · next hdir =>
        cases hmove
        have hnew := (hfits hdir).2 hto
        rw [hcookie] at hnew
        have hself : hasBit event.mask (EventDeleteSelf ||| EventMoveSelf) = false := by
          rw [hasBit_or, hkind.hasBit (by decide) (by decide), hkind.hasBit (by decide) (by decide)]
          decide
        have hpath : eventPath env k event ≠ [] := by
          rw [eventPath, hself, hdir]
          exact normalizeTrailingSlash_ne_nil _
        exact ((rekey_inverse_iff h hpath hold).mpr (hnew wd hold)).same rfl rfl
      · cases hmove
        exact h.same rfl rfl

/-- Any other event. -/
theorem TablesInverse.otherEvent (h : TablesInverse k) {bit : UInt32} (hbit : bit ∈ eventBits)
    (hkind : HasKind event bit) (hne : bit ≠ EventMoveTo) (hfits : EventFits env fuel k event)
    (hevent : handleEvent env fuel now k deadline event = some (k', deadline', handled)) : TablesInverse k' := by
  have hto : hasBit event.mask EventMoveTo = false := hkind.hasBit_ne hbit _ (by decide) hne
  have hnot : ¬ event.wd < 0 := Int.not_lt.mpr hkind.1
  have hremove : ∀ (b : Bool) (k : KInotify σ), TablesInverse k →
      TablesInverse (if b then Private.removeWatch k event.wd else k) := by
    intro b k hk
    split
    · exact hk.removeDescriptor _
    · exact hk
  rw [handleEvent] at hevent
  simp only [hnot, decide_false, Bool.false_and, Bool.false_eq_true, if_false, hto] at hevent
  obtain ⟨⟨k₁, created⟩, hcreated, hrest⟩ := Option.bind_eq_some_iff.mp hevent
  simp only [Option.bind_some, Option.some.injEq, Prod.mk.injEq] at hrest
  have hk₁ : TablesInverse k₁ := by
    split at hcreated
    · next hcreate =>
      have hfile : hasBit event.mask
          (EventAll &&& ~~~(EventMoveFrom ||| EventQueueOverflow ||| EventIgnored)) = true := by
        rw [hkind.hasBit hbit (by decide), decide_eq_true_eq] at hcreate
        subst hcreate
        rcases hkind.2 with hmask | hmask
        · rw [hmask]
          decide
        · rw [hmask]
          decide
      rw [if_pos hfile] at hcreated
      exact h.emitCreated (fun hdir => (hfits hdir).1 hcreate) hcreated
    · cases hcreated
      exact h
  rw [← hrest.1]
  apply hremove
  split
  · exact (hremove _ _ hk₁).same rfl rfl
  · exact hremove _ _ hk₁

/-- **An event that the kernel writes.** -/
theorem TablesInverse.handleEvent (h : TablesInverse k) (hevent : event.WellFormed)
    (hfits : EventFits env fuel k event)
    (hhandled : KInotify.handleEvent env fuel now k deadline event = some (k', deadline', handled)) :
    TablesInverse k' := by
  rcases hevent.kind with ⟨hwd, hmask⟩ | ⟨hwd, bit, hbit, hmask⟩
  · have hmarker : (decide (event.wd < 0) && hasBit event.mask EventQueueOverflow) = true := by
      rw [hmask, decide_eq_true hwd]
      decide
    rw [KInotify.handleEvent, if_pos hmarker] at hhandled
    cases hhandled
    exact h
  · by_cases hne : bit = EventMoveTo
    · exact h.moveTo (hne ▸ ⟨hwd, hmask⟩) hfits hhandled
    · exact h.otherEvent hbit ⟨hwd, hmask⟩ hne hfits hhandled

end

/-- The sweep of cookies removes watches. -/
theorem TablesInverse.clearCookiesLoop (now : ℕ) (cookies : List (Σ _ : UInt32, MovedFileCookie))
    (h : TablesInverse k) : TablesInverse (KInotify.clearCookiesLoop now k cookies).1 := by
  induction cookies generalizing k with
  | nil => exact h
  | cons it cookies ih =>
    obtain ⟨cookie, it⟩ := it
    rw [KInotify.clearCookiesLoop]
    split
    · exact ih ((h.removeWatch it.path).same rfl rfl)
    · exact ih h

theorem TablesInverse.slotClearCookies (now : ℕ) (h : TablesInverse k) :
    TablesInverse (KInotify.slotClearCookies now k).1 := by
  have hloop : TablesInverse (KInotify.clearCookiesLoop now
      { k with cookieExpireTimer := { k.cookieExpireTimer with active := false } } k.cookies.entries).1 :=
    TablesInverse.clearCookiesLoop now _ (h.same rfl rfl)
  rw [KInotify.slotClearCookies]
  dsimp only
  split
  · exact hloop.same rfl rfl
  · exact hloop

/-! ## Runs -/

/-- What happens to the watcher. -/
inductive Call (σ : Type)
  /-- a folder is queued -/
  | addWatch (path : List QChar) (mode flags : UInt32)
  /-- watches are removed below a path -/
  | removeWatch (path : List QChar)
  /-- a batch of the installation -/
  | addWatches (listing : Listing)
  /-- an event is processed -/
  | event (env : Surroundings) (fuel now : ℕ) (deadline : Option ℕ) (e : Event)
  /-- cookies are swept -/
  | slotClearCookies (now : ℕ)
  /-- the state of the kernel changes by itself -/
  | kernel (inotify : σ)

/-- What a call does. -/
def Call.perform (k : KInotify σ) : Call σ → Option (KInotify σ)
  | addWatch path mode flags => some (k.addWatch path mode flags).1
  | removeWatch path => some (k.removeWatch path)
  | addWatches listing => some (Private.addWatches listing { k with posted := k.posted - 1 }).1
  | event env fuel now deadline e => (handleEvent env fuel now k deadline e).map fun r => r.1
  | slotClearCookies now => some (KInotify.slotClearCookies now k).1
  | kernel inotify => some { k with inotify := inotify }

/-- Events are those the kernel writes. -/
def Call.WellFormed : Call σ → Prop
  | event _ _ _ _ e => e.WellFormed
  | _ => True

/-- No entry that the call makes collides with an old one. -/
def Call.Fits (k : KInotify σ) : Call σ → Prop
  | addWatches listing => BatchFits listing 1000 { k with posted := k.posted - 1 }
  | event env fuel _ _ e => EventFits env fuel k e
  | _ => True

/-- The steps of a watcher, with a condition on the calls. -/
def CallStep (condition : KInotify σ → Call σ → Prop) (k k' : KInotify σ) : Prop :=
  ∃ call : Call σ, call.WellFormed ∧ condition k call ∧ call.perform k = some k'

/-- **A call keeps the tables inverse** if it fits. -/
theorem TablesInverse.call {call : Call σ} (h : TablesInverse k) (hcall : call.WellFormed)
    (hfits : call.Fits k) (hperform : call.perform k = some k') : TablesInverse k' := by
  cases call with
  | addWatch path mode flags =>
    cases hperform
    rw [KInotify.addWatch]
    dsimp only
    split
    · exact h.same rfl rfl
    · exact h.same rfl rfl
  | removeWatch path =>
    cases hperform
    exact h.removeWatch path
  | addWatches listing =>
    cases hperform
    have hposted : TablesInverse { k with posted := k.posted - 1 } := h.same rfl rfl
    exact hposted.addWatches hfits
  | event env fuel now deadline e =>
    obtain ⟨⟨k₁, deadline', handled⟩, hhandled, rfl⟩ := Option.map_eq_some_iff.mp hperform
    exact h.handleEvent hcall hfits hhandled
  | slotClearCookies now =>
    cases hperform
    exact h.slotClearCookies now
  | kernel inotify =>
    cases hperform
    exact h.same rfl rfl

/-- **The tables stay inverse** in every run without collisions, so a path is watched exactly if a descriptor
has it. -/
theorem tables_inverse {k₀ : KInotify σ} (hpaths : k₀.watchPathHash = ∅) (hwds : k₀.pathWatchHash = ∅)
    (hrun : ReflTransGen (CallStep fun k call => call.Fits k) k₀ k) :
    (∀ wd p, k.watchPathHash.get wd = some p ↔ k.pathWatchHash.get p = some wd) ∧
      ∀ path, k.watchingPath path = true ↔ ∃ wd, k.watchPathHash.get wd = some (normalizeTrailingSlash path) := by
  have h : TablesInverse k := by
    induction hrun with
    | refl => exact ⟨by rw [hpaths, hwds]; simp [Inverse], by rw [hwds]; exact Hash.get_empty _⟩
    | tail _ hstep ih =>
      obtain ⟨call, hcall, hfits, hperform⟩ := hstep
      exact ih.call hcall hfits hperform
  refine ⟨h.inverse, fun path => ?_⟩
  rw [watchingPath, Option.isSome_iff_exists]
  exact exists_congr fun wd => (h.inverse wd _).symm

/-! ## A fixed tree -/

open DirTree (Kernel)

section

variable {k : KInotify Kernel}

/-- Directories that stay where they are do not collide. -/
theorem Synced.watchFits (hk : k.Synced) (h : TablesInverse k) (path : List QChar) :
    WatchFits k path ∧ TablesInverse (Private.addWatch k path).1 := by
  obtain ⟨hsynced, -, hwatching, -⟩ := addWatch_spec hk path
  have hinverse : TablesInverse (Private.addWatch k path).1 := by
    refine ⟨fun wd p => ?_, ?_⟩
    · rw [hsynced.paths, hsynced.descriptors]
    · rw [hsynced.descriptors, Option.eq_none_iff_forall_ne_some]
      intro wd hwd
      rcases (hwatching []).mp ⟨wd, hwd⟩ with ⟨wd', hold⟩ | ⟨hnil, -⟩
      · have hnone := h.nonempty
        rw [hk.descriptors, hold] at hnone
        cases hnone
      · exact normalizeTrailingSlash_ne_nil path hnil.symm
  exact ⟨(addWatch_inverse_iff h path).mp hinverse, hinverse⟩

theorem Synced.batchFits {listing : Listing} {n : ℕ} (hk : k.Synced) (h : TablesInverse k) :
    BatchFits listing n k := by
  induction n generalizing k with
  | zero => trivial
  | succ n ih =>
    rw [BatchFits]
    split
    · trivial
    · split
      · split
        · exact ih (hk.same rfl rfl rfl) (h.same rfl rfl)
        · trivial
      · next it _ _ =>
        have hiter : Synced { k with dirIter := some it } := hk.same rfl rfl rfl
        obtain ⟨hfits, hinverse⟩ := hiter.watchFits (h.same rfl rfl) it.filePath
        exact ⟨hfits, ih (addWatch_spec hiter it.filePath).1 hinverse⟩

end

/-! ## A directory that replaces an empty one -/

/-- The directories `/`, `/p`, `/p/a` and `/p/b`. -/
def treeP : DirTree where
  dirs := [[47], [47, 112, 47], [47, 112, 47, 97, 47], [47, 112, 47, 98, 47]]
  parent d hd := by
    simp only [List.mem_cons, List.not_mem_nil, or_false] at hd
    rcases hd with rfl | rfl | rfl | rfl
    · exact .inl rfl
    · exact .inr ⟨[47], by simp, [112], ⟨by decide, by decide⟩, rfl⟩
    · exact .inr ⟨[47, 112, 47], by simp, [97], ⟨by decide, by decide⟩, rfl⟩
    · exact .inr ⟨[47, 112, 47], by simp, [98], ⟨by decide, by decide⟩, rfl⟩

/-- Nothing is watched yet, and `/p/` is to be indexed. -/
def beforeP : KInotify Kernel where
  config := some (FileWatch.including [[47, 112]])
  inotify := { tree := treeP }

/-- The watches for `/p`, `/p/a` and `/p/b` have been installed. -/
def watchingP : KInotify Kernel :=
  (Private.addWatches treeP.listing { (beforeP.addWatch [47, 112, 47] 0 0).1 with posted := 0 }).1

/-- No directory has entries that matter. -/
def asciiSurroundings : Surroundings where
  listing _ := []
  decodeName := List.map fun b => UInt16.ofNat b.toNat
  depth := 0
  bounded := nothing_bounded
  longer := nothing_longer

/-- The first half of the rename of `/p/a`. -/
def renameFromA : Event := { wd := 1, mask := EventMoveFrom ||| InIsDir, cookie := 9, name := [97] }

/-- Its second half: it becomes `/p/b`. -/
def renameToB : Event := { wd := 1, mask := EventMoveTo ||| InIsDir, cookie := 9, name := [98] }

/-- The old directory `/p/b` is gone. -/
def deleteB : Event := { wd := 3, mask := EventDeleteSelf, cookie := 0, name := [] }

theorem reaches_watchingP : ReflTransGen (CallStep fun k call => call.Fits k) beforeP watchingP := by
  have hsynced : Synced (beforeP.addWatch [47, 112, 47] 0 0).1 :=
    ⟨by simp [beforeP, addWatch], by simp [beforeP, addWatch], by simp [beforeP, addWatch]⟩
  have hinverse : TablesInverse (beforeP.addWatch [47, 112, 47] 0 0).1 :=
    ⟨by simp [Inverse, beforeP, addWatch], by simp [beforeP, addWatch]⟩
  have hqueue : CallStep (fun k call => call.Fits k) beforeP (beforeP.addWatch [47, 112, 47] 0 0).1 :=
    ⟨.addWatch [47, 112, 47] 0 0, trivial, trivial, rfl⟩
  have hbatch : CallStep (fun k call => call.Fits k) (beforeP.addWatch [47, 112, 47] 0 0).1 watchingP := by
    refine ⟨.addWatches treeP.listing, trivial, ?_, rfl⟩
    apply Synced.batchFits
    · exact hsynced.same rfl rfl rfl
    · exact hinverse.same rfl rfl
  exact .tail (.single hqueue) hbatch

theorem tables_inverse_watchingP : watchingP.watchingPath [47, 112, 47, 98] = true ↔
    ∃ wd, watchingP.watchPathHash.get wd = some [47, 112, 47, 98, 47] := by
  have hpaths : beforeP.watchPathHash = ∅ := rfl
  exact (tables_inverse hpaths rfl reaches_watchingP).2 [47, 112, 47, 98]

/-- The state after both halves of the rename, and after the event of the old directory. -/
def replacedB : Option (KInotify Kernel) :=
  ((Call.event asciiSurroundings 0 0 none renameFromA).perform watchingP).bind fun k =>
    ((Call.event asciiSurroundings 0 0 none renameToB).perform k).bind fun k =>
      (Call.event asciiSurroundings 0 0 none deleteB).perform k

/-- When `/p/a` replaces the empty directory `/p/b`, it is watched under its new path, but the path is not known
as watched. -/
theorem replaced_directory_unwatched : ¬ ∀ (k₀ k : KInotify Kernel), k₀.watchPathHash = ∅ → k₀.pathWatchHash = ∅ →
    ReflTransGen (CallStep fun _ _ => True) k₀ k → ∀ path,
      k.watchingPath path = true ↔ ∃ wd, k.watchPathHash.get wd = some (normalizeTrailingSlash path) := by
  intro h
  have hwell : renameFromA.WellFormed ∧ renameToB.WellFormed ∧ deleteB.WellFormed :=
    ⟨⟨by decide, .inr ⟨by decide, EventMoveFrom, by decide, .inr rfl⟩, by decide, by decide⟩,
      ⟨by decide, .inr ⟨by decide, EventMoveTo, by decide, .inr rfl⟩, by decide, by decide⟩,
      ⟨by decide, .inr ⟨by decide, EventDeleteSelf, by decide, .inl rfl⟩, by decide, by decide⟩⟩
  have hany : ∀ k k' : KInotify Kernel, CallStep (fun k call => call.Fits k) k k' → CallStep (fun _ _ => True) k k' :=
    fun k k' ⟨call, hcall, _, hperform⟩ => ⟨call, hcall, trivial, hperform⟩
  have hbefore : ReflTransGen (CallStep fun _ _ => True) beforeP watchingP :=
    ReflTransGen.mono hany _ _ reaches_watchingP
  obtain ⟨k, hk⟩ : ∃ k, replacedB = some k := Option.isSome_iff_exists.mp (by decide +kernel)
  obtain ⟨k₁, hk₁, hrest⟩ := Option.bind_eq_some_iff.mp hk
  obtain ⟨k₂, hk₂, hk₃⟩ := Option.bind_eq_some_iff.mp hrest
  have hrun : ReflTransGen (CallStep fun _ _ => True) beforeP k :=
    ((hbefore.tail ⟨.event asciiSurroundings 0 0 none renameFromA, hwell.1, trivial, hk₁⟩).tail
      ⟨.event asciiSurroundings 0 0 none renameToB, hwell.2.1, trivial, hk₂⟩).tail
      ⟨.event asciiSurroundings 0 0 none deleteB, hwell.2.2, trivial, hk₃⟩
  have hwatching := (h beforeP k rfl rfl hrun [47, 112, 47, 98]).mpr ⟨2, ?_⟩
  · have hnot : (replacedB.map fun k => k.watchingPath [47, 112, 47, 98]) = some false := by decide +kernel
    rw [hk, Option.map_some, hwatching] at hnot
    cases hnot
  · have hget : (replacedB.bind fun k => k.watchPathHash.get 2) = some [47, 112, 47, 98, 47] := by decide +kernel
    rw [hk, Option.bind_some] at hget
    exact hget

end KInotify

end Baloo
