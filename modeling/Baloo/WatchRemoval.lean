import Baloo.MovePairing
import Baloo.WatchInstallation

/-!
# Watches below a path

`removeWatch` and the sweep of cookies find the watches and the queued walks below a path by a test of strings: does
the path begin with the one that is removed? That is the right question only behind a slash. Directories have one at
the end of their watches and of their cookies, but files have none, and neither has a path that a caller gives
without it; then a sibling whose name merely continues that of the path is dropped too (`removed_watches`).
-/

namespace Baloo

namespace KInotify

/-- `p` is the path of `root` or of something below it, with or without a slash at the end. -/
def isBelow (root p : List QChar) : Bool := (normalizeTrailingSlash root).isPrefixOf (normalizeTrailingSlash p)

/-- Behind `root`, which has no slash at the end, `p` goes on with the same name. -/
def ContinuesName (root p : List QChar) : Prop :=
  root.getLast? ≠ some separator ∧ ∃ c rest, p = root ++ c :: rest ∧ c ≠ separator

/-- `p` is `root` without the slash at its end. -/
def LacksSlash (root p : List QChar) : Prop := root = p ++ [separator] ∧ p.getLast? ≠ some separator

section Paths

variable {root p : List QChar}

theorem normalizeTrailingSlash_of_slash (h : p.getLast? = some separator) : normalizeTrailingSlash p = p := if_pos h

theorem normalizeTrailingSlash_of_not (h : p.getLast? ≠ some separator) :
    normalizeTrailingSlash p = p ++ [separator] := if_neg h

/-- Behind a slash, nothing can be mistaken. -/
theorem prefix_iff_of_slash (h : root.getLast? = some separator) :
    root <+: p ↔ isBelow root p = true ∧ ¬ LacksSlash root p := by
  rw [isBelow, List.isPrefixOf_iff_prefix, normalizeTrailingSlash_of_slash h]
  by_cases hp : p.getLast? = some separator
  · rw [normalizeTrailingSlash_of_slash hp]
    exact ⟨fun hpre => ⟨hpre, fun hlacks => hlacks.2 hp⟩, And.left⟩
  · rw [normalizeTrailingSlash_of_not hp, List.prefix_concat_iff]
    constructor
    · rintro hpre
      refine ⟨.inr hpre, fun hlacks => ?_⟩
      have hle := hpre.length_le
      rw [hlacks.1, List.length_append, List.length_singleton] at hle
      omega
    · rintro ⟨heq | hpre, hlacks⟩
      · exact absurd ⟨heq, hp⟩ hlacks
      · exact hpre

/-- Without a slash at the end, a name can go on. -/
theorem prefix_iff_of_not (h : root.getLast? ≠ some separator) :
    root <+: p ↔ isBelow root p = true ∨ ContinuesName root p := by
  rw [isBelow, List.isPrefixOf_iff_prefix, normalizeTrailingSlash_of_not h]
  constructor
  · rintro ⟨rest, rfl⟩
    cases rest with
    | nil =>
      rw [List.append_nil, normalizeTrailingSlash_of_not h]
      exact .inl (List.prefix_refl _)
    | cons c rest =>
      by_cases hc : c = separator
      · subst hc
        refine .inl (List.IsPrefix.trans ⟨rest, ?_⟩ (prefix_normalize _))
        rw [List.append_assoc, List.singleton_append]
      · exact .inr ⟨h, c, rest, rfl, hc⟩
  · rintro (hbelow | ⟨-, c, rest, rfl, -⟩)
    · by_cases hp : p.getLast? = some separator
      · rw [normalizeTrailingSlash_of_slash hp] at hbelow
        exact (List.prefix_append _ _).trans hbelow
      · rw [normalizeTrailingSlash_of_not hp, List.prefix_concat_iff] at hbelow
        rcases hbelow with heq | hpre
        · exact ⟨[], by rw [List.append_nil, List.append_cancel_right heq]⟩
        · exact (List.prefix_append _ _).trans hpre
    · exact List.prefix_append _ _

theorem LacksSlash.slash (h : LacksSlash root p) : root.getLast? = some separator := by
  rw [h.1, List.getLast?_concat]

theorem LacksSlash.below (h : LacksSlash root p) : isBelow root p = true := by
  rw [isBelow, List.isPrefixOf_iff_prefix, normalizeTrailingSlash_of_slash h.slash, normalizeTrailingSlash_of_not h.2]
  exact ⟨[], (List.append_nil root).trans h.1⟩

theorem ContinuesName.not_below (h : ContinuesName root p) : isBelow root p = false := by
  obtain ⟨hroot, c, rest, rfl, hc⟩ := h
  rw [Bool.eq_false_iff, ne_eq, isBelow, List.isPrefixOf_iff_prefix, normalizeTrailingSlash_of_not hroot]
  have hshape : ∃ rest', normalizeTrailingSlash (root ++ c :: rest) = root ++ c :: rest' := by
    rw [normalizeTrailingSlash]
    split
    · exact ⟨rest, rfl⟩
    · exact ⟨rest ++ [separator], by simp⟩
  obtain ⟨rest', hshape⟩ := hshape
  rw [hshape, List.prefix_append_right_inj, List.cons_prefix_cons]
  exact fun hpre => hc hpre.1.symm

/-- A path that begins with another one is below it, or it continues its name. -/
theorem below_or_continues (h : root <+: p) : isBelow root p = true ∨ ContinuesName root p := by
  by_cases hroot : root.getLast? = some separator
  · exact .inl ((prefix_iff_of_slash hroot).mp h).1
  · exact (prefix_iff_of_not hroot).mp h

/-- A path below another one begins with it, or it lacks the slash. -/
theorem prefix_or_lacks (h : isBelow root p = true) : root <+: p ∨ LacksSlash root p := by
  by_cases hroot : root.getLast? = some separator
  · by_cases hlacks : LacksSlash root p
    · exact .inr hlacks
    · exact .inl ((prefix_iff_of_slash hroot).mpr ⟨h, hlacks⟩)
  · exact .inl ((prefix_iff_of_not hroot).mpr (.inl h))

theorem LacksSlash.not_begins (h : LacksSlash root p) : ¬ root <+: p := fun hpre =>
  ((prefix_iff_of_slash h.slash).mp hpre).2 h

theorem ContinuesName.begins (h : ContinuesName root p) : root <+: p := (prefix_iff_of_not h.1).mpr (.inr h)

theorem isPrefixOf_eq_isBelow_iff :
    root.isPrefixOf p = isBelow root p ↔ ¬ ContinuesName root p ∧ ¬ LacksSlash root p := by
  rw [Bool.eq_iff_iff, List.isPrefixOf_iff_prefix]
  constructor
  · refine fun hiff => ⟨fun hcontinues => ?_, fun hlacks => hlacks.not_begins (hiff.mpr hlacks.below)⟩
    exact Bool.false_ne_true (hcontinues.not_below.symm.trans (hiff.mp hcontinues.begins))
  · rintro ⟨hcontinues, hlacks⟩
    exact ⟨fun hpre => (below_or_continues hpre).resolve_right hcontinues,
      fun hbelow => (prefix_or_lacks hbelow).resolve_right hlacks⟩

end Paths

/-! ## What is dropped -/

variable {σ : Type} [Inotify σ] {k k' k'' : KInotify σ} {now : ℕ} {path p : List QChar}
  {watched watched' queued queued' : List QChar → Bool}

/-- Exactly the watches and the queued walks whose path passes the tests are dropped. -/
structure Drops (k k' : KInotify σ) (watched queued : List QChar → Bool) : Prop where
  /-- what is left of the paths of descriptors -/
  paths : ∀ wd p, k'.watchPathHash.get wd = some p ↔ k.watchPathHash.get wd = some p ∧ watched p = false
  /-- what is left of the descriptors of paths -/
  descriptors : ∀ p wd, k'.pathWatchHash.get p = some wd ↔
    k.pathWatchHash.get p = some wd ∧ ¬ (watched p = true ∧ ∃ wd', k.watchPathHash.get wd' = some p)
  /-- the kernel is asked to drop the same ones, and each of them once -/
  kernel : ∃ wds : List ℤ, wds.Nodup ∧
    (∀ wd, wd ∈ wds ↔ ∃ p, k.watchPathHash.get wd = some p ∧ watched p = true) ∧
    k'.inotify = wds.foldl Inotify.rmWatch k.inotify
  /-- what is left of the queue -/
  queue : k'.paths = k.paths.filter fun p => !queued p

/-- A descriptor is there for the path. -/
def WatchedPath (k : KInotify σ) (p : List QChar) : Prop := ∃ wd, k.watchPathHash.get wd = some p

theorem Drops.nothing (k : KInotify σ) : Drops k k (fun _ => false) fun _ => false where
  paths _ _ := (and_iff_left rfl).symm
  descriptors _ _ := (and_iff_left fun h => Bool.false_ne_true h.1).symm
  kernel := ⟨[], List.nodup_nil, fun _ => by simp, rfl⟩
  queue := by simp

/-- What is dropped one after the other. -/
theorem Drops.trans (h : Drops k k' watched queued) (h' : Drops k' k'' watched' queued') :
    Drops k k'' (fun p => watched p || watched' p) fun p => queued p || queued' p where
  paths wd p := by
    rw [h'.paths, h.paths, Bool.or_eq_false_iff, and_assoc]
  descriptors p wd := by
    rw [h'.descriptors, h.descriptors, and_assoc]
    refine and_congr_right fun _ => ?_
    simp only [h.paths, Bool.or_eq_true, exists_and_right]
    cases watched p with
    | false => simp
    | true => simp
  kernel := by
    obtain ⟨wds, hnodup, hmem, hkernel⟩ := h.kernel
    obtain ⟨wds', hnodup', hmem', hkernel'⟩ := h'.kernel
    refine ⟨wds ++ wds', List.nodup_append'.mpr ⟨hnodup, hnodup', fun wd hwd hwd' => ?_⟩, fun wd => ?_, ?_⟩
    · obtain ⟨p, hp, hwatched⟩ := (hmem wd).mp hwd
      obtain ⟨p', hp', -⟩ := (hmem' wd).mp hwd'
      obtain ⟨hp', hnot⟩ := (h.paths wd p').mp hp'
      obtain rfl := Option.some.inj (hp.symm.trans hp')
      exact Bool.false_ne_true (hnot.symm.trans hwatched)
    · rw [List.mem_append, hmem, hmem', ← exists_or]
      refine exists_congr fun p => ?_
      rw [h.paths, and_assoc, ← and_or_left]
      refine and_congr_right fun _ => ?_
      cases watched p with
      | false => simp
      | true => simp
    · rw [List.foldl_append, hkernel', hkernel]
  queue := by
    rw [h'.queue, h.queue, List.filter_filter]
    simp only [Bool.not_or, Bool.and_comm]

/-- The tests count on what there is. -/
theorem Drops.iff (h : Drops k k' watched' queued') : Drops k k' watched queued ↔
    (∀ p, WatchedPath k p → watched' p = watched p) ∧ ∀ p ∈ k.paths, queued' p = queued p := by
  constructor
  · refine fun hdrops => ⟨fun p hp => ?_, fun p hp => ?_⟩
    · obtain ⟨wd, hwd⟩ := hp
      have hiff : watched' p = false ↔ watched p = false := by
        have hleft := (h.paths wd p).symm.trans (hdrops.paths wd p)
        rwa [and_iff_right hwd, and_iff_right hwd] at hleft
      rw [Bool.eq_iff_iff, ← not_iff_not, Bool.not_eq_true, Bool.not_eq_true]
      exact hiff
    · have hmem : ∀ q : List QChar → Bool, (p ∈ k.paths.filter fun p => !q p) ↔ q p = false := fun q => by
        rw [List.mem_filter, and_iff_right hp, Bool.not_eq_true']
      rw [Bool.eq_iff_iff, ← not_iff_not, Bool.not_eq_true, Bool.not_eq_true, ← hmem, ← hmem, ← h.queue, hdrops.queue]
  · rintro ⟨hwatched, hqueued⟩
    refine ⟨fun wd p => ?_, fun p wd => ?_, ?_, ?_⟩
    · rw [h.paths]
      exact and_congr_right fun hwd => by rw [hwatched p ⟨wd, hwd⟩]
    · rw [h.descriptors]
      exact and_congr_right fun _ => not_congr (and_congr_left fun hp => by rw [hwatched p hp])
    · obtain ⟨wds, hnodup, hmem, hkernel⟩ := h.kernel
      refine ⟨wds, hnodup, fun wd => (hmem wd).trans (exists_congr fun p => ?_), hkernel⟩
      exact and_congr_right fun hwd => by rw [hwatched p ⟨wd, hwd⟩]
    · rw [h.queue]
      exact List.filter_congr fun p hp => by rw [hqueued p hp]

/-- `removeWatch` drops what begins with the path. -/
theorem drops_removeWatch (k : KInotify σ) (path : List QChar) :
    Drops k (k.removeWatch path) path.isPrefixOf path.isPrefixOf where
  paths wd p := by
    refine (Eq.congr_left (Hash.get_filter k.watchPathHash (fun _ p => !path.isPrefixOf p) wd)).trans ?_
    rw [Option.filter_eq_some_iff, Bool.not_eq_true']
  descriptors p wd := by
    refine (Eq.congr_left (foldl_erase _ k.pathWatchHash p)).trans ?_
    have hiff : (∃ it ∈ k.watchPathHash.entries.filter fun it => path.isPrefixOf it.2, it.2 = p) ↔
        path.isPrefixOf p = true ∧ ∃ wd', k.watchPathHash.get wd' = some p := by
      constructor
      · rintro ⟨it, hit, rfl⟩
        obtain ⟨hmem, hpre⟩ := List.mem_filter.mp hit
        exact ⟨hpre, it.1, Hash.mem_entries.mp hmem⟩
      · rintro ⟨hpre, wd', hwd'⟩
        exact ⟨⟨wd', p⟩, List.mem_filter.mpr ⟨Hash.mem_entries.mpr hwd', hpre⟩, rfl⟩
    rw [← hiff]
    split
    · next hgone => exact iff_of_false (by simp) fun h => h.2 hgone
    · next hleft => exact (and_iff_left hleft).symm
  kernel := by
    refine ⟨(k.watchPathHash.entries.filter fun it => path.isPrefixOf it.2).map Sigma.fst, ?_, fun wd => ?_, ?_⟩
    · exact (k.watchPathHash.filter fun _ p => path.isPrefixOf p).nodupKeys
    · rw [List.mem_map]
      constructor
      · rintro ⟨it, hit, rfl⟩
        obtain ⟨hmem, hpre⟩ := List.mem_filter.mp hit
        exact ⟨it.2, Hash.mem_entries.mp hmem, hpre⟩
      · rintro ⟨p, hwd, hpre⟩
        exact ⟨⟨wd, p⟩, List.mem_filter.mpr ⟨Hash.mem_entries.mpr hwd, hpre⟩, rfl⟩
    · rw [List.foldl_map]
      rfl
  queue := rfl

/-! ## Expired cookies -/

/-- The cookies whose deadline has passed. -/
def expired (now : ℕ) (cookies : List (Σ _ : UInt32, MovedFileCookie)) : List MovedFileCookie :=
  (cookies.map Sigma.snd).filter fun it => it.deadline < now

theorem drops_clearCookiesLoop (now : ℕ) (k : KInotify σ) (cookies : List (Σ _ : UInt32, MovedFileCookie)) :
    Drops k (clearCookiesLoop now k cookies).1
      (fun p => (expired now cookies).any fun it => it.path.isPrefixOf p)
      fun p => (expired now cookies).any fun it => it.path.isPrefixOf p := by
  induction cookies generalizing k with
  | nil => exact Drops.nothing k
  | cons it cookies ih =>
    obtain ⟨cookie, it⟩ := it
    rw [clearCookiesLoop]
    split
    · next hlate =>
      have hexpired : expired now (⟨cookie, it⟩ :: cookies) = it :: expired now cookies := by
        rw [expired, List.map_cons, List.filter_cons_of_pos (by simpa using hlate)]
        rfl
      have hfirst := drops_removeWatch k it.path
      have hrest := ih { removeWatch k it.path with cookies := (removeWatch k it.path).cookies.erase cookie }
      rw [hexpired]
      simp only [List.any_cons]
      exact hfirst.trans ⟨hrest.paths, hrest.descriptors, hrest.kernel, hrest.queue⟩
    · next hearly =>
      have hexpired : expired now (⟨cookie, it⟩ :: cookies) = expired now cookies := by
        rw [expired, List.map_cons, List.filter_cons_of_neg (by simpa using hearly)]
        rfl
      rw [hexpired]
      exact ih k

theorem drops_slotClearCookies (now : ℕ) (k : KInotify σ) :
    Drops k (slotClearCookies now k).1
      (fun p => (expired now k.cookies.entries).any fun it => it.path.isPrefixOf p)
      fun p => (expired now k.cookies.entries).any fun it => it.path.isPrefixOf p := by
  have hloop := drops_clearCookiesLoop now
    { k with cookieExpireTimer := { k.cookieExpireTimer with active := false } } k.cookies.entries
  rw [slotClearCookies]
  dsimp only
  split
  · exact ⟨hloop.paths, hloop.descriptors, hloop.kernel, hloop.queue⟩
  · exact ⟨hloop.paths, hloop.descriptors, hloop.kernel, hloop.queue⟩

/-- The path is that of an expired cookie of some kind, or below it. -/
def belowExpired (kind : MovedFileCookie → Bool) (its : List MovedFileCookie) (p : List QChar) : Bool :=
  its.any fun it => kind it && isBelow it.path p

/-- If a path begins with that of a cookie of another kind, or continues the name of a cookie, then another cookie is
the reason to drop it; and so if it is the path of a cookie without the slash. -/
def FitsExpired (kind : MovedFileCookie → Bool) (its : List MovedFileCookie) (p : List QChar) : Prop :=
  (∀ it ∈ its, (kind it = false ∧ it.path <+: p) ∨ ContinuesName it.path p → belowExpired kind its p = true) ∧
    ∀ it ∈ its, kind it = true → LacksSlash it.path p → ∃ it' ∈ its, it'.path <+: p

theorem fitsExpired_iff (kind : MovedFileCookie → Bool) (its : List MovedFileCookie) (p : List QChar) :
    (its.any fun it => it.path.isPrefixOf p) = belowExpired kind its p ↔ FitsExpired kind its p := by
  have hany : (its.any fun it => it.path.isPrefixOf p) = true ↔ ∃ it ∈ its, it.path <+: p := by
    simp only [List.any_eq_true, List.isPrefixOf_iff_prefix]
  have hbelow : belowExpired kind its p = true ↔ ∃ it ∈ its, kind it = true ∧ isBelow it.path p = true := by
    simp only [belowExpired, List.any_eq_true, Bool.and_eq_true]
  rw [Bool.eq_iff_iff, hany]
  constructor
  · refine fun hiff => ⟨fun it hit hreason => hiff.mp ⟨it, hit, ?_⟩, fun it hit hkind hlacks => ?_⟩
    · exact hreason.elim And.right ContinuesName.begins
    · exact hiff.mpr (hbelow.mpr ⟨it, hit, hkind, hlacks.below⟩)
  · rintro ⟨hreason, hlacks⟩
    constructor
    · rintro ⟨it, hit, hpre⟩
      cases hkind : kind it with
      | false => exact hreason it hit (.inl ⟨hkind, hpre⟩)
      | true =>
        rcases below_or_continues hpre with h | h
        · exact hbelow.mpr ⟨it, hit, hkind, h⟩
        · exact hreason it hit (.inr h)
    · intro h
      obtain ⟨it, hit, hkind, h⟩ := hbelow.mp h
      rcases prefix_or_lacks h with hpre | h
      · exact ⟨it, hit, hpre⟩
      · exact hlacks it hit hkind h

/-- The cookie is that of a directory. -/
def MovedFileCookie.isDir (it : MovedFileCookie) : Bool := hasBit it.flags InIsDir

/-- **Removing watches for a path** removes its subtree and nothing else if and only if no watched directory and no
queued walk only continues its name, and none lacks its slash. The same goes for cookies that expire, where a path
may be dropped because of another cookie; no watch is below a file. -/
theorem removed_watches (k : KInotify σ) :
    (∀ path, Drops k (k.removeWatch path) (isBelow path) (isBelow path) ↔
      ∀ p, WatchedPath k p ∨ p ∈ k.paths → ¬ ContinuesName path p ∧ ¬ LacksSlash path p) ∧
    ∀ now, Drops k (slotClearCookies now k).1
        (belowExpired MovedFileCookie.isDir (expired now k.cookies.entries))
        (belowExpired (fun _ => true) (expired now k.cookies.entries)) ↔
      (∀ p, WatchedPath k p → FitsExpired MovedFileCookie.isDir (expired now k.cookies.entries) p) ∧
        ∀ p ∈ k.paths, FitsExpired (fun _ => true) (expired now k.cookies.entries) p := by
  refine ⟨fun path => ?_, fun now => ?_⟩
  · rw [(drops_removeWatch k path).iff]
    simp only [isPrefixOf_eq_isBelow_iff, or_imp]
    exact forall_and.symm
  · rw [(drops_slotClearCookies now k).iff]
    simp only [fitsExpired_iff]

/-- `/d/` and `/d/ab/` are watched. -/
def watchingAb : KInotify Numbering where
  config := none
  inotify := ⟨3⟩
  watchPathHash := AList.insert (2 : ℤ) [47, 100, 47, 97, 98, 47] (AList.insert (1 : ℤ) [47, 100, 47] ∅)
  pathWatchHash := AList.insert [47, 100, 47, 97, 98, 47] (2 : ℤ) (AList.insert [47, 100, 47] (1 : ℤ) ∅)

/-- When the file `/d/a` is moved away and its cookie expires, `/d/ab/` is no longer watched. -/
theorem sibling_dropped : ∃ k, (handleEvent noFiles 0 0 watchingAb none moveFromA).map Prod.fst = some k ∧
    ¬ Drops k (slotClearCookies 1001 k).1
      (belowExpired MovedFileCookie.isDir (expired 1001 k.cookies.entries))
      (belowExpired (fun _ => true) (expired 1001 k.cookies.entries)) := by
  refine ⟨_, rfl, fun hdrops => ?_⟩
  have hwatched := ((drops_slotClearCookies _ _).iff.mp hdrops).1 [47, 100, 47, 97, 98, 47] ⟨2, rfl⟩
  cases hwatched

end KInotify

end Baloo
