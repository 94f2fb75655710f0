import Baloo.Lib.Regex

/-!
# Exclude filters

`rebuildCacheFromFilterList` sorts the exclude filters into a set of names, one regular expression for all filters
of the form `*.suffix` and one regular expression for each other filter with a wildcard. The one for the suffixes
is built even if there is no such filter, and then it is `^.*\.()$`, which matches every name that ends with a
dot. Otherwise the filters are globs (`exclude_filters`). `QRegularExpression` is any matcher that follows
`Regex.parse`; characters are Unicode characters, as a dot of a regular expression takes them.
-/

namespace Baloo

/-- A filter as a glob. -/
inductive Glob : List Char → List Char → Prop
  /-- nothing is left -/
  | done : Glob [] []
  /-- any run of characters -/
  | many {f w : List Char} (u : List Char) : Glob f w → Glob ('*' :: f) (u ++ w)
  /-- any one character -/
  | one {f w : List Char} (c : Char) : Glob f w → Glob ('?' :: f) (c :: w)
  /-- a literal character -/
  | literal {f w : List Char} {c : Char} : c ≠ '*' → c ≠ '?' → Glob f w → Glob (c :: f) (c :: w)

/-- `QString::replace` of a character. -/
def replaced (s : List Char) (before : Char) (after : List Char) : List Char :=
  s.flatMap fun c => if c = before then after else [c]

/-- `RegExpCache`; the regular expressions are given by their patterns. -/
structure RegExpCache where
  /-- `m_regexpCache` -/
  regexpCache : List (List Char) := []
  /-- `m_exactMatches` -/
  exactMatches : List (List Char) := []
deriving DecidableEq

namespace RegExpCache

/-- `QRegularExpression::match`, for expressions that `Regex.parse` reads and subjects without newlines. -/
def Documented (newline : Char → Bool) (hasMatch : List Char → List Char → Bool) : Prop :=
  ∀ pattern r subject, Regex.parse newline pattern = some r → (∀ c ∈ subject, newline c = false) →
    (hasMatch pattern subject = true ↔ r.Matches subject)

/-- `suffixOnlyRe`, with what it captures. -/
def suffixOnly : List Char → Option (List Char)
  | '*' :: '.' :: suffix =>
    if suffix ≠ [] ∧ suffix.all fun c => c ≠ '.' ∧ c ≠ '*' ∧ c ≠ '?' then some suffix else none
  | _ => none

/-- The regular expression of a filter that is not of the form `*.suffix`. -/
def translated (filter : List Char) : List Char :=
  let f := replaced filter '.' ['\\', '.']
  let f := replaced f '?' ['.']
  let f := replaced f '*' ['.', '*']
  '^' :: (f ++ ['$'])

/-- The regular expression of all suffixes. -/
def suffixMatch (suffixes : List (List Char)) : List Char :=
  ['^', '.', '*', '\\', '.', '('] ++ ['|'].intercalate suffixes ++ [')', '$']

/-- The loop of `rebuildCacheFromFilterList` at a filter. -/
def addFilter (state : RegExpCache × List (List Char)) (filter : List Char) : RegExpCache × List (List Char) :=
  let (cache, suffixes) := state
  if '*' ∉ filter ∧ '?' ∉ filter then
    ({ cache with exactMatches := filter :: cache.exactMatches }, suffixes)
  else
    match suffixOnly filter with
    | some suffix => (cache, suffixes ++ [suffix])
    | none => ({ cache with regexpCache := cache.regexpCache ++ [translated filter] }, suffixes)

/-- `RegExpCache::rebuildCacheFromFilterList`. -/
def rebuildCacheFromFilterList (filters : List (List Char)) : RegExpCache :=
  let (cache, suffixes) := filters.foldl addFilter ({}, [])
  { cache with regexpCache := suffixMatch suffixes :: cache.regexpCache }

/-- `RegExpCache::exactMatch`. -/
def exactMatch (cache : RegExpCache) (hasMatch : List Char → List Char → Bool) (s : List Char) : Bool :=
  if s ∈ cache.exactMatches then true else cache.regexpCache.any fun pattern => hasMatch pattern s

/-- The filter has no characters with a meaning in regular expressions but the dot and the wildcards. -/
def Plain (filter : List Char) : Prop :=
  ∀ c ∈ filter, c ∉ ['\\', '|', '(', ')', '^', '$', '[', ']', '{', '}', '+']

section

variable {newline : Char → Bool} {f w suffix : List Char} {c : Char} {suffixes : List (List Char)}

/-! ## The regular expression of a filter -/

/-- What the three replacements make of a character. -/
def piece (c : Char) : List Char :=
  if c = '.' then ['\\', '.'] else if c = '?' then ['.'] else if c = '*' then ['.', '*'] else [c]

theorem translated_eq (f : List Char) : translated f = '^' :: (f.flatMap piece ++ ['$']) := by
  have hpiece : ∀ c, replaced (replaced (if c = '.' then ['\\', '.'] else [c]) '?' ['.']) '*' ['.', '*'] =
      piece c := by
    intro c
    rw [piece]
    by_cases hdot : c = '.'
    · subst hdot
      rfl
    · by_cases hone : c = '?'
      · subst hone
        rfl
      · simp [replaced, hdot, hone]
  have hassoc : replaced (replaced (replaced f '.' ['\\', '.']) '?' ['.']) '*' ['.', '*'] =
      f.flatMap fun c => replaced (replaced (if c = '.' then ['\\', '.'] else [c]) '?' ['.']) '*' ['.', '*'] := by
    simp only [replaced, List.flatMap_assoc]
  rw [translated, hassoc, funext hpiece]

/-- What a piece is read as. -/
def item (newline : Char → Bool) (c : Char) : Regex Char :=
  if c = '*' then .star (.char fun d => !newline d)
  else if c = '?' then .char fun d => !newline d
  else .char (· = c)

/-- A piece is read as one item. -/
theorem foldlM_piece (hc : c ∉ ['\\', '|', '(', ')', '^', '$', '[', ']', '{', '}', '+']) (s : Regex.Parser)
    (hs : s.escaped = false) : (piece c).foldlM (Regex.Parser.step newline) s = some (s.push (item newline c)) := by
  obtain ⟨around, group, escaped⟩ := s
  obtain rfl : escaped = false := hs
  rw [piece, item]
  split
  · next h =>
    subst h
    rfl
  · next hdot =>
    split
    · next h =>
      subst h
      rfl
    · next hone =>
      split
      · next h =>
        rfl
      · next hmany =>
        simp only [List.mem_cons, List.not_mem_nil, or_false, not_or] at hc
        simp [Regex.Parser.step, Regex.Parser.special, hc, hdot, hone, hmany]

theorem foldlM_pieces (hf : Plain f) (s : Regex.Parser) (hs : s.escaped = false) :
    (f.flatMap piece).foldlM (Regex.Parser.step newline) s =
      some { s with group := { s.group with items := (f.map (item newline)).reverse ++ s.group.items } } := by
  induction f generalizing s with
  | nil => rfl
  | cons c f ih =>
    obtain ⟨hc, hf⟩ := List.forall_mem_cons.mp hf
    rw [List.flatMap_cons, List.foldlM_append, foldlM_piece hc s hs]
    refine (ih hf (s.push (item newline c)) hs).trans ?_
    simp [Regex.Parser.push]

theorem glob_nil : Glob [] w ↔ w = [] := by
  refine ⟨fun h => ?_, fun h => h ▸ .done⟩
  cases h
  rfl

theorem glob_many : Glob ('*' :: f) w ↔ ∃ u v, w = u ++ v ∧ Glob f v := by
  refine ⟨fun h => ?_, ?_⟩
  · cases h with
    | many u hv => exact ⟨u, _, rfl, hv⟩
    | literal hmany _ _ => exact absurd rfl hmany
  · rintro ⟨u, v, rfl, hv⟩
    exact .many u hv

theorem glob_one : Glob ('?' :: f) w ↔ ∃ c v, w = c :: v ∧ Glob f v := by
  refine ⟨fun h => ?_, ?_⟩
  · cases h with
    | one c hv => exact ⟨c, _, rfl, hv⟩
    | literal _ hone _ => exact absurd rfl hone
  · rintro ⟨c, v, rfl, hv⟩
    exact .one c hv

theorem glob_literal {c : Char} (hmany : c ≠ '*') (hone : c ≠ '?') : Glob (c :: f) w ↔ ∃ v, w = c :: v ∧ Glob f v := by
  refine ⟨fun h => ?_, ?_⟩
  · cases h with
    | many _ _ => exact absurd rfl hmany
    | one _ _ => exact absurd rfl hone
    | literal _ _ hv => exact ⟨_, rfl, hv⟩
  · rintro ⟨v, rfl, hv⟩
    exact .literal hmany hone hv

theorem matches_item (hw : ∀ c ∈ w, newline c = false) :
    (Regex.seqOf (f.map (item newline))).Matches w ↔ Glob f w := by
  induction f generalizing w with
  | nil => exact Regex.matches_epsilon.trans glob_nil.symm
  | cons c f ih =>
    rw [List.map_cons, Regex.seqOf, Regex.matches_seq, item]
    split
    · next h =>
      subst h
      rw [glob_many]
      refine exists_congr fun u => exists_congr fun v => and_congr_right fun heq => ?_
      subst heq
      rw [ih fun c hc => hw c (List.mem_append_right u hc)]
      refine and_iff_right (Regex.matches_star_char.mpr fun c hc => ?_)
      rw [hw c (List.mem_append_left v hc)]
      rfl
    · next hmany =>
      split
      · next h =>
        subst h
        rw [glob_one]
        refine ⟨?_, ?_⟩
        · rintro ⟨u, v, rfl, hu, hv⟩
          obtain ⟨c, -, rfl⟩ := Regex.matches_char.mp hu
          exact ⟨c, v, rfl, (ih fun d hd => hw d (List.mem_cons_of_mem c hd)).mp hv⟩
        · rintro ⟨c, v, rfl, hv⟩
          obtain ⟨hc, hw⟩ := List.forall_mem_cons.mp hw
          exact ⟨[c], v, rfl, .char (by rw [hc]; rfl), (ih hw).mpr hv⟩
      · next hone =>
        rw [glob_literal hmany hone]
        refine ⟨?_, ?_⟩
        · rintro ⟨u, v, rfl, hu, hv⟩
          obtain ⟨d, hd, rfl⟩ := Regex.matches_char.mp hu
          obtain rfl := of_decide_eq_true hd
          exact ⟨v, rfl, (ih fun e he => hw e (List.mem_cons_of_mem d he)).mp hv⟩
        · rintro ⟨v, rfl, hv⟩
          exact ⟨[c], v, rfl, .char (decide_eq_true rfl), (ih (List.forall_mem_cons.mp hw).2).mpr hv⟩

/-- The regular expression of a filter is a glob. -/
theorem parse_translated (hf : Plain f) :
    Regex.parse newline (translated f) = some (Regex.seqOf (f.map (item newline))) := by
  rw [translated_eq, Regex.parse_anchored newline (foldlM_pieces hf {} rfl), List.append_nil, List.reverse_reverse]

/-! ## The regular expression of the suffixes -/

/-- Nothing in it has a meaning in regular expressions. -/
def Word (w : List Char) : Prop :=
  ∀ c ∈ w, c ≠ '.' ∧ c ≠ '*' ∧ c ∉ '\\' :: '|' :: '(' :: ')' :: Regex.Parser.special

theorem foldlM_word (hw : Word w) (s : Regex.Parser) (hs : s.escaped = false) :
    w.foldlM (Regex.Parser.step newline) s =
      some { s with group := { s.group with items := (w.map fun c => .char (· = c)).reverse ++ s.group.items } } := by
  induction w generalizing s with
  | nil => rfl
  | cons c w ih =>
    obtain ⟨⟨hdot, hmany, hc⟩, hw⟩ := List.forall_mem_cons.mp hw
    have hstep : Regex.Parser.step newline s c = some (s.push (.char (· = c))) := by
      simp only [List.mem_cons, not_or] at hc
      rw [Regex.Parser.step, if_neg (by rw [hs]; exact Bool.false_ne_true), if_neg hc.1, if_neg hdot, if_neg hmany,
        if_neg hc.2.1, if_neg hc.2.2.1, if_neg hc.2.2.2.1, if_neg hc.2.2.2.2]
    rw [List.foldlM_cons, hstep]
    refine (ih hw (s.push (.char (· = c))) hs).trans ?_
    simp [Regex.Parser.push]

/-- All suffixes, within a group. -/
theorem foldlM_suffixes (h : ∀ w ∈ suffixes, Word w) (hne : suffixes ≠ []) (s : Regex.Parser)
    (hs : s.escaped = false) (hitems : s.group.items = []) :
    ∃ s', (['|'].intercalate suffixes).foldlM (Regex.Parser.step newline) s = some s' ∧ s'.around = s.around ∧
      s'.escaped = false ∧ s'.group.regex = Regex.altOf (s.group.alternatives ++ suffixes.map Regex.word) := by
  induction suffixes generalizing s with
  | nil => exact absurd rfl hne
  | cons w suffixes ih =>
    obtain ⟨hw, h⟩ := List.forall_mem_cons.mp h
    obtain ⟨around, ⟨alternatives, items⟩, escaped⟩ := s
    obtain rfl : escaped = false := hs
    obtain rfl : items = [] := hitems
    have hword : w.foldlM (Regex.Parser.step newline) { around := around, group := { alternatives := alternatives } } =
        some { around := around, group :=
          { alternatives := alternatives, items := (w.map fun c => .char (· = c)).reverse } } := by
      rw [foldlM_word hw _ rfl, List.append_nil]
    cases suffixes with
    | nil =>
      refine ⟨_, (congrArg _ List.intercalate_singleton).trans hword, rfl, rfl, ?_⟩
      rw [Regex.Group.regex, List.reverse_reverse]
      rfl
    | cons v suffixes =>
      obtain ⟨s', hs', haround, hescaped, hregex⟩ := ih h (List.cons_ne_nil v suffixes)
        { around := around, group := { alternatives := alternatives ++ [Regex.word w] } } rfl rfl
      refine ⟨s', ?_, haround, hescaped, ?_⟩
      · rw [List.intercalate_cons_cons, List.foldlM_append, List.foldlM_append, hword]
        refine Eq.trans ?_ hs'
        simp [Regex.Parser.step, Regex.Parser.alternative, Regex.word]
      · rw [hregex]
        simp

/-- What the group of the suffixes is read as; if there are none, it is empty. -/
theorem group_suffixes (h : ∀ w ∈ suffixes, Word w) (s : Regex.Parser) (hs : s.escaped = false)
    (hgroup : s.group = {}) :
    ∃ s', (['|'].intercalate suffixes).foldlM (Regex.Parser.step newline) s = some s' ∧ s'.around = s.around ∧
      s'.escaped = false ∧ ∀ w, s'.group.regex.Matches w ↔ w ∈ suffixes ∨ suffixes = [] ∧ w = [] := by
  rcases eq_or_ne suffixes [] with rfl | hne
  · refine ⟨s, rfl, rfl, hs, fun w => ?_⟩
    rw [hgroup, or_iff_right List.not_mem_nil, and_iff_right rfl]
    exact Regex.matches_epsilon
  · obtain ⟨s', hs', haround, hescaped, hregex⟩ := @foldlM_suffixes newline suffixes h hne s hs (by rw [hgroup])
    refine ⟨s', hs', haround, hescaped, fun w => ?_⟩
    rw [hregex, hgroup, List.nil_append, Regex.matches_altOf, or_iff_left fun h => hne h.1]
    constructor
    · rintro ⟨r, hr, hmatch⟩
      obtain ⟨v, hv, rfl⟩ := List.mem_map.mp hr
      rw [Regex.matches_word.mp hmatch]
      exact hv
    · exact fun hw => ⟨_, List.mem_map_of_mem hw, Regex.matches_word.mpr rfl⟩

/-- The regular expression of the suffixes. -/
theorem parse_suffixMatch (h : ∀ w ∈ suffixes, Word w) :
    ∃ r, Regex.parse newline (suffixMatch suffixes) = some r ∧ ∀ w, (∀ c ∈ w, newline c = false) →
      (r.Matches w ↔ ∃ u v, w = u ++ '.' :: v ∧ (v ∈ suffixes ∨ suffixes = [] ∧ v = [])) := by
  let any : Regex Char := .star (.char fun d => !newline d)
  let dot : Regex Char := .char (· = '.')
  obtain ⟨s', hs', haround, hescaped, hregex⟩ := @group_suffixes newline suffixes h
    { around := [{ items := [dot, any] }] } rfl rfl
  have hbody : (['.', '*', '\\', '.', '('] ++ ['|'].intercalate suffixes ++ [')']).foldlM
      (Regex.Parser.step newline) {} = some { group := { items := [s'.group.regex, dot, any] } } := by
    have hclosed : Regex.Parser.step newline s' ')' = some { group := { items := [s'.group.regex, dot, any] } } := by
      obtain ⟨around, group, escaped⟩ := s'
      obtain rfl : escaped = false := hescaped
      obtain rfl : around = [{ items := [dot, any] }] := haround
      rfl
    rw [List.foldlM_append, List.foldlM_append]
    refine Eq.trans (congrArg (· >>= _) hs') ?_
    exact congrArg (· >>= pure) hclosed
  refine ⟨Regex.seqOf [any, dot, s'.group.regex], ?_, fun w hw => ?_⟩
  · have hshape : suffixMatch suffixes =
        '^' :: (['.', '*', '\\', '.', '('] ++ ['|'].intercalate suffixes ++ [')'] ++ ['$']) := by
      simp [suffixMatch]
    rw [hshape, Regex.parse_anchored newline hbody]
    rfl
  · simp only [Regex.seqOf, Regex.matches_seq, Regex.matches_epsilon, hregex, any, dot,
      Regex.matches_star_char, Regex.matches_char]
    constructor
    · rintro ⟨u, _, rfl, -, _, _, rfl, ⟨c, hc, rfl⟩, v, _, rfl, hv, rfl⟩
      obtain rfl := of_decide_eq_true hc
      exact ⟨u, v, by simp, hv⟩
    · rintro ⟨u, v, rfl, hv⟩
      refine ⟨u, '.' :: v, rfl, fun c hc => ?_, ['.'], v, rfl, ⟨'.', decide_eq_true rfl, rfl⟩, v, [],
        (List.append_nil v).symm, hv, rfl⟩
      rw [hw c (List.mem_append_left _ hc)]
      rfl

/-! ## The list of filters -/

theorem suffixOnly_eq (h : suffixOnly f = some suffix) : f = '*' :: '.' :: suffix ∧ suffix ≠ [] ∧
    ∀ c ∈ suffix, c ≠ '.' ∧ c ≠ '*' ∧ c ≠ '?' := by
  unfold suffixOnly at h
  split at h
  · split at h
    · next hsuffix =>
      obtain rfl := Option.some.inj h
      obtain ⟨hne, hall⟩ := hsuffix
      exact ⟨rfl, hne, fun c hc => of_decide_eq_true (List.all_eq_true.mp hall c hc)⟩
    · cases h
  · cases h

/-- The filter has a wildcard. -/
def Wild (f : List Char) : Prop := '*' ∈ f ∨ '?' ∈ f

theorem wild_of_suffixOnly (h : suffixOnly f = some suffix) : Wild f := by
  rw [(suffixOnly_eq h).1]
  exact .inl List.mem_cons_self

theorem glob_of_not_wild (h : ¬ Wild f) : Glob f w ↔ f = w := by
  induction f generalizing w with
  | nil => exact glob_nil.trans eq_comm
  | cons c f ih =>
    have hmany : c ≠ '*' := fun hc => h (.inl (hc ▸ List.mem_cons_self))
    have hone : c ≠ '?' := fun hc => h (.inr (hc ▸ List.mem_cons_self))
    have hf : ¬ Wild f := fun hf => h (hf.imp (List.mem_cons_of_mem c) (List.mem_cons_of_mem c))
    rw [glob_literal hmany hone]
    refine ⟨?_, ?_⟩
    · rintro ⟨v, rfl, hv⟩
      rw [(ih hf).mp hv]
    · rintro rfl
      exact ⟨f, rfl, (ih hf).mpr rfl⟩

theorem glob_suffix (h : suffixOnly f = some suffix) : Glob f w ↔ ∃ u, w = u ++ '.' :: suffix := by
  obtain ⟨rfl, -, hsuffix⟩ := suffixOnly_eq h
  have hwild : ¬ Wild ('.' :: suffix) := by
    rintro (hmany | hone)
    · rcases List.mem_cons.mp hmany with hc | hc
      · cases hc
      · exact (hsuffix _ hc).2.1 rfl
    · rcases List.mem_cons.mp hone with hc | hc
      · cases hc
      · exact (hsuffix _ hc).2.2 rfl
  rw [glob_many]
  refine exists_congr fun u => ⟨?_, fun hw => ⟨_, hw, (glob_of_not_wild hwild).mpr rfl⟩⟩
  rintro ⟨v, rfl, hv⟩
  rw [(glob_of_not_wild hwild).mp hv]

theorem word_of_suffixOnly (hf : Plain f) (h : suffixOnly f = some suffix) : Word suffix := by
  obtain ⟨rfl, -, hsuffix⟩ := suffixOnly_eq h
  intro c hc
  obtain ⟨hdot, hmany, hone⟩ := hsuffix c hc
  have hplain := hf c (List.mem_cons_of_mem _ (List.mem_cons_of_mem _ hc))
  simp only [List.mem_cons, List.not_mem_nil, or_false, not_or] at hplain
  exact ⟨hdot, hmany, by simp [Regex.Parser.special, hplain, hone]⟩

/-- Where the loop puts a filter. -/
theorem addFilter_spec (state : RegExpCache × List (List Char)) (filter : List Char) :
    (∀ f, f ∈ (addFilter state filter).1.exactMatches ↔ f ∈ state.1.exactMatches ∨ f = filter ∧ ¬ Wild f) ∧
      (∀ pattern, pattern ∈ (addFilter state filter).1.regexpCache ↔ pattern ∈ state.1.regexpCache ∨
        Wild filter ∧ suffixOnly filter = none ∧ translated filter = pattern) ∧
      (addFilter state filter).2 = state.2 ++ (suffixOnly filter).toList := by
  obtain ⟨cache, suffixes⟩ := state
  by_cases hwild : Wild filter
  · have hexact : ∀ f, f ∈ cache.exactMatches ↔ f ∈ cache.exactMatches ∨ f = filter ∧ ¬ Wild f := by
      refine fun f => (or_iff_left ?_).symm
      rintro ⟨rfl, hf⟩
      exact hf hwild
    rw [addFilter, if_neg fun h => hwild.elim h.1 h.2]
    cases hsuffix : suffixOnly filter with
    | some suffix =>
      refine ⟨hexact, fun pattern => (or_iff_left ?_).symm, rfl⟩
      rintro ⟨-, hnone, -⟩
      cases hnone
    | none =>
      refine ⟨hexact, fun pattern => ?_, (List.append_nil suffixes).symm⟩
      rw [List.mem_append, List.mem_singleton, and_iff_right hwild, and_iff_right rfl, eq_comm]
  · have hsuffix : suffixOnly filter = none := by
      cases hsuffix : suffixOnly filter with
      | none => rfl
      | some suffix => exact absurd (wild_of_suffixOnly hsuffix) hwild
    rw [addFilter, if_pos (not_or.mp hwild), hsuffix]
    refine ⟨fun f => ?_, fun pattern => (or_iff_left fun h => hwild h.1).symm, (List.append_nil suffixes).symm⟩
    rw [List.mem_cons, or_comm]
    refine or_congr_right (iff_self_and.mpr ?_)
    rintro rfl
    exact hwild

/-- Where the loop puts the filters. -/
theorem foldl_addFilter (filters : List (List Char)) (state : RegExpCache × List (List Char)) :
    (∀ f, f ∈ (filters.foldl addFilter state).1.exactMatches ↔
        f ∈ state.1.exactMatches ∨ f ∈ filters ∧ ¬ Wild f) ∧
      (∀ pattern, pattern ∈ (filters.foldl addFilter state).1.regexpCache ↔ pattern ∈ state.1.regexpCache ∨
        ∃ f ∈ filters, Wild f ∧ suffixOnly f = none ∧ translated f = pattern) ∧
      (filters.foldl addFilter state).2 = state.2 ++ filters.filterMap suffixOnly := by
  induction filters generalizing state with
  | nil => simp
  | cons filter filters ih =>
    obtain ⟨hexact, hregexp, hsuffixes⟩ := ih (addFilter state filter)
    obtain ⟨hexact', hregexp', hsuffixes'⟩ := addFilter_spec state filter
    rw [List.foldl_cons]
    refine ⟨fun f => ?_, fun pattern => ?_, ?_⟩
    · rw [hexact, hexact', or_assoc, ← or_and_right, List.mem_cons]
    · rw [hregexp, hregexp', or_assoc, List.exists_mem_cons_iff]
    · rw [hsuffixes, hsuffixes', List.append_assoc, List.filterMap_cons]
      cases suffixOnly filter <;> rfl

variable {filters : List (List Char)} {name : List Char} {hasMatch : List Char → List Char → Bool}

theorem hasMatch_suffixMatch (hmatch : Documented newline hasMatch) (hfilters : ∀ f ∈ filters, Plain f)
    (hname : ∀ c ∈ name, newline c = false) :
    hasMatch (suffixMatch (filters.filterMap suffixOnly)) name = true ↔
      (∃ f ∈ filters, suffixOnly f ≠ none ∧ Glob f name) ∨
        (∀ f ∈ filters, suffixOnly f = none) ∧ name.getLast? = some '.' := by
  have hwords : ∀ w ∈ filters.filterMap suffixOnly, Word w := by
    intro w hw
    obtain ⟨f, hf, hsuffix⟩ := List.mem_filterMap.mp hw
    exact word_of_suffixOnly (hfilters f hf) hsuffix
  obtain ⟨r, hr, hmatches⟩ := @parse_suffixMatch newline _ hwords
  rw [hmatch _ r name hr hname, hmatches name hname, List.filterMap_eq_nil_iff, List.getLast?_eq_some_iff]
  constructor
  · rintro ⟨u, v, rfl, hv | ⟨hnone, rfl⟩⟩
    · obtain ⟨f, hf, hsuffix⟩ := List.mem_filterMap.mp hv
      exact .inl ⟨f, hf, by rw [hsuffix]; exact Option.some_ne_none v, (glob_suffix hsuffix).mpr ⟨u, rfl⟩⟩
    · exact .inr ⟨hnone, u, rfl⟩
  · rintro (⟨f, hf, hsome, hglob⟩ | ⟨hnone, u, rfl⟩)
    · obtain ⟨v, hsuffix⟩ := Option.ne_none_iff_exists'.mp hsome
      obtain ⟨u, rfl⟩ := (glob_suffix hsuffix).mp hglob
      exact ⟨u, v, rfl, .inl (List.mem_filterMap.mpr ⟨f, hf, hsuffix⟩)⟩
    · exact ⟨u, [], rfl, .inr ⟨hnone, rfl⟩⟩

theorem exactMatch_true_iff {cache : RegExpCache} : cache.exactMatch hasMatch name = true ↔
    name ∈ cache.exactMatches ∨ ∃ pattern ∈ cache.regexpCache, hasMatch pattern name = true := by
  rw [exactMatch]
  split
  · next h => exact iff_of_true rfl (.inl h)
  · next h => rw [or_iff_right h, List.any_eq_true]

/-- The filters are globs, but for the names that end with a dot. -/
theorem exactMatch_iff (hmatch : Documented newline hasMatch) (hfilters : ∀ f ∈ filters, Plain f)
    (hname : ∀ c ∈ name, newline c = false) :
    (rebuildCacheFromFilterList filters).exactMatch hasMatch name = true ↔
      (∃ f ∈ filters, Glob f name) ∨
        (∀ f ∈ filters, suffixOnly f = none) ∧ name.getLast? = some '.' := by
  obtain ⟨hexact, hregexp, hsuffixes⟩ := foldl_addFilter filters ({}, [])
  have htranslated : ∀ f ∈ filters, (hasMatch (translated f) name = true ↔ Glob f name) := by
    intro f hf
    rw [hmatch _ _ name (parse_translated (hfilters f hf)) hname, matches_item hname]
  have hcache : (rebuildCacheFromFilterList filters).exactMatch hasMatch name = true ↔
      name ∈ (filters.foldl addFilter ({}, [])).1.exactMatches ∨
        hasMatch (suffixMatch (filters.filterMap suffixOnly)) name = true ∨
        ∃ pattern ∈ (filters.foldl addFilter ({}, [])).1.regexpCache, hasMatch pattern name = true := by
    rw [exactMatch_true_iff, ← List.nil_append (filters.filterMap suffixOnly), ← hsuffixes]
    exact or_congr_right (List.exists_mem_cons_iff _ _ _)
  rw [hcache, hexact, hasMatch_suffixMatch hmatch hfilters hname]
  constructor
  · rintro ((h | ⟨hf, hwild⟩) | (⟨f, hf, -, hglob⟩ | hdot) | ⟨pattern, hpattern, h⟩)
    · cases h
    · exact .inl ⟨name, hf, (glob_of_not_wild hwild).mpr rfl⟩
    · exact .inl ⟨f, hf, hglob⟩
    · exact .inr hdot
    · rcases (hregexp pattern).mp hpattern with h | ⟨f, hf, -, -, rfl⟩
      · cases h
      · exact .inl ⟨f, hf, (htranslated f hf).mp h⟩
  · rintro (⟨f, hf, hglob⟩ | hdot)
    · by_cases hwild : Wild f
      · cases hsuffix : suffixOnly f with
        | none =>
          exact .inr (.inr ⟨translated f, (hregexp _).mpr (.inr ⟨f, hf, hwild, hsuffix, rfl⟩),
            (htranslated f hf).mpr hglob⟩)
        | some suffix => exact .inr (.inl (.inl ⟨f, hf, by rw [hsuffix]; exact Option.some_ne_none suffix, hglob⟩))
      · obtain rfl := (glob_of_not_wild hwild).mp hglob
        exact .inl (.inr ⟨hf, hwild⟩)
    · exact .inr (.inl (.inr hdot))

end

/-- A matcher for what `Regex.parse` reads. -/
def matcher (newline : Char → Bool) (pattern subject : List Char) : Bool :=
  ((Regex.parse newline pattern).map (·.accepts subject)).getD false

theorem matcher_documented (newline : Char → Bool) : Documented newline (matcher newline) := by
  intro pattern r subject hr _
  rw [matcher, hr]
  exact Regex.accepts_iff

end RegExpCache

open RegExpCache

/-- The filters exclude exactly what one of them matches as a glob if and only if there is a filter `*.suffix`, or
the name does not end with a dot, or a filter matches it anyway. -/
theorem exclude_filters {newline : Char → Bool} {hasMatch : List Char → List Char → Bool}
    (hmatch : Documented newline hasMatch) {filters : List (List Char)} (hfilters : ∀ f ∈ filters, Plain f)
    {name : List Char} (hname : ∀ c ∈ name, newline c = false) :
    ((rebuildCacheFromFilterList filters).exactMatch hasMatch name = true ↔ ∃ f ∈ filters, Glob f name) ↔
      (∃ f ∈ filters, suffixOnly f ≠ none) ∨ name.getLast? ≠ some '.' ∨ ∃ f ∈ filters, Glob f name := by
  rw [exactMatch_iff hmatch hfilters hname, or_iff_left_iff_imp]
  constructor
  · intro h
    by_cases hsuffix : ∃ f ∈ filters, suffixOnly f ≠ none
    · exact .inl hsuffix
    · by_cases hdot : name.getLast? = some '.'
      · refine .inr (.inr (h ⟨fun f hf => ?_, hdot⟩))
        exact Classical.not_not.mp fun hne => hsuffix ⟨f, hf, hne⟩
      · exact .inr (.inl hdot)
  · rintro (⟨f, hf, hne⟩ | hdot | hglob) ⟨hnone, hlast⟩
    · exact absurd (hnone f hf) hne
    · exact absurd hlast hdot
    · exact hglob

theorem exclude_filters_backup :
    (rebuildCacheFromFilterList [['*', '.', 'o'], ['*', '~']]).exactMatch (matcher (· = '\n')) ['a', '~'] = true ↔
      ∃ f ∈ [['*', '.', 'o'], ['*', '~']], Glob f ['a', '~'] :=
  (exclude_filters (matcher_documented (· = '\n')) (by simp [Plain]) (by simp)).mpr
    (.inl ⟨['*', '.', 'o'], List.mem_cons_self, by simp [suffixOnly]⟩)

/-- Without a filter, a name that ends with a dot is excluded. -/
theorem no_filter_excludes :
    (rebuildCacheFromFilterList []).exactMatch (matcher (· = '\n')) ['a', '.'] = true ∧
      ¬ ∃ f ∈ ([] : List (List Char)), Glob f ['a', '.'] := by
  refine ⟨by decide, ?_⟩
  rintro ⟨f, hf, -⟩
  cases hf

end Baloo
