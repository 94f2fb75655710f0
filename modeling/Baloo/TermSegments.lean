import Baloo.Lib.Fuel
import Baloo.TermGenerator

/-!
# The segments of a text

`TermGenerator::termList` walks over the word boundaries of a text. Three cursors go along: the start of the next
term, the next underscore, and the place of the boundary finder, which is set back when there is an underscore before
the boundary. A term is made at the start or the end of a word, at an underscore, before punctuation and at the end.

The boundaries are any strictly increasing list with the end of the text in it (`TextBoundaryFinder`), and which
characters are skipped is not looked at either, but the underscore is. Whatever they are, the walk ends, and what it
has cut out of the text is all that is not skipped (`text_segmented`).
-/

namespace Baloo

open Fuel (Returns)

/-! ## The loop -/

/-- What Qt knows about characters and texts. -/
structure Characters where
  /-- `QChar::isMark` -/
  isMark : QChar → Bool
  /-- `QChar::toLower` -/
  toLower : QChar → QChar
  /-- `QString::normalized` with `NormalizationForm_KD` -/
  normalizedKD : List QChar → List QChar
  /-- `QString::normalized` with `NormalizationForm_KC` -/
  normalizedKC : List QChar → List QChar
  /-- `QStringView::toUtf8` -/
  toUtf8 : List QChar → QByteArray
  /-- nothing comes from nothing -/
  normalizedKD_nil : normalizedKD [] = []
  /-- nothing comes from nothing -/
  normalizedKC_nil : normalizedKC [] = []

/-- A `QTextBoundaryFinder` for the words of a text of this size. -/
structure TextBoundaryFinder (size : ℕ) where
  /-- where a boundary is -/
  boundaries : List ℕ
  /-- they ascend -/
  ascending : boundaries.Pairwise (· < ·)
  /-- they are in the text -/
  bounded : ∀ b ∈ boundaries, b ≤ size
  /-- the end of the text is one -/
  atEnd : size ∈ boundaries
  /-- the reason `StartOfItem` -/
  startOfItem : ℕ → Bool
  /-- the reason `EndOfItem` -/
  endOfItem : ℕ → Bool

/-- `QTextBoundaryFinder::toNextBoundary`, from a position; `none` is `-1`. -/
def TextBoundaryFinder.toNextBoundary {size : ℕ} (bf : TextBoundaryFinder size) (position : ℕ) : Option ℕ :=
  bf.boundaries.find? (position < ·)

namespace TermList

/-- `u'_'`. -/
def underscore : QChar := latin1Char '_'

/-- `QChar::isHighSurrogate`. -/
def isHighSurrogate (c : QChar) : Bool := c &&& 0xfc00 = 0xd800

/-- `QChar::isLowSurrogate`. -/
def isLowSurrogate (c : QChar) : Bool := c &&& 0xfc00 = 0xdc00

/-- `QChar::isSurrogate`. -/
def isSurrogate (c : QChar) : Bool := c &&& 0xf800 = 0xd800

/-- The loop of `verifySurrogates`. -/
def verifySurrogatesLoop : List QChar → Bool
  | c :: d :: text =>
    if !isSurrogate c then verifySurrogatesLoop (d :: text)
    else if isLowSurrogate c then false
    else if !isLowSurrogate d then false
    else verifySurrogatesLoop text
  | _ => true

/-- `verifySurrogates`. -/
def verifySurrogates (text : List QChar) : Bool :=
  match text.reverse with
  | [] => true
  | [back] => !isSurrogate back
  | back :: back2 :: _ =>
    verifySurrogatesLoop text &&
      if !isSurrogate back then true
      else if isHighSurrogate back then false
      else isHighSurrogate back2

variable (chars : Characters) (isSkipChar : QChar → Bool) (text : List QChar)

/-- `normalizeTerm`. -/
def normalizeTerm (str : List QChar) : List QChar :=
  chars.normalizedKC (((chars.normalizedKD str).filter fun c => !chars.isMark c).map chars.toLower)

/-- `TermGenerator::maxTermSize`. -/
def maxTermSize : ℕ := 25

/-- `appendTerm`. -/
def appendTerm (list : List Term) (term : List QChar) : List Term :=
  if term = [] then list
  else
    -- truncate the string to avoid arbitrarily long terms
    let utf8 := chars.toUtf8 (term.take maxTermSize)
    if utf8 ≠ [] then list ++ [utf8] else list

/-- `text.indexOf(u'_', from)`, and the size of the text if there is none. -/
def indexOfUnderscore (start : ℕ) : ℕ :=
  ((List.range text.length).find? fun i => start ≤ i ∧ text[i]? = some underscore).getD text.length

/-- The inner loop, with the number of characters that are left before the boundary. -/
def skipChars : ℕ → ℕ → ℕ
  | 0, start => start
  | n + 1, start => if (text[start]?).any isSkipChar then skipChars n (start + 1) else start

/-- The variables of the loop, the place of the boundary finder, and the segments that have been committed. -/
structure Progress where
  /-- `start` -/
  start : ℕ
  /-- `nextUnderscore` -/
  nextUnderscore : ℕ
  /-- where the boundary finder is -/
  position : ℕ
  /-- `list` -/
  list : List Term
  /-- the segments that have been committed -/
  segments : List (ℕ × ℕ)

/-- Before the loop. -/
def Progress.initial : Progress := ⟨0, indexOfUnderscore text 0, 0, [], []⟩

/-- `text.mid(start, end - start)`. -/
def segmentText (segment : ℕ × ℕ) : List QChar := (text.drop segment.1).take (segment.2 - segment.1)

/-- The term from `start` to `end` is committed. -/
def Progress.commit (s : Progress) (endPos : ℕ) : Progress :=
  { s with
    start := endPos
    list := appendTerm chars s.list (normalizeTerm chars (segmentText text (s.start, endPos)))
    segments := s.segments ++ [(s.start, endPos)] }

variable {text} in
/-- The body of the loop, with the boundary that has been found. -/
def Progress.step (bf : TextBoundaryFinder text.length) (s : Progress) (boundary : ℕ) : Progress :=
  let s := { s with start := skipChars isSkipChar text (boundary - s.start) s.start, position := boundary }
  if boundary = s.start then s
  else if s.nextUnderscore < boundary then
    let endPos := if s.nextUnderscore < s.start then s.start else s.nextUnderscore
    Progress.commit chars text
      { s with position := min endPos text.length, nextUnderscore := indexOfUnderscore text (endPos + 1) } endPos
  else if bf.startOfItem boundary || bf.endOfItem boundary || boundary = text.length ||
      (text[boundary]?).any isSkipChar then s.commit chars text boundary
  else s

variable {text} in
/-- The loop of `TermGenerator::termList`. -/
def termListLoop (bf : TextBoundaryFinder text.length) : ℕ → Progress → Option Progress
  | 0, _ => none
  | n + 1, s =>
    match bf.toNextBoundary s.position with
    | none => some s
    | some boundary => termListLoop bf n (s.step chars isSkipChar bf boundary)

variable {text} in
/-- `TermGenerator::termList`. -/
def termList (bf : TextBoundaryFinder text.length) (fuel : ℕ) : Option (List Term) :=
  if !verifySurrogates text then some []
  else (termListLoop chars isSkipChar bf fuel (.initial text)).map Progress.list

/-! ## What has been committed -/

section

variable {chars : Characters} {isSkipChar : QChar → Bool} {text : List QChar} {start start' endPos i n : ℕ}
  {segments : List (ℕ × ℕ)}

/-- What the segments cover of the text in front of a place. -/
structure Cut (isSkipChar : QChar → Bool) (text : List QChar) (start : ℕ) (segments : List (ℕ × ℕ)) : Prop where
  /-- a segment lies in front of the place -/
  within : ∀ segment ∈ segments, segment.1 ≤ segment.2 ∧ segment.2 ≤ start
  /-- one segment is behind the other -/
  ordered : segments.Pairwise fun a b => a.2 ≤ b.1
  /-- no underscore is in a segment -/
  clean : ∀ segment ∈ segments, ∀ i, segment.1 ≤ i → i < segment.2 → text[i]? ≠ some underscore
  /-- what is not in a segment can be skipped -/
  covered : ∀ i c, i < start → text[i]? = some c → isSkipChar c = false →
    ∃ segment ∈ segments, segment.1 ≤ i ∧ i < segment.2

theorem Cut.nothing : Cut isSkipChar text 0 [] where
  within _ h := absurd h List.not_mem_nil
  ordered := .nil
  clean _ h := absurd h List.not_mem_nil
  covered i _ h := absurd h (Nat.not_lt_zero i)

/-- Characters are skipped. -/
theorem Cut.skip (h : Cut isSkipChar text start segments) (hle : start ≤ start')
    (hskip : ∀ i c, start ≤ i → i < start' → text[i]? = some c → isSkipChar c = true) :
    Cut isSkipChar text start' segments where
  within segment hmem := (h.within segment hmem).imp_right fun hlast => hlast.trans hle
  ordered := h.ordered
  clean := h.clean
  covered i c hi hc hkeep := by
    rcases Nat.lt_or_ge i start with hlt | hge
    · exact h.covered i c hlt hc hkeep
    · exact absurd (hkeep.symm.trans (hskip i c hge hi hc)) Bool.false_ne_true

/-- A segment is cut out. -/
theorem Cut.commit (h : Cut isSkipChar text start segments) (hle : start ≤ endPos)
    (hclean : ∀ i, start ≤ i → i < endPos → text[i]? ≠ some underscore) :
    Cut isSkipChar text endPos (segments ++ [(start, endPos)]) where
  within := List.forall_mem_append.mpr
    ⟨fun segment hmem => (h.within segment hmem).imp_right fun hlast => hlast.trans hle,
      List.forall_mem_singleton.mpr ⟨hle, le_rfl⟩⟩
  ordered := by
    refine List.pairwise_append.mpr ⟨h.ordered, List.pairwise_singleton _ _, fun segment hmem last hlast => ?_⟩
    rw [List.mem_singleton.mp hlast]
    exact (h.within segment hmem).2
  clean := List.forall_mem_append.mpr ⟨h.clean, List.forall_mem_singleton.mpr hclean⟩
  covered i c hi hc hkeep := by
    rcases Nat.lt_or_ge i start with hlt | hge
    · obtain ⟨segment, hmem, hin⟩ := h.covered i c hlt hc hkeep
      exact ⟨segment, List.mem_append_left _ hmem, hin⟩
    · exact ⟨(start, endPos), List.mem_append_right _ List.mem_cons_self, hge, hi⟩

/-- Segments in order are disjoint. -/
theorem apart_of_ordered (h : segments.Pairwise fun a b => a.2 ≤ b.1) {a b : ℕ × ℕ} (ha : a ∈ segments)
    (hb : b ∈ segments) : a = b ∨ a.2 ≤ b.1 ∨ b.2 ≤ a.1 := by
  induction h with
  | nil => exact absurd ha List.not_mem_nil
  | cons hfirst _ ih =>
    rcases List.mem_cons.mp ha with rfl | ha'
    · rcases List.mem_cons.mp hb with rfl | hb'
      · exact .inl rfl
      · exact .inr (.inl (hfirst b hb'))
    · rcases List.mem_cons.mp hb with rfl | hb'
      · exact .inr (.inr (hfirst a ha'))
      · exact ih ha' hb'

/-- Where the inner loop ends, and what it has passed. -/
theorem skipChars_spec (isSkipChar : QChar → Bool) (text : List QChar) (n start : ℕ) :
    start ≤ skipChars isSkipChar text n start ∧ skipChars isSkipChar text n start ≤ start + n ∧
      (∀ i c, start ≤ i → i < skipChars isSkipChar text n start → text[i]? = some c → isSkipChar c = true) ∧
      (skipChars isSkipChar text n start < start + n →
        (text[skipChars isSkipChar text n start]?).any isSkipChar = false) := by
  induction n generalizing start with
  | zero =>
    have hsame : skipChars isSkipChar text 0 start = start := rfl
    rw [hsame]
    exact ⟨le_rfl, le_rfl, fun i c hge hlt => absurd hlt (Nat.not_lt.mpr hge), fun hlt => absurd hlt (lt_irrefl _)⟩
  | succ n ih =>
    rw [skipChars]
    split
    · next hany =>
      obtain ⟨hle, hbound, hskipped, hkept⟩ := ih (start + 1)
      refine ⟨by omega, by omega, fun i c hge hlt hc => ?_, fun hlt => hkept (by omega)⟩
      rcases hge.eq_or_lt with rfl | hgt
      · rw [hc] at hany
        exact hany
      · exact hskipped i c hgt hlt hc
    · next hany =>
      exact ⟨le_rfl, Nat.le_add_right _ _, fun i c hge hlt => absurd hlt (Nat.not_lt.mpr hge),
        fun _ => Bool.eq_false_iff.mpr hany⟩

/-- The next underscore, if there is one, is behind the place, and there is none between. -/
theorem indexOfUnderscore_spec (text : List QChar) (start : ℕ) :
    indexOfUnderscore text start ≤ text.length ∧
      (start ≤ indexOfUnderscore text start ∨ indexOfUnderscore text start = text.length) ∧
      ∀ i, start ≤ i → i < indexOfUnderscore text start → text[i]? ≠ some underscore := by
  rw [indexOfUnderscore]
  cases hfind : (List.range text.length).find? fun i => start ≤ i ∧ text[i]? = some underscore with
  | none =>
    refine ⟨le_rfl, .inr rfl, fun i hge hlt hc => ?_⟩
    have hnone := List.find?_eq_none.mp hfind i (List.mem_range.mpr hlt)
    exact hnone (decide_eq_true ⟨hge, hc⟩)
  | some found =>
    obtain ⟨hfound, before, behind, hsplit, hbefore⟩ := List.find?_eq_some_iff_append.mp hfind
    have hmem : found ∈ List.range text.length := List.mem_of_find?_eq_some hfind
    refine ⟨(List.mem_range.mp hmem).le, .inl (of_decide_eq_true hfound).1, fun i hge hlt hc => ?_⟩
    have hrange : i ∈ before := by
      have hall : i ∈ List.range text.length := List.mem_range.mpr (lt_trans hlt (List.mem_range.mp hmem))
      rw [hsplit, List.mem_append, List.mem_cons] at hall
      rcases hall with hi | rfl | hi
      · exact hi
      · exact absurd hlt (lt_irrefl _)
      · have hsorted := List.pairwise_lt_range (n := text.length)
        rw [hsplit, List.pairwise_append] at hsorted
        exact absurd (List.rel_of_pairwise_cons hsorted.2.1 hi) (Nat.not_lt.mpr hlt.le)
    have hnot := hbefore i hrange
    rw [Bool.not_eq_true', decide_eq_false_iff_not] at hnot
    exact hnot ⟨hge, hc⟩

theorem toNextBoundary_spec {size : ℕ} (bf : TextBoundaryFinder size) {position boundary : ℕ}
    (h : bf.toNextBoundary position = some boundary) : position < boundary ∧ boundary ≤ size := by
  rw [TextBoundaryFinder.toNextBoundary] at h
  have hfound := List.find?_some h
  exact ⟨of_decide_eq_true hfound, bf.bounded _ (List.mem_of_find?_eq_some h)⟩

/-- There is a next boundary up to the end of the text. -/
theorem toNextBoundary_none {size : ℕ} (bf : TextBoundaryFinder size) {position : ℕ}
    (h : bf.toNextBoundary position = none) : size ≤ position :=
  Nat.not_lt.mp fun hlt => List.find?_eq_none.mp h size bf.atEnd (decide_eq_true hlt)

end

/-! ## The walk -/

section

variable {chars : Characters} {isSkipChar : QChar → Bool} {text : List QChar} {s : Progress} {boundary : ℕ}

/-- The terms of segments. -/
def termsOf (chars : Characters) (text : List QChar) (segments : List (ℕ × ℕ)) : List Term :=
  segments.foldl (fun list segment => appendTerm chars list (normalizeTerm chars (segmentText text segment))) []

/-- How the three cursors lie. -/
structure Walking (chars : Characters) (isSkipChar : QChar → Bool) (text : List QChar) (s : Progress) : Prop where
  /-- the start is not behind the boundary finder -/
  behind : s.start ≤ s.position
  /-- the boundary finder is in the text -/
  inside : s.position ≤ text.length
  /-- at the end everything has been committed -/
  finished : s.position = text.length → s.start = text.length
  /-- between the start and the next underscore there is none -/
  noUnderscore : ∀ i, s.start < i → i < s.nextUnderscore → text[i]? ≠ some underscore
  /-- what has been committed -/
  cut : Cut isSkipChar text s.start s.segments
  /-- the terms are those of the segments -/
  listed : s.list = termsOf chars text s.segments

theorem Walking.initial : Walking chars isSkipChar text (.initial text) where
  behind := le_rfl
  inside := Nat.zero_le _
  finished h := h
  noUnderscore i _ hlt := (indexOfUnderscore_spec text 0).2.2 i (Nat.zero_le i) hlt
  cut := .nothing
  listed := rfl

/-- The start moves over characters that are skipped. -/
theorem Walking.skip (h : Walking chars isSkipChar text s) {start' : ℕ} (hle : s.start ≤ start')
    (hskip : ∀ i c, s.start ≤ i → i < start' → text[i]? = some c → isSkipChar c = true) :
    Cut isSkipChar text start' s.segments ∧
      ∀ i, start' < i → i < s.nextUnderscore → text[i]? ≠ some underscore :=
  ⟨h.cut.skip hle hskip, fun i hgt => h.noUnderscore i (lt_of_le_of_lt hle hgt)⟩

theorem termsOf_concat (chars : Characters) (text : List QChar) (segments : List (ℕ × ℕ)) (segment : ℕ × ℕ) :
    termsOf chars text (segments ++ [segment]) =
      appendTerm chars (termsOf chars text segments) (normalizeTerm chars (segmentText text segment)) := by
  rw [termsOf, List.foldl_append]
  rfl

/-- How many rounds are left at most. -/
def Progress.rounds (text : List QChar) (s : Progress) : ℕ :=
  (text.length - s.nextUnderscore) * (text.length + 1) + (text.length - s.position)

/-- An underscore is passed. -/
theorem rounds_lt_of_underscore {s' : Progress} (hlt : s.nextUnderscore < s'.nextUnderscore)
    (hle : s'.nextUnderscore ≤ text.length) : s'.rounds text < s.rounds text := by
  obtain ⟨d, hd⟩ : ∃ d, text.length - s.nextUnderscore = (text.length - s'.nextUnderscore) + 1 + d :=
    ⟨text.length - s.nextUnderscore - (text.length - s'.nextUnderscore) - 1, by omega⟩
  rw [Progress.rounds, Progress.rounds, hd, Nat.add_mul, Nat.add_mul, Nat.one_mul]
  omega

/-- A boundary is passed. -/
theorem rounds_lt_of_position {s' : Progress} (hsame : s'.nextUnderscore = s.nextUnderscore)
    (hlt : s.position < s'.position) (hle : s'.position ≤ text.length) : s'.rounds text < s.rounds text := by
  rw [Progress.rounds, Progress.rounds, hsame]
  omega

theorem listed_commit (h : s.list = termsOf chars text s.segments) (endPos : ℕ) :
    (s.commit chars text endPos).list = termsOf chars text (s.commit chars text endPos).segments := by
  rw [Progress.commit, h]
  exact (termsOf_concat chars text s.segments (s.start, endPos)).symm

/-- Behind an underscore, the boundary finder is set back. -/
theorem walking_setBack {endPos : ℕ} (hcut : Cut isSkipChar text s.start s.segments)
    (hlisted : s.list = termsOf chars text s.segments) (hge : s.start ≤ endPos) (hlt : endPos < text.length)
    (hno : ∀ i, s.start ≤ i → i < endPos → text[i]? ≠ some underscore) :
    Walking chars isSkipChar text (Progress.commit chars text
      { s with position := min endPos text.length, nextUnderscore := indexOfUnderscore text (endPos + 1) } endPos) := by
  have hmin : min endPos text.length = endPos := min_eq_left hlt.le
  refine ⟨?_, min_le_right _ _, fun heq => hmin.symm.trans heq, fun i hgt => ?_, hcut.commit hge hno,
    listed_commit hlisted endPos⟩
  · exact le_of_eq hmin.symm
  · exact (indexOfUnderscore_spec text (endPos + 1)).2.2 i hgt

/-- **A round** keeps the cursors in order, and there are fewer left. -/
theorem Walking.step (h : Walking chars isSkipChar text s) (hskip : isSkipChar underscore = true)
    (bf : TextBoundaryFinder text.length) (hnext : bf.toNextBoundary s.position = some boundary) :
    Walking chars isSkipChar text (s.step chars isSkipChar bf boundary) ∧
      (s.step chars isSkipChar bf boundary).rounds text < s.rounds text := by
  obtain ⟨hposition, hboundary⟩ := toNextBoundary_spec bf hnext
  obtain ⟨hle, hbound, hskipped, hkept⟩ := skipChars_spec isSkipChar text (boundary - s.start) s.start
  have hbehind := h.behind
  rw [Nat.add_sub_cancel' (by omega)] at hbound hkept
  rw [Progress.step]
  generalize skipChars isSkipChar text (boundary - s.start) s.start = start' at *
  obtain ⟨hcut, hnone⟩ := h.skip hle hskipped
  dsimp only
  split
  · -- everything up to the boundary is skipped
    next heq =>
    subst heq
    exact ⟨⟨le_rfl, hboundary, id, hnone, hcut, h.listed⟩, rounds_lt_of_position rfl hposition hboundary⟩
  · next hne =>
    have hstart : start' < boundary := lt_of_le_of_ne hbound (Ne.symm hne)
    -- the first character is kept, so it is no underscore
    have hfirst : text[start']? ≠ some underscore := by
      intro hc
      have hnot := hkept hstart
      rw [hc, Option.any_some, hskip] at hnot
      cases hnot
    have hclean : ∀ i, start' ≤ i → i < s.nextUnderscore → text[i]? ≠ some underscore := by
      intro i hge hlt
      rcases hge.eq_or_lt with rfl | hgt
      · exact hfirst
      · exact hnone i hgt hlt
    split
    · next hunderscore =>
      generalize hend : (if s.nextUnderscore < start' then start' else s.nextUnderscore) = endPos
      have hrange : start' ≤ endPos ∧ s.nextUnderscore ≤ endPos ∧ endPos < boundary ∧
          ∀ i, start' ≤ i → i < endPos → text[i]? ≠ some underscore := by
        split at hend
        · subst hend
          exact ⟨le_rfl, by omega, hstart, fun i hge hlt => absurd hlt (Nat.not_lt.mpr hge)⟩
        · subst hend
          exact ⟨by omega, le_rfl, hunderscore, hclean⟩
      obtain ⟨hge, hpast, hlt, hno⟩ := hrange
      obtain ⟨hsize, hbeyond, -⟩ := indexOfUnderscore_spec text (endPos + 1)
      refine ⟨@walking_setBack _ _ _ { s with start := start', position := boundary } endPos hcut h.listed hge
        (hlt.trans_le hboundary) hno, rounds_lt_of_underscore ?_ hsize⟩
      change s.nextUnderscore < indexOfUnderscore text (endPos + 1)
      omega
    · next hunderscore =>
      have hno : ∀ i, start' ≤ i → i < boundary → text[i]? ≠ some underscore := fun i hge hlt =>
        hclean i hge (by omega)
      split
      · refine ⟨⟨le_rfl, hboundary, id, fun i hgt => hnone i (lt_of_le_of_lt hbound hgt), hcut.commit hbound hno, ?_⟩,
          rounds_lt_of_position rfl hposition hboundary⟩
        exact @listed_commit _ _ { s with start := start', position := boundary } h.listed boundary
      · next hcommit =>
        refine ⟨⟨hbound, hboundary, fun heq => ?_, hnone, hcut, h.listed⟩,
          rounds_lt_of_position rfl hposition hboundary⟩
        have hend : boundary = text.length := heq
        exact absurd (by simp [hend]) hcommit

/-- The walk ends. -/
theorem Walking.returns (h : Walking chars isSkipChar text s) (hskip : isSkipChar underscore = true)
    (bf : TextBoundaryFinder text.length) :
    ∃ s', (∀ n, s.rounds text < n → termListLoop chars isSkipChar bf n s = some s') ∧
      Walking chars isSkipChar text s' ∧ s'.start = text.length := by
  induction hrounds : s.rounds text using Nat.strong_induction_on generalizing s with
  | _ rounds ih =>
    subst hrounds
    cases hnext : bf.toNextBoundary s.position with
    | none =>
      refine ⟨s, fun n hn => ?_, h, h.finished (le_antisymm h.inside (toNextBoundary_none bf hnext))⟩
      obtain ⟨n, rfl⟩ := Nat.exists_eq_add_of_lt hn
      simp only [termListLoop, hnext]
    | some boundary =>
      obtain ⟨hstep, hlt⟩ := h.step hskip bf hnext
      obtain ⟨s', hloop, hwalking, hend⟩ := ih _ hlt hstep rfl
      refine ⟨s', fun n hn => ?_, hwalking, hend⟩
      obtain ⟨n, rfl⟩ : ∃ m, n = m + 1 := ⟨n - 1, by omega⟩
      simp only [termListLoop, hnext]
      exact hloop n (by omega)

end

/-- What the loop leaves of a text: its segments, and their terms. -/
structure Segmented (chars : Characters) (isSkipChar : QChar → Bool) (text : List QChar) (s : Progress) : Prop where
  /-- a segment lies in the text -/
  inText : ∀ segment ∈ s.segments, segment.1 ≤ segment.2 ∧ segment.2 ≤ text.length
  /-- a segment is not empty, or it gives no term -/
  nonempty : ∀ segment ∈ s.segments, segment.1 < segment.2 ∨
    ∀ list, appendTerm chars list (normalizeTerm chars (segmentText text segment)) = list
  /-- a segment ends before the next one starts -/
  ascending : s.segments.Pairwise fun a b => a.2 ≤ b.1
  /-- no underscore is in a segment -/
  clean : ∀ segment ∈ s.segments, ∀ i, segment.1 ≤ i → i < segment.2 → text[i]? ≠ some underscore
  /-- a character that is not skipped is in one segment -/
  covers : ∀ i c, text[i]? = some c → isSkipChar c = false →
    ∃! segment, segment ∈ s.segments ∧ segment.1 ≤ i ∧ i < segment.2
  /-- the terms are those of the segments -/
  listed : s.list = termsOf chars text s.segments

variable {chars isSkipChar text} in
theorem Walking.segmented {s : Progress} (h : Walking chars isSkipChar text s) (hend : s.start = text.length) :
    Segmented chars isSkipChar text s where
  inText := hend ▸ h.cut.within
  nonempty segment hmem := by
    rcases (h.cut.within segment hmem).1.lt_or_eq with hlt | heq
    · exact .inl hlt
    · refine .inr fun list => ?_
      have hempty : segmentText text segment = [] := by rw [segmentText, heq, Nat.sub_self, List.take_zero]
      have hterm : normalizeTerm chars [] = [] := by
        rw [normalizeTerm, chars.normalizedKD_nil, List.filter_nil, List.map_nil, chars.normalizedKC_nil]
      rw [hempty, hterm]
      exact if_pos rfl
  ascending := h.cut.ordered
  clean := h.cut.clean
  covers i c hc hkeep := by
    have hlt : i < s.start := hend ▸ (List.getElem?_eq_some_iff.mp hc).1
    obtain ⟨segment, hmem, hin⟩ := h.cut.covered i c hlt hc hkeep
    refine ⟨segment, ⟨hmem, hin⟩, ?_⟩
    rintro other ⟨hother, hge, hlt'⟩
    by_contra hne
    have hapart := (apart_of_ordered h.cut.ordered hother hmem).resolve_left hne
    omega
  listed := h.listed

/-- **A text is cut into segments**: the loop ends, the segments are in order and without underscores, and what is
not skipped is in one of them. -/
theorem text_segmented (hskip : isSkipChar underscore = true) (bf : TextBoundaryFinder text.length) :
    ∃ s, Returns (fun n => termListLoop chars isSkipChar bf n (.initial text)) s ∧
      Segmented chars isSkipChar text s := by
  obtain ⟨s, hloop, hwalking, hend⟩ := (Walking.initial : Walking chars isSkipChar text _).returns hskip bf
  exact ⟨s, ⟨_, fun n hn => hloop n (Nat.lt_of_succ_le hn)⟩, hwalking.segmented hend⟩

/-- Letters as they are. -/
def plainCharacters : Characters where
  isMark _ := false
  toLower c := c
  normalizedKD str := str
  normalizedKC str := str
  toUtf8 str := str.map fun c => c.toUInt8
  normalizedKD_nil := rfl
  normalizedKC_nil := rfl

/-- `a_b` is a single word. -/
def oneWord : TextBoundaryFinder ([97, underscore, 98] : List QChar).length where
  boundaries := [0, 3]
  ascending := by simp
  bounded := by simp
  atEnd := by simp
  startOfItem position := position = 0
  endOfItem position := position = 3

/-- `a_b` is cut at the underscore. -/
theorem text_segmented_ab :
    ∃ s, Returns (fun n => termListLoop plainCharacters (· = underscore) oneWord n
        (.initial [97, underscore, 98])) s ∧
      Segmented plainCharacters (· = underscore) [97, underscore, 98] s :=
  text_segmented plainCharacters (· = underscore) [97, underscore, 98] (decide_eq_true rfl) oneWord

example : termList plainCharacters (· = underscore) oneWord 4 = some [[97], [98]] := by decide

/-! ## The terms of all texts -/

theorem nil_notMem_appendTerm {list : List Term} (h : [] ∉ list) (term : List QChar) :
    [] ∉ appendTerm chars list term := by
  rw [appendTerm]
  split
  · exact h
  · dsimp only
    split
    · next hne =>
      rw [List.mem_append, List.mem_singleton]
      exact fun hmem => hmem.elim h fun heq => hne heq.symm
    · exact h

theorem nil_notMem_termListLoop (bf : TextBoundaryFinder text.length) {n : ℕ} {s s' : Progress} (h : [] ∉ s.list)
    (hloop : termListLoop chars isSkipChar bf n s = some s') : [] ∉ s'.list := by
  induction n generalizing s with
  | zero => cases hloop
  | succ n ih =>
    rw [termListLoop] at hloop
    split at hloop
    · cases hloop
      exact h
    · refine ih ?_ hloop
      rw [Progress.step]
      dsimp only
      split
      · exact h
      · split
        · exact nil_notMem_appendTerm chars h _
        · split
          · exact nil_notMem_appendTerm chars h _
          · exact h

/-- The terms of a text, when each text has its boundaries. -/
def tokenizer (finder : (text : List QChar) → TextBoundaryFinder text.length) : Tokenizer where
  termList text := (termList chars isSkipChar (finder text) ((text.length + 1) * (text.length + 1))).getD []
  ne_nil text := by
    rw [termList]
    split
    · exact List.not_mem_nil
    · cases hloop : termListLoop chars isSkipChar (finder text) ((text.length + 1) * (text.length + 1))
        (.initial text) with
      | none => exact List.not_mem_nil
      | some s => exact nil_notMem_termListLoop chars isSkipChar text (finder text) List.not_mem_nil hloop

/-- The terms of a text are those of its segments. -/
theorem tokenizer_termList (hskip : isSkipChar underscore = true)
    (finder : (text : List QChar) → TextBoundaryFinder text.length) (htext : verifySurrogates text = true) :
    ∃ s, Segmented chars isSkipChar text s ∧
      (tokenizer chars isSkipChar finder).termList text = termsOf chars text s.segments := by
  obtain ⟨s, hloop, hwalking, hend⟩ :=
    (Walking.initial : Walking chars isSkipChar text _).returns hskip (finder text)
  have hrounds : Progress.rounds text (.initial text) < (text.length + 1) * (text.length + 1) := by
    have hle : (text.length - indexOfUnderscore text 0) * (text.length + 1) ≤ text.length * (text.length + 1) :=
      Nat.mul_le_mul_right _ (Nat.sub_le _ _)
    have hsquare : (text.length + 1) * (text.length + 1) = text.length * (text.length + 1) + (text.length + 1) :=
      Nat.succ_mul _ _
    rw [hsquare]
    simp only [Progress.rounds, Progress.initial]
    omega
  refine ⟨s, hwalking.segmented hend, ?_⟩
  have hterms : termList chars isSkipChar (finder text) ((text.length + 1) * (text.length + 1)) = some s.list := by
    rw [termList, htext, hloop _ hrounds]
    rfl
  rw [← hwalking.listed]
  exact congrArg (Option.getD · []) hterms

end TermList

end Baloo
