import Mathlib.Data.List.Basic

/-!
# Regular expressions

Regular expressions over any alphabet, with predicates for classes of characters. `Matches` says what a regular
expression describes, and `accepts`, by derivatives, decides it. `parse` reads the part of Perl's syntax that
needs no more than that: expressions that are anchored at both ends, made of characters, escaped characters,
dots, stars, groups and alternatives. Subjects are taken to be without newlines, so that a dollar stands for the
end of the subject only.
-/

universe u

/-- Regular expressions. -/
inductive Regex (α : Type u) where
  /-- nothing -/
  | epsilon
  /-- a character of a class -/
  | char (p : α → Bool)
  /-- one after the other -/
  | seq (r s : Regex α)
  /-- one or the other -/
  | alt (r s : Regex α)
  /-- any number of times -/
  | star (r : Regex α)

namespace Regex

section

variable {α : Type u}

/-- The strings a regular expression describes. -/
inductive Matches : Regex α → List α → Prop
  /-- nothing -/
  | epsilon : Matches .epsilon []
  /-- a character of the class -/
  | char {p : α → Bool} {c : α} : p c = true → Matches (.char p) [c]
  /-- one after the other -/
  | seq {r s : Regex α} {u v : List α} : Matches r u → Matches s v → Matches (.seq r s) (u ++ v)
  /-- the one -/
  | left {r s : Regex α} {u : List α} : Matches r u → Matches (.alt r s) u
  /-- the other -/
  | right {r s : Regex α} {u : List α} : Matches s u → Matches (.alt r s) u
  /-- no more -/
  | done {r : Regex α} : Matches (.star r) []
  /-- once more -/
  | more {r : Regex α} {u v : List α} : Matches r u → Matches (.star r) v → Matches (.star r) (u ++ v)

variable {r s : Regex α} {p : α → Bool} {c : α} {w : List α}

theorem matches_epsilon : Matches (epsilon : Regex α) w ↔ w = [] := by
  refine ⟨fun h => ?_, ?_⟩
  · cases h
    rfl
  · rintro rfl
    exact .epsilon

theorem matches_char : Matches (char p) w ↔ ∃ c, p c = true ∧ w = [c] := by
  refine ⟨fun h => ?_, ?_⟩
  · cases h with
    | char hc => exact ⟨_, hc, rfl⟩
  · rintro ⟨c, hc, rfl⟩
    exact .char hc

theorem matches_seq : Matches (seq r s) w ↔ ∃ u v, w = u ++ v ∧ Matches r u ∧ Matches s v := by
  refine ⟨fun h => ?_, ?_⟩
  · cases h with
    | seq hu hv => exact ⟨_, _, rfl, hu, hv⟩
  · rintro ⟨u, v, rfl, hu, hv⟩
    exact .seq hu hv

theorem matches_alt : Matches (alt r s) w ↔ Matches r w ∨ Matches s w := by
  refine ⟨fun h => ?_, ?_⟩
  · cases h with
    | left hu => exact .inl hu
    | right hu => exact .inr hu
  · rintro (h | h)
    · exact .left h
    · exact .right h

/-- Any number of characters of a class. -/
theorem matches_star_char : Matches (star (char p)) w ↔ ∀ c ∈ w, p c = true := by
  constructor
  · intro h
    generalize hr : star (char p) = r at h
    induction h with
    | done => exact fun c hc => absurd hc List.not_mem_nil
    | more hu _ _ ih =>
      obtain rfl := Regex.star.inj hr
      obtain ⟨c, hc, rfl⟩ := matches_char.mp hu
      exact List.forall_mem_cons.mpr ⟨hc, ih rfl⟩
    | epsilon | char _ | seq _ _ _ _ | left _ _ | right _ _ => cases hr
  · intro h
    induction w with
    | nil => exact .done
    | cons c w ih =>
      obtain ⟨hc, hw⟩ := List.forall_mem_cons.mp h
      exact .more (.char hc) (ih hw)

/-! ## Derivatives -/

/-- The regular expression describes the empty string. -/
def nullable : Regex α → Bool
  | epsilon => true
  | char _ => false
  | seq r s => r.nullable && s.nullable
  | alt r s => r.nullable || s.nullable
  | star _ => true

/-- What may follow a character. -/
def deriv (c : α) : Regex α → Regex α
  | epsilon => char fun _ => false
  | char p => if p c then epsilon else char fun _ => false
  | seq r s => if r.nullable then alt (seq (r.deriv c) s) (s.deriv c) else seq (r.deriv c) s
  | alt r s => alt (r.deriv c) (s.deriv c)
  | star r => seq (r.deriv c) (star r)

/-- The matcher. -/
def accepts : Regex α → List α → Bool
  | r, [] => r.nullable
  | r, c :: w => (r.deriv c).accepts w

theorem not_matches_fail : ¬ Matches (char fun _ => false) w := by
  rw [matches_char]
  rintro ⟨c, hc, -⟩
  cases hc

theorem nullable_iff : r.nullable = true ↔ Matches r [] := by
  induction r with
  | epsilon => simp [nullable, matches_epsilon]
  | char p => simp [nullable, matches_char]
  | seq r s ihr ihs =>
    rw [nullable, Bool.and_eq_true, ihr, ihs, matches_seq]
    constructor
    · exact fun h => ⟨[], [], rfl, h⟩
    · rintro ⟨u, v, huv, hu, hv⟩
      obtain ⟨rfl, rfl⟩ := List.append_eq_nil_iff.mp huv.symm
      exact ⟨hu, hv⟩
  | alt r s ihr ihs => rw [nullable, Bool.or_eq_true, ihr, ihs, matches_alt]
  | star r _ => exact iff_of_true rfl .done

/-- The first round that is not empty. -/
theorem Matches.star_cons (h : Matches (star r) (c :: w)) :
    ∃ u v, w = u ++ v ∧ Matches r (c :: u) ∧ Matches (star r) v := by
  generalize hr : star r = r' at h
  generalize hw : c :: w = w' at h
  induction h with
  | done => cases hw
  | @more _ u v hu hv _ ih =>
    obtain rfl := Regex.star.inj hr
    cases u with
    | nil => exact ih hr hw
    | cons d u =>
      obtain ⟨rfl, rfl⟩ := List.cons.inj hw
      exact ⟨u, v, rfl, hu, hv⟩
  | epsilon | char _ | seq _ _ _ _ | left _ _ | right _ _ => cases hr

theorem deriv_iff : Matches (r.deriv c) w ↔ Matches r (c :: w) := by
  induction r generalizing w with
  | epsilon =>
    rw [deriv, matches_epsilon]
    exact iff_of_false not_matches_fail (List.cons_ne_nil c w)
  | char p =>
    rw [deriv, matches_char]
    split
    · next hc =>
      rw [matches_epsilon]
      constructor
      · rintro rfl
        exact ⟨c, hc, rfl⟩
      · rintro ⟨d, -, heq⟩
        exact (List.cons.inj heq).2
    · next hc =>
      refine iff_of_false not_matches_fail ?_
      rintro ⟨d, hd, heq⟩
      exact hc ((List.cons.inj heq).1 ▸ hd)
  | seq r s ihr ihs =>
    have hfirst : Matches (seq (r.deriv c) s) w ↔ ∃ u v, w = u ++ v ∧ Matches r (c :: u) ∧ Matches s v := by
      simp only [matches_seq, ihr]
    have hsplit : Matches (seq r s) (c :: w) ↔
        (∃ u v, w = u ++ v ∧ Matches r (c :: u) ∧ Matches s v) ∨ Matches r [] ∧ Matches s (c :: w) := by
      rw [matches_seq]
      constructor
      · rintro ⟨u, v, huv, hu, hv⟩
        cases u with
        | nil => exact .inr ⟨hu, huv ▸ hv⟩
        | cons d u =>
          obtain ⟨rfl, rfl⟩ := List.cons.inj huv
          exact .inl ⟨u, v, rfl, hu, hv⟩
      · rintro (⟨u, v, rfl, hu, hv⟩ | ⟨hu, hv⟩)
        · exact ⟨c :: u, v, rfl, hu, hv⟩
        · exact ⟨[], c :: w, rfl, hu, hv⟩
    rw [hsplit, deriv, ← nullable_iff]
    split
    · next hr => rw [matches_alt, hfirst, ihs, and_iff_right hr]
    · next hr => rw [hfirst, or_iff_left fun h => hr h.1]
  | alt r s ihr ihs => rw [deriv, matches_alt, matches_alt, ihr, ihs]
  | star r ih =>
    rw [deriv, matches_seq]
    constructor
    · rintro ⟨u, v, rfl, hu, hv⟩
      exact .more (ih.mp hu) hv
    · intro h
      obtain ⟨u, v, hw, hu, hv⟩ := h.star_cons
      exact ⟨u, v, hw, ih.mpr hu, hv⟩

/-- The matcher decides what is described. -/
theorem accepts_iff : r.accepts w = true ↔ Matches r w := by
  induction w generalizing r with
  | nil => exact nullable_iff
  | cons c w ih => rw [accepts, ih, deriv_iff]

/-! ## Sequences and alternatives -/

/-- One after the other. -/
def seqOf : List (Regex α) → Regex α
  | [] => epsilon
  | r :: rs => seq r (seqOf rs)

/-- One of them. -/
def altOf : List (Regex α) → Regex α
  | [] => char fun _ => false
  | [r] => r
  | r :: s :: rs => alt r (altOf (s :: rs))

theorem matches_altOf {rs : List (Regex α)} : Matches (altOf rs) w ↔ ∃ r ∈ rs, Matches r w := by
  induction rs with
  | nil =>
    refine iff_of_false not_matches_fail ?_
    rintro ⟨r, hr, -⟩
    cases hr
  | cons r rs ih =>
    rw [List.exists_mem_cons_iff]
    cases rs with
    | nil =>
      rw [altOf, or_iff_left]
      rintro ⟨s, hs, -⟩
      cases hs
    | cons s rs => rw [altOf, matches_alt, ih]

/-- This string. -/
def word [DecidableEq α] (v : List α) : Regex α := seqOf (v.map fun c => char (· = c))

theorem matches_word [DecidableEq α] {v : List α} : Matches (word v) w ↔ w = v := by
  induction v generalizing w with
  | nil => exact matches_epsilon
  | cons c v ih =>
    rw [word, List.map_cons, seqOf, matches_seq, ← word]
    simp only [matches_char, decide_eq_true_eq, ih]
    constructor
    · rintro ⟨_, _, rfl, ⟨c, rfl, rfl⟩, rfl⟩
      rfl
    · rintro rfl
      exact ⟨[c], v, rfl, ⟨c, rfl, rfl⟩, rfl⟩

end

/-! ## Syntax -/

/-- What has been read of a group: the alternatives before the current one, in order, and the items of the
current one, the last one first. -/
structure Group where
  /-- the alternatives before -/
  alternatives : List (Regex Char) := []
  /-- the items -/
  items : List (Regex Char) := []

/-- The regular expression of a group. -/
def Group.regex (g : Group) : Regex Char := altOf (g.alternatives ++ [seqOf g.items.reverse])

/-- What the parser knows: the group it is in, the groups around it, and whether there was a backslash. -/
structure Parser where
  /-- the groups around -/
  around : List Group := []
  /-- the group -/
  group : Group := {}
  /-- a backslash -/
  escaped : Bool := false

namespace Parser

/-- An item. -/
def push (s : Parser) (r : Regex Char) : Parser := { s with group := { s.group with items := r :: s.group.items } }

/-- A star. -/
def repeated (s : Parser) : Option Parser :=
  match s.group.items with
  | [] => none
  | .star _ :: _ => none
  | r :: items => some { s with group := { s.group with items := .star r :: items } }

/-- A vertical bar. -/
def alternative (s : Parser) : Parser :=
  { s with group := { alternatives := s.group.alternatives ++ [seqOf s.group.items.reverse] } }

/-- An opening parenthesis. -/
def opened (s : Parser) : Parser := { s with around := s.group :: s.around, group := {} }

/-- A closing parenthesis. -/
def closed (s : Parser) : Option Parser :=
  match s.around with
  | [] => none
  | group :: around => some ({ s with around := around, group := group }.push s.group.regex)

/-- What has a meaning that is not read here. -/
def special : List Char := ['^', '$', '[', ']', '{', '}', '+', '?']

/-- A character. -/
def step (newline : Char → Bool) (s : Parser) (c : Char) : Option Parser :=
  if s.escaped then
    if c.isAlphanum then none else some { s.push (char (· = c)) with escaped := false }
  else if c = '\\' then some { s with escaped := true }
  else if c = '.' then some (s.push (char fun d => !newline d))
  else if c = '*' then s.repeated
  else if c = '|' then some s.alternative
  else if c = '(' then some s.opened
  else if c = ')' then s.closed
  else if c ∈ special then none
  else some (s.push (char (· = c)))

end Parser

/-- A regular expression that is anchored at both ends. -/
def parse (newline : Char → Bool) (pattern : List Char) : Option (Regex Char) :=
  if pattern.head? = some '^' ∧ pattern.tail.getLast? = some '$' then
    (pattern.tail.dropLast.foldlM (Parser.step newline) {}).bind fun s =>
      if s.around.isEmpty && s.group.alternatives.isEmpty && !s.escaped then some (seqOf s.group.items.reverse)
      else none
  else none

/-- What is between the anchors is read character by character. -/
theorem parse_anchored (newline : Char → Bool) {body : List Char} {items : List (Regex Char)}
    (h : body.foldlM (Parser.step newline) {} = some { group := { items := items } }) :
    parse newline ('^' :: (body ++ ['$'])) = some (seqOf items.reverse) := by
  rw [parse, if_pos ⟨rfl, List.getLast?_concat⟩, List.tail_cons, List.dropLast_concat, h]
  rfl

end Regex
