import Baloo.QueryMeaning
import Mathlib.Algebra.GroupWithZero.Nat

/-!
# Quoted text

The lexer leaves what stands between quotes alone, but it does not tell the parser that there were any. A quoted
`AND` is an operator for the parser, a quoted text that begins with a parenthesis is a parenthesis, and one that
looks like a comparison is one. All other quoted texts are words, and behind a property and a colon every quoted
text is a value (`quoted_text`). That a text taken for something else is lost is seen by counting values.
-/

namespace Baloo.Search

/-- A text in double quotes. -/
def quoted (s : List QChar) : List QChar := latin1Char '"' :: (s ++ [latin1Char '"'])

/-- The parser takes such a token for an operator or a parenthesis. -/
def isStructural (s : List QChar) : Bool :=
  s = latin1String ['A', 'N', 'D'] || s = latin1String ['O', 'R'] || isParenthesis (s.headD 0) ||
    Parser.comparatorOf (s.headD 0) s ≠ .auto

/-- Words with the spaces behind them. -/
def wordsBefore (before : List (Word × List QChar)) : List QChar := before.flatMap fun b => b.1.chars ++ b.2

/-- Words with the spaces before them. -/
def wordsAfter (after : List (List QChar × Word)) : List QChar := after.flatMap fun a => a.1 ++ a.2.chars

/-- There is a space, and there is nothing else. -/
def Gap (spaces : List QChar) : Prop := spaces ≠ [] ∧ ∀ c ∈ spaces, isSpace c = true

/-- Terms joined by juxtaposition. -/
def juxtaposed : List Term → Term
  | [t] => t
  | ts => .ofTerms .and ts

/-! ## The tokens -/

section Lexing

variable {ts : List QString} {token : QString} {s text : List QChar} {before : List (Word × List QChar)}
  {after : List (List QChar × Word)}

/-- A quote starts or ends a string. -/
theorem lexLoop_quote (inQuotes : Bool) : lexLoop ⟨ts, token, inQuotes⟩ (latin1Char '"' :: text) =
    if inQuotes then lexLoop ⟨ts ++ [token], none, false⟩ text else lexLoop ⟨ts, token, true⟩ text := by
  conv_lhs => unfold lexLoop
  exact if_pos rfl

theorem lexLoop_inQuotes (h : latin1Char '"' ∉ s) :
    lexLoop ⟨ts, token, true⟩ (s ++ latin1Char '"' :: text) =
      lexLoop ⟨ts ++ [s.foldl QString.append token], none, false⟩ text := by
  induction s generalizing token with
  | nil => exact (lexLoop_quote true).trans (if_pos rfl)
  | cons c s ih =>
    obtain ⟨hc, hs⟩ := not_or.mp fun hmem => h (List.mem_cons.mpr hmem)
    have hround : lexLoop ⟨ts, token, true⟩ (c :: (s ++ latin1Char '"' :: text)) =
        lexLoop ⟨ts, token.append c, true⟩ (s ++ latin1Char '"' :: text) := by
      conv_lhs => unfold lexLoop
      rw [if_neg (Ne.symm hc), if_pos rfl]
    rw [List.cons_append, hround]
    exact ih hs

theorem foldl_append (c : QChar) (s : List QChar) : s.foldl QString.append (some [c]) = some (c :: s) := by
  have hall : ∀ (s l : List QChar), s.foldl QString.append (some l) = some (l ++ s) := by
    intro s
    induction s with
    | nil => exact fun l => congrArg some (List.append_nil l).symm
    | cons d s ih => exact fun l => (ih (l ++ [d])).trans (congrArg some (List.append_assoc l [d] s))
  exact hall s [c]

/-- A quoted text is a token. -/
theorem lexLoop_quoted (hs : s ≠ []) (h : latin1Char '"' ∉ s) :
    lexLoop ⟨ts, none, false⟩ (quoted s ++ text) = lexLoop ⟨ts ++ [some s], none, false⟩ text := by
  obtain ⟨c, s, rfl⟩ := List.exists_cons_of_ne_nil hs
  have hquotes := @lexLoop_inQuotes ts none (c :: s) text h
  rw [List.foldl_cons] at hquotes
  rw [quoted, List.cons_append, List.append_assoc, List.singleton_append, ← foldl_append]
  exact ((lexLoop_quote false).trans (if_neg Bool.false_ne_true)).trans hquotes

theorem lexLoop_gap {w : List QChar} {gap : List QChar} (hw : w ≠ []) (hgap : Gap gap) :
    lexLoop ⟨ts, some w, false⟩ (gap ++ text) = lexLoop ⟨ts ++ [some w], none, false⟩ text := by
  obtain ⟨hne, hspaces⟩ := hgap
  obtain ⟨c, gap, rfl⟩ := List.exists_cons_of_ne_nil hne
  obtain ⟨hc, hgap⟩ := List.forall_mem_cons.mp hspaces
  have hend : Lexer.endToken ⟨ts, some w, false⟩ = ⟨ts ++ [some w], none, false⟩ :=
    if_neg (by simpa [QString.isEmpty, QString.chars] using hw)
  rw [List.cons_append, lexLoop_space hc, hend, lexLoop_spaces hgap]

theorem lexLoop_wordsBefore (h : ∀ b ∈ before, Gap b.2) : lexLoop ⟨ts, none, false⟩ (wordsBefore before ++ text) =
    lexLoop ⟨ts ++ before.map fun b => some b.1.chars, none, false⟩ text := by
  induction before generalizing ts with
  | nil => simp [wordsBefore]
  | cons b before ih =>
    obtain ⟨hb, h⟩ := List.forall_mem_cons.mp h
    have hshape : wordsBefore (b :: before) ++ text = b.1.chars ++ (b.2 ++ (wordsBefore before ++ text)) := by
      simp [wordsBefore]
    rw [hshape, lexLoop_wordChars b.1.wordChars b.1.ne_nil, QString.chars, Option.getD_none, List.nil_append,
      lexLoop_gap b.1.ne_nil hb, ih h, List.map_cons, List.append_assoc, List.singleton_append]

theorem lexLoop_wordsAfter (h : ∀ a ∈ after, Gap a.1) :
    (lexLoop ⟨ts, none, false⟩ (wordsAfter after)).endToken.tokenList =
      ts ++ after.map fun a => some a.2.chars := by
  induction after generalizing ts with
  | nil => simp [wordsAfter, lexLoop, Lexer.endToken, QString.isEmpty, QString.chars]
  | cons a after ih =>
    obtain ⟨ha, h⟩ := List.forall_mem_cons.mp h
    have hhead : ∀ d ∈ (wordsAfter after).head?, isWordChar d = false ∧ d ≠ latin1Char '"' := by
      intro d hd
      have hspace : isSpace d = true := by
        cases after with
        | nil => cases hd
        | cons a' after =>
          obtain ⟨hne, hspaces⟩ := (List.forall_mem_cons.mp h).1
          refine hspaces d (List.mem_of_mem_head? ?_)
          rwa [wordsAfter, List.flatMap_cons, List.append_assoc, List.head?_append_of_ne_nil _ hne] at hd
      refine ⟨?_, ?_⟩
      · rw [isWordChar, hspace]
        rfl
      · rintro rfl
        cases hspace
    have hshape : wordsAfter (a :: after) = a.1 ++ (a.2.chars ++ wordsAfter after) := by
      simp [wordsAfter]
    rw [hshape, lexLoop_spaces ha.2, lexLoop_wordToken a.2.wordChars a.2.ne_nil hhead, ih h, List.map_cons,
      List.append_assoc, List.singleton_append]

theorem lex_quoted (hs : s ≠ []) (h : latin1Char '"' ∉ s) (hbefore : ∀ b ∈ before, Gap b.2)
    (hafter : ∀ a ∈ after, Gap a.1) : lex (wordsBefore before ++ (quoted s ++ wordsAfter after)) =
      (before.map fun b => some b.1.chars) ++ some s :: after.map fun a => some a.2.chars := by
  rw [lex, lexLoop_wordsBefore hbefore, lexLoop_quoted hs h, lexLoop_wordsAfter hafter, List.nil_append,
    List.append_assoc, List.singleton_append]

theorem lex_property (p : Word) (hs : s ≠ []) (h : latin1Char '"' ∉ s) (hbefore : ∀ b ∈ before, Gap b.2)
    (hafter : ∀ a ∈ after, Gap a.1) :
    lex (wordsBefore before ++ (p.chars ++ latin1Char ':' :: (quoted s ++ wordsAfter after))) =
      (before.map fun b => some b.1.chars) ++ some p.chars :: some [latin1Char ':'] :: some s ::
        after.map fun a => some a.2.chars := by
  have hcolon : ∀ ts, lexLoop ⟨ts, none, false⟩ (latin1Char ':' :: (quoted s ++ wordsAfter after)) =
      lexLoop ⟨ts ++ [some [latin1Char ':']], none, false⟩ (quoted s ++ wordsAfter after) := fun ts =>
    lexLoop_comparison .colon fun d hd => by
      obtain rfl := Option.some.inj hd
      rfl
  rw [lex, lexLoop_wordsBefore hbefore,
    lexLoop_wordToken p.wordChars p.ne_nil (fun d hd => by
      obtain rfl := Option.some.inj hd
      exact ⟨rfl, by simp [latin1Char]⟩),
    hcolon, lexLoop_quoted hs h, lexLoop_wordsAfter hafter]
  simp

end Lexing

/-! ## What is read as words -/

namespace Parser

/-- Reading the tokens joins a term to what is pending, wherever the parser is ready. -/
def Adds (tokens : List QString) (t : Term) : Prop :=
  ∀ s : Parser, s.Ready → ∃ s', tokens.foldlM Parser.read s = some s' ∧
    Leads s s' (s.pending.1.join s.pending.2 t) .and

theorem toLatin1_eq_iff {c d : QChar} (hd : d ≠ 0) (hle : ¬ 0xff < d) : toLatin1 c = d ↔ c = d := by
  rw [toLatin1]
  split
  · next hc =>
    refine iff_of_false (Ne.symm hd) ?_
    rintro rfl
    exact hle hc
  · exact Iff.rfl

theorem comparatorOf_toLatin1 (c : QChar) (token : List QChar) :
    comparatorOf (toLatin1 c) token = comparatorOf c token := by
  simp only [comparatorOf, toLatin1_eq_iff (show latin1Char ':' ≠ 0 by decide) (by decide),
    toLatin1_eq_iff (show latin1Char '=' ≠ 0 by decide) (by decide),
    toLatin1_eq_iff (show latin1Char '<' ≠ 0 by decide) (by decide),
    toLatin1_eq_iff (show latin1Char '>' ≠ 0 by decide) (by decide)]

variable {s : Parser} {token : List QChar}

/-- What is not structural starts a term. -/
theorem read_literal (h : s.valueExpected = false) (htoken : isStructural token = false) :
    s.read (some token) = some (s.startTerm (some token)) := by
  simp only [isStructural, Bool.or_eq_false_iff, decide_eq_false_iff_not, isParenthesis, not_or, ne_eq,
    not_not] at htoken
  obtain ⟨⟨⟨hand, hor⟩, hopen, hclose⟩, hauto⟩ := htoken
  rw [read, if_neg (by simp [h]), if_neg (by simpa using hand), if_neg (by simpa using hor)]
  refine (if_neg ?_).trans ((if_neg ?_).trans ?_)
  · exact fun heq => hopen ((toLatin1_eq_iff (by decide) (by decide)).mp heq)
  · exact fun heq => hclose ((toLatin1_eq_iff (by decide) (by decide)).mp heq)
  · refine if_neg fun hne => hne ?_
    exact (comparatorOf_toLatin1 _ _).trans hauto

theorem adds_literal (hne : token ≠ []) (htoken : isStructural token = false) :
    Adds [some token] (.ofProperty none (some token) .contains) := by
  intro s hs
  refine ⟨s.startTerm (some token), ?_, hs.startTerm token .contains none ?_⟩
  · rw [List.foldlM_cons, read_literal hs.valueExpected htoken]
    rfl
  · simp [Term.isEmpty]

theorem adds_word (w : Word) : Adds [some w.chars] (.ofProperty none (some w.chars) .contains) := by
  intro s hs
  refine ⟨s.startTerm (some w.chars), ?_, hs.startTerm w.chars .contains none ?_⟩
  · rw [List.foldlM_cons, read_word hs.valueExpected]
    rfl
  · simp [Term.isEmpty]

/-- Behind a property and a colon, every text is a value. -/
theorem adds_property (p : Word) (token : List QChar) : Adds [some p.chars, some [latin1Char ':'], some token]
    (.ofProperty (some p.chars) (some token) .contains) := by
  intro s hs
  refine ⟨{ s.startTerm (some p.chars) with
    termInConstruction := .mk .none .contains (some p.chars) (some token) [] }, ?_,
    hs.startTerm token .contains (some p.chars) (by simp [Term.isEmpty])⟩
  have hvalue : (s.startTerm (some p.chars)).valueExpected = false := hs.settle.2.2
  have hproperty : QString.isEmpty (some p.chars) = false := by
    simpa [QString.isEmpty, QString.chars] using p.ne_nil
  have hread : read { s.startTerm (some p.chars) with
      termInConstruction := (s.startTerm (some p.chars)).termInConstruction.setComparator .contains
      valueExpected := true } (some token) = _ := read_value rfl hproperty
  have hcolon : (s.startTerm (some p.chars)).read (some [latin1Char ':']) = _ := read_comparison hvalue .colon
  rw [List.foldlM_cons, read_word hs.valueExpected, Option.bind_eq_bind, Option.bind_some, List.foldlM_cons, hcolon,
    Option.bind_eq_bind, Option.bind_some, List.foldlM_cons]
  refine (congrArg (· >>= _) hread).trans ?_
  rw [← hvalue]
  rfl

/-- Items are read one after another. -/
theorem reads_items {items : List (List QString × Term)} (hitems : ∀ i ∈ items, Adds i.1 i.2) {s : Parser}
    (hs : s.Ready) {t : Term} (hpending : s.pending = (t, .and)) :
    ∃ s', (items.flatMap Prod.fst).foldlM Parser.read s = some s' ∧
      Leads s s' ((items.map Prod.snd).foldl (fun acc t => acc.join .and t) t) .and := by
  induction items generalizing s t with
  | nil => exact ⟨s, rfl, hs, hpending, rfl, rfl⟩
  | cons i items ih =>
    obtain ⟨hi, hitems⟩ := List.forall_mem_cons.mp hitems
    obtain ⟨s₁, hreads₁, hleads₁⟩ := hi s hs
    rw [hpending] at hleads₁
    obtain ⟨s₂, hreads₂, hleads₂⟩ := ih hitems hleads₁.ready hleads₁.pending
    refine ⟨s₂, ?_, hleads₂.ready, hleads₂.pending, hleads₂.stack.trans hleads₁.stack, hleads₂.ops.trans hleads₁.ops⟩
    rw [List.flatMap_cons, List.foldlM_append, hreads₁]
    exact hreads₂

end Parser

/-- A term made of a property and a value. -/
def Term.IsLeaf (t : Term) : Prop := t.operation = .none ∧ t.isEmpty = false

theorem isLeaf_ofProperty {property : QString} {value : List QChar} {c : Comparator} :
    (Term.ofProperty property (some value) c).IsLeaf := by
  refine ⟨rfl, ?_⟩
  rw [Term.ofProperty]
  split <;> simp_all [Term.isEmpty]

theorem juxtaposed_join {ts : List Term} (hts : ∀ t ∈ ts, t.IsLeaf) (hne : ts ≠ []) {t : Term} (ht : t.IsLeaf) :
    (juxtaposed ts).join .and t = juxtaposed (ts ++ [t]) := by
  have hright : t.operands .and = [t] := if_neg (by rw [ht.1]; decide)
  cases ts with
  | nil => exact absurd rfl hne
  | cons first ts =>
    cases ts with
    | nil =>
      obtain ⟨hop, hempty⟩ := hts first List.mem_cons_self
      have hleft : first.operands .and = [first] := if_neg (by rw [hop]; decide)
      rw [juxtaposed, Term.join, hempty, ht.2, hleft, hright]
      rfl
    | cons second ts =>
      have hleft : (Term.ofTerms .and (first :: second :: ts)).operands .and = first :: second :: ts := if_pos rfl
      have hempty : (Term.ofTerms .and (first :: second :: ts)).isEmpty = false := by
        simp [Term.ofTerms, Term.isEmpty]
      have hseveral : juxtaposed (first :: second :: ts) = .ofTerms .and (first :: second :: ts) := rfl
      rw [hseveral, Term.join, hempty, ht.2, hleft, hright]
      rfl

theorem foldl_join {ts us : List Term} (hts : ∀ t ∈ ts, t.IsLeaf) (hus : ∀ t ∈ us, t.IsLeaf) (hne : ts ≠ []) :
    us.foldl (fun acc t => acc.join .and t) (juxtaposed ts) = juxtaposed (ts ++ us) := by
  induction us generalizing ts with
  | nil => rw [List.append_nil]; rfl
  | cons t us ih =>
    obtain ⟨ht, hus⟩ := List.forall_mem_cons.mp hus
    rw [List.foldl_cons, juxtaposed_join hts hne ht, ih ?_ hus (by simp), List.append_assoc, List.singleton_append]
    exact List.forall_mem_append.mpr ⟨hts, List.forall_mem_cons.mpr ⟨ht, fun _ h => absurd h List.not_mem_nil⟩⟩

/-- A text whose tokens are those of the items is parsed to their terms. -/
theorem parse_items {items : List (List QString × Term)} (hitems : ∀ i ∈ items, Parser.Adds i.1 i.2)
    (hleaves : ∀ i ∈ items, i.2.IsLeaf) (hne : items ≠ []) {text : List QChar}
    (htext : lex text = items.flatMap Prod.fst) : parse text = juxtaposed (items.map Prod.snd) := by
  have hready : Parser.initial.Ready := ⟨List.cons_ne_nil _ _, List.cons_ne_nil _ _, rfl⟩
  obtain ⟨s, hreads, hleads⟩ := Parser.reads_items hitems hready rfl
  have hterms : ∀ t ∈ items.map Prod.snd, t.IsLeaf := by
    intro t ht
    obtain ⟨i, hi, rfl⟩ := List.mem_map.mp ht
    exact hleaves i hi
  rw [parse, htext, hreads]
  refine (hleads.ready.finish hleads.stack).trans ?_
  rw [hleads.pending]
  obtain ⟨i, items, rfl⟩ := List.exists_cons_of_ne_nil hne
  obtain ⟨hi, hterms⟩ := List.forall_mem_cons.mp hterms
  rw [List.map_cons, List.foldl_cons]
  exact @foldl_join [i.2] _ (List.forall_mem_cons.mpr ⟨hi, fun _ h => absurd h List.not_mem_nil⟩) hterms
    (List.cons_ne_nil _ _)

/-! ## What is lost -/

/-- How many leaves of a term have a value. -/
def Term.valued (t : Term) : ℕ := (t.leaves.filter fun l => l.value.isSome).length

theorem valued_join_le {lhs rhs : Term} {op : Operation} (hop : op ≠ .none) :
    (lhs.join op rhs).valued ≤ lhs.valued + rhs.valued := by
  rcases hl : lhs.isEmpty with _ | _
  · rcases hr : rhs.isEmpty with _ | _
    · rw [Term.valued, Term.leaves_join hop hl hr, List.filter_append, List.length_append]
      exact Nat.le_refl _
    · have hjoin : lhs.join op rhs = lhs := by rw [Term.join, hl, hr]; rfl
      rw [hjoin]
      exact Nat.le_add_right _ _
  · have hjoin : lhs.join op rhs = rhs := by rw [Term.join, hl]; rfl
    rw [hjoin]
    exact Nat.le_add_left _ _

namespace Parser

/-- How many values the parser has read and not lost. -/
def valued (s : Parser) : ℕ := (s.stack.map Term.valued).sum + s.termInConstruction.valued

/-- The operations the parser joins with. -/
def Joins (s : Parser) : Prop := ∀ op ∈ s.ops, op ≠ .none

variable {s s' : Parser} {token : QString}

theorem Joins.top (h : s.Joins) : s.top ≠ .none := by
  rw [Parser.top]
  cases hops : s.ops with
  | nil => decide
  | cons op ops => exact h op (hops ▸ List.mem_cons_self)

theorem sum_addTermToStack_le {op : Operation} (hop : op ≠ .none) (stack : List Term) (t : Term) :
    ((addTermToStack stack t op).map Term.valued).sum ≤ (stack.map Term.valued).sum + t.valued := by
  cases stack with
  | nil => exact Nat.zero_le _
  | cons tos stack =>
    have hle := @valued_join_le tos t op hop
    simp only [addTermToStack, List.map_cons, List.sum_cons]
    omega

theorem sum_addTerm_le (h : s.Joins) : (s.addTerm.stack.map Term.valued).sum ≤ s.valued :=
  sum_addTermToStack_le h.top s.stack s.termInConstruction

theorem valued_empty : Term.empty.valued = 0 := rfl

theorem valued_setComparator (t : Term) (c : Comparator) : (t.setComparator c).valued = t.valued := by
  obtain ⟨op, comp, property, value, subTerms⟩ := t
  cases op with
  | none => cases value <;> rfl
  | and => rfl
  | or => rfl

theorem valued_setValue_le (t : Term) (property value : QString) :
    ((t.setProperty property).setValue value).valued ≤ t.valued + 1 := by
  obtain ⟨op, comp, property', value', subTerms⟩ := t
  cases op with
  | none => cases value <;> simp [Term.valued, Term.leaves, Term.setProperty, Term.setValue]
  | and => exact Nat.le_succ _
  | or => exact Nat.le_succ _

theorem Joins.setTop (h : s.Joins) {op : Operation} (hop : op ≠ .none) : (s.setTop op).Joins :=
  List.forall_mem_cons.mpr ⟨hop, fun op hmem => h op (List.mem_of_mem_tail hmem)⟩

theorem sum_stack_le (s : Parser) : (s.stack.map Term.valued).sum ≤ s.valued := Nat.le_add_right _ _

/-- The term in construction is added before another one is started. -/
theorem Joins.settle_le (h : s.Joins) :
    ((if s.termInConstruction.isEmpty then s else s.addTerm.setTop .and).stack.map Term.valued).sum ≤ s.valued ∧
      (if s.termInConstruction.isEmpty then s else s.addTerm.setTop .and).Joins := by
  split
  · exact ⟨sum_stack_le s, h⟩
  · exact ⟨sum_addTerm_le h, Joins.setTop (s := s.addTerm) h (by decide)⟩

theorem Joins.logic_le (h : s.Joins) {op : Operation} (hop : op ≠ .none) :
    (s.logic op).valued ≤ s.valued ∧ (s.logic op).Joins := by
  rw [Parser.logic]
  split
  · exact ⟨Nat.le_refl _, h.setTop hop⟩
  · exact ⟨sum_addTerm_le h, Joins.setTop (s := s.addTerm) h hop⟩

theorem Joins.openGroup_le (h : s.Joins) : s.openGroup.valued ≤ s.valued ∧ s.openGroup.Joins := by
  obtain ⟨hsum, hjoins⟩ := h.settle_le
  refine ⟨?_, List.forall_mem_cons.mpr ⟨by decide, hjoins⟩⟩
  rw [Parser.valued, Parser.openGroup, List.map_cons, List.sum_cons, valued_empty, Nat.zero_add, Nat.add_zero]
  exact hsum

theorem Joins.closeGroup_le (h : s.Joins) : s.closeGroup.valued ≤ s.valued ∧ s.closeGroup.Joins := by
  have hadded : (((if s.termInConstruction.isEmpty then s else s.addTerm)).stack.map Term.valued).sum ≤ s.valued ∧
      (if s.termInConstruction.isEmpty then s else s.addTerm).Joins := by
    split
    · exact ⟨sum_stack_le s, h⟩
    · exact ⟨sum_addTerm_le h, h⟩
  rw [Parser.closeGroup]
  split
  · generalize (if s.termInConstruction.isEmpty then s else s.addTerm) = added at *
    obtain ⟨hsum, hjoins⟩ := hadded
    have htail : Joins { added with ops := added.ops.tail } := fun op hmem => hjoins op (List.mem_of_mem_tail hmem)
    refine ⟨?_, Joins.setTop (s := { added with ops := added.ops.tail }) htail (by decide)⟩
    refine Nat.le_trans ?_ hsum
    rw [Parser.valued, Parser.setTop]
    dsimp only
    rw [valued_empty, Nat.add_zero]
    refine Nat.le_trans (sum_addTermToStack_le htail.top _ _) ?_
    cases added.stack with
    | nil => exact Nat.le_refl 0
    | cons t stack => exact Nat.le_of_eq (Nat.add_comm (stack.map Term.valued).sum t.valued)
  · exact ⟨Nat.le_refl _, h⟩

theorem Joins.startTerm_le (h : s.Joins) (token : QString) :
    (s.startTerm token).valued ≤ s.valued + 1 ∧ (s.startTerm token).Joins := by
  obtain ⟨hsum, hjoins⟩ := h.settle_le
  have hvalued : (Term.ofProperty none token .auto).valued ≤ 1 := by
    cases token with
    | none => exact Nat.zero_le 1
    | some chars => exact Nat.le_refl 1
  exact ⟨Nat.add_le_add hsum hvalued, hjoins⟩

theorem isStructural_of_not_auto {token : QString} (hand : ¬ token = some (latin1String ['A', 'N', 'D']))
    (hor : ¬ token = some (latin1String ['O', 'R'])) (hopen : ¬ toLatin1 (token.chars.headD 0) = latin1Char '(')
    (hclose : ¬ toLatin1 (token.chars.headD 0) = latin1Char ')')
    (hauto : comparatorOf (toLatin1 (token.chars.headD 0)) token.chars = .auto) :
    isStructural token.chars = false := by
  rw [toLatin1_eq_iff (by decide) (by decide)] at hopen hclose
  rw [comparatorOf_toLatin1] at hauto
  have hne : ∀ w : List QChar, w ≠ [] → ¬ token = some w → token.chars ≠ w := by
    intro w hw hne heq
    cases token with
    | none => exact hw heq.symm
    | some chars => exact hne (congrArg some heq)
  have hand' : token.chars ≠ latin1String ['A', 'N', 'D'] := hne _ (List.cons_ne_nil _ _) hand
  have hor' : token.chars ≠ latin1String ['O', 'R'] := hne _ (List.cons_ne_nil _ _) hor
  simp only [isStructural, isParenthesis, hopen, hclose, hauto, hand', hor', decide_false, Bool.or_false, or_false,
    ne_eq, not_true_eq_false]

/-- **Reading a token** adds at most one value, and none where it is read as an operator or a parenthesis. -/
theorem Joins.read_le (h : s.Joins) (hread : s.read token = some s') :
    s'.valued ≤ s.valued + (if s.valueExpected = false ∧ isStructural token.chars = true then 0 else 1) ∧
      s'.Joins := by
  have hleast : ∀ {n : ℕ}, s'.valued ≤ s.valued → s'.valued ≤ s.valued + n := fun hle => Nat.le_add_right_of_le hle
  rw [read] at hread
  split at hread
  · next hvalue =>
    dsimp only at hread
    split at hread
    · cases hread
    · obtain rfl := Option.some.inj hread
      rw [if_neg fun h => Bool.false_ne_true (h.1.symm.trans hvalue)]
      exact ⟨Nat.add_le_add_left (valued_setValue_le _ _ _) _, h⟩
  · split at hread
    · obtain rfl := Option.some.inj hread
      exact (h.logic_le (by decide)).imp_left hleast
    · next hand =>
      split at hread
      · obtain rfl := Option.some.inj hread
        exact (h.logic_le (by decide)).imp_left hleast
      · next hor =>
        dsimp only at hread
        split at hread
        · obtain rfl := Option.some.inj hread
          exact h.openGroup_le.imp_left hleast
        · next hopen =>
          split at hread
          · obtain rfl := Option.some.inj hread
            exact h.closeGroup_le.imp_left hleast
          · next hclose =>
            split at hread
            · obtain rfl := Option.some.inj hread
              refine ⟨hleast (Nat.add_le_add_left ?_ _), h⟩
              exact Nat.le_of_eq (valued_setComparator _ _)
            · next hauto =>
              obtain rfl := Option.some.inj hread
              have hnot := isStructural_of_not_auto hand hor hopen hclose (not_not.mp hauto)
              rw [if_neg fun h => Bool.false_ne_true (hnot.symm.trans h.2)]
              exact h.startTerm_le token

/-- Reading tokens adds at most one value for each. -/
theorem Joins.reads_le (h : s.Joins) {tokens : List QString} (hreads : tokens.foldlM Parser.read s = some s') :
    s'.valued ≤ s.valued + tokens.length ∧ s'.Joins := by
  induction tokens generalizing s with
  | nil =>
    obtain rfl := Option.some.inj hreads
    exact ⟨Nat.le_refl _, h⟩
  | cons token tokens ih =>
    rw [List.foldlM_cons, Option.bind_eq_bind, Option.bind_eq_some_iff] at hreads
    obtain ⟨s₁, hread, hreads⟩ := hreads
    obtain ⟨hle, hjoins⟩ := h.read_le hread
    obtain ⟨hle', hjoins'⟩ := ih hjoins hreads
    refine ⟨?_, hjoins'⟩
    rw [List.length_cons]
    split at hle <;> omega

theorem closeAll_le {op : Operation} (hop : op ≠ .none) (stack : List Term) :
    (closeAll op stack).valued ≤ (stack.map Term.valued).sum := by
  cases stack with
  | nil => exact Nat.le_refl 0
  | cons t stack =>
    rw [closeAll, List.map_cons, List.sum_cons]
    induction stack generalizing t with
    | nil => exact Nat.le_refl _
    | cons tos stack ih =>
      have hle := @valued_join_le tos t op hop
      have hfold := ih (tos.join op t)
      rw [List.foldl_cons, List.map_cons, List.sum_cons]
      omega

theorem Joins.finish_le (h : s.Joins) : s.finish.valued ≤ s.valued := by
  -- a value that is still expected is left out
  obtain ⟨s₁, hs₁, hle₁, hjoins₁⟩ : ∃ s₁ : Parser, s₁ = (if s.valueExpected then
      { s with termInConstruction := ((s.termInConstruction.setProperty s.termInConstruction.value).setValue
          none).setComparator .contains } else s) ∧ s₁.valued ≤ s.valued ∧ s₁.Joins := by
    refine ⟨_, rfl, ?_⟩
    split
    · refine ⟨Nat.add_le_add_left ?_ _, h⟩
      rw [valued_setComparator]
      obtain ⟨op, comp, property, value, subTerms⟩ := s.termInConstruction
      cases op with
      | none => exact Nat.zero_le _
      | and => exact Nat.le_refl _
      | or => exact Nat.le_refl _
    · exact ⟨Nat.le_refl _, h⟩
  obtain ⟨s₂, hs₂, hle₂, hjoins₂⟩ : ∃ s₂ : Parser, s₂ = (if s₁.termInConstruction.isEmpty then s₁ else s₁.addTerm) ∧
      (s₂.stack.map Term.valued).sum ≤ s₁.valued ∧ s₂.Joins := by
    refine ⟨_, rfl, ?_⟩
    split
    · exact ⟨sum_stack_le s₁, hjoins₁⟩
    · exact ⟨sum_addTerm_le hjoins₁, hjoins₁⟩
  have htail : Joins { s₂ with ops := s₂.ops.tail } := fun op hmem => hjoins₂ op (List.mem_of_mem_tail hmem)
  have hfinish : s.finish = closeAll (Parser.top { s₂ with ops := s₂.ops.tail }) s₂.stack := by
    rw [hs₂, hs₁]
    rfl
  rw [hfinish]
  exact Nat.le_trans (closeAll_le htail.top s₂.stack) (Nat.le_trans hle₂ hle₁)

end Parser

/-- A term made of a value and perhaps a property. -/
def Term.HasValue (t : Term) : Prop := t.IsLeaf ∧ t.value.isSome = true

theorem hasValue_ofProperty {property : QString} {value : List QChar} {c : Comparator} :
    (Term.ofProperty property (some value) c).HasValue := ⟨isLeaf_ofProperty, rfl⟩

theorem Term.HasValue.valued_eq {t : Term} (h : t.HasValue) : t.valued = 1 := by
  obtain ⟨op, comp, property, value, subTerms⟩ := t
  obtain rfl : op = .none := h.1.1
  obtain ⟨chars, rfl⟩ := Option.isSome_iff_exists.mp h.2
  rfl

theorem valued_juxtaposed {ts : List Term} (hts : ∀ t ∈ ts, t.HasValue) : (juxtaposed ts).valued = ts.length := by
  have hall : ((Term.leavesOf ts).filter fun l => l.value.isSome).length = ts.length := by
    induction ts with
    | nil => rfl
    | cons t ts ih =>
      obtain ⟨ht, hts⟩ := List.forall_mem_cons.mp hts
      have hvalued := ht.valued_eq
      rw [Term.valued] at hvalued
      rw [Term.leavesOf, List.filter_append, List.length_append, hvalued, ih hts, List.length_cons, Nat.add_comm]
  rcases ts with _ | ⟨t, _ | ⟨u, ts⟩⟩
  · exact hall
  · exact (hts t List.mem_cons_self).valued_eq
  · exact hall

/-! ## Quoted texts among words -/

/-- The terms of words before a term, the term, and the terms of words behind it. -/
def amongWords (before : List (Word × List QChar)) (t : Term) (after : List (List QChar × Word)) : List Term :=
  (before.map fun b => .ofProperty none (some b.1.chars) .contains) ++ t ::
    after.map fun a => .ofProperty none (some a.2.chars) .contains

section

variable {s text : List QChar} {before : List (Word × List QChar)} {after : List (List QChar × Word)}

theorem amongWords_hasValue {t : Term} (ht : t.HasValue) : ∀ u ∈ amongWords before t after, u.HasValue := by
  refine List.forall_mem_append.mpr ⟨fun u hu => ?_, List.forall_mem_cons.mpr ⟨ht, fun u hu => ?_⟩⟩
  · obtain ⟨b, -, rfl⟩ := List.mem_map.mp hu
    exact hasValue_ofProperty
  · obtain ⟨a, -, rfl⟩ := List.mem_map.mp hu
    exact hasValue_ofProperty

/-- Words are read before and behind anything that adds a term. -/
theorem parse_amongWords {tokens : List QString} {t : Term} (hadds : Parser.Adds tokens t) (ht : t.HasValue)
    (htext : lex text = (before.map fun b => some b.1.chars) ++ (tokens ++ after.map fun a => some a.2.chars)) :
    parse text = juxtaposed (amongWords before t after) := by
  let item : Word → List QString × Term := fun w => ([some w.chars], .ofProperty none (some w.chars) .contains)
  have hitem : ∀ w, Parser.Adds (item w).1 (item w).2 ∧ (item w).2.IsLeaf := fun w =>
    ⟨Parser.adds_word w, isLeaf_ofProperty⟩
  have hitems : ∀ i ∈ (before.map fun b => item b.1) ++ (tokens, t) :: after.map fun a => item a.2,
      Parser.Adds i.1 i.2 ∧ i.2.IsLeaf := by
    refine List.forall_mem_append.mpr ⟨fun i hi => ?_, List.forall_mem_cons.mpr ⟨⟨hadds, ht.1⟩, fun i hi => ?_⟩⟩
    · obtain ⟨b, -, rfl⟩ := List.mem_map.mp hi
      exact hitem b.1
    · obtain ⟨a, -, rfl⟩ := List.mem_map.mp hi
      exact hitem a.2
  have htokens : lex text = ((before.map fun b => item b.1) ++ (tokens, t) ::
      after.map fun a => item a.2).flatMap Prod.fst := by
    rw [htext]
    simp only [List.flatMap_append, List.flatMap_map, List.flatMap_cons, item]
    rw [← List.map_eq_flatMap, ← List.map_eq_flatMap]
  have hparse := parse_items (fun i hi => (hitems i hi).1) (fun i hi => (hitems i hi).2) (by simp) htokens
  rw [hparse, amongWords]
  simp [item, Function.comp_def]

/-- A text that looks like an operator or a parenthesis is lost. -/
theorem valued_parse_le (hstructural : isStructural s = true)
    (htext : lex text = (before.map fun b => some b.1.chars) ++ some s :: after.map fun a => some a.2.chars) :
    (parse text).valued ≤ before.length + after.length := by
  have hready : Parser.initial.Ready := ⟨List.cons_ne_nil _ _, List.cons_ne_nil _ _, rfl⟩
  have hjoins : Parser.initial.Joins := List.forall_mem_cons.mpr ⟨by decide, fun _ h => absurd h List.not_mem_nil⟩
  have hwords : ∀ i ∈ before.map fun b => ([some b.1.chars], Term.ofProperty none (some b.1.chars) .contains),
      Parser.Adds i.1 i.2 := by
    intro i hi
    obtain ⟨b, -, rfl⟩ := List.mem_map.mp hi
    exact Parser.adds_word b.1
  obtain ⟨s₁, hreads₁, hleads₁⟩ := Parser.reads_items hwords hready rfl
  rw [List.flatMap_map, ← List.map_eq_flatMap] at hreads₁
  obtain ⟨hle₁, hjoins₁⟩ := hjoins.reads_le hreads₁
  rw [parse, htext, List.foldlM_append, hreads₁, Option.bind_eq_bind, Option.bind_some, List.foldlM_cons]
  cases hread : s₁.read (some s) with
  | none => exact Nat.zero_le _
  | some s₂ =>
    obtain ⟨hle₂, hjoins₂⟩ := hjoins₁.read_le hread
    rw [if_pos ⟨hleads₁.ready.valueExpected, hstructural⟩] at hle₂
    rw [Option.bind_eq_bind, Option.bind_some]
    cases hreads₃ : (after.map fun a => some a.2.chars).foldlM Parser.read s₂ with
    | none => exact Nat.zero_le _
    | some s₃ =>
      obtain ⟨hle₃, hjoins₃⟩ := hjoins₂.reads_le hreads₃
      have hfinish := hjoins₃.finish_le
      have hinitial : Parser.initial.valued = 0 := rfl
      rw [List.length_map] at hle₁ hle₃
      change s₃.finish.valued ≤ _
      omega

end

/-- Among words joined by juxtaposition, a quoted text is a leaf if and only if it does not look like an operator or a
parenthesis; behind a property and a colon it always is. -/
theorem quoted_text {s : List QChar} (hs : s ≠ []) (hquote : latin1Char '"' ∉ s) {before : List (Word × List QChar)}
    {after : List (List QChar × Word)} (hbefore : ∀ b ∈ before, Gap b.2) (hafter : ∀ a ∈ after, Gap a.1) :
    (parse (wordsBefore before ++ (quoted s ++ wordsAfter after)) =
        juxtaposed (amongWords before (.ofProperty none (some s) .contains) after) ↔ isStructural s = false) ∧
      ∀ p : Word, parse (wordsBefore before ++ (p.chars ++ latin1Char ':' :: (quoted s ++ wordsAfter after))) =
        juxtaposed (amongWords before (.ofProperty (some p.chars) (some s) .contains) after) := by
  have htext := lex_quoted hs hquote hbefore hafter
  refine ⟨⟨fun heq => ?_, fun hliteral => ?_⟩, fun p => ?_⟩
  · rw [← Bool.not_eq_true]
    intro hstructural
    have hle := valued_parse_le hstructural htext
    rw [heq, valued_juxtaposed (amongWords_hasValue hasValue_ofProperty), amongWords, List.length_append,
      List.length_cons, List.length_map, List.length_map] at hle
    omega
  · exact parse_amongWords (Parser.adds_literal hs hliteral) hasValue_ofProperty htext
  · exact parse_amongWords (Parser.adds_property p s) hasValue_ofProperty (lex_property p hs hquote hbefore hafter)

theorem quoted_text_amongWords :
    parse (latin1String ['a', ' ', '"', 'b', ' ', 'O', 'R', '"', ' ', 'c']) =
      juxtaposed (amongWords [(letter 'a' (by decide), latin1String [' '])]
        (.ofProperty none (some (latin1String ['b', ' ', 'O', 'R'])) .contains)
        [(latin1String [' '], letter 'c' (by decide))]) := by
  have hgap : Gap (latin1String [' ']) := ⟨List.cons_ne_nil _ _, List.all_eq_true.mp rfl⟩
  exact (@quoted_text (latin1String ['b', ' ', 'O', 'R']) (List.cons_ne_nil _ _) (by decide)
    [(letter 'a' (by decide), latin1String [' '])] [(latin1String [' '], letter 'c' (by decide))]
    (List.forall_mem_cons.mpr ⟨hgap, fun _ h => absurd h List.not_mem_nil⟩)
    (List.forall_mem_cons.mpr ⟨hgap, fun _ h => absurd h List.not_mem_nil⟩)).1.mpr rfl

/-- A quoted `OR` is an operator. -/
theorem quoted_or : parse (latin1String ['a', ' ', '"', 'O', 'R', '"', ' ', 'b']) ≠
    juxtaposed [.ofProperty none (some (latin1String ['a'])) .contains,
      .ofProperty none (some (latin1String ['O', 'R'])) .contains,
      .ofProperty none (some (latin1String ['b'])) .contains] := by
  have hparse : parse (latin1String ['a', ' ', '"', 'O', 'R', '"', ' ', 'b']) =
      .ofTerms .or [.ofProperty none (some (latin1String ['a'])) .contains,
        .ofProperty none (some (latin1String ['b'])) .contains] := rfl
  rw [hparse]
  intro heq
  cases congrArg Term.operation heq

end Baloo.Search
