import Baloo.QueryParser

/-!
# The meaning of query texts

Queries are words and comparisons of a property with a value, joined from left to right by `AND`, `OR`
or mere juxtaposition, and grouped by parentheses. The parser turns the text of a query into a term
that is true under exactly the assignments that make the query true, read strictly from left to
right, and whose leaves are those of the query (`parse_meaning`).

The parser is compared with the query through what its state amounts to: the term in construction
stands for being joined to the top of the stack, whenever that happens (`Parser.pending`). Reading an
operand joins its term to what is pending and leaves the rest of the stacks alone.
-/

namespace Baloo.Search

/-! ## Truth and leaves of terms -/

/-- A leaf: property, comparator and value. -/
structure Leaf where
  /-- `m_property` -/
  property : QString
  /-- `m_comp` -/
  comparator : Comparator
  /-- `m_value` -/
  value : QString
  deriving DecidableEq

namespace Operation

/-- The truth of two operands joined by an operation. -/
def eval : Operation → Bool → Bool → Bool
  | none, _, _ => false
  | and, a, b => a && b
  | or, a, b => a || b

end Operation

namespace Term

mutual

/-- The leaves of a term, in order. -/
def leaves : Term → List Leaf
  | mk .none comp property value _ => [⟨property, comp, value⟩]
  | mk .and _ _ _ subTerms => leavesOf subTerms
  | mk .or _ _ _ subTerms => leavesOf subTerms

/-- The leaves of a list of terms. -/
def leavesOf : List Term → List Leaf
  | [] => []
  | t :: ts => t.leaves ++ leavesOf ts

end

mutual

/-- The truth of a term whose first leaf is the `n`-th, for an assignment to the leaves in their
places. -/
def holds (v : ℕ → Leaf → Bool) (n : ℕ) : Term → Bool
  | mk .none comp property value _ => v n ⟨property, comp, value⟩
  | mk .and _ _ _ subTerms => allHold v n subTerms
  | mk .or _ _ _ subTerms => anyHolds v n subTerms

/-- All terms of a list are true. -/
def allHold (v : ℕ → Leaf → Bool) (n : ℕ) : List Term → Bool
  | [] => true
  | t :: ts => holds v n t && allHold v (n + t.leaves.length) ts

/-- A term of a list is true. -/
def anyHolds (v : ℕ → Leaf → Bool) (n : ℕ) : List Term → Bool
  | [] => false
  | t :: ts => holds v n t || anyHolds v (n + t.leaves.length) ts

end

theorem leavesOf_append (ts us : List Term) : leavesOf (ts ++ us) = leavesOf ts ++ leavesOf us := by
  induction ts with
  | nil => rw [List.nil_append, leavesOf, List.nil_append]
  | cons t ts ih => rw [List.cons_append, leavesOf, leavesOf, ih, List.append_assoc]

theorem allHold_append (v : ℕ → Leaf → Bool) (n : ℕ) (ts us : List Term) :
    allHold v n (ts ++ us) = (allHold v n ts && allHold v (n + (leavesOf ts).length) us) := by
  induction ts generalizing n with
  | nil => simp [allHold, leavesOf]
  | cons t ts ih =>
    rw [List.cons_append, allHold, allHold, ih, leavesOf, List.length_append, Bool.and_assoc,
      Nat.add_assoc]

theorem anyHolds_append (v : ℕ → Leaf → Bool) (n : ℕ) (ts us : List Term) :
    anyHolds v n (ts ++ us) = (anyHolds v n ts || anyHolds v (n + (leavesOf ts).length) us) := by
  induction ts generalizing n with
  | nil => simp [anyHolds, leavesOf]
  | cons t ts ih =>
    rw [List.cons_append, anyHolds, anyHolds, ih, leavesOf, List.length_append, Bool.or_assoc,
      Nat.add_assoc]

/-- The operands a term contributes have the leaves of the term. -/
theorem leavesOf_operands (t : Term) {op : Operation} (hop : op ≠ .none) :
    leavesOf (t.operands op) = t.leaves := by
  obtain ⟨op', comp, property, value, subTerms⟩ := t
  rw [operands]
  split
  · next heq =>
    obtain rfl : op' = op := heq
    cases op' with
    | none => exact absurd rfl hop
    | and => rw [leaves, Term.subTerms]
    | or => rw [leaves, Term.subTerms]
  · rw [leavesOf, leavesOf, List.append_nil]

theorem allHold_operands (v : ℕ → Leaf → Bool) (n : ℕ) (t : Term) :
    allHold v n (t.operands .and) = t.holds v n := by
  obtain ⟨op', comp, property, value, subTerms⟩ := t
  rw [operands]
  split
  · next heq =>
    obtain rfl : op' = .and := heq
    rw [holds, Term.subTerms]
  · rw [allHold, allHold, Bool.and_true]

theorem anyHolds_operands (v : ℕ → Leaf → Bool) (n : ℕ) (t : Term) :
    anyHolds v n (t.operands .or) = t.holds v n := by
  obtain ⟨op', comp, property, value, subTerms⟩ := t
  rw [operands]
  split
  · next heq =>
    obtain rfl : op' = .or := heq
    rw [holds, Term.subTerms]
  · rw [anyHolds, anyHolds, Bool.or_false]

section Join

variable {lhs rhs : Term} {op : Operation}

/-- Joining terms joins their leaves. -/
theorem leaves_join (hop : op ≠ .none) (hl : lhs.isEmpty = false) (hr : rhs.isEmpty = false) :
    (lhs.join op rhs).leaves = lhs.leaves ++ rhs.leaves := by
  have hsub : leavesOf (lhs.operands op ++ rhs.operands op) = lhs.leaves ++ rhs.leaves := by
    rw [leavesOf_append, leavesOf_operands lhs hop, leavesOf_operands rhs hop]
  rw [join, hl, hr, ofTerms]
  cases op with
  | none => exact absurd rfl hop
  | and => exact hsub
  | or => exact hsub

/-- **Flattening keeps the meaning.** -/
theorem holds_join (v : ℕ → Leaf → Bool) (n : ℕ) (hop : op ≠ .none) (hl : lhs.isEmpty = false)
    (hr : rhs.isEmpty = false) :
    (lhs.join op rhs).holds v n =
      op.eval (lhs.holds v n) (rhs.holds v (n + lhs.leaves.length)) := by
  rw [join, hl, hr, ofTerms]
  cases op with
  | none => exact absurd rfl hop
  | and =>
    show allHold v n _ = _
    rw [allHold_append, leavesOf_operands lhs hop, allHold_operands, allHold_operands]
    rfl
  | or =>
    show anyHolds v n _ = _
    rw [anyHolds_append, leavesOf_operands lhs hop, anyHolds_operands, anyHolds_operands]
    rfl

end Join

/-- Neither empty nor an operation without operands. -/
def Solid (t : Term) : Prop := t.isEmpty = false ∧ (t.operation ≠ .none → t.subTerms ≠ [])

theorem Solid.operands_ne_nil {t : Term} (h : t.Solid) {op : Operation} (hop : op ≠ .none) :
    t.operands op ≠ [] := by
  rw [operands]
  split
  · next heq => exact h.2 (by rw [heq]; exact hop)
  · simp

theorem Solid.join {lhs rhs : Term} (hl : lhs.Solid) (hr : rhs.Solid) {op : Operation}
    (hop : op ≠ .none) : (lhs.join op rhs).Solid := by
  have hne : lhs.operands op ++ rhs.operands op ≠ [] := by
    intro h
    exact hl.operands_ne_nil hop (List.append_eq_nil_iff.mp h).1
  rw [Term.join, hl.1, hr.1]
  exact ⟨by simpa [ofTerms, isEmpty, QString.isEmpty, QString.chars] using hne, fun _ => hne⟩

/-- An empty term is a unit of joining. -/
theorem empty_join (op : Operation) (t : Term) : empty.join op t = t := if_pos rfl

end Term

/-! ## Queries -/

/-- The characters words are made of. -/
def isWordChar (c : QChar) : Bool :=
  !(isSpace c || isParenthesis c || isOperator c || c = latin1Char '"')

/-- A word: not empty, made of word characters and not a logic operator. -/
structure Word where
  /-- the characters -/
  chars : List QChar
  /-- there is a character -/
  ne_nil : chars ≠ []
  /-- all of them are word characters -/
  wordChars : ∀ c ∈ chars, isWordChar c = true
  /-- not `AND` -/
  ne_and : chars ≠ latin1String ['A', 'N', 'D']
  /-- not `OR` -/
  ne_or : chars ≠ latin1String ['O', 'R']

/-- How comparison operators are written. -/
inductive Comparison where
  /-- `:` -/
  | colon
  /-- `:=` -/
  | colonEqual
  /-- `=` -/
  | equal
  /-- `==` -/
  | equalEqual
  /-- `<` -/
  | less
  /-- `<=` -/
  | lessEqual
  /-- `>` -/
  | greater
  /-- `>=` -/
  | greaterEqual

namespace Comparison

/-- The first character. -/
def first : Comparison → QChar
  | colon | colonEqual => latin1Char ':'
  | equal | equalEqual => latin1Char '='
  | less | lessEqual => latin1Char '<'
  | greater | greaterEqual => latin1Char '>'

/-- The operator has a second character, `=`. -/
def long : Comparison → Bool
  | colon | equal | less | greater => false
  | colonEqual | equalEqual | lessEqual | greaterEqual => true

/-- The characters. -/
def chars (c : Comparison) : List QChar := if c.long then [c.first, latin1Char '='] else [c.first]

/-- The comparator an operator stands for. -/
def comparator : Comparison → Comparator
  | colon | colonEqual => .contains
  | equal | equalEqual => .equal
  | less => .less
  | lessEqual => .lessEqual
  | greater => .greater
  | greaterEqual => .greaterEqual

end Comparison

/-- What stands between two operands. -/
inductive Joint where
  /-- `AND` -/
  | and
  /-- `OR` -/
  | or
  /-- nothing, meaning `AND` -/
  | juxtaposition

/-- The operation between two operands. -/
def Joint.operation : Joint → Operation
  | and | juxtaposition => .and
  | or => .or

mutual

/-- What is joined. -/
inductive Operand where
  /-- a word -/
  | word (w : Word)
  /-- a property, an operator and a value -/
  | comparison (property : Word) (c : Comparison) (value : Word)
  /-- a parenthesised group -/
  | group (q : QueryExpr)

/-- Operands joined from left to right. -/
inductive QueryExpr where
  /-- the first operand -/
  | single (o : Operand)
  /-- a further operand -/
  | join (q : QueryExpr) (j : Joint) (o : Operand)

end

/-- The leaf of a word. -/
def Word.leaf (w : Word) : Leaf := ⟨none, .contains, some w.chars⟩

mutual

/-- The leaves of an operand. -/
def Operand.leaves : Operand → List Leaf
  | .word w => [w.leaf]
  | .comparison p c w => [⟨some p.chars, c.comparator, some w.chars⟩]
  | .group q => q.leaves

/-- The leaves of a query, in the order of the text. -/
def QueryExpr.leaves : QueryExpr → List Leaf
  | .single o => o.leaves
  | .join q _ o => q.leaves ++ o.leaves

end

mutual

/-- The truth of an operand whose first leaf is the `n`-th. -/
def Operand.holds (v : ℕ → Leaf → Bool) (n : ℕ) : Operand → Bool
  | .word w => v n w.leaf
  | .comparison p c w => v n ⟨some p.chars, c.comparator, some w.chars⟩
  | .group q => q.holds v n

/-- The truth of a query, read strictly from left to right. -/
def QueryExpr.holds (v : ℕ → Leaf → Bool) (n : ℕ) : QueryExpr → Bool
  | .single o => o.holds v n
  | .join q j o => j.operation.eval (q.holds v n) (o.holds v (n + q.leaves.length))

end

/-! ## Texts of queries -/

/-- The tokens of queries. -/
inductive Token where
  /-- a word -/
  | word (w : Word)
  /-- a comparison operator -/
  | comparison (c : Comparison)
  /-- `AND` -/
  | and
  /-- `OR` -/
  | or
  /-- `(` -/
  | opening
  /-- `)` -/
  | closing

namespace Token

/-- The characters of a token. -/
def chars : Token → List QChar
  | word w => w.chars
  | comparison c => c.chars
  | and => latin1String ['A', 'N', 'D']
  | or => latin1String ['O', 'R']
  | opening => [latin1Char '(']
  | closing => [latin1Char ')']

/-- A character directly behind a token would be taken for a part of it. -/
def extendedBy : Token → QChar → Bool
  | word _, d | and, d | or, d => isWordChar d
  | comparison c, d => !c.long && d = latin1Char '='
  | opening, _ | closing, _ => false

end Token

/-- The tokens between two operands. -/
def Joint.tokens : Joint → List Token
  | and => [.and]
  | or => [.or]
  | juxtaposition => []

mutual

/-- The tokens of an operand. -/
def Operand.tokens : Operand → List Token
  | .word w => [.word w]
  | .comparison p c w => [.word p, .comparison c, .word w]
  | .group q => .opening :: (q.tokens ++ [.closing])

/-- The tokens of a query. -/
def QueryExpr.tokens : QueryExpr → List Token
  | .single o => o.tokens
  | .join q j o => q.tokens ++ (j.tokens ++ o.tokens)

end

/-- A text spells a list of tokens: any spaces may stand around them, and tokens that would run into
each other are kept apart by spaces. -/
inductive Spells : List Token → List QChar → Prop
  /-- spaces at the end -/
  | nil {spaces : List QChar} : (∀ c ∈ spaces, isSpace c = true) → Spells [] spaces
  /-- a token -/
  | cons {spaces text : List QChar} {token : Token} {tokens : List Token} :
    (∀ c ∈ spaces, isSpace c = true) → (∀ d ∈ text.head?, token.extendedBy d = false) → Spells tokens text →
      Spells (token :: tokens) (spaces ++ (token.chars ++ text))

/-! ## The lexer finds the tokens -/

theorem Lexer.endToken_endToken (l : Lexer) : l.endToken.endToken = l.endToken := by
  rcases h : l.token.isEmpty with _ | _
  · have hend : l.endToken.token = none := by rw [endToken, h]; rfl
    rw [endToken, hend]
    rfl
  · have hend : l.endToken = l := if_pos h
    rw [hend, hend]

section Lexing

variable {c : QChar} {text : List QChar} {ts : List QString} {token : QString}

theorem isWordChar_iff : isWordChar c = true ↔
    isSpace c = false ∧ isParenthesis c = false ∧ isOperator c = false ∧ c ≠ latin1Char '"' := by
  simp [isWordChar, and_assoc]

/-- One character outside of quotes. -/
theorem lexLoop_cons (h : c ≠ latin1Char '"') : lexLoop ⟨ts, token, false⟩ (c :: text) =
    if isSpace c then lexLoop (Lexer.endToken ⟨ts, token, false⟩) text
    else if isParenthesis c then lexLoop ((Lexer.endToken ⟨ts, token, false⟩).add [c]) text
    else if isOperator c then
      match text with
      | [] => (Lexer.endToken ⟨ts, token, false⟩).add [c]
      | d :: rest =>
        if d = latin1Char '=' then lexLoop ((Lexer.endToken ⟨ts, token, false⟩).add [c, d]) rest
        else lexLoop ((Lexer.endToken ⟨ts, token, false⟩).add [c]) (d :: rest)
    else lexLoop ⟨ts, token.append c, false⟩ text := by
  conv_lhs => unfold lexLoop
  rw [if_neg h]
  rfl

theorem lexLoop_space (h : isSpace c = true) :
    lexLoop ⟨ts, token, false⟩ (c :: text) = lexLoop (Lexer.endToken ⟨ts, token, false⟩) text := by
  have hquote : c ≠ latin1Char '"' := by
    rintro rfl
    cases h
  rw [lexLoop_cons hquote, if_pos h]

theorem lexLoop_parenthesis (h : isParenthesis c = true) :
    lexLoop ⟨ts, token, false⟩ (c :: text) =
      lexLoop ((Lexer.endToken ⟨ts, token, false⟩).add [c]) text := by
  have hc : c = latin1Char '(' ∨ c = latin1Char ')' := by simpa [isParenthesis] using h
  rcases hc with rfl | rfl
  · rw [lexLoop_cons (by decide), if_neg (by decide), if_pos h]
  · rw [lexLoop_cons (by decide), if_neg (by decide), if_pos h]

theorem lexLoop_operator (h : isOperator c = true) :
    lexLoop ⟨ts, token, false⟩ (c :: text) =
      if text.head? = some (latin1Char '=') then
        lexLoop ((Lexer.endToken ⟨ts, token, false⟩).add [c, latin1Char '=']) text.tail
      else lexLoop ((Lexer.endToken ⟨ts, token, false⟩).add [c]) text := by
  have hc : c ≠ latin1Char '"' ∧ isSpace c = false ∧ isParenthesis c = false := by
    have hc : c = latin1Char '>' ∨ c = latin1Char '<' ∨ c = latin1Char ':' ∨ c = latin1Char '=' := by
      simpa [isOperator] using h
    rcases hc with rfl | rfl | rfl | rfl <;> decide
  obtain ⟨hquote, hspace, hparenthesis⟩ := hc
  rw [lexLoop_cons hquote, if_neg (by simp [hspace]), if_neg (by simp [hparenthesis]), if_pos h]
  cases text with
  | nil => rfl
  | cons d rest =>
    by_cases hd : d = latin1Char '='
    · subst hd
      rfl
    · rw [if_neg (by simpa using hd)]
      exact if_neg hd

theorem lexLoop_wordChar (h : isWordChar c = true) :
    lexLoop ⟨ts, token, false⟩ (c :: text) = lexLoop ⟨ts, token.append c, false⟩ text := by
  obtain ⟨hspace, hparenthesis, hoperator, hquote⟩ := isWordChar_iff.mp h
  rw [lexLoop_cons hquote, if_neg (by simp [hspace]), if_neg (by simp [hparenthesis]),
    if_neg (by simp [hoperator])]

theorem lexLoop_spaces {spaces : List QChar} (h : ∀ c ∈ spaces, isSpace c = true) :
    lexLoop ⟨ts, none, false⟩ (spaces ++ text) = lexLoop ⟨ts, none, false⟩ text := by
  induction spaces with
  | nil => rfl
  | cons c spaces ih =>
    rw [List.cons_append, lexLoop_space (h c (List.mem_cons_self ..))]
    exact ih fun c hc => h c (List.mem_cons_of_mem _ hc)

/-- Word characters are collected. -/
theorem lexLoop_wordChars {w : List QChar} (h : ∀ c ∈ w, isWordChar c = true) (hw : w ≠ []) :
    lexLoop ⟨ts, token, false⟩ (w ++ text) =
      lexLoop ⟨ts, some (token.chars ++ w), false⟩ text := by
  induction w generalizing token with
  | nil => exact absurd rfl hw
  | cons c w ih =>
    rw [List.cons_append, lexLoop_wordChar (h c (List.mem_cons_self ..))]
    rcases eq_or_ne w [] with rfl | hne
    · rfl
    · rw [ih (fun c hc => h c (List.mem_cons_of_mem _ hc)) hne, List.append_cons]
      rfl

/-- A comparison operator is a token if no `=` follows that belongs to it. -/
theorem lexLoop_comparison (cmp : Comparison)
    (h : ∀ d ∈ text.head?, (Token.comparison cmp).extendedBy d = false) :
    lexLoop ⟨ts, none, false⟩ (cmp.chars ++ text) = lexLoop ⟨ts ++ [some cmp.chars], none, false⟩ text := by
  have hfirst : isOperator cmp.first = true := by cases cmp <;> rfl
  rw [Comparison.chars]
  split
  · exact (lexLoop_operator hfirst).trans (if_pos rfl)
  · next hlong =>
    refine (lexLoop_operator hfirst).trans (if_neg fun hd => ?_)
    have hextended := h _ hd
    simp [Token.extendedBy, hlong] at hextended

/-- The end of a token is found by the character behind it. -/
theorem lexLoop_endToken (h : ∀ d ∈ text.head?, isWordChar d = false ∧ d ≠ latin1Char '"') :
    (lexLoop ⟨ts, token, false⟩ text).endToken =
      (lexLoop (Lexer.endToken ⟨ts, token, false⟩) text).endToken := by
  have hend : Lexer.endToken ⟨ts, token, false⟩ =
      ⟨(Lexer.endToken ⟨ts, token, false⟩).tokenList, (Lexer.endToken ⟨ts, token, false⟩).token, false⟩ := by
    rw [Lexer.endToken]
    split <;> rfl
  cases text with
  | nil => exact (Lexer.endToken_endToken _).symm
  | cons d text =>
    obtain ⟨hword, hquote⟩ := h d rfl
    rcases hspace : isSpace d with _ | _
    · rcases hparenthesis : isParenthesis d with _ | _
      · have hoperator : isOperator d = true := by
          by_contra hnot
          rw [Bool.not_eq_true] at hnot
          rw [isWordChar_iff.mpr ⟨hspace, hparenthesis, hnot, hquote⟩] at hword
          cases hword
        rw [hend, lexLoop_operator hoperator, lexLoop_operator hoperator, ← hend,
          Lexer.endToken_endToken]
      · rw [hend, lexLoop_parenthesis hparenthesis, lexLoop_parenthesis hparenthesis, ← hend,
          Lexer.endToken_endToken]
    · rw [hend, lexLoop_space hspace, lexLoop_space hspace, ← hend, Lexer.endToken_endToken]

/-- No text of a query starts with a quote. -/
theorem Spells.ne_quote {tokens : List Token} (h : Spells tokens text) :
    ∀ d ∈ text.head?, d ≠ latin1Char '"' := by
  have hspaces : ∀ {spaces rest : List QChar}, (∀ c ∈ spaces, isSpace c = true) →
      (∀ d ∈ rest.head?, d ≠ latin1Char '"') → ∀ d ∈ (spaces ++ rest).head?, d ≠ latin1Char '"' := by
    intro spaces rest hspaces hrest d hd
    cases spaces with
    | nil => exact hrest d hd
    | cons c spaces =>
      obtain rfl : c = d := Option.some.inj hd
      rintro rfl
      cases hspaces _ (List.mem_cons_self ..)
  cases h with
  | nil h => simpa using @hspaces _ [] h (by simp)
  | @cons spaces rest token tokens h _ _ =>
    refine hspaces h fun d hd => ?_
    cases token with
    | word w =>
      rw [Token.chars, List.head?_append_of_ne_nil _ w.ne_nil] at hd
      exact (isWordChar_iff.mp (w.wordChars d (List.mem_of_mem_head? hd))).2.2.2
    | comparison cmp =>
      have hd' : cmp.first = d := by
        revert hd
        cases cmp <;> exact Option.some.inj
      rw [← hd']
      cases cmp <;> decide
    | and =>
      obtain rfl := Option.some.inj hd
      decide
    | or =>
      obtain rfl := Option.some.inj hd
      decide
    | opening =>
      obtain rfl := Option.some.inj hd
      decide
    | closing =>
      obtain rfl := Option.some.inj hd
      decide

/-- A token made of word characters. -/
theorem lexLoop_wordToken {w : List QChar} (h : ∀ c ∈ w, isWordChar c = true) (hw : w ≠ [])
    (htext : ∀ d ∈ text.head?, isWordChar d = false ∧ d ≠ latin1Char '"') :
    (lexLoop ⟨ts, none, false⟩ (w ++ text)).endToken =
      (lexLoop ⟨ts ++ [some w], none, false⟩ text).endToken := by
  have hend : Lexer.endToken ⟨ts, some w, false⟩ = ⟨ts ++ [some w], none, false⟩ :=
    if_neg (by simpa [QString.isEmpty, QString.chars] using hw)
  rw [lexLoop_wordChars h hw, lexLoop_endToken htext]
  exact congrArg (fun l => (lexLoop l text).endToken) hend

/-- **The lexer finds the tokens of a text that spells them.** -/
theorem Spells.lexLoop {tokens : List Token} (h : Spells tokens text) :
    (lexLoop ⟨ts, none, false⟩ text).endToken.tokenList =
      ts ++ tokens.map fun token => some token.chars := by
  induction h generalizing ts with
  | nil h =>
    have hspaces := @lexLoop_spaces [] ts _ h
    rw [List.append_nil] at hspaces
    rw [hspaces, List.map_nil, List.append_nil]
    rfl
  | @cons spaces text token tokens hspaces hextends hspells ih =>
    rw [lexLoop_spaces hspaces, List.map_cons, List.append_cons, ← ih]
    -- behind a token of word characters
    have htext : (∀ d, token.extendedBy d = isWordChar d) →
        ∀ d ∈ text.head?, isWordChar d = false ∧ d ≠ latin1Char '"' := by
      intro heq d hd
      exact ⟨(heq d).symm.trans (hextends d hd), hspells.ne_quote d hd⟩
    cases token with
    | word w => rw [Token.chars, lexLoop_wordToken w.wordChars w.ne_nil (htext fun _ => rfl)]
    | comparison cmp => rw [Token.chars, lexLoop_comparison cmp hextends]
    | and =>
      rw [Token.chars, lexLoop_wordToken (List.all_eq_true.mp rfl) (by decide) (htext fun _ => rfl)]
    | or =>
      rw [Token.chars, lexLoop_wordToken (List.all_eq_true.mp rfl) (by decide) (htext fun _ => rfl)]
    | opening =>
      exact congrArg (fun l => (Lexer.endToken l).tokenList) (lexLoop_parenthesis rfl)
    | closing =>
      exact congrArg (fun l => (Lexer.endToken l).tokenList) (lexLoop_parenthesis rfl)

end Lexing

theorem Spells.lex {tokens : List Token} {text : List QChar} (h : Spells tokens text) :
    lex text = tokens.map fun token => some token.chars :=
  h.lexLoop

/-! ## The parser computes the terms -/

mutual

/-- The term of an operand. -/
def Operand.term : Operand → Term
  | .word w => .ofProperty none (some w.chars) .auto
  | .comparison p c w => .mk .none c.comparator (some p.chars) (some w.chars) []
  | .group q => q.term

/-- The term of a query: its operands joined from left to right. -/
def QueryExpr.term : QueryExpr → Term
  | .single o => o.term
  | .join q j o => q.term.join j.operation o.term

end

theorem Joint.operation_ne (j : Joint) : j.operation ≠ .none := by
  cases j <;> decide

mutual

theorem Operand.solid : ∀ o : Operand, o.term.Solid
  | .word w => ⟨by simp [Operand.term, Term.ofProperty, Term.isEmpty], fun h => absurd rfl h⟩
  | .comparison p c w => by
    refine ⟨?_, fun h => absurd rfl h⟩
    cases c <;> simp [Operand.term, Term.isEmpty, Comparison.comparator]
  | .group q => q.solid

theorem QueryExpr.solid : ∀ q : QueryExpr, q.term.Solid
  | .single o => o.solid
  | .join q j o => q.solid.join o.solid j.operation_ne

end

mutual

theorem Operand.leaves_term : ∀ o : Operand, o.term.leaves = o.leaves
  | .word _ => rfl
  | .comparison _ _ _ => rfl
  | .group q => q.leaves_term

theorem QueryExpr.leaves_term : ∀ q : QueryExpr, q.term.leaves = q.leaves
  | .single o => o.leaves_term
  | .join q j o => by
    rw [QueryExpr.term, Term.leaves_join j.operation_ne q.solid.1 o.solid.1, q.leaves_term, o.leaves_term,
      QueryExpr.leaves]

end

section Meaning

variable (v : ℕ → Leaf → Bool)

mutual

theorem Operand.holds_term (n : ℕ) : ∀ o : Operand, o.term.holds v n = o.holds v n
  | .word _ => rfl
  | .comparison _ _ _ => rfl
  | .group q => q.holds_term n

theorem QueryExpr.holds_term (n : ℕ) : ∀ q : QueryExpr, q.term.holds v n = q.holds v n
  | .single o => o.holds_term n
  | .join q j o => by
    rw [QueryExpr.term, Term.holds_join v n j.operation_ne q.solid.1 o.solid.1, q.holds_term n,
      o.holds_term (n + q.term.leaves.length), q.leaves_term, QueryExpr.holds]

end

end Meaning

namespace Parser

/-- What is pending at the innermost group: its term, once the term in construction is joined to it,
and the operation for the next operand. -/
def pending (s : Parser) : Term × Operation :=
  if s.termInConstruction.isEmpty then (s.stack.headD .empty, s.top)
  else ((s.stack.headD .empty).join s.top s.termInConstruction, .and)

/-- The parser is inside of a group and no value is expected. -/
structure Ready (s : Parser) : Prop where
  /-- a group is open -/
  stack : s.stack ≠ []
  /-- and has an operation -/
  ops : s.ops ≠ []
  /-- no value is expected -/
  valueExpected : s.valueExpected = false

/-- One state leads to another in which `t` and `op` are pending, with the groups around unchanged. -/
structure Leads (s s' : Parser) (t : Term) (op : Operation) : Prop where
  /-- the parser is ready again -/
  ready : s'.Ready
  /-- what is pending -/
  pending : s'.pending = (t, op)
  /-- the terms of the groups around -/
  stack : s'.stack.tail = s.stack.tail
  /-- the operations of the groups around -/
  ops : s'.ops.tail = s.ops.tail

/-- Read a list of tokens. -/
def reads (s : Parser) (tokens : List Token) : Option Parser :=
  (tokens.map fun token => some token.chars).foldlM Parser.read s

theorem reads_nil (s : Parser) : s.reads [] = some s := rfl

theorem reads_cons (s : Parser) (token : Token) (tokens : List Token) :
    s.reads (token :: tokens) = (s.read (some token.chars)).bind fun s => s.reads tokens := by
  rw [reads, List.map_cons, List.foldlM_cons]
  rfl

theorem reads_append (s : Parser) (tokens tokens' : List Token) :
    s.reads (tokens ++ tokens') = (s.reads tokens).bind fun s => s.reads tokens' := by
  rw [reads, List.map_append, List.foldlM_append]
  rfl

/-- What is pending is what the term in construction is added to when the next operand starts. -/
theorem Ready.settle {s : Parser} (h : s.Ready) :
    (if s.termInConstruction.isEmpty then s else s.addTerm.setTop .and).stack =
        s.pending.1 :: s.stack.tail ∧
      (if s.termInConstruction.isEmpty then s else s.addTerm.setTop .and).ops =
        s.pending.2 :: s.ops.tail ∧
      (if s.termInConstruction.isEmpty then s else s.addTerm.setTop .and).valueExpected = false := by
  obtain ⟨_ | ⟨t, stack⟩, _ | ⟨op, ops⟩, termInConstruction, valueExpected⟩ := s
  · exact absurd rfl h.stack
  · exact absurd rfl h.stack
  · exact absurd rfl h.ops
  obtain rfl : valueExpected = false := h.valueExpected
  rw [pending]
  split
  · exact ⟨rfl, rfl, rfl⟩
  · exact ⟨rfl, rfl, rfl⟩

/-- A term has been started. -/
theorem Ready.startTerm {s : Parser} (h : s.Ready) (token : List QChar) (c : Comparator)
    (property : QString) (hne : (Term.mk .none c property (some token) []).isEmpty = false) :
    Leads s { s.startTerm (some token) with
        termInConstruction := .mk .none c property (some token) [] }
      (s.pending.1.join s.pending.2 (.mk .none c property (some token) [])) .and := by
  obtain ⟨hstack, hops, hvalue⟩ := h.settle
  refine ⟨⟨?_, ?_, hvalue⟩, ?_, ?_, ?_⟩
  · exact fun hnil => List.cons_ne_nil _ _ (hstack.symm.trans hnil)
  · exact fun hnil => List.cons_ne_nil _ _ (hops.symm.trans hnil)
  · rw [pending, if_neg (by simp [hne])]
    simp only [Parser.startTerm, top, hstack, hops]
    rfl
  · simp only [Parser.startTerm, hstack, List.tail_cons]
  · simp only [Parser.startTerm, hops, List.tail_cons]

/-- A logic operator changes the pending operation. -/
theorem Ready.logic {s : Parser} (h : s.Ready) (op : Operation) :
    Leads s (s.logic op) s.pending.1 op := by
  obtain ⟨_ | ⟨t, stack⟩, _ | ⟨op', ops⟩, termInConstruction, valueExpected⟩ := s
  · exact absurd rfl h.stack
  · exact absurd rfl h.stack
  · exact absurd rfl h.ops
  obtain rfl : valueExpected = false := h.valueExpected
  rcases hempty : termInConstruction.isEmpty with _ | _
  · -- the term in construction is added
    have hlogic : Parser.logic ⟨t :: stack, op' :: ops, termInConstruction, false⟩ op =
        ⟨t.join op' termInConstruction :: stack, op :: ops, .empty, false⟩ := by
      rw [Parser.logic, hempty]
      rfl
    rw [hlogic, pending, hempty]
    exact ⟨⟨List.cons_ne_nil _ _, List.cons_ne_nil _ _, rfl⟩, rfl, rfl, rfl⟩
  · have hlogic : Parser.logic ⟨t :: stack, op' :: ops, termInConstruction, false⟩ op =
        ⟨t :: stack, op :: ops, termInConstruction, false⟩ := by
      rw [Parser.logic, hempty]
      rfl
    rw [hlogic, pending, hempty]
    refine ⟨⟨List.cons_ne_nil _ _, List.cons_ne_nil _ _, rfl⟩, ?_, rfl, rfl⟩
    rw [pending, hempty]
    rfl

/-- A group is opened. -/
theorem Ready.openGroup {s : Parser} (h : s.Ready) :
    s.openGroup = ⟨.empty :: s.pending.1 :: s.stack.tail, .and :: s.pending.2 :: s.ops.tail, .empty, false⟩ := by
  obtain ⟨hstack, hops, hvalue⟩ := h.settle
  rw [Parser.openGroup, hstack, hops, hvalue]

/-- A group is closed: what was pending is joined to the group around. -/
theorem Ready.closeGroup {s : Parser} (h : s.Ready) {t : Term} {stack : List Term} {op : Operation}
    {ops : List Operation} (hstack : s.stack.tail = t :: stack) (hops : s.ops.tail = op :: ops) :
    s.closeGroup = ⟨t.join op s.pending.1 :: stack, .and :: ops, .empty, false⟩ := by
  obtain ⟨_ | ⟨t', stack'⟩, _ | ⟨op', ops'⟩, termInConstruction, valueExpected⟩ := s
  · exact absurd rfl h.stack
  · exact absurd rfl h.stack
  · exact absurd rfl h.ops
  obtain rfl : valueExpected = false := h.valueExpected
  obtain rfl : stack' = t :: stack := hstack
  obtain rfl : ops' = op :: ops := hops
  rcases hempty : termInConstruction.isEmpty with _ | _
  · simp [Parser.closeGroup, hempty, setTop, addTerm, addTermToStack, pending, top]
  · simp [Parser.closeGroup, hempty, setTop, addTermToStack, pending, top]

/-! ### Tokens -/

/-- The first character of a word is none of those the parser looks for. -/
theorem first_of_wordChar {c : QChar} (h : isWordChar c = true) (token : List QChar) :
    toLatin1 c ≠ latin1Char '(' ∧ toLatin1 c ≠ latin1Char ')' ∧ comparatorOf (toLatin1 c) token = .auto := by
  obtain ⟨-, hparenthesis, hoperator, -⟩ := isWordChar_iff.mp h
  have hne : ∀ d : QChar, d ≠ 0 → (isParenthesis d = true ∨ isOperator d = true) → toLatin1 c ≠ d := by
    intro d hd hspecial heq
    rw [toLatin1] at heq
    split at heq
    · exact hd heq.symm
    · subst heq
      rw [hparenthesis, hoperator] at hspecial
      simp at hspecial
  refine ⟨hne _ (by decide) (Or.inl rfl), hne _ (by decide) (Or.inl rfl), ?_⟩
  rw [comparatorOf, if_neg (hne _ (by decide) (Or.inr rfl)), if_neg (hne _ (by decide) (Or.inr rfl)),
    if_neg (hne _ (by decide) (Or.inr rfl)), if_neg (hne _ (by decide) (Or.inr rfl))]

section Tokens

variable {s : Parser} (h : s.valueExpected = false)

include h

theorem read_word (w : Word) : s.read (some w.chars) = some (s.startTerm (some w.chars)) := by
  have hand : ¬ (some w.chars : QString) = some (latin1String ['A', 'N', 'D']) := by
    simpa using w.ne_and
  have hor : ¬ (some w.chars : QString) = some (latin1String ['O', 'R']) := by
    simpa using w.ne_or
  have hfirst : isWordChar (w.chars.headD 0) = true := by
    have hmem : w.chars.headD 0 ∈ w.chars := by
      rw [List.headD_eq_head?_getD, List.head?_eq_some_head w.ne_nil]
      exact List.head_mem w.ne_nil
    exact w.wordChars _ hmem
  obtain ⟨hopen, hclose, hauto⟩ := first_of_wordChar hfirst w.chars
  rw [read, if_neg (by simp [h]), if_neg hand, if_neg hor]
  refine (if_neg hopen).trans ((if_neg hclose).trans ?_)
  exact if_neg fun hne => hne hauto

theorem read_comparison (c : Comparison) : s.read (some c.chars) =
    some { s with termInConstruction := s.termInConstruction.setComparator c.comparator,
                  valueExpected := true } := by
  rw [read, if_neg (by simp [h])]
  cases c <;> rfl

omit h in
theorem read_value {token : QString} (hvalue : s.valueExpected = true)
    (hproperty : s.termInConstruction.value.isEmpty = false) : s.read token = some { s with
      termInConstruction :=
        (s.termInConstruction.setProperty s.termInConstruction.value).setValue token,
      valueExpected := false } := by
  rw [read, if_pos hvalue]
  exact if_neg (by rw [hproperty]; exact Bool.false_ne_true)

theorem read_and : s.read (some (latin1String ['A', 'N', 'D'])) = some (s.logic .and) := by
  rw [read, if_neg (by simp [h]), if_pos rfl]

theorem read_or : s.read (some (latin1String ['O', 'R'])) = some (s.logic .or) := by
  rw [read, if_neg (by simp [h])]
  rfl

theorem read_opening : s.read (some [latin1Char '(']) = some s.openGroup := by
  rw [read, if_neg (by simp [h])]
  rfl

theorem read_closing : s.read (some [latin1Char ')']) = some s.closeGroup := by
  rw [read, if_neg (by simp [h])]
  rfl

end Tokens

/-- Between two operands. -/
theorem Ready.joint {s : Parser} (h : s.Ready) (j : Joint) {t : Term} (hpending : s.pending = (t, .and)) :
    ∃ s', s.reads j.tokens = some s' ∧ Leads s s' t j.operation := by
  cases j with
  | juxtaposition => exact ⟨s, rfl, h, hpending, rfl, rfl⟩
  | and =>
    refine ⟨s.logic .and, ?_, ?_⟩
    · rw [Joint.tokens, reads_cons, Token.chars, read_and h.valueExpected]
      rfl
    · have hlogic := h.logic .and
      rwa [hpending] at hlogic
  | or =>
    refine ⟨s.logic .or, ?_, ?_⟩
    · rw [Joint.tokens, reads_cons, Token.chars, read_or h.valueExpected]
      rfl
    · have hlogic := h.logic .or
      rwa [hpending] at hlogic

mutual

/-- Reading an operand joins its term to what is pending. -/
theorem reads_operand {s : Parser} (h : s.Ready) : ∀ o : Operand,
    ∃ s', s.reads o.tokens = some s' ∧ Leads s s' (s.pending.1.join s.pending.2 o.term) .and
  | .word w => by
    refine ⟨s.startTerm (some w.chars), ?_, h.startTerm w.chars .contains none ?_⟩
    · rw [Operand.tokens, reads_cons, Token.chars, read_word h.valueExpected]
      rfl
    · simp [Term.isEmpty]
  | .comparison p c w => by
    refine ⟨{ s.startTerm (some p.chars) with
      termInConstruction := .mk .none c.comparator (some p.chars) (some w.chars) [] }, ?_,
      h.startTerm w.chars c.comparator (some p.chars) ?_⟩
    · have hvalue : (s.startTerm (some p.chars)).valueExpected = false := h.settle.2.2
      have hproperty : QString.isEmpty (some p.chars) = false := by
        simpa [QString.isEmpty, QString.chars] using p.ne_nil
      have hread : read { s.startTerm (some p.chars) with
          termInConstruction := (s.startTerm (some p.chars)).termInConstruction.setComparator c.comparator
          valueExpected := true } (some w.chars) = _ := read_value rfl hproperty
      rw [Operand.tokens, reads_cons, Token.chars, read_word h.valueExpected, Option.bind_some,
        reads_cons, Token.chars, read_comparison hvalue, Option.bind_some, reads_cons, Token.chars,
        hread, Option.bind_some, reads_nil, ← hvalue]
      rfl
    · cases c <;> simp [Term.isEmpty, Comparison.comparator]
  | .group q => by
    -- a new group starts with nothing pending
    have hready : Ready ⟨.empty :: s.pending.1 :: s.stack.tail, .and :: s.pending.2 :: s.ops.tail, .empty,
        false⟩ := ⟨List.cons_ne_nil _ _, List.cons_ne_nil _ _, rfl⟩
    obtain ⟨s', hreads, hready', hpending, hstack, hops⟩ := reads_query hready rfl q
    refine ⟨s'.closeGroup, ?_, ?_⟩
    · rw [Operand.tokens, reads_cons, Token.chars, read_opening h.valueExpected, h.openGroup,
        Option.bind_some, reads_append, hreads, Option.bind_some, reads_cons, Token.chars,
        read_closing hready'.valueExpected]
      rfl
    · rw [hready'.closeGroup hstack hops, hpending]
      exact ⟨⟨List.cons_ne_nil _ _, List.cons_ne_nil _ _, rfl⟩, rfl, rfl, rfl⟩

/-- Reading a query where nothing is pending. -/
theorem reads_query {s : Parser} (h : s.Ready) (hempty : s.pending.1 = .empty) : ∀ q : QueryExpr,
    ∃ s', s.reads q.tokens = some s' ∧ Leads s s' q.term .and
  | .single o => by
    obtain ⟨s', hreads, hleads⟩ := reads_operand h o
    rw [hempty, Term.empty_join] at hleads
    exact ⟨s', hreads, hleads⟩
  | .join q j o => by
    obtain ⟨s₁, hreads₁, hready₁, hpending₁, hstack₁, hops₁⟩ := reads_query h hempty q
    obtain ⟨s₂, hreads₂, hready₂, hpending₂, hstack₂, hops₂⟩ := hready₁.joint j hpending₁
    obtain ⟨s₃, hreads₃, hready₃, hpending₃, hstack₃, hops₃⟩ := reads_operand hready₂ o
    rw [hpending₂] at hpending₃
    refine ⟨s₃, ?_, hready₃, hpending₃, ?_, ?_⟩
    · rw [QueryExpr.tokens, reads_append, hreads₁, Option.bind_some, reads_append, hreads₂,
        Option.bind_some, hreads₃]
    · rw [hstack₃, hstack₂, hstack₁]
    · rw [hops₃, hops₂, hops₁]

end

/-- At the end of the text the pending term is returned. -/
theorem Ready.finish {s : Parser} (h : s.Ready) (hstack : s.stack.tail = []) :
    s.finish = s.pending.1 := by
  obtain ⟨_ | ⟨t, stack⟩, ops, termInConstruction, valueExpected⟩ := s
  · exact absurd rfl h.stack
  obtain rfl : valueExpected = false := h.valueExpected
  obtain rfl : stack = [] := hstack
  rcases hempty : termInConstruction.isEmpty with _ | _
  · simp [Parser.finish, hempty, addTerm, addTermToStack, pending, closeAll]
  · simp [Parser.finish, hempty, pending, closeAll]

end Parser

/-- The parser returns the term of the query that the text spells. -/
theorem parse_eq {q : QueryExpr} {text : List QChar} (h : Spells q.tokens text) : parse text = q.term := by
  have hready : Parser.initial.Ready := ⟨List.cons_ne_nil _ _, List.cons_ne_nil _ _, rfl⟩
  obtain ⟨s, hreads, hready', hpending, hstack, -⟩ := Parser.reads_query hready rfl q
  rw [parse, h.lex]
  rw [Parser.reads] at hreads
  rw [hreads]
  show s.finish = q.term
  rw [hready'.finish hstack, hpending]

/-- **Meaning of parsed queries.** The term of a text that spells a query has the leaves of the query
in order, and under every assignment to the leaves in their places it is true if and only if the
query is, read from left to right; joining terms keeps leaves and truth in general. -/
theorem parse_meaning {q : QueryExpr} {text : List QChar} (h : Spells q.tokens text) :
    (parse text).leaves = q.leaves ∧ (∀ v, (parse text).holds v 0 = q.holds v 0) ∧
      ∀ (lhs rhs : Term) (op : Operation), op ≠ .none → lhs.isEmpty = false → rhs.isEmpty = false →
        (lhs.join op rhs).leaves = lhs.leaves ++ rhs.leaves ∧ ∀ v n,
          (lhs.join op rhs).holds v n =
            op.eval (lhs.holds v n) (rhs.holds v (n + lhs.leaves.length)) := by
  rw [parse_eq h]
  refine ⟨q.leaves_term, fun v => q.holds_term v 0, fun lhs rhs op hop hl hr => ?_⟩
  exact ⟨Term.leaves_join hop hl hr, fun v n => Term.holds_join v n hop hl hr⟩

/-- The word `c`. -/
def letter (c : Char) (h : isWordChar (latin1Char c) = true) : Word where
  chars := [latin1Char c]
  ne_nil := List.cons_ne_nil _ _
  wordChars := by simpa using h
  ne_and := by simp [latin1String]
  ne_or := by simp [latin1String]

/-- `a OR (b c)`. -/
def orGroup : QueryExpr :=
  .join (.single (.word (letter 'a' (by decide)))) .or
    (.group (.join (.single (.word (letter 'b' (by decide)))) .juxtaposition
      (.word (letter 'c' (by decide)))))

theorem not_extendedBy_of_all {token : Token} {text : List QChar}
    (h : text.head?.all (fun d => !token.extendedBy d) = true) : ∀ d ∈ text.head?, token.extendedBy d = false :=
  fun d hd => (Bool.not_eq_true' _).mp ((Option.all_eq_true _ _).mp h d hd)

theorem parse_meaning_orGroup :
    (parse (latin1String ['a', ' ', 'O', 'R', '(', 'b', ' ', 'c', ')'])).leaves = orGroup.leaves ∧
      ∀ v, (parse (latin1String ['a', ' ', 'O', 'R', '(', 'b', ' ', 'c', ')'])).holds v 0 =
        orGroup.holds v 0 := by
  have h : Spells orGroup.tokens (latin1String ['a', ' ', 'O', 'R', '(', 'b', ' ', 'c', ')']) := by
    have hblank : ∀ c ∈ latin1String [' '], isSpace c = true := List.all_eq_true.mp rfl
    have hnone : ∀ c ∈ latin1String [], isSpace c = true := List.all_eq_true.mp rfl
    refine .cons hnone ?_ (.cons hblank ?_ (.cons hnone ?_ (.cons hnone ?_ (.cons hblank ?_
      (.cons hnone ?_ (.nil hnone))))))
    all_goals exact not_extendedBy_of_all rfl
  exact ⟨(parse_meaning h).1, (parse_meaning h).2.1⟩

end Baloo.Search
