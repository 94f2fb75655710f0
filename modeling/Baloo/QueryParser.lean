import Baloo.QtText

/-!
# The query parser

Query texts are cut into tokens by `lex` and the tokens are read by a parser that does no look-ahead:
a stack of terms, one for each open parenthesis, a stack of the operations that will join the next
term to them, and a term in construction.

Terms are joined by a constructor of their own, which takes empty terms for units and merges the
subterms of terms of the same operation.
-/

namespace Baloo.Search

/-! ## Terms -/

/-- `Term::Comparator`. -/
inductive Comparator where
  /-- not chosen yet -/
  | auto
  /-- equality -/
  | equal
  /-- containment -/
  | contains
  /-- `>` -/
  | greater
  /-- `>=` -/
  | greaterEqual
  /-- `<` -/
  | less
  /-- `<=` -/
  | lessEqual
  deriving DecidableEq

/-- `Term::Operation`. -/
inductive Operation where
  /-- no operation -/
  | none
  /-- intersection -/
  | and
  /-- union -/
  | or
  deriving DecidableEq

/-- `Term`: `m_op`, `m_comp`, `m_property`, `m_value` and `m_subTerms`. -/
inductive Term where
  /-- the constructor of `Term::Private` -/
  | mk (op : Operation) (comp : Comparator) (property value : QString) (subTerms : List Term)

namespace Term

/-- `Term::Term()`. -/
def empty : Term := mk .none .auto none none []

/-- `Term::Term(property, value, c)`. -/
def ofProperty (property value : QString) (c : Comparator) : Term :=
  mk .none (if c = .auto then .contains else c) property value []

/-- `Term::Term(op, t)` for a list of terms. -/
def ofTerms (op : Operation) (t : List Term) : Term := mk op .auto none none t

/-- `Term::operation`. -/
def operation : Term → Operation
  | mk op _ _ _ _ => op

/-- `Term::comparator`. -/
def comparator : Term → Comparator
  | mk _ comp _ _ _ => comp

/-- `Term::property`. -/
def property : Term → QString
  | mk _ _ property _ _ => property

/-- `Term::value`. -/
def value : Term → QString
  | mk _ _ _ value _ => value

/-- `Term::subTerms`. -/
def subTerms : Term → List Term
  | mk _ _ _ _ subTerms => subTerms

/-- `Term::isEmpty`. -/
def isEmpty : Term → Bool
  | mk _ comp property value subTerms =>
    property.isEmpty && value.isEmpty && subTerms.isEmpty && comp = .auto

/-- `Term::setProperty`. -/
def setProperty : Term → QString → Term
  | mk op comp _ value subTerms, property => mk op comp property value subTerms

/-- `Term::setValue`. -/
def setValue : Term → QString → Term
  | mk op comp property _ subTerms, value => mk op comp property value subTerms

/-- `Term::setComparator`. -/
def setComparator : Term → Comparator → Term
  | mk op _ property value subTerms, comp => mk op comp property value subTerms

/-- The subterms a term contributes to a term of the operation `op`. -/
def operands (t : Term) (op : Operation) : List Term :=
  if t.operation = op then t.subTerms else [t]

/-- `Term::Term(lhs, op, rhs)`. -/
def join (lhs : Term) (op : Operation) (rhs : Term) : Term :=
  if lhs.isEmpty then rhs
  else if rhs.isEmpty then lhs
  else ofTerms op (lhs.operands op ++ rhs.operands op)

end Term

/-! ## The lexer -/

/-- The variables of `lex`. -/
structure Lexer where
  /-- the tokens so far -/
  tokenList : List QString
  /-- the current token -/
  token : QString
  /-- between two quotes -/
  inQuotes : Bool

namespace Lexer

/-- The characters that end a token collect it first, unless it is empty. -/
def endToken (l : Lexer) : Lexer :=
  if l.token.isEmpty then l else { l with tokenList := l.tokenList ++ [l.token], token := none }

/-- A token that is complete by itself. -/
def add (l : Lexer) (chars : List QChar) : Lexer :=
  { l with tokenList := l.tokenList ++ [some chars] }

end Lexer

/-- The characters of the comparison operators. -/
def isOperator (c : QChar) : Bool :=
  c = latin1Char '>' ∨ c = latin1Char '<' ∨ c = latin1Char ':' ∨ c = latin1Char '='

/-- The parentheses. -/
def isParenthesis (c : QChar) : Bool := c = latin1Char '(' ∨ c = latin1Char ')'

/-- The loop of `lex`. -/
def lexLoop (l : Lexer) : List QChar → Lexer
  | [] => l
  | c :: text =>
    if c = latin1Char '"' then
      -- Quotes start or end string literals
      if l.inQuotes then
        lexLoop { tokenList := l.tokenList ++ [l.token], token := none, inQuotes := false } text
      else lexLoop { l with inQuotes := true } text
    else if l.inQuotes then
      -- Don't do any processing in strings
      lexLoop { l with token := QString.append l.token c } text
    else if isSpace c then lexLoop l.endToken text
    else if isParenthesis c then lexLoop (l.endToken.add [c]) text
    else if isOperator c then
      -- accept '=' after any operator
      match text with
      | [] => l.endToken.add [c]
      | d :: rest =>
        if d = latin1Char '=' then lexLoop (l.endToken.add [c, d]) rest
        else lexLoop (l.endToken.add [c]) (d :: rest)
    else lexLoop { l with token := QString.append l.token c } text

/-- `lex`. -/
def lex (text : List QChar) : List QString :=
  (lexLoop { tokenList := [], token := none, inQuotes := false } text).endToken.tokenList

/-! ## The parser -/

/-- The variables of `QueryParser::parse`; the heads of the lists are the tops of the stacks. -/
structure Parser where
  /-- one term for each open parenthesis and one for the text -/
  stack : List Term
  /-- how the next term is joined to each of them -/
  ops : List Operation
  /-- `termInConstruction` -/
  termInConstruction : Term
  /-- a key and an operator have been parsed -/
  valueExpected : Bool

namespace Parser

/-- `addTermToStack`. -/
def addTermToStack (stack : List Term) (termInConstruction : Term) (op : Operation) : List Term :=
  match stack with
  | [] => []
  | tos :: stack => tos.join op termInConstruction :: stack

/-- `ops.top()`. -/
def top (s : Parser) : Operation := s.ops.headD .and

/-- Assign to `ops.top()`. -/
def setTop (s : Parser) (op : Operation) : Parser := { s with ops := op :: s.ops.tail }

/-- Add the term in construction to the top of the stack. -/
def addTerm (s : Parser) : Parser :=
  { s with stack := addTermToStack s.stack s.termInConstruction s.top }

/-- A logic operator. -/
def logic (s : Parser) (op : Operation) : Parser :=
  (if s.termInConstruction.isEmpty then s
    else { s.addTerm with termInConstruction := .empty }).setTop op

/-- An opening parenthesis. -/
def openGroup (s : Parser) : Parser :=
  let s := if s.termInConstruction.isEmpty then s else s.addTerm.setTop .and
  { s with stack := .empty :: s.stack, ops := .and :: s.ops, termInConstruction := .empty }

/-- A closing parenthesis. -/
def closeGroup (s : Parser) : Parser :=
  -- Prevent a stack underflow if the user writes "a b ))))"
  if 1 < s.stack.length then
    -- Don't forget the term just before the closing brace
    let s := if s.termInConstruction.isEmpty then s else s.addTerm
    let s := { s with ops := s.ops.tail }
    let closed := addTermToStack s.stack.tail (s.stack.headD .empty) s.top
    setTop { s with stack := closed, termInConstruction := .empty } .and
  else s

/-- A new term is started. -/
def startTerm (s : Parser) (token : QString) : Parser :=
  { (if s.termInConstruction.isEmpty then s else s.addTerm.setTop .and) with
    termInConstruction := .ofProperty none token .auto }

/-- The comparator chosen by the first character of a token, `c`. -/
def comparatorOf (c : QChar) (token : List QChar) : Comparator :=
  if c = latin1Char ':' then .contains
  else if c = latin1Char '=' then .equal
  else if c = latin1Char '<' then
    if token.length = 1 then .less
    else if token[1]? = some (latin1Char '=') then .lessEqual
    else .auto
  else if c = latin1Char '>' then
    if token.length = 1 then .greater
    else if token[1]? = some (latin1Char '=') then .greaterEqual
    else .auto
  else .auto

/-- The body of the loop over the tokens; `none` ends `parse` with an empty term. -/
def read (s : Parser) (token : QString) : Option Parser :=
  if s.valueExpected then
    let property := s.termInConstruction.value
    if property.isEmpty then none
    else some { s with
      termInConstruction := (s.termInConstruction.setProperty property).setValue token
      valueExpected := false }
  else if token = some (latin1String ['A', 'N', 'D']) then some (s.logic .and)
  else if token = some (latin1String ['O', 'R']) then some (s.logic .or)
  else
    let c := toLatin1 (token.chars.headD 0)
    if c = latin1Char '(' then some s.openGroup
    else if c = latin1Char ')' then some s.closeGroup
    else if comparatorOf c token.chars ≠ .auto then
      some { s with
        termInConstruction := s.termInConstruction.setComparator (comparatorOf c token.chars)
        valueExpected := true }
    else some (s.startTerm token)

/-- Process unclosed parentheses. -/
def closeAll (op : Operation) : List Term → Term
  | [] => .empty
  | t :: stack => stack.foldl (fun t tos => tos.join op t) t

/-- What follows the loop over the tokens. -/
def finish (s : Parser) : Term :=
  let t := s.termInConstruction
  let s := if s.valueExpected then
      { s with termInConstruction := ((t.setProperty t.value).setValue none).setComparator .contains }
    else s
  let s := if s.termInConstruction.isEmpty then s else s.addTerm
  let s := { s with ops := s.ops.tail }
  closeAll s.top s.stack

/-- The state before the first token. -/
def initial : Parser :=
  { stack := [.empty], ops := [.and], termInConstruction := .empty, valueExpected := false }

end Parser

/-- `QueryParser::parse`. -/
def parse (text : List QChar) : Term :=
  match (lex text).foldlM Parser.read Parser.initial with
  | none => .empty
  | some s => s.finish

example : parse (latin1String ['a', ' ', 'O', 'R', ' ', '(', 'b', ' ', '(', 'c', ')', ')']) =
    .ofTerms .or [.ofProperty none (some [latin1Char 'a']) .contains,
      .ofTerms .and [.ofProperty none (some [latin1Char 'b']) .contains,
        .ofProperty none (some [latin1Char 'c']) .contains]] := by
  rfl

end Baloo.Search
