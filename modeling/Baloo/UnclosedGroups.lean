import Baloo.QueryMeaning
import Mathlib.Algebra.Group.Nat.Even

/-!
# Groups that are not closed

A text may end inside of groups. The parser closes them at the end, one after the other, but it looks up the
operation only once: all of them are joined with the operation of the innermost one, whereas a parenthesis would
have joined each group with the operation in front of it. When the operations differ, so do the queries
(`unclosed_groups`).

What is open at the end is read from the tokens alone (`outline`): for each group, whether there is something in it
and which operation the next operand gets.
-/

namespace Baloo.Search

/-! ## Parentheses at the end of a text -/

section Lexing

variable {l : Lexer} {c : QChar} {text rest : List QChar}

/-- The lexer goes on where it has stopped, unless there is a `=` that an operator takes. -/
theorem lexLoop_append (h : rest.head? ≠ some (latin1Char '=')) :
    lexLoop l (text ++ rest) = lexLoop (lexLoop l text) rest := by
  fun_induction lexLoop l text with
  | case1 l => rfl
  | case2 l text hquotes ih =>
    rw [List.cons_append, ← ih]
    conv_lhs => unfold lexLoop
    rw [if_pos rfl, if_pos hquotes]
  | case3 l text hquotes ih =>
    rw [List.cons_append, ← ih]
    conv_lhs => unfold lexLoop
    rw [if_pos rfl, if_neg hquotes]
  | case4 l c text hc hquotes ih =>
    rw [List.cons_append, ← ih]
    conv_lhs => unfold lexLoop
    rw [if_neg hc, if_pos hquotes]
  | case5 l c text hc hquotes hspace ih =>
    rw [List.cons_append, ← ih]
    conv_lhs => unfold lexLoop
    rw [if_neg hc, if_neg hquotes, if_pos hspace]
  | case6 l c text hc hquotes hspace hparenthesis ih =>
    rw [List.cons_append, ← ih]
    conv_lhs => unfold lexLoop
    rw [if_neg hc, if_neg hquotes, if_neg hspace, if_pos hparenthesis]
  | case7 l c hc hquotes hspace hparenthesis hoperator =>
    rw [List.cons_append, List.nil_append]
    conv_lhs => unfold lexLoop
    rw [if_neg hc, if_neg hquotes, if_neg hspace, if_neg hparenthesis, if_pos hoperator]
    cases rest with
    | nil => rfl
    | cons d rest => exact if_neg fun hd => h (congrArg some hd)
  | case8 l c hc hquotes hspace hparenthesis hoperator rest' ih =>
    rw [List.cons_append, List.cons_append, ← ih]
    conv_lhs => unfold lexLoop
    rw [if_neg hc, if_neg hquotes, if_neg hspace, if_neg hparenthesis, if_pos hoperator]
    exact if_pos rfl
  | case9 l c hc hquotes hspace hparenthesis hoperator d rest' hd ih =>
    rw [List.cons_append, ← ih]
    conv_lhs => unfold lexLoop
    rw [if_neg hc, if_neg hquotes, if_neg hspace, if_neg hparenthesis, if_pos hoperator]
    exact if_neg hd
  | case10 l c text hc hquotes hspace hparenthesis hoperator ih =>
    rw [List.cons_append, ← ih]
    conv_lhs => unfold lexLoop
    rw [if_neg hc, if_neg hquotes, if_neg hspace, if_neg hparenthesis, if_neg hoperator]

theorem inQuotes_endToken : l.endToken.inQuotes = l.inQuotes := by
  rw [Lexer.endToken]
  split <;> rfl

/-- No token is begun behind one that is complete by itself. -/
theorem endToken_add (chars : List QChar) : (l.endToken.add chars).endToken = l.endToken.add chars := by
  have hempty : l.endToken.token.isEmpty = true := by
    rw [Lexer.endToken]
    split
    · assumption
    · rfl
  exact if_pos hempty

/-- Behind an even number of quotes, the lexer is outside of them. -/
theorem inQuotes_lexLoop :
    (lexLoop l text).inQuotes = (l.inQuotes ^^ decide (text.count (latin1Char '"') % 2 = 1)) := by
  fun_induction lexLoop l text with
  | case1 l => simp
  | case2 l text hquotes ih =>
    rw [ih, List.count_cons_self, hquotes]
    rcases Nat.mod_two_eq_zero_or_one (text.count (latin1Char '"')) with h | h <;> simp [Nat.add_mod, h]
  | case3 l text hquotes ih =>
    rw [ih, List.count_cons_self, Bool.eq_false_iff.mpr hquotes]
    rcases Nat.mod_two_eq_zero_or_one (text.count (latin1Char '"')) with h | h <;> simp [Nat.add_mod, h]
  | case4 l c text hc hquotes ih => rw [ih, List.count_cons_of_ne hc]
  | case5 l c text hc hquotes hspace ih => rw [ih, List.count_cons_of_ne hc, inQuotes_endToken]
  | case6 l c text hc hquotes hspace hparenthesis ih =>
    rw [ih, List.count_cons_of_ne hc]
    exact congrArg (· ^^ _) inQuotes_endToken
  | case7 l c hc hquotes hspace hparenthesis hoperator =>
    rw [List.count_cons_of_ne hc, List.count_nil]
    exact inQuotes_endToken.trans (Bool.xor_false _).symm
  | case8 l c hc hquotes hspace hparenthesis hoperator rest' ih =>
    rw [ih, List.count_cons_of_ne hc, List.count_cons_of_ne (by decide)]
    exact congrArg (· ^^ _) inQuotes_endToken
  | case9 l c hc hquotes hspace hparenthesis hoperator d rest' hd ih =>
    rw [ih, List.count_cons_of_ne hc]
    exact congrArg (· ^^ _) inQuotes_endToken
  | case10 l c text hc hquotes hspace hparenthesis hoperator ih => rw [ih, List.count_cons_of_ne hc]

/-- Closing parentheses are tokens. -/
theorem lexLoop_closing (h : l.inQuotes = false) (k : ℕ) :
    (lexLoop l (List.replicate k (latin1Char ')'))).endToken.tokenList =
      l.endToken.tokenList ++ List.replicate k (some [latin1Char ')']) := by
  induction k generalizing l with
  | zero => exact (List.append_nil _).symm
  | succ k ih =>
    obtain ⟨ts, token, inQuotes⟩ := l
    obtain rfl : inQuotes = false := h
    have hround : ((Lexer.endToken ⟨ts, token, false⟩).add [latin1Char ')']).inQuotes = false := inQuotes_endToken
    rw [List.replicate_succ, lexLoop_parenthesis rfl, ih hround, endToken_add]
    exact List.append_assoc _ _ _

/-- The tokens of a text with closing parentheses behind it. -/
theorem lex_append_closing (h : Even (text.count (latin1Char '"'))) (k : ℕ) :
    lex (text ++ List.replicate k (latin1Char ')')) = lex text ++ List.replicate k (some [latin1Char ')']) := by
  have hhead : (List.replicate k (latin1Char ')')).head? ≠ some (latin1Char '=') := by
    cases k with
    | zero => simp
    | succ k => simp [List.replicate_succ, latin1Char]
  rw [lex, lexLoop_append hhead]
  refine lexLoop_closing ?_ k
  rw [inQuotes_lexLoop, Nat.even_iff.mp h]
  rfl

end Lexing

/-! ## Closing groups -/

/-- Groups are joined to the ones around them, each with its operation. -/
def joinAll (t : Term) : List (Term × Operation) → Term
  | [] => t
  | (tos, op) :: groups => joinAll (tos.join op t) groups

/-- The operations that groups are joined with when there are closing parentheses for some of them: the others all
get the operation of the first of them. -/
def closing : ℕ → List Operation → List Operation
  | 0, ops => List.replicate ops.length (ops.headD .and)
  | _ + 1, [] => []
  | k + 1, op :: ops => op :: closing k ops

theorem length_closing (k : ℕ) (ops : List Operation) : (closing k ops).length = ops.length := by
  induction k generalizing ops with
  | zero => exact List.length_replicate
  | succ k ih =>
    cases ops with
    | nil => rfl
    | cons op ops => exact congrArg Nat.succ (ih ops)

theorem mem_closing {k : ℕ} {op : Operation} {ops : List Operation} (h : op ∈ closing k ops) : op ∈ ops := by
  induction k generalizing ops with
  | zero =>
    cases ops with
    | nil => exact h
    | cons first ops =>
      rw [(List.mem_replicate.mp h).2]
      exact List.mem_cons_self
  | succ k ih =>
    cases ops with
    | nil => exact h
    | cons first ops => exact List.mem_cons.mpr ((List.mem_cons.mp h).imp_right ih)

namespace Parser

theorem closeAll_eq (op : Operation) (t : Term) (stack : List Term) :
    closeAll op (t :: stack) = joinAll t (stack.zip (List.replicate stack.length op)) := by
  rw [closeAll]
  induction stack generalizing t with
  | nil => rfl
  | cons tos stack ih => exact ih (tos.join op t)

/-- The end of a text closes all groups with one operation. -/
theorem Ready.finish_eq {s : Parser} (h : s.Ready) (hlength : s.stack.tail.length = s.ops.tail.length) :
    s.finish = joinAll s.pending.1 (s.stack.tail.zip (closing 0 s.ops.tail)) := by
  obtain ⟨_ | ⟨t, stack⟩, _ | ⟨op, ops⟩, termInConstruction, valueExpected⟩ := s
  · exact absurd rfl h.stack
  · exact absurd rfl h.stack
  · exact absurd rfl h.ops
  obtain rfl : valueExpected = false := h.valueExpected
  have hlength' : stack.length = ops.length := hlength
  have hclosing : closing 0 ops = List.replicate stack.length (ops.headD .and) := by rw [hlength']; rfl
  rw [List.tail_cons, List.tail_cons, hclosing, ← closeAll_eq]
  rcases hempty : termInConstruction.isEmpty with _ | _
  · simp [Parser.finish, hempty, pending, addTerm, addTermToStack, top]
  · simp [Parser.finish, hempty, pending, top]

/-- A closing parenthesis is ignored where no group is open. -/
theorem closeGroup_of_tail {s : Parser} (hstack : s.stack.tail = []) : s.closeGroup = s := by
  refine if_neg fun hlt => ?_
  rw [← Nat.sub_pos_iff_lt, ← List.length_tail, hstack] at hlt
  exact absurd hlt (Nat.lt_irrefl 0)

/-- Closing parentheses close groups with their own operations, and the end of the text closes the others. -/
theorem Ready.exists_closing {s : Parser} (h : s.Ready) (hlength : s.stack.tail.length = s.ops.tail.length) (k : ℕ) :
    ∃ s', (List.replicate k (some [latin1Char ')'])).foldlM Parser.read s = some s' ∧
      s'.finish = joinAll s.pending.1 (s.stack.tail.zip (closing k s.ops.tail)) := by
  induction k generalizing s with
  | zero => exact ⟨s, rfl, h.finish_eq hlength⟩
  | succ k ih =>
    rw [List.replicate_succ, List.foldlM_cons, read_closing h.valueExpected, Option.bind_eq_bind, Option.bind_some]
    rcases hstack : s.stack.tail with _ | ⟨t, stack⟩
    · -- the parenthesis is ignored
      have hops : s.ops.tail = [] := List.length_eq_zero_iff.mp (by rw [← hlength, hstack]; rfl)
      obtain ⟨s', hreads, hfinish⟩ := ih h hlength
      rw [hstack] at hfinish
      rw [closeGroup_of_tail hstack]
      exact ⟨s', hreads, hfinish.trans rfl⟩
    · rcases hops : s.ops.tail with _ | ⟨op, ops⟩
      · rw [hstack, hops] at hlength
        cases hlength
      · have hclose := h.closeGroup hstack hops
        have hready : s.closeGroup.Ready := by
          rw [hclose]
          exact ⟨List.cons_ne_nil _ _, List.cons_ne_nil _ _, rfl⟩
        rw [hstack, hops] at hlength
        obtain ⟨s', hreads, hfinish⟩ := ih hready (by rw [hclose]; exact Nat.succ.inj hlength)
        rw [hclose] at hreads hfinish
        rw [hclose]
        exact ⟨s', hreads, hfinish⟩

end Parser

/-! ## Which operations matter -/

namespace Term

/-- The terms of the parser: the empty one, leaves, and operations with several operands. -/
def Regular (t : Term) : Prop :=
  t = .empty ∨ t.isEmpty = false ∧
    (t.operation = .none ∨ ∃ op ts, op ≠ .none ∧ 2 ≤ ts.length ∧ t = .ofTerms op ts)

variable {t u v : Term} {op : Operation}

theorem isEmpty_ofTerms {ts : List Term} (h : 2 ≤ ts.length) : (ofTerms op ts).isEmpty = false := by
  cases ts with
  | nil => cases h
  | cons t ts => simp [ofTerms, isEmpty]

theorem Regular.operands_ne_nil (h : t.Regular) (hop : op ≠ .none) : t.operands op ≠ [] := by
  rw [operands]
  split
  · next heq =>
    rcases h with rfl | ⟨-, hnone | ⟨op', ts, -, hlength, rfl⟩⟩
    · exact absurd heq.symm hop
    · exact absurd (heq.symm.trans hnone) hop
    · rintro hnil
      obtain rfl : ts = [] := hnil
      cases hlength
  · exact List.cons_ne_nil _ _

theorem join_of_nonempty (ht : t.isEmpty = false) (hu : u.isEmpty = false) :
    t.join op u = ofTerms op (t.operands op ++ u.operands op) := by
  rw [join, ht, hu]
  rfl

theorem join_left (h : t.isEmpty = true) : t.join op u = u := if_pos h

theorem join_right (h : u.isEmpty = true) (ht : t.isEmpty = false) : t.join op u = t := by
  rw [join, ht, h]
  rfl

theorem Regular.length_operands (ht : t.Regular) (hu : u.Regular) (hop : op ≠ .none) :
    2 ≤ (t.operands op ++ u.operands op).length := by
  have hleft := List.length_pos_iff.mpr (ht.operands_ne_nil hop)
  have hright := List.length_pos_iff.mpr (hu.operands_ne_nil hop)
  rw [List.length_append]
  omega

theorem Regular.join (ht : t.Regular) (hu : u.Regular) (hop : op ≠ .none) : (t.join op u).Regular := by
  rcases htempty : t.isEmpty with _ | _
  · rcases huempty : u.isEmpty with _ | _
    · rw [join_of_nonempty htempty huempty]
      have hlength := ht.length_operands hu hop
      exact .inr ⟨isEmpty_ofTerms hlength, .inr ⟨op, _, hop, hlength, rfl⟩⟩
    · rwa [join_right huempty htempty]
  · rwa [join_left htempty]

theorem Regular.isEmpty_join (ht : t.Regular) (hu : u.Regular) (hop : op ≠ .none) :
    (t.join op u).isEmpty = (t.isEmpty && u.isEmpty) := by
  rcases htempty : t.isEmpty with _ | _
  · rcases huempty : u.isEmpty with _ | _
    · rw [join_of_nonempty htempty huempty]
      exact isEmpty_ofTerms (ht.length_operands hu hop)
    · rw [join_right huempty htempty, htempty]
      rfl
  · rw [join_left htempty, Bool.true_and]

/-- A term is what its operands make it. -/
theorem Regular.operands_inj (hu : u.Regular) (hv : v.Regular) (hop : op ≠ .none)
    (heq : u.operands op = v.operands op) : u = v := by
  have hcomposite : ∀ {w : Term}, w.Regular → w.operation = op →
      w = ofTerms op w.subTerms ∧ 2 ≤ w.subTerms.length := by
    intro w hw hwop
    rcases hw with rfl | ⟨-, hnone | ⟨op', ts, -, hlength, rfl⟩⟩
    · exact absurd hwop.symm hop
    · exact absurd (hwop.symm.trans hnone) hop
    · obtain rfl : op' = op := hwop
      exact ⟨rfl, hlength⟩
  rw [operands, operands] at heq
  split at heq
  · next huop =>
    obtain ⟨hu', hulength⟩ := hcomposite hu huop
    split at heq
    · next hvop =>
      rw [hu', (hcomposite hv hvop).1, heq]
    · rw [heq, List.length_singleton] at hulength
      omega
  · split at heq
    · next hvop =>
      have hvlength := (hcomposite hv hvop).2
      rw [← heq, List.length_singleton] at hvlength
      omega
    · exact List.singleton_inj.mp heq

/-- Terms that differ still differ when they are joined to the same term. -/
theorem Regular.join_ne (ht : t.Regular) (hu : u.Regular) (hv : v.Regular) (huempty : u.isEmpty = false)
    (hvempty : v.isEmpty = false) {op' : Operation} (hop : op ≠ .none) (hne : u ≠ v) :
    t.join op u ≠ t.join op' v := by
  rcases htempty : t.isEmpty with _ | _
  · rw [join_of_nonempty htempty huempty, join_of_nonempty htempty hvempty]
    intro heq
    obtain rfl : op = op' := congrArg operation heq
    have hoperands := List.append_cancel_left (congrArg subTerms heq)
    exact hne (hu.operands_inj hv hop hoperands)
  · rwa [join_left htempty, join_left htempty]

/-- Two operations make different terms of two operands. -/
theorem join_ne_of_operation (ht : t.isEmpty = false) (hu : u.isEmpty = false) {op' : Operation} (hne : op ≠ op') :
    t.join op u ≠ t.join op' u := by
  rw [join_of_nonempty ht hu, join_of_nonempty ht hu]
  exact fun heq => hne (congrArg operation heq)

/-- With a single operand the operation does not matter. -/
theorem join_eq_of_isEmpty (h : t.isEmpty = true ∨ u.isEmpty = true) (op op' : Operation) :
    t.join op u = t.join op' u := by
  rcases htempty : t.isEmpty with _ | _
  · have hu := h.resolve_left (by rw [htempty]; exact Bool.false_ne_true)
    rw [join_right hu htempty, join_right hu htempty]
  · rw [join_left htempty, join_left htempty]

end Term

/-- The operations agree wherever there is something in the group, or further inside, and something before it. -/
def alike : Bool → List Bool → List Operation → List Operation → Bool
  | inside, filled :: outer, p :: ps, q :: qs =>
    (!(inside && filled) || decide (p = q)) && alike (inside || filled) outer ps qs
  | _, _, _, _ => true

/-- A difference is not lost in the groups around. -/
theorem joinAll_ne {u v : Term} (hu : u.Regular) (hv : v.Regular) (huempty : u.isEmpty = false)
    (hvempty : v.isEmpty = false) (hne : u ≠ v) {stack : List Term} (hstack : ∀ t ∈ stack, t.Regular)
    {ps qs : List Operation} (hps : ∀ op ∈ ps, op ≠ .none) (hqs : ∀ op ∈ qs, op ≠ .none)
    (hpslength : ps.length = stack.length) (hqslength : qs.length = stack.length) :
    joinAll u (stack.zip ps) ≠ joinAll v (stack.zip qs) := by
  induction stack generalizing u v ps qs with
  | nil => exact hne
  | cons t stack ih =>
    obtain ⟨ht, hstack⟩ := List.forall_mem_cons.mp hstack
    rcases ps with _ | ⟨p, ps⟩
    · cases hpslength
    rcases qs with _ | ⟨q, qs⟩
    · cases hqslength
    obtain ⟨hp, hps⟩ := List.forall_mem_cons.mp hps
    obtain ⟨hq, hqs⟩ := List.forall_mem_cons.mp hqs
    refine ih (ht.join hu hp) (ht.join hv hq) ?_ ?_ (ht.join_ne hu hv huempty hvempty hp hne) hstack hps hqs
      (Nat.succ.inj hpslength) (Nat.succ.inj hqslength)
    · rw [ht.isEmpty_join hu hp, huempty, Bool.and_false]
    · rw [ht.isEmpty_join hv hq, hvempty, Bool.and_false]

/-- **Closing groups in two ways** gives the same term if and only if the operations that matter agree. -/
theorem joinAll_eq_iff {u : Term} (hu : u.Regular) {stack : List Term} (hstack : ∀ t ∈ stack, t.Regular)
    {ps qs : List Operation} (hps : ∀ op ∈ ps, op ≠ .none) (hqs : ∀ op ∈ qs, op ≠ .none)
    (hpslength : ps.length = stack.length) (hqslength : qs.length = stack.length) :
    joinAll u (stack.zip ps) = joinAll u (stack.zip qs) ↔
      alike (!u.isEmpty) (stack.map fun t => !t.isEmpty) ps qs = true := by
  induction stack generalizing u ps qs with
  | nil => exact iff_of_true rfl (by simp [alike])
  | cons t stack ih =>
    obtain ⟨ht, hstack⟩ := List.forall_mem_cons.mp hstack
    rcases ps with _ | ⟨p, ps⟩
    · cases hpslength
    rcases qs with _ | ⟨q, qs⟩
    · cases hqslength
    obtain ⟨hp, hps⟩ := List.forall_mem_cons.mp hps
    obtain ⟨hq, hqs⟩ := List.forall_mem_cons.mp hqs
    have hlength := Nat.succ.inj hpslength
    have hlength' := Nat.succ.inj hqslength
    have hinside : (!(t.join p u).isEmpty) = (!u.isEmpty || !t.isEmpty) := by
      rw [ht.isEmpty_join hu hp, Bool.not_and, Bool.or_comm]
    rw [List.map_cons, alike, Bool.and_eq_true, ← hinside, List.zip_cons_cons, List.zip_cons_cons, joinAll, joinAll]
    by_cases heq : t.join p u = t.join q u
    · rw [← heq, ih (ht.join hu hp) hstack hps hqs hlength hlength']
      refine (and_iff_right ?_).symm
      rw [Bool.or_eq_true, decide_eq_true_iff, Bool.not_eq_true', Bool.and_eq_false_iff, Bool.not_eq_false',
        Bool.not_eq_false']
      by_contra hnot
      obtain ⟨hfilled, hne⟩ := not_or.mp hnot
      obtain ⟨huempty, htempty⟩ := not_or.mp hfilled
      exact Term.join_ne_of_operation (Bool.eq_false_iff.mpr htempty) (Bool.eq_false_iff.mpr huempty) hne heq
    · have hboth : t.isEmpty = false ∧ u.isEmpty = false := by
        rw [← Bool.not_eq_true, ← Bool.not_eq_true, ← not_or]
        exact fun h => heq (Term.join_eq_of_isEmpty h p q)
      have hpq : p ≠ q := fun hpq => heq (by rw [hpq])
      refine iff_of_false ?_ fun h => ?_
      · refine joinAll_ne (ht.join hu hp) (ht.join hu hq) ?_ ?_ heq hstack hps hqs hlength hlength'
        · rw [ht.isEmpty_join hu hp, hboth.1]
          rfl
        · rw [ht.isEmpty_join hu hq, hboth.1]
          rfl
      · have hagree := h.1
        rw [hboth.1, hboth.2, decide_eq_false hpq] at hagree
        cases hagree

/-! ## What is open at the end -/

/-- What has been seen of the tokens. -/
structure Outline where
  /-- the open groups, the innermost first: something is in the group, and the operation for the next operand -/
  groups : List (Bool × Operation)
  /-- the last token may be a property -/
  subject : Bool
  /-- a property and an operator have been seen -/
  valueExpected : Bool

namespace Outline

/-- Before the first token. -/
def initial : Outline := ⟨[(false, .and)], false, false⟩

/-- What is left when a group is closed. -/
def close (o : Outline) : Outline :=
  match o.groups with
  | (inside, _) :: (filled, _) :: outer => ⟨(filled || inside, .and) :: outer, false, false⟩
  | _ => o

/-- The next token; `none` if there is no property in front of an operator. -/
def read (o : Outline) (token : QString) : Option Outline :=
  if o.valueExpected then
    if o.subject then some ⟨o.groups, !token.isEmpty, false⟩ else none
  else if token = some (latin1String ['A', 'N', 'D']) then
    some ⟨((o.groups.headD (false, .and)).1, .and) :: o.groups.tail, false, false⟩
  else if token = some (latin1String ['O', 'R']) then
    some ⟨((o.groups.headD (false, .and)).1, .or) :: o.groups.tail, false, false⟩
  else
    let c := toLatin1 (token.chars.headD 0)
    if c = latin1Char '(' then some ⟨(false, .and) :: o.groups, false, false⟩
    else if c = latin1Char ')' then some o.close
    else if Parser.comparatorOf c token.chars ≠ .auto then some ⟨o.groups, o.subject, true⟩
    else some ⟨(true, .and) :: o.groups.tail, !token.isEmpty, false⟩

/-- Closing parentheses and the end of the text close the groups alike. -/
def closesAlike (o : Outline) (k : ℕ) : Bool :=
  match o.groups with
  | [] => true
  | (inside, _) :: outer =>
    alike inside (outer.map Prod.fst) (closing k (outer.map Prod.snd)) (closing 0 (outer.map Prod.snd))

end Outline

/-- The outline of a text. -/
def outline (text : List QChar) : Option Outline := (lex text).foldlM Outline.read Outline.initial

/-- How many opening parentheses outside of quotes have no closing one. -/
def unclosedLoop : Bool → ℕ → List QChar → ℕ
  | _, depth, [] => depth
  | inQuotes, depth, c :: text =>
    if c = latin1Char '"' then unclosedLoop (!inQuotes) depth text
    else if inQuotes then unclosedLoop inQuotes depth text
    else if c = latin1Char '(' then unclosedLoop inQuotes (depth + 1) text
    else if c = latin1Char ')' then unclosedLoop inQuotes (depth - 1) text
    else unclosedLoop inQuotes depth text

/-- How many parentheses of a text are not closed. -/
def unclosed (text : List QChar) : ℕ := unclosedLoop false 0 text

namespace Parser

/-- Something is in the group of each term. -/
def groups (s : Parser) : List (Bool × Operation) :=
  (!s.pending.1.isEmpty, s.pending.2) :: (s.stack.tail.map fun t => !t.isEmpty).zip s.ops.tail

/-- The terms and the stacks are as the parser keeps them. -/
structure Sound (s : Parser) : Prop where
  /-- a group is open -/
  nonempty : s.stack ≠ []
  /-- each group has an operation -/
  length : s.ops.length = s.stack.length
  /-- the terms of the groups -/
  stack : ∀ t ∈ s.stack, t.Regular
  /-- the operations join -/
  ops : ∀ op ∈ s.ops, op ≠ .none
  /-- the term in construction has no operands -/
  leaf : s.termInConstruction.operation = .none

/-- The outline is that of the parser; behind an operator without property, which ends the parser, its groups are
not looked at. -/
structure Drawn (o : Outline) (s : Parser) : Prop where
  /-- the stacks -/
  sound : s.Sound
  /-- a value is expected -/
  valueExpected : s.valueExpected = o.valueExpected
  /-- the term in construction can be a property -/
  subject : o.subject = !s.termInConstruction.value.isEmpty
  /-- the groups -/
  groups : o.valueExpected = false ∨ o.subject = true → o.groups = s.groups

section

variable {o : Outline} {s : Parser} {token : QString}

theorem Sound.ready (h : s.Sound) (hvalue : s.valueExpected = false) : s.Ready := by
  refine ⟨h.nonempty, fun hnil => h.nonempty ?_, hvalue⟩
  rw [← List.length_eq_zero_iff, ← h.length, hnil]
  rfl

theorem Sound.length_tail (h : s.Sound) : s.ops.tail.length = s.stack.tail.length := by
  rw [List.length_tail, List.length_tail, h.length]

theorem Sound.regular_of_nonempty (h : s.Sound) (hne : s.termInConstruction.isEmpty = false) :
    s.termInConstruction.Regular := .inr ⟨hne, .inl h.leaf⟩

/-- What is pending. -/
theorem Sound.pending (h : s.Sound) : s.pending.1.Regular ∧ s.pending.2 ≠ .none := by
  obtain ⟨_ | ⟨t, stack⟩, _ | ⟨op, ops⟩, termInConstruction, valueExpected⟩ := s
  · exact absurd rfl h.nonempty
  · exact absurd rfl h.nonempty
  · cases h.length
  have ht := h.stack t List.mem_cons_self
  have hop := h.ops op List.mem_cons_self
  rw [Parser.pending]
  split
  · exact ⟨ht, hop⟩
  · next hne => exact ⟨ht.join (h.regular_of_nonempty (Bool.eq_false_iff.mpr hne)) hop, fun hand => by cases hand⟩

theorem Sound.stack_tail (h : s.Sound) : ∀ t ∈ s.stack.tail, t.Regular :=
  fun t ht => h.stack t (List.mem_of_mem_tail ht)

theorem Sound.ops_tail (h : s.Sound) : ∀ op ∈ s.ops.tail, op ≠ .none :=
  fun op hop => h.ops op (List.mem_of_mem_tail hop)

/-- If there is a term in construction, something is in the group, and the next operation is `AND`. -/
theorem Sound.pending_of_nonempty (h : s.Sound) (hne : s.termInConstruction.isEmpty = false) :
    s.pending.1.isEmpty = false ∧ s.pending.2 = .and := by
  obtain ⟨_ | ⟨t, stack⟩, _ | ⟨op, ops⟩, termInConstruction, valueExpected⟩ := s
  · exact absurd rfl h.nonempty
  · exact absurd rfl h.nonempty
  · cases h.length
  have ht := h.stack t List.mem_cons_self
  have hop := h.ops op List.mem_cons_self
  rw [Parser.pending, if_neg (by simp [hne])]
  refine ⟨?_, rfl⟩
  refine (ht.isEmpty_join (h.regular_of_nonempty hne) hop).trans ?_
  rw [hne, Bool.and_false]

/-- Where there is no term in construction. -/
theorem drawn_of_isEmpty {t u : Term} {stack : List Term} {op : Operation} {ops : List Operation} (ht : t.Regular)
    (hstack : ∀ t ∈ stack, t.Regular) (hop : op ≠ .none) (hops : ∀ op ∈ ops, op ≠ .none)
    (hlength : ops.length = stack.length) (hleaf : u.operation = .none) (hempty : u.isEmpty = true) :
    Drawn ⟨(!t.isEmpty, op) :: (stack.map fun t => !t.isEmpty).zip ops, false, false⟩
      ⟨t :: stack, op :: ops, u, false⟩ := by
  refine ⟨⟨List.cons_ne_nil _ _, congrArg Nat.succ hlength, List.forall_mem_cons.mpr ⟨ht, hstack⟩,
    List.forall_mem_cons.mpr ⟨hop, hops⟩, hleaf⟩, rfl, ?_, fun _ => ?_⟩
  · obtain ⟨operation, comp, property, value, subTerms⟩ := u
    rw [Term.isEmpty, Bool.and_eq_true, Bool.and_eq_true, Bool.and_eq_true] at hempty
    rw [Term.value, hempty.1.1.2]
    rfl
  · rw [Parser.groups, pending, if_pos hempty]
    rfl

/-- Where there is one. -/
theorem drawn_of_nonempty (hsound : s.Sound) (hvalue : s.valueExpected = false)
    (hne : s.termInConstruction.isEmpty = false) :
    Drawn ⟨(true, .and) :: (s.stack.tail.map fun t => !t.isEmpty).zip s.ops.tail,
      !s.termInConstruction.value.isEmpty, false⟩ s := by
  refine ⟨hsound, hvalue, rfl, fun _ => ?_⟩
  rw [Parser.groups, (hsound.pending_of_nonempty hne).1, (hsound.pending_of_nonempty hne).2]
  rfl

/-- A logic operator. -/
theorem Drawn.logic (h : Drawn o s) (hvalue : o.valueExpected = false) {op : Operation} (hop : op ≠ .none) :
    Drawn ⟨((o.groups.headD (false, .and)).1, op) :: o.groups.tail, false, false⟩ (s.logic op) := by
  have hsound := h.sound
  have hlogic : ∃ u : Term, u.operation = .none ∧ u.isEmpty = true ∧
      s.logic op = ⟨s.pending.1 :: s.stack.tail, op :: s.ops.tail, u, false⟩ := by
    have hready := hsound.ready (h.valueExpected.trans hvalue)
    obtain ⟨_ | ⟨t, stack⟩, _ | ⟨op', ops⟩, termInConstruction, valueExpected⟩ := s
    · exact absurd rfl hready.stack
    · exact absurd rfl hready.stack
    · exact absurd rfl hready.ops
    obtain rfl : valueExpected = false := hready.valueExpected
    rcases hempty : termInConstruction.isEmpty with _ | _
    · exact ⟨.empty, rfl, rfl, by rw [Parser.logic, pending, hempty]; rfl⟩
    · exact ⟨termInConstruction, hsound.leaf, hempty, by rw [Parser.logic, pending, hempty]; rfl⟩
  obtain ⟨u, hleaf, hempty, hlogic⟩ := hlogic
  rw [hlogic, h.groups (.inl hvalue)]
  exact drawn_of_isEmpty hsound.pending.1 hsound.stack_tail hop hsound.ops_tail hsound.length_tail hleaf hempty

/-- An opening parenthesis. -/
theorem Drawn.openGroup (h : Drawn o s) (hvalue : o.valueExpected = false) :
    Drawn ⟨(false, .and) :: o.groups, false, false⟩ s.openGroup := by
  have hsound := h.sound
  have hpending := hsound.pending
  rw [(hsound.ready (h.valueExpected.trans hvalue)).openGroup, h.groups (.inl hvalue)]
  exact drawn_of_isEmpty (.inl rfl) (List.forall_mem_cons.mpr ⟨hpending.1, hsound.stack_tail⟩) Operation.noConfusion
    (List.forall_mem_cons.mpr ⟨hpending.2, hsound.ops_tail⟩) (congrArg Nat.succ hsound.length_tail) rfl rfl

/-- A closing parenthesis. -/
theorem Drawn.closeGroup (h : Drawn o s) (hvalue : o.valueExpected = false) : Drawn o.close s.closeGroup := by
  have hsound := h.sound
  have hready := hsound.ready (h.valueExpected.trans hvalue)
  have hpending := hsound.pending.1
  have hstack := hsound.stack_tail
  have hops := hsound.ops_tail
  have hlength := hsound.length_tail
  rcases hstacktail : s.stack.tail with _ | ⟨t, stack⟩
  · -- no group is open
    have hclose : o.close = o := by
      rw [Outline.close, h.groups (.inl hvalue), Parser.groups, hstacktail]
      rfl
    rw [closeGroup_of_tail hstacktail, hclose]
    exact h
  · rcases hopstail : s.ops.tail with _ | ⟨op, ops⟩
    · rw [hstacktail, hopstail] at hlength
      cases hlength
    · rw [hstacktail] at hstack hlength
      rw [hopstail] at hops hlength
      obtain ⟨ht, hstack⟩ := List.forall_mem_cons.mp hstack
      obtain ⟨hop, hops⟩ := List.forall_mem_cons.mp hops
      have hclose : o.close = ⟨(!(t.join op s.pending.1).isEmpty, .and) ::
          (stack.map fun t => !t.isEmpty).zip ops, false, false⟩ := by
        rw [Outline.close, h.groups (.inl hvalue), Parser.groups, hstacktail, hopstail, ht.isEmpty_join hpending hop,
          Bool.not_and]
        rfl
      rw [hready.closeGroup hstacktail hopstail, hclose]
      exact drawn_of_isEmpty (ht.join hpending hop) hstack Operation.noConfusion hops (Nat.succ.inj hlength) rfl rfl

/-- A new term. -/
theorem Drawn.startTerm (h : Drawn o s) (hvalue : o.valueExpected = false) (token : QString) :
    Drawn ⟨(true, .and) :: o.groups.tail, !token.isEmpty, false⟩ (s.startTerm token) := by
  have hsound := h.sound
  have hpending := hsound.pending
  obtain ⟨hstack, hops, hvalue'⟩ := (hsound.ready (h.valueExpected.trans hvalue)).settle
  have hterm : s.startTerm token =
      ⟨s.pending.1 :: s.stack.tail, s.pending.2 :: s.ops.tail, .ofProperty none token .auto, false⟩ := by
    rw [Parser.startTerm, hstack, hops, hvalue']
  have hne : (Term.ofProperty none token .auto).isEmpty = false := by simp [Term.ofProperty, Term.isEmpty]
  rw [hterm, h.groups (.inl hvalue)]
  have hsound' : Sound ⟨s.pending.1 :: s.stack.tail, s.pending.2 :: s.ops.tail, .ofProperty none token .auto, false⟩ :=
    ⟨List.cons_ne_nil _ _, congrArg Nat.succ hsound.length_tail,
      List.forall_mem_cons.mpr ⟨hpending.1, hsound.stack_tail⟩,
      List.forall_mem_cons.mpr ⟨hpending.2, hsound.ops_tail⟩, rfl⟩
  exact drawn_of_nonempty hsound' rfl hne

/-- A term with a value is not empty. -/
theorem isEmpty_of_value {t : Term} (h : t.value.isEmpty = false) : t.isEmpty = false := by
  obtain ⟨operation, comp, property, value, subTerms⟩ := t
  have hvalue : value.isEmpty = false := h
  simp [Term.isEmpty, hvalue]

/-- The term in construction is changed, without being finished. -/
theorem Drawn.groups_eq (h : Drawn o s) (hsubject : o.subject = true) {t : Term} (hne : t.isEmpty = false)
    (hleaf : t.operation = .none) (valueExpected : Bool) :
    o.groups = Parser.groups { s with termInConstruction := t, valueExpected := valueExpected } := by
  have hvalue : s.termInConstruction.value.isEmpty = false := by
    rw [← Bool.not_eq_true', ← h.subject, hsubject]
  have hsound : Sound { s with termInConstruction := t, valueExpected := valueExpected } :=
    { h.sound with leaf := hleaf }
  have hbefore := h.sound.pending_of_nonempty (isEmpty_of_value hvalue)
  have hafter := hsound.pending_of_nonempty hne
  rw [h.groups (.inr hsubject), Parser.groups, Parser.groups, hbefore.1, hbefore.2, hafter.1, hafter.2]

/-- A comparison operator. -/
theorem Drawn.comparator (h : Drawn o s) (comparator : Comparator) :
    Drawn ⟨o.groups, o.subject, true⟩
      { s with termInConstruction := s.termInConstruction.setComparator comparator, valueExpected := true } := by
  obtain ⟨stack, ops, ⟨operation, comp, property, value, subTerms⟩, valueExpected⟩ := s
  refine ⟨{ h.sound with }, rfl, h.subject, fun hor => ?_⟩
  have hsubject : o.subject = true := hor.resolve_left Bool.noConfusion
  have hvalue : value.isEmpty = false := by
    rw [← Bool.not_eq_true', ← hsubject]
    exact h.subject.symm
  have hne : (Term.mk operation comparator property value subTerms).isEmpty = false := by simp [Term.isEmpty, hvalue]
  exact h.groups_eq hsubject hne h.sound.leaf true

/-- A value. -/
theorem Drawn.value (h : Drawn o s) (hsubject : o.subject = true) (token : QString) :
    Drawn ⟨o.groups, !token.isEmpty, false⟩ { s with
      termInConstruction := (s.termInConstruction.setProperty s.termInConstruction.value).setValue token
      valueExpected := false } := by
  obtain ⟨stack, ops, ⟨operation, comp, property, value, subTerms⟩, valueExpected⟩ := s
  have hvalue : value.isEmpty = false := by
    rw [← Bool.not_eq_true', ← hsubject]
    exact h.subject.symm
  have hne : (Term.mk operation comp value token subTerms).isEmpty = false := by simp [Term.isEmpty, hvalue]
  exact ⟨{ h.sound with }, rfl, rfl, fun _ => h.groups_eq hsubject hne h.sound.leaf false⟩

/-- **One token** is read by the outline as by the parser. -/
theorem Drawn.read (h : Drawn o s) (token : QString) :
    o.read token = none ∧ s.read token = none ∨
      ∃ o' s', o.read token = some o' ∧ s.read token = some s' ∧ Drawn o' s' := by
  rcases hvalue : o.valueExpected with _ | _
  · have hvalue' := h.valueExpected.trans hvalue
    refine .inr ?_
    rw [Outline.read, Parser.read, hvalue, hvalue', if_neg Bool.false_ne_true, if_neg Bool.false_ne_true]
    by_cases hand : token = some (latin1String ['A', 'N', 'D'])
    · rw [if_pos hand, if_pos hand]
      exact ⟨_, _, rfl, rfl, h.logic hvalue Operation.noConfusion⟩
    rw [if_neg hand, if_neg hand]
    by_cases hor : token = some (latin1String ['O', 'R'])
    · rw [if_pos hor, if_pos hor]
      exact ⟨_, _, rfl, rfl, h.logic hvalue Operation.noConfusion⟩
    rw [if_neg hor, if_neg hor]
    by_cases hopen : toLatin1 (token.chars.headD 0) = latin1Char '('
    · exact ⟨_, _, if_pos hopen, if_pos hopen, h.openGroup hvalue⟩
    by_cases hclose : toLatin1 (token.chars.headD 0) = latin1Char ')'
    · exact ⟨_, _, (if_neg hopen).trans (if_pos hclose), (if_neg hopen).trans (if_pos hclose), h.closeGroup hvalue⟩
    by_cases hauto : comparatorOf (toLatin1 (token.chars.headD 0)) token.chars = .auto
    · refine ⟨_, _, (if_neg hopen).trans ((if_neg hclose).trans (if_neg ?_)),
        (if_neg hopen).trans ((if_neg hclose).trans (if_neg ?_)), h.startTerm hvalue token⟩
      · exact fun hne => hne hauto
      · exact fun hne => hne hauto
    · exact ⟨_, _, (if_neg hopen).trans ((if_neg hclose).trans (if_pos hauto)),
        (if_neg hopen).trans ((if_neg hclose).trans (if_pos hauto)), h.comparator _⟩
  · have hvalue' := h.valueExpected.trans hvalue
    rw [Outline.read, Parser.read, if_pos hvalue, if_pos hvalue']
    rcases hsubject : o.subject with _ | _
    · -- the operator has no property in front of it
      have hempty : s.termInConstruction.value.isEmpty = true := by
        rw [← Bool.not_eq_false', ← h.subject, hsubject]
      exact .inl ⟨rfl, if_pos hempty⟩
    · have hempty : ¬ s.termInConstruction.value.isEmpty = true := by
        rw [← Bool.not_eq_false', ← h.subject, hsubject]
        exact Bool.noConfusion
      exact .inr ⟨_, _, rfl, if_neg hempty, h.value hsubject token⟩

/-- A list of tokens is. -/
theorem Drawn.reads (h : Drawn o s) (tokens : List QString) :
    tokens.foldlM Outline.read o = none ∧ tokens.foldlM Parser.read s = none ∨
      ∃ o' s', tokens.foldlM Outline.read o = some o' ∧ tokens.foldlM Parser.read s = some s' ∧ Drawn o' s' := by
  induction tokens generalizing o s with
  | nil => exact .inr ⟨o, s, rfl, rfl, h⟩
  | cons token tokens ih =>
    rw [List.foldlM_cons, List.foldlM_cons]
    rcases h.read token with ⟨ho, hs⟩ | ⟨o', s', ho, hs, h'⟩
    · rw [ho, hs]
      exact .inl ⟨rfl, rfl⟩
    · rw [ho, hs]
      exact ih h'

theorem drawn_initial : Drawn Outline.initial Parser.initial :=
  drawn_of_isEmpty (.inl rfl) (fun _ h => absurd h List.not_mem_nil) Operation.noConfusion
    (fun _ h => absurd h List.not_mem_nil) rfl rfl rfl

/-- The end of a text closes the groups as parentheses do if and only if the operations agree that matter. -/
theorem Drawn.joinAll_eq_iff (h : Drawn o s) (hvalue : o.valueExpected = false) (k : ℕ) :
    joinAll s.pending.1 (s.stack.tail.zip (closing k s.ops.tail)) =
        joinAll s.pending.1 (s.stack.tail.zip (closing 0 s.ops.tail)) ↔ o.closesAlike k = true := by
  have hsound := h.sound
  have hlength : (s.stack.tail.map fun t => !t.isEmpty).length = s.ops.tail.length := by
    rw [List.length_map, hsound.length_tail]
  have hops : ∀ j, ∀ op ∈ closing j s.ops.tail, op ≠ .none := fun j op hop => hsound.ops_tail op (mem_closing hop)
  have hclosing : ∀ j, (closing j s.ops.tail).length = s.stack.tail.length := by
    intro j
    rw [length_closing, hsound.length_tail]
  rw [Outline.closesAlike, h.groups (.inl hvalue), Parser.groups]
  show _ ↔ alike _ (List.map Prod.fst (List.zip _ _)) (closing k (List.map Prod.snd (List.zip _ _)))
    (closing 0 (List.map Prod.snd (List.zip _ _))) = true
  rw [List.map_fst_zip (Nat.le_of_eq hlength), List.map_snd_zip (Nat.le_of_eq hlength.symm)]
  exact Search.joinAll_eq_iff hsound.pending.1 hsound.stack_tail (hops k) (hops 0) (hclosing k) (hclosing 0)

end

end Parser

/-! ## The ends of texts -/

section

variable {text : List QChar}

theorem parse_of_read {s : Parser} (h : (lex text).foldlM Parser.read Parser.initial = some s) :
    parse text = s.finish := by
  rw [parse, h]

theorem parse_of_fail (h : (lex text).foldlM Parser.read Parser.initial = none) : parse text = .empty := by
  rw [parse, h]

/-- **Parentheses that are missing at the end** do not change the query, if and only if the operations agree that
matter: by the end of the text, all open groups are joined with the operation of the innermost one, by parentheses
each with its own. -/
theorem unclosed_groups (hquotes : Even (text.count (latin1Char '"')))
    (hvalue : ∀ o, outline text = some o → o.valueExpected = false) :
    parse (text ++ List.replicate (unclosed text) (latin1Char ')')) = parse text ↔
      ∀ o, outline text = some o → o.closesAlike (unclosed text) = true := by
  have hlex := lex_append_closing hquotes (unclosed text)
  rcases Parser.drawn_initial.reads (lex text) with ⟨ho, hs⟩ | ⟨o, s, ho, hs, h⟩
  · -- an operator without property, which parentheses behind it do not change
    have hs' : (lex (text ++ List.replicate (unclosed text) (latin1Char ')'))).foldlM Parser.read Parser.initial =
        none := by
      rw [hlex, List.foldlM_append, hs]
      rfl
    refine iff_of_true ((parse_of_fail hs').trans (parse_of_fail hs).symm) fun o ho' => ?_
    cases ho.symm.trans ho'
  · have hready := h.sound.ready (h.valueExpected.trans (hvalue o ho))
    have hlength := h.sound.length_tail.symm
    obtain ⟨s', hreads, hfinish⟩ := hready.exists_closing hlength (unclosed text)
    have hs' : (lex (text ++ List.replicate (unclosed text) (latin1Char ')'))).foldlM Parser.read Parser.initial =
        some s' := by
      rw [hlex, List.foldlM_append, hs]
      exact hreads
    have hall : (∀ o, outline text = some o → o.closesAlike (unclosed text) = true) ↔
        o.closesAlike (unclosed text) = true := by
      refine ⟨fun hall => hall o ho, fun halike o' ho' => ?_⟩
      obtain rfl : o = o' := Option.some.inj (ho.symm.trans ho')
      exact halike
    rw [hall, ← h.joinAll_eq_iff (hvalue o ho), parse_of_read hs', parse_of_read hs, hfinish, hready.finish_eq hlength]

end

/-- In `a (b (c`, all operations are `AND`. -/
theorem unclosed_groups_juxtaposed :
    parse (latin1String ['a', ' ', '(', 'b', ' ', '(', 'c'] ++ List.replicate 2 (latin1Char ')')) =
      parse (latin1String ['a', ' ', '(', 'b', ' ', '(', 'c']) := by
  have houtline : outline (latin1String ['a', ' ', '(', 'b', ' ', '(', 'c']) =
      some ⟨[(true, .and), (true, .and), (true, .and)], true, false⟩ := rfl
  refine (@unclosed_groups (latin1String ['a', ' ', '(', 'b', ' ', '(', 'c']) ⟨0, rfl⟩ fun o ho => ?_).mpr
    fun o ho => ?_
  · obtain rfl := Option.some.inj (houtline.symm.trans ho)
    rfl
  · obtain rfl := Option.some.inj (houtline.symm.trans ho)
    rfl

/-- In `a OR (b AND (c`, the outer group is joined with the `AND` of the inner one. -/
theorem unclosed_or :
    parse (latin1String ['a', ' ', 'O', 'R', ' ', '(', 'b', ' ', 'A', 'N', 'D', ' ', '(', 'c'] ++
        List.replicate 2 (latin1Char ')')) ≠
      parse (latin1String ['a', ' ', 'O', 'R', ' ', '(', 'b', ' ', 'A', 'N', 'D', ' ', '(', 'c']) := by
  have hclosed : (parse (latin1String ['a', ' ', 'O', 'R', ' ', '(', 'b', ' ', 'A', 'N', 'D', ' ', '(', 'c'] ++
      List.replicate 2 (latin1Char ')'))).operation = .or := rfl
  have hopen : (parse (latin1String ['a', ' ', 'O', 'R', ' ', '(', 'b', ' ', 'A', 'N', 'D', ' ', '(', 'c'])).operation =
      .and := rfl
  intro heq
  rw [heq, hopen] at hclosed
  cases hclosed

end Baloo.Search
