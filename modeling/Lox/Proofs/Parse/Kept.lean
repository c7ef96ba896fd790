import Lox.Proofs.Grammar.Strict
import Lox.Proofs.Parse.Run

/-!
# Lox — the tokens that trees keep

The names and operators in what the parser returns are tokens that it read, in the order in which it
read them. What is wrong with the token sequence makes no difference: an error costs tokens, but it
neither adds any nor moves them.

* **`ParseState.kept`** — the names and operators that a state of the parser has in its memory.
* **`ParseState.kept_step`**, **`ParseState.kept_run`** — reading adds the tokens read at most.
* **`keptOfAll_parse_sublist`** — the names and operators of parsed statements.
-/

namespace Lox

/-! ## Trees -/

/-- The names and operators among tokens. -/
def keptOf (ts : List Token) : List Token := ts.filter (·.kind.isKept)

@[simp] theorem keptOf_append (ts us : List Token) : keptOf (ts ++ us) = keptOf ts ++ keptOf us :=
  List.filter_append _ _

/-- The names and operators of an expression, in source order. -/
def Expr.kept (e : Expr) : List Token := keptOf e.tokens

/-- The names and operators of a statement, in source order. -/
def Stmt.kept (s : Stmt) : List Token := keptOf s.tokens

/-- The names and operators of statements, in source order. -/
def Stmt.keptOfAll (ss : List Stmt) : List Token := keptOf (Stmt.tokensOfAll ss)

theorem UnaryOp.isKept_kind (op : UnaryOp) : op.kind.isKept = true := by
  cases op <;> rfl

theorem BinaryOp.isKept_kind (op : BinaryOp) : op.kind.isKept = true := by
  cases op <;> rfl

theorem Literal.isKept_kind (l : Literal) : l.kind.isKept = false := by
  unfold Literal.kind
  split <;> rfl

namespace Expr

variable (name sign : Lexeme) (e l r : Expr)

@[simp] theorem kept_literal (value : Literal) : (literal value).kept = [] := by
  simp [kept, keptOf, tokens, Literal.token, Token.supplied, value.isKept_kind]

@[simp] theorem kept_var : (var name).kept = [⟨name, .identifier⟩] := rfl

@[simp] theorem kept_assign : (assign name e).kept = ⟨name, .identifier⟩ :: e.kept := rfl

@[simp] theorem kept_group : (group e).kept = e.kept := by
  simp [kept, keptOf, tokens, Token.supplied, Token.Kind.isKept, UnaryOp.ofKind?, BinaryOp.ofKind?]

@[simp] theorem kept_unary (op : UnaryOp) : (unary op sign e).kept = ⟨sign, op.kind⟩ :: e.kept := by
  simp [kept, keptOf, tokens, op.isKept_kind]

@[simp] theorem kept_binary (op : BinaryOp) :
    (binary op sign l r).kept = l.kept ++ ⟨sign, op.kind⟩ :: r.kept := by
  simp [kept, keptOf, tokens, op.isKept_kind]

end Expr

namespace Stmt

variable (name : Lexeme) (e : Expr) (s : Stmt) (ss ts : List Stmt)

theorem keptOf_semicolon : keptOf [Token.semicolon] = [] := rfl

@[simp] theorem kept_expression : (expression e).kept = e.kept := by
  rw [kept, tokens, keptOf_append, keptOf_semicolon, List.append_nil]
  rfl

@[simp] theorem kept_print : (print e).kept = e.kept := kept_expression e

@[simp] theorem kept_declaration_none : (declaration name none).kept = [⟨name, .identifier⟩] := rfl

@[simp] theorem kept_declaration_some :
    (declaration name (some e)).kept = ⟨name, .identifier⟩ :: e.kept := by
  rw [← kept_expression e]
  rfl

@[simp] theorem keptOfAll_nil : keptOfAll [] = [] := rfl

@[simp] theorem keptOfAll_cons : keptOfAll (s :: ss) = s.kept ++ keptOfAll ss := by
  rw [keptOfAll, tokensOfAll, keptOf_append]
  rfl

@[simp] theorem keptOfAll_append : keptOfAll (ss ++ ts) = keptOfAll ss ++ keptOfAll ts := by
  induction ss with
  | nil => rfl
  | cons s ss ih => rw [List.cons_append, keptOfAll_cons, ih, keptOfAll_cons, List.append_assoc]

@[simp] theorem kept_block : (block ss).kept = keptOfAll ss := by
  simp [kept, keptOfAll, keptOf, tokens, Token.supplied, Token.Kind.isKept, UnaryOp.ofKind?,
    BinaryOp.ofKind?]

end Stmt

/-! ## The memory of the parser -/

/-- The names and operators of a part of an expression that waits for what follows it. -/
@[simp] def Pending.kept : Pending → List Token
  | .unary op sign => [⟨sign, op.kind⟩]
  | .binary left op sign => left.kept ++ [⟨sign, op.kind⟩]
  | .assign target _ => target.kept
  | .group => []

namespace Pending

/-- The names and operators on the stack, in the order in which they were read. -/
def keptOfAll (stk : List Pending) : List Token := stk.reverse.flatMap kept

@[simp] theorem keptOfAll_nil : keptOfAll [] = [] := rfl

@[simp] theorem keptOfAll_cons (item : Pending) (stk : List Pending) :
    keptOfAll (item :: stk) = keptOfAll stk ++ item.kept := by
  simp [keptOfAll]

/-- Applying operators changes nothing about what is kept. -/
theorem kept_reduce (q : Nat) (stk : List Pending) (e : Expr) :
    keptOfAll (reduce q stk e).1 ++ (reduce q stk e).2.kept = keptOfAll stk ++ e.kept := by
  fun_induction reduce q stk e with
  | case1 op sign rest e ih => rw [ih]; simp
  | case2 left op sign rest e h ih => rw [ih]; simp
  | case3 | case4 | case5 | case6 => rfl

/-- An expression that is complete has lost the values of misplaced assignments. -/
theorem kept_complete (stk : List Pending) (e : Expr) :
    (keptOfAll (complete stk e).2.1 ++ (complete stk e).2.2.kept).Sublist
      (keptOfAll stk ++ e.kept) := by
  fun_induction complete stk e with
  | case1 op sign rest e ih => simpa using ih
  | case2 left op sign rest e ih => simpa using ih
  | case3 name sign rest e ih => simpa using ih
  | case4 target sign rest e _ errors stk' whole h ih =>
    rw [h] at ih
    rw [keptOfAll_cons]
    exact ih.trans (List.sublist_append_left _ _)
  | case5 rest e => exact List.Sublist.refl _
  | case6 e => exact List.Sublist.refl _

end Pending

/-- The name that a declaration has in front of its expression. -/
def Goal.kept : Goal → List Token
  | .print | .expression => []
  | .declaration name => [⟨name, .identifier⟩]

/-- The names and operators of the statement that is being read. -/
def Mode.kept : Mode → List Token
  | .start | .name | .skipping => []
  | .initializer x => [⟨x, .identifier⟩]
  | .operand goal stk => goal.kept ++ Pending.keptOfAll stk
  | .operator goal stk e => goal.kept ++ (Pending.keptOfAll stk ++ e.kept)

theorem Goal.kept_statement (goal : Goal) (e : Expr) :
    (goal.statement e).kept = goal.kept ++ e.kept := by
  cases goal <;> simp [statement, kept]

namespace ParseState

/-- The names and operators of the statements that are finished, in the order in which they were
read. -/
def finished (st : ParseState) : List Token :=
  (st.enclosing.reverse.flatMap fun ss => Stmt.keptOfAll ss.reverse)
    ++ Stmt.keptOfAll st.statements.reverse

/-- The names and operators that a state has in its memory. -/
def kept (st : ParseState) : List Token := st.finished ++ st.mode.kept

variable (st : ParseState) (t : Token)

theorem finished_sublist_kept : st.finished.Sublist st.kept := List.sublist_append_left _ _

/-! ## Reading a token -/

theorem kept_closeOr {other : ParseState} (h : other.kept = st.finished) :
    (st.closeOr other).kept = st.finished := by
  obtain ⟨m, ss, enc, errs⟩ := st
  cases enc with
  | nil => exact h
  | cons before outer => simp [closeOr, kept, finished, Mode.kept]

theorem kept_discard : (st.discard t).kept = st.finished := by
  unfold discard
  split
  · exact List.append_nil _
  · exact List.append_nil _

/-- In the search after an error nothing is left of the statement that it was in. -/
theorem kept_recover : (st.recover t).kept = st.finished := by
  unfold recover
  split
  · exact kept_closeOr st (kept_discard st t)
  · exact kept_discard st t

theorem kept_fail (cause : SyntaxError.Cause) : (st.fail cause t).kept = st.finished :=
  kept_recover (st.report cause t.toLexeme) t

theorem kept_add (s : Stmt) : (st.add s).kept = st.finished ++ s.kept := by
  simp [add, kept, finished, Mode.kept]

theorem fail_sublist (cause : SyntaxError.Cause) (ts : List Token) :
    (st.fail cause t).kept.Sublist (st.finished ++ ts) := by
  rw [kept_fail]
  exact List.sublist_append_left _ _

theorem operand_sublist (goal : Goal) (stk : List Pending) :
    (st.operand goal stk t).kept.Sublist
      (st.finished ++ (goal.kept ++ Pending.keptOfAll stk) ++ [t]) := by
  obtain ⟨x, k⟩ := t
  unfold operand
  split
  · next op _ hop =>
    obtain rfl := UnaryOp.ofKind?_eq_some_iff.1 hop
    simp [kept, finished, Mode.kept]
  · simp [kept, finished, Mode.kept]
  · split
    · next hk =>
      obtain rfl : k = .identifier := hk
      simp [kept, finished, Mode.kept]
    · simp [kept, finished, Mode.kept]
    · rw [List.append_assoc]
      exact fail_sublist st _ _ _

theorem conclude_sublist (goal : Goal) (stk : List Pending) (e : Expr) :
    (st.conclude goal stk e t).kept.Sublist
      (st.finished ++ (goal.kept ++ (Pending.keptOfAll stk ++ e.kept))) := by
  unfold conclude
  split
  · split
    · simp [kept, finished, Mode.kept]
    · exact fail_sublist st t _ _
  · split
    · -- the stack is empty once the expression is complete, but nothing here depends on that
      rw [kept_add, Goal.kept_statement]
      simp
    · exact fail_sublist st t _ _

theorem operator_sublist (goal : Goal) (stk : List Pending) (e : Expr) :
    (st.operator goal stk e t).kept.Sublist
      (st.finished ++ (goal.kept ++ (Pending.keptOfAll stk ++ e.kept)) ++ [t]) := by
  obtain ⟨x, k⟩ := t
  unfold operator
  split
  · next op hop =>
    obtain rfl := BinaryOp.ofKind?_eq_some_iff.1 hop
    rw [← Pending.kept_reduce op.precedence]
    simp [kept, finished, Mode.kept]
  · split
    · rw [← Pending.kept_reduce 0]
      simp [kept, finished, Mode.kept]
    · refine (conclude_sublist _ _ _ _ _).trans (.trans ?_ (List.sublist_append_left _ _))
      exact ((Pending.kept_complete stk e).append_left goal.kept).append_left _

theorem begin_sublist : (st.begin t).kept.Sublist (st.finished ++ [t]) := by
  unfold begin
  split
  · simp [kept, finished, Mode.kept]
  · simp [kept, finished, Mode.kept, Goal.kept]
  · simp [kept, finished, Mode.kept]
  · rw [kept_closeOr st (kept_fail st t _)]
    exact List.sublist_append_left _ _
  · simpa [Goal.kept] using operand_sublist st t .expression []

theorem name_sublist : (st.name t).kept.Sublist (st.finished ++ [t]) := by
  obtain ⟨x, k⟩ := t
  unfold name
  split
  · next hk =>
    obtain rfl : k = .identifier := hk
    simp [kept, finished, Mode.kept]
  · exact fail_sublist st _ _ _

theorem initializer_sublist (x : Lexeme) :
    (st.initializer x t).kept.Sublist (st.finished ++ [⟨x, .identifier⟩]) := by
  unfold initializer
  split
  · simp [kept, finished, Mode.kept, Goal.kept]
  · rw [kept_add]
    exact List.Sublist.refl _
  · exact fail_sublist st t _ _

/-- A step adds the token that it reads, at most. -/
theorem kept_step : (st.step t).kept.Sublist (st.kept ++ [t]) := by
  obtain ⟨mode, ss, enc, errs⟩ := st
  have hfinished : ∀ {ts : List Token}, (mk mode ss enc errs).finished.Sublist
      ((mk mode ss enc errs).kept ++ ts) :=
    (finished_sublist_kept _).trans (List.sublist_append_left _ _)
  cases mode with
  | start => exact (begin_sublist _ t).trans ((finished_sublist_kept _).append_right _)
  | name => exact (name_sublist _ t).trans ((finished_sublist_kept _).append_right _)
  | initializer x => exact (initializer_sublist _ t x).trans (List.sublist_append_left _ _)
  | operand goal stk => exact operand_sublist _ t goal stk
  | operator goal stk e => exact operator_sublist _ t goal stk e
  | skipping =>
    show (skip _ t).kept.Sublist _
    unfold skip
    split
    · exact (begin_sublist _ t).trans ((finished_sublist_kept _).append_right _)
    · rw [kept_recover]
      exact hfinished

/-- A run adds the tokens that it reads, at most. -/
theorem kept_run (ts : List Token) : (st.run ts).kept.Sublist (st.kept ++ ts) := by
  induction ts generalizing st with
  | nil => exact List.sublist_append_left st.kept []
  | cons t ts ih =>
    rw [run_cons, ← List.singleton_append, ← List.append_assoc]
    exact (ih (st.step t)).trans ((kept_step st t).append_right ts)

/-- The statements before the outermost open block are finished. -/
theorem kept_outermost_sublist : (Stmt.keptOfAll st.outermost.reverse).Sublist st.finished := by
  obtain ⟨m, ss, enc, errs⟩ := st
  rw [outermost, finished]
  rcases List.eq_nil_or_concat enc with rfl | ⟨inner, outer, rfl⟩
  · simp
  · simp

end ParseState

/-! ## Parsed statements -/

/-- **The names and operators of parsed statements are tokens that count**, in the order in which
they stand in the token sequence. -/
theorem keptOfAll_parse_sublist (ts : List Token) :
    (Stmt.keptOfAll (parse ts).statements).Sublist (sentence ts) := by
  let last := ParseState.initial.run (sentence ts)
  have hlast : last.kept.Sublist (sentence ts) := ParseState.kept_run .initial (sentence ts)
  exact (last.kept_outermost_sublist.trans last.finished_sublist_kept).trans hlast

end Lox
