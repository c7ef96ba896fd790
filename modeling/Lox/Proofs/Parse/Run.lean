import Lox.Parse.Step
import Lox.Proofs.Grammar.Unique

/-!
# Lox — runs of the parser

A run is a fold of single steps, so it splits where the tokens are split. The equations here say
what a step does in the middle of an expression, and what every step does to the errors: it
only adds to them.

* **`ParseState.run_append`** — the second part of a run starts where the first one ends.
* **`ParseState.errors_suffix_step`**, **`ParseState.errors_suffix_run`** — errors stay.
-/

namespace Lox

/-! ## The stack -/

namespace Pending

/-- `=` reduces whatever operators between operands reduce. -/
theorem reduce_zero (stk : List Pending) (e : Expr) : reduce 0 stk e = reduce 1 stk e := by
  fun_induction reduce 0 stk e with
  | case1 op sign rest e ih => exact ih
  | case2 left op sign rest e h ih => rw [ih, reduce, if_pos op.precedence_le.1]
  | case3 left op sign rest e h => exact absurd (Nat.zero_le _) h
  | _ => rfl

/-- Operands that are complete on the left of an operator are complete before what closes. -/
theorem complete_reduce (q : Nat) (stk : List Pending) (e : Expr) :
    complete (reduce q stk e).1 (reduce q stk e).2 = complete stk e := by
  fun_induction reduce q stk e with
  | case1 op sign rest e ih => rw [ih]; rfl
  | case2 left op sign rest e h ih => rw [ih]; rfl
  | _ => rfl

/-- An assignment is complete when its value is. -/
theorem complete_assign (target value : Expr) (sign : Lexeme) (stk : List Pending) :
    complete (.assign target sign :: stk) value
      = (Derivation.targetErrors target sign
          ++ (complete stk (Derivation.assignTree target value)).1,
        (complete stk (Derivation.assignTree target value)).2) := by
  cases target <;> rfl

/-- After an expression, only an open parenthesis can be left to be closed. -/
theorem complete_stack (stk : List Pending) (e : Expr) :
    (complete stk e).2.1 = [] ∨ ∃ rest, (complete stk e).2.1 = .group :: rest := by
  fun_induction complete stk e with
  | case1 op sign rest e ih => exact ih
  | case2 left op sign rest e ih => exact ih
  | case3 name sign rest e ih => exact ih
  | case4 target sign rest e _ errors stk' whole h ih =>
    rw [h] at ih
    exact ih
  | case5 rest e => exact .inr ⟨rest, rfl⟩
  | case6 e => exact .inl rfl

end Pending

namespace ParseState

/-! ## Runs -/

theorem run_nil (st : ParseState) : st.run [] = st := rfl

theorem run_cons (st : ParseState) (t : Token) (ts : List Token) :
    st.run (t :: ts) = (st.step t).run ts := rfl

theorem run_append (st : ParseState) (ts us : List Token) :
    st.run (ts ++ us) = (st.run ts).run us :=
  List.foldl_append

variable (goal : Goal) (pending : List Pending) (e : Expr) (ss : List Stmt)
  (enc : List (List Stmt)) (errs : List SyntaxError)

theorem step_operand_unary (op : UnaryOp) (sign : Lexeme) :
    step ⟨.operand goal pending, ss, enc, errs⟩ ⟨sign, op.kind⟩
      = ⟨.operand goal (.unary op sign :: pending), ss, enc, errs⟩ := by
  cases op <;> rfl

theorem step_operand_literal (l : Literal) (text : Lexeme) :
    step ⟨.operand goal pending, ss, enc, errs⟩ ⟨text, l.kind⟩
      = ⟨.operator goal pending (.literal l), ss, enc, errs⟩ := by
  cases l with
  | bool b => cases b <;> rfl
  | _ => rfl

theorem step_operator_binary (op : BinaryOp) (sign : Lexeme) :
    step ⟨.operator goal pending e, ss, enc, errs⟩ ⟨sign, op.kind⟩
      = ⟨.operand goal (.binary (Pending.reduce op.precedence pending e).2 op sign
          :: (Pending.reduce op.precedence pending e).1), ss, enc, errs⟩ := by
  simp only [step, operator, op.ofKind?_kind]

theorem step_operator_equal (sign : Lexeme) :
    step ⟨.operator goal pending e, ss, enc, errs⟩ ⟨sign, .equal⟩
      = ⟨.operand goal (.assign (Pending.reduce 0 pending e).2 sign
          :: (Pending.reduce 0 pending e).1), ss, enc, errs⟩ :=
  rfl

/-- A token that no operator is written with ends the expression. -/
theorem step_operator_other {t : Token} (hop : BinaryOp.ofKind? t.kind = none)
    (hk : t.kind ≠ .equal) :
    step ⟨.operator goal pending e, ss, enc, errs⟩ t
      = conclude ⟨.operator goal pending e, ss, enc,
          (Pending.complete pending e).1.reverse ++ errs⟩ goal (Pending.complete pending e).2.1
          (Pending.complete pending e).2.2 t := by
  simp only [step, operator, hop, if_neg hk]

/-- In front of a statement, a token that begins an expression is read as its first operand. -/
theorem step_start_expression {t : Token} (h : t.kind.beginsExpression = true) :
    step ⟨.start, ss, enc, errs⟩ t = step ⟨.operand .expression [], ss, enc, errs⟩ t := by
  obtain ⟨x, k⟩ := t
  cases k <;> first | rfl | cases h

/-! ## Errors -/

variable (st : ParseState) (t : Token)

@[simp] theorem errors_recover : (st.recover t).errors = st.errors := by
  unfold recover closeOr
  split
  · split <;> rfl
  · rfl

@[simp] theorem errors_fail (cause : SyntaxError.Cause) :
    (st.fail cause t).errors = ⟨cause, t.toLexeme⟩ :: st.errors := by
  simp [fail, report]

theorem errors_suffix_fail (cause : SyntaxError.Cause) :
    st.errors <:+ (st.fail cause t).errors := by
  rw [errors_fail]
  exact List.suffix_cons _ _

theorem errors_suffix_closeOr {other : ParseState} (h : st.errors <:+ other.errors) :
    st.errors <:+ (st.closeOr other).errors := by
  unfold closeOr
  split
  · exact List.suffix_rfl
  · exact h

theorem errors_suffix_operand : st.errors <:+ (st.operand goal pending t).errors := by
  unfold operand
  split
  · exact List.suffix_rfl
  · exact List.suffix_rfl
  · split
    · exact List.suffix_rfl
    · exact List.suffix_rfl
    · exact errors_suffix_fail st t _

theorem errors_suffix_conclude : st.errors <:+ (st.conclude goal pending e t).errors := by
  unfold conclude
  split
  · split
    · exact List.suffix_rfl
    · exact errors_suffix_fail st t _
  · split
    · exact List.suffix_rfl
    · exact errors_suffix_fail st t _

theorem errors_suffix_operator : st.errors <:+ (st.operator goal pending e t).errors := by
  unfold operator
  split
  · exact List.suffix_rfl
  · split
    · exact List.suffix_rfl
    · -- completing the expression reports its misplaced `=` before the token is looked at
      exact .trans (List.suffix_append (Pending.complete pending e).1.reverse st.errors)
        (errors_suffix_conclude goal _ _ { st with errors := _ } t)

theorem errors_suffix_begin : st.errors <:+ (st.begin t).errors := by
  unfold begin
  split
  · exact List.suffix_rfl
  · exact List.suffix_rfl
  · exact List.suffix_rfl
  · exact errors_suffix_closeOr st (errors_suffix_fail st t _)
  · exact errors_suffix_operand _ _ st t

theorem errors_suffix_initializer (name : Lexeme) :
    st.errors <:+ (st.initializer name t).errors := by
  unfold initializer
  split
  · exact List.suffix_rfl
  · exact List.suffix_rfl
  · exact errors_suffix_fail st t _

/-- A step only adds errors. -/
theorem errors_suffix_step : st.errors <:+ (st.step t).errors := by
  unfold step
  split
  · exact errors_suffix_begin st t
  · unfold name
    split
    · exact List.suffix_rfl
    · exact errors_suffix_fail st t _
  · exact errors_suffix_initializer st t _
  · exact errors_suffix_operand _ _ st t
  · exact errors_suffix_operator _ _ _ st t
  · -- skipping either begins the next statement or reads on
    unfold skip
    split
    · exact errors_suffix_begin st t
    · exact ⟨[], (errors_recover st t).symm⟩

/-- A run only adds errors. -/
theorem errors_suffix_run (ts : List Token) : st.errors <:+ (st.run ts).errors := by
  induction ts generalizing st with
  | nil => exact List.suffix_rfl
  | cons t ts ih => exact (errors_suffix_step st t).trans (ih (st.step t))

end ParseState

/-! ## Stopping inside a statement -/

/-- What is missing after a complete expression: the parenthesis that closes it, or else the
semicolon. -/
def Goal.missing (goal : Goal) : List Pending → SyntaxError.Cause
  | .group :: _ => .expectedRightParen
  | _ => .expectedSemicolon goal.ending

/-- What is wrong if the statement stops here: the misplaced `=` of the expression that was read
so far, and what should have followed. -/
def Mode.unfinished : Mode → List SyntaxError × Option SyntaxError.Cause
  | .start | .skipping => ([], none)
  | .name => ([], some .expectedVariableName)
  | .initializer _ => ([], some (.expectedSemicolon .variableDeclaration))
  | .operand _ _ => ([], some .expectedExpression)
  | .operator goal stk e =>
    ((Pending.complete stk e).1, some (goal.missing (Pending.complete stk e).2.1))

/-- The errors if the statement stops at the lexeme `blamed`. -/
def Mode.stopErrors (m : Mode) (blamed : Lexeme) : List SyntaxError :=
  m.unfinished.1 ++ m.unfinished.2.toList.map (⟨·, blamed⟩)

namespace ParseState

theorem conclude_eq_fail (st : ParseState) (goal : Goal) (stk : List Pending) (e : Expr)
    {t : Token} (hparen : t.kind ≠ .rightParen) (hsemi : t.kind ≠ .semicolon) :
    st.conclude goal stk e t = st.fail (goal.missing stk) t := by
  cases stk with
  | nil => simp [conclude, Goal.missing, hsemi]
  | cons item rest => cases item <;> simp [conclude, Goal.missing, hparen, hsemi]

/-- At the end token the statement stops. -/
theorem errors_interrupt (st : ParseState) {eof : Token} (h : eof.kind = .eof) :
    (st.interrupt eof).errors = (st.mode.stopErrors eof.toLexeme).reverse ++ st.errors := by
  obtain ⟨mode, ss, enc, errs⟩ := st
  obtain ⟨x, k⟩ := eof
  obtain rfl : k = .eof := h
  cases mode with
  | operator goal stk e =>
    -- here alone the errors of an unfinished assignment come before the one at the end
    simp only [interrupt]
    rw [step_operator_other goal stk e ss enc errs (t := ⟨x, .eof⟩) rfl nofun,
      conclude_eq_fail _ _ _ _ (t := ⟨x, .eof⟩) nofun nofun]
    simp [Mode.stopErrors, Mode.unfinished]
  | _ => rfl

/-- A closing brace stops the statement and ends the block. -/
theorem step_rightBrace (mode : Mode) (ss before : List Stmt) (outer : List (List Stmt))
    (errs : List SyntaxError) (x : Lexeme) :
    step ⟨mode, ss, before :: outer, errs⟩ ⟨x, .rightBrace⟩
      = ⟨.start, .block ss.reverse :: before, outer, (mode.stopErrors x).reverse ++ errs⟩ := by
  cases mode with
  | operator goal stk e =>
    rw [step_operator_other goal stk e _ _ _ (t := ⟨x, .rightBrace⟩) rfl nofun,
      conclude_eq_fail _ _ _ _ (t := ⟨x, .rightBrace⟩) nofun nofun]
    simp [fail, report, recover, closeOr, Mode.stopErrors, Mode.unfinished]
  | _ => rfl

end ParseState

/-! ## Sentences -/

/-- The tokens that count: those before the first end token. -/
def sentence (tokens : List Token) : List Token := tokens.takeWhile (!·.isEof)

theorem isEof_eq_false_of_mem_sentence {tokens : List Token} :
    ∀ t ∈ sentence tokens, t.isEof = false := by
  intro t ht
  have hall : (sentence tokens).all (!·.isEof) = true := List.all_takeWhile
  simpa using List.all_eq_true.1 hall t ht

theorem kind_endToken (tokens : List Token) : (endToken tokens).kind = .eof := by
  unfold endToken
  split
  · next eof h => simpa [Token.isEof] using List.find?_some h
  · rfl

end Lox
