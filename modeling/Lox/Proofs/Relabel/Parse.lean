import Lox.Proofs.Parse.Run
import Lox.Proofs.Relabel.Tree

/-!
# Lox — the parser does not look at lexemes

What the parser does depends on the kinds of the tokens alone. So other lexemes in the tokens give
the same statements and errors with those other lexemes in them.

* **`ParseState.step_relabel`** — one step.
* **`parse_relabel`** — a whole token sequence.
-/

namespace Lox

variable (f : Lexeme → Lexeme)

/-- The statements and errors with other lexemes. -/
def Parsed.relabel (p : Parsed) : Parsed :=
  ⟨p.statements.map (Stmt.relabel f), p.errors.map (SyntaxError.relabel f)⟩

/-! ## Expressions -/

theorem Goal.statement_relabel (goal : Goal) (e : Expr) :
    (goal.relabel f).statement (e.relabel f) = (goal.statement e).relabel f := by
  cases goal <;> rfl

theorem Goal.ending_relabel (goal : Goal) : (goal.relabel f).ending = goal.ending := by
  cases goal <;> rfl

theorem Pending.reduce_relabel (q : Nat) (stk : List Pending) (e : Expr) :
    reduce q (stk.map (relabel f)) (e.relabel f)
      = ((reduce q stk e).1.map (relabel f), (reduce q stk e).2.relabel f) := by
  fun_induction reduce q stk e with
  | case1 op sign rest e ih => exact ih
  | case2 left op sign rest e h ih =>
    rw [List.map_cons, relabel, reduce, if_pos h]
    exact ih
  | case3 left op sign rest e h => rw [List.map_cons, relabel, reduce, if_neg h]
  | case4 | case5 | case6 => rfl

theorem Pending.complete_relabel (stk : List Pending) (e : Expr) :
    complete (stk.map (relabel f)) (e.relabel f)
      = ((complete stk e).1.map (SyntaxError.relabel f), (complete stk e).2.1.map (relabel f),
        (complete stk e).2.2.relabel f) := by
  fun_induction complete stk e with
  | case1 op sign rest e ih => exact ih
  | case2 left op sign rest e ih => exact ih
  | case3 name sign rest e ih => exact ih
  | case4 target sign rest e hvar errors stk' whole h ih =>
    rw [h] at ih
    -- a relabelled target is a variable if and only if the target is one
    cases target with
    | var name => exact absurd rfl (hvar name)
    | _ =>
      simp only [Expr.relabel] at ih
      simp only [List.map_cons, relabel, Expr.relabel, complete, ih]
      rfl
  | case5 rest e => rfl
  | case6 e => rfl

/-! ## One step -/

namespace ParseState

variable (st : ParseState) (t : Token)

theorem closeOr_relabel (other : ParseState) :
    (st.relabel f).closeOr (other.relabel f) = (st.closeOr other).relabel f := by
  obtain ⟨m, ss, enc, errs⟩ := st
  cases enc with
  | nil => rfl
  | cons before outer =>
    simp [closeOr, relabel, Stmt.relabel, Stmt.relabelAll_eq_map, Mode.relabel]

theorem discard_relabel : (st.relabel f).discard (t.relabel f) = (st.discard t).relabel f := by
  have hkind : (t.relabel f).kind = t.kind := rfl
  unfold discard
  rw [hkind]
  by_cases hk : t.kind = .semicolon
  · rw [if_pos hk]
    rfl
  · rw [if_neg hk]
    rfl

theorem recover_relabel : (st.relabel f).recover (t.relabel f) = (st.recover t).relabel f := by
  have hkind : (t.relabel f).kind = t.kind := rfl
  unfold recover
  rw [hkind, discard_relabel]
  split
  · exact closeOr_relabel f st (st.discard t)
  · rfl

theorem fail_relabel (cause : SyntaxError.Cause) :
    (st.relabel f).fail cause (t.relabel f) = (st.fail cause t).relabel f :=
  recover_relabel f (st.report cause t.toLexeme) t

theorem operand_relabel (goal : Goal) (stk : List Pending) :
    (st.relabel f).operand (goal.relabel f) (stk.map (Pending.relabel f)) (t.relabel f)
      = (st.operand goal stk t).relabel f := by
  have hkind : (t.relabel f).kind = t.kind := rfl
  unfold operand
  rw [hkind]
  split
  · rfl
  · rfl
  · split
    · rfl
    · rfl
    · exact fail_relabel f st t _

theorem conclude_relabel (goal : Goal) (stk : List Pending) (e : Expr) :
    (st.relabel f).conclude (goal.relabel f) (stk.map (Pending.relabel f)) (e.relabel f)
        (t.relabel f)
      = (st.conclude goal stk e t).relabel f := by
  have hkind : (t.relabel f).kind = t.kind := rfl
  -- without an open parenthesis on top, only a semicolon is right
  have hother : (if t.kind = .semicolon then
        (st.relabel f).add ((goal.relabel f).statement (e.relabel f))
      else (st.relabel f).fail (.expectedSemicolon (goal.relabel f).ending) (t.relabel f))
        = (if t.kind = .semicolon then st.add (goal.statement e)
            else st.fail (.expectedSemicolon goal.ending) t).relabel f := by
    rw [Goal.statement_relabel, Goal.ending_relabel]
    split
    · rfl
    · exact fail_relabel f st t _
  cases stk with
  | nil => exact hother
  | cons item rest =>
    cases item with
    | group =>
      simp only [List.map_cons, Pending.relabel, conclude, hkind]
      split
      · rfl
      · exact fail_relabel f st t _
    | _ => exact hother

theorem operator_relabel (goal : Goal) (stk : List Pending) (e : Expr) :
    (st.relabel f).operator (goal.relabel f) (stk.map (Pending.relabel f)) (e.relabel f)
        (t.relabel f)
      = (st.operator goal stk e t).relabel f := by
  have hkind : (t.relabel f).kind = t.kind := rfl
  unfold operator
  rw [hkind]
  cases BinaryOp.ofKind? t.kind with
  | some op =>
    simp only [Pending.reduce_relabel]
    rfl
  | none =>
    by_cases hk : t.kind = .equal
    · simp only [if_pos hk, Pending.reduce_relabel]
      rfl
    · -- the errors of the expression are recorded before the token is looked at
      have hconclude := conclude_relabel f
        { st with errors := (Pending.complete stk e).1.reverse ++ st.errors } t goal
        (Pending.complete stk e).2.1 (Pending.complete stk e).2.2
      simp only [relabel, List.map_append, List.map_reverse] at hconclude
      simp only [if_neg hk, Pending.complete_relabel]
      exact hconclude

theorem begin_relabel : (st.relabel f).begin (t.relabel f) = (st.begin t).relabel f := by
  have hkind : (t.relabel f).kind = t.kind := rfl
  unfold begin
  rw [hkind]
  split
  · rfl
  · rfl
  · rfl
  · rw [fail_relabel]
    exact closeOr_relabel f st _
  · exact operand_relabel f st t .expression []

theorem initializer_relabel (x : Lexeme) :
    (st.relabel f).initializer (f x) (t.relabel f) = (st.initializer x t).relabel f := by
  have hkind : (t.relabel f).kind = t.kind := rfl
  unfold initializer
  rw [hkind]
  split
  · rfl
  · rfl
  · exact fail_relabel f st t _

/-- A step does not look at lexemes. -/
theorem step_relabel : (st.relabel f).step (t.relabel f) = (st.step t).relabel f := by
  have hkind : (t.relabel f).kind = t.kind := rfl
  have hmode : (st.relabel f).mode = st.mode.relabel f := rfl
  unfold step
  rw [hmode]
  cases st.mode with
  | start => exact begin_relabel f st t
  | name =>
    show (st.relabel f).name (t.relabel f) = (st.name t).relabel f
    unfold name
    rw [hkind]
    split
    · rfl
    · exact fail_relabel f st t _
  | initializer x => exact initializer_relabel f st t x
  | operand goal stk => exact operand_relabel f st t goal stk
  | operator goal stk e => exact operator_relabel f st t goal stk e
  | skipping =>
    show (st.relabel f).skip (t.relabel f) = (st.skip t).relabel f
    unfold skip
    rw [hkind]
    split
    · exact begin_relabel f st t
    · exact recover_relabel f st t

/-- A run does not look at lexemes. -/
theorem run_relabel (tokens : List Token) :
    (st.relabel f).run (tokens.map (Token.relabel f)) = (st.run tokens).relabel f := by
  induction tokens generalizing st with
  | nil => rfl
  | cons t ts ih =>
    show ((st.relabel f).step (t.relabel f)).run (ts.map (Token.relabel f)) = _
    rw [step_relabel, ih]
    rfl

theorem outermost_relabel : (st.relabel f).outermost = st.outermost.map (Stmt.relabel f) := by
  simp only [outermost, relabel, List.getLast?_map]
  cases st.enclosing.getLast? <;> rfl

theorem finish_relabel (eof : Token) :
    (st.relabel f).finish (eof.relabel f) = (st.finish eof).relabel f := by
  have hinterrupt : (st.relabel f).interrupt (eof.relabel f) = (st.interrupt eof).relabel f := by
    -- between statements, and in the search for the next one, the end token is no error
    have hstep := step_relabel f st eof
    obtain ⟨m, ss, enc, errs⟩ := st
    cases m <;> first | rfl | exact hstep
  have hlength : (st.relabel f).enclosing.length = st.enclosing.length := List.length_map _
  rw [finish, finish, hinterrupt, outermost_relabel, hlength, Parsed.relabel]
  simp [relabel, SyntaxError.relabel, Token.relabel]

end ParseState

/-! ## Token sequences -/

theorem run_sentence_relabel (tokens : List Token) :
    ParseState.initial.run (sentence (tokens.map (Token.relabel f)))
      = (ParseState.initial.run (sentence tokens)).relabel f := by
  have htake : sentence (tokens.map (Token.relabel f)) = (sentence tokens).map (Token.relabel f) :=
    List.takeWhile_map
  rw [htake]
  exact ParseState.run_relabel f .initial _

/-- The end token, which may be supplied, makes no difference to the statements. -/
theorem statements_parse_relabel (tokens : List Token) :
    (parse (tokens.map (Token.relabel f))).statements
      = Stmt.relabelAll f (parse tokens).statements :=
  calc (parse (tokens.map (Token.relabel f))).statements
    _ = (ParseState.initial.run (sentence (tokens.map (Token.relabel f)))).outermost.reverse := rfl
    _ = (parse tokens).statements.map (Stmt.relabel f) := by
      rw [run_sentence_relabel, ParseState.outermost_relabel, ← List.map_reverse]
      rfl
    _ = Stmt.relabelAll f (parse tokens).statements := (Stmt.relabelAll_eq_map f _).symm

/-- **Parsing does not look at lexemes.** If the end token is among the tokens, then other lexemes
in the tokens give the same statements and errors with those lexemes. -/
theorem parse_relabel {tokens : List Token} (h : ∃ t ∈ tokens, t.isEof = true) :
    parse (tokens.map (Token.relabel f)) = (parse tokens).relabel f := by
  have hrun := run_sentence_relabel f tokens
  have hend : endToken (tokens.map (Token.relabel f)) = (endToken tokens).relabel f := by
    have hfind : (tokens.map (Token.relabel f)).find? Token.isEof
        = (tokens.find? Token.isEof).map (Token.relabel f) := List.find?_map
    obtain ⟨eof, heof⟩ := Option.isSome_iff_exists.1 (List.find?_isSome.2 h)
    rw [endToken, endToken, hfind, heof]
    rfl
  unfold sentence at hrun
  rw [parse, parse, hend, hrun, ParseState.finish_relabel]

end Lox
