import Lox.Proofs.Parse.Run

/-!
# Lox — reading a derivation

The parser reads the yield of a derivation in the relaxed grammar without a fatal error and
builds the tree that the derivation prescribes.

While it reads an expression, its stack and operand are not yet the tree, but they become the
tree when an operator of the right precedence reduces them. This is `Pending.Agree`: two stacks
with their operands that no operator of a loose enough precedence can tell apart.

* **`Derivation.Reads`** — for each nonterminal, what reading its derivations does to a state.
* **`Derivation.reads`** — every derivation is read.
* **`parse_of_derivation`** — a sentence of the relaxed grammar is parsed to its tree, and the
  errors are those at its misplaced `=`.
-/

namespace Lox

/-! ## Stacks that reduce to the same -/

namespace Pending

/-- Whether operators of the precedences up to `n` reduce both operands to the same. -/
def Agree (n : Nat) (stk : List Pending) (e : Expr) (stk' : List Pending) (e' : Expr) : Prop :=
  ∀ q ≤ n, reduce q stk e = reduce q stk' e'

/-- Whether operators that bind at least as tightly as `n` reduce nothing on the stack. Nothing
is asked at the levels where no operator between operands is read. -/
def Stops (n : Nat) (stk : List Pending) : Prop :=
  n ≤ 4 → ∀ q ≥ n, ∀ e, reduce q stk e = (stk, e)

theorem Stops.mono {m n : Nat} {stk : List Pending} (h : Stops m stk) (hmn : m ≤ n) :
    Stops n stk :=
  fun hn q hq e => h (by omega) q (by omega) e

theorem stops_nil (n : Nat) : Stops n [] := fun _ _ _ _ => rfl

theorem stops_group (n : Nat) (stk : List Pending) : Stops n (.group :: stk) :=
  fun _ _ _ _ => rfl

theorem stops_assign (n : Nat) (target : Expr) (sign : Lexeme) (stk : List Pending) :
    Stops n (.assign target sign :: stk) :=
  fun _ _ _ _ => rfl

theorem stops_unary (op : UnaryOp) (sign : Lexeme) (stk : List Pending) :
    Stops 5 (.unary op sign :: stk) :=
  fun h => absurd h (by decide)

theorem stops_binary (left : Expr) (op : BinaryOp) (sign : Lexeme) (stk : List Pending) :
    Stops (op.precedence + 1) (.binary left op sign :: stk) :=
  fun _ q hq e => by
    have hlt : ¬ q ≤ op.precedence := by omega
    simp [reduce, hlt]

theorem Agree.complete_eq {n : Nat} {stk stk' : List Pending} {e e' : Expr}
    (h : Agree n stk e stk' e') : complete stk e = complete stk' e' := by
  rw [← complete_reduce 0 stk e, ← complete_reduce 0 stk' e', h 0 (Nat.zero_le n)]

end Pending

/-! ## Derivations -/

namespace Derivation

open Nonterminal ParseState Pending

/-- What the parser makes of the tokens that are derived. An expression is read on top of a
stack that its operators cannot reduce. Of the errors in an assignment, those at its own `=` are
still to come when its last operand was read. -/
def Reads : {n : Nonterminal} → Derivation .relaxed n → Prop
  | .declarations, d => ∀ ss enc errs,
    run ⟨.start, ss, enc, errs⟩ d.yield
      = ⟨.start, d.tree.reverse ++ ss, enc, d.misplaced.reverse ++ errs⟩
  | .declaration, d => ∀ ss enc errs,
    run ⟨.start, ss, enc, errs⟩ d.yield
      = ⟨.start, d.tree :: ss, enc, d.misplaced.reverse ++ errs⟩
  | .initializer, d => ∀ name ss enc errs semicolon,
    run ⟨.initializer name, ss, enc, errs⟩ (d.yield ++ [⟨semicolon, .semicolon⟩])
      = ⟨.start, .declaration name d.tree :: ss, enc, d.misplaced.reverse ++ errs⟩
  | .level 0, d => ∀ goal pending ss enc errs, Stops 0 pending →
    ∃ early late stk e, early ++ late = d.misplaced
      ∧ run ⟨.operand goal pending, ss, enc, errs⟩ d.yield
          = ⟨.operator goal stk e, ss, enc, early.reverse ++ errs⟩
      ∧ complete stk e = (late ++ (complete pending d.tree).1, (complete pending d.tree).2)
  | .level n, d => ∀ goal pending ss enc errs, Stops n pending →
    ∃ stk e, run ⟨.operand goal pending, ss, enc, errs⟩ d.yield
          = ⟨.operator goal stk e, ss, enc, d.misplaced.reverse ++ errs⟩
      ∧ Agree n stk e pending d.tree
  | .operations n, d => ∀ goal pending left stk e ss enc errs, Stops n pending →
    Agree n stk e pending left →
    ∃ stk' e', run ⟨.operator goal stk e, ss, enc, errs⟩ d.yield
          = ⟨.operator goal stk' e', ss, enc, d.misplaced.reverse ++ errs⟩
      ∧ Agree n stk' e' pending (d.tree left)

/-- After an expression, a token that closes it meets its tree and has all its errors
recorded. -/
theorem Reads.conclude {d : Derivation .relaxed .assignment} (h : d.Reads) {pending : List Pending}
    (hp : Stops 0 pending) (hc : ∀ e, complete pending e = ([], pending, e)) (goal : Goal)
    (ss : List Stmt) (enc : List (List Stmt)) (errs : List SyntaxError) {t : Token}
    (hop : BinaryOp.ofKind? t.kind = none) (hk : t.kind ≠ .equal) :
    ∃ stk e, run ⟨.operand goal pending, ss, enc, errs⟩ (d.yield ++ [t])
      = ParseState.conclude ⟨.operator goal stk e, ss, enc, d.misplaced.reverse ++ errs⟩
          goal pending d.tree t := by
  obtain ⟨early, late, stk, e, hm, hrun, hcomplete⟩ := h goal pending ss enc errs hp
  refine ⟨stk, e, ?_⟩
  rw [run_append, hrun, run_cons, run_nil, step_operator_other _ _ _ _ _ _ hop hk, hcomplete, hc,
    ← hm]
  simp

/-- The semicolon after an expression completes its statement. -/
theorem Reads.run_semicolon {d : Derivation .relaxed .assignment} (h : d.Reads) (goal : Goal)
    (ss : List Stmt) (enc : List (List Stmt)) (errs : List SyntaxError) (semicolon : Lexeme) :
    run ⟨.operand goal [], ss, enc, errs⟩ (d.yield ++ [⟨semicolon, .semicolon⟩])
      = ⟨.start, goal.statement d.tree :: ss, enc, d.misplaced.reverse ++ errs⟩ := by
  obtain ⟨stk, e, hrun⟩ := h.conclude (stops_nil 0) (fun _ => rfl) goal ss enc errs
    (t := ⟨semicolon, .semicolon⟩) rfl (by simp)
  rw [hrun]
  rfl

/-- **Every derivation is read.** -/
theorem reads {n : Nonterminal} (d : Derivation .relaxed n) : d.Reads := by
  -- by the rule at the root: the parts are read one after the other, each from the state in
  -- which the one before it left the parser
  induction d with
  | nil => exact fun ss enc errs => rfl
  | cons first rest ihf ihr =>
    intro ss enc errs
    rw [yield, run_append, ihf, ihr]
    simp [tree, misplaced]
  | declare word name init semicolon ih =>
    intro ss enc errs
    exact ih name ss enc errs semicolon
  | print word e semicolon ih =>
    intro ss enc errs
    exact ih.run_semicolon .print ss enc errs semicolon
  | expression e semicolon ih =>
    intro ss enc errs
    -- in front of a statement the parser does not know yet that it reads an expression
    obtain ⟨t, u, hy, ht⟩ := head_level e 0 rfl
    have hrun := ih.run_semicolon .expression ss enc errs semicolon
    rw [hy, List.cons_append, run_cons, ← step_start_expression _ _ _ ht, ← run_cons] at hrun
    rw [yield, hy]
    exact hrun
  | block opening body closing ih =>
    intro ss enc errs
    have hbody : run (step ⟨.start, ss, enc, errs⟩ ⟨opening, .leftBrace⟩) body.yield
        = ⟨.start, body.tree.reverse, ss :: enc, body.misplaced.reverse ++ errs⟩ := by
      have h := ih [] (ss :: enc) errs
      rw [List.append_nil] at h
      exact h
    rw [yield, run_cons, run_append, hbody]
    simp [run_cons, run_nil, step, begin, closeOr, tree, misplaced]
  | absent => exact fun name ss enc errs semicolon => rfl
  | present sign e ih =>
    intro name ss enc errs semicolon
    exact ih.run_semicolon (.declaration name) ss enc errs semicolon
  | assign hg => cases hg
  | assignTo hg target sign value iht ihv =>
    intro goal pending ss enc errs hp
    obtain ⟨stk, e, hrun, hagree⟩ := iht goal pending ss enc errs (hp.mono (Nat.zero_le 1))
    -- the `=` reduces the operand to the target, which then waits on top of `pending`
    have hred : reduce 0 stk e = (pending, target.tree) := by
      rw [hagree 0 (by decide), hp (by decide) 0 (Nat.le_refl 0)]
    -- the error at this `=` is reported after those in the value, when the value is complete
    obtain ⟨early, late, stk', e', hm, hrun', hcomplete⟩ :=
      ihv goal (.assign target.tree sign :: pending) ss enc (target.misplaced.reverse ++ errs)
        (stops_assign 0 _ _ _)
    refine ⟨target.misplaced ++ early, late ++ targetErrors target.tree sign, stk', e', ?_, ?_, ?_⟩
    · rw [misplaced, ← hm]
      simp
    · rw [yield, run_append, hrun, run_cons, step_operator_equal, hred, hrun']
      simp
    · rw [hcomplete, complete_assign]
      simp [tree]
  | plain e ih =>
    intro goal pending ss enc errs hp
    obtain ⟨stk, e', hrun, hagree⟩ := ih goal pending ss enc errs (hp.mono (Nat.zero_le 1))
    exact ⟨e.misplaced, [], stk, e', List.append_nil _, hrun, hagree.complete_eq⟩
  | @binary n hn first rest ihf ihr =>
    obtain ⟨m, rfl⟩ : ∃ m, n = m + 1 := ⟨n - 1, by omega⟩
    intro goal pending ss enc errs hp
    obtain ⟨stk, e, hrun, hagree⟩ := ihf goal pending ss enc errs (hp.mono (Nat.le_succ _))
    obtain ⟨stk', e', hrun', hagree'⟩ := ihr goal pending first.tree stk e ss enc
      (first.misplaced.reverse ++ errs) hp (fun q hq => hagree q (by omega))
    refine ⟨stk', e', ?_, hagree'⟩
    rw [yield, run_append, hrun, hrun', misplaced]
    simp
  | @done n =>
    intro goal pending left stk e ss enc errs _ hagree
    exact ⟨stk, e, rfl, hagree⟩
  | @apply n op hop sign right rest ihr ihrest =>
    subst hop
    intro goal pending left stk e ss enc errs hp hagree
    -- the operator reduces what is on its left to `left`, which then waits on top of `pending`
    have hred : reduce op.precedence stk e = (pending, left) := by
      rw [hagree _ (Nat.le_refl _), hp op.precedence_le.2 _ (Nat.le_refl _)]
    obtain ⟨stk', e', hrun, hagree'⟩ := ihr goal (.binary left op sign :: pending) ss enc errs
      (stops_binary left op sign pending)
    -- the next operator of this level reduces the operation, so the operands group to the left
    have hagree'' : Agree op.precedence stk' e' pending (.binary op sign left right.tree) := by
      intro q hq
      rw [hagree' q (by omega)]
      simp [reduce, hq]
    obtain ⟨stk'', e'', hrun', hlast⟩ := ihrest goal pending _ stk' e' ss enc
      (right.misplaced.reverse ++ errs) hp hagree''
    refine ⟨stk'', e'', ?_, hlast⟩
    rw [yield, run_cons, step_operator_binary, hred, run_append, hrun, hrun', misplaced]
    simp
  | unary op sign e ih =>
    intro goal pending ss enc errs _
    obtain ⟨stk, e', hrun, hagree⟩ := ih goal (.unary op sign :: pending) ss enc errs
      (stops_unary op sign pending)
    refine ⟨stk, e', ?_, fun q hq => hagree q hq⟩
    rw [yield, run_cons, step_operand_unary, hrun, misplaced]
  | atom e ih =>
    intro goal pending ss enc errs hp
    obtain ⟨stk, e', hrun, hagree⟩ := ih goal pending ss enc errs (hp.mono (by decide))
    exact ⟨stk, e', hrun, fun q hq => hagree q (by omega)⟩
  | literal l text =>
    intro goal pending ss enc errs _
    exact ⟨pending, .literal l, step_operand_literal goal pending ss enc errs l text,
      fun _ _ => rfl⟩
  | reference name => exact fun goal pending ss enc errs _ => ⟨pending, .var name, rfl, fun _ _ => rfl⟩
  | group opening e closing ih =>
    intro goal pending ss enc errs _
    refine ⟨pending, .group e.tree, ?_, fun _ _ => rfl⟩
    obtain ⟨stk, e', hrun⟩ := ih.conclude (stops_group 0 pending) (fun _ => rfl) goal ss enc errs
      (t := ⟨closing, .rightParen⟩) rfl (by simp)
    exact hrun

end Derivation

/-! ## Sentences -/

/-- **A sentence of the relaxed grammar is parsed to its tree.** -/
theorem parse_of_derivation {tokens : List Token} (d : Derivation .relaxed .declarations)
    (h : d.yield = sentence tokens) : parse tokens = ⟨d.tree, d.misplaced⟩ := by
  have hrun := d.reads [] [] []
  rw [h] at hrun
  simp only [parse, ParseState.initial]
  rw [← sentence, hrun]
  simp [ParseState.finish, ParseState.outermost, ParseState.interrupt]

end Lox
