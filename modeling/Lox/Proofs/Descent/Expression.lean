import Lox.Proofs.Descent.Takes
import Lox.Proofs.Parse.Reading
import Lox.Proofs.Parse.Rest

/-!
# Lox — expressions by recursive descent

The functions for expressions come to an end, and what they make of the tokens is what the parser
makes of them token by token. If there is no error, they have found a derivation, and the parser
reads that. If there is an error, the parser has it at the same token, whatever it holds on its
stack: the stack only has to be one on which the function can be called.

* **`Descent.Stuck`** — the error that the parser has in some modes, and where.
* **`Descent.Outcome`** — the two ways in which a function for expressions ends.
* **`Descent.outcome_assignment`** — every call for an expression ends in one of them.
-/

namespace Lox.Descent

open ParseState Pending

/-! ## Modes -/

/-- The modes in front of an expression of the level `n`. -/
inductive Before (n : Nat) : Mode → Prop
  | operand (goal : Goal) {stk : List Pending} (h : Pending.Stops n stk) :
    Before n (.operand goal stk)

/-- The modes after the expression `left` of the level `n`. It need not be complete yet, but the
next operator of the level completes it. -/
inductive After (n : Nat) (left : Expr) : Mode → Prop
  | operator (goal : Goal) {stk stk' : List Pending} {e : Expr} (h : Pending.Stops n stk)
      (hagree : Agree n stk' e stk left) : After n left (.operator goal stk' e)

/-- The modes after an opening parenthesis. -/
inductive Inside : Mode → Prop
  | operand (goal : Goal) (stk : List Pending) : Inside (.operand goal (.group :: stk))

theorem Inside.before {mode : Mode} (h : Inside mode) : Before 0 mode := by
  cases h with
  | operand goal stk => exact .operand goal (stops_group 0 stk)

theorem Before.mono {m n : Nat} {mode : Mode} (h : Before m mode) (hmn : m ≤ n) :
    Before n mode := by
  cases h with
  | operand goal h => exact .operand goal (h.mono hmn)

/-- In all modes of `M` the tokens lead to a mode of `M'`, without an error but the ones in
`new`. -/
def Leads (M : Mode → Prop) (v : List Token) (M' : Mode → Prop) (new : List SyntaxError) : Prop :=
  ∀ m ss enc errs, M m →
    ∃ m', M' m' ∧ run ⟨m, ss, enc, errs⟩ v = ⟨m', ss, enc, new.reverse ++ errs⟩

/-- In all modes of `M` the parser has the error `e` at the token `t` among `ts`, of which `rest`
is left then, and it has the errors `new` before. -/
def Stuck (M : Mode → Prop) (ts : List Token) (t : Token) (rest : List Token) (e : SyntaxError)
    (new : List SyntaxError) : Prop :=
  ∀ m ss enc errs, M m →
    result ⟨m, ss, enc, errs⟩ ts = resume ⟨.skipping, ss, enc, e :: (new.reverse ++ errs)⟩ t rest

section

variable {M M' : Mode → Prop} {ts v rest : List Token} {t : Token} {e : SyntaxError}
  {new before : List SyntaxError}

theorem Stuck.mono (h : Stuck M ts t rest e new) (hM : ∀ m, M' m → M m) :
    Stuck M' ts t rest e new :=
  fun m ss enc errs hm => h m ss enc errs (hM m hm)

theorem Stuck.after (h : Stuck M ts t rest e new) (hv : Leads M' v M before)
    (hts : Terminated (v ++ ts)) (hne : ts ≠ []) : Stuck M' (v ++ ts) t rest e (before ++ new) := by
  intro m ss enc errs hm
  obtain ⟨m', hm', hrun⟩ := hv m ss enc errs hm
  obtain ⟨u, ts, rfl⟩ := List.exists_cons_of_ne_nil hne
  rw [result_append _ hts, hrun, h m' ss enc _ hm']
  simp

end

/-! ## Leading on -/

section

variable {n : Nat} {left : Expr} {t : Token} {rest : List Token}

/-- An operand of an operator stands on the left of it. -/
theorem leads_operand (d : Derivation .relaxed (.level (n + 1))) :
    Leads (Before n) d.yield (After n d.tree) d.misplaced := by
  rintro _ ss enc errs ⟨goal, hstops⟩
  obtain ⟨stk', x, hrun, hagree⟩ := d.reads goal _ ss enc errs (hstops.mono (Nat.le_succ n))
  exact ⟨_, .operator goal hstops fun q hq => hagree q (by omega), hrun⟩

theorem leads_operations (d : Derivation .relaxed (.operations n)) :
    Leads (After n left) d.yield (After n (d.tree left)) d.misplaced := by
  rintro _ ss enc errs ⟨goal, hstops, hagree⟩
  obtain ⟨stk', x, hrun, hagree'⟩ := d.reads goal _ left _ _ ss enc errs hstops hagree
  exact ⟨_, .operator goal hstops hagree', hrun⟩

theorem leads_operator (op : BinaryOp) (hop : op.precedence = n) (sign : Lexeme) :
    Leads (After n left) [⟨sign, op.kind⟩] (Before (n + 1)) [] := by
  subst hop
  rintro _ ss enc errs @⟨goal, stk, _, _, hstops, hagree⟩
  have hred := hagree _ (Nat.le_refl _)
  rw [hstops op.precedence_le.2 _ (Nat.le_refl _)] at hred
  refine ⟨_, .operand goal (stops_binary left op sign stk), ?_⟩
  rw [run_cons, run_nil, step_operator_binary, hred]
  rfl

theorem leads_equal (sign : Lexeme) : Leads (After 0 left) [⟨sign, .equal⟩] (Before 0) [] := by
  rintro _ ss enc errs @⟨goal, stk, _, _, hstops, hagree⟩
  have hred := hagree 0 (Nat.le_refl 0)
  rw [hstops (Nat.zero_le 4) 0 (Nat.le_refl 0)] at hred
  refine ⟨_, .operand goal (stops_assign 0 left sign stk), ?_⟩
  rw [run_cons, run_nil, step_operator_equal, hred]
  rfl

theorem leads_sign (op : UnaryOp) (sign : Lexeme) :
    Leads (Before 5) [⟨sign, op.kind⟩] (Before 5) [] := by
  rintro _ ss enc errs ⟨goal, -⟩
  exact ⟨_, .operand goal (stops_unary op sign _), step_operand_unary goal _ ss enc errs op sign⟩

theorem leads_paren (opening : Lexeme) :
    Leads (Before n) [⟨opening, .leftParen⟩] Inside [] := by
  rintro _ ss enc errs ⟨goal, -⟩
  exact ⟨_, .operand goal _, rfl⟩

/-! ## Getting stuck -/

/-- An expression ends in front of the token, but what has to follow it is something else. -/
theorem stuck_missing (d : Derivation .relaxed .assignment)
    (hts : Terminated (d.yield ++ t :: rest)) (hends : Nonterminal.assignment.Ends (t :: rest))
    {goal : Goal} {pending : List Pending} {cause : SyntaxError.Cause}
    (hp : Pending.Stops 0 pending) (hc : ∀ e, complete pending e = ([], pending, e))
    (hmissing : ∀ st e, conclude st goal pending e t = st.fail cause t) :
    Stuck (· = .operand goal pending) (d.yield ++ t :: rest) t rest ⟨cause, t.toLexeme⟩
      d.misplaced := by
  rintro _ ss enc errs rfl
  obtain ⟨early, late, stk, e, hm, hrun, hcomplete⟩ := d.reads goal pending ss enc errs hp
  obtain ⟨-, hterminated⟩ := hts.split
  rw [result_append _ hts, hrun]
  rw [Nonterminal.ends_cons] at hends
  have hop : BinaryOp.ofKind? t.kind = none :=
    Option.eq_none_iff_forall_ne_some.2 fun op hop => hends (.inl ⟨op, hop, Nat.zero_le _⟩)
  refine result_of_step_eq_fail _ ss enc _ _ hterminated (fun _ => ⟨nofun, nofun⟩) ?_
  rw [step_operator_other _ _ _ _ _ _ hop fun hk => hends (.inr ⟨rfl, hk⟩), hcomplete, hc,
    hmissing, ← hm]
  simp

theorem stuck_paren (d : Derivation .relaxed .assignment) (hts : Terminated (d.yield ++ t :: rest))
    (hends : Nonterminal.assignment.Ends (t :: rest)) (hk : t.kind ≠ .rightParen) :
    Stuck Inside (d.yield ++ t :: rest) t rest ⟨.expectedRightParen, t.toLexeme⟩ d.misplaced := by
  rintro _ ss enc errs ⟨goal, stk⟩
  exact stuck_missing d hts hends (stops_group 0 stk) (fun _ => rfl)
    (fun st e => by simp only [conclude, if_neg hk]) _ ss enc errs rfl

/-- The token does not begin an operand. -/
theorem stuck_operand (hts : Terminated (t :: rest)) (hop : UnaryOp.ofKind? t.kind = none)
    (hlit : Literal.ofKind? t.kind = none) (hname : t.kind ≠ .identifier)
    (hparen : t.kind ≠ .leftParen) :
    Stuck (Before n) (t :: rest) t rest ⟨.expectedExpression, t.toLexeme⟩ [] := by
  rintro _ ss enc errs ⟨goal, -⟩
  refine result_of_step_eq_fail _ ss enc _ _ hts (fun _ => ⟨nofun, nofun⟩) ?_
  simp only [step, ParseState.operand, hop, hlit]
  rfl

end

/-! ## How a call ends -/

/-- With `ts` in front of it, the call finds a derivation from `N`, which cannot be continued by
what is left, or else there is an error, which the parser has as well in the modes of `M`. -/
inductive Outcome {N : Nonterminal} (tree : Derivation .relaxed N → Expr) (M : Mode → Prop)
    (depth : Nat) (call : Nat → Attempt Expr) (ts : List Token) : Prop
  | ok (d : Derivation .relaxed N) (t : Token) (rest : List Token)
      (hyield : d.yield ++ t :: rest = ts) (hends : N.Ends (t :: rest))
      (htakes : Takes (fun bound => (call bound).run) depth ts (t :: rest) (.ok (tree d))
        d.misplaced)
  | error (e : SyntaxError) (t : Token) (rest : List Token) (new : List SyntaxError)
      (htakes : Takes (fun bound => (call bound).run) depth ts (t :: rest) (.error e) new)
      (hstuck : Stuck M ts t rest e new)

theorem Outcome.of_succ {N : Nonterminal} {tree : Derivation .relaxed N → Expr} {M : Mode → Prop}
    {depth : Nat} {call : Nat → Attempt Expr} {ts : List Token}
    (h : Outcome tree M depth (fun bound => call (bound + 1)) ts) :
    Outcome tree M depth call ts := by
  cases h with
  | ok d t rest hyield hends htakes => exact .ok d t rest hyield hends htakes.of_succ
  | error e t rest new htakes hstuck => exact .error e t rest new htakes.of_succ hstuck

/-- How a call for an expression of the level `n` ends. -/
abbrev LevelOutcome (n : Nat) : Nat → (Nat → Attempt Expr) → List Token → Prop :=
  Outcome (N := .level n) Derivation.tree (Before n)

/-- How a call for operations on `left` ends. -/
abbrev OperationsOutcome (n : Nat) (left : Expr) : Nat → (Nat → Attempt Expr) → List Token → Prop :=
  Outcome (N := .operations n) (fun d => d.tree left) (After n left)

section

variable {depth n : Nat} {t : Token} {rest ts : List Token}

/-- What is between parentheses is an expression of any level. -/
theorem outcome_paren (opening : Lexeme) (hts : Terminated (⟨opening, .leftParen⟩ :: rest))
    (hinner : LevelOutcome 0 depth assignment rest) :
    LevelOutcome 6 depth primary (⟨opening, .leftParen⟩ :: rest) := by
  refine .of_succ ?_
  simp only [primary]
  have hrest := hts.tail (by simp)
  cases hinner with
  | error e u r new htakes hstuck =>
    have hinside := hstuck.mono fun _ => Inside.before
    exact .error e u r new
      (takes_peek.lift_bind ((takes_advance (by simp)).lift_bind htakes.error_bind))
      (hinside.after (leads_paren opening) hts hrest.ne_nil)
  | ok d u r hyield hends htakes =>
    subst hyield
    obtain ⟨-, hleft⟩ := hrest.split
    by_cases hclose : u.kind = .rightParen
    · obtain ⟨closing, _⟩ := u
      subst hclose
      obtain ⟨t, rest, rfl⟩ := (hleft.tail (by simp)).exists_cons
      exact .ok (.group opening d closing) t rest (by simp)
        (Nonterminal.ends_of_five_le (by decide) _)
        (takes_peek.lift_bind ((takes_advance (by simp)).lift_bind
          (htakes.ok_bind_quiet ((takes_expect closing (by simp) _).ok_bind (.ok _)))))
    · exact .error _ u r d.misplaced
        (takes_peek.lift_bind ((takes_advance (by simp)).lift_bind
          (htakes.ok_bind_quiet (takes_expect_error hclose _).error_bind)))
        ((stuck_paren d hrest hends hclose).after (leads_paren opening) hts hrest.ne_nil)

theorem outcome_primary (hts : Terminated (t :: rest)) (hop : UnaryOp.ofKind? t.kind = none)
    (hinner : t.kind ≠ .eof → LevelOutcome 0 depth assignment rest) :
    LevelOutcome 6 depth primary (t :: rest) := by
  obtain ⟨x, k⟩ := t
  cases hlit : Literal.ofKind? k with
  | some l =>
    obtain rfl := Literal.ofKind?_eq_some_iff.1 hlit
    have hne : l.kind ≠ .eof := fun h => by simp [h, Literal.ofKind?] at hlit
    obtain ⟨u, r, rfl⟩ := (hts.tail hne).exists_cons
    refine .of_succ (.ok (.literal l x) u r rfl (Nonterminal.ends_of_five_le (by decide) _) ?_)
    simp only [primary]
    refine takes_peek.lift_bind ?_
    simp only [hlit]
    exact (takes_advance hne).lift_bind (.ok _)
  | none =>
    by_cases hname : k = .identifier
    · subst hname
      obtain ⟨u, r, rfl⟩ := (hts.tail (by simp)).exists_cons
      refine .of_succ (.ok (.reference x) u r rfl (Nonterminal.ends_of_five_le (by decide) _) ?_)
      simp only [primary]
      exact takes_peek.lift_bind ((takes_advance (by simp)).lift_bind (.ok _))
    · by_cases hparen : k = .leftParen
      · subst hparen
        exact outcome_paren x hts (hinner (by simp))
      · refine .of_succ (.error _ _ _ [] ?_ (stuck_operand hts hop hlit hname hparen))
        simp only [primary]
        refine takes_peek.lift_bind ?_
        simp only [hlit]
        exact .throw _

theorem takes_unary_primary {r : Except SyntaxError Expr} {left : List Token}
    {new : List SyntaxError} (hop : UnaryOp.ofKind? t.kind = none)
    (h : Takes (fun bound => (primary bound).run) depth (t :: rest) left r new) :
    Takes (fun bound => (unary bound).run) depth (t :: rest) left r new := by
  refine .of_succ ?_
  simp only [unary]
  refine takes_peek.lift_bind ?_
  simp only [hop]
  exact h

theorem outcome_atom (hop : UnaryOp.ofKind? t.kind = none)
    (h : LevelOutcome 6 depth primary (t :: rest)) : LevelOutcome 5 depth unary (t :: rest) := by
  cases h with
  | error e u r new hprimary hstuck =>
    exact .error e u r new (takes_unary_primary hop hprimary)
      (hstuck.mono fun _ h => h.mono (by decide))
  | ok d u r hyield hends hprimary =>
    exact .ok (.atom d) u r hyield (Nonterminal.ends_of_five_le (by decide) _)
      (takes_unary_primary hop hprimary)

theorem takes_unary_sign {r : Except SyntaxError Expr} {left : List Token} {new : List SyntaxError}
    (op : UnaryOp) (sign : Lexeme)
    (h : Takes (fun bound => (unary bound >>= fun right =>
      pure (Expr.unary op sign right)).run) depth rest left r new) :
    Takes (fun bound => (unary bound).run) depth (⟨sign, op.kind⟩ :: rest) left r new := by
  have hne : op.kind ≠ .eof := by cases op <;> simp [UnaryOp.kind]
  refine .of_succ ?_
  simp only [unary]
  refine takes_peek.lift_bind ?_
  simp only [UnaryOp.ofKind?_eq_some_iff.2 rfl]
  exact (takes_advance hne).lift_bind h

theorem outcome_signed (op : UnaryOp) (sign : Lexeme) (hts : Terminated (⟨sign, op.kind⟩ :: rest))
    (hrest : Terminated rest) (h : LevelOutcome 5 depth unary rest) :
    LevelOutcome 5 depth unary (⟨sign, op.kind⟩ :: rest) := by
  cases h with
  | error e u r new hunary hstuck =>
    exact .error e u r new (takes_unary_sign op sign hunary.error_bind)
      (hstuck.after (leads_sign op sign) hts hrest.ne_nil)
  | ok d u r hyield hends hunary =>
    exact .ok (.unary op sign d) u r (by simp [← hyield]) hends
      (takes_unary_sign op sign (hunary.ok_bind_quiet (.ok _)))

theorem takes_operations_apply {r : Except SyntaxError Expr} {u : List Token}
    {new : List SyntaxError} {left : Expr} (op : BinaryOp) (hop : op.precedence = n) (sign : Lexeme)
    (h : Takes (fun bound => (operand bound n >>= fun right =>
      operations bound n (.binary op sign left right)).run) depth rest u r new) :
    Takes (fun bound => (operations bound n left).run) depth (⟨sign, op.kind⟩ :: rest) u r new := by
  have hne : op.kind ≠ .eof := by cases op <;> simp [BinaryOp.kind]
  refine .of_succ ?_
  simp only [operations]
  refine takes_peek.lift_bind ?_
  simp only [BinaryOp.ofKind?_kind, if_pos hop]
  exact (takes_advance hne).lift_bind h

/-- Where no operator of the precedence stands, there are no more operations of it. -/
theorem outcome_done {left : Expr} (hn : 1 ≤ n)
    (hends : (Nonterminal.level (n + 1)).Ends (t :: rest))
    (hop : ∀ op, BinaryOp.ofKind? t.kind = some op → op.precedence ≠ n) :
    OperationsOutcome n left depth (operations · n left) (t :: rest) := by
  refine .ok .done t rest rfl ?_ ?_
  · -- operators that bind more tightly would have continued the operand
    rw [Nonterminal.ends_cons] at hends ⊢
    rintro (⟨op, hkind, hle⟩ | ⟨hzero, -⟩)
    · have htight : ¬ n + 1 ≤ op.precedence := fun h => hends (.inl ⟨op, hkind, h⟩)
      exact hop op hkind (by omega)
    · omega
  · refine .of_succ ?_
    simp only [operations]
    refine takes_peek.lift_bind ?_
    cases hkind : BinaryOp.ofKind? t.kind with
    | none => exact .ok left
    | some op =>
      simp only [if_neg (hop op hkind)]
      exact .ok left

end

/-! ## All expressions -/

/-- Whether what is said of token sequences holds of those that have at most `k` tokens, of which
the last one is the end token. -/
def Upto (k : Nat) (P : List Token → Prop) : Prop := ∀ ts, Terminated ts → ts.length ≤ k → P ts

section

variable {depth k n : Nat} {t : Token} {rest : List Token}

theorem upto_unary (h : Upto k (LevelOutcome 0 depth assignment)) :
    Upto (k + 1) (LevelOutcome 5 depth unary) := by
  intro ts hts hk
  induction hts with
  | @eof t heof =>
    have hop : UnaryOp.ofKind? t.kind = none := by simp [heof, UnaryOp.ofKind?]
    exact outcome_atom hop (outcome_primary (.eof heof) hop fun hne => absurd heof hne)
  | @cons t rest hne hrest ih =>
    simp only [List.length_cons] at hk
    cases hop : UnaryOp.ofKind? t.kind with
    | none =>
      have hinner := h rest hrest (by omega)
      exact outcome_atom hop (outcome_primary (.cons hne hrest) hop fun _ => hinner)
    | some op =>
      obtain ⟨sign, _⟩ := t
      obtain rfl := UnaryOp.ofKind?_eq_some_iff.1 hop
      exact outcome_signed op sign (.cons hne hrest) hrest (ih (by omega))

theorem outcome_operations (hn : 1 ≤ n)
    (hoperand : Upto k (LevelOutcome (n + 1) depth (operand · n)))
    (ts : List Token) (left : Expr) (hts : Terminated ts) (hk : ts.length ≤ k)
    (hends : (Nonterminal.level (n + 1)).Ends ts) :
    OperationsOutcome n left depth (operations · n left) ts := by
  obtain ⟨t, rest, rfl⟩ := hts.exists_cons
  by_cases hop : ∃ op, BinaryOp.ofKind? t.kind = some op ∧ op.precedence = n
  · obtain ⟨op, hkind, hprec⟩ := hop
    obtain ⟨sign, _⟩ := t
    obtain rfl := BinaryOp.ofKind?_eq_some_iff.1 hkind
    have hrest : Terminated rest := hts.tail (by cases op <;> simp [BinaryOp.kind])
    rw [List.length_cons] at hk
    cases hoperand rest hrest (by omega) with
    | error e u r new hright hstuck =>
      exact .error e u r new (takes_operations_apply op hprec sign hright.error_bind)
        (hstuck.after (leads_operator op hprec sign) hts hrest.ne_nil)
    | ok d u r hyield hends' hright =>
      subst hyield
      obtain ⟨-, hu⟩ := hrest.split
      rw [List.length_append] at hk
      -- what was read so far is the operand on the left of what follows
      cases outcome_operations hn hoperand (u :: r) (.binary op sign left d.tree) hu (by omega)
        hends' with
      | error e u' r' new hmore hstuck =>
        have hleads : Leads (After n left) (⟨sign, op.kind⟩ :: d.yield)
            (After n (.binary op sign left d.tree)) d.misplaced := by
          simpa using leads_operations (.apply op hprec sign d .done)
        exact .error e u' r' _ (takes_operations_apply op hprec sign (hright.ok_bind hmore))
          (hstuck.after hleads hts hu.ne_nil)
      | ok d' u' r' hyield' hends'' hmore =>
        exact .ok (.apply op hprec sign d d') u' r' (by simp [← hyield']) hends''
          (takes_operations_apply op hprec sign (hright.ok_bind hmore))
  · exact outcome_done hn hends fun op hkind hprec => hop ⟨op, hkind, hprec⟩
termination_by ts.length

theorem upto_binary (hn : 1 ≤ n ∧ n ≤ 4) (h : Upto k (LevelOutcome (n + 1) depth (operand · n))) :
    Upto k (LevelOutcome n depth (binary · n)) := by
  intro ts hts hk
  refine .of_succ ?_
  simp only [binary]
  cases h ts hts hk with
  | error e t rest new hfirst hstuck =>
    exact .error e t rest new hfirst.error_bind (hstuck.mono fun _ h => h.mono (Nat.le_succ n))
  | ok d t rest hyield hends hfirst =>
    subst hyield
    obtain ⟨-, ht⟩ := hts.split
    rw [List.length_append] at hk
    cases outcome_operations hn.1 h (t :: rest) d.tree ht (by omega) hends with
    | error e u r new hmore hstuck =>
      exact .error e u r _ (hfirst.ok_bind hmore)
        (hstuck.after (leads_operand d) hts (List.cons_ne_nil t rest))
    | ok d' u r hyield hends' hmore =>
      exact .ok (.binary hn d d') u r (by simp [← hyield]) hends' (hfirst.ok_bind hmore)

theorem upto_operand (h : Upto k (LevelOutcome 5 depth unary)) {n : Nat} (hn : 1 ≤ n ∧ n ≤ 4) :
    Upto k (LevelOutcome (n + 1) depth (operand · n)) := by
  intro ts hts hk
  refine .of_succ ?_
  simp only [operand]
  split
  · exact upto_binary (by omega) (upto_operand h (by omega)) ts hts hk
  · obtain rfl : n = 4 := by omega
    exact h ts hts hk
termination_by 4 - n

theorem outcome_assign (d : Derivation .relaxed .equality) (sign : Lexeme) {ts : List Token}
    (hts : Terminated (d.yield ++ ⟨sign, .equal⟩ :: ts))
    (htarget : Takes (fun bound => (binary bound 1).run) depth (d.yield ++ ⟨sign, .equal⟩ :: ts)
      (⟨sign, .equal⟩ :: ts) (.ok d.tree) d.misplaced)
    (h : LevelOutcome 0 depth assignment ts) :
    LevelOutcome 0 depth assignment (d.yield ++ ⟨sign, .equal⟩ :: ts) := by
  refine .of_succ ?_
  simp only [assignment]
  obtain ⟨-, hsign⟩ := hts.split
  cases h with
  | error e u r new hvalue hstuck =>
    have hafter : Stuck (After 0 d.tree) (⟨sign, .equal⟩ :: ts) u r e new :=
      hstuck.after (leads_equal sign) hsign (hsign.tail (by simp)).ne_nil
    exact .error e u r _
      (htarget.ok_bind ((takes_consume sign (by simp)).lift_bind hvalue.error_bind))
      (hafter.after (leads_operand d) hts (List.cons_ne_nil _ ts))
  | ok d' u r hyield hends hvalue =>
    refine .ok (.assignTo rfl d sign d') u r (by simp [← hyield]) hends ?_
    rw [Derivation.misplaced, List.append_assoc]
    refine htarget.ok_bind ((takes_consume sign (by simp)).lift_bind (hvalue.ok_bind ?_))
    simp only [Derivation.tree]
    cases d.tree with
    | var name => exact .ok _
    | _ => exact (takes_record _).lift_bind (.ok _)

theorem outcome_plain (d : Derivation .relaxed .equality)
    (hends : Nonterminal.equality.Ends (t :: rest)) (hk : t.kind ≠ .equal)
    (htarget : Takes (fun bound => (binary bound 1).run) depth (d.yield ++ t :: rest) (t :: rest)
      (.ok d.tree) d.misplaced) :
    LevelOutcome 0 depth assignment (d.yield ++ t :: rest) := by
  refine .of_succ (.ok (.plain d) t rest rfl ?_ ?_)
  · rw [Nonterminal.ends_cons] at hends ⊢
    rintro (⟨op, hkind, -⟩ | ⟨-, hequal⟩)
    · exact hends (.inl ⟨op, hkind, op.precedence_le.1⟩)
    · exact hk hequal
  · simp only [assignment]
    exact htarget.ok_bind_quiet ((takes_consume_none hk).lift_bind (.ok _))

theorem upto_assignment (h : Upto k (LevelOutcome 1 depth (binary · 1)))
    (ts : List Token) (hts : Terminated ts) (hk : ts.length ≤ k) :
    LevelOutcome 0 depth assignment ts := by
  cases h ts hts hk with
  | error e t rest new htarget hstuck =>
    refine .of_succ (.error e t rest new ?_ (hstuck.mono fun _ h => h.mono (Nat.zero_le 1)))
    simp only [assignment]
    exact htarget.error_bind
  | ok d t rest hyield hends htarget =>
    subst hyield
    by_cases hequal : t.kind = .equal
    · obtain ⟨sign, _⟩ := t
      subst hequal
      obtain ⟨-, hsign⟩ := hts.split
      rw [List.length_append, List.length_cons] at hk
      exact outcome_assign d sign hts htarget
        (upto_assignment h rest (hsign.tail (by simp)) (by omega))
    · exact outcome_plain d hends hequal htarget
termination_by ts.length

/-- **Every call for an expression ends,** with what the parser makes of the tokens. -/
theorem outcome_assignment {ts : List Token} (hts : Terminated ts) :
    LevelOutcome 0 depth assignment ts := by
  -- by the number of tokens: the calls for the levels lead back to a call for a whole expression
  -- only in parentheses, and then the opening one was passed over
  have hupto (k : Nat) : Upto k (LevelOutcome 0 depth assignment) := by
    induction k with
    | zero => exact fun ts hts hk => absurd (List.eq_nil_of_length_eq_zero (by omega)) hts.ne_nil
    | succ k ih =>
      have hoperand := upto_operand (upto_unary ih) (n := 1) (by decide)
      exact upto_assignment (upto_binary (by decide) hoperand)
  exact hupto ts.length ts hts (Nat.le_refl _)

end

end Lox.Descent
