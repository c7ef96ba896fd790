import Lox.Proofs.Grammar.Derives
import Lox.Proofs.Parse.Run

/-!
# Lox — what the parser has read

As long as no fatal error is recorded, the state of the parser is a partial derivation of the
tokens that were read: whatever is complete has a derivation in the relaxed grammar, and the
rest are beginnings of productions. An assignment to something that is not a variable is no
fatal error; the state forgets its value, but the tokens of the value are still accounted for.

* **`Pending.Opened`**, **`Mode.Begun`**, **`Nested`** — the partial derivations of a stack, of
  the statement being read, and of the open blocks.
* **`Viable`** — a state and the tokens that it stands for.
* **`Viable.step_cases`** — reading a token keeps the account, or the token is a fatal error.
* **`Viable.run`** — without fatal errors, reading keeps the account.
-/

namespace Lox

open Nonterminal

/-! ## Expressions -/

/-- Whether the stack stands for the tokens `v` and waits for an operand of the level `n`. -/
inductive Pending.Opened : Nat → List Pending → List Token → Prop where
  | nil {n : Nat} : Opened n [] []
  | group {n : Nat} {stk : List Pending} {v : List Token} (h : Opened 5 stk v)
      (opening : Lexeme) : Opened n (.group :: stk) (v ++ [⟨opening, .leftParen⟩])
  | unary {n : Nat} {stk : List Pending} {v : List Token} (hn : 5 ≤ n) (h : Opened 5 stk v)
      (op : UnaryOp) (sign : Lexeme) : Opened n (.unary op sign :: stk) (v ++ [⟨sign, op.kind⟩])
  | binary {n : Nat} {stk : List Pending} {v w : List Token} {l : Expr} (op : BinaryOp)
      (hn : op.precedence < n) (h : Opened op.precedence stk v)
      (hl : Derives .relaxed (level op.precedence) w l) (sign : Lexeme) :
      Opened n (.binary l op sign :: stk) (v ++ w ++ [⟨sign, op.kind⟩])
  | assign {n : Nat} {stk : List Pending} {v w : List Token} {target : Expr}
      (h : Opened 0 stk v) (ht : Derives .relaxed equality w target) (sign : Lexeme) :
      Opened n (.assign target sign :: stk) (v ++ w ++ [⟨sign, .equal⟩])

namespace Pending

variable {stk : List Pending} {v w : List Token} {e : Expr}

/-- An operator of the precedence `p` reduces the stack and its operand to a left operand. -/
theorem Opened.reduce {p q : Nat} (h : Opened q stk v) (hp : 1 ≤ p) (hp5 : p ≤ 5) (hpq : p ≤ q)
    (he : Derives .relaxed (level q) w e) :
    ∃ v' w', Opened p (reduce p stk e).1 v' ∧ Derives .relaxed (level p) w' (reduce p stk e).2
      ∧ v' ++ w' = v ++ w := by
  induction h generalizing w e with
  | nil => exact ⟨_, _, .nil, he.level_of_le hp hpq, rfl⟩
  | group h opening => exact ⟨_, _, .group h opening, he.level_of_le hp hpq, rfl⟩
  | assign h ht sign => exact ⟨_, _, .assign h ht sign, he.level_of_le hp hpq, rfl⟩
  | unary hn h op sign ih =>
    have hunary := (he.level_of_le (by decide) hn).prefixed op sign
    obtain ⟨v', w', hv, hw, heq⟩ := ih hp5 hunary
    exact ⟨v', w', hv, hw, by simpa using heq⟩
  | binary op hn h hl sign ih =>
    have hone := op.precedence_le.1
    unfold Pending.reduce
    split
    · next hle =>
      have hbinary := Derives.binary op hl sign (he.level_of_le (by omega) hn)
      obtain ⟨v', w', hv, hw, heq⟩ := ih hle hbinary
      exact ⟨v', w', hv, hw, by simpa using heq⟩
    · -- an operator that binds more loosely stays open
      exact ⟨_, _, .binary op (by omega) h hl sign, he.level_of_le hp hpq, rfl⟩

theorem Opened.of_one (h : Opened 1 stk v) : Opened 0 stk v := by
  cases h with
  | nil => exact .nil
  | group h opening => exact .group h opening
  | assign h ht sign => exact .assign h ht sign
  | unary hn => omega
  | binary op hn =>
    have hone := op.precedence_le.1
    omega

/-- What ends the expression applies everything up to an open parenthesis. -/
theorem Opened.complete {q : Nat} (h : Opened q stk v) (he : Derives .relaxed (level q) w e) :
    ∃ v' w', Opened 5 (complete stk e).2.1 v' ∧ Derives .relaxed assignment w' (complete stk e).2.2
      ∧ v' ++ w' = v ++ w := by
  induction h generalizing w e with
  | nil => exact ⟨_, _, .nil, he.toAssignment, rfl⟩
  | group h opening => exact ⟨_, _, .group h opening, he.toAssignment, rfl⟩
  | unary hn h op sign ih =>
    have hunary := (he.level_of_le (by decide) hn).prefixed op sign
    obtain ⟨v', w', hv, hw, heq⟩ := ih hunary
    exact ⟨v', w', hv, hw, by simpa using heq⟩
  | binary op hn h hl sign ih =>
    have hbinary := Derives.binary op hl sign (he.level_of_le (by omega) hn)
    obtain ⟨v', w', hv, hw, heq⟩ := ih hbinary
    exact ⟨v', w', hv, hw, by simpa using heq⟩
  | assign h ht sign ih =>
    -- whatever the target is, the relaxed grammar has this assignment
    obtain ⟨v', w', hv, hw, heq⟩ := ih (ht.assignTo sign he.toAssignment)
    rw [complete_assign]
    exact ⟨v', w', hv, hw, by simpa using heq⟩

end Pending

/-! ## Statements -/

/-- The tokens that say what an expression is for. -/
inductive Goal.Begun : Goal → List Token → Prop where
  | print (word : Lexeme) : Begun .print [⟨word, .printWord⟩]
  | expression : Begun .expression []
  | declaration (word name sign : Lexeme) :
      Begun (.declaration name) [⟨word, .varWord⟩, ⟨name, .identifier⟩, ⟨sign, .equal⟩]

theorem Goal.Begun.derives {goal : Goal} {u w : List Token} {e : Expr} (hg : goal.Begun u)
    (he : Derives .relaxed assignment w e) (semicolon : Lexeme) :
    Derives .relaxed .declaration (u ++ w ++ [⟨semicolon, .semicolon⟩]) (goal.statement e) := by
  cases hg with
  | print word => exact .print word he semicolon
  | expression => exact .expression he semicolon
  | declaration word name sign => exact .declareAs word name sign he semicolon

/-- Whether the tokens `u` are the beginning of a statement that leads to the mode. -/
inductive Mode.Begun : Mode → List Token → Prop where
  | start : Begun .start []
  | name (word : Lexeme) : Begun .name [⟨word, .varWord⟩]
  | initializer (word name : Lexeme) :
      Begun (.initializer name) [⟨word, .varWord⟩, ⟨name, .identifier⟩]
  | operand {goal : Goal} {stk : List Pending} {u v : List Token} (hg : goal.Begun u)
      (h : Pending.Opened 5 stk v) : Begun (.operand goal stk) (u ++ v)
  | operator {goal : Goal} {stk : List Pending} {u v w : List Token} {e : Expr}
      (hg : goal.Begun u) (h : Pending.Opened 5 stk v) (he : Derives .relaxed primary w e) :
      Begun (.operator goal stk e) (u ++ v ++ w)

/-! ## Blocks -/

/-- Whether the tokens `u` are the statements before and inside the open blocks. -/
inductive Nested : List (List Stmt) → List Stmt → List Token → Prop where
  | program {ss : List Stmt} {v : List Token} (h : Derives .relaxed declarations v ss.reverse) :
      Nested [] ss v
  | block {enc : List (List Stmt)} {before ss : List Stmt} {u v : List Token}
      (h : Nested enc before u) (opening : Lexeme)
      (hb : Derives .relaxed declarations v ss.reverse) :
      Nested (before :: enc) ss (u ++ ⟨opening, .leftBrace⟩ :: v)

namespace Nested

variable {enc : List (List Stmt)} {ss : List Stmt} {u w : List Token}

theorem add (h : Nested enc ss u) {s : Stmt} (hs : Derives .relaxed declaration w s) :
    Nested enc (s :: ss) (u ++ w) := by
  cases h with
  | program h =>
    refine .program ?_
    rw [List.reverse_cons]
    exact h.snoc hs
  | block h opening hb =>
    rw [List.append_assoc, List.cons_append]
    refine .block h opening ?_
    rw [List.reverse_cons]
    exact hb.snoc hs

theorem close {before : List Stmt} (h : Nested (before :: enc) ss u) (closing : Lexeme) :
    Nested enc (.block ss.reverse :: before) (u ++ [⟨closing, .rightBrace⟩]) := by
  cases h with
  | block h opening hb =>
    rw [List.append_assoc, List.cons_append]
    exact h.add (.block opening hb closing)

end Nested

/-! ## States -/

/-- Whether the state stands for the tokens `v`. -/
def Viable (st : ParseState) (v : List Token) : Prop :=
  ∃ u w, Nested st.enclosing st.statements u ∧ st.mode.Begun w ∧ u ++ w = v

namespace ParseState

/-- Whether no error was recorded but for assignments to what is not a variable. -/
def Unbroken (st : ParseState) : Prop := ∀ e ∈ st.errors, e.cause = .invalidAssignmentTarget

theorem Unbroken.of_suffix {st st' : ParseState} (h : st'.Unbroken)
    (hs : st.errors <:+ st'.errors) : st.Unbroken :=
  fun e he => h e (hs.subset he)

/-- Whether `st'` is what becomes of `st` if the token `t` is a fatal error. The assignments that
end before the token may be errors as well, and they are recorded first. -/
inductive Rejects (st : ParseState) (t : Token) : ParseState → Prop where
  | intro (before : List SyntaxError) (hbefore : ∀ e ∈ before, e.cause = .invalidAssignmentTarget)
      (cause : SyntaxError.Cause) (hcause : cause ≠ .invalidAssignmentTarget) :
      Rejects st t ({ st with errors := before ++ st.errors }.fail cause t)

namespace Rejects

variable {st st' : ParseState} {t : Token}

theorem fail (st : ParseState) (t : Token) {cause : SyntaxError.Cause}
    (h : cause ≠ .invalidAssignmentTarget) : st.Rejects t (st.fail cause t) :=
  .intro [] nofun cause h

theorem of_errors {before : List SyntaxError}
    (hbefore : ∀ e ∈ before, e.cause = .invalidAssignmentTarget)
    (h : ({ st with errors := before ++ st.errors } : ParseState).Rejects t st') :
    st.Rejects t st' := by
  cases h with
  | intro later hlater cause hcause =>
    have hall : ∀ e ∈ later ++ before, e.cause = .invalidAssignmentTarget :=
      List.forall_mem_append.2 ⟨hlater, hbefore⟩
    have hfail : st.Rejects t ({ st with errors := (later ++ before) ++ st.errors }.fail cause t) :=
      .intro (later ++ before) hall cause hcause
    rwa [List.append_assoc] at hfail

theorem not_unbroken (h : st.Rejects t st') : ¬ st'.Unbroken := by
  cases h with
  | intro before hbefore cause hcause =>
    intro hok
    exact hcause (hok ⟨cause, t.toLexeme⟩ (by simp))

end Rejects

end ParseState

/-- The errors in a complete expression are those at its misplaced `=`. -/
theorem Pending.cause_of_mem_complete {stk : List Pending} {e : Expr} :
    ∀ err ∈ (complete stk e).1, err.cause = .invalidAssignmentTarget := by
  fun_induction complete stk e with
  | case1 op sign rest e ih => exact ih
  | case2 left op sign rest e ih => exact ih
  | case3 name sign rest e ih => exact ih
  | case4 target sign rest e _ errors stk' whole h ih =>
    rw [h] at ih
    exact List.forall_mem_cons.2 ⟨rfl, ih⟩
  | case5 | case6 =>
    intro err herr
    cases herr

namespace Viable

open ParseState

variable {ss : List Stmt} {enc : List (List Stmt)} {errs : List SyntaxError} {goal : Goal}
  {stk : List Pending} {e : Expr} {u v w x : List Token}

theorem operand {st : ParseState} (hn : Nested st.enclosing st.statements u) (hg : goal.Begun v)
    (hs : Pending.Opened 5 stk w) (t : Token) :
    Viable (st.operand goal stk t) (u ++ (v ++ w) ++ [t]) ∨ st.Rejects t (st.operand goal stk t) := by
  obtain ⟨y, k⟩ := t
  unfold ParseState.operand
  split
  · next _ _ op hop =>
    obtain rfl := UnaryOp.ofKind?_eq_some_iff.1 hop
    exact .inl ⟨u, _, hn, .operand hg (.unary (Nat.le_refl 5) hs op y), by simp⟩
  · next l _ hl =>
    obtain rfl := Literal.ofKind?_eq_some_iff.1 hl
    exact .inl ⟨u, _, hn, .operator hg hs (.literal l y), by simp⟩
  · split
    · next hk => exact .inl ⟨u, _, hn, .operator hg hs (.reference y), by simp [← hk]⟩
    · next hk => exact .inl ⟨u, _, hn, .operand hg (.group hs y), by simp [← hk]⟩
    · exact .inr (.fail st _ nofun)

theorem conclude (st : ParseState) (hn : Nested st.enclosing st.statements u) (hg : goal.Begun v)
    (hs : Pending.Opened 5 stk w) (hstk : stk = [] ∨ ∃ rest, stk = .group :: rest)
    (he : Derives .relaxed assignment x e) (t : Token) :
    Viable (st.conclude goal stk e t) (u ++ (v ++ w ++ x) ++ [t])
    ∨ st.Rejects t (st.conclude goal stk e t) := by
  obtain ⟨y, k⟩ := t
  unfold ParseState.conclude
  obtain rfl | ⟨rest, rfl⟩ := hstk
  · cases hs
    simp only
    split
    · next hk =>
      subst hk
      exact .inl ⟨_, [], hn.add (hg.derives he y), .start, by simp⟩
    · exact .inr (.fail st _ nofun)
  · simp only
    split
    · next hk =>
      subst hk
      cases hs with
      | group hs opening => exact .inl ⟨u, _, hn, .operator hg hs (he.group opening y), by simp⟩
    · exact .inr (.fail st _ nofun)

theorem operator (hn : Nested enc ss u) (hg : goal.Begun v) (hs : Pending.Opened 5 stk w)
    (he : Derives .relaxed primary x e) (t : Token) :
    Viable (step ⟨.operator goal stk e, ss, enc, errs⟩ t) (u ++ (v ++ w ++ x) ++ [t])
    ∨ Rejects ⟨.operator goal stk e, ss, enc, errs⟩ t
        (step ⟨.operator goal stk e, ss, enc, errs⟩ t) := by
  obtain ⟨y, k⟩ := t
  have hfive : Derives .relaxed unary x e := he.level_of_le (by decide) (by decide)
  cases hop : BinaryOp.ofKind? k with
  | some op =>
    obtain rfl := BinaryOp.ofKind?_eq_some_iff.1 hop
    have hprec := op.precedence_le
    obtain ⟨w', x', hw, hx, heq⟩ := hs.reduce hprec.1 (by omega) (by omega) hfive
    rw [step_operator_binary]
    refine .inl ⟨u, _, hn, .operand hg (.binary op (by omega) hw hx y), ?_⟩
    simp [← heq]
  | none =>
    by_cases hk : k = .equal
    · -- the target of an assignment is an equality, the level that the precedence 1 asks for
      subst hk
      obtain ⟨w', x', hw, hx, heq⟩ := hs.reduce (p := 1) (by decide) (by decide) (by decide) hfive
      rw [step_operator_equal, Pending.reduce_zero]
      refine .inl ⟨u, _, hn, .operand hg (.assign hw.of_one hx y), ?_⟩
      simp [← heq]
    · obtain ⟨w', x', hw, hx, heq⟩ := hs.complete hfive
      rw [step_operator_other goal stk e ss enc errs hop hk]
      have hcauses : ∀ err ∈ (Pending.complete stk e).1.reverse,
          err.cause = .invalidAssignmentTarget := fun err herr =>
        Pending.cause_of_mem_complete err (List.mem_reverse.1 herr)
      have hconclude := conclude
        ⟨.operator goal stk e, ss, enc, (Pending.complete stk e).1.reverse ++ errs⟩ hn hg hw
        (Pending.complete_stack stk e) hx ⟨y, k⟩
      rw [List.append_assoc v w' x', heq, ← List.append_assoc v w x] at hconclude
      exact hconclude.imp_right (.of_errors hcauses)

theorem begin {st : ParseState} (hn : Nested st.enclosing st.statements u) (t : Token) :
    Viable (st.begin t) (u ++ [t]) ∨ st.Rejects t (st.begin t) := by
  obtain ⟨y, k⟩ := t
  unfold ParseState.begin
  split
  · next hk => exact .inl ⟨u, _, hn, .name y, by simp [← hk]⟩
  · next hk => exact .inl ⟨u, _, hn, .operand (.print y) .nil, by simp [← hk]⟩
  · next hk => exact .inl ⟨_, [], .block hn y .nil, .start, by simp [← hk]⟩
  · next hk =>
    obtain ⟨mode, ss, enc, errs⟩ := st
    cases enc with
    | nil => exact .inr (.fail _ _ nofun)
    | cons before outer => exact .inl ⟨_, [], hn.close y, .start, by simp [← hk]⟩
  · have hoperand := operand hn .expression .nil ⟨y, k⟩
    rwa [List.append_nil, List.append_nil] at hoperand

/-- **Reading a token keeps the account, or else the token is a fatal error.** -/
theorem step_cases {st : ParseState} (h : Viable st v) (t : Token) :
    Viable (st.step t) (v ++ [t]) ∨ st.Rejects t (st.step t) := by
  obtain ⟨mode, ss, enc, errs⟩ := st
  obtain ⟨u, w, hn, hb, rfl⟩ := h
  -- no case for a mode that skips tokens: it is entered with a fatal error
  cases hb with
  | start =>
    rw [List.append_nil]
    exact begin hn t
  | name word =>
    obtain ⟨y, k⟩ := t
    simp only [ParseState.step, ParseState.name]
    split
    · next hk =>
      subst hk
      exact .inl ⟨u, _, hn, .initializer word y, by simp⟩
    · exact .inr (.fail _ _ (by decide))
  | initializer word name =>
    obtain ⟨y, k⟩ := t
    simp only [ParseState.step, ParseState.initializer]
    split
    · exact .inl ⟨u, _, hn, .operand (.declaration word name y) .nil, by simp⟩
    · exact .inl ⟨_, [], hn.add (.declare word name y), .start, by simp⟩
    · exact .inr (.fail _ _ (by decide))
  | operand hg hs => exact operand hn hg hs t
  | operator hg hs he => exact operator hn hg hs he t

theorem step {st : ParseState} (h : Viable st v) (t : Token) (hok : (st.step t).Unbroken) :
    Viable (st.step t) (v ++ [t]) :=
  (h.step_cases t).resolve_right fun hreject => hreject.not_unbroken hok

theorem run {st : ParseState} (h : Viable st v) (ts : List Token) (hok : (st.run ts).Unbroken) :
    Viable (st.run ts) (v ++ ts) := by
  induction ts generalizing st v with
  | nil =>
    rw [List.append_nil]
    exact h
  | cons t ts ih =>
    -- an error after the first token would still be there at the end
    have hstep : (st.step t).Unbroken := hok.of_suffix (errors_suffix_run _ ts)
    have hrest := ih (h.step t hstep) hok
    rwa [List.append_assoc] at hrest

theorem initial : Viable ParseState.initial [] := ⟨[], [], .program .nil, .start, rfl⟩

end Viable

/-! ## Whole sentences -/

theorem Mode.Begun.eq_start_of_unfinished {mode : Mode} {v : List Token} (h : mode.Begun v)
    (hnone : mode.unfinished.2 = none) : mode = .start ∧ v = [] := by
  cases h with
  | start => exact ⟨rfl, rfl⟩
  | _ => cases hnone

theorem Goal.missing_ne_invalidAssignmentTarget (goal : Goal) (stk : List Pending) :
    goal.missing stk ≠ .invalidAssignmentTarget := by
  unfold Goal.missing
  split <;> exact nofun

theorem Mode.unfinished_ne_invalidAssignmentTarget (mode : Mode) :
    mode.unfinished.2 ≠ some .invalidAssignmentTarget := by
  cases mode with
  | operator goal stk e =>
    exact fun h => goal.missing_ne_invalidAssignmentTarget _ (Option.some.inj h)
  | _ => nofun

/-- **What is parsed without a fatal error is derived in the relaxed grammar.** -/
theorem derives_of_parse {tokens : List Token}
    (h : ∀ e ∈ (parse tokens).errors, e.cause = .invalidAssignmentTarget) :
    Derives .relaxed .declarations (sentence tokens) (parse tokens).statements := by
  -- the state before the end token
  generalize hst : ParseState.initial.run (sentence tokens) = st
  have hparse : parse tokens = st.finish (endToken tokens) := by rw [← hst]; rfl
  rw [hparse] at h ⊢
  simp only [ParseState.finish, ParseState.errors_interrupt _ (kind_endToken tokens)] at h ⊢
  have hok : st.Unbroken := fun e he => h e (by simp [he])
  have hviable := Viable.initial.run (sentence tokens) (hst ▸ hok)
  rw [hst] at hviable
  obtain ⟨u, w, hn, hb, hv⟩ := hviable
  -- what is missing at the end would be a fatal error
  have hnone : st.mode.unfinished.2 = none := by
    cases hc : st.mode.unfinished.2 with
    | none => rfl
    | some cause =>
      have hcause := h ⟨cause, (endToken tokens).toLexeme⟩ (by simp [Mode.stopErrors, hc])
      simp only at hcause
      exact absurd (hcause ▸ hc) (Mode.unfinished_ne_invalidAssignmentTarget _)
  obtain ⟨-, rfl⟩ := hb.eq_start_of_unfinished hnone
  obtain rfl : u = sentence tokens := by simpa using hv
  -- and so would the brace of a block that is open
  obtain ⟨mode, ss, enc, errs⟩ := st
  cases enc with
  | nil =>
    cases hn with
    | program hss => exact hss
  | cons before outer =>
    have hcause := h ⟨.expectedRightBrace, (endToken tokens).toLexeme⟩ (by simp)
    cases hcause

end Lox
