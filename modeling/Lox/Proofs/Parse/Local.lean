import Lox.Proofs.Parse.Run

/-!
# Lox — what a token does is local

Apart from a brace that opens or closes a block, what a token does depends on nothing but the
place inside the statement where it is read: neither on the statements and blocks around it nor
on the errors before it. And what was finished before the first token of a run has no influence
on it.

* **`ParseState.exists_step_eq_after`** — one token, read wherever it may be.
* **`Mode.LeadsTo`** — tokens that stay inside their block, and what they add to it.
* **`Mode.LeadsTo.parse_append`** — tokens that lead back in front of a statement are parsed on
  their own.
-/

namespace Lox

/-- What two parts of a program hold, one after the other. -/
instance : Append Parsed where
  append p q := ⟨p.statements ++ q.statements, p.errors ++ q.errors⟩

theorem Parsed.append_def (p q : Parsed) :
    p ++ q = ⟨p.statements ++ q.statements, p.errors ++ q.errors⟩ := rfl

@[simp] theorem Parsed.statements_append (p q : Parsed) :
    (p ++ q).statements = p.statements ++ q.statements := rfl

@[simp] theorem Parsed.errors_append (p q : Parsed) : (p ++ q).errors = p.errors ++ q.errors := rfl

namespace ParseState

/-! ## What is added -/

/-- The state with `p` added to its innermost block and to its errors. -/
def after (st : ParseState) (m : Mode) (p : Parsed) : ParseState :=
  ⟨m, p.statements.reverse ++ st.statements, st.enclosing, p.errors.reverse ++ st.errors⟩

variable {st : ParseState} {m : Mode} {t : Token}

theorem after_after (m' : Mode) (p q : Parsed) :
    (st.after m p).after m' q = st.after m' (p ++ q) := by
  simp [after]

theorem after_empty (h : st.mode = m) : st.after m ⟨[], []⟩ = st := by
  subst h
  rfl

/-- Where there is no block, no brace closes one. -/
theorem closeOr_of_enclosing_eq_nil (h : st.enclosing = []) (otherwise : ParseState) :
    st.closeOr otherwise = otherwise := by
  simp only [closeOr, h]

/-- In the search after an error, a semicolon is the end, and so is a brace that closes a block. -/
theorem recover_eq_after (h : t.kind = .rightBrace → st.enclosing = []) :
    st.recover t = st.after (if t.kind = .semicolon then .start else .skipping) ⟨[], []⟩ := by
  unfold recover
  split
  · next hr => exact closeOr_of_enclosing_eq_nil (h hr) _
  · rfl

/-! ## One token -/

/-- What `f` does with a state, for a token of the kind `k`: the same wherever the token is read,
unless it is a brace that closes a block. A semicolon leads back in front of a statement, and
only a semicolon finishes one. -/
def Uniform (k : Token.Kind) (f : ParseState → ParseState) : Prop :=
  ∃ m p, (k = .semicolon → m = .start) ∧ (k ≠ .semicolon → p.statements = [])
    ∧ ∀ st, (k = .rightBrace → st.enclosing = []) → f st = st.after m p

theorem uniform_recover (t : Token) : Uniform t.kind fun st => st.recover t :=
  ⟨_, ⟨[], []⟩, fun h => if_pos h, fun _ => rfl, fun _ h => recover_eq_after h⟩

theorem uniform_fail (t : Token) (cause : SyntaxError.Cause) :
    Uniform t.kind fun st => st.fail cause t := by
  refine ⟨if t.kind = .semicolon then .start else .skipping, ⟨[], [⟨cause, t.toLexeme⟩]⟩,
    fun h => if_pos h, fun _ => rfl, fun st h => ?_⟩
  have henc : t.kind = .rightBrace → (st.report cause t.toLexeme).enclosing = [] := h
  show (st.report cause t.toLexeme).recover t = _
  rw [recover_eq_after henc]
  rfl

theorem uniform_mode {k : Token.Kind} (h : k ≠ .semicolon) (m : Mode) :
    Uniform k fun st => { st with mode := m } :=
  ⟨m, ⟨[], []⟩, fun h' => absurd h' h, fun _ => rfl, fun _ _ => rfl⟩

theorem uniform_add {k : Token.Kind} (h : k = .semicolon) (s : Stmt) :
    Uniform k fun st => st.add s :=
  ⟨.start, ⟨[s], []⟩, fun _ => rfl, fun h' => absurd h h', fun _ _ => rfl⟩

theorem uniform_operand (goal : Goal) (pending : List Pending) (t : Token) :
    Uniform t.kind fun st => st.operand goal pending t := by
  unfold operand
  split
  · next op h =>
    exact uniform_mode (by rw [← UnaryOp.ofKind?_eq_some_iff.1 h]; cases op <;> nofun) _
  · next value _ h =>
    exact uniform_mode (fun hk => by simp [hk, Literal.ofKind?] at h) _
  · split
    · next h => exact uniform_mode (by simp [h]) _
    · next h => exact uniform_mode (by simp [h]) _
    · exact uniform_fail t _

theorem uniform_conclude (goal : Goal) (pending : List Pending) (e : Expr) (t : Token) :
    Uniform t.kind fun st => st.conclude goal pending e t := by
  unfold conclude
  split
  · split
    · next h => exact uniform_mode (by simp [h]) _
    · exact uniform_fail t _
  · split
    · next h => exact uniform_add h _
    · exact uniform_fail t _

theorem uniform_operator (goal : Goal) (pending : List Pending) (e : Expr) (t : Token) :
    Uniform t.kind fun st => st.operator goal pending e t := by
  unfold operator
  split
  · next op h =>
    exact uniform_mode (by rw [← BinaryOp.ofKind?_eq_some_iff.1 h]; cases op <;> nofun) _
  · split
    · next h => exact uniform_mode (by simp [h]) _
    · -- the misplaced `=` of the expression come before what the token itself does
      obtain ⟨m, p, hsemi, hother, hstep⟩ :=
        uniform_conclude goal (Pending.complete pending e).2.1 (Pending.complete pending e).2.2 t
      refine ⟨m, ⟨[], (Pending.complete pending e).1⟩ ++ p, hsemi, fun h => ?_, fun st h => ?_⟩
      · simp [hother h]
      · rw [← after_after]
        exact hstep (st.after st.mode ⟨[], (Pending.complete pending e).1⟩) h

theorem uniform_begin {t : Token} (h : t.kind ≠ .leftBrace) :
    Uniform t.kind fun st => st.begin t := by
  obtain ⟨x, k⟩ := t
  cases k with
  | leftBrace => exact absurd rfl h
  | rightBrace =>
    -- outside all blocks the brace is an error like any other token that begins nothing
    obtain ⟨m, p, hsemi, hother, hstep⟩ := uniform_fail ⟨x, .rightBrace⟩ .expectedExpression
    refine ⟨m, p, hsemi, hother, fun st henc => ?_⟩
    exact (closeOr_of_enclosing_eq_nil (henc rfl) _).trans (hstep st henc)
  | varWord => exact uniform_mode (k := .varWord) nofun .name
  | printWord => exact uniform_mode (k := .printWord) nofun (.operand .print [])
  | _ => exact uniform_operand .expression [] ⟨x, _⟩

theorem uniform_initializer (name : Lexeme) (t : Token) :
    Uniform t.kind fun st => st.initializer name t := by
  unfold initializer
  split
  · next h => exact uniform_mode (by simp [h]) _
  · next h => exact uniform_add h _
  · exact uniform_fail t _

/-- A token that neither opens nor closes a block does the same wherever it is read. -/
theorem exists_step_eq_after (m : Mode) {t : Token} (h : m = .start → t.kind ≠ .leftBrace) :
    ∃ (m' : Mode) (p : Parsed), (t.kind = .semicolon → m' = .start)
      ∧ (t.kind ≠ .semicolon → p.statements = [])
      ∧ ∀ st : ParseState, st.mode = m → (t.kind = .rightBrace → st.enclosing = []) →
        st.step t = st.after m' p := by
  -- with the mode fixed, a step is the reader for that mode
  suffices huniform : ∃ f : ParseState → ParseState,
      Uniform t.kind f ∧ ∀ st, st.mode = m → st.step t = f st by
    obtain ⟨f, ⟨m', p, hsemi, hother, hf⟩, hstep⟩ := huniform
    exact ⟨m', p, hsemi, hother, fun st hm henc => (hstep st hm).trans (hf st henc)⟩
  cases m with
  | start => exact ⟨_, uniform_begin (h rfl), fun st hm => by simp only [step, hm]⟩
  | name =>
    refine ⟨fun st => st.name t, ?_, fun st hm => by simp only [step, hm]⟩
    unfold name
    split
    · next hk => exact uniform_mode (by simp [hk]) _
    · exact uniform_fail t _
  | initializer x => exact ⟨_, uniform_initializer x t, fun st hm => by simp only [step, hm]⟩
  | operand goal stk => exact ⟨_, uniform_operand goal stk t, fun st hm => by simp only [step, hm]⟩
  | operator goal stk e =>
    exact ⟨_, uniform_operator goal stk e t, fun st hm => by simp only [step, hm]⟩
  | skipping =>
    refine ⟨fun st => st.skip t, ?_, fun st hm => by simp only [step, hm]⟩
    unfold skip
    split
    · -- a left brace does not end the search for the next statement
      next hk => exact uniform_begin fun hl => by simp [hl, Token.Kind.resumes] at hk
    · exact uniform_recover t

/-- In front of a statement a left brace opens a block. -/
theorem step_leftBrace (hm : st.mode = .start) (h : t.kind = .leftBrace) :
    st.step t = ⟨.start, [], st.statements :: st.enclosing, st.errors⟩ := by
  simp only [step, hm, begin, h]

end ParseState

/-! ## Tokens inside a block -/

/-- Read in the mode `m`, in whatever block and after whatever errors, the tokens lead to the mode
`m'`, stay in the block, and add `p`. -/
def Mode.LeadsTo (m : Mode) (tokens : List Token) (m' : Mode) (p : Parsed) : Prop :=
  ∀ st : ParseState, st.mode = m → st.run tokens = st.after m' p

namespace Mode.LeadsTo

variable {m m' m'' : Mode} {ts us : List Token} {p q : Parsed}

theorem nil (m : Mode) : m.LeadsTo [] m ⟨[], []⟩ := fun _ hm => (ParseState.after_empty hm).symm

theorem append (h : m.LeadsTo ts m' p) (h' : m'.LeadsTo us m'' q) :
    m.LeadsTo (ts ++ us) m'' (p ++ q) := by
  intro st hm
  rw [ParseState.run_append, h st hm, h' (st.after m' p) rfl, ParseState.after_after]

/-- A block adds a single statement, whatever stands between its braces. -/
theorem block (l r : Lexeme) (h : Mode.LeadsTo .start ts m p) :
    Mode.LeadsTo .start (⟨l, .leftBrace⟩ :: (ts ++ [⟨r, .rightBrace⟩])) .start
      ⟨[.block p.statements], p.errors ++ m.stopErrors r⟩ := by
  intro st hm
  rw [ParseState.run_cons, ParseState.step_leftBrace hm rfl, ParseState.run_append, h _ rfl]
  refine (ParseState.step_rightBrace m _ st.statements st.enclosing _ r).trans ?_
  simp [ParseState.after]

end Mode.LeadsTo

/-! ## What was finished before -/

namespace ParseState

/-- The second state differs from the first only in what was finished before: it has the
statements of `p` under its outermost block and the errors of `p` before all others. -/
inductive Past (p : Parsed) : ParseState → ParseState → Prop
  | outermost (m : Mode) (ss : List Stmt) (errs : List SyntaxError) :
    Past p ⟨m, ss, [], errs⟩ ⟨m, ss ++ p.statements.reverse, [], errs ++ p.errors.reverse⟩
  | within (m : Mode) (ss : List Stmt) (outer : List (List Stmt)) (bottom : List Stmt)
      (errs : List SyntaxError) :
    Past p ⟨m, ss, outer ++ [bottom], errs⟩
      ⟨m, ss, outer ++ [bottom ++ p.statements.reverse], errs ++ p.errors.reverse⟩

namespace Past

variable {p : Parsed} {st st' : ParseState}

theorem mode (h : Past p st st') : st'.mode = st.mode := by
  cases h <;> rfl

theorem enclosing_eq_nil (h : Past p st st') : st.enclosing = [] → st'.enclosing = [] := by
  cases h with
  | outermost => exact id
  | within => exact fun henc => absurd henc (by simp)

theorem after (h : Past p st st') (m : Mode) (q : Parsed) : Past p (st.after m q) (st'.after m q) := by
  cases h with
  | outermost m₀ ss errs =>
    simp only [ParseState.after, ← List.append_assoc]
    exact .outermost m _ _
  | within m₀ ss outer bottom errs =>
    simp only [ParseState.after, ← List.append_assoc]
    exact .within m _ outer bottom _

/-- No token looks at what was finished before. -/
theorem step (h : Past p st st') (t : Token) : Past p (st.step t) (st'.step t) := by
  -- a brace that opens or closes a block moves statements between the lists; any other token
  -- adds the same to both states
  by_cases hleft : st.mode = .start ∧ t.kind = .leftBrace
  · obtain ⟨hm, hk⟩ := hleft
    rw [step_leftBrace hm hk, step_leftBrace (h.mode.trans hm) hk]
    cases h with
    | outermost m ss errs => exact .within .start [] [] ss errs
    | within m ss outer bottom errs => exact .within .start [] (ss :: outer) bottom errs
  · by_cases hright : t.kind = .rightBrace ∧ st.enclosing ≠ []
    · obtain ⟨x, k⟩ := t
      obtain ⟨rfl, henc⟩ := hright
      cases h with
      | outermost m ss errs => exact absurd rfl henc
      | within m ss outer bottom errs =>
        -- with its last block closed, the state is outside all blocks again
        cases outer with
        | nil =>
          simp only [List.nil_append, step_rightBrace, ← List.append_assoc, ← List.cons_append]
          exact .outermost .start _ _
        | cons before outer =>
          simp only [List.cons_append, step_rightBrace, ← List.append_assoc]
          exact .within .start _ outer bottom _
    · obtain ⟨m', q, -, -, hstep⟩ :=
        exists_step_eq_after st.mode (t := t) fun hm hk => hleft ⟨hm, hk⟩
      have henc : t.kind = .rightBrace → st.enclosing = [] := fun hk =>
        Classical.byContradiction fun hne => hright ⟨hk, hne⟩
      rw [hstep st rfl henc, hstep st' h.mode fun hk => h.enclosing_eq_nil (henc hk)]
      exact h.after m' q

theorem run (h : Past p st st') (ts : List Token) : Past p (st.run ts) (st'.run ts) := by
  induction ts generalizing st st' with
  | nil => exact h
  | cons t ts ih => exact ih (h.step t)

theorem finish (h : Past p st st') {eof : Token} (hk : eof.kind = .eof) :
    st'.finish eof = p ++ st.finish eof := by
  rw [ParseState.finish, ParseState.finish, errors_interrupt _ hk, errors_interrupt _ hk,
    Parsed.append_def]
  cases h <;> simp [ParseState.outermost]

end Past

end ParseState

/-! ## Parsing -/

/-- What is parsed if the statements and errors of the tokens are `p` and the last statement stops
in the mode `m`. -/
theorem Mode.LeadsTo.parse_eq {tokens : List Token} {m : Mode} {p : Parsed}
    (h : Mode.LeadsTo .start (sentence tokens) m p) :
    parse tokens = p ++ ⟨[], m.stopErrors (endToken tokens).toLexeme⟩ := by
  rw [parse]
  rw [sentence] at h
  rw [h .initial rfl, ParseState.finish, ParseState.errors_interrupt _ (kind_endToken tokens),
    Parsed.append_def]
  simp [ParseState.after, ParseState.initial, ParseState.outermost]

section

variable {ts : List Token} {eof : Token}

/-- The first end token ends the sentence. -/
theorem sentence_append_eof (h : eof.isEof = true) (rest : List Token) :
    sentence (ts ++ eof :: rest) = sentence ts := by
  induction ts with
  | nil => simp [sentence, h]
  | cons t ts ih =>
    simp only [sentence] at ih
    simp only [sentence, List.cons_append, List.takeWhile_cons, ih]

theorem endToken_append_eof (h : eof.isEof = true) (rest : List Token) :
    endToken (ts ++ eof :: rest) = (ts.find? Token.isEof).getD eof := by
  rw [endToken, List.find?_append, List.find?_cons_of_pos h]
  cases ts.find? Token.isEof <;> rfl

end

section

variable {ts : List Token} (hts : ∀ t ∈ ts, t.isEof = false) (us : List Token)

include hts

theorem sentence_append : sentence (ts ++ us) = ts ++ sentence us :=
  List.takeWhile_append_of_pos fun t ht => by simp [hts t ht]

theorem endToken_append {us : List Token} (h : us ≠ []) : endToken (ts ++ us) = endToken us := by
  have hfind : ts.find? Token.isEof = none := by simpa using hts
  rw [endToken, endToken, List.find?_append, hfind, Option.none_or,
    List.getLast?_append, List.getLast?_eq_some_getLast h, Option.some_or]

theorem sentence_eq_self : sentence ts = ts := by
  simpa [sentence] using sentence_append hts []

variable {m : Mode} {p : Parsed}

/-- What is missing at the end of the tokens is blamed on the end. -/
theorem Mode.LeadsTo.parse_eq_self (h : Mode.LeadsTo .start ts m p) :
    parse ts = p ++ ⟨[], m.stopErrors (endToken ts).toLexeme⟩ :=
  Mode.LeadsTo.parse_eq ((sentence_eq_self hts).symm ▸ h)

theorem parse_append_eof_eq_finish {eof : Token} (heof : eof.isEof = true) (rest : List Token) :
    parse (ts ++ eof :: rest) = (ParseState.initial.run ts).finish eof := by
  have hfind : ts.find? Token.isEof = none := by simpa using hts
  rw [parse, ← sentence, sentence_append_eof heof, sentence_eq_self hts, endToken_append_eof heof,
    hfind, Option.getD_none]

theorem Mode.LeadsTo.parse_snoc (h : Mode.LeadsTo .start ts m p) {eof : Token}
    (heof : eof.kind = .eof) :
    parse (ts ++ [eof]) = p ++ ⟨[], m.stopErrors eof.toLexeme⟩ := by
  have hisEof : eof.isEof = true := by simp [Token.isEof, heof]
  have hsentence : sentence (ts ++ [eof]) = ts := by
    rw [sentence_append_eof hisEof, sentence_eq_self hts]
  have hend : endToken (ts ++ [eof]) = eof := by
    rw [endToken_append hts (by simp)]
    simp [endToken, hisEof]
  rw [Mode.LeadsTo.parse_eq (hsentence.symm ▸ h), hend]

/-- Tokens that lead back in front of a statement miss nothing. -/
theorem Mode.LeadsTo.parse_complete (h : Mode.LeadsTo .start ts .start p) : parse ts = p := by
  rw [h.parse_eq_self hts, Parsed.append_def]
  simp [Mode.stopErrors, Mode.unfinished]

/-- Tokens that lead back in front of a statement leave no trace in how others are parsed. -/
theorem Mode.LeadsTo.parse_append (h : Mode.LeadsTo .start ts .start p) :
    parse (ts ++ us) = parse ts ++ parse us := by
  rw [h.parse_complete hts]
  by_cases hus : us = []
  · -- nothing follows, and the end token is made up where these tokens end
    subst hus
    rw [List.append_nil, h.parse_complete hts, Parsed.append_def]
    simp [parse, ParseState.run, ParseState.finish, ParseState.interrupt, ParseState.initial,
      ParseState.outermost]
  · have hpast : ParseState.Past p .initial (ParseState.initial.after .start p) := by
      simpa [ParseState.after, ParseState.initial] using ParseState.Past.outermost (p := p) .start [] []
    rw [parse, parse, ← sentence, ← sentence, sentence_append hts, endToken_append hts hus,
      ParseState.run_append, h .initial rfl]
    exact (hpast.run (sentence us)).finish (kind_endToken us)

end

end Lox
