import Lox.Proofs.Grammar.Strict
import Lox.Proofs.Parse.Reading
import Lox.Proofs.Parse.Recovery
import Lox.Proofs.Parse.Viable

/-!
# Lox — the statement at which a semicolon is missing

After an error the parser looks for a word that begins a statement, but it looks behind the token
that it blames. If the semicolon after an expression is missing in front of a statement, then the
first word of that statement is blamed, so the statement is passed over up to its own semicolon. If
any other token is blamed, the next statement is read.

* **`Mode.leadsTo_skipping`** — what is passed over in the search.
* **`Mode.LeadsTo.of_resumes`** — where the search ends.
* **`Goal.Begun.leadsTo_skipping`** — the token behind an expression without its semicolon.
* **`lost_statement_law`** — which statement is lost.
-/

namespace Lox

/-! ## What is passed over -/

/-- Tokens that the search after an error passes over: none of them ends a statement, begins or ends
a block, or begins a statement. -/
def PassedOver (tokens : List Token) : Prop :=
  ∀ t ∈ tokens, t.kind.isJunk = true ∧ t.kind.resumes = false

/-- The nonterminals for what stands inside a statement. -/
def Nonterminal.IsInner : Nonterminal → Prop
  | .declarations | .declaration => False
  | .initializer | .level _ | .operations _ => True

theorem UnaryOp.resumes_kind (op : UnaryOp) : op.kind.resumes = false := by
  cases op <;> rfl

theorem BinaryOp.resumes_kind (op : BinaryOp) : op.kind.resumes = false := by
  cases op <;> rfl

theorem Literal.resumes_kind (l : Literal) : l.kind.resumes = false := by
  unfold Literal.kind
  split <;> rfl

/-- No word that begins a statement stands in an expression. -/
theorem Derivation.passedOver {g : Grammar} {n : Nonterminal} (d : Derivation g n)
    (hn : n.IsInner) : PassedOver d.yield := by
  induction d with
  | nil | cons | declare | print | expression | block => exact hn.elim
  | absent | done => exact nofun
  | present sign e ih => exact List.forall_mem_cons.2 ⟨⟨rfl, rfl⟩, ih trivial⟩
  | assign h name sign value ih =>
    exact List.forall_mem_cons.2 ⟨⟨rfl, rfl⟩, List.forall_mem_cons.2 ⟨⟨rfl, rfl⟩, ih trivial⟩⟩
  | assignTo h target sign value ihtarget ih =>
    exact List.forall_mem_append.2
      ⟨ihtarget trivial, List.forall_mem_cons.2 ⟨⟨rfl, rfl⟩, ih trivial⟩⟩
  | plain e ih => exact ih trivial
  | binary h first rest ihfirst ihrest =>
    exact List.forall_mem_append.2 ⟨ihfirst trivial, ihrest trivial⟩
  | apply op h sign right rest ihright ihrest =>
    exact List.forall_mem_cons.2 ⟨⟨op.isJunk_kind, op.resumes_kind⟩,
      List.forall_mem_append.2 ⟨ihright trivial, ihrest trivial⟩⟩
  | unary op sign operand ih =>
    exact List.forall_mem_cons.2 ⟨⟨op.isJunk_kind, op.resumes_kind⟩, ih trivial⟩
  | atom e ih => exact ih trivial
  | literal value text =>
    exact List.forall_mem_cons.2 ⟨⟨value.isJunk_kind, value.resumes_kind⟩, nofun⟩
  | reference name => exact List.forall_mem_cons.2 ⟨⟨rfl, rfl⟩, nofun⟩
  | group opening e closing ih =>
    exact List.forall_mem_cons.2 ⟨⟨rfl, rfl⟩,
      List.forall_mem_append.2 ⟨ih trivial, List.forall_mem_cons.2 ⟨⟨rfl, rfl⟩, nofun⟩⟩⟩

/-- Behind the word that a declaration or a print begins with, only its semicolon is not passed
over. -/
theorem Derivation.exists_passedOver {g : Grammar} (d : Derivation g .declaration) {t : Token}
    {ts : List Token} (hd : d.yield = t :: ts) (ht : t.kind.resumes = true) :
    ∃ j semicolon, ts = j ++ [⟨semicolon, .semicolon⟩] ∧ PassedOver j := by
  cases d with
  | declare word name initial semicolon =>
    obtain ⟨-, rfl⟩ := List.cons.inj hd
    exact ⟨⟨name, .identifier⟩ :: initial.yield, semicolon, rfl,
      List.forall_mem_cons.2 ⟨⟨rfl, rfl⟩, initial.passedOver trivial⟩⟩
  | print word e semicolon =>
    obtain ⟨-, rfl⟩ := List.cons.inj hd
    exact ⟨e.yield, semicolon, rfl, e.passedOver trivial⟩
  | expression e semicolon =>
    -- an expression does not begin with such a word
    obtain ⟨t', u, hy, -⟩ := head_level e 0 rfl
    rw [yield, hy] at hd
    obtain ⟨rfl, -⟩ := List.cons.inj hd
    have hpassed := (e.passedOver trivial t' (by rw [hy]; exact List.mem_cons_self)).2
    rw [ht] at hpassed
    cases hpassed
  | block opening body closing =>
    obtain ⟨rfl, -⟩ := List.cons.inj hd
    cases ht

/-! ## The search for the next statement -/

/-- The search goes on behind a token that ends neither a statement nor a block. -/
theorem ParseState.recover_of_isJunk {st : ParseState} {t : Token} (h : t.kind.isJunk = true) :
    st.recover t = { st with mode := .skipping } := by
  have hbrace : t.kind ≠ .rightBrace := fun hk => by simp [hk, Token.Kind.isJunk] at h
  have hsemi : t.kind ≠ .semicolon := fun hk => by simp [hk, Token.Kind.isJunk] at h
  rw [recover_eq_after fun hk => absurd hk hbrace, if_neg hsemi]
  rfl

/-- What is passed over leaves nothing behind. -/
theorem Mode.leadsTo_skipping {j : List Token} (h : PassedOver j) :
    Mode.LeadsTo .skipping j .skipping ⟨[], []⟩ := by
  induction j with
  | nil => exact .nil .skipping
  | cons t ts ih =>
    obtain ⟨⟨hjunk, hresumes⟩, hts⟩ := List.forall_mem_cons.1 h
    have hfirst : Mode.LeadsTo .skipping [t] .skipping ⟨[], []⟩ := by
      intro st hm
      have hstep : st.step t = st.recover t := by
        simp only [ParseState.step, hm, ParseState.skip, hresumes, Bool.false_eq_true, if_false]
      rw [ParseState.run_cons, hstep, ParseState.recover_of_isJunk hjunk]
      rfl
    exact hfirst.append (ih hts)

/-- A semicolon ends the search. -/
theorem Mode.leadsTo_semicolon (semicolon : Lexeme) :
    Mode.LeadsTo .skipping [⟨semicolon, .semicolon⟩] .start ⟨[], []⟩ := by
  intro st hm
  rw [ParseState.run_cons, ParseState.step, hm]
  rfl

/-- In the search, a word that begins a statement is read as in front of a statement. -/
theorem ParseState.step_skipping {st : ParseState} {t : Token} (hm : st.mode = .skipping)
    (ht : t.kind.resumes = true) : st.step t = { st with mode := .start }.step t := by
  obtain ⟨m, ss, enc, errs⟩ := st
  obtain rfl : m = .skipping := hm
  obtain ⟨x, k⟩ := t
  cases k <;> first | rfl | cases ht

/-- The search ends in front of a word that begins a statement. -/
theorem Mode.LeadsTo.of_resumes {t : Token} {ts : List Token} {m : Mode} {p : Parsed}
    (h : Mode.LeadsTo .start (t :: ts) m p) (ht : t.kind.resumes = true) :
    Mode.LeadsTo .skipping (t :: ts) m p := by
  intro st hm
  rw [ParseState.run_cons, ParseState.step_skipping hm ht]
  exact h { st with mode := .start } rfl

/-! ## The missing semicolon -/

/-- The kinds of tokens behind an expression that neither continue nor end it. -/
def Token.Kind.IsMisplaced (k : Token.Kind) : Prop :=
  k.isJunk = true ∧ ¬ Nonterminal.assignment.Continues k

/-- Words that begin a statement do not continue an expression. -/
theorem Token.Kind.isMisplaced_of_resumes {k : Token.Kind} (h : k.resumes = true) :
    k.IsMisplaced := by
  refine ⟨?_, ?_⟩
  · cases k <;> first | rfl | cases h
  · rintro (⟨op, hop, -⟩ | ⟨-, rfl⟩)
    · rw [← BinaryOp.ofKind?_eq_some_iff.1 hop, op.resumes_kind] at h
      cases h
    · cases h

open ParseState in
/-- Behind an expression without its semicolon, the next token is blamed and passed over. -/
theorem Derivation.run_misplaced (e : Derivation .relaxed .assignment) (goal : Goal)
    (ss : List Stmt) (enc : List (List Stmt)) (errs : List SyntaxError) {t : Token}
    (ht : t.kind.IsMisplaced) :
    run ⟨.operand goal [], ss, enc, errs⟩ (e.yield ++ [t])
      = ⟨.skipping, ss, enc,
          ⟨.expectedSemicolon goal.ending, t.toLexeme⟩ :: (e.misplaced.reverse ++ errs)⟩ := by
  obtain ⟨hjunk, hends⟩ := ht
  have hop : BinaryOp.ofKind? t.kind = none := by
    cases hop : BinaryOp.ofKind? t.kind with
    | none => rfl
    | some op => exact absurd (.inl ⟨op, hop, Nat.zero_le _⟩) hends
  have hequal : t.kind ≠ .equal := fun hk => hends (.inr ⟨rfl, hk⟩)
  have hsemi : t.kind ≠ .semicolon := fun hk => by simp [hk, Token.Kind.isJunk] at hjunk
  obtain ⟨stk, e', hrun⟩ := e.reads.conclude (Pending.stops_nil 0) (fun _ => rfl) goal ss enc errs
    hop hequal
  have hfail : ∀ st : ParseState,
      st.conclude goal [] e.tree t = st.fail (.expectedSemicolon goal.ending) t :=
    fun _ => if_neg hsemi
  rw [hrun, hfail, fail, recover_of_isJunk hjunk]
  rfl

open ParseState in
/-- The tokens that say what an expression is for lead in front of it. -/
theorem Goal.Begun.run_eq {goal : Goal} {u : List Token} (hu : goal.Begun u) {g : Grammar}
    (e : Derivation g .assignment) (rest : List Token) (ss : List Stmt) (enc : List (List Stmt))
    (errs : List SyntaxError) :
    run ⟨.start, ss, enc, errs⟩ (u ++ (e.yield ++ rest))
      = run ⟨.operand goal [], ss, enc, errs⟩ (e.yield ++ rest) := by
  cases hu with
  | print word => rfl
  | declaration word name sign => rfl
  | expression =>
    obtain ⟨t, v, hy, ht⟩ := e.head_level 0 rfl
    rw [hy, List.nil_append, List.cons_append, run_cons, step_start_expression _ _ _ ht,
      ← run_cons]

theorem Goal.Begun.leadsTo_skipping {goal : Goal} {u : List Token} (hu : goal.Begun u)
    (e : Derivation .strict .assignment) {t : Token} (ht : t.kind.IsMisplaced) :
    Mode.LeadsTo .start (u ++ e.yield ++ [t]) .skipping
      ⟨[], [⟨.expectedSemicolon goal.ending, t.toLexeme⟩]⟩ := by
  rintro ⟨m, ss, enc, errs⟩ rfl
  rw [List.append_assoc, hu.run_eq e, ← e.yield_relax, e.relax.run_misplaced goal ss enc errs ht,
    e.misplaced_relax]
  rfl

/-- A statement of the grammar is read from wherever it stands. -/
theorem Derivation.leadsTo_declaration (d : Derivation .strict .declaration) :
    Mode.LeadsTo .start d.yield .start ⟨[d.tree], []⟩ := by
  rintro ⟨m, ss, enc, errs⟩ rfl
  have hrun : ParseState.run ⟨.start, ss, enc, errs⟩ d.relax.yield = _ := d.relax.reads ss enc errs
  rw [d.yield_relax, d.tree_relax, d.misplaced_relax] at hrun
  exact hrun

/-! ## Which statement is lost -/

section

variable {goal : Goal} {u : List Token} (hu : goal.Begun u) (e : Derivation .strict .assignment)
  (d : Derivation .strict .declaration) {t : Token} {ts : List Token} (hd : d.yield = t :: ts)
  (ht : t.kind.resumes = true)

include hu hd ht

theorem Goal.Begun.leadsTo_lost :
    Mode.LeadsTo .start (u ++ e.yield ++ d.yield) .start
      ⟨[], [⟨.expectedSemicolon goal.ending, t.toLexeme⟩]⟩ := by
  obtain ⟨j, semicolon, rfl, hj⟩ := d.exists_passedOver hd ht
  have hblamed := hu.leadsTo_skipping e (Token.Kind.isMisplaced_of_resumes ht)
  have hlead := hblamed.append (.append (Mode.leadsTo_skipping hj) (Mode.leadsTo_semicolon semicolon))
  rw [hd]
  simpa [Parsed.append_def] using hlead

theorem Goal.Begun.leadsTo_kept {x : Token} {j : List Token} (hx : x.kind.IsMisplaced)
    (hj : PassedOver j) :
    Mode.LeadsTo .start (u ++ e.yield ++ x :: j ++ d.yield) .start
      ⟨[d.tree], [⟨.expectedSemicolon goal.ending, x.toLexeme⟩]⟩ := by
  have hread := d.leadsTo_declaration
  rw [hd] at hread
  have hblamed := hu.leadsTo_skipping e hx
  have hlead := hblamed.append ((Mode.leadsTo_skipping hj).append (hread.of_resumes ht))
  rw [hd]
  simpa [Parsed.append_def] using hlead

end

theorem Goal.Begun.junk {goal : Goal} {u : List Token} (hu : goal.Begun u) : Junk u := by
  cases hu with
  | print word => exact List.forall_mem_cons.2 ⟨rfl, nofun⟩
  | expression => exact nofun
  | declaration word name sign =>
    exact List.forall_mem_cons.2
      ⟨rfl, List.forall_mem_cons.2 ⟨rfl, List.forall_mem_cons.2 ⟨rfl, nofun⟩⟩⟩

/-- **A statement is lost if its first word is blamed.** If the semicolon after an expression is
missing in front of a declaration or a print, then this is the only error, blamed on the first word
of that statement, and the statement is passed over: nothing is left of it, and what comes after it is
parsed as if it were alone. If tokens stand in between that neither continue the expression nor begin
a statement behind the first of them, then the first of them is blamed, and the statement is kept. -/
theorem lost_statement_law {goal : Goal} {u : List Token} (hu : goal.Begun u)
    (e : Derivation .strict .assignment) (d : Derivation .strict .declaration) {t : Token}
    {ts : List Token} (hd : d.yield = t :: ts) (ht : t.kind = .varWord ∨ t.kind = .printWord) :
    parse (u ++ e.yield ++ d.yield)
      = ⟨[], [⟨.expectedSemicolon goal.ending, t.toLexeme⟩]⟩
    ∧ (∀ rest, parse (u ++ e.yield ++ d.yield ++ rest)
      = parse (u ++ e.yield ++ d.yield) ++ parse rest)
    ∧ ∀ x j, x.kind.IsMisplaced → PassedOver j →
      parse (u ++ e.yield ++ x :: j ++ d.yield)
        = ⟨[d.tree], [⟨.expectedSemicolon goal.ending, x.toLexeme⟩]⟩ := by
  have hresumes : t.kind.resumes = true := by
    rcases ht with h | h <;> rw [h] <;> rfl
  have hbegin : ∀ t ∈ u ++ e.yield, t.isEof = false :=
    List.forall_mem_append.2 ⟨hu.junk.isEof_eq_false, Junk.isEof_eq_false e.shape⟩
  have hend : ∀ t ∈ d.yield, t.isEof = false := Balanced.isEof_eq_false d.shape
  have hlost := hu.leadsTo_lost e d hd hresumes
  have htokens := List.forall_mem_append.2 ⟨hbegin, hend⟩
  refine ⟨hlost.parse_complete htokens, hlost.parse_append htokens, fun x j hx hj => ?_⟩
  have hbetween : Junk (x :: j) := List.forall_mem_cons.2 ⟨hx.1, fun t ht => (hj t ht).1⟩
  refine (hu.leadsTo_kept e d hd hresumes hx hj).parse_complete ?_
  exact List.forall_mem_append.2
    ⟨List.forall_mem_append.2 ⟨hbegin, hbetween.isEof_eq_false⟩, hend⟩

/-- The tokens of `var a = true`. -/
def firstDeclaration : List Token :=
  [⟨⟨"var", 1⟩, .varWord⟩, ⟨⟨"a", 1⟩, .identifier⟩, ⟨⟨"=", 1⟩, .equal⟩, ⟨⟨"true", 1⟩, .trueWord⟩]

/-- The tokens of `var b = nil;`. -/
def secondDeclaration : List Token :=
  [⟨⟨"var", 2⟩, .varWord⟩, ⟨⟨"b", 2⟩, .identifier⟩, ⟨⟨"=", 2⟩, .equal⟩, ⟨⟨"nil", 2⟩, .nilWord⟩,
   ⟨⟨";", 2⟩, .semicolon⟩]

/-- The second declaration is lost behind the first one, and kept if `class` stands in between. -/
theorem lost_statement_law_secondDeclaration :
    parse (firstDeclaration ++ secondDeclaration)
      = ⟨[], [⟨.expectedSemicolon .variableDeclaration, ⟨"var", 2⟩⟩]⟩
    ∧ parse (firstDeclaration ++ ⟨⟨"class", 1⟩, .classWord⟩ :: secondDeclaration)
      = ⟨[.declaration ⟨"b", 2⟩ (some (.literal .nil))],
          [⟨.expectedSemicolon .variableDeclaration, ⟨"class", 1⟩⟩]⟩ := by
  obtain ⟨e, he, -⟩ := (Derives.literal (g := .strict) (.bool true) ⟨"true", 1⟩).toAssignment
  obtain ⟨d, hd, htree⟩ := Derives.declareAs ⟨"var", 2⟩ ⟨"b", 2⟩ ⟨"=", 2⟩
    (Derives.literal (g := .strict) .nil ⟨"nil", 2⟩).toAssignment ⟨";", 2⟩
  obtain ⟨hlost, -, hkept⟩ := lost_statement_law
    (.declaration ⟨"var", 1⟩ ⟨"a", 1⟩ ⟨"=", 1⟩) e d hd (.inl rfl)
  have hclass := hkept ⟨⟨"class", 1⟩, .classWord⟩ [] (Token.Kind.isMisplaced_of_resumes rfl) nofun
  rw [he, hd] at hlost hclass
  rw [htree] at hclass
  exact ⟨hlost, hclass⟩

/-- The tokens of `true print nil;`. -/
def unendedOperand : List Token :=
  [⟨⟨"true", 1⟩, .trueWord⟩, ⟨⟨"print", 1⟩, .printWord⟩, ⟨⟨"nil", 1⟩, .nilWord⟩,
   ⟨⟨";", 1⟩, .semicolon⟩]

/-- Not every statement that begins where a semicolon is missing is kept. -/
theorem not_forall_statement_kept :
    ¬ ∀ (goal : Goal) (u : List Token), goal.Begun u →
      ∀ (e : Derivation .strict .assignment) (d : Derivation .strict .declaration) (t : Token)
        (ts : List Token), d.yield = t :: ts → t.kind = .varWord ∨ t.kind = .printWord →
        parse (u ++ e.yield ++ d.yield)
          = ⟨[d.tree], [⟨.expectedSemicolon goal.ending, t.toLexeme⟩]⟩ := by
  intro h
  obtain ⟨e, he, -⟩ := (Derives.literal (g := .strict) (.bool true) ⟨"true", 1⟩).toAssignment
  obtain ⟨d, hd, htree⟩ := Derives.print ⟨"print", 1⟩
    (Derives.literal (g := .strict) .nil ⟨"nil", 1⟩).toAssignment ⟨";", 1⟩
  have hkept := h .expression [] .expression e d _ _ hd (.inr rfl)
  have hparse : parse unendedOperand = ⟨[], [⟨.expectedSemicolon .expression, ⟨"print", 1⟩⟩]⟩ := by
    decide
  rw [he, hd, htree] at hkept
  have hstatements := congrArg Parsed.statements (hparse.symm.trans hkept)
  cases hstatements

end Lox
