import Lox.Proofs.Parse.Recovery

/-!
# Lox — blocks without an end

At the end of the source each block that is still open is an error, whatever is wrong inside it and
around it. These errors come last, and the statements in the open blocks are lost.

* **`opened`** — tokens that open one block inside another, each behind a balanced sequence.
* **`ParseState.exists_run_opened`** — where they lead.
* **`Balanced.unclosed_law`** — what is parsed if no brace closes the blocks.
-/

namespace Lox

/-- Balanced sequences, each with a left brace behind it that opens a block. -/
def opened : List (List Token × Lexeme) → List Token
  | [] => []
  | (w, l) :: rest => w ++ ⟨l, .leftBrace⟩ :: opened rest

/-- The errors in the sequences in front of the left braces. -/
def errorsBefore (outer : List (List Token × Lexeme)) : List SyntaxError :=
  outer.flatMap fun (w, _) => (parse w).errors

theorem isEof_opened {outer : List (List Token × Lexeme)} (h : ∀ b ∈ outer, Balanced b.1) :
    ∀ t ∈ opened outer, t.isEof = false := by
  induction outer with
  | nil => nofun
  | cons b rest ih =>
    obtain ⟨hw, hrest⟩ := List.forall_mem_cons.1 h
    exact List.forall_mem_append.2
      ⟨hw.isEof_eq_false, List.forall_mem_cons.2 ⟨rfl, ih hrest⟩⟩

/-- What a balanced sequence adds, wherever it stands, is what is parsed of it alone. -/
theorem Balanced.leadsTo {w : List Token} (h : Balanced w) :
    Mode.LeadsTo .start w .start (parse w) := by
  obtain ⟨p, hp⟩ := h.exists_leadsTo
  rwa [hp.parse_complete h.isEof_eq_false]

namespace ParseState

variable {st : ParseState} {outer : List (List Token × Lexeme)}

/-- A left brace behind a balanced sequence puts what the sequence holds aside. -/
theorem run_opening {w : List Token} (hw : Balanced w) (l : Lexeme) (hst : st.mode = .start) :
    st.run (w ++ [⟨l, .leftBrace⟩])
      = ⟨.start, [], ((parse w).statements.reverse ++ st.statements) :: st.enclosing,
          (parse w).errors.reverse ++ st.errors⟩ := by
  have hmode : (st.after .start (parse w)).mode = .start := rfl
  rw [run_append, hw.leadsTo st hst]
  exact step_leftBrace (t := ⟨l, .leftBrace⟩) hmode rfl

/-- Each left brace opens one more block, in front of whose first statement the parser then
stands. -/
theorem exists_run_opened (houter : ∀ b ∈ outer, Balanced b.1) (hst : st.mode = .start) :
    ∃ (ss : List Stmt) (inner : List (List Stmt)), inner.length = outer.length
      ∧ st.run (opened outer)
        = ⟨.start, ss, inner ++ st.enclosing, (errorsBefore outer).reverse ++ st.errors⟩ := by
  induction outer generalizing st with
  | nil => exact ⟨st.statements, [], rfl, (after_empty hst).symm⟩
  | cons b rest ih =>
    obtain ⟨w, l⟩ := b
    obtain ⟨hw, hrest⟩ := List.forall_mem_cons.1 houter
    -- the rest is read from inside the first block
    have hinside : (st.run (w ++ [⟨l, .leftBrace⟩])).mode = .start := by rw [run_opening hw l hst]
    obtain ⟨ss, inner, hlength, hrun⟩ := ih hrest hinside
    refine ⟨ss, inner ++ [(parse w).statements.reverse ++ st.statements], ?_, ?_⟩
    · simp [hlength]
    · have hsplit : opened ((w, l) :: rest) = w ++ [⟨l, .leftBrace⟩] ++ opened rest := by
        simp [opened]
      rw [hsplit, run_append, hrun, run_opening hw l hst]
      simp [errorsBefore]

/-- What is read if the source ends inside the blocks, with a statement that stops in the mode
`m`. -/
theorem finish_opened {first : List Token} (hfirst : Balanced first) (l : Lexeme)
    (houter : ∀ b ∈ outer, Balanced b.1) {us : List Token} {m : Mode} {p : Parsed}
    (hus : Mode.LeadsTo .start us m p) {eof : Token} (heof : eof.kind = .eof) :
    (initial.run (opened ((first, l) :: outer) ++ us)).finish eof
      = ⟨(parse first).statements,
          errorsBefore ((first, l) :: outer) ++ (p.errors ++ m.stopErrors eof.toLexeme)
            ++ List.replicate (outer.length + 1) ⟨.expectedRightBrace, eof.toLexeme⟩⟩ := by
  have hsplit : opened ((first, l) :: outer) ++ us
      = first ++ [⟨l, .leftBrace⟩] ++ (opened outer ++ us) := by
    simp [opened]
  have hinside : (initial.run (first ++ [⟨l, .leftBrace⟩])).mode = .start := by
    rw [run_opening hfirst l rfl]
  obtain ⟨ss, inner, hlength, hrun⟩ := exists_run_opened houter hinside
  rw [hsplit, run_append, run_append, hrun, hus _ rfl, run_opening hfirst l rfl, finish,
    errors_interrupt _ heof]
  -- the statements of the first sequence are those under the outermost block
  simp [after, outermost, initial, errorsBefore, hlength]

end ParseState

/-- **Each unclosed block is reported once, at the end.** If balanced sequences, however malformed,
stand in blocks one inside the other that no brace closes, and some junk stands at the end, then only
the statements in front of the outermost of these blocks are left. The errors are those of the
sequences, each parsed alone, and of the innermost one with the junk, where what is missing at its
end is blamed on the end of the source; and after them one error for each block, blamed on the end of
the source as well. -/
theorem Balanced.unclosed_law {first : List Token} (hfirst : Balanced first) (l : Lexeme)
    {outer : List (List Token × Lexeme)} (houter : ∀ b ∈ outer, Balanced b.1)
    {w j : List Token} (hw : Balanced w) (hj : Junk j) :
    ∃ (errs : List SyntaxError) (missing : Option SyntaxError.Cause),
      (∀ eof : Token, eof.kind = .eof →
        parse (w ++ j ++ [eof])
          = ⟨(parse (w ++ j)).statements, errs ++ missing.toList.map (⟨·, eof.toLexeme⟩)⟩)
      ∧ parse (w ++ j)
          = ⟨(parse (w ++ j)).statements,
              errs ++ missing.toList.map (⟨·, (endToken (w ++ j)).toLexeme⟩)⟩
      ∧ ∀ (source : List Token), source = opened ((first, l) :: outer) ++ w ++ j →
        (∀ (eof : Token) (rest : List Token), eof.kind = .eof →
          parse (source ++ eof :: rest)
            = ⟨(parse first).statements,
                errorsBefore ((first, l) :: outer)
                  ++ (errs ++ missing.toList.map (⟨·, eof.toLexeme⟩))
                  ++ List.replicate (outer.length + 1) ⟨.expectedRightBrace, eof.toLexeme⟩⟩)
        ∧ parse source
            = ⟨(parse first).statements,
                errorsBefore ((first, l) :: outer)
                  ++ (errs ++ missing.toList.map (⟨·, (endToken source).toLexeme⟩))
                  ++ List.replicate (outer.length + 1)
                    ⟨.expectedRightBrace, (endToken source).toLexeme⟩⟩ := by
  obtain ⟨m, errs, hm⟩ := hj.exists_leadsTo .start
  have hlead := hw.leadsTo.append hm
  have hinner : ∀ t ∈ w ++ j, t.isEof = false :=
    List.forall_mem_append.2 ⟨hw.isEof_eq_false, hj.isEof_eq_false⟩
  have hsource : ∀ t ∈ opened ((first, l) :: outer) ++ w ++ j, t.isEof = false := by
    rw [List.append_assoc]
    exact List.forall_mem_append.2
      ⟨isEof_opened (List.forall_mem_cons.2 ⟨hfirst, houter⟩), hinner⟩
  have hopen := hlead.parse_eq_self hinner
  have hstatements : (parse (w ++ j)).statements = (parse w).statements := by simp [hopen]
  have hfinish : ∀ eof : Token, eof.kind = .eof → _ := fun _ =>
    ParseState.finish_opened hfirst l houter hlead
  rw [hstatements]
  refine ⟨(parse w).errors ++ errs ++ m.unfinished.1, m.unfinished.2, fun eof heof => ?_, ?_, ?_⟩
  · rw [hlead.parse_snoc hinner heof, Parsed.append_def]
    simp [Mode.stopErrors]
  · rw [hopen, Parsed.append_def]
    simp [Mode.stopErrors]
  · rintro source rfl
    constructor
    · intro eof rest heof
      rw [parse_append_eof_eq_finish hsource (by simp [Token.isEof, heof]), List.append_assoc,
        hfinish _ heof]
      simp [Mode.stopErrors]
    · rw [parse, ← sentence, sentence_eq_self hsource, List.append_assoc,
        hfinish _ (kind_endToken _)]
      simp [Mode.stopErrors]

/-- One block in the other, with `print ( z` at the end of the inner one. -/
theorem Balanced.unclosed_law_disorder :
    Balanced disorder ∧ Junk dangling
    ∧ ∃ (errs : List SyntaxError) (missing : Option SyntaxError.Cause),
      parse (disorder ++ dangling)
          = ⟨(parse (disorder ++ dangling)).statements,
              errs ++ missing.toList.map (⟨·, (endToken (disorder ++ dangling)).toLexeme⟩)⟩
      ∧ ∀ eof : Token, eof.kind = .eof →
        parse (disorder ++ [⟨⟨"\x7b", 2⟩, .leftBrace⟩, ⟨⟨"\x7b", 2⟩, .leftBrace⟩] ++ disorder
            ++ dangling ++ [eof])
          = ⟨(parse disorder).statements,
              (parse disorder).errors ++ (errs ++ missing.toList.map (⟨·, eof.toLexeme⟩))
                ++ [⟨.expectedRightBrace, eof.toLexeme⟩, ⟨.expectedRightBrace, eof.toLexeme⟩]⟩ := by
  have hdangling : Junk dangling := by decide
  have houter : ∀ b ∈ [(([] : List Token), (⟨"\x7b", 2⟩ : Lexeme))], Balanced b.1 := by
    simpa using Balanced.nil
  obtain ⟨errs, missing, -, hopen, hsource⟩ :=
    Balanced.unclosed_law balanced_disorder ⟨"\x7b", 2⟩ houter balanced_disorder hdangling
  refine ⟨balanced_disorder, hdangling, errs, missing, hopen, fun eof heof => ?_⟩
  have hparse := (hsource _ rfl).1 eof [] heof
  have hnil : (parse []).errors = [] := rfl
  simpa [opened, errorsBefore, hnil] using hparse

end Lox
