import Lox.Proofs.Parse.Local

/-!
# Lox — parsing on from a state

What becomes of the tokens that are left depends on the state that the parser is in. After an error
the state does not matter: the parser goes on in the same way wherever in a statement it broke off.

* **`Terminated`** — tokens up to the end token.
* **`ParseState.result`** — what is parsed, if these tokens are left.
* **`ParseState.resume`** — the same, if there was an error at the first of them.
-/

namespace Lox

/-! ## Sequences with an end token -/

/-- Tokens up to the end token. -/
inductive Terminated : List Token → Prop
  | eof {t : Token} (h : t.kind = .eof) : Terminated [t]
  | cons {t : Token} {ts : List Token} (h : t.kind ≠ .eof) (hts : Terminated ts) :
    Terminated (t :: ts)

namespace Terminated

variable {t : Token} {ts v rest : List Token}

theorem tail (h : Terminated (t :: ts)) (hk : t.kind ≠ .eof) : Terminated ts := by
  cases h with
  | eof hk' => exact absurd hk' hk
  | cons _ hts => exact hts

theorem exists_cons (h : Terminated ts) : ∃ t rest, ts = t :: rest := by
  cases h with
  | eof => exact ⟨_, _, rfl⟩
  | cons => exact ⟨_, _, rfl⟩

theorem ne_nil (h : Terminated ts) : ts ≠ [] := by
  obtain ⟨t, rest, rfl⟩ := h.exists_cons
  exact List.cons_ne_nil t rest

theorem eq_nil_of_eof (h : Terminated (t :: ts)) (hk : t.kind = .eof) : ts = [] := by
  cases h with
  | eof => rfl
  | cons hne => exact absurd hk hne

/-- The end token is the last one, so it is among the tokens that are left. -/
theorem split (h : Terminated (v ++ t :: rest)) :
    (∀ x ∈ v, x.isEof = false) ∧ Terminated (t :: rest) := by
  induction v with
  | nil => exact ⟨nofun, h⟩
  | cons x v ih =>
    have hx : x.kind ≠ .eof := fun hx => by simpa using h.eq_nil_of_eof hx
    obtain ⟨hv, ht⟩ := ih (h.tail hx)
    exact ⟨List.forall_mem_cons.2 ⟨by simpa [Token.isEof] using hx, hv⟩, ht⟩

end Terminated

namespace ParseState

/-! ## What is left -/

/-- What is parsed in the end, if the tokens are read from the state on. -/
def result (st : ParseState) (tokens : List Token) : Parsed :=
  (st.run (sentence tokens)).finish (endToken tokens)

theorem parse_eq_result (tokens : List Token) : parse tokens = initial.result tokens := rfl

variable (st : ParseState) {t : Token} {v rest : List Token}

theorem result_eof (h : t.kind = .eof) : st.result (t :: rest) = st.finish t := by
  simp [result, sentence, endToken, Token.isEof, h, run_nil]

theorem result_append (h : Terminated (v ++ t :: rest)) :
    st.result (v ++ t :: rest) = (st.run v).result (t :: rest) := by
  obtain ⟨hv, -⟩ := h.split
  rw [result, sentence_append hv, endToken_append hv (List.cons_ne_nil t rest), run_append, result]

theorem result_cons (h : Terminated (t :: rest)) (hk : t.kind ≠ .eof) :
    st.result (t :: rest) = (st.step t).result rest := by
  obtain ⟨u, ts, rfl⟩ := (h.tail hk).exists_cons
  exact st.result_append (v := [t]) h

/-! ## After an error -/

/-- What is parsed in the end, if there was an error at the token `t` and `rest` is left after
it. -/
def resume (st : ParseState) (t : Token) (rest : List Token) : Parsed :=
  if t.kind = .eof then st.finish t else (st.recover t).result rest

variable (m m' : Mode) (ss : List Stmt) (enc : List (List Stmt)) (errs errs' : List SyntaxError)

/-- How the parser goes on does not depend on where it broke off. -/
theorem recover_mode (t : Token) :
    recover ⟨m, ss, enc, errs⟩ t = recover ⟨m', ss, enc, errs⟩ t := by
  simp only [recover, closeOr, discard]

/-- A token that is a fatal error is one at the end of the source as well, except in front of a
statement. -/
theorem result_of_step_eq_fail (h : Terminated (t :: rest)) {cause : SyntaxError.Cause}
    (hm : t.kind = .eof → m ≠ .start ∧ m ≠ .skipping)
    (hstep : step ⟨m, ss, enc, errs⟩ t = fail ⟨m, ss, enc, errs'⟩ cause t) :
    result ⟨m, ss, enc, errs⟩ (t :: rest)
      = resume ⟨.skipping, ss, enc, ⟨cause, t.toLexeme⟩ :: errs'⟩ t rest := by
  by_cases hk : t.kind = .eof
  · obtain ⟨hstart, hskip⟩ := hm hk
    have hinterrupt : interrupt ⟨m, ss, enc, errs⟩ t = step ⟨m, ss, enc, errs⟩ t := by
      cases m <;> first | rfl | contradiction
    rw [result_eof _ hk, resume, if_pos hk, finish, hinterrupt, hstep, errors_fail]
    rfl
  · rw [result_cons _ h hk, hstep, resume, if_neg hk]
    exact congrArg (·.result rest) (recover_mode m .skipping ss enc (_ :: errs') t)

/-! ## The search for the next statement -/

/-- Where the search ends, the next statement begins. -/
theorem result_skipping_eq_start (h : Terminated (t :: rest))
    (hk : t.kind.resumes = true ∨ t.kind = .eof ∨ t.kind = .rightBrace ∧ enc ≠ []) :
    result ⟨.skipping, ss, enc, errs⟩ (t :: rest) = result ⟨.start, ss, enc, errs⟩ (t :: rest) := by
  by_cases heof : t.kind = .eof
  · rw [result_eof _ heof, result_eof _ heof]
    rfl
  · rw [result_cons _ h heof, result_cons _ h heof]
    obtain ⟨x, k⟩ := t
    rcases hk with hk | hk | ⟨hk, hopen⟩
    · simp only [step, skip, if_pos hk]
      cases k <;> rfl
    · exact absurd hk heof
    · -- the brace closes the block in either state
      obtain rfl : k = .rightBrace := hk
      obtain ⟨before, outer, rfl⟩ := List.exists_cons_of_ne_nil hopen
      rfl

/-- A closing brace of a block is not passed over. -/
theorem resume_rightBrace (h : Terminated (t :: rest)) (hk : t.kind = .rightBrace)
    (hopen : enc ≠ []) :
    resume ⟨.skipping, ss, enc, errs⟩ t rest = result ⟨.start, ss, enc, errs⟩ (t :: rest) := by
  have hne : t.kind ≠ .eof := by simp [hk]
  rw [← result_skipping_eq_start ss enc errs h (.inr (.inr ⟨hk, hopen⟩)), resume, if_neg hne,
    result_cons _ h hne]
  simp only [step, skip, hk, Token.Kind.resumes, Bool.false_eq_true, if_false]

/-- The mode in which the search goes on after a token of the kind `k`. -/
def modeAfter (k : Token.Kind) : Mode := if k = .semicolon then .start else .skipping

/-- Any other token is passed over. -/
theorem resume_other (hne : t.kind ≠ .eof) (hbrace : t.kind = .rightBrace → enc = []) :
    resume ⟨.skipping, ss, enc, errs⟩ t rest = result ⟨modeAfter t.kind, ss, enc, errs⟩ rest := by
  rw [resume, if_neg hne, recover_eq_after hbrace]
  rfl

theorem result_skipping_other (h : Terminated (t :: rest)) (hres : t.kind.resumes = false)
    (hne : t.kind ≠ .eof) (hbrace : t.kind = .rightBrace → enc = []) :
    result ⟨.skipping, ss, enc, errs⟩ (t :: rest)
      = result ⟨modeAfter t.kind, ss, enc, errs⟩ rest := by
  rw [← resume_other ss enc errs hne hbrace, resume, if_neg hne, result_cons _ h hne]
  simp only [step, skip, hres, Bool.false_eq_true, if_false]

/-! ## Statements -/

/-- A statement that no other token begins is an expression. -/
theorem result_start_expression (h : Terminated (t :: rest)) (hne : t.kind ≠ .eof)
    (hvar : t.kind ≠ .varWord) (hprint : t.kind ≠ .printWord) (hleft : t.kind ≠ .leftBrace)
    (hright : t.kind = .rightBrace → enc = []) :
    result ⟨.start, ss, enc, errs⟩ (t :: rest)
      = result ⟨.operand .expression [], ss, enc, errs⟩ (t :: rest) := by
  rw [result_cons _ h hne, result_cons _ h hne]
  congr 1
  obtain ⟨x, k⟩ := t
  cases k with
  | varWord | printWord | leftBrace => contradiction
  | rightBrace =>
    obtain rfl := hright rfl
    rfl
  | _ => rfl

/-- A block that the source ends in is an error there, as is each block around it. -/
theorem result_unclosed (before : List Stmt) (h : t.kind = .eof) :
    result ⟨.start, ss, before :: enc, errs⟩ (t :: rest)
      = resume ⟨.skipping, before, enc, ⟨.expectedRightBrace, t.toLexeme⟩ :: errs⟩ t rest := by
  rw [result_eof _ h, resume, if_pos h]
  cases enc with
  | nil => simp [finish, outermost, interrupt]
  | cons ss' outer =>
    simp [finish, outermost, interrupt, List.replicate_succ,
      List.getLast?_eq_some_getLast (List.cons_ne_nil ss' outer)]

end ParseState

end Lox
