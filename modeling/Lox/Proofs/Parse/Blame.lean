import Lox.Proofs.Parse.Earliest
import Lox.Proofs.Relabel.Numbered
import Mathlib.Data.List.Basic
import Mathlib.Data.List.Forall2
import Mathlib.Data.List.TakeWhile

/-!
# Lox — which tokens errors blame

Each error blames a token that is wrong in the way the error says. After a fatal error the parser
passes over the token that it blames, or it stands in front of a closing brace that it can read. So
the next fatal error is at a later token, and no token is blamed twice. The end token alone is never
passed over: there the last statement may be unfinished, and then each block around it as well.

* **`SyntaxError.Cause.Suits`** — the kinds of tokens that an error of a cause can blame.
* **`ParseState.Accounted`** — the errors so far blame tokens that were read, in their order.
* **`ParseState.Accounted.step`**, **`ParseState.Accounted.run`** — reading keeps this so.
* **`placedErrors`** — the errors with the places of the tokens that they blame.
* **`blame_law`** — where errors are reported, and in which order.
-/

namespace Lox

/-! ## Causes and kinds -/

/-- Whether an error of the cause can blame a token of the kind. -/
def SyntaxError.Cause.Suits : SyntaxError.Cause → Token.Kind → Prop
  | .expectedExpression, k => k.beginsExpression = false
  | .expectedRightParen, k => k ≠ .rightParen
  | .expectedSemicolon _, k => k ≠ .semicolon
  | .expectedVariableName, k => k ≠ .identifier
  | .expectedRightBrace, k => k = .eof
  | .invalidAssignmentTarget, k => k = .equal

/-- Whether an error of the cause costs a statement. -/
def SyntaxError.Cause.isFatal (cause : SyntaxError.Cause) : Bool := cause ≠ .invalidAssignmentTarget

/-! ## Assignments without their values -/

/-- The `=` of an assignment that waits for its value. -/
def Pending.sign? : Pending → Option Lexeme
  | .assign _ sign => some sign
  | .unary _ _ | .binary _ _ _ | .group => none

/-- The `=` of the assignments on the stack that wait for their values. -/
def Pending.signs (stk : List Pending) : List Lexeme := stk.filterMap sign?

/-- The `=` of the assignments in the expression that is being read. -/
def Mode.signs : Mode → List Lexeme
  | .operand _ stk | .operator _ stk _ => Pending.signs stk
  | .start | .name | .initializer _ | .skipping => []

namespace Pending

/-- Operators between operands are applied, and no assignments. -/
theorem signs_reduce (q : Nat) (stk : List Pending) (e : Expr) :
    signs (reduce q stk e).1 = signs stk := by
  fun_induction reduce q stk e with
  | case1 op sign rest e ih => exact ih
  | case2 left op sign rest e h ih => exact ih
  | case3 | case4 | case5 | case6 => rfl

theorem signs_complete_subset (stk : List Pending) (e : Expr) :
    signs (complete stk e).2.1 ⊆ signs stk := by
  fun_induction complete stk e with
  | case1 op sign rest e ih => exact ih
  | case2 left op sign rest e ih => exact ih
  | case3 name sign rest e ih => exact List.Subset.trans ih (List.subset_cons_self _ _)
  | case4 target sign rest e _ errors stk' whole h ih =>
    rw [h] at ih
    exact List.Subset.trans ih (List.subset_cons_self _ _)
  | case5 | case6 => exact List.Subset.refl _

/-- The errors in a complete expression blame the `=` of its assignments. -/
theorem blamed_mem_signs {stk : List Pending} {e : Expr} :
    ∀ err ∈ (complete stk e).1, err.blamed ∈ signs stk := by
  fun_induction complete stk e with
  | case1 op sign rest e ih => exact ih
  | case2 left op sign rest e ih => exact ih
  | case3 name sign rest e ih => exact fun err herr => List.mem_cons_of_mem _ (ih err herr)
  | case4 target sign rest e _ errors stk' whole h ih =>
    rw [h] at ih
    exact List.forall_mem_cons.2
      ⟨List.mem_cons_self, fun err herr => List.mem_cons_of_mem _ (ih err herr)⟩
  | case5 | case6 => exact fun err herr => absurd herr List.not_mem_nil

end Pending

/-! ## The account of the errors -/

namespace ParseState

/-- Whether the errors of the state are accounted for by the tokens `v` that were read. -/
structure Accounted (st : ParseState) (v : List Token) : Prop where
  /-- Each error blames one of the tokens, of a kind that its cause can blame. -/
  suits : ∀ e ∈ st.errors, ∃ t ∈ v, t.toLexeme = e.blamed ∧ e.cause.Suits t.kind
  /-- The fatal errors blame different tokens, in the order in which they were read. -/
  ordered : ((st.errors.reverse.filter (·.isFatal)).map (·.blamed)).Sublist (v.map (·.toLexeme))
  /-- Each assignment that waits for its value was begun by one of the tokens. -/
  signs : ∀ x ∈ st.mode.signs, ⟨x, .equal⟩ ∈ v

theorem signs_recover (st : ParseState) (t : Token) : (st.recover t).mode.signs = [] := by
  unfold recover closeOr discard
  split
  · split
    · rfl
    · split <;> rfl
  · split <;> rfl

namespace Accounted

variable {st st' : ParseState} {v : List Token} {goal : Goal} {stk : List Pending} {e : Expr}

theorem initial : Accounted .initial [] := ⟨nofun, List.Sublist.slnil, nofun⟩

/-- A token that is no error is read. -/
theorem keep (h : st.Accounted v) {t : Token} (herrors : st'.errors = st.errors)
    (hsigns : ∀ x ∈ st'.mode.signs, x ∈ st.mode.signs ∨ t = ⟨x, .equal⟩) :
    st'.Accounted (v ++ [t]) := by
  refine ⟨fun e he => ?_, ?_, fun x hx => ?_⟩
  · rw [herrors] at he
    obtain ⟨u, hu, hblamed⟩ := h.suits e he
    exact ⟨u, List.mem_append_left _ hu, hblamed⟩
  · rw [herrors, List.map_append]
    exact h.ordered.trans (List.sublist_append_left _ _)
  · rcases hsigns x hx with hx | rfl
    · exact List.mem_append_left _ (h.signs x hx)
    · exact List.mem_append_right _ (List.mem_singleton_self _)

/-- A token that is read between statements, or in a statement that was just begun. -/
theorem keep_nil (h : st.Accounted v) (t : Token) (herrors : st'.errors = st.errors)
    (hsigns : st'.mode.signs = []) : st'.Accounted (v ++ [t]) :=
  h.keep herrors fun _ hx => absurd (hsigns ▸ hx) List.not_mem_nil

/-- A fatal error blames the token that is read. -/
theorem fail (h : st.Accounted v) {t : Token} {cause : SyntaxError.Cause}
    (hfatal : cause.isFatal = true) (hsuits : cause.Suits t.kind) :
    (st.fail cause t).Accounted (v ++ [t]) := by
  refine ⟨?_, ?_, ?_⟩
  · rw [errors_fail]
    refine List.forall_mem_cons.2 ⟨⟨t, by simp, rfl, hsuits⟩, fun e he => ?_⟩
    obtain ⟨u, hu, hblamed⟩ := h.suits e he
    exact ⟨u, List.mem_append_left _ hu, hblamed⟩
  · have hlast : [(⟨cause, t.toLexeme⟩ : SyntaxError)].filter (·.isFatal)
        = [⟨cause, t.toLexeme⟩] := List.filter_cons_of_pos hfatal
    rw [errors_fail, List.reverse_cons, List.filter_append, List.map_append, hlast, List.map_append]
    exact h.ordered.append (List.Sublist.refl _)
  · rw [ParseState.fail, signs_recover]
    exact fun x hx => absurd hx List.not_mem_nil

/-- When an expression is complete, the errors at its assignments are recorded. -/
theorem complete {ss : List Stmt} {enc : List (List Stmt)} {errs : List SyntaxError}
    (h : Accounted ⟨.operator goal stk e, ss, enc, errs⟩ v) :
    Accounted ⟨.operator goal stk e, ss, enc, (Pending.complete stk e).1.reverse ++ errs⟩ v := by
  refine ⟨fun err herr => ?_, ?_, h.signs⟩
  · rcases List.mem_append.1 herr with herr | herr
    · have hmem := List.mem_reverse.1 herr
      have hcause := Pending.cause_of_mem_complete err hmem
      refine ⟨_, h.signs _ (Pending.blamed_mem_signs err hmem), rfl, ?_⟩
      rw [hcause]
      exact rfl
    · exact h.suits err herr
  · have hnone : (Pending.complete stk e).1.filter (·.isFatal) = [] := by
      refine List.filter_eq_nil_iff.2 fun err herr => ?_
      simp [SyntaxError.isFatal, Pending.cause_of_mem_complete err herr]
    rw [List.reverse_append, List.reverse_reverse, List.filter_append, hnone, List.append_nil]
    exact h.ordered

/-! ## Reading a token -/

theorem operand (h : st.Accounted v) (hstk : Pending.signs stk ⊆ st.mode.signs) (t : Token) :
    (st.operand goal stk t).Accounted (v ++ [t]) := by
  unfold ParseState.operand
  split
  · exact h.keep rfl fun x hx => .inl (hstk hx)
  · exact h.keep rfl fun x hx => .inl (hstk hx)
  · next hop hliteral =>
    split
    · exact h.keep rfl fun x hx => .inl (hstk hx)
    · exact h.keep rfl fun x hx => .inl (hstk hx)
    · next hname hparen =>
      refine h.fail rfl ?_
      -- what is no operator, literal, name or parenthesis begins no expression
      obtain ⟨y, k⟩ := t
      cases k <;> first | rfl | contradiction

theorem conclude (h : st.Accounted v) (hstk : Pending.signs stk ⊆ st.mode.signs) (t : Token) :
    (st.conclude goal stk e t).Accounted (v ++ [t]) := by
  unfold ParseState.conclude
  split
  · split
    · exact h.keep rfl fun x hx => .inl (hstk hx)
    · next hk => exact h.fail rfl hk
  · split
    · exact h.keep_nil t rfl rfl
    · next hk => exact h.fail rfl hk

theorem operator {ss : List Stmt} {enc : List (List Stmt)} {errs : List SyntaxError}
    (h : Accounted ⟨.operator goal stk e, ss, enc, errs⟩ v) (t : Token) :
    (ParseState.step ⟨.operator goal stk e, ss, enc, errs⟩ t).Accounted (v ++ [t]) := by
  obtain ⟨y, k⟩ := t
  cases hop : BinaryOp.ofKind? k with
  | some op =>
    obtain rfl := BinaryOp.ofKind?_eq_some_iff.1 hop
    rw [step_operator_binary]
    refine h.keep rfl fun x hx => .inl ?_
    have hmem : x ∈ Pending.signs (Pending.reduce op.precedence stk e).1 := hx
    rwa [Pending.signs_reduce] at hmem
  | none =>
    by_cases hk : k = .equal
    · subst hk
      rw [step_operator_equal]
      refine h.keep rfl fun x hx => ?_
      rcases List.mem_cons.1 hx with rfl | hx
      · exact .inr rfl
      · have hmem : x ∈ Pending.signs (Pending.reduce 0 stk e).1 := hx
        rw [Pending.signs_reduce] at hmem
        exact .inl hmem
    · rw [step_operator_other goal stk e ss enc errs hop hk]
      exact h.complete.conclude (Pending.signs_complete_subset stk e) ⟨y, k⟩

theorem begin (h : st.Accounted v) (t : Token) : (st.begin t).Accounted (v ++ [t]) := by
  unfold ParseState.begin
  split
  · exact h.keep_nil t rfl rfl
  · exact h.keep_nil t rfl rfl
  · exact h.keep_nil t rfl rfl
  · next hk =>
    unfold closeOr
    split
    · exact h.keep_nil t rfl rfl
    · exact h.fail rfl (by rw [hk]; rfl)
  · exact h.operand (List.nil_subset _) t

/-- **Reading a token keeps the account.** -/
theorem step (h : st.Accounted v) (t : Token) : (st.step t).Accounted (v ++ [t]) := by
  obtain ⟨mode, ss, enc, errs⟩ := st
  cases mode with
  | start => exact h.begin t
  | name =>
    simp only [ParseState.step, ParseState.name]
    split
    · exact h.keep_nil t rfl rfl
    · next hk => exact h.fail rfl hk
  | initializer x =>
    simp only [ParseState.step, ParseState.initializer]
    split
    · exact h.keep_nil t rfl rfl
    · exact h.keep_nil t rfl rfl
    · next hk => exact h.fail rfl hk
  | operand goal stk => exact h.operand (List.Subset.refl _) t
  | operator goal stk e => exact h.operator t
  | skipping =>
    simp only [ParseState.step, ParseState.skip]
    split
    · exact h.begin t
    · exact h.keep_nil t (errors_recover _ t) (signs_recover _ t)

theorem run (h : st.Accounted v) (ts : List Token) : (st.run ts).Accounted (v ++ ts) := by
  induction ts generalizing st v with
  | nil =>
    rw [List.append_nil]
    exact h
  | cons t ts ih =>
    have hrest := ih (h.step t)
    rwa [List.append_assoc] at hrest

end Accounted

end ParseState

/-! ## The errors of a token sequence -/

/-- The tokens that count, and the end token after them. -/
def withEnd (tokens : List Token) : List Token := sentence tokens ++ [endToken tokens]

theorem isEof_endToken (tokens : List Token) : (endToken tokens).isEof = true := by
  simpa [Token.isEof] using kind_endToken tokens

theorem sentence_concat_eof {ts : List Token} (hts : ∀ t ∈ ts, t.isEof = false) {eof : Token}
    (heof : eof.isEof = true) : sentence (ts ++ [eof]) = ts := by
  rw [sentence_append hts]
  simp [sentence, heof]

theorem endToken_concat_eof {ts : List Token} (hts : ∀ t ∈ ts, t.isEof = false) {eof : Token}
    (heof : eof.isEof = true) : endToken (ts ++ [eof]) = eof := by
  rw [endToken_append hts (List.cons_ne_nil _ _)]
  simp [endToken, heof]

/-- No other tokens matter. -/
theorem parse_withEnd (tokens : List Token) : parse (withEnd tokens) = parse tokens := by
  rw [parse, parse, ← sentence, ← sentence, withEnd,
    sentence_concat_eof isEof_eq_false_of_mem_sentence (isEof_endToken tokens),
    endToken_concat_eof isEof_eq_false_of_mem_sentence (isEof_endToken tokens)]

/-- What is missing at the end suits the end token. -/
theorem Mode.suits_unfinished (mode : Mode) : ∀ cause ∈ mode.unfinished.2, cause.Suits .eof := by
  cases mode with
  | operator goal stk e =>
    simp only [unfinished, Option.mem_some_iff, forall_eq', Goal.missing]
    split
    · show Token.Kind.eof ≠ .rightParen
      decide
    · show Token.Kind.eof ≠ .semicolon
      decide
  | _ => simp [unfinished, SyntaxError.Cause.Suits, Token.Kind.beginsExpression]

/-- The errors of an expression that is unfinished blame the `=` of its assignments. -/
theorem Mode.blamed_unfinished (mode : Mode) :
    ∀ e ∈ mode.unfinished.1, e.blamed ∈ mode.signs := by
  cases mode with
  | operator goal stk e => exact Pending.blamed_mem_signs
  | _ => exact nofun

/-- At the end, the fatal error is about what is missing of a statement. -/
theorem Mode.filter_isFatal_stopErrors (mode : Mode) (blamed : Lexeme) :
    (mode.stopErrors blamed).filter (·.isFatal) = mode.unfinished.2.toList.map (⟨·, blamed⟩) := by
  have hmisplaced : mode.unfinished.1.filter (·.isFatal) = [] := by
    refine List.filter_eq_nil_iff.2 fun e he => ?_
    simp [SyntaxError.isFatal, cause_of_mem_unfinished _ e he]
  rw [stopErrors, List.filter_append, hmisplaced, List.nil_append, List.filter_eq_self]
  intro e he
  obtain ⟨cause, hcause, rfl⟩ := List.mem_map.1 he
  have hfatal : cause ≠ .invalidAssignmentTarget := by
    rintro rfl
    exact mode.unfinished_ne_invalidAssignmentTarget (Option.mem_toList.1 hcause)
  simpa [SyntaxError.isFatal] using hfatal

section

variable (tokens : List Token)

theorem accounted_sentence :
    (ParseState.initial.run (sentence tokens)).Accounted (sentence tokens) :=
  ParseState.Accounted.initial.run (sentence tokens)

/-- **Each error blames a token that is wrong in the way the error says.** -/
theorem suits_of_mem_errors :
    ∀ e ∈ (parse tokens).errors, ∃ t ∈ withEnd tokens, t.toLexeme = e.blamed
      ∧ e.cause.Suits t.kind := by
  have haccount := accounted_sentence tokens
  have hend : ∀ cause : SyntaxError.Cause, cause.Suits .eof → ∃ t ∈ withEnd tokens,
      t.toLexeme = (endToken tokens).toLexeme ∧ cause.Suits t.kind := fun cause hcause =>
    ⟨endToken tokens, by simp [withEnd], rfl, kind_endToken tokens ▸ hcause⟩
  intro e he
  rw [errors_parse, Mode.stopErrors, List.mem_append, List.mem_append, List.mem_append,
    List.mem_reverse] at he
  rcases he with hread | (hcomplete | hmissing) | hblocks
  · obtain ⟨t, ht, hblamed⟩ := haccount.suits e hread
    exact ⟨t, List.mem_append_left _ ht, hblamed⟩
  · have hblamed := Mode.blamed_unfinished _ e hcomplete
    refine ⟨_, List.mem_append_left _ (haccount.signs _ hblamed), rfl, ?_⟩
    rw [cause_of_mem_unfinished _ e hcomplete]
    exact rfl
  · obtain ⟨cause, hcause, rfl⟩ := List.mem_map.1 hmissing
    exact hend cause (Mode.suits_unfinished _ cause (Option.mem_toList.1 hcause))
  · rw [List.eq_of_mem_replicate hblocks]
    exact hend _ rfl

/-- The fatal errors are those of the run, what is missing of a statement at the end, and a brace
for each block that is open there. -/
theorem filter_isFatal_errors_parse :
    (parse tokens).errors.filter (·.isFatal)
      = (ParseState.initial.run (sentence tokens)).errors.reverse.filter (·.isFatal)
        ++ ((ParseState.initial.run (sentence tokens)).mode.unfinished.2.toList.map
            (⟨·, (endToken tokens).toLexeme⟩)
          ++ List.replicate (ParseState.initial.run (sentence tokens)).enclosing.length
            ⟨.expectedRightBrace, (endToken tokens).toLexeme⟩) := by
  rw [errors_parse, List.filter_append, List.filter_append, Mode.filter_isFatal_stopErrors]
  congr 2
  exact List.filter_eq_self.2 fun e he => by rw [List.eq_of_mem_replicate he]; rfl

/-- **Fatal errors blame different tokens, in their order**, and then the end token. There, at most
the first one is about a statement, and the others are about open blocks. -/
theorem exists_fatal_errors :
    ∃ before atEnd, (parse tokens).errors.filter (·.isFatal) = before ++ atEnd
      ∧ (before.map (·.blamed)).Sublist ((sentence tokens).map (·.toLexeme))
      ∧ (∀ e ∈ atEnd, e.blamed = (endToken tokens).toLexeme)
      ∧ ∀ e ∈ atEnd.tail, e.cause = .expectedRightBrace := by
  refine ⟨_, _, filter_isFatal_errors_parse tokens, (accounted_sentence tokens).ordered, ?_, ?_⟩
  · intro e he
    rcases List.mem_append.1 he with he | he
    · obtain ⟨cause, -, rfl⟩ := List.mem_map.1 he
      rfl
    · rw [List.eq_of_mem_replicate he]
  · intro e he
    generalize (ParseState.initial.run (sentence tokens)).mode.unfinished.2 = missing at he
    cases missing with
    | none => rw [List.eq_of_mem_replicate (List.mem_of_mem_tail he)]
    | some cause => rw [List.eq_of_mem_replicate he]

end

/-! ## Places -/

/-- An error of the cause that blames the token at the place. -/
structure SyntaxError.Placed where
  place : Nat
  cause : SyntaxError.Cause
deriving DecidableEq

/-- The syntax errors of a token sequence with the places of the tokens that they blame. The tokens
are numbered, and each error blames a lexeme with its number. -/
def placedErrors (tokens : List Token) : List SyntaxError.Placed :=
  (parse (numbered (withEnd tokens))).errors.map fun e => ⟨e.blamed.line, e.cause⟩

/-- Whether `q` blames a later token than `p` does, or `q` is about an open block and both blame the
end token, which is at the place `last`. -/
def SyntaxError.Placed.Follows (last : Nat) (q p : SyntaxError.Placed) : Prop :=
  p.place < q.place ∨ p.place = last ∧ q = ⟨last, .expectedRightBrace⟩

section

variable (tokens : List Token)

theorem numbered_withEnd :
    numbered (withEnd tokens) = numbered (sentence tokens)
      ++ [⟨⟨(endToken tokens).text, (sentence tokens).length⟩, .eof⟩] := by
  rw [withEnd, numbered_concat, kind_endToken]

theorem sentence_numbered_withEnd :
    sentence (numbered (withEnd tokens)) = numbered (sentence tokens) := by
  rw [numbered_withEnd]
  exact sentence_concat_eof (isEof_of_mem_numbered isEof_eq_false_of_mem_sentence) rfl

theorem endToken_numbered_withEnd :
    endToken (numbered (withEnd tokens))
      = ⟨⟨(endToken tokens).text, (sentence tokens).length⟩, .eof⟩ := by
  rw [numbered_withEnd]
  exact endToken_concat_eof (isEof_of_mem_numbered isEof_eq_false_of_mem_sentence) rfl

/-- Numbered tokens are as many, and end in the same way. -/
theorem withEnd_numbered_withEnd :
    withEnd (numbered (withEnd tokens)) = numbered (withEnd tokens) := by
  rw [withEnd, sentence_numbered_withEnd, endToken_numbered_withEnd, ← numbered_withEnd]

/-- **The places say what is blamed.** -/
theorem forall₂_placedErrors :
    List.Forall₂ (fun e p => ∃ t, (withEnd tokens)[p.place]? = some t ∧ e = ⟨p.cause, t.toLexeme⟩
      ∧ p.cause.Suits t.kind) (parse tokens).errors (placedErrors tokens) := by
  have heof : ∃ t ∈ withEnd tokens, t.isEof = true :=
    ⟨endToken tokens, by simp [withEnd], isEof_endToken tokens⟩
  rw [← parse_withEnd, parse_numbered heof, Parsed.relabel, placedErrors, List.forall₂_map_left_iff,
    List.forall₂_map_right_iff, List.forall₂_same]
  intro e he
  obtain ⟨n, hn, hblamed, hsuits⟩ := suits_of_mem_errors _ e he
  rw [withEnd_numbered_withEnd] at hn
  obtain ⟨t, ht, hkind, hrelined⟩ := getElem?_line_of_mem_numbered hn
  rw [hblamed] at ht hrelined
  exact ⟨t, ht, congrArg (SyntaxError.mk e.cause) hrelined, hkind ▸ hsuits⟩

/-- **Each fatal error follows the one before it.** -/
theorem follows_placedErrors :
    ((placedErrors tokens).filter (·.cause.isFatal)).Pairwise
      fun p q => q.Follows (sentence tokens).length p := by
  obtain ⟨before, atEnd, herrors, hbefore, hend, htail⟩ :=
    exists_fatal_errors (numbered (withEnd tokens))
  rw [sentence_numbered_withEnd] at hbefore
  rw [endToken_numbered_withEnd] at hend
  -- the places before the end are some of those of the sentence
  have hplaces : (before.map (·.blamed.line)).Sublist (List.range (sentence tokens).length) := by
    have hlines := hbefore.map Lexeme.line
    rw [List.map_map, List.map_map] at hlines
    rw [← map_line_numbered]
    exact hlines
  have hearly : ∀ e ∈ before, e.blamed.line < (sentence tokens).length := fun e he =>
    List.mem_range.1 (hplaces.subset (List.mem_map_of_mem he))
  have hlate : ∀ e ∈ atEnd, e.blamed.line = (sentence tokens).length := fun e he => by
    rw [hend e he]
  have hfatal : (placedErrors tokens).filter (·.cause.isFatal)
      = (before ++ atEnd).map fun e => ⟨e.blamed.line, e.cause⟩ := by
    rw [← herrors, placedErrors, List.filter_map]
    rfl
  rw [hfatal, List.pairwise_map, List.pairwise_append]
  refine ⟨?_, ?_, fun e he e' he' => .inl ?_⟩
  · have hincreasing := List.pairwise_lt_range.sublist hplaces
    exact (List.pairwise_map.1 hincreasing).imp .inl
  · cases atEnd with
    | nil => exact .nil
    | cons e rest =>
      have hbrace : ∀ e' ∈ rest, SyntaxError.Placed.mk e'.blamed.line e'.cause
          = ⟨(sentence tokens).length, .expectedRightBrace⟩ := fun e' he' => by
        rw [htail e' he', hlate e' (List.mem_cons_of_mem e he')]
      have hfirst := hlate e List.mem_cons_self
      refine List.pairwise_cons.2 ⟨fun e' he' => .inr ⟨hfirst, hbrace e' he'⟩, ?_⟩
      exact List.pairwise_of_forall_mem_list fun e' he' e'' he'' =>
        .inr ⟨hlate e' (List.mem_cons_of_mem e he'), hbrace e'' he''⟩
  · rw [hlate e' he']
    exact hearly e he

/-- The end token is on no earlier line than the tokens before it. -/
theorem pairwise_line_withEnd (h : tokens.Pairwise (·.line ≤ ·.line)) :
    (withEnd tokens).Pairwise (·.line ≤ ·.line) := by
  cases hfind : tokens.find? Token.isEof with
  | some eof =>
    obtain ⟨heof, before, after, rfl, hbefore⟩ := List.find?_eq_some_iff_append.1 hfind
    have hnone : ∀ t ∈ before, t.isEof = false := by simpa using hbefore
    have hsentence : sentence (before ++ eof :: after) = before := by
      rw [sentence_append hnone]
      simp [sentence, heof]
    rw [withEnd, hsentence, endToken, hfind]
    exact h.sublist ((List.cons_sublist_cons.2 (List.nil_sublist after)).append_left before)
  | none =>
    have hnone : ∀ t ∈ tokens, t.isEof = false := by simpa using hfind
    have hsentence : sentence tokens = tokens := List.takeWhile_eq_self_iff.2 (by simpa using hnone)
    rw [withEnd, hsentence, endToken, hfind, List.pairwise_append]
    refine ⟨h, List.pairwise_singleton _ _, fun t ht eof heof => ?_⟩
    rw [List.mem_singleton.1 heof]
    rcases List.eq_nil_or_concat' tokens with rfl | ⟨front, last, rfl⟩
    · cases ht
    · have hlast := (List.pairwise_append.1 h).2.2
      rw [List.getLast?_concat]
      rcases List.mem_append.1 ht with ht | ht
      · exact hlast t ht last (List.mem_singleton_self last)
      · exact (congrArg (·.line) (List.mem_singleton.1 ht)).le

/-- If no token is on an earlier line than the one before it, then no fatal error is either. -/
theorem pairwise_line_fatal_errors (h : tokens.Pairwise (·.line ≤ ·.line)) :
    ((parse tokens).errors.filter (·.isFatal)).Pairwise (·.blamed.line ≤ ·.blamed.line) := by
  obtain ⟨before, atEnd, herrors, hbefore, hend, -⟩ := exists_fatal_errors tokens
  obtain ⟨hread, -, hlast⟩ := List.pairwise_append.1 (pairwise_line_withEnd tokens h)
  rw [herrors, List.pairwise_append]
  refine ⟨?_, ?_, fun e he e' he' => ?_⟩
  · have hlexemes : ((sentence tokens).map (·.toLexeme)).Pairwise (·.line ≤ ·.line) :=
      List.pairwise_map.2 hread
    exact (hlexemes.sublist hbefore).of_map (·.blamed) fun _ _ hle => hle
  · refine List.pairwise_of_forall_mem_list fun e he e' he' => ?_
    rw [hend e he, hend e' he']
  · obtain ⟨t, ht, hblamed⟩ := List.mem_map.1 (hbefore.subset (List.mem_map_of_mem he))
    rw [← hblamed, hend e' he']
    exact hlast t ht _ (List.mem_singleton_self _)

/-- **Where errors are reported, and in which order.** Each error carries the line and the location
of the token at its place, which is wrong in the way the error says. The fatal errors blame later
and later tokens, and at last the end token: there, all but the first are about open blocks. So no
other token is blamed twice, and if no token is on an earlier line than the one before it, then no
fatal error is either. -/
theorem blame_law :
    List.Forall₂ (fun e p => ∃ t, (withEnd tokens)[p.place]? = some t ∧ p.cause.Suits t.kind
        ∧ e = ⟨p.cause, t.toLexeme⟩ ∧ e.diagnostic = ⟨t.line, t.location, p.cause.message⟩)
      (parse tokens).errors (placedErrors tokens)
    ∧ ((placedErrors tokens).filter (·.cause.isFatal)).Pairwise
      (fun p q => q.Follows (sentence tokens).length p)
    ∧ ((placedErrors tokens).filter (·.cause.isFatal)).Pairwise
      (fun p q => p.place = q.place → p.place = (sentence tokens).length)
    ∧ (tokens.Pairwise (·.line ≤ ·.line) →
      ((parse tokens).errors.filter (·.isFatal)).Pairwise (·.blamed.line ≤ ·.blamed.line)) := by
  refine ⟨?_, follows_placedErrors tokens, ?_, fun h => pairwise_line_fatal_errors tokens h⟩
  · refine (forall₂_placedErrors tokens).imp fun e p => ?_
    rintro ⟨t, ht, rfl, hsuits⟩
    exact ⟨t, ht, hsuits, rfl, rfl⟩
  · refine (follows_placedErrors tokens).imp fun {p q} hfollows hplace => ?_
    rcases hfollows with hlater | ⟨hlast, -⟩
    · exact absurd hplace hlater.ne
    · exact hlast

end

/-- The tokens of `nil = a b;`, of a block with only `print` in it on the next line, and of an
opening brace and `var` on the last. -/
def brokenLines : List Token :=
  [⟨⟨"nil", 1⟩, .nilWord⟩, ⟨⟨"=", 1⟩, .equal⟩, ⟨⟨"a", 1⟩, .identifier⟩, ⟨⟨"b", 1⟩, .identifier⟩,
   ⟨⟨";", 1⟩, .semicolon⟩, ⟨⟨"\x7b", 2⟩, .leftBrace⟩, ⟨⟨"print", 2⟩, .printWord⟩,
   ⟨⟨"\x7d", 2⟩, .rightBrace⟩, ⟨⟨"\x7b", 3⟩, .leftBrace⟩, ⟨⟨"var", 3⟩, .varWord⟩, Token.eof 3]

theorem blame_law_brokenLines :
    placedErrors brokenLines
        = [⟨1, .invalidAssignmentTarget⟩, ⟨3, .expectedSemicolon .expression⟩,
           ⟨7, .expectedExpression⟩, ⟨10, .expectedVariableName⟩, ⟨10, .expectedRightBrace⟩]
      ∧ (sentence brokenLines).length = 10
      ∧ brokenLines.Pairwise (·.line ≤ ·.line)
      ∧ ((parse brokenLines).errors.filter (·.isFatal)).Pairwise
        (·.blamed.line ≤ ·.blamed.line) := by
  have hsorted : brokenLines.Pairwise (·.line ≤ ·.line) := by decide
  obtain ⟨-, -, -, hlines⟩ := blame_law brokenLines
  exact ⟨by decide, by decide, hsorted, hlines hsorted⟩

end Lox
