import Lox.Proofs.Descent.Expression

/-!
# Lox — statements by recursive descent

A call for a statement comes to an end and has passed over a token then, if it was made at a token
at which one of the two loops makes it: not at the end token, and inside a block not at a closing
brace. Without an error it has passed over the statement. With an error, the tokens up to the error
may be none at all, but then the search for the next statement passes over the first one: only a
closing brace inside a block would stop it there.

* **`Descent.exists_takes_synchronize`** — the search for the next statement.
* **`Descent.StatementOutcome`** — the two ways in which a call for a statement ends.
* **`Descent.declares`** — every call for a statement ends, with the recovery from the error in it.
-/

namespace Lox.Descent

open ParseState

variable {depth : Nat} {t : Token} {ts rest : List Token}

/-! ## The search for the next statement -/

/-- Whether a statement may be looked for at a token of the kind `k`. -/
def Admits (depth : Nat) (k : Token.Kind) : Prop := k ≠ .eof ∧ (0 < depth → k ≠ .rightBrace)

theorem takes_openBlocks : Takes (fun _ => openBlocks) depth ts ts depth [] :=
  .stay fun _ _ _ _ => rfl

/-- Whether the search for the next statement ends in front of a token of the kind `k`. -/
def EndsSearch (depth : Nat) (k : Token.Kind) : Prop :=
  k.resumes = true ∨ k = .eof ∨ k = .rightBrace ∧ 0 < depth

theorem takes_skipFrom_semicolon :
    Takes (fun bound => skipFrom bound .semicolon) depth ts ts () [] := by
  refine .of_succ ?_
  simp only [skipFrom]
  exact .ite_pos trivial (.pure ())

theorem takes_skipFrom_end {previous : Token.Kind} (hprevious : previous ≠ .semicolon)
    (h : EndsSearch depth t.kind) :
    Takes (fun bound => skipFrom bound previous) depth (t :: rest) (t :: rest) () [] := by
  refine .of_succ ?_
  simp only [skipFrom]
  refine .ite_neg hprevious (takes_peek.bind (takes_openBlocks.bind (.ite_pos ?_ (.pure ()))))
  simpa [EndsSearch, or_assoc] using h

theorem takes_skipFrom_pass {previous : Token.Kind} (hprevious : previous ≠ .semicolon)
    (h : ¬ EndsSearch depth t.kind) {left : List Token}
    (hrest : Takes (fun bound => skipFrom bound t.kind) depth rest left () []) :
    Takes (fun bound => skipFrom bound previous) depth (t :: rest) left () [] := by
  have hne : t.kind ≠ .eof := fun heof => h (.inr (.inl heof))
  refine .of_succ ?_
  simp only [skipFrom]
  refine .ite_neg hprevious (takes_peek.bind (takes_openBlocks.bind (.ite_neg ?_ ?_)))
  · simpa [EndsSearch, or_assoc] using h
  · exact (takes_advance hne).bind hrest

theorem exists_takes_skipFrom (depth : Nat) {ts : List Token} (hts : Terminated ts)
    (previous : Token.Kind) :
    ∃ left, Terminated left ∧ Takes (fun bound => skipFrom bound previous) depth ts left () []
      ∧ ∀ ss enc errs, enc.length = depth →
        result ⟨modeAfter previous, ss, enc, errs⟩ ts = result ⟨.start, ss, enc, errs⟩ left := by
  obtain ⟨t, rest, rfl⟩ := hts.exists_cons
  by_cases hprevious : previous = .semicolon
  · subst hprevious
    exact ⟨_, hts, takes_skipFrom_semicolon, fun _ _ _ _ => rfl⟩
  · have hmode : modeAfter previous = .skipping := if_neg hprevious
    rw [hmode]
    by_cases h : EndsSearch depth t.kind
    · refine ⟨_, hts, takes_skipFrom_end hprevious h, fun ss enc errs henc => ?_⟩
      refine result_skipping_eq_start ss enc errs hts (h.imp_right (.imp_right (.imp_right ?_)))
      rintro hdepth rfl
      simp [← henc] at hdepth
    · have hne : t.kind ≠ .eof := fun heof => h (.inr (.inl heof))
      obtain ⟨left, hleft, htakes, hresult⟩ := exists_takes_skipFrom depth (hts.tail hne) t.kind
      refine ⟨left, hleft, takes_skipFrom_pass hprevious h htakes, fun ss enc errs henc => ?_⟩
      rw [← hresult ss enc errs henc]
      refine result_skipping_other ss enc errs hts ?_ hne fun hk => ?_
      · exact Bool.eq_false_iff.2 fun hres => h (.inl hres)
      · refine List.eq_nil_of_length_eq_zero ?_
        have hdepth : ¬ 0 < depth := fun hdepth => h (.inr (.inr ⟨hk, hdepth⟩))
        omega
termination_by ts.length

/-- **The search for the next statement ends**, and it passes over a token if there was an error at
a token at which a statement was looked for. -/
theorem exists_takes_synchronize (depth : Nat) (hts : Terminated (t :: rest)) :
    ∃ left, Terminated left ∧ (Admits depth t.kind → left.length < (t :: rest).length)
      ∧ Takes synchronize depth (t :: rest) left () []
      ∧ ∀ ss enc errs, enc.length = depth →
        resume ⟨.skipping, ss, enc, errs⟩ t rest = result ⟨.start, ss, enc, errs⟩ left := by
  have hnil {enc : List (List Stmt)} (henc : enc.length = depth) (hdepth : ¬ 0 < depth) :
      enc = [] :=
    List.eq_nil_of_length_eq_zero (by omega)
  by_cases hbrace : 0 < depth ∧ t.kind = .rightBrace
  · obtain ⟨hdepth, hk⟩ := hbrace
    refine ⟨_, hts, fun hadmits => absurd hk (hadmits.2 hdepth), ?_, fun ss enc errs henc => ?_⟩
    · exact takes_openBlocks.bind (takes_peek.bind (.ite_pos (by simp [hdepth, hk]) (.pure ())))
    · exact resume_rightBrace ss enc errs hts hk fun hnil => by simp [hnil] at henc; omega
  · by_cases heof : t.kind = .eof
    · obtain rfl := hts.eq_nil_of_eof heof
      refine ⟨_, hts, fun hadmits => absurd heof hadmits.1, ?_, fun ss enc errs henc => ?_⟩
      · have hend : EndsSearch depth t.kind := .inr (.inl heof)
        exact takes_openBlocks.bind (takes_peek.bind (.ite_neg (by simp [heof])
          ((takes_advance_eof heof).bind (takes_skipFrom_end (by simp [heof]) hend))))
      · rw [resume, if_pos heof, result_eof _ heof]
        rfl
    · obtain ⟨left, hleft, htakes, hresult⟩ := exists_takes_skipFrom depth (hts.tail heof) t.kind
      have hle := htakes.isSuffix.length_le
      refine ⟨left, hleft, fun _ => Nat.lt_succ_of_le hle, ?_, fun ss enc errs henc => ?_⟩
      · exact takes_openBlocks.bind (takes_peek.bind (.ite_neg (by simpa using hbrace)
          ((takes_advance heof).bind htakes)))
      · rw [← hresult ss enc errs henc]
        exact resume_other ss enc errs heof fun hk => hnil henc fun hdepth => hbrace ⟨hdepth, hk⟩

/-! ## Statements -/

/-- With `ts` in front of it, the call has read a statement and stopped after it, or else it has
stopped at an error. The parser comes to the same from the states `st`. -/
inductive StatementOutcome (st : List Stmt → List (List Stmt) → List SyntaxError → ParseState)
    (depth : Nat) (call : Nat → Call (Except SyntaxError Stmt)) (ts : List Token) : Prop
  | ok (s : Stmt) (rest : List Token) (new : List SyntaxError) (hrest : Terminated rest)
      (hlt : rest.length < ts.length) (htakes : Takes call depth ts rest (.ok s) new)
      (hresult : ∀ ss enc errs, enc.length = depth →
        (st ss enc errs).result ts = result ⟨.start, s :: ss, enc, new.reverse ++ errs⟩ rest)
  | error (e : SyntaxError) (t : Token) (rest : List Token) (new : List SyntaxError)
      (hrest : Terminated (t :: rest)) (htakes : Takes call depth ts (t :: rest) (.error e) new)
      (hresult : ∀ ss enc errs, enc.length = depth →
        (st ss enc errs).result ts
          = resume ⟨.skipping, ss, enc, e :: (new.reverse ++ errs)⟩ t rest)

/-- A call that comes to the same after more tokens. -/
theorem StatementOutcome.of {st st' : List Stmt → List (List Stmt) → List SyntaxError → ParseState}
    {call call' : Nat → Call (Except SyntaxError Stmt)} {v : List Token}
    (h : StatementOutcome st depth call ts)
    (htakes : ∀ {left r new}, Takes call depth ts left r new →
      Takes call' depth (v ++ ts) left r new)
    (hresult : ∀ ss enc errs, enc.length = depth →
      (st' ss enc errs).result (v ++ ts) = (st ss enc errs).result ts) :
    StatementOutcome st' depth call' (v ++ ts) := by
  cases h with
  | ok s rest new hrest hlt hcall hok =>
    have hle : ts.length ≤ (v ++ ts).length := by simp
    exact .ok s rest new hrest (by omega) (htakes hcall) fun ss enc errs henc =>
      (hresult ss enc errs henc).trans (hok ss enc errs henc)
  | error e t rest new hrest hcall herror =>
    exact .error e t rest new hrest (htakes hcall) fun ss enc errs henc =>
      (hresult ss enc errs henc).trans (herror ss enc errs henc)

theorem outcome_finish (goal : Goal) (hts : Terminated ts) :
    StatementOutcome (ParseState.mk (.operand goal [])) depth (fun bound => (finish bound goal).run)
      ts := by
  have hmode : Before 0 (.operand goal []) := .operand goal (Pending.stops_nil 0)
  have houtcome : LevelOutcome 0 depth assignment ts := outcome_assignment hts
  cases houtcome with
  | error e t rest new htakes hstuck =>
    obtain ⟨v, rfl⟩ := htakes.isSuffix
    exact .error e t rest new hts.split.2 htakes.error_bind fun ss enc errs _ =>
      hstuck _ ss enc errs hmode
  | ok d t rest hyield hends htakes =>
    subst hyield
    obtain ⟨-, ht⟩ := hts.split
    by_cases hk : t.kind = .semicolon
    · obtain ⟨semicolon, _⟩ := t
      subst hk
      have hrest := ht.tail (by simp)
      refine .ok (goal.statement d.tree) rest d.misplaced hrest (by simp; omega)
        (htakes.ok_bind_quiet ((takes_expect semicolon (by simp) _).ok_bind (.ok _)))
        fun ss enc errs _ => ?_
      obtain ⟨u, r, rfl⟩ := hrest.exists_cons
      have hsplit : d.yield ++ ⟨semicolon, .semicolon⟩ :: u :: r
          = (d.yield ++ [⟨semicolon, .semicolon⟩]) ++ u :: r := by simp
      rw [hsplit] at hts ⊢
      rw [result_append _ hts, d.reads.run_semicolon]
    · have hmissing (st : ParseState) (e : Expr) :
          st.conclude goal [] e t = st.fail (.expectedSemicolon goal.ending) t := by
        simp only [conclude, if_neg hk]
      have hstuck := stuck_missing d hts hends (Pending.stops_nil 0) (fun _ => rfl) hmissing
      exact .error _ t rest d.misplaced ht
        (htakes.ok_bind_quiet (takes_expect_error hk _).error_bind) fun ss enc errs _ =>
          hstuck _ ss enc errs rfl

theorem outcome_initializer (name : Lexeme) (hts : Terminated ts) :
    StatementOutcome (ParseState.mk (.initializer name)) depth
      (fun bound => (initializer bound name).run) ts := by
  obtain ⟨t, rest, rfl⟩ := hts.exists_cons
  by_cases hequal : t.kind = .equal
  · obtain ⟨sign, _⟩ := t
    subst hequal
    refine (outcome_finish (.declaration name) (hts.tail (by simp))).of
      (v := [⟨sign, .equal⟩]) (fun h => ?_) fun ss enc errs _ => result_cons _ hts (by simp)
    exact (takes_consume sign (by simp)).lift_bind h
  · by_cases hsemi : t.kind = .semicolon
    · obtain ⟨semicolon, _⟩ := t
      subst hsemi
      refine .ok (.declaration name none) rest [] (hts.tail (by simp)) (Nat.lt_succ_self _) ?_
        fun ss enc errs _ => result_cons _ hts (by simp)
      exact (takes_consume_none hequal).lift_bind
        ((takes_expect semicolon (by simp) _).ok_bind (.ok _))
    · refine .error ⟨.expectedSemicolon .variableDeclaration, t.toLexeme⟩ t rest [] hts ?_
        fun ss enc errs _ => ?_
      · exact (takes_consume_none hequal).lift_bind (takes_expect_error hsemi _).error_bind
      · refine result_of_step_eq_fail _ ss enc _ _ hts (fun _ => ⟨nofun, nofun⟩) ?_
        simp only [step, ParseState.initializer]
        rfl

theorem outcome_variableDeclaration (hts : Terminated ts) :
    StatementOutcome (ParseState.mk .name) depth
      (fun bound => (variableDeclaration bound).run) ts := by
  obtain ⟨t, rest, rfl⟩ := hts.exists_cons
  by_cases hname : t.kind = .identifier
  · obtain ⟨name, _⟩ := t
    subst hname
    refine (outcome_initializer name (hts.tail (by simp))).of (v := [⟨name, .identifier⟩])
      (fun h => ?_) fun ss enc errs _ => result_cons _ hts (by simp)
    exact (takes_expect name (by simp) _).ok_bind h
  · refine .error _ t rest [] hts (takes_expect_error hname _).error_bind fun ss enc errs _ => ?_
    refine result_of_step_eq_fail _ ss enc _ _ hts (fun _ => ⟨nofun, nofun⟩) ?_
    simp only [step, ParseState.name, if_neg hname]
    rfl

/-! ## Blocks -/

/-- A call for a statement with its recovery ends, with a statement or without one. -/
structure DeclarationOutcome (depth : Nat) (ts : List Token) (s? : Option Stmt) (rest : List Token)
    (new : List SyntaxError) : Prop where
  terminated : Terminated rest
  lt : rest.length < ts.length
  takes : Takes declaration depth ts rest s? new
  result_eq : ∀ ss enc errs, enc.length = depth →
    result ⟨.start, ss, enc, errs⟩ ts
      = result ⟨.start, s?.toList ++ ss, enc, new.reverse ++ errs⟩ rest

/-- Whether the calls for a statement end on sequences of at most `k` tokens. -/
def Declares (k : Nat) : Prop :=
  ∀ depth t rest, Terminated (t :: rest) → rest.length < k → Admits depth t.kind →
    ∃ s? left new, DeclarationOutcome depth (t :: rest) s? left new

/-- The loop over statements ends at a token that ends it. -/
theorem exists_takes_declarations {k : Nat} (h : Declares k) (ends : Token.Kind → Bool)
    (hends : ∀ kind, ends kind = false → Admits depth kind) (ts : List Token) (before : List Stmt)
    (hts : Terminated ts) (hk : ts.length ≤ k) :
    ∃ ss' t rest new, ends t.kind = true ∧ Terminated (t :: rest)
      ∧ Takes (fun bound => declarations bound ends before) depth ts (t :: rest) (before ++ ss') new
      ∧ ∀ ss enc errs, enc.length = depth →
        result ⟨.start, ss, enc, errs⟩ ts
          = result ⟨.start, ss'.reverse ++ ss, enc, new.reverse ++ errs⟩ (t :: rest) := by
  obtain ⟨t, rest, rfl⟩ := hts.exists_cons
  cases hkind : ends t.kind with
  | true =>
    refine ⟨[], t, rest, [], hkind, hts, ?_, fun _ _ _ _ => rfl⟩
    rw [List.append_nil]
    refine .of_succ ?_
    simp only [declarations]
    exact takes_peek.bind (.ite_pos hkind (.pure before))
  | false =>
    obtain ⟨s?, left, new, hleft, hlt, htakes, hresult⟩ := h depth t rest hts hk (hends _ hkind)
    obtain ⟨ss', t', rest', new', hkind', hts', htakes', hresult'⟩ :=
      exists_takes_declarations h ends hends left (before ++ s?.toList) hleft (by omega)
    refine ⟨s?.toList ++ ss', t', rest', new ++ new', hkind', hts', ?_, fun ss enc errs henc => ?_⟩
    · refine .of_succ ?_
      simp only [declarations]
      rw [← List.append_assoc]
      exact takes_peek.bind (.ite_neg (by simp [hkind]) (htakes.bind htakes'))
    · rw [hresult ss enc errs henc, hresult' _ enc _ henc]
      cases s? <;> simp
termination_by ts.length

/-- The statements of a block are read with one more block open. -/
theorem takes_block {left : List Token} {body : List Stmt} {new : List SyntaxError}
    {r : Except SyntaxError Token}
    (hbody : Takes (fun bound => declarations bound (fun k => k = .rightBrace || k = .eof) [])
      (depth + 1) ts rest body new)
    (hclose : Takes (fun _ => (expect .rightBrace .expectedRightBrace).run) depth rest left r []) :
    Takes block depth ts left (r.map fun _ => .block body) new := by
  obtain ⟨v, rfl, hbody⟩ := hbody
  obtain ⟨w, rfl, hclose⟩ := hclose
  refine ⟨v ++ w, by simp, fun before after errs => .of_succ ?_⟩
  have hin := hbody before after errs
  have hout := hclose (before ++ v) after (errs ++ new)
  simp only [block, List.append_assoc, List.length_append, List.append_nil] at hin hout ⊢
  rw [← Nat.add_assoc]
  -- the body is read with the count one higher, and the closing brace with the count as it was
  exact .bind (.modify _) (hin.bind (.bind (.modify _) (hout.bind (.pure _))))

theorem outcome_block {k : Nat} (h : Declares k) (hts : Terminated ts) (hk : ts.length ≤ k) :
    StatementOutcome (fun ss enc errs => ⟨.start, [], ss :: enc, errs⟩) depth block ts := by
  have hends (kind : Token.Kind)
      (hkind : (decide (kind = .rightBrace) || decide (kind = .eof)) = false) :
      Admits (depth + 1) kind := by
    simp only [Bool.or_eq_false_iff, decide_eq_false_iff_not] at hkind
    exact ⟨hkind.2, fun _ => hkind.1⟩
  obtain ⟨body, t, rest, new, hkind, hrest, hbody, hresult⟩ :=
    exists_takes_declarations h _ hends ts [] hts hk
  rw [List.nil_append] at hbody
  have hlen (enc : List (List Stmt)) (ss : List Stmt) (henc : enc.length = depth) :
      (ss :: enc).length = depth + 1 := by rw [List.length_cons, henc]
  have hsuffix := hbody.isSuffix.length_le
  by_cases hbrace : t.kind = .rightBrace
  · obtain ⟨closing, _⟩ := t
    subst hbrace
    rw [List.length_cons] at hsuffix
    refine .ok (.block body) rest new (hrest.tail (by simp)) hsuffix
      (takes_block hbody (takes_expect closing (by simp) _)) fun ss enc errs henc => ?_
    rw [hresult [] (ss :: enc) errs (hlen enc ss henc), result_cons _ hrest (by simp),
      List.append_nil, step_rightBrace, List.reverse_reverse]
    rfl
  · have heof : t.kind = .eof := by simpa [hbrace] using hkind
    refine .error _ t rest new hrest (takes_block hbody (takes_expect_error hbrace _))
      fun ss enc errs henc => ?_
    rw [hresult [] (ss :: enc) errs (hlen enc ss henc)]
    exact result_unclosed _ enc _ ss heof

/-! ## All statements -/

theorem outcome_statement {k : Nat} (h : Declares k) (hts : Terminated (t :: rest))
    (hk : rest.length ≤ k) (hadmits : Admits depth t.kind) (hvar : t.kind ≠ .varWord) :
    StatementOutcome (ParseState.mk .start) depth statement (t :: rest) := by
  have hrest := hts.tail hadmits.1
  by_cases hprint : t.kind = .printWord
  · obtain ⟨word, _⟩ := t
    subst hprint
    refine (outcome_finish .print hrest).of (v := [⟨word, .printWord⟩]) (fun h => ?_)
      fun ss enc errs _ => result_cons _ hts (by simp)
    refine .of_succ ?_
    simp only [statement]
    exact (takes_consume word (by simp)).bind h
  · by_cases hleft : t.kind = .leftBrace
    · obtain ⟨opening, _⟩ := t
      subst hleft
      refine (outcome_block h hrest hk).of (v := [⟨opening, .leftBrace⟩]) (fun h => ?_)
        fun ss enc errs _ => result_cons _ hts (by simp)
      refine .of_succ ?_
      simp only [statement]
      exact (takes_consume_none hprint).bind ((takes_consume opening (by simp)).bind h)
    · refine (outcome_finish .expression hts).of (v := []) (fun h => ?_) fun ss enc errs henc => ?_
      · refine .of_succ ?_
        simp only [statement]
        exact (takes_consume_none hprint).bind ((takes_consume_none hleft).bind h)
      · refine result_start_expression ss enc errs hts hadmits.1 hvar hprint hleft fun hright => ?_
        have hdepth : ¬ 0 < depth := fun hdepth => hadmits.2 hdepth hright
        exact List.eq_nil_of_length_eq_zero (by omega)

theorem outcome_any {k : Nat} (h : Declares k) (hts : Terminated (t :: rest))
    (hk : rest.length ≤ k) (hadmits : Admits depth t.kind) :
    StatementOutcome (ParseState.mk .start) depth
      (fun bound => do
        if (← consume? .varWord).isSome then (variableDeclaration bound).run else statement bound)
      (t :: rest) := by
  by_cases hvar : t.kind = .varWord
  · obtain ⟨word, _⟩ := t
    subst hvar
    exact (outcome_variableDeclaration (hts.tail (by simp))).of (v := [⟨word, .varWord⟩])
      (fun h => (takes_consume word (by simp)).bind h) fun ss enc errs _ =>
        result_cons _ hts (by simp)
  · exact (outcome_statement h hts hk hadmits hvar).of (v := [])
      (fun h => (takes_consume_none hvar).bind h) fun ss enc errs _ => rfl

/-- After a statement there is nothing to do. After an error, the search for the next statement
begins at the token of the error. -/
theorem declares_succ {k : Nat} (h : Declares k) : Declares (k + 1) := by
  intro depth t rest hts hk hadmits
  cases outcome_any h hts (Nat.le_of_lt_succ hk) hadmits with
  | ok s left new hleft hlt htakes hresult =>
    refine ⟨some s, left, new, hleft, hlt, ?_, hresult⟩
    refine .of_succ ?_
    simp only [declaration]
    rw [← List.append_nil new]
    exact htakes.bind (.pure (some s))
  | error e u left new hleft htakes hresult =>
    obtain ⟨left', hleft', hlt, hsync, hresume⟩ := exists_takes_synchronize depth hleft
    refine ⟨none, left', new ++ [e], hleft', ?_, ?_, fun ss enc errs henc => ?_⟩
    · rcases List.suffix_cons_iff.1 htakes.isSuffix with heq | hsuffix
      · -- the error is at the first token, which the search passes over
        cases heq
        exact hlt hadmits
      · have hle := Nat.le_trans hsync.isSuffix.length_le hsuffix.length_le
        exact Nat.lt_succ_of_le hle
    · refine .of_succ ?_
      simp only [declaration]
      exact htakes.bind ((takes_record e).bind (hsync.bind (.pure none)))
    · rw [hresult ss enc errs henc, hresume ss enc _ henc]
      simp

/-- **Every call for a statement ends** that is made at a token where one may begin. -/
theorem declares (k : Nat) : Declares k := by
  -- by the number of tokens: a statement within a statement stands in a block, and the opening
  -- brace was passed over before
  induction k with
  | zero => exact fun _ _ _ _ hk _ => absurd hk (Nat.not_lt_zero _)
  | succ k ih => exact declares_succ ih

end Lox.Descent
