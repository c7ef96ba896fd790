import Lox.Proofs.Grammar.Assignments
import Lox.Proofs.Parse.Acceptance

/-!
# Lox — errors are found as early as possible

The first fatal error blames the first token with which the tokens read so far are no longer the
beginning of a sentence of the relaxed grammar. As long as the parser keeps its account of the
tokens, they are the beginning of one: whatever was begun can be finished. And on the beginning of
a sentence there is no fatal error, because there is none on the sentence.

* **`Completable`** — tokens that begin a sentence.
* **`Viable.completable`** — the tokens that a state is an account of begin a sentence.
* **`viable_iff_completable`** — the account is kept exactly as long as this is so.
* **`parse_errors_earliest`** — which errors there are in a sentence, and which is the first fatal
  one in other tokens.
-/

namespace Lox

open Nonterminal

/-! ## Completing what was begun -/

section Completing

variable {stk : List Pending} {enc : List (List Stmt)} {ss : List Stmt} {u v w : List Token}
  {e : Expr}

/-- What is open in an expression can be closed. -/
theorem Pending.Opened.exists_close {q : Nat} (h : Pending.Opened q stk v)
    (he : Derives .relaxed (level q) w e) :
    ∃ r x, Derives .relaxed assignment (v ++ w ++ r) x := by
  induction h generalizing w e with
  | nil => exact ⟨[], e, by simpa using he.toAssignment⟩
  | group h opening ih =>
    let closing := Token.supplied ")" .rightParen
    have hgroup := he.toAssignment.group opening closing.toLexeme
    obtain ⟨r, x, hx⟩ := ih (hgroup.level_of_le (by decide) (by decide))
    exact ⟨closing :: r, x, by simpa [closing, Token.supplied] using hx⟩
  | unary hn h op sign ih =>
    have hunary := (he.level_of_le (by decide) hn).prefixed op sign
    obtain ⟨r, x, hx⟩ := ih hunary
    exact ⟨r, x, by simpa using hx⟩
  | binary op hn h hl sign ih =>
    have hbinary := Derives.binary op hl sign (he.level_of_le (by omega) hn)
    obtain ⟨r, x, hx⟩ := ih hbinary
    exact ⟨r, x, by simpa using hx⟩
  | assign h ht sign ih =>
    obtain ⟨r, x, hx⟩ := ih (ht.assignTo sign he.toAssignment)
    exact ⟨r, x, by simpa using hx⟩

/-- A statement that was begun can be finished. -/
theorem Mode.Begun.exists_finish {mode : Mode} (h : mode.Begun w) (hn : Nested enc ss u) :
    ∃ r ss', Nested enc ss' (u ++ (w ++ r)) := by
  let semicolon := Token.semicolon.toLexeme
  cases h with
  | start => exact ⟨[], ss, by simpa using hn⟩
  | name word =>
    let name : Lexeme := ⟨"x", 1⟩
    exact ⟨[⟨name, .identifier⟩, ⟨semicolon, .semicolon⟩], _, hn.add (.declare word name semicolon)⟩
  | initializer word name =>
    exact ⟨[⟨semicolon, .semicolon⟩], _, hn.add (.declare word name semicolon)⟩
  | @operand goal stk w v hg hs =>
    -- any operand will do
    have hnil : Derives .relaxed unary [Literal.nil.token] (.literal .nil) :=
      (Derives.literal .nil _).level_of_le (by decide) (by decide)
    obtain ⟨r, x, hx⟩ := hs.exists_close hnil
    refine ⟨Literal.nil.token :: (r ++ [⟨semicolon, .semicolon⟩]), goal.statement x :: ss, ?_⟩
    simpa using hn.add (hg.derives hx semicolon)
  | @operator goal stk w v x e hg hs he =>
    obtain ⟨r, whole, hwhole⟩ := hs.exists_close (he.level_of_le (by decide) (by decide))
    refine ⟨r ++ [⟨semicolon, .semicolon⟩], goal.statement whole :: ss, ?_⟩
    simpa using hn.add (hg.derives hwhole semicolon)

/-- Open blocks can be closed. -/
theorem Nested.exists_close (h : Nested enc ss u) :
    ∃ r x, Derives .relaxed declarations (u ++ r) x := by
  induction enc generalizing ss u with
  | nil =>
    cases h with
    | program h => exact ⟨[], _, by simpa using h⟩
  | cons before outer ih =>
    let closing := Token.supplied "\x7d" .rightBrace
    obtain ⟨r, x, hx⟩ := ih (h.close closing.toLexeme)
    exact ⟨closing :: r, x, by simpa [closing, Token.supplied] using hx⟩

end Completing

/-! ## Beginnings of sentences -/

/-- Whether the tokens can be completed to a sentence of the relaxed grammar with an end token
after it. -/
def Completable (v : List Token) : Prop :=
  ∃ (d : Derivation .relaxed .declarations) (eof : Token), eof.isEof = true ∧ v <+: d.yield ++ [eof]

theorem Viable.completable {st : ParseState} {v : List Token} (h : Viable st v) :
    Completable v := by
  obtain ⟨u, w, hn, hb, rfl⟩ := h
  obtain ⟨r, ss, hn'⟩ := hb.exists_finish hn
  obtain ⟨r', x, d, hyield, -⟩ := hn'.exists_close
  refine ⟨d, Token.eof 1, rfl, r ++ r' ++ [Token.eof 1], ?_⟩
  rw [hyield]
  simp

namespace Completable

open ParseState

variable {v : List Token}

/-- On the beginning of a sentence there is no fatal error. -/
theorem unbroken (h : Completable v) (hv : ∀ t ∈ v, t.isEof = false) :
    (initial.run v).Unbroken := by
  obtain ⟨d, eof, heof, hbegins⟩ := h
  rcases List.prefix_concat_iff.1 hbegins with rfl | ⟨r, hr⟩
  · have hnone := hv eof (by simp)
    rw [heof] at hnone
    cases hnone
  · -- the errors so far are among those of the whole sentence
    have hrun := d.reads [] [] []
    rw [← hr, run_append] at hrun
    have hsuffix := errors_suffix_run (initial.run v) r
    refine Unbroken.of_suffix ?_ hsuffix
    show ((ParseState.run ⟨.start, [], [], []⟩ v).run r).Unbroken
    rw [hrun]
    intro e he
    have hmem : e ∈ d.misplaced := by simpa using he
    exact d.cause_of_mem_misplaced e hmem

/-- If the tokens begin a sentence and some more tokens do not, then one of these is the first
with which they do not. -/
theorem exists_first (h : Completable v) {w : List Token} (hw : ¬ Completable (v ++ w)) :
    ∃ x t y, w = x ++ t :: y ∧ Completable (v ++ x) ∧ ¬ Completable (v ++ x ++ [t]) := by
  induction w generalizing v with
  | nil =>
    rw [List.append_nil] at hw
    exact absurd h hw
  | cons t w ih =>
    by_cases ht : Completable (v ++ [t])
    · have hrest : ¬ Completable (v ++ [t] ++ w) := by rwa [List.append_assoc]
      obtain ⟨x, t', y, rfl, hx, ht'⟩ := ih ht hrest
      refine ⟨t :: x, t', y, rfl, ?_, ?_⟩
      · simpa using hx
      · simpa using ht'
    · refine ⟨[], t, w, rfl, ?_, ?_⟩
      · rwa [List.append_nil]
      · rwa [List.append_nil]

/-- With an end token after them, only the tokens of a sentence begin one. -/
theorem derivable_of_snoc {eof : Token} (h : Completable (v ++ [eof])) (heof : eof.isEof = true) :
    ∃ d : Derivation .relaxed .declarations, d.yield = v := by
  obtain ⟨d, eof', -, hbegins⟩ := h
  rcases List.prefix_concat_iff.1 hbegins with heq | hbegins
  · exact ⟨d, (List.append_inj_left' heq rfl).symm⟩
  · have hnone := d.balanced.isEof_eq_false eof (hbegins.subset (by simp))
    rw [heof] at hnone
    cases hnone

end Completable

/-- **The parser keeps its account exactly as long as the tokens begin a sentence.** -/
theorem viable_iff_completable {v : List Token} (hv : ∀ t ∈ v, t.isEof = false) :
    Viable (ParseState.initial.run v) v ↔ Completable v :=
  ⟨Viable.completable, fun h => Viable.initial.run v (h.unbroken hv)⟩

/-! ## The first fatal error -/

/-- Whether an error costs a statement. -/
def SyntaxError.isFatal (e : SyntaxError) : Bool := e.cause ≠ .invalidAssignmentTarget

theorem find?_isFatal {before after : List SyntaxError} {e : SyntaxError}
    (hbefore : ∀ e ∈ before, e.cause = .invalidAssignmentTarget)
    (he : e.cause ≠ .invalidAssignmentTarget) :
    (before ++ e :: after).find? (·.isFatal) = some e := by
  rw [List.find?_eq_some_iff_append]
  refine ⟨by simpa [SyntaxError.isFatal] using he, before, after, rfl, fun e he => ?_⟩
  simp [SyntaxError.isFatal, hbefore e he]

theorem cause_of_mem_unfinished (mode : Mode) :
    ∀ e ∈ mode.unfinished.1, e.cause = .invalidAssignmentTarget := by
  cases mode with
  | operator goal stk e => exact Pending.cause_of_mem_complete
  | _ => exact nofun

/-- The errors of a run are followed by those of the statement and the blocks that are unfinished
at the end. -/
theorem errors_parse (tokens : List Token) :
    (parse tokens).errors
      = (ParseState.initial.run (sentence tokens)).errors.reverse
        ++ ((ParseState.initial.run (sentence tokens)).mode.stopErrors (endToken tokens).toLexeme
          ++ List.replicate (ParseState.initial.run (sentence tokens)).enclosing.length
            ⟨.expectedRightBrace, (endToken tokens).toLexeme⟩) := by
  show ((ParseState.initial.run (sentence tokens)).finish (endToken tokens)).errors = _
  rw [ParseState.finish, ParseState.errors_interrupt _ (kind_endToken tokens)]
  simp

section First

open ParseState

variable {tokens : List Token}

/-- A token with which the tokens before it no longer begin a sentence is blamed. -/
theorem find?_isFatal_of_incompletable {v w : List Token} {t : Token}
    (hsentence : sentence tokens = v ++ t :: w) (hv : Completable v)
    (ht : ¬ Completable (v ++ [t])) :
    ∃ e, (parse tokens).errors.find? (·.isFatal) = some e ∧ e.blamed = t.toLexeme := by
  have hnone : ∀ x ∈ v, x.isEof = false := by
    intro x hx
    have hmem : x ∈ sentence tokens := by simp [hsentence, hx]
    exact isEof_eq_false_of_mem_sentence x hmem
  have hok := hv.unbroken hnone
  have hviable := (viable_iff_completable hnone).2 hv
  have hreject := (hviable.step_cases t).resolve_left fun h => ht h.completable
  -- what is read afterwards only adds errors
  have hrun : initial.run (sentence tokens) = ((initial.run v).step t).run w := by
    rw [hsentence, run_append, run_cons]
  have hsuffix := errors_suffix_run ((initial.run v).step t) w
  rw [← hrun] at hsuffix
  obtain ⟨before, hbefore, cause, hcause, herrors⟩ :
      ∃ before : List SyntaxError, (∀ e ∈ before, e.cause = .invalidAssignmentTarget) ∧
        ∃ cause ≠ .invalidAssignmentTarget, ((initial.run v).step t).errors
          = ⟨cause, t.toLexeme⟩ :: (before ++ (initial.run v).errors) := by
    generalize (initial.run v).step t = st' at hreject
    cases hreject with
    | intro before hbefore cause hcause =>
      exact ⟨before, hbefore, cause, hcause, errors_fail _ t cause⟩
  obtain ⟨later, hlater⟩ := hsuffix
  rw [herrors] at hlater
  refine ⟨⟨cause, t.toLexeme⟩, ?_, rfl⟩
  rw [errors_parse, ← hlater, List.reverse_append, List.reverse_cons, List.append_assoc,
    List.append_assoc, List.singleton_append]
  refine find?_isFatal (fun e he => ?_) hcause
  rw [List.mem_reverse, List.mem_append] at he
  rcases he with he | he
  · exact hbefore e he
  · exact hok e he

/-- The end is blamed if the tokens before it begin a sentence but are none. -/
theorem find?_isFatal_of_completable (hv : Completable (sentence tokens))
    (hnot : ¬ ∃ d : Derivation .relaxed .declarations, d.yield = sentence tokens) :
    ∃ e, (parse tokens).errors.find? (·.isFatal) = some e
      ∧ e.blamed = (endToken tokens).toLexeme := by
  cases hfind : (parse tokens).errors.find? (·.isFatal) with
  | none =>
    have hharmless : ∀ e ∈ (parse tokens).errors, e.cause = .invalidAssignmentTarget := by
      intro e he
      have hfatal := List.find?_eq_none.1 hfind e he
      simpa [SyntaxError.isFatal] using hfatal
    obtain ⟨d, hyield, -⟩ := derives_of_parse hharmless
    exact absurd ⟨d, hyield⟩ hnot
  | some e =>
    refine ⟨e, rfl, ?_⟩
    have hfatal : e.cause ≠ .invalidAssignmentTarget := by
      have hsome := List.find?_some hfind
      simpa [SyntaxError.isFatal] using hsome
    have hmem := List.mem_of_find?_eq_some hfind
    rw [errors_parse, Mode.stopErrors, List.mem_append, List.mem_append, List.mem_append,
      List.mem_reverse] at hmem
    -- no fatal error was found before the end
    rcases hmem with hread | (hcomplete | hmissing) | hblocks
    · exact absurd (hv.unbroken isEof_eq_false_of_mem_sentence e hread) hfatal
    · exact absurd (cause_of_mem_unfinished _ e hcomplete) hfatal
    · obtain ⟨cause, -, rfl⟩ := List.mem_map.1 hmissing
      rfl
    · rw [List.eq_of_mem_replicate hblocks]

/-- **Errors are found as early as possible.** In a sentence of the relaxed grammar, the errors are
those at the `=` of the assignments to something else than a bare identifier, in the order in which
the assigned values end, and the statements have the left sides for these assignments. Each `=` but
those of declarations is that of an assignment. In any other tokens there is a fatal error, and the
first one blames the token at the index `i` such that the tokens before it can be completed to a
sentence, and the tokens up to it cannot. -/
theorem parse_errors_earliest (tokens : List Token) :
    (∀ d : Derivation .relaxed .declarations, d.yield = sentence tokens →
      parse tokens
          = ⟨d.tree, ((d.assignments 0).filter (!·.isBare)).map Assignment.error⟩
      ∧ (d.assignments 0).Pairwise Assignment.EndsBefore
      ∧ (∀ a ∈ d.assignments 0, Occurs a.tokens a.start (sentence tokens))
      ∧ Assignment.Cover (d.assignments 0) 0 (sentence tokens))
    ∧ ((¬ ∃ d : Derivation .relaxed .declarations, d.yield = sentence tokens) →
      ∃ e i t, (parse tokens).errors.find? (·.isFatal) = some e
        ∧ (sentence tokens ++ [endToken tokens])[i]? = some t
        ∧ e.blamed = t.toLexeme
        ∧ Completable ((sentence tokens ++ [endToken tokens]).take i)
        ∧ ¬ Completable ((sentence tokens ++ [endToken tokens]).take (i + 1))) := by
  constructor
  · intro d hd
    refine ⟨?_, (d.ordered_assignments 0).pairwise, ?_, ?_⟩
    · rw [parse_of_derivation d hd, d.misplaced_eq 0]
    · rw [← hd]
      exact d.occurs_of_mem_assignments (.self d.yield)
    · rw [← hd]
      exact d.covers 0
  · intro hnot
    have hend : (endToken tokens).isEof = true := by
      simpa [Token.isEof] using kind_endToken tokens
    have hnone : ¬ Completable (sentence tokens ++ [endToken tokens]) := fun h =>
      hnot (h.derivable_of_snoc hend)
    by_cases hv : Completable (sentence tokens)
    · obtain ⟨e, hfind, hblamed⟩ := find?_isFatal_of_completable hv hnot
      refine ⟨e, (sentence tokens).length, endToken tokens, hfind, by simp, hblamed, ?_, ?_⟩
      · rwa [List.take_left]
      · rwa [List.take_of_length_le (by simp)]
    · have hv' : ¬ Completable ([] ++ sentence tokens) := hv
      obtain ⟨v, t, w, hsentence, hbefore, hstops⟩ := Viable.initial.completable.exists_first hv'
      rw [List.nil_append] at hbefore hstops
      obtain ⟨e, hfind, hblamed⟩ := find?_isFatal_of_incompletable hsentence hbefore hstops
      refine ⟨e, v.length, t, hfind, ?_, hblamed, ?_, ?_⟩
      · simp [hsentence]
      · simpa [hsentence] using hbefore
      · rw [hsentence, List.append_assoc, List.take_length_add_append]
        exact hstops

end First

/-- The tokens of `nil =`, a new line, and `true = a;`. -/
def literalTargets : List Token :=
  [⟨⟨"nil", 1⟩, .nilWord⟩, ⟨⟨"=", 1⟩, .equal⟩, ⟨⟨"true", 2⟩, .trueWord⟩, ⟨⟨"=", 2⟩, .equal⟩,
   ⟨⟨"a", 2⟩, .identifier⟩, ⟨⟨";", 2⟩, .semicolon⟩, Token.eof 2]

/-- The tokens of `nil = a;`, a new line, and `print (b; c`. -/
def openGroup : List Token :=
  [⟨⟨"nil", 1⟩, .nilWord⟩, ⟨⟨"=", 1⟩, .equal⟩, ⟨⟨"a", 1⟩, .identifier⟩, ⟨⟨";", 1⟩, .semicolon⟩,
   ⟨⟨"print", 2⟩, .printWord⟩, ⟨⟨"(", 2⟩, .leftParen⟩, ⟨⟨"b", 2⟩, .identifier⟩,
   ⟨⟨";", 2⟩, .semicolon⟩, ⟨⟨"c", 2⟩, .identifier⟩, Token.eof 2]

theorem parse_errors_earliest_literalTargets :
    (∃ d : Derivation .relaxed .declarations, d.yield = sentence literalTargets
      ∧ d.tree = [.expression (.literal .nil)]
      ∧ ((d.assignments 0).filter (!·.isBare)).map Assignment.error
          = [⟨.invalidAssignmentTarget, ⟨"=", 2⟩⟩, ⟨.invalidAssignmentTarget, ⟨"=", 1⟩⟩]
      ∧ (d.assignments 0).Pairwise Assignment.EndsBefore
      ∧ (∀ a ∈ d.assignments 0, Occurs a.tokens a.start (sentence literalTargets))
      ∧ Assignment.Cover (d.assignments 0) 0 (sentence literalTargets))
    ∧ (¬ ∃ d : Derivation .relaxed .declarations, d.yield = sentence openGroup)
    ∧ ∃ i t, (sentence openGroup ++ [endToken openGroup])[i]? = some t
      ∧ t.toLexeme = ⟨";", 2⟩
      ∧ Completable ((sentence openGroup ++ [endToken openGroup]).take i)
      ∧ ¬ Completable ((sentence openGroup ++ [endToken openGroup]).take (i + 1)) := by
  have hparse : parse literalTargets = ⟨[.expression (.literal .nil)],
      [⟨.invalidAssignmentTarget, ⟨"=", 2⟩⟩, ⟨.invalidAssignmentTarget, ⟨"=", 1⟩⟩]⟩ := by decide
  have hfind : (parse openGroup).errors.find? (·.isFatal)
      = some ⟨.expectedRightParen, ⟨";", 2⟩⟩ := by decide
  have hnot : ¬ ∃ d : Derivation .relaxed .declarations, d.yield = sentence openGroup := by
    rintro ⟨d, hd⟩
    have hmem := List.mem_of_find?_eq_some hfind
    rw [parse_of_derivation d hd] at hmem
    have hcause := d.cause_of_mem_misplaced _ hmem
    cases hcause
  refine ⟨?_, hnot, ?_⟩
  · obtain ⟨d, hd, -⟩ := @derives_of_parse literalTargets (by simp [hparse])
    obtain ⟨htree, hrest⟩ := (parse_errors_earliest literalTargets).1 d hd
    rw [hparse, Parsed.mk.injEq] at htree
    exact ⟨d, hd, htree.1.symm, htree.2.symm, hrest⟩
  · obtain ⟨e, i, t, he, hi, hblamed, hbefore, hstops⟩ :=
      (parse_errors_earliest openGroup).2 hnot
    rw [hfind] at he
    cases he
    exact ⟨i, t, hi, hblamed.symm, hbefore, hstops⟩

end Lox
