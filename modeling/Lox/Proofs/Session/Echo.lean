import Lox.Proofs.Session.Concat

/-!
# Lox — a prompt shows the values of expressions

A line that is a single expression is run at a prompt as if `print` stood in front of it. That word
and the blank after it are scanned by themselves, whatever follows, and since they are on one line
nothing moves to another line. Any other line is run as a source text.

* **`scan_print`** — the word in front of a text.
* **`parse_print`** — the word in front of the tokens of an expression statement.
* **`Session.prompt_law`** — a line at a prompt against a source text.
-/

namespace Lox

/-! ## The word -/

/-- The first segment of a text with `print` and a blank in front of it is that word. -/
theorem Segment.next_print (cs : List Char) :
    next 'p' ('r' :: 'i' :: 'n' :: 't' :: ' ' :: cs)
      = (⟨.token .printWord, ['p', 'r', 'i', 'n', 't']⟩, ' ' :: cs) := rfl

/-- `print` and a blank in front of a text are one more token on the first line. -/
theorem scan_print (source : String) :
    scan ("print " ++ source) = .ok ⟨⟨"print", 1⟩, .printWord⟩ :: scan source := by
  have htext : ("print " ++ source).toList
      = 'p' :: 'r' :: 'i' :: 'n' :: 't' :: ' ' :: source.toList := String.toList_append
  rw [scan, htext, segments_cons, Segment.next_print, segments_cons]
  rfl

/-! ## The statement -/

open Nonterminal in
/-- An expression statement is an expression and a semicolon. -/
theorem Derives.of_expression {v : List Token} {e : Expr}
    (h : Derives .strict declarations v [.expression e]) :
    ∃ w semicolon, Derives .strict assignment w e ∧ v = w ++ [⟨semicolon, .semicolon⟩] := by
  obtain ⟨d, rfl, htree⟩ := h
  cases d with
  | nil => cases htree
  | cons first rest =>
    obtain ⟨hfirst, hrest⟩ := List.cons.inj htree
    cases rest with
    | cons => cases hrest
    | nil =>
      cases first with
      | expression d semicolon =>
        cases hfirst
        exact ⟨d.yield, semicolon, ⟨d, rfl, rfl⟩, List.append_nil _⟩
      | _ => cases hfirst

/-- `print` in front of an expression statement makes it a print statement. -/
theorem parse_print {tokens : List Token} {e : Expr} (h : parse tokens = ⟨[.expression e], []⟩)
    (word : Lexeme) : parse (⟨word, .printWord⟩ :: tokens) = ⟨[.print e], []⟩ := by
  have hderives : Derives .strict .declarations (sentence tokens) [.expression e] := by
    have hall := @derives_of_parse_errors_eq_nil tokens (by rw [h])
    rwa [h] at hall
  obtain ⟨w, semicolon, he, hw⟩ := hderives.of_expression
  have hsentence : sentence (⟨word, .printWord⟩ :: tokens)
      = ⟨word, .printWord⟩ :: (w ++ [⟨semicolon, .semicolon⟩]) := by
    rw [← hw]
    rfl
  obtain ⟨d, hyield, htree⟩ := (he.print word semicolon).cons .nil
  rw [parse_of_strict d (by rw [hyield, hsentence, List.append_nil]), htree]

/-- `print` in front of a source text that is a single expression. -/
theorem checkSource_print {source : String} {e : Expr}
    (h : checkSource source = .ok [.expression e]) :
    checkSource ("print " ++ source) = .ok [.print e] := by
  obtain ⟨hscan, hparse⟩ := checkSource_eq_ok_iff.1 h
  rw [checkSource_eq_ok_iff, scan_print]
  exact ⟨hscan, parse_print hparse _⟩

/-! ## The prompt -/

namespace Session

/-- The value of a single expression is written to the output, with a line end. -/
theorem prompt_of_expression {source : String} {e : Expr}
    (h : checkSource source = .ok [.expression e]) :
    prompt source = ofExecution (do
      let v ← e.run globals
      Execution.printLine v) := by
  have hprint : Stmt.execAll globals [.print e] = (do
      let v ← e.run globals
      Execution.printLine v) := by
    rw [Stmt.execAll, Stmt.execAll, Stmt.exec]
    exact bind_pure_unit
  rw [prompt_eq_ofExecution h, echoing, hprint]

theorem echoing_eq_self {ss : List Stmt} (h : ∀ e, ss ≠ [.expression e]) : echoing ss = ss := by
  unfold echoing
  split
  · next e => exact absurd rfl (h e)
  · rfl

/-- **Lines at a prompt agree with source texts.** A line that is a single expression is evaluated
and its value is written, which is what the source text with `print` in front of the line does, from
every machine and with the same errors on the same lines. Any other line, be it refused, does what
it does as a source text. -/
theorem prompt_law (source : String) :
    (∀ e, checkSource source = .ok [.expression e] →
      prompt source = run ("print " ++ source)
      ∧ prompt source = ofExecution (do
          let v ← e.run globals
          Execution.printLine v))
    ∧ ((∀ e, checkSource source ≠ .ok [.expression e]) → prompt source = run source) := by
  refine ⟨fun e h => ⟨?_, prompt_of_expression h⟩, fun h => ?_⟩
  · rw [prompt_eq_ofExecution h, run_eq_ofExecution (checkSource_print h), echoing]
  · cases hcheck : checkSource source with
    | error ds =>
      funext m
      rw [prompt_eq_error hcheck, run_eq_error hcheck]
    | ok ss =>
      have hother : ∀ e, ss ≠ [.expression e] := fun e he => h e (he ▸ hcheck)
      rw [prompt_eq_ofExecution hcheck, run_eq_ofExecution hcheck, echoing_eq_self hother]

/-- A line with a comment in front of its expression, which fails on the second line, and one with
a statement in front. -/
theorem prompt_law_negatedString :
    checkSource "// no number\n-\"a\";"
        = .ok [.expression (.unary .negate ⟨"-", 2⟩ (.literal (.string "a")))]
    ∧ prompt "// no number\n-\"a\";" = run ("print " ++ "// no number\n-\"a\";")
    ∧ prompt "// no number\n-\"a\";" (start .unlimited)
        = .error (.halted (.runtime ⟨.operandNotNumber (.string "a"), ⟨"-", 2⟩⟩)) (start .unlimited)
    ∧ checkSource "var a; a;" = .ok [.declaration ⟨"a", 1⟩ none, .expression (.var ⟨"a", 1⟩)]
    ∧ prompt "var a; a;" = run "var a; a;" := by
  have hline : checkSource "// no number\n-\"a\";"
      = .ok [.expression (.unary .negate ⟨"-", 2⟩ (.literal (.string "a")))] :=
    checkSource_eq_ok_iff.2 (by decide +kernel)
  have hlines : checkSource "var a; a;"
      = .ok [.declaration ⟨"a", 1⟩ none, .expression (.var ⟨"a", 1⟩)] :=
    checkSource_eq_ok_iff.2 (by decide +kernel)
  refine ⟨hline, ((prompt_law _).1 _ hline).1, ?_, hlines, (prompt_law _).2 fun e he => ?_⟩
  · rw [((prompt_law _).1 _ hline).2]
    rfl
  · rw [hlines] at he
    cases he

end Session

end Lox
