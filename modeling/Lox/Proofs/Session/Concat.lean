import Lox.Proofs.Parse.Acceptance
import Lox.Proofs.Relabel.Eval
import Lox.Proofs.Relabel.Parse
import Lox.Proofs.Scan.Joint
import Lox.Session

/-!
# Lox — one source text after another

Two source texts with a line end between them are run as one text in the same way as one after
the other. Only the lines in the reports about the second text are further down.

* **`checkSource_append_newline`** — the check of two texts as one.
* **`Session.run_append_newline`** — the run of two texts as one.
-/

namespace Lox

/-! ## Reports -/

/-- The failure, `k` lines further down. -/
def Failure.shift (k : Nat) : Failure → Failure
  | .static reports => .static (reports.map (Diagnostic.shift k))
  | .halted halt => .halted (halt.relabel (Lexeme.shift k))

theorem reports_shift (k : Nat) (es : List ScanError) (ps : List SyntaxError) :
    reports (es.map (ScanError.shift k)) (ps.map (SyntaxError.relabel (Lexeme.shift k)))
      = (reports es ps).map (Diagnostic.shift k) := by
  -- the lines of all reports move alike, so their order stays
  have hle : ∀ d e : Diagnostic, d.lineLe e = (d.shift k).lineLe (e.shift k) := by
    intro d e
    simp [Diagnostic.lineLe, Diagnostic.shift]
  unfold reports Diagnostic.sortByLine
  rw [List.map_mergeSort fun d _ e _ => hle d e, List.map_append, List.map_map, List.map_map,
    List.map_map, List.map_map]
  rfl

theorem reports_eq_nil_iff {es : List ScanError} {ps : List SyntaxError} :
    reports es ps = [] ↔ es = [] ∧ ps = [] := by
  unfold reports Diagnostic.sortByLine
  rw [← List.length_eq_zero_iff, List.length_mergeSort, List.length_eq_zero_iff,
    List.append_eq_nil_iff, List.map_eq_nil_iff, List.map_eq_nil_iff]

/-- A source text passes the check if nothing is wrong with its tokens or their order. -/
theorem checkSource_eq_ok_iff {source : String} {ss : List Stmt} :
    checkSource source = .ok ss
      ↔ errorsOf (scan source) = [] ∧ parse (tokensOf (scan source)) = ⟨ss, []⟩ := by
  unfold checkSource
  simp only
  cases h : reports (errorsOf (scan source)) (parse (tokensOf (scan source))).errors with
  | nil =>
    obtain ⟨hes, hps⟩ := reports_eq_nil_iff.1 h
    constructor
    · rintro ⟨⟩
      exact ⟨hes, by rw [← hps]⟩
    · rintro ⟨-, hparse⟩
      rw [hparse]
  | cons d ds =>
    constructor
    · nofun
    · rintro ⟨hes, hparse⟩
      rw [hes, hparse, reports_eq_nil_iff.2 ⟨rfl, rfl⟩] at h
      cases h

theorem statements_eq_of_checkSource {source : String} {ss : List Stmt}
    (h : checkSource source = .ok ss) : (parseSource source).statements = ss :=
  congrArg Parsed.statements (checkSource_eq_ok_iff.1 h).2

/-! ## Checking -/

/-- The tokens in front of the end token are those that count. -/
theorem isEof_eq_false_of_mem_dropLast {a : String} {t : Token}
    (h : t ∈ tokensOf (scan a).dropLast) : t.isEof = false :=
  decide_eq_false (kind_ne_eof_of_mem_dropLast h)

theorem exists_isEof_scan (a : String) : ∃ t ∈ tokensOf (scan a), t.isEof = true := by
  rw [tokensOf_scan_eq_concat a]
  exact ⟨_, List.mem_append_right _ (List.mem_singleton.2 rfl), rfl⟩

section

variable {a : String} {ss : List Stmt} (ha : checkSource a = .ok ss) (b : String)

include ha

/-- A text that passes the check leaves no string and no comment open. -/
theorem scan_append_newline_of_checkSource :
    scan (a ++ "\n" ++ b)
      = (scan a).dropLast ++ (scan b).map (ScanItem.shift (newlines a.toList + 1)) := by
  obtain ⟨hes, -⟩ := checkSource_eq_ok_iff.1 ha
  refine scan_append_newline (fun e he => ?_) b
  rw [hes] at he
  cases he

theorem errorsOf_scan_append_newline :
    errorsOf (scan (a ++ "\n" ++ b))
      = (errorsOf (scan b)).map (ScanError.shift (newlines a.toList + 1)) := by
  obtain ⟨hes, -⟩ := checkSource_eq_ok_iff.1 ha
  rw [scan_append_newline_of_checkSource ha, errorsOf_append, errorsOf_dropLast_scan, hes,
    errorsOf_shift, List.nil_append]

/-- A text that passes the check is a program, so the statements of another text come after its
own. -/
theorem parse_scan_append_newline :
    parse (tokensOf (scan (a ++ "\n" ++ b)))
      = ⟨ss, []⟩ ++ (parse (tokensOf (scan b))).relabel (Lexeme.shift (newlines a.toList + 1)) := by
  obtain ⟨-, hparse⟩ := checkSource_eq_ok_iff.1 ha
  have hsplit := tokensOf_scan_eq_concat a
  have herrors : (parse (tokensOf (scan a).dropLast ++ [Token.eof (1 + newlines a.toList)])).errors
      = [] := by
    rw [← hsplit, hparse]
  rw [scan_append_newline_of_checkSource ha, tokensOf_append, tokensOf_shift,
    parse_append_of_errors_eq_nil (fun _ => isEof_eq_false_of_mem_dropLast) rfl herrors, ← hsplit, hparse,
    parse_relabel _ (exists_isEof_scan b)]
  rfl

/-- If the first text passes the check, the check of both is that of the second one. -/
theorem checkSource_append_newline :
    checkSource (a ++ "\n" ++ b)
      = match checkSource b with
        | .ok ss' =>
          .ok (ss ++ Stmt.relabelAll (Lexeme.shift (newlines a.toList + 1)) ss')
        | .error ds => .error (ds.map (Diagnostic.shift (newlines a.toList + 1))) := by
  have hes := errorsOf_scan_append_newline ha b
  have hparse := parse_scan_append_newline ha b
  generalize newlines a.toList + 1 = k at hes hparse ⊢
  -- the first text adds no report of its own
  have hreports : reports (errorsOf (scan (a ++ "\n" ++ b)))
        (parse (tokensOf (scan (a ++ "\n" ++ b)))).errors
      = (reports (errorsOf (scan b)) (parse (tokensOf (scan b))).errors).map
          (Diagnostic.shift k) := by
    rw [hes, hparse, ← reports_shift]
    rfl
  unfold checkSource
  simp only [hreports]
  rw [hparse]
  cases reports (errorsOf (scan b)) (parse (tokensOf (scan b))).errors with
  | nil =>
    show Except.ok (ss ++ List.map _ _) = Except.ok (ss ++ Stmt.relabelAll _ _)
    rw [Stmt.relabelAll_eq_map]
  | cons d ds => rfl

end

/-! ## Running -/

/-- Statements after others are executed on the machine that the others leave. -/
theorem Stmt.execAll_append (frame : Nat) (ss ts : List Stmt) :
    execAll frame (ss ++ ts) = (do execAll frame ss; execAll frame ts) := by
  induction ss with
  | nil => rfl
  | cons s ss ih =>
    funext m
    rw [List.cons_append, execAll, execAll, ih]
    simp only [bind, EStateM.bind]
    cases s.exec frame m <;> rfl

namespace Session

theorem ofExecution_bind {α β : Type} (x : Execution α) (k : α → Execution β) :
    ofExecution (x >>= k) = ofExecution x >>= fun a => ofExecution (k a) := by
  funext m
  simp only [ofExecution, bind, EStateM.bind]
  cases x m <;> rfl

theorem ofExecution_relabel {α : Type} (k : Nat) (x : Execution α) :
    ofExecution (EStateM.adaptExcept (Halt.relabel (Lexeme.shift k)) x)
      = EStateM.adaptExcept (Failure.shift k) (ofExecution x) := by
  funext m
  simp only [ofExecution, EStateM.adaptExcept]
  cases x m <;> rfl

theorem runIn_eq_ofExecution {source : String} {ss : List Stmt} (h : checkSource source = .ok ss)
    (frame : Nat) : runIn frame source = ofExecution (Stmt.execAll frame ss) := by
  funext m
  simp only [runIn, check, bind, EStateM.bind, h]

theorem run_eq_ofExecution {source : String} {ss : List Stmt} (h : checkSource source = .ok ss) :
    run source = ofExecution (Stmt.execAll globals ss) :=
  runIn_eq_ofExecution h globals

theorem run_eq_error {source : String} {ds : List Diagnostic} (h : checkSource source = .error ds)
    (m : Machine) : run source m = .error (.static ds) m := by
  simp only [run, runIn, check, bind, EStateM.bind, h]

theorem prompt_eq_ofExecution {source : String} {ss : List Stmt} (h : checkSource source = .ok ss) :
    prompt source = ofExecution (Stmt.execAll globals (echoing ss)) := by
  funext m
  simp only [prompt, check, bind, EStateM.bind, h]

theorem prompt_eq_error {source : String} {ds : List Diagnostic}
    (h : checkSource source = .error ds) (m : Machine) :
    prompt source m = .error (.static ds) m := by
  simp only [prompt, check, bind, EStateM.bind, h]

/-- **Two source texts are run as one in the same way as one after the other.** If both pass the
check, the run of both as one text is the run of the first and, if that comes to its end, the run
of the second, with the lines of its errors further down. If only the first one passes, the run is
refused with the reports about the second one, further down, and changes nothing. -/
theorem run_append_newline {a : String} {ss : List Stmt} (ha : checkSource a = .ok ss)
    (b : String) (m : Machine) :
    (∀ ss', checkSource b = .ok ss' →
      run (a ++ "\n" ++ b) m
        = (do run a; EStateM.adaptExcept (Failure.shift (newlines a.toList + 1)) (run b)) m)
    ∧ ∀ ds, checkSource b = .error ds →
      run (a ++ "\n" ++ b) m
        = .error (.static (ds.map (Diagnostic.shift (newlines a.toList + 1)))) m := by
  have hcheck := checkSource_append_newline ha b
  refine ⟨fun ss' hb => ?_, fun ds hb => ?_⟩
  · rw [hb] at hcheck
    -- names are looked up by their texts, which are the same further down
    have htext : ∀ x, (Lexeme.shift (newlines a.toList + 1) x).text = x.text := fun _ => rfl
    rw [run_eq_ofExecution hcheck, run_eq_ofExecution ha, run_eq_ofExecution hb,
      Stmt.execAll_append, ofExecution_bind, Stmt.execAll_relabel htext, ofExecution_relabel]
  · rw [hb] at hcheck
    exact run_eq_error hcheck m

/-- A declaration, then a text that fails when it is run, and one that is refused. -/
theorem run_declaration_append_newline :
    checkSource "var a = nil;" = .ok [.declaration ⟨"a", 1⟩ (some (.literal .nil))]
    ∧ checkSource "print -a;" = .ok [.print (.unary .negate ⟨"-", 1⟩ (.var ⟨"a", 1⟩))]
    ∧ checkSource "print -a" = .error [⟨1, " at end", "Expect ';' after value."⟩]
    ∧ newlines "var a = nil;".toList = 0
    ∧ run ("var a = nil;" ++ "\n" ++ "print -a;") (start .unlimited)
        = (do run "var a = nil;"; EStateM.adaptExcept (Failure.shift (0 + 1)) (run "print -a;"))
            (start .unlimited)
    ∧ run ("var a = nil;" ++ "\n" ++ "print -a") (start .unlimited)
        = .error (.static [⟨2, " at end", "Expect ';' after value."⟩]) (start .unlimited) := by
  have ha : checkSource "var a = nil;" = .ok [.declaration ⟨"a", 1⟩ (some (.literal .nil))] :=
    checkSource_eq_ok_iff.2 (by decide +kernel)
  have hb : checkSource "print -a;" = .ok [.print (.unary .negate ⟨"-", 1⟩ (.var ⟨"a", 1⟩))] :=
    checkSource_eq_ok_iff.2 (by decide +kernel)
  have hc : checkSource "print -a" = .error [⟨1, " at end", "Expect ';' after value."⟩] := by
    have hreports : reports (errorsOf (scan "print -a")) (parse (tokensOf (scan "print -a"))).errors
        = [⟨1, " at end", "Expect ';' after value."⟩] := by decide +kernel
    simp only [checkSource, hreports]
  have hlines : newlines "var a = nil;".toList = 0 := by decide +kernel
  have hrun := (run_append_newline ha "print -a;" (start .unlimited)).1 _ hb
  have hrefused := (run_append_newline ha "print -a" (start .unlimited)).2 _ hc
  rw [hlines] at hrun hrefused
  exact ⟨ha, hb, hc, hlines, hrun, hrefused⟩

end Session

end Lox
