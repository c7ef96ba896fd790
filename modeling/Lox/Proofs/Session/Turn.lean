import Lox.Proofs.Eval.Output
import Lox.Proofs.Session.Echo
import Lox.Proofs.Session.Ended
import Lox.Proofs.Session.Refusal

/-!
# Lox — lines that are run one after the other

A program is cut into lines that are programs of their own. Run one after the other on one store,
each does what comes of it there, and the run of the whole program does the same as long as no line
fails: then it stops, with the failure of that line, on the line that it has in the program.

* **`Session.turns`** — what comes of each line.
* **`IsProgramLine`** — lines that are programs of their own.
* **`IsProgramLine.runtime_of_failure`** — how a line fails.
* **`Session.run_join_of_free`**, **`Session.run_join_of_failure`** — the run of the whole program.
-/

namespace Lox

/-! ## Turns -/

/-- What comes of a source text: the store that it leaves, the bytes that it prints, and its
failure, if it has one. -/
structure Turn where
  store : Store
  printed : ByteArray
  failure : Option Failure

/-- The result of a run with this outcome, on an output that `w` was written to before. -/
def Turn.result (t : Turn) (w : ByteArray) : EStateM.Result Failure Machine Unit :=
  match t.failure with
  | none => .ok () ⟨t.store, ⟨w ++ t.printed, none⟩⟩
  | some failure => .error failure ⟨t.store, ⟨w ++ t.printed, none⟩⟩

/-- What is printed in turns. -/
def Turn.printedBy : List Turn → ByteArray
  | [] => .empty
  | t :: rest => t.printed ++ printedBy rest

namespace Session

/-- What comes of a source text that is run on a store. -/
def turn (source : String) (s : Store) : Turn :=
  match run source ⟨s, .unlimited⟩ with
  | .ok () m => ⟨m.store, m.sink.written, none⟩
  | .error failure m => ⟨m.store, m.sink.written, some failure⟩

/-- What comes of source texts, each of them run on the store that the one before it leaves, whether
that failed or not. -/
def turns (s : Store) : List String → List Turn
  | [] => []
  | source :: rest => turn source s :: turns (turn source s).store rest

/-- What comes of a source text does not depend on what was written before it is run, and it can
only fail with an error at one of its names and operators. -/
theorem exists_result {source : String} {ss : List Stmt} (h : checkSource source = .ok ss)
    (s : Store) :
    (∀ w, run source ⟨s, ⟨w, none⟩⟩ = (turn source s).result w)
    ∧ ∀ failure, (turn source s).failure = some failure →
      ∃ e : RuntimeError, failure = .halted (.runtime e) ∧ e.blamed ∈ Stmt.lexemesOfAll ss := by
  obtain ⟨r, s', printed, hr⟩ := Stmt.prints_execAll globals ss s
  cases r with
  | ok a =>
    have hrun : ∀ w, run source ⟨s, ⟨w, none⟩⟩ = .ok () ⟨s', ⟨w ++ printed, none⟩⟩ := by
      intro w
      simp only [run_eq_ofExecution h, ofExecution, hr, Execution.ended]
    have hturn : turn source s = ⟨s', printed, none⟩ := by
      simp only [turn, Sink.unlimited, hrun, ByteArray.empty_append]
    rw [hturn]
    refine ⟨hrun, fun failure hfailure => ?_⟩
    cases hfailure
  | error e =>
    have hrun : ∀ w, run source ⟨s, ⟨w, none⟩⟩
        = .error (.halted (.runtime e)) ⟨s', ⟨w ++ printed, none⟩⟩ := by
      intro w
      simp only [run_eq_ofExecution h, ofExecution, hr, Execution.ended]
    have hturn : turn source s = ⟨s', printed, some (.halted (.runtime e))⟩ := by
      simp only [turn, Sink.unlimited, hrun, ByteArray.empty_append]
    rw [hturn]
    refine ⟨hrun, fun failure hfailure => ?_⟩
    cases hfailure
    exact ⟨e, rfl, Stmt.blamed_mem_lexemesOfAll (hr .empty)⟩

end Session

/-! ## Lines -/

/-- The text is a line and a program of its own, of which a prompt does not show a value. -/
structure IsProgramLine (line : String) : Prop where
  isLine : IsLine line
  checked : ∃ ss, checkSource line = .ok ss ∧ ∀ e, ss ≠ [.expression e]

namespace IsProgramLine

variable {line : String} (h : IsProgramLine line)

include h

/-- Without its line end the line has the same statements, and it has no other line end. -/
theorem exists_text : ∃ (a : String) (ss : List Stmt), line = a ++ "\n" ∧ newlines a.toList = 0
    ∧ checkSource a = .ok ss ∧ checkSource line = .ok ss := by
  obtain ⟨⟨a, ha, rfl⟩, ss, hss, -⟩ := h
  exact ⟨a, ss, rfl, List.count_eq_zero.2 ha, checkSource_of_append_newline hss, hss⟩

/-- At a prompt the line does what it does as a source text. -/
theorem prompt_eq_run : Session.prompt line = Session.run line := by
  obtain ⟨ss, hss, hother⟩ := h.checked
  rw [Session.prompt_eq_ofExecution hss, Session.run_eq_ofExecution hss,
    Session.echoing_eq_self hother]

theorem run_eq_result (s : Store) (w : ByteArray) :
    Session.run line ⟨s, ⟨w, none⟩⟩ = (Session.turn line s).result w := by
  obtain ⟨ss, hss, -⟩ := h.checked
  exact (Session.exists_result hss s).1 w

/-- The line can only fail with an error of the program, which it reports on its first line. -/
theorem runtime_of_failure {s : Store} {failure : Failure}
    (hfailure : (Session.turn line s).failure = some failure) :
    ∃ e : RuntimeError, failure = .halted (.runtime e) ∧ e.blamed.line = 1 := by
  obtain ⟨a, ss, rfl, hlines, hcheck, hss⟩ := h.exists_text
  obtain ⟨e, rfl, hblamed⟩ := (Session.exists_result hss s).2 failure hfailure
  refine ⟨e, rfl, ?_⟩
  obtain ⟨-, hparse⟩ := checkSource_eq_ok_iff.1 hcheck
  have hread := lexemesOfAll_parse_subset (exists_isEof_scan a)
  rw [hparse] at hread
  replace hread := hread hblamed
  obtain ⟨t, ht, hlexeme⟩ := List.mem_map.1 hread
  have hline := line_of_mem_scan (mem_tokensOf.1 ht)
  rw [hlines, ScanItem.line, hlexeme] at hline
  omega

end IsProgramLine

theorem Session.runtime_of_mem_turns {lines : List String} (h : ∀ line ∈ lines, IsProgramLine line)
    {s : Store} {t : Turn} (ht : t ∈ turns s lines) {failure : Failure}
    (hfailure : t.failure = some failure) :
    ∃ e : RuntimeError, failure = .halted (.runtime e) ∧ e.blamed.line = 1 := by
  induction lines generalizing s with
  | nil => cases ht
  | cons line lines ih =>
    obtain ⟨hline, hlines⟩ := List.forall_mem_cons.1 h
    rcases List.mem_cons.1 ht with rfl | ht
    · exact hline.runtime_of_failure hfailure
    · exact ih hlines ht

/-! ## The whole program -/

theorem Failure.shift_zero (failure : Failure) : failure.shift 0 = failure := by
  cases failure with
  | static ds => exact congrArg Failure.static (List.map_id ds)
  | halted halt => cases halt <;> rfl

theorem Failure.shift_shift (failure : Failure) (k l : Nat) :
    (failure.shift k).shift l = failure.shift (k + l) := by
  cases failure with
  | static ds =>
    have hshift : Diagnostic.shift l ∘ Diagnostic.shift k = Diagnostic.shift (k + l) := by
      funext d
      simp only [Function.comp, Diagnostic.shift, Nat.add_assoc]
    rw [shift, shift, List.map_map, hshift, shift]
  | halted halt =>
    cases halt with
    | runtime e =>
      simp only [shift, Halt.relabel, RuntimeError.relabel, Lexeme.shift, Nat.add_assoc]
    | output reason => rfl

namespace Session

theorem checkSource_empty : checkSource "" = .ok [] := by
  rw [checkSource_eq_ok_iff, scan_empty]
  exact ⟨rfl, rfl⟩

theorem exists_checkSource_join {lines : List String} (h : ∀ line ∈ lines, IsProgramLine line) :
    ∃ ss, checkSource (String.join lines) = .ok ss := by
  induction lines with
  | nil => exact ⟨[], checkSource_empty⟩
  | cons line lines ih =>
    obtain ⟨hline, hlines⟩ := List.forall_mem_cons.1 h
    obtain ⟨a, ss, rfl, -, hcheck, -⟩ := hline.exists_text
    obtain ⟨ss', hss'⟩ := ih hlines
    have hjoin := checkSource_append_newline hcheck (String.join lines)
    rw [hss'] at hjoin
    exact ⟨_, String.join_cons ▸ hjoin⟩

/-- The run of a program is that of its first line and then that of the others, further down. -/
theorem run_join_cons {line : String} {lines : List String} (hline : IsProgramLine line)
    (hlines : ∀ line ∈ lines, IsProgramLine line) :
    run (String.join (line :: lines)) = (do
      run line
      EStateM.adaptExcept (Failure.shift 1) (run (String.join lines))) := by
  obtain ⟨a, ss, rfl, hnone, hcheck, hss⟩ := hline.exists_text
  obtain ⟨ss', hss'⟩ := exists_checkSource_join hlines
  have hjoin := checkSource_append_newline hcheck (String.join lines)
  rw [hss', hnone] at hjoin
  have htext : ∀ x, (Lexeme.shift (0 + 1) x).text = x.text := fun _ => rfl
  rw [String.join_cons, run_eq_ofExecution hjoin, run_eq_ofExecution hss, run_eq_ofExecution hss',
    Stmt.execAll_append, ofExecution_bind, Stmt.execAll_relabel htext, ofExecution_relabel]

/-- If no line fails, the program prints what the lines print. -/
theorem run_join_of_free {lines : List String} (h : ∀ line ∈ lines, IsProgramLine line) {s : Store}
    (hfree : ∀ t ∈ turns s lines, t.failure = none) (w : ByteArray) :
    ∃ s', run (String.join lines) ⟨s, ⟨w, none⟩⟩
      = .ok () ⟨s', ⟨w ++ Turn.printedBy (turns s lines), none⟩⟩ := by
  induction lines generalizing s w with
  | nil =>
    refine ⟨s, ?_⟩
    have hempty : run (String.join []) ⟨s, ⟨w, none⟩⟩ = .ok () ⟨s, ⟨w, none⟩⟩ :=
      congrFun (run_eq_ofExecution checkSource_empty) _
    rw [hempty, turns, Turn.printedBy, ByteArray.append_empty]
  | cons line lines ih =>
    obtain ⟨hline, hlines⟩ := List.forall_mem_cons.1 h
    obtain ⟨hfirst, hrest⟩ := List.forall_mem_cons.1 hfree
    obtain ⟨s', hrun⟩ := ih hlines hrest (w ++ (turn line s).printed)
    refine ⟨s', ?_⟩
    rw [run_join_cons hline hlines]
    simp only [bind, EStateM.bind, hline.run_eq_result, Turn.result, hfirst, EStateM.adaptExcept,
      hrun, turns, Turn.printedBy, ByteArray.append_assoc]

/-- If a line fails, the program prints what is printed up to there and fails in the same way, on
the line that this is in the program. -/
theorem run_join_of_failure {lines : List String} (h : ∀ line ∈ lines, IsProgramLine line)
    {s : Store} {before after : List Turn} {t : Turn}
    (hturns : turns s lines = before ++ t :: after) (hfree : ∀ t ∈ before, t.failure = none)
    {failure : Failure} (hfailure : t.failure = some failure) (w : ByteArray) :
    run (String.join lines) ⟨s, ⟨w, none⟩⟩
      = .error (failure.shift before.length)
          ⟨t.store, ⟨w ++ (Turn.printedBy before ++ t.printed), none⟩⟩ := by
  induction lines generalizing s w before with
  | nil => exact absurd hturns.symm (List.append_ne_nil_of_right_ne_nil _ (List.cons_ne_nil _ _))
  | cons line lines ih =>
    obtain ⟨hline, hlines⟩ := List.forall_mem_cons.1 h
    rw [run_join_cons hline hlines]
    cases before with
    | nil =>
      obtain ⟨rfl, -⟩ := List.cons.inj hturns
      simp only [bind, EStateM.bind, hline.run_eq_result, Turn.result, hfailure, List.length_nil,
        failure.shift_zero, Turn.printedBy, ByteArray.empty_append]
    | cons first before =>
      obtain ⟨rfl, hrest⟩ := List.cons.inj hturns
      obtain ⟨hfirst, hfree⟩ := List.forall_mem_cons.1 hfree
      simp only [bind, EStateM.bind, hline.run_eq_result, Turn.result, hfirst, EStateM.adaptExcept,
        ih hlines hrest hfree, failure.shift_shift, List.length_cons, Turn.printedBy,
        ByteArray.append_assoc]

end Session

end Lox
