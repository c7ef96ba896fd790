import Lox.Command.Run
import Lox.Proofs.Command.Lines
import Lox.Proofs.Session.Turn
import Mathlib

/-!
# Lox — a program at the prompt and in a file

A program whose lines are programs of their own can be typed at the prompt line by line, or run from
a file. Both print the same, but for the questions of the prompt, up to the first line that fails.
There the run of the file stops, while the prompt reports the error and asks for the next line.

* **`Turn.transcript`**, **`Turn.complaints`** — what a prompt writes.
* **`Prompt.answerFrom_lines`** — the prompt.
* **`Command.dialogue_law`** — the prompt and the run of a file.
-/

namespace Lox

/-! ## What a prompt writes -/

namespace Turn

/-- What a prompt prints: its question in front of each turn, and in front of the line end with
which it ends. -/
def transcript : List Turn → ByteArray
  | [] => (Prompt.question ++ "\n").toUTF8
  | t :: rest => Prompt.question.toUTF8 ++ t.printed ++ transcript rest

/-- The report about a turn, if it failed. -/
def complaint (t : Turn) : String := t.failure.elim "" (·.text ++ "\n")

/-- What a prompt reports about turns. -/
def complaints : List Turn → String
  | [] => ""
  | t :: rest => t.complaint ++ complaints rest

theorem complaints_append_of_free {before : List Turn} (h : ∀ t ∈ before, t.failure = none)
    (rest : List Turn) : complaints (before ++ rest) = complaints rest := by
  induction before with
  | nil => rfl
  | cons t before ih =>
    obtain ⟨ht, hbefore⟩ := List.forall_mem_cons.1 h
    rw [List.cons_append, complaints, ih hbefore, complaint, ht]
    exact String.empty_append

theorem complaints_of_free {ts : List Turn} (h : ∀ t ∈ ts, t.failure = none) :
    complaints ts = "" := by
  have happend := complaints_append_of_free h []
  rwa [List.append_nil] at happend

end Turn

/-- The turns after a line are those of the lines that are left, on the store that the line
leaves. -/
theorem Session.turns_eq_of_append {s : Store} {lines : List String} {before after : List Turn}
    {t : Turn} (h : turns s lines = before ++ t :: after) :
    after = turns t.store (lines.drop (before.length + 1)) := by
  induction lines generalizing s before with
  | nil => exact absurd h.symm (List.append_ne_nil_of_right_ne_nil _ (List.cons_ne_nil _ _))
  | cons line lines ih =>
    cases before with
    | nil =>
      obtain ⟨rfl, hrest⟩ := List.cons.inj h
      exact hrest.symm
    | cons first before => exact ih (List.cons.inj h).2

/-! ## The prompt -/

namespace Prompt

/-- The prompt in front of a line that is a program of its own does its turn. -/
theorem runBytes_line {line : String} (h : IsProgramLine line) (s : Store) (w : ByteArray)
    (errors : String) :
    runBytes ⟨⟨s, ⟨w, none⟩⟩, errors⟩ line.toUTF8
      = .ok ⟨⟨(Session.turn line s).store, ⟨w ++ (Session.turn line s).printed, none⟩⟩,
          errors ++ (Session.turn line s).complaint⟩ := by
  rw [runBytes, fromUTF8?_toUTF8]
  simp only [run, h.prompt_eq_run, h.run_eq_result, Turn.result, Turn.complaint]
  cases hfailure : (Session.turn line s).failure with
  | none => exact congrArg (fun e => Except.ok (Prompt.mk _ e)) String.append_empty.symm
  | some failure =>
    obtain ⟨e, rfl, -⟩ := h.runtime_of_failure hfailure
    rfl

/-- The prompt asks for lines until there are none left, whether they fail or not. -/
theorem answerFrom_lines {lines : List String} (h : ∀ line ∈ lines, IsProgramLine line) (s : Store)
    (w : ByteArray) (errors : String) :
    answerFrom ⟨⟨s, ⟨w, none⟩⟩, errors⟩ (lines.map String.toUTF8)
      = ⟨.success, ⟨w ++ Turn.transcript (Session.turns s lines), none⟩,
          errors ++ Turn.complaints (Session.turns s lines)⟩ := by
  induction lines generalizing s w errors with
  | nil =>
    have hend : answerFrom ⟨⟨s, ⟨w, none⟩⟩, errors⟩ []
        = ⟨.success, ⟨w ++ question.toUTF8 ++ "\n".toUTF8, none⟩, errors⟩ := rfl
    rw [List.map_nil, hend, Session.turns, Turn.transcript, Turn.complaints, toUTF8_append,
      ByteArray.append_assoc, String.append_empty]
  | cons line lines ih =>
    obtain ⟨hline, hlines⟩ := List.forall_mem_cons.1 h
    have hasked : say ⟨⟨s, ⟨w, none⟩⟩, errors⟩ question
        = .ok ⟨⟨s, ⟨w ++ question.toUTF8, none⟩⟩, errors⟩ := rfl
    rw [List.map_cons, answerFrom, hasked, Except.bind, runBytes_line hline]
    simp only [ih hlines, Session.turns, Turn.transcript, Turn.complaints, ByteArray.append_assoc,
      String.append_assoc]

end Prompt

/-! ## The prompt and the file -/

namespace Command

theorem answer_prompt {lines : List String} (h : ∀ line ∈ lines, IsProgramLine line)
    (read : String → Except ReadFailure ByteArray) :
    answer [] read (String.join lines).toUTF8 .unlimited
      = ⟨.success, ⟨Turn.transcript (Session.turns Store.initial lines), none⟩,
          Turn.complaints (Session.turns Store.initial lines)⟩ := by
  have hlines := Prompt.linesFrom_join fun line hline => (h line hline).isLine
  have hprompt : answer [] read (String.join lines).toUTF8 .unlimited
      = (Prompt.start .unlimited).answerFrom (lines.map String.toUTF8) :=
    congrArg (Prompt.start .unlimited).answerFrom hlines
  have hanswer := Prompt.answerFrom_lines h Store.initial .empty ""
  rw [ByteArray.empty_append, String.empty_append] at hanswer
  exact hprompt.trans hanswer

theorem answer_file {args : List String} {name : String}
    (hargs : Invocation.ofArguments? args = some (.file name))
    {read : String → Except ReadFailure ByteArray} {source : String}
    (hread : read name = .ok source.toUTF8) (input : ByteArray) :
    answer args read input .unlimited
      = Report.ofResult (Session.run source (Session.start .unlimited)) := by
  simp only [answer, hargs, perform, hread, Report.ofFile, fromUTF8?_toUTF8, Report.ofRun]

/-- **The prompt and the run of a file agree.** The lines of a program are programs of their own,
and none of them is a single expression. Typed at a prompt, every line is asked for, does its turn on
the store that the line before it leaves, and prints and reports what comes of that; then the prompt
ends successfully. If no turn fails, the run of the file prints what the turns print and ends
successfully. If a turn is the first to fail, then with an error of the program on the first line,
which the prompt reports, to go on with the lines that are left on the store of the turn. The run of
the file prints what is printed up to there and ends with that error, on the line that this is in the
file. -/
theorem dialogue_law {lines : List String} (h : ∀ line ∈ lines, IsProgramLine line)
    {args : List String} {name : String}
    (hargs : Invocation.ofArguments? args = some (.file name))
    (read : String → Except ReadFailure ByteArray)
    (hread : read name = .ok (String.join lines).toUTF8) (input : ByteArray) :
    let turns := Session.turns Store.initial lines
    answer [] read (String.join lines).toUTF8 .unlimited
      = ⟨.success, ⟨Turn.transcript turns, none⟩, Turn.complaints turns⟩
    ∧ ((∀ t ∈ turns, t.failure = none) →
      Turn.complaints turns = ""
      ∧ answer args read input .unlimited = ⟨.success, ⟨Turn.printedBy turns, none⟩, ""⟩)
    ∧ ∀ before t after failure, turns = before ++ t :: after →
      (∀ t ∈ before, t.failure = none) → t.failure = some failure →
      ∃ e : RuntimeError, failure = .halted (.runtime e) ∧ e.blamed.line = 1
        ∧ (e.relabel (Lexeme.shift before.length)).blamed.line = before.length + 1
        ∧ Turn.complaints turns = e.text ++ "\n" ++ Turn.complaints after
        ∧ after = Session.turns t.store (lines.drop (before.length + 1))
        ∧ answer args read input .unlimited
          = ⟨.runtimeError, ⟨Turn.printedBy before ++ t.printed, none⟩,
              (e.relabel (Lexeme.shift before.length)).text ++ "\n"⟩ := by
  have hfile := answer_file hargs hread input
  refine ⟨answer_prompt h read, fun hfree => ⟨Turn.complaints_of_free hfree, ?_⟩,
    fun before t after failure hturns hfree hfailure => ?_⟩
  · obtain ⟨s, hrun⟩ := Session.run_join_of_free h hfree .empty
    rw [hfile, Session.start, Sink.unlimited, hrun, ByteArray.empty_append]
    rfl
  · have ht : t ∈ Session.turns Store.initial lines :=
      hturns ▸ List.mem_append_right before List.mem_cons_self
    obtain ⟨e, rfl, hline⟩ := Session.runtime_of_mem_turns h ht hfailure
    have hrun := Session.run_join_of_failure h hturns hfree hfailure .empty
    refine ⟨e, rfl, hline, ?_, ?_, Session.turns_eq_of_append hturns, ?_⟩
    · show e.blamed.line + before.length = before.length + 1
      omega
    · rw [hturns, Turn.complaints_append_of_free hfree, Turn.complaints, Turn.complaint, hfailure]
      rfl
    · rw [hfile, Session.start, Sink.unlimited, hrun, ByteArray.empty_append]
      rfl

/-- Three lines, of which the second one fails after it printed something. -/
def failsOnSecond : List String :=
  ["var a = true;\n", "print a; print -a; a = nil;\n", "print !a;\n"]

/-- The prompt goes on with the value that the name had when the second line failed. -/
theorem dialogue_law_failsOnSecond :
    (∀ line ∈ failsOnSecond, IsProgramLine line)
    ∧ Invocation.ofArguments? ["script.lox"] = some (.file "script.lox")
    ∧ answer [] (fun _ => .ok (String.join failsOnSecond).toUTF8)
        (String.join failsOnSecond).toUTF8 .unlimited
      = ⟨.success, ⟨"> > true\n> false\n> \n".toUTF8, none⟩,
          "[line 1] Error at '-': Operand must be a number.\n"⟩
    ∧ answer ["script.lox"] (fun _ => .ok (String.join failsOnSecond).toUTF8) .empty .unlimited
      = ⟨.runtimeError, ⟨"true\n".toUTF8, none⟩,
          "[line 2] Error at '-': Operand must be a number.\n"⟩ := by
  have hfirst : checkSource "var a = true;\n"
      = .ok [.declaration ⟨"a", 1⟩ (some (.literal (.bool true)))] :=
    checkSource_eq_ok_iff.2 (by decide +kernel)
  have hsecond : checkSource "print a; print -a; a = nil;\n"
      = .ok [.print (.var ⟨"a", 1⟩), .print (.unary .negate ⟨"-", 1⟩ (.var ⟨"a", 1⟩)),
          .expression (.assign ⟨"a", 1⟩ (.literal .nil))] :=
    checkSource_eq_ok_iff.2 (by decide +kernel)
  have hthird : checkSource "print !a;\n"
      = .ok [.print (.unary .not ⟨"!", 1⟩ (.var ⟨"a", 1⟩))] :=
    checkSource_eq_ok_iff.2 (by decide +kernel)
  have hlines : ∀ line ∈ failsOnSecond, IsProgramLine line := by
    simp only [failsOnSecond, List.forall_mem_cons]
    exact ⟨⟨⟨"var a = true;", by decide, rfl⟩, _, hfirst, by simp⟩,
      ⟨⟨"print a; print -a; a = nil;", by decide, rfl⟩, _, hsecond, by simp⟩,
      ⟨⟨"print !a;", by decide, rfl⟩, _, hthird, by simp⟩, by simp⟩
  have hargs : Invocation.ofArguments? ["script.lox"] = some (.file "script.lox") := by
    decide +kernel
  have hturns : Session.turns Store.initial failsOnSecond
      = [⟨⟨#[⟨[("a", .bool true)], none⟩]⟩, .empty, none⟩]
        ++ ⟨⟨#[⟨[("a", .bool true)], none⟩]⟩, "true\n".toUTF8,
            some (.halted (.runtime ⟨.operandNotNumber (.bool true), ⟨"-", 1⟩⟩))⟩
          :: [⟨⟨#[⟨[("a", .bool true)], none⟩]⟩, "false\n".toUTF8, none⟩] := by
    cbv
  obtain ⟨hprompt, -, hfailure⟩ := dialogue_law hlines hargs
    (fun _ => .ok (String.join failsOnSecond).toUTF8) rfl .empty
  obtain ⟨e, herror, -, -, -, -, hfile⟩ := hfailure _ _ _ _ hturns (by simp) rfl
  cases herror
  rw [hturns] at hprompt
  exact ⟨hlines, hargs, hprompt.trans rfl, hfile.trans rfl⟩

end Command

end Lox
