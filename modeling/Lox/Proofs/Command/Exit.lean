import Lox.Command.Run
import Lox.Proofs.Command.Lines
import Lox.Proofs.Session.Truncation
import Lox.Proofs.Session.Turn

/-!
# Lox — how the command ends

The command is handed a source text in an argument or in a file. Its exit code and what it writes
are settled by the run of that text alone. An output that takes nothing makes a difference to runs
that print something, and to no others: the first print ends the command, so that an error of the
program after it is not found, while one in front of it is reported as usual.

* **`Command.Runs`** — arguments that hand over a source text.
* **`Command.answer_eq_ofRun`** — all of them are answered by the run of that text.
* **`Verdict`** — what can come of a source text.
* **`Report.ofRun_limited`** — the run with limited output.
* **`Command.exit_law`** — exit codes and streams.
-/

namespace Lox

/-! ## Arguments -/

namespace Argument

variable (source : String)

theorem ofString_short : ofString ("-e=" ++ source) = .evaluate source := by
  have hchars : ("-e=" ++ source).toList = '-' :: 'e' :: '=' :: source.toList := String.toList_append
  rw [ofString, hchars]
  exact congrArg Argument.evaluate String.ofList_toList

theorem ofString_long : ofString ("--eval=" ++ source) = .evaluate source := by
  have hchars : ("--eval=" ++ source).toList
      = '-' :: '-' :: 'e' :: 'v' :: 'a' :: 'l' :: '=' :: source.toList := String.toList_append
  rw [ofString, hchars]
  exact congrArg Argument.evaluate String.ofList_toList

theorem ofString_word {name : String} (h : name.toList.head? ≠ some '-') :
    ofString name = .word := by
  unfold ofString
  split
  · next hchars => exact absurd (by rw [hchars]; rfl) h
  · next hchars => exact absurd (by rw [hchars]; rfl) h
  · next hchars => exact absurd (by rw [hchars]; rfl) h
  · rfl

end Argument

namespace Invocation

theorem ofArguments?_evaluate {arg source : String} (h : Argument.ofString arg = .evaluate source) :
    ofArguments? [arg] = some (.evaluate source) := by
  have hdashes : arg ≠ "--" := by
    rintro rfl
    cases h
  rw [ofArguments?, ofArgumentsFrom?, h]
  · rfl
  · simpa using hdashes

theorem ofArguments?_file {name : String} (hname : name ≠ "")
    (hdash : name.toList.head? ≠ some '-') : ofArguments? [name] = some (.file name) := by
  have hdashes : name ≠ "--" := by
    rintro rfl
    exact hdash rfl
  have hadd : Requested.nothing.addFile? name = some ⟨some name, none⟩ := if_neg hname
  rw [ofArguments?, ofArgumentsFrom?, Argument.ofString_word hdash]
  · rw [hadd]
    rfl
  · simpa using hdashes

end Invocation

namespace Command

variable {read : String → Except ReadFailure ByteArray} {source : String}

/-- The arguments hand a source text to the command: behind the short or the long name of the
option, or in a file with a name that is not taken for an option. -/
inductive Runs (read : String → Except ReadFailure ByteArray) (source : String) :
    List String → Prop where
  | short : Runs read source ["-e=" ++ source]
  | long : Runs read source ["--eval=" ++ source]
  | file {name : String} (hname : name ≠ "") (hdash : name.toList.head? ≠ some '-')
      (hread : read name = .ok source.toUTF8) : Runs read source [name]

/-- **However a source text is handed over, the answer is the report of its run.** -/
theorem answer_eq_ofRun {args : List String} (h : Runs read source args) (input : ByteArray)
    (output : Sink) : answer args read input output = Report.ofRun source output := by
  cases h with
  | short =>
    simp only [answer, Invocation.ofArguments?_evaluate (Argument.ofString_short source), perform]
  | long =>
    simp only [answer, Invocation.ofArguments?_evaluate (Argument.ofString_long source), perform]
  | file hname hdash hread =>
    simp only [answer, Invocation.ofArguments?_file hname hdash, perform, hread, Report.ofFile,
      fromUTF8?_toUTF8]

end Command

/-! ## The run -/

/-- What is seen of the command from outside: its exit code, the bytes on its output, and its text
about errors. -/
structure Behaviour where
  code : Nat
  written : ByteArray
  errors : String

/-- What is seen of a report. -/
def Report.behaviour (r : Report) : Behaviour := ⟨r.exit.code, r.output.written, r.errors⟩

/-- Reports with each of them on a line of its own. -/
def Diagnostic.lines (ds : List Diagnostic) : String := String.join (ds.map (·.text ++ "\n"))

theorem Diagnostic.textOfAll_append_newline {ds : List Diagnostic} (h : ds ≠ []) :
    textOfAll ds ++ "\n" = lines ds := by
  induction ds with
  | nil => exact absurd rfl h
  | cons d ds ih =>
    cases ds with
    | nil =>
      simp only [textOfAll, lines, List.map_cons, List.map_nil, String.intercalate_singleton,
        String.join_cons, String.join_nil, String.append_empty]
    | cons d' ds =>
      have hrest := ih (List.cons_ne_nil _ _)
      simp only [textOfAll, lines, List.map_cons] at hrest ⊢
      rw [String.intercalate_cons_cons, String.append_assoc, hrest, ← String.join_cons]

theorem ne_nil_of_checkSource {source : String} {ds : List Diagnostic}
    (h : checkSource source = .error ds) : ds ≠ [] := by
  rintro rfl
  simp only [checkSource] at h
  split at h
  · cases h
  · next hne => exact hne (Except.error.inj h)

/-- What can come of a source text on an output that takes everything. -/
inductive Verdict (source : String) : Behaviour → Prop where
  /-- Nothing is run, and everything that is wrong with the text is reported. -/
  | refused {ds : List Diagnostic} (h : checkSource source = .error ds) :
      Verdict source ⟨65, .empty, Diagnostic.lines ds⟩
  /-- The run ends with an error of the program, and what was printed before it stays. -/
  | halted {e : RuntimeError} {m : Machine}
      (h : Session.run source (Session.start .unlimited) = .error (.halted (.runtime e)) m) :
      Verdict source ⟨70, m.sink.written, e.text ++ "\n"⟩
  /-- The run comes to its end. -/
  | ended {m : Machine} (h : Session.run source (Session.start .unlimited) = .ok () m) :
      Verdict source ⟨0, m.sink.written, ""⟩

namespace Verdict

variable {source : String} {b : Behaviour}

theorem code_ne_one (h : Verdict source b) : b.code ≠ 1 := by
  cases h with
  | refused h => exact (by decide : 65 ≠ 1)
  | halted h => exact (by decide : 70 ≠ 1)
  | ended h => exact Nat.zero_ne_one

theorem eq_behaviour (h : Verdict source b) :
    (Report.ofRun source .unlimited).behaviour = b := by
  cases h with
  | refused h =>
    rw [Report.ofRun, Session.run_eq_error h,
      ← Diagnostic.textOfAll_append_newline (ne_nil_of_checkSource h)]
    rfl
  | halted h =>
    rw [Report.ofRun, h]
    rfl
  | ended h =>
    rw [Report.ofRun, h]
    rfl

/-- One of them comes of every source text: the output is never the reason to end. -/
theorem of_run (source : String) : Verdict source (Report.ofRun source .unlimited).behaviour := by
  cases hcheck : checkSource source with
  | error ds =>
    have h := Verdict.refused hcheck
    rwa [h.eq_behaviour]
  | ok ss =>
    obtain ⟨hresult, hhalted⟩ := Session.exists_result hcheck Store.initial
    have hrun := hresult .empty
    cases hfailure : (Session.turn source Store.initial).failure with
    | none =>
      simp only [Turn.result, hfailure] at hrun
      have h := Verdict.ended hrun
      rwa [h.eq_behaviour]
    | some failure =>
      obtain ⟨e, rfl, -⟩ := hhalted failure hfailure
      simp only [Turn.result, hfailure] at hrun
      have h := Verdict.halted hrun
      rwa [h.eq_behaviour]

end Verdict

/-! ## Limited output -/

namespace Report

/-- The same end with another sink is reported in the same way. -/
theorem ofResult_mapState (k : Sink) (x : EStateM.Result Failure Machine Unit) :
    ofResult (mapState (·.withSink k) x) = { ofResult x with output := k } := by
  cases x with
  | ok a m => rfl
  | error failure m =>
    cases failure with
    | static ds => rfl
    | halted halt => cases halt <;> rfl

theorem output_ofResult (x : EStateM.Result Failure Machine Unit) :
    (ofResult x).output = (endState x).sink := by
  cases x with
  | ok a m => rfl
  | error failure m =>
    cases failure with
    | static ds => rfl
    | halted halt => cases halt <;> rfl

/-- **A limit is seen of a run that prints more than that, and of no other.** -/
theorem ofRun_limited (source : String) (room : Nat) (reason : String) :
    let free := (ofRun source .unlimited).behaviour
    let full := (ofRun source (.limited room reason)).behaviour
    (free.written.size ≤ room → full = free)
    ∧ (room < free.written.size →
      full = ⟨1, free.written.extract 0 room,
        failureText ("Failed to write output: " ++ reason) (some reason)⟩) := by
  have htruncates : ∃ code, Truncates (Session.run source) (fun reason => .halted (.output reason))
      code Session.globals := by
    cases hcheck : checkSource source with
    | error ds => exact ⟨[], .of_error (Session.run_eq_error hcheck)⟩
    | ok ss =>
      rw [Session.run_eq_ofExecution hcheck]
      exact ⟨_, (Stmt.truncates_execAll Session.globals ss).ofExecution⟩
  obtain ⟨code, htruncates⟩ := htruncates
  obtain ⟨printed, hprinted, hshort, hlong⟩ := htruncates Store.initial .empty room reason
  rw [ByteArray.empty_append] at hprinted hshort hlong
  have hwritten : (ofRun source .unlimited).behaviour.written = printed := by
    have houtput := output_ofResult (Session.run source (Session.start .unlimited))
    exact congrArg Sink.written (houtput.trans hprinted)
  simp only [hwritten]
  refine ⟨fun hroom => ?_, fun hroom => ?_⟩
  · have hrun := congrArg ofResult (hshort hroom)
    rw [ofResult_mapState] at hrun
    have hseen := congrArg behaviour hrun
    exact hseen.trans (congrArg (Behaviour.mk _ · _) hwritten.symm)
  · obtain ⟨τ, -, hrun⟩ := hlong hroom
    exact congrArg (fun x => behaviour (ofResult x)) hrun

end Report

namespace Command

variable {read : String → Except ReadFailure ByteArray} {source : String}

/-- **Exit codes and streams are settled by the run of the source text.** However the text is handed
over, the command answers the same, whatever its output is and whatever its input holds. If the
output takes everything, the answer is what comes of the text: the reports about it, or what its run
prints, with the error that ends the run, if there is one. The exit code is never that of a failure
of the command. If the output refuses every byte, then the exit code is that of such a failure
exactly if the run prints something on an output that takes it. In that case nothing is written, and
the text about errors gives the reason of the output. Otherwise the answer is the same as there. -/
theorem exit_law {args : List String} (h : Runs read source args) (input : ByteArray) :
    let free := (answer args read input .unlimited).behaviour
    (∀ read' args', Runs read' source args' → ∀ input' output,
      answer args' read' input' output = answer args read input output)
    ∧ (∀ b, free = b ↔ Verdict source b)
    ∧ free.code ≠ 1
    ∧ ∀ reason,
      let full := (answer args read input (.limited 0 reason)).behaviour
      (full.code = 1 ↔ 0 < free.written.size)
      ∧ (0 < free.written.size →
        full = ⟨1, .empty, failureText ("Failed to write output: " ++ reason) (some reason)⟩)
      ∧ (free.written.size = 0 → full = free) := by
  have hverdict := Verdict.of_run source
  simp only [answer_eq_ofRun h]
  refine ⟨fun read' args' h' input' output => answer_eq_ofRun h' input' output,
    fun b => ⟨fun hb => hb ▸ hverdict, Verdict.eq_behaviour⟩, hverdict.code_ne_one,
    fun reason => ?_⟩
  obtain ⟨hshort, hlong⟩ := Report.ofRun_limited source 0 reason
  rw [ByteArray.extract_same] at hlong
  refine ⟨⟨fun hcode => Nat.pos_of_ne_zero fun hsize => ?_, fun hsize => ?_⟩, hlong,
    fun hsize => hshort hsize.le⟩
  · rw [hshort hsize.le] at hcode
    exact hverdict.code_ne_one hcode
  · rw [hlong hsize]

/-- Prints something, and then fails on the second line. -/
def failsAfterPrint : String := "print true;\nprint -nil;"

/-- The error of the program is not found on a device that is full. -/
theorem exit_law_failsAfterPrint :
    let read := fun _ => Except.ok failsAfterPrint.toUTF8
    Runs read failsAfterPrint ["-e=print true;\nprint -nil;"]
    ∧ Runs read failsAfterPrint ["script.lox"]
    ∧ answer ["script.lox"] read .empty fullDevice
      = answer ["-e=print true;\nprint -nil;"] read .empty fullDevice
    ∧ (answer ["-e=print true;\nprint -nil;"] read .empty .unlimited).behaviour
      = ⟨70, "true\n".toUTF8, "[line 2] Error at '-': Operand must be a number.\n"⟩
    ∧ (answer ["-e=print true;\nprint -nil;"] read .empty fullDevice).behaviour
      = ⟨1, .empty, failureText "Failed to write output: No space left on device (os error 28)"
          (some "No space left on device (os error 28)")⟩ := by
  have hcheck : checkSource failsAfterPrint
      = .ok [.print (.literal (.bool true)), .print (.unary .negate ⟨"-", 2⟩ (.literal .nil))] :=
    checkSource_eq_ok_iff.2 (by decide +kernel)
  have hrun : Session.run failsAfterPrint (Session.start .unlimited)
      = .error (.halted (.runtime ⟨.operandNotNumber .nil, ⟨"-", 2⟩⟩))
          ⟨Store.initial, ⟨"true\n".toUTF8, none⟩⟩ := by
    rw [Session.run_eq_ofExecution hcheck]
    cbv
  intro read
  have hshort : Runs read failsAfterPrint ["-e=print true;\nprint -nil;"] := .short
  have hfile : Runs read failsAfterPrint ["script.lox"] := .file (by decide) (by decide) rfl
  obtain ⟨hsame, hfree, -, hfull⟩ := exit_law hshort .empty
  have hbehaviour := (hfree _).2 (.halted hrun)
  refine ⟨hshort, hfile, hsame _ _ hfile .empty fullDevice, hbehaviour, ?_⟩
  exact (hfull _).2.1 (by rw [hbehaviour]; decide)

end Command

end Lox
