import Lox.Command.Folder
import Lox.Session

/-!
# Lox — reports of the command

What a run of the command leaves behind: how it ended, what it wrote to its output, and what
it wrote beside it about errors.

* **`Report.ofRun`** — the report of running one source text on a fresh machine.
* **`Report.ofFile`** — the same for the source text in a file.
-/

namespace Lox

/-! ## Exit codes -/

/-- How a run of the command ended. -/
inductive Exit where
  | success
  | failure
  | usage
  | staticError
  | runtimeError
deriving DecidableEq

/-- The number of an exit. -/
def Exit.code : Exit → Nat
  | .success => 0
  | .failure => 1
  | .usage => 2
  | .staticError => 65
  | .runtimeError => 70

/-! ## Reports -/

/-- How a run of the command ended, its output, and its text about errors. -/
structure Report where
  exit : Exit
  output : Sink
  errors : String

/-- How a failure of the command itself is shown, with its cause, if it has one. -/
def failureText (message : String) : (cause : Option String) → String
  | none => "Error: " ++ message ++ "\n"
  | some cause => "Error: " ++ message ++ "\n\nCaused by:\n    " ++ cause ++ "\n"

namespace Report

/-- The report of a run on a fresh machine, by its result. -/
def ofResult : EStateM.Result Failure Machine Unit → Report
  | .ok () m => ⟨.success, m.sink, ""⟩
  | .error (.static ds) m => ⟨.staticError, m.sink, Diagnostic.textOfAll ds ++ "\n"⟩
  | .error (.halted (.runtime e)) m => ⟨.runtimeError, m.sink, e.text ++ "\n"⟩
  | .error (.halted (.output reason)) m =>
    ⟨.failure, m.sink, failureText (Halt.output reason).text (some reason)⟩

/-- The report of running a source text on a fresh machine. -/
def ofRun (source : String) (output : Sink) : Report :=
  ofResult (Session.run source (Session.start output))

/-- The report that a file could not be read. -/
def unreadable (name : String) (reason : ReadFailure) (output : Sink) : Report :=
  ⟨.failure, output, failureText ("Could not read " ++ name) (some reason.message)⟩

/-- The report of running the source text in a file, if the file can be read and is text. -/
def ofFile (name : String) (content : Except ReadFailure ByteArray) (output : Sink) : Report :=
  match content with
  | .error reason => unreadable name reason output
  | .ok bytes =>
    match String.fromUTF8? bytes with
    | some source => ofRun source output
    | none => unreadable name .notText output

end Report

end Lox
