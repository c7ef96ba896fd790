import Lox.Eval.Stmt
import Lox.Source.Check

/-!
# Lox — running source text

Source texts are run one after the other on one machine. A text with errors is refused and
changes nothing.

* **`Session.run`** — runs a source text in the global frame.
* **`Session.prompt`** — the same for a line typed at a prompt, where an expression on its own
  shows its value.
-/

namespace Lox

/-- Why a source text was not run to its end. -/
inductive Failure where
  | static (reports : List Diagnostic)
  | halted (halt : Halt)
deriving DecidableEq

/-- How a failure is reported. -/
def Failure.text : Failure → String
  | .static reports => Diagnostic.textOfAll reports
  | .halted halt => halt.text

/-- A computation on the machine that may be refused or stop early. -/
abbrev Session := EStateM Failure Machine

namespace Session

/-- The machine at the start: a global frame without names. -/
def start (sink : Sink) : Machine := ⟨Store.initial, sink⟩

/-- The number of the global frame. -/
def globals : Nat := 0

/-- Runs an execution as part of a session. -/
def ofExecution {α : Type} (x : Execution α) : Session α := fun m =>
  match x m with
  | .ok a m' => .ok a m'
  | .error halt m' => .error (.halted halt) m'

/-- The statements of a source text, or its refusal. -/
def check (source : String) : Session (List Stmt) := fun m =>
  match checkSource source with
  | .ok statements => .ok statements m
  | .error reports => .error (.static reports) m

/-- Runs a source text in a frame. -/
def runIn (frame : Nat) (source : String) : Session Unit := do
  let statements ← check source
  ofExecution (Stmt.execAll frame statements)

/-- Runs a source text in the global frame. -/
def run (source : String) : Session Unit := runIn globals source

/-- What is executed for a line typed at a prompt: a single expression is printed. -/
def echoing : List Stmt → List Stmt
  | [.expression e] => [.print e]
  | statements => statements

/-- Runs a line typed at a prompt in the global frame. -/
def prompt (source : String) : Session Unit := do
  let statements ← check source
  ofExecution (Stmt.execAll globals (echoing statements))

end Session

end Lox
