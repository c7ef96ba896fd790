import Lox.Command.Arguments
import Lox.Command.Prompt

/-!
# Lox — the command

The command reads its arguments and runs a file, a source text or the prompt.

* **`Command.perform`** — the report of doing what the arguments ask for.
* **`Command.answer`** — the report for a list of arguments.
-/

namespace Lox

namespace Command

/-- The name and version of the command. -/
def versionText : String := "declox 0.1.0\n"

/-- How the command is used. -/
def usageText : String :=
  "Runs a script, or starts an interactive prompt when no script is given.\n\n"
    ++ "Usage: declox [OPTIONS] [FILE]\n\n"
    ++ "Options:\n"
    ++ "  -e, --eval <SOURCE>  Run SOURCE instead of a script file\n"
    ++ "  -h, --help           Print help\n"
    ++ "  -V, --version        Print version\n"

/-- Writes a text about the command itself; an output that refuses it is no failure. -/
def about (text : String) (output : Sink) : Report := ⟨.success, (output.write text).2, ""⟩

/-- The answer to arguments that are not understood. -/
def misused (output : Sink) : Report := ⟨.usage, output, usageText⟩

/-- Does what the arguments ask for. -/
def perform (read : String → Except ReadFailure ByteArray) (input : ByteArray) (output : Sink) :
    Invocation → Report
  | .version => about versionText output
  | .help => about usageText output
  | .file name => Report.ofFile name (read name) output
  | .evaluate source => Report.ofRun source output
  | .prompt => Prompt.answer input output

/-- The answer to a list of arguments. -/
def answer (args : List String) (read : String → Except ReadFailure ByteArray)
    (input : ByteArray) (output : Sink) : Report :=
  match Invocation.ofArguments? args with
  | some invocation => perform read input output invocation
  | none => misused output

/-- An output device that refuses every byte. -/
def fullDevice : Sink := Sink.limited 0 "No space left on device (os error 28)"

end Command

end Lox
