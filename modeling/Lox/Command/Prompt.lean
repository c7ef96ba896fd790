import Lox.Command.Report

/-!
# Lox — the prompt

The prompt asks for lines and runs each on one machine, until its input ends. Errors in a line
are reported and change nothing about the next; only input that is not text, or an output
that takes no more, ends the prompt early.

* **`Prompt.answerFrom`** — the report of the prompt for the lines to come.
* **`Prompt.answer`** — the report of the prompt for its whole input.
-/

namespace Lox

/-- The prompt between two lines: the machine, and the errors reported so far. -/
structure Prompt where
  machine : Machine
  errors : String

namespace Prompt

/-- The text that asks for a line. -/
def question : String := "> "

/-- A prompt that ended. -/
def ended (p : Prompt) (exit : Exit) : Report := ⟨exit, p.machine.sink, p.errors⟩

/-- The prompt with one more report. -/
def addErrors (p : Prompt) (text : String) : Prompt := { p with errors := p.errors ++ text }

/-- Writes a text to the output; the prompt ends if that takes no more. -/
def say (p : Prompt) (text : String) : Except Report Prompt :=
  match p.machine.sink.write text with
  | (none, sink) => .ok { p with machine := { p.machine with sink } }
  | (some reason, sink) =>
    let p : Prompt := { p with machine := { p.machine with sink } }
    .error ((p.addErrors (failureText reason none)).ended .failure)

/-- Runs a line. Errors in it are reported, and the prompt goes on. -/
def run (p : Prompt) (line : String) : Except Report Prompt :=
  match Session.prompt line p.machine with
  | .ok () m => .ok { p with machine := m }
  | .error (.halted (.output reason)) m =>
    .error (({ p with machine := m }.addErrors (failureText reason none)).ended .failure)
  | .error failure m => .ok ({ p with machine := m }.addErrors (failure.text ++ "\n"))

/-- Runs a line of input bytes, which have to be text. -/
def runBytes (p : Prompt) (line : ByteArray) : Except Report Prompt :=
  match String.fromUTF8? line with
  | some line => p.run line
  | none => .error ((p.addErrors (failureText ReadFailure.notText.message none)).ended .failure)

/-- The end of the input completes the line with the question. -/
def close (p : Prompt) : Report :=
  match p.say "\n" with
  | .ok p => p.ended .success
  | .error report => report

/-- Asks for lines and runs them until there are none left. -/
def answerFrom (p : Prompt) : List ByteArray → Report
  | [] =>
    match p.say question with
    | .ok p => p.close
    | .error report => report
  | line :: rest =>
    match (p.say question).bind (·.runBytes line) with
    | .ok p => answerFrom p rest
    | .error report => report

/-- The lines of the input, each with the newline that ends it, if there is one. -/
def linesFrom (line : ByteArray) : List UInt8 → List ByteArray
  | [] => if line.isEmpty then [] else [line]
  | b :: bs =>
    if b = 10 then line.push b :: linesFrom ByteArray.empty bs else linesFrom (line.push b) bs

/-- The prompt in front of the first line. -/
def start (output : Sink) : Prompt := ⟨Session.start output, ""⟩

/-- The answer of the prompt to its input. -/
def answer (input : ByteArray) (output : Sink) : Report :=
  (start output).answerFrom (linesFrom ByteArray.empty input.data.toList)

end Prompt

end Lox
