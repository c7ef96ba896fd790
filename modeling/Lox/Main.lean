import Lox.Command.Run

/-!
# Lox — the command line

Reads the arguments, the script file and the lines of the prompt, and writes what the command
answers.
-/

namespace Lox.Main

/-- The system's code for reading a directory as if it were a file. -/
def isDirectoryCode : UInt32 := 21

/-- The failure that an input error stands for. -/
def readFailure : IO.Error → ReadFailure
  | .noFileOrDirectory .. => .notFound
  | .inappropriateType _ code _ => if code = isDirectoryCode then .isDirectory else .notDirectory
  | .invalidArgument .. => .nameTooLong
  | e => .other (toString e)

/-- The reason that an output error stands for. -/
def writeFailure : IO.Error → String
  | .resourceExhausted .. => "No space left on device (os error 28)"
  | e => toString e

/-- Reads a script file. -/
def readScript (name : String) : IO (Except ReadFailure ByteArray) := do
  try
    return .ok (← IO.FS.readBinFile name)
  catch e =>
    return .error (readFailure e)

/-- Writes bytes to the output at once. -/
def put (bytes : ByteArray) : IO Unit := do
  let out ← IO.getStdout
  out.write bytes
  out.flush

/-- Ends the command with an error text. -/
def quit (exit : Exit) (errors : String) : IO UInt32 := do
  IO.eprint errors
  return exit.code.toUInt32

/-- Writes a report, and answers its exit code. -/
def deliver (report : Report) : IO UInt32 := do
  try
    put report.output.written
    quit report.exit report.errors
  catch e =>
    let reason := writeFailure e
    quit .failure (failureText (Halt.output reason).text (some reason))

/-- Shows what the prompt has put out and reported between two moments. -/
def showBetween (before after : Prompt) : IO Unit := do
  let written := after.machine.sink.written
  put (written.extract before.machine.sink.written.size written.size)
  IO.eprint (String.ofList (after.errors.toList.drop before.errors.length))

/-- Shows what the prompt has put out and reported in its end. -/
def showEnd (before : Prompt) (report : Report) : IO UInt32 := do
  showBetween before ⟨{ before.machine with sink := report.output }, report.errors⟩
  return report.exit.code.toUInt32

/-- Reads bytes up to and with the next newline, or to the end, after the bytes of `line`. -/
partial def readLine (input : IO.FS.Stream) (line : ByteArray) : IO ByteArray := do
  let bytes ← input.read 1
  if bytes.isEmpty then
    return line
  else if bytes.data.contains 10 then
    return line ++ bytes
  else
    readLine input (line ++ bytes)

/-- The prompt as a dialogue: each answer is shown before the next line is read. -/
partial def converse (p : Prompt) : IO UInt32 := do
  match p.say Prompt.question with
  | .error report => showEnd p report
  | .ok asked =>
    showBetween p asked
    let line ← readLine (← IO.getStdin) ByteArray.empty
    if line.isEmpty then
      showEnd asked asked.close
    else
      match asked.runBytes line with
      | .error report => showEnd asked report
      | .ok next =>
        showBetween asked next
        converse next

/-- The dialogue from its beginning; it ends when the input or the output fails. -/
def startDialogue : IO UInt32 := do
  try
    converse (Prompt.start Sink.unlimited)
  catch e =>
    quit .failure (failureText (writeFailure e) none)

end Lox.Main

open Lox Lox.Main in
/-- The command. -/
def main (args : List String) : IO UInt32 := do
  match Invocation.ofArguments? args with
  | none => deliver (Command.misused Sink.unlimited)
  | some .prompt => startDialogue
  | some (.file name) => deliver (Report.ofFile name (← readScript name) Sink.unlimited)
  | some invocation =>
    deliver (Command.perform (fun _ => .error .notFound) ByteArray.empty Sink.unlimited invocation)
