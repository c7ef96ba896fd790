/-!
# Lox — the arguments of the command

The command runs a script file, a source text given as an argument, or a prompt.

* **`Invocation.ofArguments?`** — what a list of arguments asks for; nothing if they are not
  understood.
-/

namespace Lox

/-- What the command is asked to do. -/
inductive Invocation where
  | version
  | help
  | file (name : String)
  | evaluate (source : String)
  | prompt
deriving DecidableEq

/-- What the arguments read so far ask for. -/
structure Requested where
  file : Option String
  source : Option String
deriving DecidableEq

namespace Requested

/-- Nothing is asked for yet. -/
def nothing : Requested := ⟨none, none⟩

/-- Asks for a file. There may be one, and its name is not empty. -/
def addFile? (r : Requested) (name : String) : Option Requested :=
  match r.file with
  | some _ => none
  | none => if name = "" then none else some { r with file := some name }

/-- Asks for a source text. There may be one. -/
def addSource? (r : Requested) (source : String) : Option Requested :=
  match r.source with
  | some _ => none
  | none => some { r with source := some source }

/-- What all arguments together ask for. A file and a source text exclude each other. -/
def invocation? (r : Requested) : Option Invocation :=
  match r.file, r.source with
  | some _, some _ => none
  | some name, none => some (.file name)
  | none, some source => some (.evaluate source)
  | none, none => some .prompt

end Requested

/-- What a single argument in front of `--` is. -/
inductive Argument where
  /-- A word of its own. -/
  | word
  | version
  | help
  /-- The option for a source text, which is the next argument. -/
  | evaluateNext
  /-- The option for a source text, together with that text. -/
  | evaluate (source : String)
  | unknown
deriving DecidableEq

namespace Argument

/-- An option of one letter may be followed by its value, after an equals sign or not. -/
def ofShort : List Char → Argument
  | 'V' :: _ => .version
  | 'h' :: _ => .help
  | ['e'] => .evaluateNext
  | 'e' :: '=' :: value => .evaluate (String.ofList value)
  | 'e' :: value => .evaluate (String.ofList value)
  | _ => .unknown

/-- An option with a long name takes its value after an equals sign. -/
def ofLong (cs : List Char) : Argument :=
  match String.ofList (cs.takeWhile (· != '=')), cs.dropWhile (· != '=') with
  | "version", [] => .version
  | "help", [] => .help
  | "eval", [] => .evaluateNext
  | "eval", _ :: value => .evaluate (String.ofList value)
  | _, _ => .unknown

/-- What an argument is by its first characters. A single dash is a word. -/
def ofString (s : String) : Argument :=
  match s.toList with
  | '-' :: '-' :: cs => ofLong cs
  | ['-'] => .word
  | '-' :: cs => ofShort cs
  | _ => .word

end Argument

namespace Invocation

/-- Reads arguments after `--`: all of them are file names. -/
def ofNames? (r : Requested) : List String → Option Invocation
  | [] => r.invocation?
  | name :: rest =>
    match r.addFile? name with
    | some r => ofNames? r rest
    | none => none

/-- Reads arguments, given what those before them ask for. A request for the version or for
help is granted at once. -/
def ofArgumentsFrom? (r : Requested) : List String → Option Invocation
  | [] => r.invocation?
  | "--" :: rest => ofNames? r rest
  | arg :: rest =>
    match Argument.ofString arg with
    | .word =>
      match r.addFile? arg with
      | some r => ofArgumentsFrom? r rest
      | none => none
    | .version => some .version
    | .help => some .help
    | .evaluate source =>
      match r.addSource? source with
      | some r => ofArgumentsFrom? r rest
      | none => none
    | .evaluateNext =>
      match rest with
      | source :: rest =>
        match Argument.ofString source, r.addSource? source with
        | .word, some r => ofArgumentsFrom? r rest
        | _, _ => none
      | [] => none
    | .unknown => none

/-- What a list of arguments asks for. -/
def ofArguments? (args : List String) : Option Invocation :=
  ofArgumentsFrom? Requested.nothing args

end Invocation

end Lox
