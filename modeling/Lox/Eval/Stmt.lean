import Lox.Eval.Expr
import Lox.Output

/-!
# Lox — execution of statements

Statements are executed on a machine, a store and an output sink. What was done before a
failure stays done. A block has a frame of its own, which is dropped on every way out of it.
-/

namespace Lox

/-- What statements act on. -/
structure Machine where
  store : Store
  sink : Sink

/-- Why execution stopped: an error in the program, or a sink that took no more. -/
inductive Halt where
  | runtime (error : RuntimeError)
  | output (reason : String)
deriving DecidableEq

/-- How a stop is reported. -/
def Halt.text : Halt → String
  | .runtime e => e.text
  | .output reason => "Failed to write output: " ++ reason

/-- A computation on the machine that may stop early. -/
abbrev Execution := EStateM Halt Machine

namespace Execution

/-- Runs an evaluation on the machine's store. -/
def ofEvaluation {α : Type} (x : Evaluation α) : Execution α := fun ⟨store, sink⟩ =>
  match x store with
  | .ok a store => .ok a ⟨store, sink⟩
  | .error e store => .error (.runtime e) ⟨store, sink⟩

/-- Changes the machine's store. -/
def modifyStore (f : Store → Store) : Execution Unit := fun ⟨store, sink⟩ =>
  .ok () ⟨f store, sink⟩

/-- Writes a text to the machine's sink. -/
def emit (text : String) : Execution Unit := fun ⟨store, sink⟩ =>
  match sink.write text with
  | (none, sink) => .ok () ⟨store, sink⟩
  | (some reason, sink) => .error (.output reason) ⟨store, sink⟩

/-- Prints a value on a line of its own. -/
def printLine (v : Value) : Execution Unit := emit (v.display ++ "\n")

/-- Runs `body` in a new frame inside the frame `frame`, and drops that frame however `body`
ends. -/
def inside {α : Type} (frame : Nat) (body : Nat → Execution α) : Execution α :=
  fun ⟨store, sink⟩ =>
    match body store.size ⟨store.enclose frame, sink⟩ with
    | .ok a m => .ok a { m with store := m.store.drop }
    | .error e m => .error e { m with store := m.store.drop }

end Execution

/-- Evaluates an expression on the machine. -/
def Expr.run (frame : Nat) (e : Expr) : Execution Value := Execution.ofEvaluation (e.eval frame)

/-- The value that a declaration starts with. -/
def initialValue (frame : Nat) : Option Expr → Execution Value
  | some e => e.run frame
  | none => pure .nil

mutual

/-- Executes a statement in a frame. -/
def Stmt.exec (frame : Nat) : Stmt → Execution Unit
  | .expression e => do
    let _ ← e.run frame
  | .print e => do
    let v ← e.run frame
    Execution.printLine v
  | .declaration name initial => do
    let v ← initialValue frame initial
    Execution.modifyStore fun store => store.define frame name.text v
  | .block body => Execution.inside frame fun inner => Stmt.execAll inner body

/-- Executes statements in a frame, one after the other. -/
def Stmt.execAll (frame : Nat) : List Stmt → Execution Unit
  | [] => pure ()
  | s :: rest => do
    s.exec frame
    Stmt.execAll frame rest

end

end Lox
