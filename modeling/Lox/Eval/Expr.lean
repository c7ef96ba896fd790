import Lox.Eval.Operation
import Lox.Store

/-!
# Lox — evaluation of expressions

An expression is evaluated in a frame of a store. Assignments change the store, and the
changes made before an error stay. Operands are evaluated from left to right, and the value
of an assignment before its target is looked up.
-/

namespace Lox

/-- The value that a literal writes. -/
def Literal.value : Literal → Value
  | .number n => .number n
  | .string s => .string s
  | .bool b => .bool b
  | .nil => .nil

/-- A computation that may change the store and may fail. -/
abbrev Evaluation := EStateM RuntimeError Store

namespace Evaluation

/-- The result of an operation, or its failure blamed on the operator's lexeme. -/
def ofOperation (sign : Lexeme) (result : Except RuntimeError.Cause Value) : Evaluation Value :=
  fun s =>
    match result with
    | .ok v => .ok v s
    | .error cause => .error ⟨cause, sign⟩ s

/-- The value of a variable seen from a frame. -/
def read (frame : Nat) (name : Lexeme) : Evaluation Value := fun s =>
  match s.get? frame name.text with
  | some v => .ok v s
  | none => .error ⟨.undefinedVariable name.text, name⟩ s

/-- Gives a variable seen from a frame a new value, and answers that value. -/
def write (frame : Nat) (name : Lexeme) (v : Value) : Evaluation Value := fun s =>
  match s.assign? frame name.text v with
  | some s' => .ok v s'
  | none => .error ⟨.undefinedVariable name.text, name⟩ s

end Evaluation

/-- Evaluates an expression in a frame. -/
def Expr.eval (frame : Nat) : Expr → Evaluation Value
  | .literal l => pure l.value
  | .var name => Evaluation.read frame name
  | .assign name value => do
    let v ← value.eval frame
    Evaluation.write frame name v
  | .group inner => inner.eval frame
  | .unary op sign operand => do
    let v ← operand.eval frame
    Evaluation.ofOperation sign (op.apply v)
  | .binary op sign left right => do
    let l ← left.eval frame
    let r ← right.eval frame
    Evaluation.ofOperation sign (op.apply l r)

end Lox
