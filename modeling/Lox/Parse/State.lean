import Lox.Syntax.Basic
import Lox.Syntax.Error

/-!
# Lox — parser states

The parser reads one token after the other and keeps no other memory than its state: the
statements of the open blocks, the errors so far, and where it stands inside the statement
that it is reading.

Inside an expression it alternates between two positions, before an operand and after one.
What was begun and waits for an operand on its right is a stack of `Pending` items.

* **`Pending.reduce`** — the operand after everything that binds at least as tightly as an
  operator to its right has been applied to it.
* **`Pending.complete`** — the whole expression, up to an open parenthesis.
-/

namespace Lox

/-- What the expression being read is for. -/
inductive Goal where
  | print
  | expression
  | declaration (name : Lexeme)
deriving DecidableEq

/-- The statement that the expression completes. -/
def Goal.statement (e : Expr) : Goal → Stmt
  | .print => .print e
  | .expression => .expression e
  | .declaration name => .declaration name (some e)

/-- What the semicolon after the expression ends. -/
def Goal.ending : Goal → Ending
  | .print => .value
  | .expression => .expression
  | .declaration _ => .variableDeclaration

/-- A part of an expression that was begun and waits for what follows it. -/
inductive Pending where
  | unary (op : UnaryOp) (sign : Lexeme)
  | binary (left : Expr) (op : BinaryOp) (sign : Lexeme)
  | assign (target : Expr) (sign : Lexeme)
  | group
deriving DecidableEq

namespace Pending

/-- Applies the pending operators that bind at least as tightly as `precedence` to the operand
`e`, innermost first. Unary operators bind more tightly than all others. -/
def reduce (precedence : Nat) : List Pending → Expr → List Pending × Expr
  | .unary op sign :: rest, e => reduce precedence rest (.unary op sign e)
  | .binary left op sign :: rest, e =>
    if precedence ≤ op.precedence then reduce precedence rest (.binary op sign left e)
    else (.binary left op sign :: rest, e)
  | .assign target sign :: rest, e => (.assign target sign :: rest, e)
  | .group :: rest, e => (.group :: rest, e)
  | [], e => ([], e)

/-- Applies all that is pending up to an open parenthesis to the operand `e`, innermost first.
An assignment to anything but a variable is an error, and its target stands for it. -/
def complete : List Pending → Expr → List SyntaxError × List Pending × Expr
  | .unary op sign :: rest, e => complete rest (.unary op sign e)
  | .binary left op sign :: rest, e => complete rest (.binary op sign left e)
  | .assign (.var name) _ :: rest, e => complete rest (.assign name e)
  | .assign target sign :: rest, _ =>
    let (errors, open_, whole) := complete rest target
    (⟨.invalidAssignmentTarget, sign⟩ :: errors, open_, whole)
  | .group :: rest, e => ([], .group :: rest, e)
  | [], e => ([], [], e)

end Pending

/-- Where the parser stands. -/
inductive Mode where
  /-- In front of a statement. -/
  | start
  /-- After `var`. -/
  | name
  /-- After `var` and the name. -/
  | initializer (name : Lexeme)
  /-- In front of an operand. -/
  | operand (goal : Goal) (pending : List Pending)
  /-- After the operand `e`. -/
  | operator (goal : Goal) (pending : List Pending) (e : Expr)
  /-- After an error, looking for the next statement. -/
  | skipping
deriving DecidableEq

/-- What the parser knows about the tokens read so far. -/
structure ParseState where
  /-- Where it stands inside the current statement. -/
  mode : Mode
  /-- The finished statements of the innermost open block, or of the program, newest first. -/
  statements : List Stmt
  /-- For each open block the statements before it, newest first; innermost block first. -/
  enclosing : List (List Stmt)
  /-- The errors found so far, newest first. -/
  errors : List SyntaxError
deriving DecidableEq

/-- The state before the first token. -/
def ParseState.initial : ParseState := ⟨.start, [], [], []⟩

end Lox
