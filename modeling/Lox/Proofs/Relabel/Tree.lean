import Lox.Parse.State
import Lox.Eval.Stmt

/-!
# Lox — other lexemes in the same tree

Relabelling replaces every lexeme of a tree and keeps everything else. When a source text is
moved down some lines, its tokens, trees and errors are relabelled.

* **`Lexeme.shift`** — the same text on a later line.
* **`Stmt.relabel`** — a statement with other lexemes.
-/

namespace Lox

/-- The lexeme, `k` lines further down. -/
def Lexeme.shift (k : Nat) (x : Lexeme) : Lexeme := ⟨x.text, x.line + k⟩

/-- The lexeme without its line. -/
def Lexeme.unlined (x : Lexeme) : Lexeme := ⟨x.text, 0⟩

/-- The report, `k` lines further down. -/
def Diagnostic.shift (k : Nat) (d : Diagnostic) : Diagnostic := ⟨d.line + k, d.location, d.message⟩

variable (f : Lexeme → Lexeme)

/-! ## Tokens and trees -/

def Token.relabel (t : Token) : Token := ⟨f t.toLexeme, t.kind⟩

def Expr.relabel : Expr → Expr
  | .literal value => .literal value
  | .var name => .var (f name)
  | .assign name value => .assign (f name) value.relabel
  | .group inner => .group inner.relabel
  | .unary op sign operand => .unary op (f sign) operand.relabel
  | .binary op sign left right => .binary op (f sign) left.relabel right.relabel

mutual

def Stmt.relabel : Stmt → Stmt
  | .expression e => .expression (e.relabel f)
  | .print e => .print (e.relabel f)
  | .declaration name initial => .declaration (f name) (initial.map (Expr.relabel f))
  | .block body => .block (Stmt.relabelAll body)

def Stmt.relabelAll : List Stmt → List Stmt
  | [] => []
  | s :: rest => s.relabel :: Stmt.relabelAll rest

end

theorem Stmt.relabelAll_eq_map (ss : List Stmt) : relabelAll f ss = ss.map (relabel f) := by
  induction ss with
  | nil => rfl
  | cons s ss ih => rw [relabelAll, List.map_cons, ih]

/-! ## Errors

The lexeme that an error blames is one of those in the tree. -/

def SyntaxError.relabel (e : SyntaxError) : SyntaxError := ⟨e.cause, f e.blamed⟩

def RuntimeError.relabel (e : RuntimeError) : RuntimeError := ⟨e.cause, f e.blamed⟩

def Halt.relabel : Halt → Halt
  | .runtime e => .runtime (e.relabel f)
  | .output reason => .output reason

/-! ## The parser's memory

What was read so far has the other lexemes in it already. -/

def Goal.relabel : Goal → Goal
  | .print => .print
  | .expression => .expression
  | .declaration name => .declaration (f name)

def Pending.relabel : Pending → Pending
  | .unary op sign => .unary op (f sign)
  | .binary left op sign => .binary (left.relabel f) op (f sign)
  | .assign target sign => .assign (target.relabel f) (f sign)
  | .group => .group

def Mode.relabel : Mode → Mode
  | .start => .start
  | .name => .name
  | .initializer x => .initializer (f x)
  | .operand goal pending => .operand (goal.relabel f) (pending.map (Pending.relabel f))
  | .operator goal pending e =>
    .operator (goal.relabel f) (pending.map (Pending.relabel f)) (e.relabel f)
  | .skipping => .skipping

def ParseState.relabel (st : ParseState) : ParseState where
  mode := st.mode.relabel f
  statements := st.statements.map (Stmt.relabel f)
  enclosing := st.enclosing.map (List.map (Stmt.relabel f))
  errors := st.errors.map (SyntaxError.relabel f)

end Lox
