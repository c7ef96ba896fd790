import Lox.Decimal.Text
import Lox.Syntax.Basic

/-!
# Lox — display of syntax trees

A tree is shown with every operator in front of its operands, in parentheses:
`(+ 1 (* 2 3));` for an expression statement, `(print e)`, `(var a e)`, `(block s s)`.
Operators and names are shown by their lexemes, numbers with the digits they were written
with, strings in quotes and unescaped.
-/

namespace Lox

/-- A literal as it is shown. -/
def Literal.display : Literal → String
  | .number value => value.literalText
  | .string value => "\"" ++ value ++ "\""
  | .bool true => "true"
  | .bool false => "false"
  | .nil => "nil"

/-- An expression as it is shown. -/
def Expr.display : Expr → String
  | .literal value => value.display
  | .var name => name.text
  | .assign name value => "(assign " ++ name.text ++ " " ++ value.display ++ ")"
  | .group inner => "(group " ++ inner.display ++ ")"
  | .unary _ sign operand => "(" ++ sign.text ++ " " ++ operand.display ++ ")"
  | .binary _ sign left right =>
    "(" ++ sign.text ++ " " ++ left.display ++ " " ++ right.display ++ ")"

mutual

/-- A statement as it is shown. -/
def Stmt.display : Stmt → String
  | .expression e => e.display ++ ";"
  | .print e => "(print " ++ e.display ++ ")"
  | .declaration name none => "(var " ++ name.text ++ ")"
  | .declaration name (some e) => "(var " ++ name.text ++ " " ++ e.display ++ ")"
  | .block body => "(block" ++ Stmt.displayBody body ++ ")"

/-- The statements of a block as they are shown, a space before each. -/
def Stmt.displayBody : List Stmt → String
  | [] => ""
  | s :: rest => " " ++ s.display ++ Stmt.displayBody rest

end

end Lox
