import Lox.Syntax.Display

/-!
# Lox — the tokens of syntax trees

The tokens that write a tree, in order. The lexemes that a tree keeps, those of its names and
operators, stand as they are; the others are supplied with their usual text.

* **`Expr.tokens`** — the tokens of an expression.
* **`Stmt.tokens`**, **`Stmt.tokensOfAll`** — the tokens of statements.
-/

namespace Lox

/-- A token that no tree keeps the lexeme of. -/
def Token.supplied (text : String) (kind : Token.Kind) : Token := ⟨⟨text, 1⟩, kind⟩

/-- The token of a literal. -/
def Literal.token (l : Literal) : Token := Token.supplied l.display l.kind

/-- The tokens of an expression. -/
def Expr.tokens : Expr → List Token
  | .literal l => [l.token]
  | .var name => [⟨name, .identifier⟩]
  | .assign name value => ⟨name, .identifier⟩ :: Token.supplied "=" .equal :: value.tokens
  | .group inner =>
    Token.supplied "(" .leftParen :: (inner.tokens ++ [Token.supplied ")" .rightParen])
  | .unary op sign operand => ⟨sign, op.kind⟩ :: operand.tokens
  | .binary op sign left right => left.tokens ++ ⟨sign, op.kind⟩ :: right.tokens

/-- The semicolon that ends a statement. -/
def Token.semicolon : Token := Token.supplied ";" .semicolon

mutual

/-- The tokens of a statement. -/
def Stmt.tokens : Stmt → List Token
  | .expression e => e.tokens ++ [Token.semicolon]
  | .print e => Token.supplied "print" .printWord :: (e.tokens ++ [Token.semicolon])
  | .declaration name none =>
    [Token.supplied "var" .varWord, ⟨name, .identifier⟩, Token.semicolon]
  | .declaration name (some e) =>
    Token.supplied "var" .varWord :: ⟨name, .identifier⟩ :: Token.supplied "=" .equal
      :: (e.tokens ++ [Token.semicolon])
  | .block body =>
    Token.supplied "\x7b" .leftBrace
      :: (Stmt.tokensOfAll body ++ [Token.supplied "\x7d" .rightBrace])

/-- The tokens of statements, one after the other. -/
def Stmt.tokensOfAll : List Stmt → List Token
  | [] => []
  | s :: rest => s.tokens ++ Stmt.tokensOfAll rest

end

end Lox
