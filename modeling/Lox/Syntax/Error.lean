import Lox.Token.Basic

/-!
# Lox — syntax errors

A syntax error has a cause and blames one lexeme: the one that does not fit, or the lexeme
of the end of the source.
-/

namespace Lox

/-- What a semicolon ends. -/
inductive Ending where
  | value
  | expression
  | variableDeclaration
deriving DecidableEq

/-- The words for what a semicolon ends. -/
def Ending.words : Ending → String
  | .value => "value"
  | .expression => "expression"
  | .variableDeclaration => "variable declaration"

/-- Why a token sequence is not a program. -/
inductive SyntaxError.Cause where
  | expectedExpression
  | expectedRightParen
  | expectedSemicolon (after : Ending)
  | expectedVariableName
  | expectedRightBrace
  | invalidAssignmentTarget
deriving DecidableEq

/-- The construct that should have been followed by something else, if the cause names one. -/
def SyntaxError.Cause.after? : SyntaxError.Cause → Option String
  | .expectedRightParen => some "expression"
  | .expectedSemicolon after => some after.words
  | .expectedRightBrace => some "block"
  | .expectedExpression | .expectedVariableName | .invalidAssignmentTarget => none

/-- The wording of a cause. -/
def SyntaxError.Cause.message : SyntaxError.Cause → String
  | .expectedExpression => "Expect expression."
  | .expectedRightParen => "Expect ')' after expression."
  | .expectedSemicolon after => "Expect ';' after " ++ after.words ++ "."
  | .expectedVariableName => "Expect variable name."
  | .expectedRightBrace => "Expect '\x7d' after block."
  | .invalidAssignmentTarget => "Invalid assignment target."

/-- A cause and the lexeme that is blamed. -/
structure SyntaxError where
  cause : SyntaxError.Cause
  blamed : Lexeme
deriving DecidableEq

namespace SyntaxError

/-- The report about a syntax error. -/
def diagnostic (e : SyntaxError) : Diagnostic :=
  ⟨e.blamed.line, e.blamed.location, e.cause.message⟩

/-- A syntax error as it is shown. -/
def text (e : SyntaxError) : String := e.diagnostic.text

end SyntaxError

end Lox
