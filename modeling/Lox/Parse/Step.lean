import Lox.Parse.State

/-!
# Lox — parsing

A program is parsed token by token. An error inside a statement costs that statement: the
parser skips to just after a semicolon, or to just before a word that begins a statement, or,
inside a block, to the block's closing brace. It always passes over the token that it blames,
unless that is such a closing brace.

* **`ParseState.step`** — the state after one more token.
* **`ParseState.finish`** — what was read, once the end is reached.
* **`parse`** — the statements and errors of a token sequence; only the tokens before the
  first end token count.
-/

namespace Lox

/-- The kinds of words at which the parser takes up again after an error. -/
def Token.Kind.resumes : Token.Kind → Bool
  | .classWord | .funWord | .varWord | .forWord | .ifWord | .whileWord | .printWord
  | .returnWord => true
  | _ => false

namespace ParseState

/-! ## Errors and recovery -/

/-- Records an error. -/
def report (st : ParseState) (cause : SyntaxError.Cause) (blamed : Lexeme) : ParseState :=
  { st with errors := ⟨cause, blamed⟩ :: st.errors }

/-- Finishes a statement. -/
def add (st : ParseState) (s : Stmt) : ParseState :=
  { st with mode := .start, statements := s :: st.statements }

/-- Passes over a token after an error: a semicolon ends the search. -/
def discard (st : ParseState) (t : Token) : ParseState :=
  { st with mode := if t.kind = .semicolon then .start else .skipping }

/-- A closing brace ends the innermost block, if one is open; `otherwise` is the state if none
is. -/
def closeOr (st : ParseState) (otherwise : ParseState) : ParseState :=
  match st.enclosing with
  | before :: outer =>
    { st with
      mode := .start
      statements := .block st.statements.reverse :: before
      enclosing := outer }
  | [] => otherwise

/-- Goes on after an error at the token `t`. -/
def recover (st : ParseState) (t : Token) : ParseState :=
  if t.kind = .rightBrace then st.closeOr (st.discard t) else st.discard t

/-- Records an error at the token `t` and goes on. -/
def fail (st : ParseState) (cause : SyntaxError.Cause) (t : Token) : ParseState :=
  (st.report cause t.toLexeme).recover t

/-! ## Reading a token -/

/-- Reads a token in front of an operand. -/
def operand (st : ParseState) (goal : Goal) (pending : List Pending) (t : Token) : ParseState :=
  match UnaryOp.ofKind? t.kind, Literal.ofKind? t.kind with
  | some op, _ => { st with mode := .operand goal (.unary op t.toLexeme :: pending) }
  | none, some value => { st with mode := .operator goal pending (.literal value) }
  | none, none =>
    match t.kind with
    | .identifier => { st with mode := .operator goal pending (.var t.toLexeme) }
    | .leftParen => { st with mode := .operand goal (.group :: pending) }
    | _ => st.fail .expectedExpression t

/-- Reads the token after a complete expression: the parenthesis that closes it, or the
semicolon that ends its statement. -/
def conclude (st : ParseState) (goal : Goal) (pending : List Pending) (e : Expr) (t : Token) :
    ParseState :=
  match pending with
  | .group :: rest =>
    if t.kind = .rightParen then { st with mode := .operator goal rest (.group e) }
    else st.fail .expectedRightParen t
  | _ =>
    if t.kind = .semicolon then st.add (goal.statement e)
    else st.fail (.expectedSemicolon goal.ending) t

/-- Reads a token after the operand `e`. -/
def operator (st : ParseState) (goal : Goal) (pending : List Pending) (e : Expr) (t : Token) :
    ParseState :=
  match BinaryOp.ofKind? t.kind with
  | some op =>
    let (pending, left) := Pending.reduce op.precedence pending e
    { st with mode := .operand goal (.binary left op t.toLexeme :: pending) }
  | none =>
    if t.kind = .equal then
      let (pending, target) := Pending.reduce 0 pending e
      { st with mode := .operand goal (.assign target t.toLexeme :: pending) }
    else
      let (errors, pending, whole) := Pending.complete pending e
      { st with errors := errors.reverse ++ st.errors }.conclude goal pending whole t

/-- Reads the first token of a statement, or the brace that closes a block. -/
def begin (st : ParseState) (t : Token) : ParseState :=
  match t.kind with
  | .varWord => { st with mode := .name }
  | .printWord => { st with mode := .operand .print [] }
  | .leftBrace =>
    { st with mode := .start, statements := [], enclosing := st.statements :: st.enclosing }
  | .rightBrace => st.closeOr (st.fail .expectedExpression t)
  | _ => st.operand .expression [] t

/-- Reads a token after `var`. -/
def name (st : ParseState) (t : Token) : ParseState :=
  if t.kind = .identifier then { st with mode := .initializer t.toLexeme }
  else st.fail .expectedVariableName t

/-- Reads a token after `var` and the name. -/
def initializer (st : ParseState) (name : Lexeme) (t : Token) : ParseState :=
  match t.kind with
  | .equal => { st with mode := .operand (.declaration name) [] }
  | .semicolon => st.add (.declaration name none)
  | _ => st.fail (.expectedSemicolon .variableDeclaration) t

/-- Reads a token while looking for the next statement. -/
def skip (st : ParseState) (t : Token) : ParseState :=
  if t.kind.resumes then st.begin t else st.recover t

/-- The state after one more token. -/
def step (st : ParseState) (t : Token) : ParseState :=
  match st.mode with
  | .start => st.begin t
  | .name => st.name t
  | .initializer name => st.initializer name t
  | .operand goal pending => st.operand goal pending t
  | .operator goal pending e => st.operator goal pending e t
  | .skipping => st.skip t

/-- The state after more tokens. -/
def run (st : ParseState) (tokens : List Token) : ParseState := tokens.foldl step st

/-! ## The end -/

/-- An unfinished statement is an error at the end token. -/
def interrupt (st : ParseState) (eof : Token) : ParseState :=
  match st.mode with
  | .start | .skipping => st
  | _ => st.step eof

/-- The statements before the outermost open block, newest first. -/
def outermost (st : ParseState) : List Stmt := st.enclosing.getLast?.getD st.statements

end ParseState

/-- The statements that a token sequence holds, and the errors in it. -/
structure Parsed where
  statements : List Stmt
  errors : List SyntaxError
deriving DecidableEq

/-- What was read, once the end token is reached. Every block that is still open is lost and
is one more error there. -/
def ParseState.finish (st : ParseState) (eof : Token) : Parsed where
  statements := st.outermost.reverse
  errors := (st.interrupt eof).errors.reverse
    ++ List.replicate st.enclosing.length ⟨.expectedRightBrace, eof.toLexeme⟩

/-- Whether a token is the end of the source. -/
def Token.isEof (t : Token) : Bool := t.kind = .eof

/-- The end token of a sequence. If there is none, the end is on the line of the last token. -/
def endToken (tokens : List Token) : Token :=
  match tokens.find? Token.isEof with
  | some eof => eof
  | none => Token.eof ((tokens.getLast?.map (·.line)).getD 1)

/-- Parses a token sequence up to its end token. -/
def parse (tokens : List Token) : Parsed :=
  (ParseState.initial.run (tokens.takeWhile (!·.isEof))).finish (endToken tokens)

end Lox
