import Lox.Parse.Step

/-!
# Lox — parsing by recursive descent

The grammar as a program: a function for each rule, which calls the functions of the rules that it
names. They share a position in the tokens, a count of the open blocks and the errors found so far.

Nothing in these functions says that they come to an end, or that they stay inside the tokens. A
recursive function is given a bound on how deeply its calls may be nested, where each round of a
loop counts as a call in the one before it. A call that is nested more deeply has no result, and
neither has one that reads where there is no token. So a call comes to an end if it has a result
with every large enough bound.

* **`Descent.declaration`** — a statement, or the recovery from the error in it.
* **`Descent.descend`** — the statements and errors of a token sequence.
-/

namespace Lox

/-- The state of a parser by recursive descent. -/
structure Descent where
  tokens : List Token
  /-- The index of the next token. -/
  current : Nat
  /-- How many blocks are open. -/
  blockDepth : Nat
  /-- The errors so far, in the order in which they were found. -/
  errors : List SyntaxError

namespace Descent

/-- A part of the parser. -/
abbrev Call := StateT Descent Option

/-- A part of the parser that can meet a syntax error, and then stops. -/
abbrev Attempt := ExceptT SyntaxError Call

/-- Whether a call comes to an end in the state `p`, with the result `a` and in the state `q`. -/
def EndsWith {α : Type} (call : Nat → Call α) (p : Descent) (a : α) (q : Descent) : Prop :=
  ∃ least, ∀ bound ≥ least, call bound p = some (a, q)

/-! ## Reading tokens -/

/-- The next token. -/
def peek : Call Token := fun p => p.tokens[p.current]?.map fun t => (t, p)

/-- The next token, which is passed over unless it is the end token. -/
def advance : Call Token := do
  let t ← peek
  if t.kind ≠ .eof then
    modify fun p => { p with current := p.current + 1 }
  return t

/-- The next token, if it is of the kind `k`. -/
def consume? (k : Token.Kind) : Call (Option Token) := do
  if (← peek).kind = k then
    let t ← advance
    return some t
  else
    return none

/-- The next token, which has to be of the kind `k`. -/
def expect (k : Token.Kind) (cause : SyntaxError.Cause) : Attempt Token := do
  match ← consume? k with
  | some t => return t
  | none => throw ⟨cause, (← peek).toLexeme⟩

/-- Records an error. -/
def record (e : SyntaxError) : Call Unit :=
  modify fun p => { p with errors := p.errors ++ [e] }

/-- No result. -/
def Call.none {α : Type} : Call α := fun _ => Option.none

/-- No result. -/
def Attempt.none {α : Type} : Attempt α := ExceptT.mk Call.none

/-! ## Expressions -/

mutual

/-- An assignment, or whatever binds more tightly. -/
def assignment : Nat → Attempt Expr
  | 0 => .none
  | bound + 1 => do
    let target ← binary bound 1
    match ← consume? .equal with
    | none => return target
    | some sign =>
      let value ← assignment bound
      match target with
      | .var name => return .assign name value
      | _ =>
        record ⟨.invalidAssignmentTarget, sign.toLexeme⟩
        return target

/-- Operands with the operators of the precedence `n` between them. -/
def binary : Nat → (n : Nat) → Attempt Expr
  | 0, _ => .none
  | bound + 1, n => do
    let first ← operand bound n
    operations bound n first

/-- The operators of the precedence `n` and the operands on their right, after the operand on the
left of all. -/
def operations : Nat → (n : Nat) → (left : Expr) → Attempt Expr
  | 0, _, _ => .none
  | bound + 1, n, left => do
    match BinaryOp.ofKind? (← peek).kind with
    | some op =>
      if op.precedence = n then
        let sign ← advance
        let right ← operand bound n
        operations bound n (.binary op sign.toLexeme left right)
      else
        return left
    | none => return left

/-- An operand of the operators of the precedence `n`. -/
def operand : Nat → (n : Nat) → Attempt Expr
  | 0, _ => .none
  | bound + 1, n => if n < 4 then binary bound (n + 1) else unary bound

/-- An operand with the operators before it. -/
def unary : Nat → Attempt Expr
  | 0 => .none
  | bound + 1 => do
    match UnaryOp.ofKind? (← peek).kind with
    | some op =>
      let sign ← advance
      let right ← unary bound
      return .unary op sign.toLexeme right
    | none => primary bound

/-- A literal, a name, or an expression in parentheses. -/
def primary : Nat → Attempt Expr
  | 0 => .none
  | bound + 1 => do
    let t ← peek
    match Literal.ofKind? t.kind with
    | some value =>
      let _ ← advance
      return .literal value
    | none =>
      match t.kind with
      | .identifier =>
        let _ ← advance
        return .var t.toLexeme
      | .leftParen =>
        let _ ← advance
        let inner ← assignment bound
        let _ ← expect .rightParen .expectedRightParen
        return .group inner
      | _ => throw ⟨.expectedExpression, t.toLexeme⟩

end

/-! ## Statements -/

/-- The expression of a statement, and the semicolon after it. -/
def finish (bound : Nat) (goal : Goal) : Attempt Stmt := do
  let e ← assignment bound
  let _ ← expect .semicolon (.expectedSemicolon goal.ending)
  return goal.statement e

/-- What follows `var` and the name. -/
def initializer (bound : Nat) (name : Lexeme) : Attempt Stmt := do
  match ← consume? .equal with
  | some _ => finish bound (.declaration name)
  | none =>
    let _ ← expect .semicolon (.expectedSemicolon .variableDeclaration)
    return .declaration name none

/-- What follows `var`. -/
def variableDeclaration (bound : Nat) : Attempt Stmt := do
  let name ← expect .identifier .expectedVariableName
  initializer bound name.toLexeme

/-- How many blocks are open. -/
def openBlocks : Call Nat := fun p => some (p.blockDepth, p)

/-- Passes over tokens after an error, from a token of the kind `previous` on. -/
def skipFrom : Nat → (previous : Token.Kind) → Call Unit
  | 0, _ => .none
  | bound + 1, previous => do
    if previous = .semicolon then
      return ()
    let t ← peek
    if t.kind.resumes || t.kind = .eof || (t.kind = .rightBrace && 0 < (← openBlocks)) then
      return ()
    let passed ← advance
    skipFrom bound passed.kind

/-- Passes over tokens after an error, up to the next statement. Inside a block, a closing brace is
left for the block. -/
def synchronize (bound : Nat) : Call Unit := do
  if 0 < (← openBlocks) && (← peek).kind = .rightBrace then
    return ()
  let passed ← advance
  skipFrom bound passed.kind

mutual

/-- A statement, or nothing if there is an error in it. -/
def declaration : Nat → Call (Option Stmt)
  | 0 => .none
  | bound + 1 => do
    let result ← (do
      if (← consume? .varWord).isSome then (variableDeclaration bound).run else statement bound)
    match result with
    | .ok s => return some s
    | .error e =>
      record e
      synchronize bound
      return none

/-- A statement that declares no variable. -/
def statement : Nat → Call (Except SyntaxError Stmt)
  | 0 => .none
  | bound + 1 => do
    if (← consume? .printWord).isSome then
      (finish bound .print).run
    else if (← consume? .leftBrace).isSome then
      block bound
    else
      (finish bound .expression).run

/-- What follows the opening brace of a block. -/
def block : Nat → Call (Except SyntaxError Stmt)
  | 0 => .none
  | bound + 1 => do
    modify fun p => { p with blockDepth := p.blockDepth + 1 }
    let body ← declarations bound (fun k => k = .rightBrace || k = .eof) []
    modify fun p => { p with blockDepth := p.blockDepth - 1 }
    let closing ← (expect .rightBrace .expectedRightBrace).run
    return closing.map fun _ => .block body

/-- Statements up to a token of a kind that ends them, after those that were read before. -/
def declarations : Nat → (ends : Token.Kind → Bool) → (before : List Stmt) → Call (List Stmt)
  | 0, _, _ => .none
  | bound + 1, ends, before => do
    if ends (← peek).kind then
      return before
    let s ← declaration bound
    declarations bound ends (before ++ s.toList)

end

/-! ## Programs -/

/-- The state in front of the first token. An end token is added where there is none at the end. -/
def ofTokens (tokens : List Token) : Descent where
  tokens :=
    if (tokens.getLast?.map Token.isEof).getD false then tokens
    else tokens ++ [Token.eof ((tokens.getLast?.map (·.line)).getD 1)]
  current := 0
  blockDepth := 0
  errors := []

/-- The statements up to the end token. -/
def program (bound : Nat) : Call (List Stmt) := declarations bound (fun k => k = .eof) []

/-- The statements of a token sequence, and the errors in it. -/
def descend (bound : Nat) (tokens : List Token) : Option Parsed := do
  let (statements, p) ← program bound (ofTokens tokens)
  return ⟨statements, p.errors⟩

end Descent

end Lox
