import Lox.Token.Basic

/-!
# Lox — syntax trees

Expressions and statements. Operators and names keep the lexeme they were written with, so
that a report about them can say where they stand; the kind of an operator is its
constructor.
-/

namespace Lox

/-! ## Operators -/

/-- The operators before an operand. -/
inductive UnaryOp where
  | negate
  | not
deriving DecidableEq

/-- The operators between two operands. -/
inductive BinaryOp where
  | equal | notEqual
  | greater | greaterEqual | less | lessEqual
  | add | subtract
  | multiply | divide
deriving DecidableEq

/-- The kind of token that writes the operator. -/
def UnaryOp.kind : UnaryOp → Token.Kind
  | .negate => .minus
  | .not => .bang

/-- The operator before an operand that a token writes. -/
def UnaryOp.ofKind? : Token.Kind → Option UnaryOp
  | .minus => some .negate
  | .bang => some .not
  | _ => none

/-- The kind of token that writes the operator. -/
def BinaryOp.kind : BinaryOp → Token.Kind
  | .equal => .equalEqual
  | .notEqual => .bangEqual
  | .greater => .greater
  | .greaterEqual => .greaterEqual
  | .less => .less
  | .lessEqual => .lessEqual
  | .add => .plus
  | .subtract => .minus
  | .multiply => .star
  | .divide => .slash

/-- The operator between operands that a token writes. -/
def BinaryOp.ofKind? : Token.Kind → Option BinaryOp
  | .equalEqual => some .equal
  | .bangEqual => some .notEqual
  | .greater => some .greater
  | .greaterEqual => some .greaterEqual
  | .less => some .less
  | .lessEqual => some .lessEqual
  | .plus => some .add
  | .minus => some .subtract
  | .star => some .multiply
  | .slash => some .divide
  | _ => none

/-- How tightly the operator binds: equality, comparison, terms, factors. -/
def BinaryOp.precedence : BinaryOp → Nat
  | .equal | .notEqual => 1
  | .greater | .greaterEqual | .less | .lessEqual => 2
  | .add | .subtract => 3
  | .multiply | .divide => 4

theorem UnaryOp.ofKind?_eq_some_iff {k : Token.Kind} {op : UnaryOp} :
    UnaryOp.ofKind? k = some op ↔ op.kind = k := by
  constructor
  · intro h
    unfold UnaryOp.ofKind? at h
    split at h <;> cases h <;> rfl
  · rintro rfl
    cases op <;> rfl

theorem BinaryOp.ofKind?_eq_some_iff {k : Token.Kind} {op : BinaryOp} :
    BinaryOp.ofKind? k = some op ↔ op.kind = k := by
  constructor
  · intro h
    unfold BinaryOp.ofKind? at h
    split at h <;> cases h <;> rfl
  · rintro rfl
    cases op <;> rfl

/-! ## Trees -/

/-- A value written in the source. -/
inductive Literal where
  | number (value : Decimal)
  | string (value : String)
  | bool (value : Bool)
  | nil
deriving DecidableEq

/-- The literal that a token writes. -/
def Literal.ofKind? : Token.Kind → Option Literal
  | .number value => some (.number value)
  | .string value => some (.string value)
  | .trueWord => some (.bool true)
  | .falseWord => some (.bool false)
  | .nilWord => some .nil
  | _ => none

/-- The kind of token that writes the literal. -/
def Literal.kind : Literal → Token.Kind
  | .number value => .number value
  | .string value => .string value
  | .bool true => .trueWord
  | .bool false => .falseWord
  | .nil => .nilWord

theorem Literal.ofKind?_eq_some_iff {k : Token.Kind} {l : Literal} :
    Literal.ofKind? k = some l ↔ l.kind = k := by
  constructor
  · intro h
    unfold Literal.ofKind? at h
    split at h <;> cases h <;> rfl
  · rintro rfl
    unfold Literal.kind
    split <;> rfl

/-- An expression. `sign` is the lexeme of an operator. -/
inductive Expr where
  | literal (value : Literal)
  | var (name : Lexeme)
  | assign (name : Lexeme) (value : Expr)
  | group (inner : Expr)
  | unary (op : UnaryOp) (sign : Lexeme) (operand : Expr)
  | binary (op : BinaryOp) (sign : Lexeme) (left right : Expr)
deriving DecidableEq

/-- A statement. -/
inductive Stmt where
  | expression (e : Expr)
  | print (e : Expr)
  | declaration (name : Lexeme) (initial : Option Expr)
  | block (body : List Stmt)

mutual

/-- Decides whether two statements are the same tree. -/
def Stmt.decEq : (s t : Stmt) → Decidable (s = t)
  | .expression e, .expression e' | .print e, .print e' =>
    if h : e = e' then isTrue (h ▸ rfl) else isFalse fun hs => h (by cases hs; rfl)
  | .declaration n e, .declaration n' e' =>
    if h : n = n' ∧ e = e' then isTrue (h.1 ▸ h.2 ▸ rfl)
    else isFalse fun hs => h (by cases hs; exact ⟨rfl, rfl⟩)
  | .block b, .block b' =>
    match Stmt.decEqAll b b' with
    | isTrue h => isTrue (h ▸ rfl)
    | isFalse h => isFalse fun hs => h (by cases hs; rfl)
  | .expression _, .print _ | .expression _, .declaration _ _ | .expression _, .block _
  | .print _, .expression _ | .print _, .declaration _ _ | .print _, .block _
  | .declaration _ _, .expression _ | .declaration _ _, .print _ | .declaration _ _, .block _
  | .block _, .expression _ | .block _, .print _ | .block _, .declaration _ _ => isFalse nofun

/-- Decides whether two lists of statements are the same. -/
def Stmt.decEqAll : (ss ts : List Stmt) → Decidable (ss = ts)
  | [], [] => isTrue rfl
  | s :: ss, t :: ts =>
    match Stmt.decEq s t, Stmt.decEqAll ss ts with
    | isTrue h, isTrue h' => isTrue (h ▸ h' ▸ rfl)
    | isFalse h, _ => isFalse fun hs => h (by cases hs; rfl)
    | _, isFalse h => isFalse fun hs => h (by cases hs; rfl)
  | [], _ :: _ | _ :: _, [] => isFalse nofun

end

instance : DecidableEq Stmt := Stmt.decEq

end Lox
