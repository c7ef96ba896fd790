import Lox.Decimal.Arithmetic
import Lox.Syntax.Basic
import Lox.Value

/-!
# Lox — operations on values

What each operator does with evaluated operands. Arithmetic and comparison want numbers, `+`
takes two strings as well, and equality takes any two values and never fails.
-/

namespace Lox

/-! ## Runtime errors -/

/-- Why evaluation cannot go on. Operands are carried as evaluated, left before right. -/
inductive RuntimeError.Cause where
  | operandNotNumber (operand : Value)
  | operandsNotNumbers (left right : Value)
  | operandsNotAddable (left right : Value)
  | divisionByZero
  | overflow
  | undefinedVariable (name : String)
deriving DecidableEq

/-- The wording of a cause. -/
def RuntimeError.Cause.message : RuntimeError.Cause → String
  | .operandNotNumber _ => "Operand must be a number."
  | .operandsNotNumbers _ _ => "Operands must be numbers."
  | .operandsNotAddable _ _ => "Operands must be two numbers or two strings."
  | .divisionByZero => "Division by zero."
  | .overflow => "Numeric overflow."
  | .undefinedVariable name => "Undefined variable '" ++ name ++ "'."

/-- A cause and the operator or name that is blamed. -/
structure RuntimeError where
  cause : RuntimeError.Cause
  blamed : Lexeme
deriving DecidableEq

namespace RuntimeError

/-- The report about a runtime error. -/
def diagnostic (e : RuntimeError) : Diagnostic :=
  ⟨e.blamed.line, e.blamed.location, e.cause.message⟩

/-- A runtime error as it is shown. -/
def text (e : RuntimeError) : String := e.diagnostic.text

end RuntimeError

/-! ## Operators -/

/-- The result of an arithmetic operation; none stands for a result out of range. -/
def Value.ofResult? : Option Decimal → Except RuntimeError.Cause Value
  | some n => .ok (.number n)
  | none => .error .overflow

/-- Applies an operator to the operand after it. -/
def UnaryOp.apply : UnaryOp → Value → Except RuntimeError.Cause Value
  | .negate, .number n => .ok (.number n.neg)
  | .negate, v => .error (.operandNotNumber v)
  | .not, v => .ok (.bool !v.truthy)

/-- Applies an operator to two numbers. -/
def BinaryOp.applyNumbers (op : BinaryOp) (a b : Decimal) : Except RuntimeError.Cause Value :=
  match op with
  | .equal => .ok (.bool (a.equals b))
  | .notEqual => .ok (.bool !a.equals b)
  | .greater => .ok (.bool (a.order b).isGT)
  | .greaterEqual => .ok (.bool (a.order b).isGE)
  | .less => .ok (.bool (a.order b).isLT)
  | .lessEqual => .ok (.bool (a.order b).isLE)
  | .add => Value.ofResult? (a.add? b)
  | .subtract => Value.ofResult? (a.sub? b)
  | .multiply => Value.ofResult? (a.mul? b)
  | .divide => if b.isZero then .error .divisionByZero else Value.ofResult? (a.div? b)

/-- Applies an operator to the operands on its two sides. -/
def BinaryOp.apply : BinaryOp → Value → Value → Except RuntimeError.Cause Value
  | op, .number a, .number b => op.applyNumbers a b
  | .add, .string s, .string t => .ok (.string (s ++ t))
  | .equal, v, w => .ok (.bool (v.equals w))
  | .notEqual, v, w => .ok (.bool !v.equals w)
  | .add, v, w => .error (.operandsNotAddable v w)
  | _, v, w => .error (.operandsNotNumbers v w)

end Lox
