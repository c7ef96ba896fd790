import Lox.Decimal.Text

/-!
# Lox — values

What expressions evaluate to. Two values are equal for the language if they are of one sort
and denote the same thing; numbers are compared by value, so `1.5` equals `1.50`.
-/

namespace Lox

/-- A value of the language. -/
inductive Value where
  | number (value : Decimal)
  | string (value : String)
  | bool (value : Bool)
  | nil
deriving DecidableEq, Inhabited

namespace Value

/-- `nil` and `false` count as false, everything else as true. -/
def truthy : Value → Bool
  | .nil => false
  | .bool b => b
  | .number _ | .string _ => true

/-- A value as it is printed: numbers in their shortest form, strings without quotes. -/
def display : Value → String
  | .number n => n.text
  | .string s => s
  | .bool true => "true"
  | .bool false => "false"
  | .nil => "nil"

/-- Equality as the language decides it. Values of different sorts are never equal. -/
def equals : Value → Value → Bool
  | .number a, .number b => a.equals b
  | .string s, .string t => s == t
  | .bool a, .bool b => a == b
  | .nil, .nil => true
  | _, _ => false

end Value

end Lox
