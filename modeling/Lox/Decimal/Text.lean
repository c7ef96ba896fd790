import Lox.Decimal.Basic

/-!
# Lox — the text of decimal numbers

Numbers are written in plain notation, never with an exponent.

* **`Decimal.literalText`** — keeps the scale: `1.50`, `0.0`, and a sign even on zero.
* **`Decimal.text`** — the form in which values are shown: the literal text of the normal
  form, so `1.5` for `1.50`, `100` for `100.0` and `0` for every zero.
* **`Decimal.ofDigits?`**, **`Decimal.ofText?`** — reading, exact or refused: nothing is
  ever rounded.
-/

namespace Lox.Decimal

/-! ## Writing -/

/-- The last `count` decimal digits of `n`, leading zeros included. -/
def lastDigits : (count n : Nat) → List Char
  | 0, _ => []
  | count + 1, n => lastDigits count (n / 10) ++ [(n % 10).digitChar]

/-- The sign of a number as it is written. -/
def signText (a : Decimal) : List Char := if a.negative then ['-'] else []

/-- The digits before the point. -/
def wholeDigits (a : Decimal) : List Char := Nat.toDigits 10 (a.mantissa / tenPow a.scale)

/-- The digits after the point, as many as the scale says. -/
def fractionDigits (a : Decimal) : List Char := lastDigits a.scale a.mantissa

/-- The characters of a number with all its fractional digits. -/
def literalChars (a : Decimal) : List Char :=
  a.signText ++ a.wholeDigits ++ if a.scale = 0 then [] else '.' :: a.fractionDigits

/-- A number with all its fractional digits, as in a literal. -/
def literalText (a : Decimal) : String := String.ofList a.literalChars

/-- The value of a number in its shortest plain form. -/
def text (a : Decimal) : String := a.normalize.literalText

/-! ## Reading -/

/-- The number written by the digits `whole`, then a point, then the digits `fraction`. All
the digits must fit: at most `maxScale` after the point, and together at most `maxMantissa`.
Leading zeros do not matter. -/
def ofDigits? (whole fraction : List Char) : Option Decimal :=
  if h : Nat.ofDigitChars 10 (whole ++ fraction) 0 ≤ maxMantissa ∧ fraction.length ≤ maxScale then
    some ⟨false, Nat.ofDigitChars 10 (whole ++ fraction) 0, fraction.length, h.1, h.2⟩
  else
    none

/-- The number written by digits and, optionally, a point and more digits. -/
def ofUnsignedChars? (cs : List Char) : Option Decimal :=
  let whole := cs.takeWhile Char.isDigit
  if whole.isEmpty then
    none
  else
    match cs.dropWhile Char.isDigit with
    | [] => ofDigits? whole []
    | '.' :: fraction =>
      if !fraction.isEmpty && fraction.all Char.isDigit then ofDigits? whole fraction else none
    | _ => none

/-- The number written by a text: an optional minus sign, digits, and optionally a point and
more digits. A zero is read without its sign. -/
def ofText? (s : String) : Option Decimal :=
  match s.toList with
  | '-' :: cs => (ofUnsignedChars? cs).map fun a => if a.isZero then a else a.neg
  | cs => ofUnsignedChars? cs

end Lox.Decimal
