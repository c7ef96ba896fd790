import Lox.Decimal.Basic

/-!
# Lox — arithmetic of decimal numbers

Sums and differences are exact or fail; products and quotients are rounded.

* **`Decimal.add?`**, **`Decimal.sub?`** — computed at the larger of the two normal scales.
  The result is exact; there is none when the coefficient at that scale is out of range.
* **`Decimal.mul?`**, **`Decimal.div?`** — the exact result is rounded, a half to the even
  neighbour, at the largest scale where the rounded mantissa is in range. There is none when
  not even the rounded integer is in range.
-/

namespace Lox.Decimal

/-! ## Exact sums -/

/-- The number `coefficient / 10 ^ scale`, if its mantissa and scale are in range. -/
def ofCoefficient? (coefficient : Int) (scale : Nat) : Option Decimal :=
  if h : coefficient.natAbs ≤ maxMantissa ∧ scale ≤ maxScale then
    some ⟨decide (coefficient < 0), coefficient.natAbs, scale, h.1, h.2⟩
  else
    none

/-- The coefficient of the value of `a` over `10 ^ scale`, for a scale that is at least that
of `a`. -/
def coefficientAt (a : Decimal) (scale : Nat) : Int :=
  a.coefficient * tenPow (scale - a.scale)

/-- The scale at which a sum or difference is formed: enough fractional digits for both
operands, trailing zeros not counted. -/
def commonScale (a b : Decimal) : Nat :=
  max a.normalize.scale b.normalize.scale

/-- The exact sum, or none when it does not fit at the common scale. -/
def add? (a b : Decimal) : Option Decimal :=
  let scale := commonScale a b
  ofCoefficient? (a.normalize.coefficientAt scale + b.normalize.coefficientAt scale) scale

/-- The exact difference, or none when it does not fit at the common scale. -/
def sub? (a b : Decimal) : Option Decimal :=
  let scale := commonScale a b
  ofCoefficient? (a.normalize.coefficientAt scale - b.normalize.coefficientAt scale) scale

/-! ## Rounded products and quotients -/

/-- The integer nearest to `num / den`; of two at the same distance, the even one. -/
def roundHalfEven (num den : Nat) : Nat :=
  let q := num / den
  let twice := 2 * (num % den)
  if den < twice ∨ (twice = den ∧ q % 2 = 1) then q + 1 else q

/-- The number nearest to `± num / den` at the largest scale, from `scale` downwards, at
which its mantissa is in range. -/
def roundFrom? (negative : Bool) (num den : Nat) :
    (scale : Nat) → scale ≤ maxScale → Option Decimal
  | 0, hs =>
    if hm : roundHalfEven num den ≤ maxMantissa then
      some ⟨negative, roundHalfEven num den, 0, hm, hs⟩
    else
      none
  | s + 1, hs =>
    if hm : roundHalfEven (num * tenPow (s + 1)) den ≤ maxMantissa then
      some ⟨negative, roundHalfEven (num * tenPow (s + 1)) den, s + 1, hm, hs⟩
    else
      roundFrom? negative num den s (Nat.le_of_succ_le hs)

/-- The number nearest to `± num / den` with as many fractional digits as fit. -/
def round? (negative : Bool) (num den : Nat) : Option Decimal :=
  roundFrom? negative num den maxScale (Nat.le_refl _)

/-- The rounded product, or none when its integer part is out of range. -/
def mul? (a b : Decimal) : Option Decimal :=
  round? (a.negative != b.negative) (a.mantissa * b.mantissa) (tenPow (a.scale + b.scale))

/-- The rounded quotient by a number other than zero, or none when its integer part is out
of range. -/
def div? (a b : Decimal) : Option Decimal :=
  round? (a.negative != b.negative) (a.mantissa * tenPow b.scale) (b.mantissa * tenPow a.scale)

end Lox.Decimal
