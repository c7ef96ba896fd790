/-!
# Lox — decimal numbers

The numbers of the language are decimal fractions with a bounded significand: a sign, a
mantissa below `2 ^ 96` and a scale of at most 28, standing for `± mantissa / 10 ^ scale`.
Both bounds are fields of the type, so every number that exists is representable.

* **`Decimal.coefficient`** — the signed mantissa; the value is `coefficient / 10 ^ scale`.
* **`Decimal.order`**, **`Decimal.equals`** — comparison of values, whatever the scales.
* **`Decimal.normalize`** — the same value without trailing fractional zeros and without a
  sign on zero.
-/

namespace Lox

/-- The largest mantissa, `2 ^ 96 - 1`. -/
def Decimal.maxMantissa : Nat := 79228162514264337593543950335

/-- The largest number of fractional digits. -/
def Decimal.maxScale : Nat := 28

/-- A decimal number, `± mantissa / 10 ^ scale`. Two of them may have one value: `1.5` and
`1.50` differ in scale, and a zero may carry a sign. -/
structure Decimal where
  negative : Bool
  mantissa : Nat
  scale : Nat
  mantissa_le : mantissa ≤ Decimal.maxMantissa
  scale_le : scale ≤ Decimal.maxScale
deriving DecidableEq

namespace Decimal

/-- The number zero, without sign and without fractional digits. -/
def zero : Decimal := ⟨false, 0, 0, Nat.zero_le _, Nat.zero_le _⟩

instance : Inhabited Decimal := ⟨zero⟩

/-- The signed mantissa. The value of a number is its coefficient over `10 ^ scale`. -/
def coefficient (a : Decimal) : Int :=
  if a.negative then -(a.mantissa : Int) else a.mantissa

/-- Whether the value is zero, whatever its sign and scale. -/
def isZero (a : Decimal) : Bool := a.mantissa == 0

/-- The number with the opposite sign. Exact for every number. -/
def neg (a : Decimal) : Decimal := { a with negative := !a.negative }

/-- The power of ten with the exponent `n`. -/
def tenPow (n : Nat) : Nat := Nat.pow 10 n

theorem tenPow_succ (n : Nat) : tenPow (n + 1) = tenPow n * 10 := rfl

/-! ## Comparison

Both coefficients are brought over the common denominator `10 ^ (a.scale + b.scale)`; the
integers involved are unbounded, so nothing is lost. -/

/-- The order of the two values. -/
def order (a b : Decimal) : Ordering :=
  compare (a.coefficient * tenPow b.scale) (b.coefficient * tenPow a.scale)

/-- Whether the two values are equal. -/
def equals (a b : Decimal) : Bool :=
  a.coefficient * tenPow b.scale == b.coefficient * tenPow a.scale

/-! ## Normal form -/

/-- Mantissa and scale without trailing fractional zeros. A zero mantissa loses its whole
scale. -/
def trim : (mantissa scale : Nat) → Nat × Nat
  | m, 0 => (m, 0)
  | m, s + 1 => if m % 10 = 0 then trim (m / 10) s else (m, s + 1)

/-- Trimming never enlarges the mantissa. -/
theorem trim_fst_le (m s : Nat) : (trim m s).1 ≤ m := by
  induction s generalizing m with
  | zero => exact Nat.le_refl m
  | succ s ih =>
    unfold trim
    split
    · exact Nat.le_trans (ih (m / 10)) (Nat.div_le_self m 10)
    · exact Nat.le_refl m

/-- Trimming never enlarges the scale. -/
theorem trim_snd_le (m s : Nat) : (trim m s).2 ≤ s := by
  induction s generalizing m with
  | zero => exact Nat.le_refl 0
  | succ s ih =>
    unfold trim
    split
    · exact Nat.le_trans (ih (m / 10)) (Nat.le_succ s)
    · exact Nat.le_refl (s + 1)

/-- Trimming moves powers of ten out of the mantissa and changes nothing else. -/
theorem trim_fst_mul_tenPow (m s : Nat) : (trim m s).1 * tenPow s = m * tenPow (trim m s).2 := by
  induction s generalizing m with
  | zero => rfl
  | succ s ih =>
    unfold trim
    split
    · next h =>
      have hm : m / 10 * 10 = m := Nat.div_mul_cancel (Nat.dvd_of_mod_eq_zero h)
      calc (trim (m / 10) s).1 * tenPow (s + 1)
          = (trim (m / 10) s).1 * tenPow s * 10 := by rw [tenPow_succ, Nat.mul_assoc]
        _ = m / 10 * tenPow (trim (m / 10) s).2 * 10 := by rw [ih]
        _ = m / 10 * 10 * tenPow (trim (m / 10) s).2 := Nat.mul_right_comm _ _ _
        _ = m * tenPow (trim (m / 10) s).2 := by rw [hm]
    · rfl

/-- The same value with the fewest fractional digits, and a zero without sign. -/
def normalize (a : Decimal) : Decimal where
  negative := a.negative && a.mantissa != 0
  mantissa := (trim a.mantissa a.scale).1
  scale := (trim a.mantissa a.scale).2
  mantissa_le := Nat.le_trans (trim_fst_le _ _) a.mantissa_le
  scale_le := Nat.le_trans (trim_snd_le _ _) a.scale_le

end Decimal

end Lox
