import Lox.Proofs.Decimal.Digits
import Lox.Proofs.Decimal.Sum
import Lox.Proofs.Eval.Equality

/-!
# Lox — what the arithmetic operators evaluate to

The results of the operators on numbers, said of the rationals that the numbers stand for. Sums and
differences are exact or fail; products and quotients are rounded, once, at the largest scale that
fits.

* **`exact_sums_law`** — sums and differences, and the equations that hold of them.
* **`rounded_results_law`** — products and quotients, and where division fails.
* **`rounding_order_law`** — the order of the operands is that of the results, and overflow is a
  matter of magnitude.
-/

namespace Lox

open Decimal
open RuntimeError (Cause)

section

variable {a b : Decimal} {r : Option Decimal} {x : ℚ}

theorem Value.ofResult?_eq_ok_iff {v : Value} :
    Value.ofResult? r = .ok v ↔ ∃ n, r = some n ∧ v = .number n := by
  cases r <;> simp [Value.ofResult?, eq_comm]

theorem Value.ofResult?_eq_overflow_iff : Value.ofResult? r = .error .overflow ↔ r = none := by
  cases r <;> simp [Value.ofResult?]

theorem BinaryOp.apply_divide (h : b.toRat ≠ 0) :
    BinaryOp.divide.apply (.number a) (.number b) = Value.ofResult? (a.div? b) := by
  have hzero : ¬ b.isZero = true := mt isZero_iff.1 h
  simp only [BinaryOp.apply, BinaryOp.applyNumbers, if_neg hzero]

end

/-! ## Sums and differences -/

/-- `r` is the rational `x`, exactly, unless its coefficient at the scale `s` is out of range. -/
structure IsExact (x : ℚ) (s : Nat) (r : Except Cause Value) : Prop where
  overflow_iff : r = .error .overflow ↔ (maxMantissa : ℚ) < |x| * 10 ^ s
  exact_of_ne : r ≠ .error .overflow → ∃ n : Decimal, r = .ok (.number n) ∧ n.toRat = x

theorem cast_tenPow (n : Nat) : (tenPow n : ℚ) = 10 ^ n := Nat.cast_pow 10 n

theorem isExact_ofResult? {r : Option Decimal} {x : ℚ} {s : Nat}
    (hnone : r = none ↔ (maxMantissa : ℚ) < |x| * tenPow s)
    (hsome : ∀ n, r = some n → n.toRat = x) : IsExact x s (Value.ofResult? r) where
  overflow_iff := by rw [Value.ofResult?_eq_overflow_iff, hnone, cast_tenPow]
  exact_of_ne := by
    intro h
    cases r with
    | none => exact absurd rfl h
    | some n => exact ⟨n, rfl, hsome n rfl⟩

theorem isExact_add (a b : Decimal) :
    IsExact (a.toRat + b.toRat) (commonScale a b) (BinaryOp.add.apply (.number a) (.number b)) :=
  isExact_ofResult? add?_eq_none_iff fun _ => toRat_of_add?

theorem isExact_subtract (a b : Decimal) :
    IsExact (a.toRat - b.toRat) (commonScale a b)
      (BinaryOp.subtract.apply (.number a) (.number b)) :=
  isExact_ofResult? sub?_eq_none_iff fun _ => toRat_of_sub?

/-- A value does not need more digits than it has. -/
theorem IsExact.of_toRat {a : Decimal} {s : Nat} {r : Except Cause Value}
    (h : IsExact a.toRat s r) (hs : s = a.normalize.scale) :
    ∃ n : Decimal, r = .ok (.number n) ∧ n.toRat = a.toRat := by
  refine h.exact_of_ne fun hoverflow => ?_
  have hlt := h.overflow_iff.1 hoverflow
  have hmantissa : |a.toRat| * 10 ^ s = a.normalize.mantissa := by
    rw [← toRat_normalize, abs_toRat, ← cast_tenPow, hs, div_mul_cancel₀ _ (tenPow_ne_zero _)]
  rw [hmantissa, Nat.cast_lt] at hlt
  exact absurd a.normalize.mantissa_le (not_le.2 hlt)

theorem isExact_zero_operand (a : Decimal) {z : Decimal} (hz : z.toRat = 0) :
    IsExact a.toRat a.normalize.scale (BinaryOp.add.apply (.number a) (.number z))
    ∧ IsExact a.toRat a.normalize.scale (BinaryOp.subtract.apply (.number a) (.number z)) := by
  have hadd := isExact_add a z
  have hsubtract := isExact_subtract a z
  rw [hz, add_zero, commonScale_of_toRat_eq_zero a hz] at hadd
  rw [hz, sub_zero, commonScale_of_toRat_eq_zero a hz] at hsubtract
  exact ⟨hadd, hsubtract⟩

/-- **Sums and differences are exact or fail.** They fail if they need too many digits at the larger
of the two normal scales. So the equations of exact arithmetic hold of them, errors included; adding
and subtracting a zero never fails. -/
theorem exact_sums_law (a b : Decimal) :
    IsExact (a.toRat + b.toRat) (commonScale a b) (BinaryOp.add.apply (.number a) (.number b))
    ∧ IsExact (a.toRat - b.toRat) (commonScale a b)
        (BinaryOp.subtract.apply (.number a) (.number b))
    ∧ BinaryOp.add.apply (.number a) (.number b) = BinaryOp.add.apply (.number b) (.number a)
    ∧ BinaryOp.subtract.apply (.number a) (.number b)
        = (UnaryOp.negate.apply (.number b) >>= BinaryOp.add.apply (.number a))
    ∧ BothEnd Cause.Same Value.Same (BinaryOp.subtract.apply (.number a) (.number b))
        (BinaryOp.subtract.apply (.number b) (.number a) >>= UnaryOp.negate.apply)
    ∧ (∀ z : Decimal, z.isZero = true →
        (∃ n : Decimal, BinaryOp.add.apply (.number a) (.number z) = .ok (.number n)
          ∧ n.toRat = a.toRat)
        ∧ ∃ n : Decimal, BinaryOp.subtract.apply (.number a) (.number z) = .ok (.number n)
          ∧ n.toRat = a.toRat)
    ∧ ∃ n : Decimal, BinaryOp.subtract.apply (.number a) (.number a) = .ok (.number n)
        ∧ n.toRat = 0 := by
  refine ⟨isExact_add a b, isExact_subtract a b, ?_, ?_, ?_, fun z hz => ?_, ?_⟩
  · exact congrArg Value.ofResult? (add?_comm a b)
  · exact congrArg Value.ofResult? (sub?_eq_add?_neg a b)
  · have hnegate : Value.ofResult? ((b.sub? a).map neg)
        = (Value.ofResult? (b.sub? a) >>= UnaryOp.negate.apply) := by
      cases b.sub? a <;> rfl
    have hsame := Value.ofResult?_same (map_toRat_sub?_swap a b)
    rwa [hnegate] at hsame
  · obtain ⟨hadd, hsubtract⟩ := isExact_zero_operand a (isZero_iff.1 hz)
    exact ⟨hadd.of_toRat rfl, hsubtract.of_toRat rfl⟩
  · have hself := isExact_subtract a a
    rw [sub_self] at hself
    refine hself.exact_of_ne fun hoverflow => ?_
    have hlt := hself.overflow_iff.1 hoverflow
    rw [abs_zero, zero_mul] at hlt
    exact absurd hlt (not_lt.2 (Nat.cast_nonneg _))

/-- The largest number. -/
def largestNumber : Decimal := ⟨false, maxMantissa, 0, Nat.le_refl _, Nat.zero_le _⟩

/-- A zero with a sign and with digits after the point. -/
def signedZero : Decimal := ⟨true, 0, 28, Nat.zero_le _, Nat.le_refl _⟩

theorem exact_sums_law_signedZero :
    signedZero.isZero = true
    ∧ (∃ n : Decimal, BinaryOp.subtract.apply (.number largestNumber) (.number signedZero)
        = .ok (.number n) ∧ n.toRat = largestNumber.toRat) :=
  have hzero : signedZero.isZero = true := rfl
  ⟨hzero, ((exact_sums_law largestNumber signedZero).2.2.2.2.2.1 signedZero hzero).2⟩

/-! ## Products and quotients -/

/-- `r` is the rational `x`, rounded at the largest scale at which the rounded mantissa is in range,
unless the rounded integer is out of range. Nothing is lost of what can be represented, and not much
of anything else. -/
structure IsRounded (x : ℚ) (r : Except Cause Value) : Prop where
  overflow_iff : r = .error .overflow ↔ (maxMantissa : ℤ) < |halfEven x|
  rounding_of_ne : r ≠ .error .overflow →
    ∃ n : Decimal, r = .ok (.number n) ∧ IsRounding x n.toRat
  exact_of_representable : (∃ d : Decimal, d.toRat = x) →
    ∃ n : Decimal, r = .ok (.number n) ∧ n.toRat = x
  abs_sub_le : ∀ n : Decimal, r = .ok (.number n) →
    |n.toRat - x| ≤ max (1 / 10 ^ 28 / 2) (|x| * (1 / 10 ^ 28))

theorem isRounded_ofResult? {r : Option Decimal} {x : ℚ} (hnone : r = none ↔ ¬ Fits x 0)
    (hsome : ∀ n, r = some n → IsRounding x n.toRat) : IsRounded x (Value.ofResult? r) where
  overflow_iff := by
    rw [Value.ofResult?_eq_overflow_iff, hnone, fits_zero_iff, not_le]
  rounding_of_ne := by
    intro h
    cases r with
    | none => exact absurd rfl h
    | some n => exact ⟨n, rfl, hsome n rfl⟩
  exact_of_representable := by
    rintro ⟨d, rfl⟩
    cases r with
    | none => exact absurd d.fits_zero_toRat (hnone.1 rfl)
    | some n => exact ⟨n, rfl, (hsome n rfl).eq_of_toRat⟩
  abs_sub_le := by
    intro n h
    obtain ⟨n', hn', hv⟩ := Value.ofResult?_eq_ok_iff.1 h
    cases hv
    exact (hsome n hn').abs_sub_le

theorem isRounded_multiply (a b : Decimal) :
    IsRounded (a.toRat * b.toRat) (BinaryOp.multiply.apply (.number a) (.number b)) :=
  isRounded_ofResult? mul?_eq_none_iff fun _ => isRounding_of_mul?

theorem isRounded_divide (a : Decimal) {b : Decimal} (hb : b.toRat ≠ 0) :
    IsRounded (a.toRat / b.toRat) (BinaryOp.divide.apply (.number a) (.number b)) := by
  rw [BinaryOp.apply_divide hb]
  exact isRounded_ofResult? (div?_eq_none_iff hb) fun _ => isRounding_of_div? hb

theorem Value.ofResult?_ne_divisionByZero (r : Option Decimal) :
    Value.ofResult? r ≠ .error .divisionByZero := by
  cases r <;> nofun

/-- A division by zero is the division of a number by a number that is zero. -/
theorem BinaryOp.apply_eq_divisionByZero_iff {op : BinaryOp} {v w : Value} :
    op.apply v w = .error .divisionByZero
      ↔ op = .divide ∧ ∃ c d : Decimal, v = .number c ∧ w = .number d ∧ d.toRat = 0 := by
  constructor
  · intro h
    cases v with
    | number c =>
      cases w with
      | number d =>
        cases op with
        | divide =>
          refine ⟨rfl, c, d, rfl, rfl, ?_⟩
          by_contra hd
          rw [BinaryOp.apply_divide hd] at h
          exact Value.ofResult?_ne_divisionByZero _ h
        | add | subtract | multiply => exact absurd h (Value.ofResult?_ne_divisionByZero _)
        | _ => cases h
      | _ => cases op <;> cases h
    | _ => cases op <;> cases w <;> cases h
  · rintro ⟨rfl, c, d, rfl, rfl, hd⟩
    exact if_pos (isZero_iff.2 hd)

/-- **Products and quotients are rounded correctly.** Division by a number fails for zero as
such, and nothing else does. What was multiplied without loss can be divided again. -/
theorem rounded_results_law (a b : Decimal) :
    IsRounded (a.toRat * b.toRat) (BinaryOp.multiply.apply (.number a) (.number b))
    ∧ (b.toRat ≠ 0 →
        IsRounded (a.toRat / b.toRat) (BinaryOp.divide.apply (.number a) (.number b)))
    ∧ (b.toRat = 0 → BinaryOp.divide.apply (.number a) (.number b) = .error .divisionByZero)
    ∧ (∀ op v w, BinaryOp.apply op v w = .error .divisionByZero →
        op = .divide ∧ ∃ c d : Decimal, v = .number c ∧ w = .number d ∧ d.toRat = 0)
    ∧ (∀ op v, UnaryOp.apply op v ≠ .error .divisionByZero)
    ∧ ∀ n : Decimal, BinaryOp.multiply.apply (.number a) (.number b) = .ok (.number n) →
        n.toRat = a.toRat * b.toRat → b.toRat ≠ 0 →
        ∃ q : Decimal, BinaryOp.divide.apply (.number n) (.number b) = .ok (.number q)
          ∧ q.toRat = a.toRat := by
  refine ⟨isRounded_multiply a b, isRounded_divide a, fun hb => ?_,
    fun op v w => BinaryOp.apply_eq_divisionByZero_iff.1, fun op v => ?_, fun n _ hn hb => ?_⟩
  · exact BinaryOp.apply_eq_divisionByZero_iff.2 ⟨rfl, a, b, rfl, rfl, hb⟩
  · cases op <;> cases v <;> nofun
  · have hquotient : n.toRat / b.toRat = a.toRat := by rw [hn, mul_div_cancel_right₀ _ hb]
    have h := (isRounded_divide n hb).exact_of_representable ⟨a, hquotient.symm⟩
    rwa [hquotient] at h

/-- A number whose third part is rounded out of range with 28 digits after the point. -/
def threefoldEdge : Decimal := ⟨false, 23768448754279301278063185101, 27, by decide, by decide⟩

/-- The number three. -/
def three : Decimal := ⟨false, 3, 0, by decide, by decide⟩

/-- The third part of `threefoldEdge`, with 27 digits after the point. -/
def roundedThird : Decimal := ⟨false, 7922816251426433759354395034, 27, by decide, by decide⟩

theorem toRat_three : three.toRat = 3 := by
  norm_num [three, toRat, coefficient, tenPow]

theorem rounded_results_law_threefoldEdge :
    three.toRat ≠ 0
    ∧ BinaryOp.divide.apply (.number threefoldEdge) (.number three) = .ok (.number roundedThird)
    ∧ IsRounded (threefoldEdge.toRat / three.toRat) (.ok (.number roundedThird))
    ∧ signedZero.toRat = 0
    ∧ BinaryOp.divide.apply (.number threefoldEdge) (.number signedZero) = .error .divisionByZero :=
  have hthree : three.toRat ≠ 0 := by rw [toRat_three]; norm_num
  have hzero : signedZero.toRat = 0 := toRat_eq_zero_iff.2 rfl
  have hquotient : BinaryOp.divide.apply (.number threefoldEdge) (.number three)
      = .ok (.number roundedThird) := by decide +kernel
  ⟨hthree, hquotient, hquotient ▸ (rounded_results_law threefoldEdge three).2.1 hthree, hzero,
    (rounded_results_law threefoldEdge signedZero).2.2.1 hzero⟩

/-! ## Order -/

/-- Numbers are ordered as the evaluator compares them. -/
instance : LE Decimal where
  le a b := BinaryOp.lessEqual.apply (.number a) (.number b) = .ok (.bool true)

instance : LT Decimal where
  lt a b := BinaryOp.less.apply (.number a) (.number b) = .ok (.bool true)

instance (a b : Decimal) : Decidable (a ≤ b) :=
  inferInstanceAs (Decidable (BinaryOp.lessEqual.apply (.number a) (.number b) = .ok (.bool true)))

instance (a b : Decimal) : Decidable (a < b) :=
  inferInstanceAs (Decidable (BinaryOp.less.apply (.number a) (.number b) = .ok (.bool true)))

theorem Decimal.le_iff {a b : Decimal} : a ≤ b ↔ a.toRat ≤ b.toRat := by
  show BinaryOp.lessEqual.apply (.number a) (.number b) = .ok (.bool true) ↔ _
  simp [BinaryOp.apply, BinaryOp.applyNumbers, order_eq, ← Ordering.ne_gt_iff_isLE,
    compare_le_iff_le]

theorem Decimal.lt_iff {a b : Decimal} : a < b ↔ a.toRat < b.toRat := by
  show BinaryOp.less.apply (.number a) (.number b) = .ok (.bool true) ↔ _
  simp [BinaryOp.apply, BinaryOp.applyNumbers, order_eq, compare_lt_iff_lt]

theorem toRat_zero : Decimal.zero.toRat = 0 := toRat_eq_zero_iff.2 rfl

theorem zero_lt_iff {a : Decimal} : .zero < a ↔ 0 < a.toRat := by
  rw [Decimal.lt_iff, toRat_zero]

theorem abs_le_abs_iff {a b : Decimal} : a.abs ≤ b.abs ↔ |a.toRat| ≤ |b.toRat| := by
  rw [Decimal.le_iff, toRat_abs, toRat_abs]

theorem zero_lt_abs_iff {a : Decimal} : .zero < a.abs ↔ a.toRat ≠ 0 := by
  rw [zero_lt_iff, toRat_abs, abs_pos]

section

variable {x y : ℚ} {r q : Except Cause Value} (hr : IsRounded x r) (hq : IsRounded y q)

include hr

theorem IsRounded.isRounding {p : Decimal} (h : r = .ok (.number p)) : IsRounding x p.toRat := by
  obtain ⟨n, hn, hround⟩ := hr.rounding_of_ne (by rw [h]; nofun)
  rw [h] at hn
  cases hn
  exact hround

include hq

/-- Results are in the order of the rationals that they are rounded from. -/
theorem IsRounded.le (hxy : x ≤ y) {m n : Decimal} (hm : r = .ok (.number m))
    (hn : q = .ok (.number n)) : m ≤ n :=
  Decimal.le_iff.2 ((hr.isRounding hm).le (hq.isRounding hn) hxy)

/-- Where a rational does not overflow, those of smaller magnitude do not either. -/
theorem IsRounded.succeeds (hxy : |x| ≤ |y|) {v : Value} (hv : q = .ok v) :
    ∃ n : Decimal, r = .ok (.number n) := by
  have hne : ¬ (maxMantissa : ℤ) < |halfEven y| := fun h => by
    rw [hq.overflow_iff.2 h] at hv
    cases hv
  have hfits : Fits x 0 := (fits_zero_iff.2 (not_lt.1 hne)).mono hxy le_rfl
  obtain ⟨n, hn, -⟩ := hr.rounding_of_ne fun h =>
    absurd (hr.overflow_iff.1 h) (not_lt.2 (fits_zero_iff.1 hfits))
  exact ⟨n, hn⟩

end

/-- **Rounding preserves order.** Products with a positive number and quotients by one are ordered
as their operands are, and quotients of a number that is not negative the other way. An operation
that does not overflow does not for operands of smaller magnitude, or for a divisor of a larger
one. -/
theorem rounding_order_law (a b c d : Decimal) :
    (a ≤ b → .zero < c →
      (∀ m n : Decimal, BinaryOp.multiply.apply (.number a) (.number c) = .ok (.number m) →
        BinaryOp.multiply.apply (.number b) (.number c) = .ok (.number n) → m ≤ n)
      ∧ ∀ m n : Decimal, BinaryOp.divide.apply (.number a) (.number c) = .ok (.number m) →
        BinaryOp.divide.apply (.number b) (.number c) = .ok (.number n) → m ≤ n)
    ∧ (.zero < c → c ≤ d → .zero ≤ a →
      ∀ m n : Decimal, BinaryOp.divide.apply (.number a) (.number c) = .ok (.number m) →
        BinaryOp.divide.apply (.number a) (.number d) = .ok (.number n) → n ≤ m)
    ∧ (a.abs ≤ b.abs → c.abs ≤ d.abs →
      (∃ v, BinaryOp.multiply.apply (.number b) (.number d) = .ok v) →
      ∃ n : Decimal, BinaryOp.multiply.apply (.number a) (.number c) = .ok (.number n))
    ∧ (a.abs ≤ b.abs → .zero < d.abs → d.abs ≤ c.abs →
      (∃ v, BinaryOp.divide.apply (.number b) (.number d) = .ok v) →
      ∃ n : Decimal, BinaryOp.divide.apply (.number a) (.number c) = .ok (.number n)) := by
  refine ⟨fun hab hc => ⟨fun m n hm hn => ?_, fun m n hm hn => ?_⟩, fun hc hcd ha m n hm hn => ?_,
    fun hab hcd ⟨v, hv⟩ => ?_, fun hab hd hdc ⟨v, hv⟩ => ?_⟩
  · have hle : a.toRat * c.toRat ≤ b.toRat * c.toRat :=
      mul_le_mul_of_nonneg_right (Decimal.le_iff.1 hab) (zero_lt_iff.1 hc).le
    exact (isRounded_multiply a c).le (isRounded_multiply b c) hle hm hn
  · have hpos := zero_lt_iff.1 hc
    have hle : a.toRat / c.toRat ≤ b.toRat / c.toRat :=
      div_le_div_of_nonneg_right (Decimal.le_iff.1 hab) hpos.le
    exact (isRounded_divide a hpos.ne').le (isRounded_divide b hpos.ne') hle hm hn
  · have hpos := zero_lt_iff.1 hc
    have hpos' := hpos.trans_le (Decimal.le_iff.1 hcd)
    have hnonneg : 0 ≤ a.toRat := toRat_zero ▸ Decimal.le_iff.1 ha
    have hle : a.toRat / d.toRat ≤ a.toRat / c.toRat :=
      div_le_div_of_nonneg_left hnonneg hpos (Decimal.le_iff.1 hcd)
    exact (isRounded_divide a hpos'.ne').le (isRounded_divide a hpos.ne') hle hn hm
  · have hle : |a.toRat * c.toRat| ≤ |b.toRat * d.toRat| := by
      rw [abs_mul, abs_mul]
      exact mul_le_mul (abs_le_abs_iff.1 hab) (abs_le_abs_iff.1 hcd) (abs_nonneg _) (abs_nonneg _)
    exact (isRounded_multiply a c).succeeds (isRounded_multiply b d) hle hv
  · have hd₀ := zero_lt_abs_iff.1 hd
    have hdc' := abs_le_abs_iff.1 hdc
    have hc₀ : c.toRat ≠ 0 := abs_pos.1 ((abs_pos.2 hd₀).trans_le hdc')
    have hle : |a.toRat / c.toRat| ≤ |b.toRat / d.toRat| := by
      rw [abs_div, abs_div]
      exact div_le_div₀ (abs_nonneg _) (abs_le_abs_iff.1 hab) (abs_pos.2 hd₀) hdc'
    exact (isRounded_divide a hc₀).succeeds (isRounded_divide b hd₀) hle hv

/-- The number before `threefoldEdge`. -/
def belowThreefoldEdge : Decimal := ⟨false, 23768448754279301278063185100, 27, by decide, by decide⟩

/-- The third part of `belowThreefoldEdge`, with 28 digits after the point. -/
def finerThird : Decimal := ⟨false, 79228162514264337593543950333, 28, by decide, by decide⟩

theorem rounding_order_law_threefoldEdge :
    belowThreefoldEdge ≤ threefoldEdge ∧ .zero < three ∧ three ≤ threefoldEdge
    ∧ .zero ≤ threefoldEdge ∧ belowThreefoldEdge.abs ≤ threefoldEdge.abs ∧ three.abs ≤ three.abs
    ∧ .zero < three.abs
    ∧ BinaryOp.divide.apply (.number belowThreefoldEdge) (.number three)
        = .ok (.number finerThird)
    ∧ BinaryOp.divide.apply (.number threefoldEdge) (.number three) = .ok (.number roundedThird)
    ∧ finerThird ≤ roundedThird
    ∧ (∀ n : Decimal, BinaryOp.divide.apply (.number threefoldEdge) (.number threefoldEdge)
        = .ok (.number n) → n ≤ roundedThird)
    ∧ (∃ n : Decimal, BinaryOp.multiply.apply (.number belowThreefoldEdge) (.number three)
        = .ok (.number n))
    ∧ ∃ n : Decimal, BinaryOp.divide.apply (.number belowThreefoldEdge) (.number three)
        = .ok (.number n) := by
  have hle : belowThreefoldEdge ≤ threefoldEdge := by decide +kernel
  have hpos : .zero < three := by decide +kernel
  have hdivisors : three ≤ threefoldEdge := by decide +kernel
  have hnonneg : .zero ≤ threefoldEdge := by decide +kernel
  have hmagnitude : belowThreefoldEdge.abs ≤ threefoldEdge.abs := by decide +kernel
  have hsame : three.abs ≤ three.abs := by decide +kernel
  have hpos' : .zero < three.abs := by decide +kernel
  have hbelow : BinaryOp.divide.apply (.number belowThreefoldEdge) (.number three)
      = .ok (.number finerThird) := by decide +kernel
  have hedge : BinaryOp.divide.apply (.number threefoldEdge) (.number three)
      = .ok (.number roundedThird) := by decide +kernel
  have hproduct : ∃ v, BinaryOp.multiply.apply (.number threefoldEdge) (.number three) = .ok v :=
    ⟨.number ⟨false, 71305346262837903834189555303, 27, by decide, by decide⟩, by decide +kernel⟩
  obtain ⟨horder, hdivisor, hmultiply, hdivide⟩ :=
    rounding_order_law belowThreefoldEdge threefoldEdge three three
  exact ⟨hle, hpos, hdivisors, hnonneg, hmagnitude, hsame, hpos', hbelow, hedge,
    (horder hle hpos).2 _ _ hbelow hedge,
    fun n => (rounding_order_law threefoldEdge threefoldEdge three threefoldEdge).2.1 hpos hdivisors
      hnonneg _ n hedge,
    hmultiply hmagnitude hsame hproduct, hdivide hmagnitude hpos' hsame ⟨_, hedge⟩⟩

end Lox
