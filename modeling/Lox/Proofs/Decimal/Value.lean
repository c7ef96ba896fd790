import Lox.Decimal.Arithmetic
import Lox.Decimal.Text
import Mathlib.Algebra.Order.Field.Basic
import Mathlib.Algebra.Order.Field.Rat
import Mathlib.Data.Rat.Lemmas
import Mathlib.Tactic.Ring

/-!
# Lox — the values of decimal numbers

A decimal number stands for a rational number, and several stand for the same one. Everything that
is computed from a number depends on the rational alone: neither the scale nor the sign of a zero
makes a difference.

* **`Decimal.toRat`** — the rational that a number stands for.
* **`Decimal.equals_iff`**, **`Decimal.order_eq`** — comparison is that of the rationals.
* **`Decimal.normalize_eq_iff`** — there is one normal form for each value.
* **`Decimal.map_toRat_mul?`**, **`Decimal.map_toRat_div?`** — products and quotients are the
  exact ones, rounded.
-/

namespace Lox.Decimal

/-! ## The rational -/

/-- The rational number that a decimal number stands for. -/
def toRat (a : Decimal) : ℚ := a.coefficient / tenPow a.scale

theorem tenPow_pos (n : Nat) : 0 < tenPow n := Nat.pow_pos (by decide)

theorem tenPow_add (m n : Nat) : tenPow (m + n) = tenPow m * tenPow n := Nat.pow_add 10 m n

theorem tenPow_ne_zero (n : Nat) : (tenPow n : ℚ) ≠ 0 :=
  Nat.cast_ne_zero.2 (Nat.ne_of_gt (tenPow_pos n))

theorem natAbs_coefficient (a : Decimal) : a.coefficient.natAbs = a.mantissa := by
  unfold coefficient
  split
  · rw [Int.natAbs_neg, Int.natAbs_natCast]
  · rw [Int.natAbs_natCast]

/-- Without its sign, a number is its mantissa over the power of ten. -/
theorem abs_toRat (a : Decimal) : |a.toRat| = a.mantissa / tenPow a.scale := by
  have hscale : |(tenPow a.scale : ℚ)| = tenPow a.scale := abs_of_nonneg (Nat.cast_nonneg _)
  have hcoefficient : |(a.coefficient : ℚ)| = a.mantissa := by
    rw [← Int.cast_abs, Int.abs_eq_natAbs, natAbs_coefficient, Int.cast_natCast]
  rw [toRat, abs_div, hscale, hcoefficient]

theorem toRat_eq_zero_iff {a : Decimal} : a.toRat = 0 ↔ a.mantissa = 0 := by
  rw [← abs_eq_zero, abs_toRat, div_eq_zero_iff, or_iff_left (tenPow_ne_zero _), Nat.cast_eq_zero]

/-- The sign counts unless the mantissa is zero. -/
theorem toRat_lt_zero_iff {a : Decimal} : a.toRat < 0 ↔ a.negative = true ∧ a.mantissa ≠ 0 := by
  have hpow : (0 : ℚ) < tenPow a.scale := Nat.cast_pos.2 (tenPow_pos _)
  rw [toRat, div_neg_iff]
  simp only [hpow, not_lt_of_gt hpow, and_true, and_false, false_or]
  rw [Int.cast_lt_zero, coefficient]
  cases a.negative with
  | false => simp
  | true => simp [Nat.pos_iff_ne_zero]

theorem isZero_iff {a : Decimal} : a.isZero = true ↔ a.toRat = 0 := by
  rw [toRat_eq_zero_iff, isZero, beq_iff_eq]

@[simp] theorem toRat_neg (a : Decimal) : a.neg.toRat = -a.toRat := by
  have hcoefficient : a.neg.coefficient = -a.coefficient := by
    unfold coefficient neg
    cases a.negative with
    | false => rfl
    | true => exact (Int.neg_neg _).symm
  rw [toRat, toRat, hcoefficient, Int.cast_neg, neg_div]
  rfl

/-! ## Comparison -/

/-- Two numbers are equal if they stand for the same rational. -/
theorem equals_iff {a b : Decimal} : a.equals b = true ↔ a.toRat = b.toRat := by
  rw [toRat, toRat, div_eq_div_iff (tenPow_ne_zero _) (tenPow_ne_zero _), equals, beq_iff_eq]
  norm_cast

/-- Numbers are ordered as the rationals that they stand for. -/
theorem order_eq (a b : Decimal) : a.order b = compare a.toRat b.toRat := by
  have ha : (0 : ℚ) < tenPow a.scale := Nat.cast_pos.2 (tenPow_pos _)
  have hb : (0 : ℚ) < tenPow b.scale := Nat.cast_pos.2 (tenPow_pos _)
  have hlt : ∀ {x y : Decimal}, x.toRat < y.toRat
      ↔ x.coefficient * tenPow y.scale < y.coefficient * tenPow x.scale := by
    intro x y
    have hx : (0 : ℚ) < tenPow x.scale := Nat.cast_pos.2 (tenPow_pos _)
    have hy : (0 : ℚ) < tenPow y.scale := Nat.cast_pos.2 (tenPow_pos _)
    rw [toRat, toRat, div_lt_div_iff₀ hx hy]
    norm_cast
  rcases lt_trichotomy a.toRat b.toRat with h | h | h
  · rw [compare_lt_iff_lt.2 h, order, compare_lt_iff_lt.2 (hlt.1 h)]
  · have heq := equals_iff.2 h
    rw [equals, beq_iff_eq] at heq
    rw [compare_eq_iff_eq.2 h, order, compare_eq_iff_eq.2 heq]
  · rw [compare_gt_iff_gt.2 h, order, compare_gt_iff_gt.2 (hlt.1 h)]

/-! ## Normal form -/

/-- No fractional digit can be left out. -/
def Trimmed (m s : Nat) : Prop := s = 0 ∨ m % 10 ≠ 0

theorem trimmed_trim (m s : Nat) : Trimmed (trim m s).1 (trim m s).2 := by
  induction s generalizing m with
  | zero => exact .inl rfl
  | succ s ih =>
    unfold trim
    split
    · exact ih (m / 10)
    · next h => exact .inr h

theorem trim_div (m s : Nat) : ((trim m s).1 : ℚ) / tenPow (trim m s).2 = m / tenPow s := by
  rw [div_eq_div_iff (tenPow_ne_zero _) (tenPow_ne_zero _)]
  exact_mod_cast trim_fst_mul_tenPow m s

/-- A value has one mantissa and scale of which no digit can be left out. -/
theorem Trimmed.unique {m m' s s' : Nat} (h : Trimmed m s) (h' : Trimmed m' s')
    (heq : (m : ℚ) / tenPow s = m' / tenPow s') : m = m' ∧ s = s' := by
  rw [div_eq_div_iff (tenPow_ne_zero _) (tenPow_ne_zero _)] at heq
  replace heq : m * tenPow s' = m' * tenPow s := by exact_mod_cast heq
  -- with more fractional digits than on the other side, the last one would be a zero
  have hle : ∀ {m m' s s' : Nat}, Trimmed m' s' → m * tenPow s' = m' * tenPow s → s' ≤ s := by
    intro m m' s s' h' heq
    refine Nat.le_of_not_lt fun hlt => ?_
    obtain ⟨k, rfl⟩ : ∃ k, s' = s + (k + 1) := ⟨s' - s - 1, by omega⟩
    have hcancel : m' = m * tenPow k * 10 := by
      refine Nat.eq_of_mul_eq_mul_right (tenPow_pos s) ?_
      rw [← heq, tenPow_add, tenPow_succ]
      ring
    rcases h' with h' | h'
    · omega
    · exact h' (by rw [hcancel, Nat.mul_mod_left])
  obtain rfl : s = s' := Nat.le_antisymm (hle h heq.symm) (hle h' heq)
  exact ⟨Nat.eq_of_mul_eq_mul_right (tenPow_pos s) heq, rfl⟩

/-- The normal form has the same value. -/
@[simp] theorem toRat_normalize (a : Decimal) : a.normalize.toRat = a.toRat := by
  have habs : |a.normalize.toRat| = |a.toRat| := by
    rw [abs_toRat, abs_toRat]
    exact trim_div a.mantissa a.scale
  have hzero : a.normalize.mantissa = 0 ↔ a.mantissa = 0 := by
    rw [← toRat_eq_zero_iff, ← toRat_eq_zero_iff, ← abs_eq_zero, habs, abs_eq_zero]
  have hneg : a.normalize.toRat < 0 ↔ a.toRat < 0 := by
    rw [toRat_lt_zero_iff, toRat_lt_zero_iff, ne_eq, ne_eq, hzero]
    simp [normalize]
  rcases lt_or_ge a.toRat 0 with h | h
  · rwa [abs_of_neg (hneg.2 h), abs_of_neg h, neg_inj] at habs
  · rwa [abs_of_nonneg (not_lt.1 (mt hneg.1 (not_lt.2 h))), abs_of_nonneg h] at habs

/-- There is one normal form for each value. -/
theorem normalize_eq_iff {a b : Decimal} : a.normalize = b.normalize ↔ a.toRat = b.toRat := by
  constructor
  · intro h
    rw [← a.toRat_normalize, h, b.toRat_normalize]
  · intro h
    have hnegative : a.normalize.negative = b.normalize.negative := by
      have hlt : a.toRat < 0 ↔ b.toRat < 0 := by rw [h]
      rw [toRat_lt_zero_iff, toRat_lt_zero_iff] at hlt
      rw [Bool.eq_iff_iff]
      simpa [normalize] using hlt
    have habs : ((trim a.mantissa a.scale).1 : ℚ) / tenPow (trim a.mantissa a.scale).2
        = (trim b.mantissa b.scale).1 / tenPow (trim b.mantissa b.scale).2 := by
      rw [trim_div, trim_div, ← abs_toRat, ← abs_toRat, h]
    obtain ⟨hmantissa, hscale⟩ := (trimmed_trim _ _).unique (trimmed_trim _ _) habs
    simp only [normalize, mk.injEq] at hnegative ⊢
    exact ⟨hnegative, hmantissa, hscale⟩

/-! ## Rounding -/

theorem roundHalfEven_mul_right (num den : Nat) {k : Nat} (hk : 0 < k) :
    roundHalfEven (num * k) (den * k) = roundHalfEven num den := by
  have hlt : den * k < 2 * (num % den * k) ↔ den < 2 * (num % den) := by
    rw [← Nat.mul_assoc, Nat.mul_lt_mul_right hk]
  have heq : 2 * (num % den * k) = den * k ↔ 2 * (num % den) = den := by
    rw [← Nat.mul_assoc, Nat.mul_right_cancel_iff hk]
  simp only [roundHalfEven, Nat.mul_div_mul_right _ _ hk, Nat.mul_mod_mul_right, hlt, heq]

/-- Rounding looks at the value of a fraction, not at its terms. -/
theorem roundHalfEven_congr {num den num' den' : Nat} (hden : 0 < den) (hden' : 0 < den')
    (h : num * den' = num' * den) : roundHalfEven num den = roundHalfEven num' den' := by
  rw [← roundHalfEven_mul_right num den hden', ← roundHalfEven_mul_right num' den' hden, h,
    Nat.mul_comm den den']

theorem roundHalfEven_zero (den : Nat) : roundHalfEven 0 den = 0 := by
  simp [roundHalfEven]

/-- Numbers that differ in the sign of zero at most have the same value. -/
theorem toRat_mk_congr {negative negative' : Bool} {m s : Nat} (hm : m ≤ maxMantissa)
    (hs : s ≤ maxScale) (h : m ≠ 0 → negative = negative') :
    toRat ⟨negative, m, s, hm, hs⟩ = toRat ⟨negative', m, s, hm, hs⟩ := by
  by_cases hzero : m = 0
  · subst hzero
    rw [toRat_eq_zero_iff.2 rfl, toRat_eq_zero_iff.2 rfl]
  · rw [h hzero]

/-- What a fraction is rounded to depends on its value, and on its sign unless it is zero. -/
theorem map_toRat_roundFrom?_congr {negative negative' : Bool} {num den num' den' : Nat}
    (hden : 0 < den) (hden' : 0 < den') (h : num * den' = num' * den)
    (hsign : num ≠ 0 → negative = negative') {s : Nat} (hs : s ≤ maxScale) :
    (roundFrom? negative num den s hs).map toRat
      = (roundFrom? negative' num' den' s hs).map toRat := by
  -- at each scale the two mantissas are the same, and zero if the fraction is
  have hround : ∀ k, roundHalfEven (num * k) den = roundHalfEven (num' * k) den' := fun k =>
    roundHalfEven_congr hden hden' (by rw [Nat.mul_right_comm, h, Nat.mul_right_comm])
  have hzero : ∀ k, roundHalfEven (num' * k) den' ≠ 0 → negative = negative' := by
    intro k hne
    refine hsign fun hnum => hne ?_
    rw [← hround, hnum, Nat.zero_mul, roundHalfEven_zero]
  induction s with
  | zero =>
    have hround₀ := hround 1
    have hzero₀ := hzero 1
    rw [Nat.mul_one, Nat.mul_one] at hround₀
    rw [Nat.mul_one] at hzero₀
    unfold roundFrom?
    simp only [hround₀]
    split
    · next hm => exact congrArg some (toRat_mk_congr hm hs hzero₀)
    · rfl
  | succ s ih =>
    unfold roundFrom?
    simp only [hround]
    split
    · next hm => exact congrArg some (toRat_mk_congr hm hs (hzero _))
    · exact ih _

/-- The number nearest to a rational with as many fractional digits as fit. -/
def nearest? (x : ℚ) : Option Decimal := round? (decide (x < 0)) x.num.natAbs x.den

theorem abs_eq_num_div_den (x : ℚ) : |x| = x.num.natAbs / x.den := by
  conv_lhs => rw [← Rat.num_div_den x]
  rw [abs_div, Nat.abs_cast, ← Int.cast_abs, Int.abs_eq_natAbs, Int.cast_natCast]

theorem map_toRat_round? {negative : Bool} {num den : Nat} (hden : 0 < den) {x : ℚ}
    (hx : |x| = num / den) (hsign : num ≠ 0 → (negative = true ↔ x < 0)) :
    (round? negative num den).map toRat = (nearest? x).map toRat := by
  have hden₀ : (den : ℚ) ≠ 0 := Nat.cast_ne_zero.2 (Nat.ne_of_gt hden)
  refine map_toRat_roundFrom?_congr hden x.pos ?_ (fun hnum => ?_) _
  · rw [abs_eq_num_div_den, div_eq_div_iff (Nat.cast_ne_zero.2 x.den_nz) hden₀] at hx
    exact_mod_cast hx.symm
  · rw [Bool.eq_iff_iff, hsign hnum, decide_eq_true_iff]

/-! ## Products and quotients -/

/-- The sign of a product or quotient is found from the signs of its operands. -/
theorem bne_negative_iff {a b : Decimal} (ha : a.mantissa ≠ 0) (hb : b.mantissa ≠ 0) :
    (a.negative != b.negative) = true ↔ a.toRat * b.toRat < 0 := by
  have hsign : ∀ {c : Decimal}, c.mantissa ≠ 0 →
      (c.negative = true ↔ c.toRat < 0) ∧ (c.negative = false ↔ 0 < c.toRat) := by
    intro c hc
    have hneg : c.negative = true ↔ c.toRat < 0 := by simp [toRat_lt_zero_iff, hc]
    have hne : c.toRat ≠ 0 := mt toRat_eq_zero_iff.1 hc
    refine ⟨hneg, ?_⟩
    rw [← Bool.not_eq_true, hneg, not_lt, le_iff_lt_or_eq, or_iff_left hne.symm]
  rw [mul_neg_iff, ← (hsign ha).1, ← (hsign ha).2, ← (hsign hb).1, ← (hsign hb).2]
  cases a.negative <;> cases b.negative <;> simp

/-- A product is the exact one, rounded. -/
theorem map_toRat_mul? (a b : Decimal) :
    (a.mul? b).map toRat = (nearest? (a.toRat * b.toRat)).map toRat := by
  refine map_toRat_round? (tenPow_pos _) ?_ fun hnum => ?_
  · rw [abs_mul, abs_toRat, abs_toRat, tenPow_add, Nat.cast_mul, Nat.cast_mul, div_mul_div_comm]
  · obtain ⟨ha, hb⟩ := Nat.mul_ne_zero_iff.1 hnum
    exact bne_negative_iff ha hb

/-- A quotient by a number other than zero is the exact one, rounded. -/
theorem map_toRat_div? (a : Decimal) {b : Decimal} (hb : b.toRat ≠ 0) :
    (a.div? b).map toRat = (nearest? (a.toRat / b.toRat)).map toRat := by
  have hmantissa : b.mantissa ≠ 0 := mt toRat_eq_zero_iff.2 hb
  refine map_toRat_round? (Nat.mul_pos (Nat.pos_of_ne_zero hmantissa) (tenPow_pos _)) ?_
    fun hnum => ?_
  · rw [abs_div, abs_toRat, abs_toRat, Nat.cast_mul, Nat.cast_mul, div_div_div_eq,
      mul_comm (b.mantissa : ℚ)]
  · obtain ⟨ha, -⟩ := Nat.mul_ne_zero_iff.1 hnum
    rw [bne_negative_iff ha hmantissa, mul_neg_iff, div_neg_iff]

/-! ## Numbers with the same values -/

section

variable {a a' b b' : Decimal} (ha : a.toRat = a'.toRat) (hb : b.toRat = b'.toRat)

include ha

/-- Numbers with the same value are shown alike. -/
theorem text_congr : a.text = a'.text := by
  rw [text, text, normalize_eq_iff.2 ha]

include hb

theorem equals_congr : a.equals b = a'.equals b' := by
  rw [Bool.eq_iff_iff, equals_iff, equals_iff, ha, hb]

theorem order_congr : a.order b = a'.order b' := by
  rw [order_eq, order_eq, ha, hb]

/-- A sum is formed from the normal forms, so it is the same number, not only of the same value. -/
theorem add?_congr : a.add? b = a'.add? b' := by
  simp only [add?, commonScale, normalize_eq_iff.2 ha, normalize_eq_iff.2 hb]

theorem sub?_congr : a.sub? b = a'.sub? b' := by
  simp only [sub?, commonScale, normalize_eq_iff.2 ha, normalize_eq_iff.2 hb]

theorem map_toRat_mul?_congr : (a.mul? b).map toRat = (a'.mul? b').map toRat := by
  rw [map_toRat_mul?, map_toRat_mul?, ha, hb]

theorem map_toRat_div?_congr (hne : b.toRat ≠ 0) :
    (a.div? b).map toRat = (a'.div? b').map toRat := by
  rw [map_toRat_div? a hne, map_toRat_div? a' (hb ▸ hne), ha, hb]

end

end Lox.Decimal
