import Lox.Proofs.Decimal.Rounding

/-!
# Lox — exact sums

A sum or a difference is formed at the scale that holds all digits of both operands. At that scale
it is exact, and there is none if its coefficient is out of range there.

* **`Decimal.scale_normalize_le_iff`** — the normal scale is the least that holds all digits.
* **`Decimal.add?_eq_none_iff`**, **`Decimal.toRat_of_add?`** — when there is a sum, and its value.
* **`Decimal.add?_eq_exactly?`**, **`Decimal.sub?_eq_exactly?`** — where numbers are added with
  rounding, the scale of the result tells whether it was rounded.
-/

namespace Lox.Decimal

/-! ## The common scale -/

/-- With as many fractional digits as it has, or more, a number is an integer. -/
theorem coefficientAt_eq {a : Decimal} {s : Nat} (h : a.scale ≤ s) :
    (a.coefficientAt s : ℚ) = a.toRat * tenPow s := by
  obtain ⟨k, rfl⟩ := Nat.exists_eq_add_of_le h
  rw [coefficientAt, Nat.add_sub_cancel_left, tenPow_add, toRat, Int.cast_mul, Int.cast_natCast,
    Nat.cast_mul, ← mul_assoc, div_mul_cancel₀ _ (tenPow_ne_zero _)]

/-- The normal scale is the least number of fractional digits that hold the value. -/
theorem scale_normalize_le_iff {a : Decimal} {n : Nat} :
    a.normalize.scale ≤ n ↔ ∃ m : ℤ, a.toRat * tenPow n = m := by
  constructor
  · intro h
    exact ⟨a.normalize.coefficientAt n, by rw [coefficientAt_eq h, toRat_normalize]⟩
  · rintro ⟨m, hm⟩
    -- the digits of `m` and those of the normal form, without zeros at the end, are the same
    have hm' : (m.natAbs : ℚ) / tenPow n = |a.toRat| := by
      rw [Nat.cast_natAbs, Int.cast_abs, ← hm, abs_mul, Nat.abs_cast,
        mul_div_cancel_right₀ _ (tenPow_ne_zero n)]
    have hnormal : (a.normalize.mantissa : ℚ) / tenPow a.normalize.scale = |a.toRat| := by
      rw [← abs_toRat, toRat_normalize]
    obtain ⟨-, hscale⟩ := (trimmed_trim a.mantissa a.scale).unique (trimmed_trim m.natAbs n)
      (by rw [trim_div m.natAbs n, hm', ← hnormal]; rfl)
    calc a.normalize.scale = (trim m.natAbs n).2 := hscale
      _ ≤ n := trim_snd_le _ _

theorem commonScale_le (a b : Decimal) : commonScale a b ≤ maxScale :=
  max_le a.normalize.scale_le b.normalize.scale_le

theorem commonScale_comm (a b : Decimal) : commonScale a b = commonScale b a := max_comm _ _

theorem commonScale_neg (a b : Decimal) : commonScale a b.neg = commonScale a b := rfl

theorem commonScale_of_toRat_eq_zero (a : Decimal) {b : Decimal} (h : b.toRat = 0) :
    commonScale a b = a.normalize.scale := by
  have hscale : b.normalize.scale ≤ 0 := scale_normalize_le_iff.2 ⟨0, by rw [h]; simp⟩
  exact max_eq_left (hscale.trans (Nat.zero_le _))

theorem coefficientAt_normalize {a : Decimal} {s : Nat} (h : a.normalize.scale ≤ s) :
    (a.normalize.coefficientAt s : ℚ) = a.toRat * tenPow s := by
  rw [coefficientAt_eq h, toRat_normalize]

/-- The coefficient of a sum, over the common scale. -/
theorem cast_coefficientAt_add (a b : Decimal) :
    ((a.normalize.coefficientAt (commonScale a b) + b.normalize.coefficientAt (commonScale a b) : ℤ)
      : ℚ) = (a.toRat + b.toRat) * tenPow (commonScale a b) := by
  have ha : a.normalize.scale ≤ commonScale a b := le_max_left _ _
  have hb : b.normalize.scale ≤ commonScale a b := le_max_right _ _
  rw [Int.cast_add, coefficientAt_normalize ha, coefficientAt_normalize hb, add_mul]

theorem coefficientAt_neg (a : Decimal) (s : Nat) :
    a.neg.normalize.coefficientAt s = -a.normalize.coefficientAt s := by
  have hcoefficient : a.neg.normalize.coefficient = -a.normalize.coefficient := by
    have hrat := toRat_neg a
    rw [← toRat_normalize, ← toRat_normalize a, toRat, toRat, ← neg_div] at hrat
    have hcast := (div_left_inj' (tenPow_ne_zero _)).1 hrat
    exact_mod_cast hcast
  rw [coefficientAt, hcoefficient, Int.neg_mul]
  rfl

/-! ## Sums -/

variable {a b : Decimal}

theorem ofCoefficient?_eq_none_iff {c : ℤ} {s : Nat} (hs : s ≤ maxScale) :
    ofCoefficient? c s = none ↔ maxMantissa < c.natAbs := by
  simp [ofCoefficient?, hs]

theorem of_ofCoefficient? {c : ℤ} {s : Nat} {n : Decimal} (h : ofCoefficient? c s = some n) :
    n.coefficient = c ∧ n.scale = s := by
  unfold ofCoefficient? at h
  split at h
  · cases h
    refine ⟨?_, rfl⟩
    show (if decide (c < 0) = true then -(c.natAbs : ℤ) else c.natAbs) = c
    by_cases hc : c < 0
    · rw [if_pos (decide_eq_true hc)]
      omega
    · rw [if_neg (by simpa using hc)]
      omega
  · cases h

/-- There is a sum unless it needs too many digits at the common scale. -/
theorem add?_eq_none_iff :
    a.add? b = none ↔ (maxMantissa : ℚ) < |a.toRat + b.toRat| * tenPow (commonScale a b) := by
  rw [add?, ofCoefficient?_eq_none_iff (commonScale_le a b), ← Nat.abs_cast (tenPow _), ← abs_mul,
    ← cast_coefficientAt_add, ← Int.cast_abs, ← Nat.cast_lt (α := ℚ), Nat.cast_natAbs]

/-- The sum is exact. -/
theorem toRat_of_add? {n : Decimal} (h : a.add? b = some n) : n.toRat = a.toRat + b.toRat := by
  obtain ⟨hcoefficient, hscale⟩ := of_ofCoefficient? h
  rw [toRat, hcoefficient, hscale, cast_coefficientAt_add,
    mul_div_cancel_right₀ _ (tenPow_ne_zero _)]

theorem add?_comm (a b : Decimal) : a.add? b = b.add? a := by
  simp only [add?, commonScale_comm b a, Int.add_comm]

/-- A difference is the sum with the opposite. -/
theorem sub?_eq_add?_neg (a b : Decimal) : a.sub? b = a.add? b.neg := by
  simp only [add?, commonScale_neg, coefficientAt_neg, ← Int.sub_eq_add_neg]
  rfl

theorem toRat_of_sub? {n : Decimal} (h : a.sub? b = some n) : n.toRat = a.toRat - b.toRat := by
  rw [sub?_eq_add?_neg] at h
  rw [toRat_of_add? h, toRat_neg, sub_eq_add_neg]

theorem sub?_eq_none_iff :
    a.sub? b = none ↔ (maxMantissa : ℚ) < |a.toRat - b.toRat| * tenPow (commonScale a b) := by
  rw [sub?_eq_add?_neg, add?_eq_none_iff, toRat_neg, ← sub_eq_add_neg, commonScale_neg]

/-- The operands exchanged, a difference is the opposite. -/
theorem map_toRat_sub?_swap (a b : Decimal) :
    (a.sub? b).map toRat = ((b.sub? a).map neg).map toRat := by
  have hnone : a.sub? b = none ↔ b.sub? a = none := by
    rw [sub?_eq_none_iff, sub?_eq_none_iff, abs_sub_comm, commonScale_comm]
  cases hab : a.sub? b with
  | none => rw [hnone.1 hab]; rfl
  | some m =>
    cases hba : b.sub? a with
    | none => rw [hnone.2 hba] at hab; cases hab
    | some n =>
      simp only [Option.map_some, toRat_neg, toRat_of_sub? hab, toRat_of_sub? hba, neg_sub]

/-! ## Sums formed with rounding

A library of decimal numbers gives a sum that does not fit at the scale of its operands with fewer
digits after the point. Whether that happened can be told from the scale of the result. -/

/-- The number `coefficient / 10 ^ scale`, rounded at a smaller scale if it does not fit. -/
def rounded? (coefficient : Int) (scale : Nat) (h : scale ≤ maxScale) : Option Decimal :=
  roundFrom? (decide (coefficient < 0)) coefficient.natAbs (tenPow scale) scale h

/-- The sum at the larger of the two scales, rounded if it does not fit there. -/
def roundedAdd? (a b : Decimal) : Option Decimal :=
  let scale := max a.scale b.scale
  rounded? (a.coefficientAt scale + b.coefficientAt scale) scale (max_le a.scale_le b.scale_le)

/-- The difference at the larger of the two scales, rounded if it does not fit there. -/
def roundedSub? (a b : Decimal) : Option Decimal :=
  let scale := max a.scale b.scale
  rounded? (a.coefficientAt scale - b.coefficientAt scale) scale (max_le a.scale_le b.scale_le)

/-- The result of an operation on the normal forms, unless its scale shows that it was rounded. -/
def exactly? (op : Decimal → Decimal → Option Decimal) (a b : Decimal) : Option Decimal :=
  (op a.normalize b.normalize).filter
    fun n => decide (max a.normalize.scale b.normalize.scale ≤ n.scale)

/-- What was not rounded is the number itself. -/
theorem filter_rounded? (c : Int) (s : Nat) (hs : s ≤ maxScale) :
    (rounded? c s hs).filter (fun n => decide (s ≤ n.scale)) = ofCoefficient? c s := by
  have hpos : 0 < tenPow s := tenPow_pos s
  have hself : roundHalfEven (c.natAbs * tenPow s) (tenPow s) = c.natAbs := by
    have hone := roundHalfEven_mul_right c.natAbs 1 hpos
    rw [Nat.one_mul] at hone
    rw [hone]
    simp [roundHalfEven, Nat.mod_one]
  have hfits : Fits ((c.natAbs : ℚ) / tenPow s) s ↔ c.natAbs ≤ maxMantissa := by
    rw [← roundHalfEven_le_iff_fits hpos, hself]
  unfold rounded?
  by_cases hc : c.natAbs ≤ maxMantissa
  · obtain ⟨hm, hsome⟩ := roundFrom?_of_fits hpos (decide (c < 0)) hs (hfits.2 hc)
    rw [hsome, ofCoefficient?, dif_pos ⟨hc, hs⟩, Option.filter_some, if_pos (by simp)]
    simp only [hself]
  · rw [ofCoefficient?, dif_neg fun h => hc h.1, Option.filter_eq_none_iff]
    intro n hn hscale
    -- at a scale that is not smaller, the number would fit
    obtain ⟨⟨⟨hle, hfits'⟩, -⟩, -⟩ := of_roundFrom?_eq_some hpos hn
    rw [Nat.le_antisymm hle (of_decide_eq_true hscale)] at hfits'
    exact hc (hfits.1 hfits')

theorem add?_eq_exactly? (a b : Decimal) : a.add? b = exactly? roundedAdd? a b :=
  (filter_rounded? _ _ _).symm

theorem sub?_eq_exactly? (a b : Decimal) : a.sub? b = exactly? roundedSub? a b :=
  (filter_rounded? _ _ _).symm

end Lox.Decimal
