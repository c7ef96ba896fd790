import Lox.Proofs.Decimal.Value
import Mathlib.Data.Rat.Floor
import Mathlib.Order.Bounds.Basic
import Mathlib.Tactic.Linarith
import Mathlib.Tactic.NormNum
import Mathlib.Tactic.Positivity

/-!
# Lox — rounding to the digits that fit

A product or a quotient is the exact rational, rounded at the largest scale at which the rounded
mantissa is in range. That it is the rounded mantissa, not the exact one, which has to be in range
matters at the ends of the ranges only, and there the coarser grid is seen to lie beyond whatever
the finer one holds.

* **`halfEven`** — rounding to an integer, said of rationals without reference to their terms.
* **`Decimal.IsRounding`** — rounding at the largest scale that fits.
* **`Decimal.nearest?_eq_none_iff`**, **`Decimal.isRounding_of_nearest?`** — what is computed is
  this rounding, and it fails only where not even the integer fits.
* **`Decimal.IsRounding.eq_of_toRat`**, **`Decimal.IsRounding.abs_sub_le`** — nothing is lost of
  what can be represented, and little of the rest.
* **`Decimal.IsRounding.le`** — rounding keeps the order.
-/

namespace Lox

/-! ## Rounding to integers -/

/-- The integer nearest to a rational; of two at the same distance, the even one. -/
def halfEven (y : ℚ) : ℤ :=
  if Int.fract y < 1 / 2 ∨ Int.fract y = 1 / 2 ∧ Even ⌊y⌋ then ⌊y⌋ else ⌊y⌋ + 1

/-- `m` is an integer nearest to `y`, and even if there is another one. -/
def IsHalfEven (y : ℚ) (m : ℤ) : Prop := |y - m| ≤ 1 / 2 ∧ (|y - m| = 1 / 2 → Even m)

theorem isHalfEven_halfEven (y : ℚ) : IsHalfEven y (halfEven y) := by
  have hfloor : y - ⌊y⌋ = Int.fract y := Int.self_sub_floor y
  have hnonneg : 0 ≤ Int.fract y := Int.fract_nonneg y
  have hlt : Int.fract y < 1 := Int.fract_lt_one y
  unfold halfEven IsHalfEven
  split
  · next h =>
    rw [hfloor, abs_of_nonneg hnonneg]
    rcases h with h | ⟨h, heven⟩
    · exact ⟨h.le, fun heq => absurd heq h.ne⟩
    · exact ⟨h.le, fun _ => heven⟩
  · next h =>
    have habs : |y - ((⌊y⌋ + 1 : ℤ) : ℚ)| = 1 - Int.fract y := by
      rw [Int.cast_add, Int.cast_one, ← sub_sub, hfloor, abs_sub_comm, abs_of_nonneg (by linarith)]
    rw [habs]
    obtain ⟨hle, hodd⟩ := not_or.1 h
    rw [not_lt] at hle
    refine ⟨by linarith, fun heq => ?_⟩
    -- in the middle, the lower neighbour is odd
    have hodd' : ¬ Even ⌊y⌋ := fun heven => hodd ⟨by linarith, heven⟩
    exact Int.even_add_one.2 hodd'

/-- Rounded numbers are in the order of the numbers. -/
theorem IsHalfEven.le {y z : ℚ} {m n : ℤ} (hm : IsHalfEven y m) (hn : IsHalfEven z n)
    (h : y ≤ z) : m ≤ n := by
  by_contra hlt
  have hstep : (n : ℚ) + 1 ≤ m := by exact_mod_cast Int.add_one_le_iff.2 (not_le.1 hlt)
  obtain ⟨-, hmy⟩ := abs_le.1 hm.1
  obtain ⟨hmy', -⟩ := abs_le.1 hm.1
  obtain ⟨-, hnz⟩ := abs_le.1 hn.1
  -- then both numbers are the middle between two neighbours, which are not both even
  have hy : y - m = -(1 / 2) := by linarith
  have hz : z - n = 1 / 2 := by linarith
  have hmn : m = n + 1 := by
    have hcast : (m : ℚ) = ((n + 1 : ℤ) : ℚ) := by
      push_cast
      linarith
    exact_mod_cast hcast
  have hevenm : Even m := hm.2 (by rw [hy, abs_neg, abs_of_pos (by norm_num)])
  have hevenn : Even n := hn.2 (by rw [hz, abs_of_pos (by norm_num)])
  rw [hmn, Int.even_add_one] at hevenm
  exact hevenm hevenn

theorem IsHalfEven.neg {y : ℚ} {m : ℤ} (h : IsHalfEven y m) : IsHalfEven (-y) (-m) := by
  have habs : |-y - ((-m : ℤ) : ℚ)| = |y - m| := by
    rw [Int.cast_neg, ← neg_sub', abs_neg]
  rw [IsHalfEven, habs, even_neg]
  exact h

/-- There is only one such integer. -/
theorem IsHalfEven.eq {y : ℚ} {m : ℤ} (h : IsHalfEven y m) : halfEven y = m :=
  le_antisymm ((isHalfEven_halfEven y).le h le_rfl) (h.le (isHalfEven_halfEven y) le_rfl)

theorem abs_sub_halfEven_le (y : ℚ) : |y - halfEven y| ≤ 1 / 2 := (isHalfEven_halfEven y).1

theorem halfEven_mono {y z : ℚ} (h : y ≤ z) : halfEven y ≤ halfEven z :=
  (isHalfEven_halfEven y).le (isHalfEven_halfEven z) h

@[simp] theorem halfEven_neg (y : ℚ) : halfEven (-y) = -halfEven y :=
  (isHalfEven_halfEven y).neg.eq

@[simp] theorem halfEven_intCast (n : ℤ) : halfEven n = n :=
  IsHalfEven.eq ⟨by rw [sub_self, abs_zero]; norm_num, fun h => by norm_num at h⟩

@[simp] theorem halfEven_zero : halfEven 0 = 0 := by
  simpa using halfEven_intCast 0

theorem halfEven_nonneg {y : ℚ} (h : 0 ≤ y) : 0 ≤ halfEven y := by
  simpa using halfEven_mono h

/-- Rounding looks at the magnitude. -/
theorem abs_halfEven (y : ℚ) : |halfEven y| = halfEven |y| := by
  rcases le_total 0 y with h | h
  · rw [abs_of_nonneg h, abs_of_nonneg (halfEven_nonneg h)]
  · have hneg : 0 ≤ halfEven (-y) := halfEven_nonneg (neg_nonneg.2 h)
    rw [abs_of_nonpos h, ← abs_neg, ← halfEven_neg, abs_of_nonneg hneg]

end Lox

namespace Lox.Decimal

/-- The integer that a fraction is rounded to is the one that its value is rounded to. -/
theorem roundHalfEven_eq_halfEven (num : Nat) {den : Nat} (hden : 0 < den) :
    (roundHalfEven num den : ℤ) = halfEven (num / den) := by
  have hden₀ : (0 : ℚ) < den := Nat.cast_pos.2 hden
  -- the remainder is the distance from the integer below
  have hsplit : (num : ℚ) / den = (num / den : ℕ) + (num % den : ℕ) / den := by
    have hnum : (num : ℚ) = den * (num / den : ℕ) + (num % den : ℕ) := by
      exact_mod_cast (Nat.div_add_mod num den).symm
    rw [hnum, add_div, mul_div_cancel_left₀ _ hden₀.ne']
  have hnonneg : (0 : ℚ) ≤ (num % den : ℕ) / den := by positivity
  have hlt : ((num % den : ℕ) : ℚ) / den < 1 := by
    rw [div_lt_one hden₀]
    exact_mod_cast Nat.mod_lt num hden
  have hhalf_lt : 1 / 2 < ((num % den : ℕ) : ℚ) / den ↔ den < 2 * (num % den) := by
    rw [div_lt_div_iff₀ two_pos hden₀]
    norm_cast
    omega
  have hhalf_eq : ((num % den : ℕ) : ℚ) / den = 1 / 2 ↔ 2 * (num % den) = den := by
    rw [div_eq_div_iff hden₀.ne' two_ne_zero]
    norm_cast
    omega
  refine (IsHalfEven.eq ?_).symm
  rw [hsplit]
  simp only [roundHalfEven, ← hhalf_lt, ← hhalf_eq]
  generalize ((num % den : ℕ) : ℚ) / den = f at hnonneg hlt
  generalize num / den = q
  unfold IsHalfEven
  split
  · next h =>
    have habs : |(q : ℚ) + f - ((q + 1 : ℕ) : ℤ)| = 1 - f := by
      push_cast
      rw [add_sub_add_left_eq_sub, abs_sub_comm, abs_of_nonneg (by linarith)]
    rw [habs]
    refine ⟨by rcases h with h | ⟨h, -⟩ <;> linarith, fun heq => ?_⟩
    have hodd : q % 2 = 1 := by
      rcases h with h | ⟨-, h⟩
      · linarith
      · exact h
    exact_mod_cast (Nat.odd_iff.2 hodd).add_one
  · next h =>
    obtain ⟨hle, hodd⟩ := not_or.1 h
    have habs : |(q : ℚ) + f - (q : ℤ)| = f := by
      rw [Int.cast_natCast, add_sub_cancel_left, abs_of_nonneg hnonneg]
    rw [habs]
    refine ⟨not_lt.1 hle, fun heq => ?_⟩
    have heven : q % 2 = 0 := by
      have hne : ¬ q % 2 = 1 := fun hq => hodd ⟨heq, hq⟩
      omega
    exact_mod_cast Nat.even_iff.2 heven

/-! ## Scales that fit -/

/-- Whether the mantissa of `x`, rounded at the scale `s`, is in range. -/
def Fits (x : ℚ) (s : Nat) : Prop := |halfEven (x * tenPow s)| ≤ maxMantissa

theorem abs_mul_tenPow (x : ℚ) (s : Nat) : |x * tenPow s| = |x| * tenPow s := by
  rw [abs_mul, Nat.abs_cast]

theorem tenPow_le_tenPow {s t : Nat} (h : s ≤ t) : tenPow s ≤ tenPow t :=
  Nat.pow_le_pow_right (by decide) h

/-- What fits, fits with fewer digits as well, and so does what is smaller. -/
theorem Fits.mono {x y : ℚ} {s t : Nat} (h : Fits y t) (hxy : |x| ≤ |y|) (hst : s ≤ t) :
    Fits x s := by
  have hpow : (tenPow s : ℚ) ≤ tenPow t := by exact_mod_cast tenPow_le_tenPow hst
  refine le_trans ?_ h
  rw [abs_halfEven, abs_halfEven, abs_mul_tenPow, abs_mul_tenPow]
  exact halfEven_mono (mul_le_mul hxy hpow (Nat.cast_nonneg _) (abs_nonneg y))

theorem fits_abs {x : ℚ} {s : Nat} : Fits |x| s ↔ Fits x s :=
  ⟨fun h => h.mono (abs_abs x).ge le_rfl, fun h => h.mono (abs_abs x).le le_rfl⟩

theorem fits_neg {x : ℚ} {s : Nat} : Fits (-x) s ↔ Fits x s := by
  rw [← fits_abs, abs_neg, fits_abs]

section

variable {negative : Bool} {num den : Nat} (hden : 0 < den)

include hden

theorem roundHalfEven_mul_tenPow (num t : Nat) :
    (roundHalfEven (num * tenPow t) den : ℤ) = halfEven (num / den * tenPow t) := by
  rw [roundHalfEven_eq_halfEven _ hden, Nat.cast_mul, mul_div_right_comm]

theorem roundHalfEven_le_iff_fits (num t : Nat) :
    roundHalfEven (num * tenPow t) den ≤ maxMantissa ↔ Fits (num / den) t := by
  rw [Fits, ← roundHalfEven_mul_tenPow hden, Nat.abs_cast, Nat.cast_le]

/-- At a scale that fits, the search for the scale ends. -/
theorem roundFrom?_of_fits (negative : Bool) {s : Nat} (hs : s ≤ maxScale)
    (h : Fits (num / den) s) :
    ∃ hm, roundFrom? negative num den s hs
      = some ⟨negative, roundHalfEven (num * tenPow s) den, s, hm, hs⟩ := by
  have hm := (roundHalfEven_le_iff_fits hden num s).2 h
  refine ⟨hm, ?_⟩
  cases s with
  | zero =>
    have hone : num * tenPow 0 = num := Nat.mul_one num
    simp only [hone] at hm ⊢
    rw [roundFrom?, dif_pos hm]
  | succ s => rw [roundFrom?, dif_pos hm]

theorem roundFrom?_zero_of_not_fits {hs : 0 ≤ maxScale} (h : ¬ Fits (num / den) 0) :
    roundFrom? negative num den 0 hs = none := by
  have hm : ¬ roundHalfEven num den ≤ maxMantissa := by
    have hone : num * tenPow 0 = num := Nat.mul_one num
    rwa [← hone, roundHalfEven_le_iff_fits hden]
  rw [roundFrom?, dif_neg hm]

theorem roundFrom?_succ_of_not_fits {s : Nat} {hs : s + 1 ≤ maxScale}
    (h : ¬ Fits (num / den) (s + 1)) :
    roundFrom? negative num den (s + 1) hs
      = roundFrom? negative num den s (Nat.le_of_succ_le hs) := by
  rw [roundFrom?, dif_neg (mt (roundHalfEven_le_iff_fits hden num (s + 1)).1 h)]

/-- Nothing is found only if not even the integer fits. -/
theorem roundFrom?_eq_none_iff {s : Nat} {hs : s ≤ maxScale} :
    roundFrom? negative num den s hs = none ↔ ¬ Fits (num / den) 0 := by
  induction s with
  | zero =>
    by_cases h : Fits (num / den) 0
    · obtain ⟨hm, heq⟩ := roundFrom?_of_fits hden negative hs h
      simp [heq, h]
    · simp [roundFrom?_zero_of_not_fits hden h, h]
  | succ s ih =>
    by_cases h : Fits (num / den) (s + 1)
    · obtain ⟨hm, heq⟩ := roundFrom?_of_fits hden negative hs h
      simp [heq, h.mono le_rfl (Nat.zero_le _)]
    · rw [roundFrom?_succ_of_not_fits hden h, ih]

/-- What is found is the fraction rounded at the largest scale that fits. -/
theorem of_roundFrom?_eq_some {n : Decimal} {s : Nat} {hs : s ≤ maxScale}
    (h : roundFrom? negative num den s hs = some n) :
    IsGreatest {t | t ≤ s ∧ Fits (num / den) t} n.scale ∧ n.negative = negative
      ∧ n.mantissa = roundHalfEven (num * tenPow n.scale) den := by
  have hfound : ∀ {s : Nat} {hs : s ≤ maxScale}, Fits (num / den) s →
      roundFrom? negative num den s hs = some n →
      IsGreatest {t | t ≤ s ∧ Fits (num / den) t} n.scale ∧ n.negative = negative
        ∧ n.mantissa = roundHalfEven (num * tenPow n.scale) den := by
    intro s hs hfits h
    obtain ⟨hm, heq⟩ := roundFrom?_of_fits hden negative hs hfits
    rw [heq] at h
    cases h
    exact ⟨⟨⟨le_rfl, hfits⟩, fun t ht => ht.1⟩, rfl, rfl⟩
  induction s with
  | zero =>
    by_cases hfits : Fits (num / den) 0
    · exact hfound hfits h
    · rw [roundFrom?_zero_of_not_fits hden hfits] at h
      cases h
  | succ s ih =>
    by_cases hfits : Fits (num / den) (s + 1)
    · exact hfound hfits h
    · rw [roundFrom?_succ_of_not_fits hden hfits] at h
      obtain ⟨⟨⟨hle, hfits'⟩, hgreatest⟩, hrest⟩ := ih h
      refine ⟨⟨⟨Nat.le_succ_of_le hle, hfits'⟩, fun t ht => ?_⟩, hrest⟩
      -- the scale just above was tried before
      rcases Nat.lt_or_eq_of_le ht.1 with hlt | rfl
      · exact hgreatest ⟨Nat.le_of_lt_succ hlt, ht.2⟩
      · exact absurd ht.2 hfits

end

/-! ## Rounding at the largest scale that fits -/

/-- `r` is `x`, rounded at the largest scale at which the rounded mantissa is in range. -/
def IsRounding (x r : ℚ) : Prop :=
  ∃ s, IsGreatest {t | t ≤ maxScale ∧ Fits x t} s ∧ r = halfEven (x * tenPow s) / tenPow s

theorem nearest?_eq_none_iff {x : ℚ} : nearest? x = none ↔ ¬ Fits x 0 := by
  rw [nearest?, round?, roundFrom?_eq_none_iff x.pos, ← abs_eq_num_div_den, fits_abs]

theorem isRounding_of_nearest? {x : ℚ} {n : Decimal} (h : nearest? x = some n) :
    IsRounding x n.toRat := by
  obtain ⟨hgreatest, hnegative, hmantissa⟩ := of_roundFrom?_eq_some x.pos h
  simp only [← abs_eq_num_div_den, fits_abs] at hgreatest
  refine ⟨n.scale, hgreatest, ?_⟩
  have hmantissa' : (n.mantissa : ℤ) = halfEven (|x| * tenPow n.scale) := by
    rw [hmantissa, roundHalfEven_mul_tenPow x.pos, abs_eq_num_div_den]
  have hcoefficient : n.coefficient = halfEven (x * tenPow n.scale) := by
    rw [coefficient, hnegative, hmantissa']
    by_cases hx : x < 0
    · rw [if_pos (decide_eq_true hx), abs_of_neg hx, neg_mul, halfEven_neg, neg_neg]
    · rw [if_neg (by simpa using hx), abs_of_nonneg (not_lt.1 hx)]
  rw [toRat, hcoefficient]

theorem fits_zero_iff {x : ℚ} : Fits x 0 ↔ |halfEven x| ≤ maxMantissa := by
  have hone : x * (tenPow 0 : ℕ) = x := by rw [tenPow, Nat.pow_eq, pow_zero, Nat.cast_one, mul_one]
  rw [Fits, hone]

/-! ## What is lost by rounding -/

/-- The mantissa of a number is in range at its scale, and rounding leaves it as it is. -/
theorem toRat_mul_tenPow (d : Decimal) : d.toRat * tenPow d.scale = d.coefficient :=
  div_mul_cancel₀ _ (tenPow_ne_zero _)

theorem fits_toRat (d : Decimal) : Fits d.toRat d.scale := by
  rw [Fits, toRat_mul_tenPow, halfEven_intCast, Int.abs_eq_natAbs, natAbs_coefficient]
  exact_mod_cast d.mantissa_le

/-- What can be represented is not changed by rounding. -/
theorem IsRounding.eq_of_toRat {d : Decimal} {r : ℚ} (h : IsRounding d.toRat r) : r = d.toRat := by
  obtain ⟨s, ⟨-, hgreatest⟩, rfl⟩ := h
  -- the scale is at least that of the number, so it leaves an integer to be rounded
  obtain ⟨k, rfl⟩ := Nat.exists_eq_add_of_le (hgreatest ⟨d.scale_le, d.fits_toRat⟩)
  have hinteger : d.toRat * tenPow (d.scale + k) = ((d.coefficient * tenPow k : ℤ) : ℚ) := by
    rw [tenPow_add, Nat.cast_mul, ← mul_assoc, toRat_mul_tenPow]
    push_cast
    rfl
  rw [hinteger, halfEven_intCast, ← hinteger, mul_div_cancel_right₀ _ (tenPow_ne_zero _)]

/-- Where the rounded mantissa is out of range, the exact one is at most by a half in it. -/
theorem le_of_not_fits {x : ℚ} {s : Nat} (h : ¬ Fits x s) :
    (maxMantissa : ℚ) + 1 / 2 ≤ |x| * tenPow s := by
  rw [Fits, abs_halfEven, abs_mul_tenPow, not_le, ← Int.add_one_le_iff] at h
  have hcast : (maxMantissa : ℚ) + 1 ≤ halfEven (|x| * tenPow s) := by exact_mod_cast h
  obtain ⟨hle, -⟩ := abs_le.1 (abs_sub_halfEven_le (|x| * tenPow s))
  linarith

/-- Rounding at a scale changes a number by half a unit in the last digit at most. -/
theorem abs_halfEven_div_sub_le (x : ℚ) (s : Nat) :
    |halfEven (x * tenPow s) / tenPow s - x| ≤ 1 / 2 / tenPow s := by
  have hpow : (0 : ℚ) < tenPow s := Nat.cast_pos.2 (tenPow_pos s)
  have hdiff : halfEven (x * tenPow s) / tenPow s - x
      = (halfEven (x * tenPow s) - x * tenPow s) / tenPow s := by
    rw [sub_div, mul_div_cancel_right₀ _ hpow.ne']
  rw [hdiff, abs_div, abs_of_pos hpow, abs_sub_comm]
  exact div_le_div_of_nonneg_right (abs_sub_halfEven_le _) hpow.le

/-- **Rounding changes a number by half a unit in the last of 28 digits after the point, or by a
unit in its 28th digit, at most.** -/
theorem IsRounding.abs_sub_le {x r : ℚ} (h : IsRounding x r) :
    |r - x| ≤ max (1 / 10 ^ 28 / 2) (|x| * (1 / 10 ^ 28)) := by
  obtain ⟨s, ⟨⟨hs, -⟩, hgreatest⟩, rfl⟩ := h
  have hpow : (0 : ℚ) < tenPow s := Nat.cast_pos.2 (tenPow_pos s)
  refine (abs_halfEven_div_sub_le x s).trans ?_
  rcases Nat.lt_or_eq_of_le hs with hlt | rfl
  · -- one more digit did not fit, so there are 28 of them already
    have hnot : ¬ Fits x (s + 1) := fun hfits =>
      absurd (hgreatest ⟨hlt, hfits⟩) (Nat.not_succ_le_self s)
    have hmany := le_of_not_fits hnot
    rw [tenPow_succ, Nat.cast_mul, ← mul_assoc] at hmany
    refine le_max_of_le_right ((div_le_iff₀ hpow).2 ?_)
    norm_num [maxMantissa] at hmany ⊢
    linarith
  · refine le_max_of_le_left (le_of_eq ?_)
    norm_num [maxScale, tenPow]

/-- What can be represented does not overflow. -/
theorem fits_zero_toRat (d : Decimal) : Fits d.toRat 0 := d.fits_toRat.mono le_rfl (Nat.zero_le _)

/-! ## Order -/

theorem IsRounding.neg {x r : ℚ} (h : IsRounding x r) : IsRounding (-x) (-r) := by
  obtain ⟨s, hgreatest, rfl⟩ := h
  refine ⟨s, ?_, ?_⟩
  · simpa only [fits_neg] using hgreatest
  · rw [neg_mul, halfEven_neg, Int.cast_neg, neg_div]

theorem IsRounding.nonneg {x r : ℚ} (h : IsRounding x r) (hx : 0 ≤ x) : 0 ≤ r := by
  obtain ⟨s, -, rfl⟩ := h
  have hround : 0 ≤ halfEven (x * tenPow s) := halfEven_nonneg (mul_nonneg hx (Nat.cast_nonneg _))
  exact div_nonneg (Int.cast_nonneg hround) (Nat.cast_nonneg _)

/-- Where a digit more does not fit, the rounded number is beyond all numbers with that digit. The
last digit of the largest mantissa is a 5, so what exceeds it is rounded up on the coarser grid. -/
theorem maxMantissa_le_of_not_fits {y : ℚ} {t : Nat} (hy : 0 ≤ y) (h : ¬ Fits y (t + 1)) :
    (maxMantissa : ℤ) ≤ halfEven (y * tenPow t) * 10 := by
  have hmany := le_of_not_fits h
  rw [abs_of_nonneg hy, tenPow_succ, Nat.cast_mul, ← mul_assoc] at hmany
  obtain ⟨-, hle⟩ := abs_le.1 (abs_sub_halfEven_le (y * tenPow t))
  have hcast : ((7922816251426433759354395033 : ℤ) : ℚ) < halfEven (y * tenPow t) := by
    norm_num [maxMantissa] at hmany ⊢
    linarith
  have hlt := Int.cast_lt.1 hcast
  simp only [maxMantissa]
  omega

theorem IsRounding.le_of_nonneg {x y r q : ℚ} (hr : IsRounding x r) (hq : IsRounding y q)
    (hx : 0 ≤ x) (hxy : x ≤ y) : r ≤ q := by
  obtain ⟨s, ⟨⟨hs, hfits⟩, hgreatest⟩, rfl⟩ := hr
  obtain ⟨t, ⟨⟨ht, hfits'⟩, hgreatest'⟩, rfl⟩ := hq
  have habs : |x| ≤ |y| := abs_le_abs_of_nonneg hx hxy
  -- the larger number has at most as many digits after the point
  have hts : t ≤ s := hgreatest ⟨ht, hfits'.mono habs le_rfl⟩
  rcases Nat.lt_or_eq_of_le hts with hlt | rfl
  · have hnot : ¬ Fits y (t + 1) := fun h =>
      absurd (hgreatest' ⟨hlt.trans_le hs, h⟩) (Nat.not_succ_le_self t)
    have hbeyond := maxMantissa_le_of_not_fits (hx.trans hxy) hnot
    have hpow : (tenPow (t + 1) : ℚ) ≤ tenPow s := by exact_mod_cast tenPow_le_tenPow hlt
    have hpos : (0 : ℚ) < tenPow (t + 1) := Nat.cast_pos.2 (tenPow_pos _)
    calc (halfEven (x * tenPow s) : ℚ) / tenPow s
        ≤ maxMantissa / tenPow s := by
          refine div_le_div_of_nonneg_right ?_ (Nat.cast_nonneg _)
          exact_mod_cast (le_abs_self _).trans hfits
      _ ≤ maxMantissa / tenPow (t + 1) := div_le_div_of_nonneg_left (Nat.cast_nonneg _) hpos hpow
      _ ≤ (halfEven (y * tenPow t) * 10 : ℤ) / tenPow (t + 1) := by
          refine div_le_div_of_nonneg_right ?_ hpos.le
          exact_mod_cast hbeyond
      _ = halfEven (y * tenPow t) / tenPow t := by
          rw [tenPow_succ, Int.cast_mul, Nat.cast_mul]
          exact mul_div_mul_right _ _ (by norm_num)
  · exact div_le_div_of_nonneg_right
      (Int.cast_le.2 (halfEven_mono (mul_le_mul_of_nonneg_right hxy (Nat.cast_nonneg _))))
      (Nat.cast_nonneg _)

/-- **Rounding keeps the order**, though the larger number may be rounded on a coarser grid. -/
theorem IsRounding.le {x y r q : ℚ} (hr : IsRounding x r) (hq : IsRounding y q) (hxy : x ≤ y) :
    r ≤ q := by
  rcases le_total 0 x with hx | hx
  · exact hr.le_of_nonneg hq hx hxy
  · rcases le_total 0 y with hy | hy
    · have hr' : 0 ≤ -r := hr.neg.nonneg (neg_nonneg.2 hx)
      exact (neg_nonneg.1 hr').trans (hq.nonneg hy)
    · exact neg_le_neg_iff.1 (hq.neg.le_of_nonneg hr.neg (neg_nonneg.2 hy) (neg_le_neg hxy))

/-! ## Products and quotients -/

section

variable {r : Option Decimal} {x : ℚ} (h : r.map toRat = (nearest? x).map toRat)

include h

theorem eq_none_iff_of_map_toRat : r = none ↔ ¬ Fits x 0 := by
  rw [← nearest?_eq_none_iff, ← Option.map_eq_none_iff, h, Option.map_eq_none_iff]

theorem isRounding_of_map_toRat {n : Decimal} (hn : r = some n) : IsRounding x n.toRat := by
  rw [hn, Option.map_some, eq_comm, Option.map_eq_some_iff] at h
  obtain ⟨m, hm, hmn⟩ := h
  rw [← hmn]
  exact isRounding_of_nearest? hm

end

variable {a b : Decimal}

/-- There is a product unless its integer part is out of range. -/
theorem mul?_eq_none_iff : a.mul? b = none ↔ ¬ Fits (a.toRat * b.toRat) 0 :=
  eq_none_iff_of_map_toRat (map_toRat_mul? a b)

theorem isRounding_of_mul? {n : Decimal} (h : a.mul? b = some n) :
    IsRounding (a.toRat * b.toRat) n.toRat :=
  isRounding_of_map_toRat (map_toRat_mul? a b) h

theorem div?_eq_none_iff (hb : b.toRat ≠ 0) : a.div? b = none ↔ ¬ Fits (a.toRat / b.toRat) 0 :=
  eq_none_iff_of_map_toRat (map_toRat_div? a hb)

theorem isRounding_of_div? (hb : b.toRat ≠ 0) {n : Decimal} (h : a.div? b = some n) :
    IsRounding (a.toRat / b.toRat) n.toRat :=
  isRounding_of_map_toRat (map_toRat_div? a hb) h

end Lox.Decimal
