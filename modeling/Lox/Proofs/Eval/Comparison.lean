import Lox.Proofs.Eval.Arithmetic

/-!
# Lox — what the comparisons evaluate to

Numbers are compared as the rationals that they stand for, whatever their scales and signs, also
where their difference is out of range. Equality is an equivalence on all values.

* **`ComparesExactly`** — the six comparisons, said of rationals.
* **`comparison_law`** — the order of numbers, their difference, and equality of values.
-/

namespace Lox

open Decimal

/-! ## Order -/

/-- Each comparison of `a` with `b` evaluates, and to what is true of the rationals `x` and `y`. -/
structure ComparesExactly (a b : Decimal) (x y : ℚ) : Prop where
  less : BinaryOp.less.apply (.number a) (.number b) = .ok (.bool (decide (x < y)))
  lessEqual : BinaryOp.lessEqual.apply (.number a) (.number b) = .ok (.bool (decide (x ≤ y)))
  greater : BinaryOp.greater.apply (.number a) (.number b) = .ok (.bool (decide (y < x)))
  greaterEqual : BinaryOp.greaterEqual.apply (.number a) (.number b) = .ok (.bool (decide (y ≤ x)))
  equal : BinaryOp.equal.apply (.number a) (.number b) = .ok (.bool (decide (x = y)))
  notEqual : BinaryOp.notEqual.apply (.number a) (.number b) = .ok (.bool (decide (x ≠ y)))

theorem comparesExactly (a b : Decimal) : ComparesExactly a b a.toRat b.toRat := by
  have hequals : a.equals b = decide (a.toRat = b.toRat) := by
    rw [Bool.eq_iff_iff, equals_iff, decide_eq_true_iff]
  refine ⟨?less, ?lessEqual, ?greater, ?greaterEqual, ?equal, ?notEqual⟩
  case equal => simp only [BinaryOp.apply, BinaryOp.applyNumbers, hequals]
  case notEqual => simp only [BinaryOp.apply, BinaryOp.applyNumbers, hequals, decide_not]
  -- the others look at the order of the two rationals only
  all_goals
    simp only [BinaryOp.apply, BinaryOp.applyNumbers, order_eq]
    congr 2
    rw [Bool.eq_iff_iff, decide_eq_true_iff]
  case less => rw [Ordering.isLT_iff_eq_lt, compare_lt_iff_lt]
  case lessEqual => exact Ordering.ne_gt_iff_isLE.symm.trans compare_le_iff_le
  case greater => rw [Ordering.isGT_iff_eq_gt, compare_gt_iff_gt]
  case greaterEqual => exact Ordering.ne_lt_iff_isGE.symm.trans compare_ge_iff_ge

section

variable {a b z : Decimal}

/-- One and only one of the three relations is true. -/
theorem existsUnique_relation (a b : Decimal) :
    ∃! op, op ∈ [BinaryOp.less, .equal, .greater]
      ∧ op.apply (.number a) (.number b) = .ok (.bool true) := by
  have h := comparesExactly a b
  have hless : BinaryOp.less.apply (.number a) (.number b) = .ok (.bool true)
      ↔ a.toRat < b.toRat := by simp [h.less]
  have hequal : BinaryOp.equal.apply (.number a) (.number b) = .ok (.bool true)
      ↔ a.toRat = b.toRat := by simp [h.equal]
  have hgreater : BinaryOp.greater.apply (.number a) (.number b) = .ok (.bool true)
      ↔ b.toRat < a.toRat := by simp [h.greater]
  simp only [ExistsUnique, List.mem_cons, List.not_mem_nil, or_false]
  rcases lt_trichotomy a.toRat b.toRat with hlt | heq | hgt
  · refine ⟨.less, ⟨.inl rfl, hless.2 hlt⟩, ?_⟩
    rintro op ⟨rfl | rfl | rfl, htrue⟩
    · rfl
    · exact absurd (hequal.1 htrue) hlt.ne
    · exact absurd (hgreater.1 htrue) hlt.not_gt
  · refine ⟨.equal, ⟨.inr (.inl rfl), hequal.2 heq⟩, ?_⟩
    rintro op ⟨rfl | rfl | rfl, htrue⟩
    · exact absurd (hless.1 htrue) heq.not_lt
    · rfl
    · exact absurd (hgreater.1 htrue) heq.not_gt
  · refine ⟨.greater, ⟨.inr (.inr rfl), hgreater.2 hgt⟩, ?_⟩
    rintro op ⟨rfl | rfl | rfl, htrue⟩
    · exact absurd (hless.1 htrue) hgt.not_gt
    · exact absurd (hequal.1 htrue) hgt.ne'
    · rfl

/-- The sign of the difference is the order of the operands. -/
theorem difference_compares {v : Value}
    (h : BinaryOp.subtract.apply (.number b) (.number a) = .ok v) (hz : z.isZero = true) :
    BinaryOp.less.apply (.number a) (.number b) = BinaryOp.greater.apply v (.number z)
      ∧ BinaryOp.equal.apply (.number a) (.number b) = BinaryOp.equal.apply v (.number z) := by
  obtain ⟨d, hd, rfl⟩ := Value.ofResult?_eq_ok_iff.1 h
  have hvalue : d.toRat = b.toRat - a.toRat := toRat_of_sub? hd
  have hzero : z.toRat = 0 := isZero_iff.1 hz
  have hab := comparesExactly a b
  have hdz := comparesExactly d z
  constructor
  · rw [hab.less, hdz.greater, hvalue, hzero]
    simp only [sub_pos]
  · rw [hab.equal, hdz.equal, hvalue, hzero]
    simp only [sub_eq_zero, eq_comm (a := a.toRat)]

end

/-! ## Equality -/

/-- The sorts of values. -/
inductive Value.Kind where
  | number
  | string
  | bool
  | nil
deriving DecidableEq

/-- The sort of a value. -/
def Value.kind : Value → Value.Kind
  | .number _ => .number
  | .string _ => .string
  | .bool _ => .bool
  | .nil => .nil

theorem Value.Same.kind_eq {v w : Value} (h : v.Same w) : v.kind = w.kind := by
  rcases same_iff.1 h with rfl | ⟨a, b, rfl, rfl, -⟩ <;> rfl

/-- **Comparison is the exact numeric order, and equality is an equivalence.** All six comparisons of
two numbers evaluate to what is true of the rationals, so that one of less, equal and greater holds.
The difference of the two numbers has the sign that belongs to it, unless it overflows. Equality and
inequality of any two values evaluate, inequality to the opposite of equality, and values of
different sorts are not equal. -/
theorem comparison_law :
    (∀ a b : Decimal,
      ComparesExactly a b a.toRat b.toRat
      ∧ (∃! op, op ∈ [BinaryOp.less, .equal, .greater]
          ∧ op.apply (.number a) (.number b) = .ok (.bool true))
      ∧ (BinaryOp.subtract.apply (.number b) (.number a) ≠ .error .overflow →
          ∃ d : Decimal, BinaryOp.subtract.apply (.number b) (.number a) = .ok (.number d)
            ∧ ∀ z : Decimal, z.isZero = true →
              BinaryOp.less.apply (.number a) (.number b)
                  = BinaryOp.greater.apply (.number d) (.number z)
              ∧ BinaryOp.equal.apply (.number a) (.number b)
                  = BinaryOp.equal.apply (.number d) (.number z)))
    ∧ (∀ v w : Value, ∃ t : Bool, BinaryOp.equal.apply v w = .ok (.bool t)
        ∧ BinaryOp.notEqual.apply v w = .ok (.bool !t) ∧ (v.kind ≠ w.kind → t = false))
    ∧ Equivalence fun v w : Value => BinaryOp.equal.apply v w = .ok (.bool true) := by
  refine ⟨fun a b => ⟨comparesExactly a b, existsUnique_relation a b, fun hne => ?_⟩, ?_, ?_⟩
  · obtain ⟨d, hd, -⟩ := (isExact_subtract b a).exact_of_ne hne
    exact ⟨d, hd, fun z hz => difference_compares hd hz⟩
  · intro v w
    obtain ⟨hequal, hnotEqual⟩ := BinaryOp.apply_equal v w
    refine ⟨v.equals w, hequal, hnotEqual, fun hkind => ?_⟩
    exact Bool.eq_false_iff.2 fun h => hkind (Value.Same.kind_eq h)
  · have hsame : (fun v w : Value => BinaryOp.equal.apply v w = .ok (.bool true)) = Value.Same := by
      funext v w
      rw [(BinaryOp.apply_equal v w).1, Value.Same, Except.ok.injEq, Value.bool.injEq]
    rw [hsame]
    exact Value.same_equivalence

theorem comparison_law_roundedThird :
    BinaryOp.subtract.apply (.number roundedThird) (.number three) ≠ .error .overflow
    ∧ signedZero.isZero = true
    ∧ (∃ d : Decimal,
        BinaryOp.subtract.apply (.number roundedThird) (.number three) = .ok (.number d)
        ∧ BinaryOp.less.apply (.number three) (.number roundedThird)
          = BinaryOp.greater.apply (.number d) (.number signedZero))
    ∧ (Value.string "3").kind ≠ (Value.number three).kind
    ∧ BinaryOp.equal.apply (.string "3") (.number three) = .ok (.bool false) := by
  have hfits : BinaryOp.subtract.apply (.number roundedThird) (.number three)
      ≠ .error .overflow := by decide +kernel
  have hzero : signedZero.isZero = true := rfl
  have hkind : (Value.string "3").kind ≠ (Value.number three).kind := by decide
  obtain ⟨hnumbers, hvalues, -⟩ := comparison_law
  obtain ⟨-, -, hdifference⟩ := hnumbers three roundedThird
  obtain ⟨d, hd, hcompares⟩ := hdifference hfits
  obtain ⟨t, hequal, -, hfalse⟩ := hvalues (.string "3") (.number three)
  rw [hfalse hkind] at hequal
  exact ⟨hfits, hzero, ⟨d, hd, (hcompares signedZero hzero).1⟩, hkind, hequal⟩

end Lox
