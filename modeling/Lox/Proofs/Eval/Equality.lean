import Lox.Eval.Operation
import Lox.Proofs.Decimal.Value

/-!
# Lox — operations on equal values

Equal values are shown alike, count alike as conditions, and every operator makes equal values or
the same failure of them.

* **`Value.Same`** — equality as the language decides it, an equivalence (`Value.same_equivalence`).
* **`BothEnd`** — two results that are both values or both errors.
* **`Value.Same.display_eq`**, **`Value.Same.truthy_eq`** — what is seen of a value.
* **`UnaryOp.apply_same`**, **`BinaryOp.apply_same`** — the operators.
-/

namespace Lox

/-! ## Equal values -/

namespace Value

/-- The values are equal for the language. -/
def Same (v w : Value) : Prop := v.equals w = true

/-- Equal values are numbers of the same value, or they are the same. -/
theorem same_iff {v w : Value} :
    v.Same w ↔ v = w ∨ ∃ a b, v = .number a ∧ w = .number b ∧ a.toRat = b.toRat := by
  cases v <;> cases w <;> simp [Same, equals, Decimal.equals_iff]
  rintro rfl
  rfl

theorem same_number_iff {a b : Decimal} : (number a).Same (number b) ↔ a.toRat = b.toRat :=
  Decimal.equals_iff

theorem Same.refl (v : Value) : v.Same v := same_iff.2 (.inl rfl)

theorem Same.symm {v w : Value} (h : v.Same w) : w.Same v := by
  rcases same_iff.1 h with rfl | ⟨a, b, rfl, rfl, hab⟩
  · exact .refl v
  · exact same_number_iff.2 hab.symm

theorem Same.trans {u v w : Value} (h : u.Same v) (h' : v.Same w) : u.Same w := by
  rcases same_iff.1 h with rfl | ⟨a, b, rfl, rfl, hab⟩
  · exact h'
  · rcases same_iff.1 h' with rfl | ⟨b', c, hb, rfl, hbc⟩
    · exact h
    · cases hb
      exact same_number_iff.2 (hab.trans hbc)

/-- Equality is reflexive, symmetric and transitive. -/
theorem same_equivalence : Equivalence Same := ⟨.refl, .symm, .trans⟩

variable {v v' w w' : Value}

theorem equals_congr (hv : v.Same v') (hw : w.Same w') : v.equals w = v'.equals w' := by
  rw [Bool.eq_iff_iff]
  exact ⟨fun h => (hv.symm.trans h).trans hw, fun h => (hv.trans h).trans hw.symm⟩

/-- Equal values are printed alike. -/
theorem Same.display_eq (h : v.Same w) : v.display = w.display := by
  rcases same_iff.1 h with rfl | ⟨a, b, rfl, rfl, hab⟩
  · rfl
  · exact Decimal.text_congr hab

theorem Same.truthy_eq (h : v.Same w) : v.truthy = w.truthy := by
  rcases same_iff.1 h with rfl | ⟨a, b, rfl, rfl, hab⟩ <;> rfl

end Value

/-! ## Equal failures -/

/-- The same failure, of equal operands. -/
inductive RuntimeError.Cause.Same : RuntimeError.Cause → RuntimeError.Cause → Prop
  | operandNotNumber {v w : Value} (h : v.Same w) : Same (.operandNotNumber v) (.operandNotNumber w)
  | operandsNotNumbers {v v' w w' : Value} (hv : v.Same v') (hw : w.Same w') :
      Same (.operandsNotNumbers v w) (.operandsNotNumbers v' w')
  | operandsNotAddable {v v' w w' : Value} (hv : v.Same v') (hw : w.Same w') :
      Same (.operandsNotAddable v w) (.operandsNotAddable v' w')
  | divisionByZero : Same .divisionByZero .divisionByZero
  | overflow : Same .overflow .overflow
  | undefinedVariable (name : String) : Same (.undefinedVariable name) (.undefinedVariable name)

theorem RuntimeError.Cause.Same.refl (c : RuntimeError.Cause) : c.Same c := by
  cases c with
  | operandNotNumber v => exact .operandNotNumber (.refl v)
  | operandsNotNumbers v w => exact .operandsNotNumbers (.refl v) (.refl w)
  | operandsNotAddable v w => exact .operandsNotAddable (.refl v) (.refl w)
  | divisionByZero => exact .divisionByZero
  | overflow => exact .overflow
  | undefinedVariable name => exact .undefinedVariable name

/-- Two results that are both values or both errors, and related as such. -/
inductive BothEnd {ε α : Type} (E : ε → ε → Prop) (V : α → α → Prop) :
    Except ε α → Except ε α → Prop
  | ok {a b : α} (h : V a b) : BothEnd E V (.ok a) (.ok b)
  | error {e e' : ε} (h : E e e') : BothEnd E V (.error e) (.error e')

theorem BothEnd.refl {ε α : Type} {E : ε → ε → Prop} {V : α → α → Prop} (hE : ∀ e, E e e)
    (hV : ∀ a, V a a) (r : Except ε α) : BothEnd E V r r := by
  cases r with
  | ok a => exact .ok (hV a)
  | error e => exact .error (hE e)

/-! ## Operators -/

open RuntimeError (Cause)

theorem Value.ofResult?_same {x y : Option Decimal}
    (h : x.map Decimal.toRat = y.map Decimal.toRat) :
    BothEnd Cause.Same Value.Same (Value.ofResult? x) (Value.ofResult? y) := by
  cases x with
  | none =>
    cases y with
    | none => exact .error .overflow
    | some b => cases h
  | some a =>
    cases y with
    | none => cases h
    | some b => exact .ok (same_number_iff.2 (Option.some.inj h))

/-- Equality of any two values can be decided. -/
theorem BinaryOp.apply_equal (v w : Value) :
    BinaryOp.equal.apply v w = .ok (.bool (v.equals w))
      ∧ BinaryOp.notEqual.apply v w = .ok (.bool !v.equals w) := by
  cases v <;> cases w <;> exact ⟨rfl, rfl⟩

/-- An operator makes equal values of equal operands, or fails on both alike. -/
theorem UnaryOp.apply_same (op : UnaryOp) {v w : Value} (h : v.Same w) :
    BothEnd Cause.Same Value.Same (op.apply v) (op.apply w) := by
  rcases Value.same_iff.1 h with rfl | ⟨a, b, rfl, rfl, hab⟩
  · exact .refl Cause.Same.refl Value.Same.refl _
  · cases op with
    | negate =>
      refine .ok (Value.same_number_iff.2 ?_)
      rw [Decimal.toRat_neg, Decimal.toRat_neg, hab]
    | not => exact .ok (.refl _)

theorem BinaryOp.applyNumbers_same (op : BinaryOp) {a a' b b' : Decimal} (ha : a.toRat = a'.toRat)
    (hb : b.toRat = b'.toRat) :
    BothEnd Cause.Same Value.Same (op.applyNumbers a b) (op.applyNumbers a' b') := by
  -- comparisons, sums and differences are the very same
  have hsame : ∀ {r r' : Except Cause Value}, r = r' → BothEnd Cause.Same Value.Same r r' := by
    rintro r _ rfl
    exact .refl Cause.Same.refl Value.Same.refl r
  cases op with
  | equal | notEqual => exact hsame (by rw [applyNumbers, applyNumbers, Decimal.equals_congr ha hb])
  | greater | greaterEqual | less | lessEqual =>
    exact hsame (by rw [applyNumbers, applyNumbers, Decimal.order_congr ha hb])
  | add => exact hsame (by rw [applyNumbers, applyNumbers, Decimal.add?_congr ha hb])
  | subtract => exact hsame (by rw [applyNumbers, applyNumbers, Decimal.sub?_congr ha hb])
  | multiply => exact Value.ofResult?_same (Decimal.map_toRat_mul?_congr ha hb)
  | divide =>
    have hzero : b'.isZero = true ↔ b.isZero = true := by
      rw [Decimal.isZero_iff, Decimal.isZero_iff, hb]
    simp only [applyNumbers, hzero]
    split
    · exact .error .divisionByZero
    · next hne =>
      exact Value.ofResult?_same
        (Decimal.map_toRat_div?_congr ha hb fun h => hne (Decimal.isZero_iff.2 h))

/-- An operator makes equal values of equal operands, or fails on both alike. -/
theorem BinaryOp.apply_same (op : BinaryOp) {v v' w w' : Value} (hv : v.Same v')
    (hw : w.Same w') :
    BothEnd Cause.Same Value.Same (op.apply v w) (op.apply v' w') := by
  rcases Value.same_iff.1 hv with rfl | ⟨a, a', rfl, rfl, ha⟩
  · rcases Value.same_iff.1 hw with rfl | ⟨b, b', rfl, rfl, hb⟩
    · exact .refl Cause.Same.refl Value.Same.refl _
    · cases v with
      | number a => exact applyNumbers_same op rfl hb
      | string | bool | nil =>
        cases op
        case equal | notEqual => exact .ok (.refl _)
        case add => exact .error (.operandsNotAddable hv hw)
        all_goals exact .error (.operandsNotNumbers hv hw)
  · rcases Value.same_iff.1 hw with rfl | ⟨b, b', rfl, rfl, hb⟩
    · cases w with
      | number b => exact applyNumbers_same op ha rfl
      | string | bool | nil =>
        cases op
        case equal | notEqual => exact .ok (.refl _)
        case add => exact .error (.operandsNotAddable hv hw)
        all_goals exact .error (.operandsNotNumbers hv hw)
    · exact applyNumbers_same op ha hb

end Lox
