import Lox.Proofs.Decimal.Value
import Mathlib.Data.List.Induction

/-!
# Lox — the digits of decimal numbers

What is written of a number is read as that number: its digits before and after the point are those
of its mantissa, as many after it as the scale says. Its shortest form has no digit to spare.

* **`Decimal.ofDigits?_digits`** — the digits of a number, read again.
* **`Decimal.toDigits_ofDigitChars`** — digits that are read, written again.
* **`Decimal.isPlain_text`** — the shortest form is in plain notation.
* **`Decimal.text_ne_minusZero`** — it is never a zero with a sign.
-/

namespace Lox.Decimal

/-- The number without its sign. -/
def abs (a : Decimal) : Decimal := { a with negative := false }

theorem toRat_abs (a : Decimal) : a.abs.toRat = |a.toRat| := by
  rw [abs_toRat]
  rfl

/-- The digits of a number with its point, but without its sign. -/
def unsignedChars (a : Decimal) : List Char :=
  a.wholeDigits ++ if a.scale = 0 then [] else '.' :: a.fractionDigits

theorem toList_literalText (a : Decimal) : a.literalText.toList = a.signText ++ a.unsignedChars := by
  rw [literalText, String.toList_ofList, literalChars, unsignedChars, List.append_assoc]

theorem literalText_of_negative {a : Decimal} (h : a.negative = true) :
    a.literalText = "-" ++ String.ofList a.unsignedChars := by
  rw [← String.toList_inj, toList_literalText, signText, if_pos h, String.toList_append,
    String.toList_ofList, String.toList_ofList]

theorem literalText_of_not_negative {a : Decimal} (h : a.negative = false) :
    a.literalText = String.ofList a.unsignedChars := by
  rw [← String.toList_inj, toList_literalText, String.toList_ofList, signText, if_neg (by simp [h]),
    List.nil_append]

/-! ## Digits before and after the point -/

theorem length_lastDigits (count n : Nat) : (lastDigits count n).length = count := by
  induction count generalizing n with
  | zero => rfl
  | succ count ih => rw [lastDigits, List.length_append, ih, List.length_singleton]

theorem isDigit_of_mem_lastDigits {count n : Nat} {c : Char} (h : c ∈ lastDigits count n) :
    c.isDigit = true := by
  induction count generalizing n with
  | zero => cases h
  | succ count ih =>
    rw [lastDigits, List.mem_append, List.mem_singleton] at h
    rcases h with h | rfl
    · exact ih h
    · rw [Nat.isDigit_digitChar]
      exact decide_eq_true (Nat.mod_lt n (by decide))

theorem toNat_digitChar {d : Nat} (h : d < 10) : d.digitChar.toNat - '0'.toNat = d := by
  have hall : ∀ d < 10, d.digitChar.toNat - '0'.toNat = d := by decide
  exact hall d h

/-- Read after other digits, the last digits of a number are what they are in the number. -/
theorem ofDigitChars_lastDigits (count n before : Nat) :
    Nat.ofDigitChars 10 (lastDigits count n) before = before * tenPow count + n % tenPow count := by
  induction count generalizing n with
  | zero =>
    show before = before * 1 + n % 1
    omega
  | succ count ih =>
    have hsplit : n % tenPow (count + 1) = n % 10 + 10 * (n / 10 % tenPow count) := by
      rw [tenPow_succ, Nat.mul_comm, Nat.mod_mul]
    rw [lastDigits, Nat.ofDigitChars_append, ih, Nat.ofDigitChars_cons, Nat.ofDigitChars_nil,
      toNat_digitChar (Nat.mod_lt n (by decide)), hsplit, tenPow_succ]
    ring

theorem wholeDigits_ne_nil (a : Decimal) : a.wholeDigits ≠ [] := Nat.toDigits_ne_nil

theorem isDigit_of_mem_wholeDigits (a : Decimal) : ∀ c ∈ a.wholeDigits, c.isDigit = true :=
  fun _ => Nat.isDigit_of_mem_toDigits (by decide) (by decide)

theorem isDigit_of_mem_fractionDigits (a : Decimal) : ∀ c ∈ a.fractionDigits, c.isDigit = true :=
  fun _ => isDigit_of_mem_lastDigits

theorem ofDigitChars_digits (a : Decimal) :
    Nat.ofDigitChars 10 (a.wholeDigits ++ a.fractionDigits) 0 = a.mantissa := by
  rw [Nat.ofDigitChars_append, wholeDigits, Nat.ofDigitChars_toDigits (by decide) (by decide),
    fractionDigits, ofDigitChars_lastDigits, Nat.mul_comm, Nat.div_add_mod]

/-- **The digits of a number are read as the number.** -/
theorem ofDigits?_digits (a : Decimal) : ofDigits? a.wholeDigits a.fractionDigits = some a.abs := by
  have hlength : a.fractionDigits.length = a.scale := length_lastDigits a.scale a.mantissa
  have hfits : Nat.ofDigitChars 10 (a.wholeDigits ++ a.fractionDigits) 0 ≤ maxMantissa
      ∧ a.fractionDigits.length ≤ maxScale := by
    rw [ofDigitChars_digits, hlength]
    exact ⟨a.mantissa_le, a.scale_le⟩
  rw [ofDigits?, dif_pos hfits]
  simp only [ofDigitChars_digits, hlength]
  rfl

/-! ## Digits that are read -/

theorem digitChar_toNat {c : Char} (h : c.isDigit = true) :
    c.toNat - '0'.toNat < 10 ∧ (c.toNat - '0'.toNat).digitChar = c := by
  have hrange : 48 ≤ c.toNat ∧ c.toNat ≤ 57 := by
    simpa [Char.isDigit, UInt32.le_iff_toNat_le] using h
  have hlt : c.toNat - 48 < 10 := by omega
  refine ⟨hlt, Char.toNat_inj.1 ?_⟩
  show (c.toNat - 48).digitChar.toNat = c.toNat
  rw [Nat.toNat_digitChar_of_lt_ten hlt]
  omega

/-- Digits that are read after others are the last digits of the number. -/
theorem lastDigits_ofDigitChars {ds : List Char} (h : ∀ c ∈ ds, c.isDigit = true) (before : Nat) :
    lastDigits ds.length (Nat.ofDigitChars 10 ds before) = ds := by
  induction ds using List.reverseRecOn with
  | nil => rfl
  | append_singleton ds c ih =>
    obtain ⟨hds, hc⟩ := List.forall_mem_append.1 h
    obtain ⟨hlt, hchar⟩ := digitChar_toNat (hc c (List.mem_singleton_self c))
    have hlength : (ds ++ [c]).length = ds.length + 1 := by simp
    rw [Nat.ofDigitChars_append, Nat.ofDigitChars_cons, Nat.ofDigitChars_nil, hlength, lastDigits,
      Nat.mul_add_mod, Nat.mod_eq_of_lt hlt, hchar, Nat.mul_add_div (by decide),
      Nat.div_eq_of_lt hlt, Nat.add_zero, ih hds]

theorem ofDigitChars_lt {ds : List Char} (h : ∀ c ∈ ds, c.isDigit = true) :
    Nat.ofDigitChars 10 ds 0 < tenPow ds.length := by
  have hdigits := ofDigitChars_lastDigits ds.length (Nat.ofDigitChars 10 ds 0) 0
  rw [lastDigits_ofDigitChars h, Nat.zero_mul, Nat.zero_add] at hdigits
  rw [hdigits]
  exact Nat.mod_lt _ (tenPow_pos _)

/-- Digits that are read after a number other than zero are written after it. -/
theorem toDigits_ofDigitChars_append {ds : List Char} (h : ∀ c ∈ ds, c.isDigit = true)
    {before : Nat} (hbefore : 0 < before) :
    Nat.toDigits 10 (Nat.ofDigitChars 10 ds before) = Nat.toDigits 10 before ++ ds := by
  induction ds generalizing before with
  | nil => rw [Nat.ofDigitChars_nil, List.append_nil]
  | cons c ds ih =>
    obtain ⟨hc, hds⟩ := List.forall_mem_cons.1 h
    obtain ⟨hlt, hchar⟩ := digitChar_toNat hc
    rw [Nat.ofDigitChars_cons, ih hds (by omega),
      ← Nat.toDigits_append_toDigits (by decide) hbefore hlt, Nat.toDigits_of_lt_base hlt, hchar,
      List.append_assoc, List.singleton_append]

/-- The digits without the leading zeros that can be left out: one digit is kept. -/
def withoutLeadingZeros : List Char → List Char
  | '0' :: c :: ds => withoutLeadingZeros (c :: ds)
  | ds => ds

/-- **Digits that are read are written without leading zeros.** -/
theorem toDigits_ofDigitChars {ds : List Char} (hne : ds ≠ []) (h : ∀ c ∈ ds, c.isDigit = true) :
    Nat.toDigits 10 (Nat.ofDigitChars 10 ds 0) = withoutLeadingZeros ds := by
  fun_induction withoutLeadingZeros ds with
  | case1 c ds ih => exact ih (List.cons_ne_nil _ _) (List.forall_mem_cons.1 h).2
  | case2 ds hzero =>
    obtain ⟨c, ds, rfl⟩ := List.exists_cons_of_ne_nil hne
    obtain ⟨hc, hds⟩ := List.forall_mem_cons.1 h
    obtain ⟨hlt, hchar⟩ := digitChar_toNat hc
    rw [Nat.ofDigitChars_cons, Nat.mul_zero, Nat.zero_add]
    rcases Nat.eq_zero_or_pos (c.toNat - '0'.toNat) with hdigit | hpos
    · -- a zero at the start is the only digit
      rw [hdigit] at hchar
      subst hchar
      cases ds with
      | nil => rfl
      | cons d ds => exact absurd rfl (hzero d ds)
    · rw [toDigits_ofDigitChars_append hds hpos, Nat.toDigits_of_lt_base hlt, hchar,
        List.singleton_append]

/-! ## Plain notation -/

/-- A sign perhaps, digits, and perhaps a point with more digits, of which the last is not zero. -/
def IsPlain (cs : List Char) : Prop :=
  ∃ sign whole fraction, cs = sign ++ whole ++ (if fraction = [] then [] else '.' :: fraction)
    ∧ (sign = [] ∨ sign = ['-']) ∧ whole ≠ [] ∧ (∀ c ∈ whole, c.isDigit = true)
    ∧ (∀ c ∈ fraction, c.isDigit = true) ∧ fraction.getLast? ≠ some '0'

theorem fractionDigits_eq_nil_iff {a : Decimal} : a.fractionDigits = [] ↔ a.scale = 0 := by
  rw [← List.length_eq_zero_iff, fractionDigits, length_lastDigits]

/-- In the normal form, no digit after the point can be left out. -/
theorem getLast?_fractionDigits_normalize (a : Decimal) :
    a.normalize.fractionDigits.getLast? ≠ some '0' := by
  have htrimmed : Trimmed a.normalize.mantissa a.normalize.scale := trimmed_trim _ _
  unfold fractionDigits
  rcases hs : a.normalize.scale with _ | s
  · nofun
  · rw [lastDigits, List.getLast?_concat]
    intro hzero
    rcases htrimmed with hscale | hdigit
    · omega
    · exact hdigit (Nat.digitChar_eq_zero.1 (Option.some.inj hzero))

/-- **Values are shown in plain notation.** -/
theorem isPlain_text (a : Decimal) : IsPlain a.text.toList := by
  refine ⟨a.normalize.signText, a.normalize.wholeDigits, a.normalize.fractionDigits, ?_, ?_,
    wholeDigits_ne_nil _, isDigit_of_mem_wholeDigits _, isDigit_of_mem_fractionDigits _,
    a.getLast?_fractionDigits_normalize⟩
  · rw [text, toList_literalText, unsignedChars, List.append_assoc]
    simp only [fractionDigits_eq_nil_iff]
  · rw [signText]
    split
    · exact .inr rfl
    · exact .inl rfl

/-- A number whose digits are a single zero is zero. -/
theorem mantissa_eq_zero_of_unsignedChars {a : Decimal} (h : a.unsignedChars = ['0']) :
    a.mantissa = 0 := by
  have hdigits := a.ofDigitChars_digits
  by_cases hs : a.scale = 0
  · rw [unsignedChars, if_pos hs, List.append_nil] at h
    rw [h, fractionDigits_eq_nil_iff.2 hs] at hdigits
    exact hdigits.symm
  · -- a digit before the point, the point and a digit after it are too many
    have hlength := congrArg List.length h
    have hwhole := List.length_pos_iff.2 a.wholeDigits_ne_nil
    rw [unsignedChars, if_neg hs, List.length_append, List.length_cons, List.length_singleton]
      at hlength
    have hfraction : a.fractionDigits.length = a.scale := length_lastDigits a.scale a.mantissa
    omega

/-- **No zero is shown with a sign.** -/
theorem text_ne_minusZero (a : Decimal) : a.text ≠ "-0" := by
  intro h
  have hminusZero : "-0".toList = ['-', '0'] := by decide
  rw [text, ← String.toList_inj, toList_literalText, hminusZero, signText] at h
  split at h
  · next hsign =>
    have hmantissa := mantissa_eq_zero_of_unsignedChars (List.cons.inj h).2
    have hsource : a.negative = true ∧ a.mantissa ≠ 0 := by simpa [normalize] using hsign
    have hzero := toRat_eq_zero_iff.2 hmantissa
    rw [toRat_normalize, toRat_eq_zero_iff] at hzero
    exact hsource.2 hzero
  · -- without a sign, the first character is a digit
    obtain ⟨d, ds, hdigits⟩ := List.exists_cons_of_ne_nil a.normalize.wholeDigits_ne_nil
    have hdigit : d.isDigit = true := by
      refine a.normalize.isDigit_of_mem_wholeDigits d ?_
      rw [hdigits]
      exact List.mem_cons_self
    rw [List.nil_append, unsignedChars, hdigits] at h
    rw [(List.cons.inj h).1] at hdigit
    exact absurd hdigit (by decide)

end Lox.Decimal
