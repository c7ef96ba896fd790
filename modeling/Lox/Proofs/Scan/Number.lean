import Lox.Proofs.Decimal.Digits
import Lox.Proofs.Decimal.Rounding
import Lox.Proofs.Scan.Boundary
import Lox.Syntax.Display

/-!
# Lox — number literals

A number literal is the number that its digits say, or it is refused. To find out, a reader of
decimal numbers that rounds is enough: a literal is refused if the reader fails, or if the number
has fewer digits after the point than the literal. If it has as many, then nothing was rounded.

* **`NumberText`** — digits, and perhaps a point with more digits.
* **`ReadsRounded`** — what is relied on of the reader.
* **`readNumber_chars`** — what the reader makes of a literal.
* **`number_law`** — which literals are accepted, and as which numbers.
-/

namespace Lox

open Decimal

/-- The text of a number literal: digits, and perhaps a point with more digits. -/
structure NumberText where
  whole : List Char
  fraction : List Char
  whole_ne_nil : whole ≠ []
  isDigit_whole : ∀ c ∈ whole, c.isDigit = true
  isDigit_fraction : ∀ c ∈ fraction, c.isDigit = true

namespace NumberText

variable (d : NumberText)

/-- The characters of the literal. -/
def chars : List Char := d.whole ++ if d.fraction = [] then [] else '.' :: d.fraction

/-- The literal as a source text. -/
def text : String := String.ofList d.chars

/-- All its digits, read as one integer. -/
def digits : Nat := Nat.ofDigitChars 10 (d.whole ++ d.fraction) 0

/-- The number that it says. -/
def value : ℚ :=
  Nat.ofDigitChars 10 d.whole 0 + Nat.ofDigitChars 10 d.fraction 0 / 10 ^ d.fraction.length

/-- The literal without the leading zeros that can be left out. -/
def plain : NumberText where
  whole := withoutLeadingZeros d.whole
  fraction := d.fraction
  whole_ne_nil := by
    rw [← toDigits_ofDigitChars d.whole_ne_nil d.isDigit_whole]
    exact Nat.toDigits_ne_nil
  isDigit_whole := by
    rw [← toDigits_ofDigitChars d.whole_ne_nil d.isDigit_whole]
    exact fun _ => Nat.isDigit_of_mem_toDigits (by decide) (by decide)
  isDigit_fraction := d.isDigit_fraction

/-! ## The number -/

theorem digits_eq : d.digits
    = tenPow d.fraction.length * Nat.ofDigitChars 10 d.whole 0
      + Nat.ofDigitChars 10 d.fraction 0 := by
  rw [digits, Nat.ofDigitChars_append, Nat.ofDigitChars_eq_ofDigitChars_zero]
  rfl

/-- The number is that of all the digits, with the point put in. -/
theorem value_mul_tenPow : d.value * tenPow d.fraction.length = d.digits := by
  have hpow : ((10 : ℚ) ^ d.fraction.length) ≠ 0 := by positivity
  have htenPow : (tenPow d.fraction.length : ℚ) = 10 ^ d.fraction.length := by
    rw [tenPow, Nat.pow_eq]
    push_cast
    rfl
  rw [digits_eq, value, Nat.cast_add, Nat.cast_mul, htenPow, add_mul, div_mul_cancel₀ _ hpow,
    mul_comm]

theorem value_eq : d.value = d.digits / tenPow d.fraction.length :=
  (eq_div_iff (tenPow_ne_zero _)).2 d.value_mul_tenPow

/-- All the digits fit if they are in range, read as one integer. -/
theorem fits_value_iff : Fits d.value d.fraction.length ↔ d.digits ≤ maxMantissa := by
  have hround : halfEven (d.digits : ℚ) = d.digits := by
    exact_mod_cast halfEven_intCast d.digits
  rw [Fits, value_mul_tenPow, hround, Nat.abs_cast, Nat.cast_le]

/-! ## The text -/

theorem exists_cons_chars : ∃ c cs, d.chars = c :: cs ∧ c.isDigit = true := by
  obtain ⟨c, cs, hwhole⟩ := List.exists_cons_of_ne_nil d.whole_ne_nil
  refine ⟨c, cs ++ if d.fraction = [] then [] else '.' :: d.fraction, ?_, ?_⟩
  · rw [chars, hwhole, List.cons_append]
  · exact d.isDigit_whole c (hwhole ▸ List.mem_cons_self)

theorem isDigit_of_mem_chars : ∀ c ∈ d.chars, c.isDigit = true ∨ c = '.' := by
  intro c hc
  rcases List.mem_append.1 hc with hc | hc
  · exact .inl (d.isDigit_whole c hc)
  · split at hc
    · cases hc
    · rcases List.mem_cons.1 hc with rfl | hc
      · exact .inr rfl
      · exact .inl (d.isDigit_fraction c hc)

theorem newlines_chars : newlines d.chars = 0 := by
  refine List.count_eq_zero.2 fun hmem => ?_
  rcases d.isDigit_of_mem_chars _ hmem with h | h <;> cases h

/-- The whole text is one segment. -/
theorem segments_chars :
    segments d.chars = [⟨Segment.numberContent d.whole d.fraction, d.chars⟩] := by
  have hnumber : Segment.number d.chars
      = (⟨Segment.numberContent d.whole d.fraction, d.chars⟩, []) := by
    by_cases hfraction : d.fraction = []
    · have hwhole := Segment.number_of_whole Segment.apart_nil d.isDigit_whole
      rw [chars, if_pos hfraction, hfraction]
      simpa using hwhole
    · have hboth := Segment.number_of_fraction Segment.apart_nil d.isDigit_whole hfraction
        d.isDigit_fraction
      rw [chars, if_neg hfraction]
      simpa using hboth
  obtain ⟨c, cs, hchars, hc⟩ := d.exists_cons_chars
  rw [hchars] at hnumber ⊢
  rw [segments_cons, Segment.next_of_isDigit cs hc, hnumber, segments_nil]

theorem scan_text : scan d.text
    = (match ofDigits? d.whole d.fraction with
      | some n => .ok ⟨⟨d.text, 1⟩, .number n⟩
      | none => .error ⟨.numberOutOfRange, 1⟩) :: [.ok (Token.eof 1)] := by
  rw [scan, text, String.toList_ofList, segments_chars, itemsFrom, itemsFrom, newlines_chars,
    Segment.item?, Segment.numberContent]
  cases ofDigits? d.whole d.fraction <;> rfl

end NumberText

/-! ## Literals in other texts -/

/-- A segment that begins with a digit is a number literal. -/
theorem Segment.Form.exists_numberText {content : Content} {text rest : List Char}
    (h : Form content text rest) (hdigit : text.head?.any Char.isDigit = true) :
    ∃ d : NumberText, content = numberContent d.whole d.fraction ∧ text = d.chars := by
  cases h with
  | whole hne h => exact ⟨⟨text, [], hne, h, nofun⟩, rfl, (List.append_nil _).symm⟩
  | @fraction whole fraction hne h hne' h' =>
    exact ⟨⟨whole, fraction, hne, h, h'⟩, rfl, by rw [NumberText.chars, if_neg hne']⟩
  -- nothing else begins with a digit
  | @blank c hblank =>
    have hall : [' ', '\r', '\t', '\n'].all (!·.isDigit) = true := by decide
    have hc : c.isDigit = true := hdigit
    have hnot := List.all_eq_true.1 hall c hblank
    rw [hc] at hnot
    cases hnot
  | lineComment | blockComment | openComment | slash | string | openString => cases hdigit
  | single hkind =>
    unfold Token.singleKind? at hkind
    split at hkind <;> cases hkind <;> cases hdigit
  | alone hkinds | extended hkinds =>
    unfold Token.extendableKinds? at hkinds
    split at hkinds <;> cases hkinds <;> cases hdigit
  | keyword hmem =>
    obtain ⟨hstart, -, -⟩ := keyword_spec hmem
    rw [String.toList_ofList] at hstart
    cases text with
    | nil => cases hdigit
    | cons c cs => exact absurd hdigit (by simp [isDigit_eq_false_of_isWordStart hstart])
  | name hc => exact absurd hdigit (by simp [isDigit_eq_false_of_isWordStart hc])
  | unexpected _ _ _ hc => exact absurd hdigit (by simp [hc])

/-! ## Reading with a reader that rounds -/

/-- What is relied on of a reader of decimal numbers: it rounds away the digits after the point that
it cannot hold, and it fails beyond the range. -/
structure ReadsRounded (read : List Char → Option Decimal) : Prop where
  /-- It fails if not even the integer that the number is rounded to is in range. -/
  eq_none_iff : ∀ d : NumberText, read d.chars = none ↔ ¬ Fits d.value 0
  not_negative : ∀ (d : NumberText) {n : Decimal}, read d.chars = some n → n.negative = false
  /-- It keeps as many digits after the point as fit. -/
  scale : ∀ (d : NumberText) {n : Decimal}, read d.chars = some n →
    IsGreatest {s | s ≤ min d.fraction.length maxScale ∧ Fits d.value s} n.scale
  /-- It is wrong by half a unit in the last digit at most. -/
  nearest : ∀ (d : NumberText) {n : Decimal}, read d.chars = some n →
    |n.toRat - d.value| ≤ 1 / 2 / tenPow n.scale

/-- The number of digits after the point of a literal. -/
def fractionLength (lexeme : List Char) : Nat := (lexeme.dropWhile (· != '.')).tail.length

/-- The content of a number literal, with a reader of decimal numbers: the number that is read, if
it has as many digits after the point as the literal. -/
def readNumber (read : List Char → Option Decimal) (lexeme : List Char) : Segment.Content :=
  match read lexeme with
  | some n =>
    if n.scale = fractionLength lexeme then .token (.number n) else .fault .numberOutOfRange
  | none => .fault .numberOutOfRange

/-- The segment with the content that the reader finds for it, if it is a number literal. -/
def Segment.reread (read : List Char → Option Decimal) (s : Segment) : Segment :=
  if s.text.head?.any Char.isDigit then { s with content := readNumber read s.text } else s

/-- The items of a source text, with the contents of number literals found by the reader. -/
def scanWith (read : List Char → Option Decimal) (source : String) : List ScanItem :=
  itemsFrom 1 ((segments source.toList).map (Segment.reread read))

theorem NumberText.fractionLength_chars (d : NumberText) :
    fractionLength d.chars = d.fraction.length := by
  have hwhole : ∀ c ∈ d.whole, (c != '.') = true := by
    intro c hc
    rw [bne_iff_ne]
    rintro rfl
    exact absurd (d.isDigit_whole _ hc) (by decide)
  rw [fractionLength, chars, List.dropWhile_append_of_pos hwhole]
  split
  · next hnil => rw [hnil]; rfl
  · rfl

namespace ReadsRounded

variable {read : List Char → Option Decimal} (h : ReadsRounded read) (d : NumberText) {n : Decimal}

include h

/-- **With as many digits as the literal, nothing was rounded.** -/
theorem mantissa_eq (hread : read d.chars = some n) (hscale : n.scale = d.fraction.length) :
    n.mantissa = d.digits := by
  have hpow : (0 : ℚ) < tenPow d.fraction.length := Nat.cast_pos.2 (tenPow_pos _)
  have hcoefficient : n.coefficient = n.mantissa := by
    rw [coefficient, h.not_negative d hread]
    rfl
  have hmantissa : n.toRat * tenPow d.fraction.length = n.mantissa := by
    rw [← hscale, toRat_mul_tenPow, hcoefficient, Int.cast_natCast]
  have hnear := h.nearest d hread
  rw [hscale, le_div_iff₀ hpow, ← abs_of_pos hpow, ← abs_mul, sub_mul, hmantissa,
    d.value_mul_tenPow] at hnear
  -- both are integers, and they are less than one apart
  obtain ⟨hbelow, habove⟩ := abs_le.1 hnear
  have hlt : (n.mantissa : ℚ) < d.digits + 1 := by linarith
  have hgt : (d.digits : ℚ) < n.mantissa + 1 := by linarith
  have hle : n.mantissa ≤ d.digits := Nat.lt_succ_iff.1 (by exact_mod_cast hlt)
  have hge : d.digits ≤ n.mantissa := Nat.lt_succ_iff.1 (by exact_mod_cast hgt)
  exact le_antisymm hle hge

/-- If all digits fit, then none is rounded away. -/
theorem scale_eq (hread : read d.chars = some n) (hdigits : d.digits ≤ maxMantissa)
    (hfraction : d.fraction.length ≤ maxScale) : n.scale = d.fraction.length := by
  obtain ⟨⟨hle, -⟩, hgreatest⟩ := h.scale d hread
  refine le_antisymm (hle.trans (min_le_left _ _)) (hgreatest ⟨?_, ?_⟩)
  · exact le_min le_rfl hfraction
  · exact d.fits_value_iff.2 hdigits

/-- **What is decided with the reader is whether all digits fit.** -/
theorem readNumber_chars :
    readNumber read d.chars = Segment.numberContent d.whole d.fraction := by
  rw [readNumber, d.fractionLength_chars, Segment.numberContent]
  cases hread : read d.chars with
  | none =>
    have hnot : ¬ (d.digits ≤ maxMantissa ∧ d.fraction.length ≤ maxScale) := by
      rintro ⟨hdigits, -⟩
      have hfits := (d.fits_value_iff.2 hdigits).mono le_rfl (Nat.zero_le _)
      exact (h.eq_none_iff d).1 hread hfits
    have hnone : ofDigits? d.whole d.fraction = none := dif_neg hnot
    rw [hnone]
  | some n =>
    by_cases hscale : n.scale = d.fraction.length
    · have hmantissa := h.mantissa_eq d hread hscale
      have hnegative := h.not_negative d hread
      obtain ⟨negative, mantissa, scale, hmantissa_le, hscale_le⟩ := n
      obtain rfl : negative = false := hnegative
      obtain rfl : mantissa = d.digits := hmantissa
      obtain rfl : scale = d.fraction.length := hscale
      have hsome : ofDigits? d.whole d.fraction
          = some ⟨false, d.digits, d.fraction.length, hmantissa_le, hscale_le⟩ :=
        dif_pos ⟨hmantissa_le, hscale_le⟩
      rw [hsome]
      exact if_pos rfl
    · have hnot : ¬ (d.digits ≤ maxMantissa ∧ d.fraction.length ≤ maxScale) := fun hfit =>
        hscale (h.scale_eq d hread hfit.1 hfit.2)
      have hnone : ofDigits? d.whole d.fraction = none := dif_neg hnot
      rw [hnone]
      exact if_neg hscale

/-- **Scanning with the reader is scanning.** -/
theorem scanWith_eq (source : String) : scanWith read source = scan source := by
  have hreread : ∀ s ∈ segments source.toList, Segment.reread read s = s := by
    intro s hs
    obtain ⟨rest, hform⟩ := (Segmentation.of_segments source.toList).exists_form s hs
    unfold Segment.reread
    split
    · next hdigit =>
      obtain ⟨d, hcontent, htext⟩ := hform.exists_numberText hdigit
      rw [htext, h.readNumber_chars d, ← hcontent, ← htext]
    · rfl
  rw [scanWith, scan, List.map_congr_left hreread, List.map_id']

end ReadsRounded

/-! ## The number of a literal -/

namespace NumberText

variable {d : NumberText} {n : Decimal}

theorem eq_of_ofDigits? (h : ofDigits? d.whole d.fraction = some n) :
    n.negative = false ∧ n.mantissa = d.digits ∧ n.scale = d.fraction.length := by
  rw [ofDigits?] at h
  split at h
  · cases h
    exact ⟨rfl, rfl, rfl⟩
  · cases h

/-- The number of a literal is the one that it says. -/
theorem toRat_of_ofDigits? (h : ofDigits? d.whole d.fraction = some n) : n.toRat = d.value := by
  obtain ⟨hnegative, hmantissa, hscale⟩ := eq_of_ofDigits? h
  have hcoefficient : n.coefficient = d.digits := by
    rw [coefficient, hnegative, hmantissa]
    rfl
  rw [toRat, hcoefficient, hscale, Int.cast_natCast, value_eq]

/-- The digits of the number are those of the literal, but for leading zeros. -/
theorem digits_of_ofDigits? (h : ofDigits? d.whole d.fraction = some n) :
    n.wholeDigits = d.plain.whole ∧ n.fractionDigits = d.plain.fraction := by
  obtain ⟨-, hmantissa, hscale⟩ := eq_of_ofDigits? h
  have hquotient : n.mantissa / tenPow n.scale = Nat.ofDigitChars 10 d.whole 0 := by
    rw [hmantissa, hscale, digits_eq, Nat.mul_add_div (tenPow_pos _),
      Nat.div_eq_of_lt (ofDigitChars_lt d.isDigit_fraction), Nat.add_zero]
  constructor
  · rw [wholeDigits, hquotient, toDigits_ofDigitChars d.whole_ne_nil d.isDigit_whole]
    rfl
  · rw [fractionDigits, hmantissa, hscale, digits, Nat.ofDigitChars_append,
      lastDigits_ofDigitChars d.isDigit_fraction]
    rfl

theorem display_of_ofDigits? (h : ofDigits? d.whole d.fraction = some n) :
    (Literal.number n).display = d.plain.text := by
  obtain ⟨hnegative, -, hscale⟩ := eq_of_ofDigits? h
  obtain ⟨hwhole, hfraction⟩ := digits_of_ofDigits? h
  have hiff : n.scale = 0 ↔ d.plain.fraction = [] := by
    rw [← hfraction, fractionDigits_eq_nil_iff]
  rw [Literal.display, literalText_of_not_negative hnegative, unsignedChars, hwhole, hfraction,
    text, chars]
  simp only [hiff]

/-- Without leading zeros, the literal is read as the same number. -/
theorem ofDigits?_plain (h : ofDigits? d.whole d.fraction = some n) :
    ofDigits? d.plain.whole d.plain.fraction = some n := by
  obtain ⟨hnegative, -, -⟩ := eq_of_ofDigits? h
  obtain ⟨hwhole, hfraction⟩ := digits_of_ofDigits? h
  rw [← hwhole, ← hfraction, ofDigits?_digits, Decimal.abs, ← hnegative]

theorem scan_of_some (h : ofDigits? d.whole d.fraction = some n) :
    scan d.text = [.ok ⟨⟨d.text, 1⟩, .number n⟩, .ok (Token.eof 1)] := by
  rw [scan_text, h]

theorem scan_of_none (h : ofDigits? d.whole d.fraction = none) :
    scan d.text = [.error ⟨.numberOutOfRange, 1⟩, .ok (Token.eof 1)] := by
  rw [scan_text, h]

theorem of_scan (h : scan d.text = [.ok ⟨⟨d.text, 1⟩, .number n⟩, .ok (Token.eof 1)]) :
    ofDigits? d.whole d.fraction = some n := by
  cases hread : ofDigits? d.whole d.fraction with
  | none =>
    rw [scan_of_none hread] at h
    cases h
  | some m =>
    rw [scan_of_some hread] at h
    cases h
    rfl

theorem ofDigits?_eq_some_iff :
    (∃ n, ofDigits? d.whole d.fraction = some n)
      ↔ d.digits ≤ 2 ^ 96 - 1 ∧ d.fraction.length ≤ 28 := by
  have hmax : maxMantissa = 2 ^ 96 - 1 := by decide
  rw [ofDigits?, ← hmax]
  split
  · next h => exact ⟨fun _ => h, fun _ => ⟨_, rfl⟩⟩
  · next h =>
    refine ⟨fun hsome => ?_, fun h' => absurd h' h⟩
    obtain ⟨n, hn⟩ := hsome
    cases hn

end NumberText

/-! ## Numbers in other texts -/

theorem Segment.ofDigits?_of_numberContent {whole fraction : List Char} {n : Decimal}
    (h : numberContent whole fraction = .token (.number n)) :
    ofDigits? whole fraction = some n := by
  unfold numberContent at h
  split at h
  · next hread =>
    cases h
    exact hread
  · cases h

/-- A number token is a literal that is read as the number. -/
theorem Segment.Form.exists_of_number {n : Decimal} {text rest : List Char}
    (h : Form (.token (.number n)) text rest) :
    ∃ d : NumberText, text = d.chars ∧ ofDigits? d.whole d.fraction = some n := by
  generalize hcontent : Content.token (.number n) = content at h
  cases h with
  | whole hne h =>
    exact ⟨⟨text, [], hne, h, nofun⟩, (List.append_nil _).symm,
      ofDigits?_of_numberContent hcontent.symm⟩
  | @fraction whole fraction hne h hne' h' =>
    exact ⟨⟨whole, fraction, hne, h, h'⟩, by rw [NumberText.chars, if_neg hne'],
      ofDigits?_of_numberContent hcontent.symm⟩
  | single h =>
    cases hcontent
    unfold Token.singleKind? at h
    split at h <;> cases h
  | alone h | extended h =>
    cases hcontent
    unfold Token.extendableKinds? at h
    split at h <;> cases h
  | keyword h =>
    cases hcontent
    simp [Token.keywords] at h
  | _ => cases hcontent

/-- **In any source text, a number is the one that its literal says.** -/
theorem exists_numberText_of_mem_tokensOf {source : String} {t : Token} {n : Decimal}
    (ht : t ∈ tokensOf (scan source)) (hn : t.kind = .number n) :
    ∃ d : NumberText, t.text = d.text ∧ n.toRat = d.value ∧ n.scale = d.fraction.length := by
  rw [tokensOf_scan_eq_concat, List.mem_append, List.mem_singleton] at ht
  rcases ht with ht | rfl
  · obtain ⟨s, hs, hcontent, htext⟩ := exists_segment_of_mem_dropLast (mem_tokensOf.1 ht)
    obtain ⟨rest, hform⟩ := (Segmentation.of_segments source.toList).exists_form s hs
    rw [hcontent, hn, htext] at hform
    obtain ⟨d, hchars, hread⟩ := hform.exists_of_number
    refine ⟨d, ?_, NumberText.toRat_of_ofDigits? hread, (NumberText.eq_of_ofDigits? hread).2.2⟩
    rw [NumberText.text, ← hchars, String.ofList_toList]
  · cases hn

/-! ## A reader -/

/-- A reader that rounds a half to the even neighbour. -/
def readHalfEven (lexeme : List Char) : Option Decimal :=
  let whole := lexeme.takeWhile Char.isDigit
  let fraction := (lexeme.dropWhile Char.isDigit).tail
  roundFrom? false (Nat.ofDigitChars 10 (whole ++ fraction) 0) (tenPow fraction.length)
    (min fraction.length maxScale) (Nat.min_le_right _ _)

theorem readHalfEven_chars (d : NumberText) :
    readHalfEven d.chars = roundFrom? false d.digits (tenPow d.fraction.length)
      (min d.fraction.length maxScale) (Nat.min_le_right _ _) := by
  have hsplit : d.chars.takeWhile Char.isDigit = d.whole
      ∧ (d.chars.dropWhile Char.isDigit).tail = d.fraction := by
    rw [NumberText.chars]
    split
    · next hnil =>
      have hend : ∀ c ∈ ([] : List Char).head?, c.isDigit = false := nofun
      obtain ⟨htake, hdrop⟩ := Segment.takeWhile_eq_of_head? d.isDigit_whole hend
      rw [htake, hdrop, hnil]
      exact ⟨rfl, rfl⟩
    · have hpoint : ('.').isDigit = false := by decide
      obtain ⟨htake, hdrop⟩ := Segment.takeWhile_eq_of_cons d.isDigit_whole hpoint d.fraction
      rw [htake, hdrop]
      exact ⟨rfl, rfl⟩
  unfold readHalfEven
  simp only [hsplit.1, hsplit.2]
  rfl

theorem readsRounded_readHalfEven : ReadsRounded readHalfEven where
  eq_none_iff d := by
    rw [readHalfEven_chars, roundFrom?_eq_none_iff (tenPow_pos _), ← d.value_eq]
  not_negative d n hread := by
    rw [readHalfEven_chars] at hread
    exact (of_roundFrom?_eq_some (tenPow_pos _) hread).2.1
  scale d n hread := by
    rw [readHalfEven_chars] at hread
    have hgreatest := (of_roundFrom?_eq_some (tenPow_pos _) hread).1
    rwa [← d.value_eq] at hgreatest
  nearest d n hread := by
    rw [readHalfEven_chars] at hread
    obtain ⟨-, hnegative, hmantissa⟩ := of_roundFrom?_eq_some (tenPow_pos _) hread
    have hcoefficient : n.coefficient = halfEven (d.value * tenPow n.scale) := by
      rw [coefficient, hnegative, hmantissa, d.value_eq, ← roundHalfEven_mul_tenPow (tenPow_pos _)]
      rfl
    rw [toRat, hcoefficient]
    exact abs_halfEven_div_sub_le d.value n.scale

/-! ## Number literals -/

/-- **Number literals are decoded exactly or refused.** Scanning with any reader that rounds is
scanning. A literal is a number if and only if it has at most 28 digits after the point and all its
digits are at most `2 ^ 96 - 1`, read as one integer, and else it is out of range. The number is the
one that the literal says, it is shown without superfluous leading zeros, and what is shown is
scanned as the same number. In any source text, no number is another one than its literal says. -/
theorem number_law {read : List Char → Option Decimal} (h : ReadsRounded read) :
    (∀ source, scanWith read source = scan source)
    ∧ (∀ d : NumberText,
      ((∃ n, scan d.text = [.ok ⟨⟨d.text, 1⟩, .number n⟩, .ok (Token.eof 1)])
        ↔ d.digits ≤ 2 ^ 96 - 1 ∧ d.fraction.length ≤ 28)
      ∧ (¬ (d.digits ≤ 2 ^ 96 - 1 ∧ d.fraction.length ≤ 28) →
        scan d.text = [.error ⟨.numberOutOfRange, 1⟩, .ok (Token.eof 1)])
      ∧ ∀ n, scan d.text = [.ok ⟨⟨d.text, 1⟩, .number n⟩, .ok (Token.eof 1)] →
        n.toRat = d.value ∧ (Literal.number n).display = d.plain.text
        ∧ scan (Literal.number n).display
          = [.ok ⟨⟨(Literal.number n).display, 1⟩, .number n⟩, .ok (Token.eof 1)])
    ∧ ∀ source, ∀ t ∈ tokensOf (scan source), ∀ n, t.kind = .number n →
      ∃ d : NumberText, t.text = d.text ∧ n.toRat = d.value ∧ n.scale = d.fraction.length := by
  refine ⟨h.scanWith_eq, fun d => ⟨?_, fun hnot => ?_, fun n hscan => ?_⟩,
    fun source t ht n hn => exists_numberText_of_mem_tokensOf ht hn⟩
  · rw [← NumberText.ofDigits?_eq_some_iff]
    exact exists_congr fun n => ⟨NumberText.of_scan, NumberText.scan_of_some⟩
  · rw [← NumberText.ofDigits?_eq_some_iff, not_exists] at hnot
    exact NumberText.scan_of_none (Option.eq_none_iff_forall_ne_some.2 hnot)
  · have hread := NumberText.of_scan hscan
    rw [NumberText.display_of_ofDigits? hread]
    exact ⟨NumberText.toRat_of_ofDigits? hread, rfl,
      NumberText.scan_of_some (NumberText.ofDigits?_plain hread)⟩

/-- The literal `007.50`. -/
def spareZeros : NumberText where
  whole := ['0', '0', '7']
  fraction := ['5', '0']
  whole_ne_nil := List.cons_ne_nil _ _
  isDigit_whole := List.all_eq_true.1 (by decide)
  isDigit_fraction := List.all_eq_true.1 (by decide)

/-- The literal `0.` with 29 digits after the point. -/
def manyDigits : NumberText where
  whole := ['0']
  fraction := "12345678901234567890123456789".toList
  whole_ne_nil := List.cons_ne_nil _ _
  isDigit_whole := List.all_eq_true.1 (by decide)
  isDigit_fraction := List.all_eq_true.1 (by decide +kernel)

theorem number_law_spareZeros :
    scanWith readHalfEven "007.50 + 1" = scan "007.50 + 1"
    ∧ (∃ n, scan "007.50" = [.ok ⟨⟨"007.50", 1⟩, .number n⟩, .ok (Token.eof 1)]
      ∧ n.toRat = 15 / 2 ∧ (Literal.number n).display = "7.50"
      ∧ scan "7.50" = [.ok ⟨⟨"7.50", 1⟩, .number n⟩, .ok (Token.eof 1)])
    ∧ scan "0.12345678901234567890123456789"
      = [.error ⟨.numberOutOfRange, 1⟩, .ok (Token.eof 1)] := by
  obtain ⟨hscan, hliterals, -⟩ := number_law readsRounded_readHalfEven
  refine ⟨hscan _, ?_, ?_⟩
  · have htext : spareZeros.text = "007.50" := by decide
    have hplain : spareZeros.plain.text = "7.50" := by decide
    have hvalue : spareZeros.value = 15 / 2 := by
      have hwhole : Nat.ofDigitChars 10 spareZeros.whole 0 = 7 := by decide
      have hfraction : Nat.ofDigitChars 10 spareZeros.fraction 0 = 50 := by decide
      have hlength : spareZeros.fraction.length = 2 := rfl
      rw [NumberText.value, hwhole, hfraction, hlength]
      norm_num
    obtain ⟨haccepts, -, hexact⟩ := hliterals spareZeros
    obtain ⟨n, hn⟩ := haccepts.2 (by decide)
    obtain ⟨hrat, hdisplay, hagain⟩ := hexact n hn
    rw [hplain] at hdisplay
    rw [htext] at hn
    rw [hdisplay] at hagain
    exact ⟨n, hn, hrat.trans hvalue, hdisplay, hagain⟩
  · have htext : manyDigits.text = "0.12345678901234567890123456789" := by decide +kernel
    rw [← htext]
    exact (hliterals manyDigits).2.1 (by decide +kernel)

end Lox
