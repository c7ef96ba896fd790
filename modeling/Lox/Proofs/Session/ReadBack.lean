import Lox.Proofs.Decimal.Digits
import Lox.Proofs.Eval.Equality
import Lox.Proofs.Scan.Written
import Lox.Proofs.Session.Concat

/-!
# Lox — printed values read back

What is printed of a value, typed in again, is a value equal to it. So what the printing of numbers
leaves out does not matter, and what it keeps tells numbers of different values apart.

* **`Segment.Alone`** — a text that is one token, at the end and in front of a semicolon.
* **`ReadsBack`** — a text that is an expression for a value.
* **`Decimal.readsBack_text`** — numbers.
* **`Value.display_reads_back`** — all values.
-/

namespace Lox

/-! ## A token on its own -/

namespace Segment

/-- The text is one token, with nothing after it and with a semicolon after it. -/
def Alone (kind : Token.Kind) (cs : List Char) : Prop :=
  ∀ rest ∈ [[], [';']], segments (cs ++ rest) = ⟨.token kind, cs⟩ :: segments rest

theorem Alone.of_form {kind : Token.Kind} {cs : List Char} (h : Form (.token kind) cs []) :
    Alone kind cs := by
  intro rest hrest
  have hapart : ∀ rest ∈ [[], [';']], Apart rest := by
    simp only [List.forall_mem_cons]
    exact ⟨apart_nil, apart_cons (by decide) [], nofun⟩
  exact h.segments_append (hapart rest hrest)

end Segment

/-- The digits of a number are one token, of the number without its sign. -/
theorem Decimal.alone_unsignedChars (a : Decimal) :
    Segment.Alone (.number a.abs) (String.ofList a.unsignedChars).toList := by
  rw [String.toList_ofList]
  exact .of_form (a.form_unsignedChars [])

theorem Token.alone_of_mem_keywords {text : String} {kind : Token.Kind}
    (h : (text, kind) ∈ Token.keywords) : Segment.Alone kind text.toList := by
  have hmem : (String.ofList text.toList, kind) ∈ Token.keywords := by
    rwa [String.ofList_toList]
  exact .of_form (.keyword hmem [])

theorem alone_quoted {s : String} (h : '"' ∉ s.toList) :
    Segment.Alone (.string s) ("\"" ++ s ++ "\"").toList :=
  .of_form (form_quoted h [])

/-! ## Reading it -/

theorem item?_token (line : Nat) (kind : Token.Kind) (source : String) :
    Segment.item? line ⟨.token kind, source.toList⟩ = some (.ok ⟨⟨source, line⟩, kind⟩) := by
  simp only [Segment.item?, String.ofList_toList]

section

variable {kind : Token.Kind} {source : String} (h : Segment.Alone kind source.toList)

include h

theorem scan_of_alone : scan source
    = [.ok ⟨⟨source, 1⟩, kind⟩, .ok (Token.eof (1 + newlines source.toList))] := by
  have hsegments := h [] (by simp)
  rw [List.append_nil, segments_nil] at hsegments
  rw [scan, hsegments, itemsFrom, item?_token]
  rfl

theorem itemsFrom_of_alone (line : Nat) : itemsFrom line (segments (source.toList ++ [';']))
    = [.ok ⟨⟨source, line⟩, kind⟩, .ok ⟨⟨";", line + newlines source.toList⟩, .semicolon⟩,
      .ok (Token.eof (line + newlines source.toList))] := by
  have hsemicolon : Token.singleKind? ';' = some .semicolon := rfl
  rw [h [';'] (by simp), segments_cons, Segment.next_of_single [] hsemicolon, segments_nil,
    itemsFrom, item?_token]
  rfl

variable {l : Literal} (hl : l.kind = kind)

include hl

/-- A literal in front of a semicolon is an expression statement. -/
theorem checkSource_of_alone : checkSource (source ++ ";") = .ok [.expression (.literal l)] := by
  have hscan : scan (source ++ ";") = itemsFrom 1 (segments (source.toList ++ [';'])) := by
    rw [scan, String.toList_append]
    rfl
  subst hl
  rw [checkSource_eq_ok_iff, hscan, itemsFrom_of_alone h]
  cases l with
  | number | string | nil => exact ⟨rfl, rfl⟩
  | bool b => cases b <;> exact ⟨rfl, rfl⟩

/-- So is a literal with a minus sign. -/
theorem checkSource_minus_of_alone : checkSource ("-" ++ source ++ ";")
    = .ok [.expression (.unary .negate ⟨"-", 1⟩ (.literal l))] := by
  have hscan : scan ("-" ++ source ++ ";")
      = .ok ⟨⟨"-", 1⟩, .minus⟩ :: itemsFrom 1 (segments (source.toList ++ [';'])) := by
    have hchars : ("-" ++ source ++ ";").toList = '-' :: (source.toList ++ [';']) := by
      rw [String.toList_append, String.toList_append]
      rfl
    have hminus : Token.singleKind? '-' = some .minus := rfl
    rw [scan, hchars, segments_cons, Segment.next_of_single _ hminus]
    rfl
  subst hl
  rw [checkSource_eq_ok_iff, hscan, itemsFrom_of_alone h]
  cases l with
  | number | string | nil => exact ⟨rfl, rfl⟩
  | bool b => cases b <;> exact ⟨rfl, rfl⟩

end

/-! ## Values -/

/-- The text, with a semicolon after it, is one expression statement, of a literal or of a number
literal with a minus sign, and wherever it is evaluated, its value is equal to `v`. -/
def ReadsBack (source : String) (v : Value) : Prop :=
  ∃ e : Expr, checkSource (source ++ ";") = .ok [.expression e]
    ∧ ((∃ l, e = .literal l) ∨ ∃ sign n, e = .unary .negate sign (.literal (.number n)))
    ∧ ∀ frame s, ∃ w, e.eval frame s = .ok w s ∧ w.Same v

theorem readsBack_of_alone {source : String} {l : Literal}
    (h : Segment.Alone l.kind source.toList) : ReadsBack source l.value :=
  ⟨.literal l, checkSource_of_alone h rfl, .inl ⟨l, rfl⟩, fun _ _ => ⟨l.value, rfl, .refl _⟩⟩

/-- The words for truth values and nil read back. -/
theorem word_reads_back {word : String} {l : Literal} (h : (word, l.kind) ∈ Token.keywords) :
    scan word = [.ok ⟨⟨word, 1⟩, l.kind⟩, .ok (Token.eof 1)] ∧ ReadsBack word l.value := by
  have halone := Token.alone_of_mem_keywords h
  have hlines : ∀ m ∈ Token.keywords, newlines m.1.toList = 0 := by decide
  have hscan := scan_of_alone halone
  rw [hlines _ h] at hscan
  exact ⟨hscan, readsBack_of_alone halone⟩

/-- A string without quotes in it reads back from between quotes. -/
theorem quoted_reads_back {s : String} (h : '"' ∉ s.toList) :
    scan ("\"" ++ s ++ "\"") = [.ok ⟨⟨"\"" ++ s ++ "\"", 1⟩, .string s⟩,
      .ok (Token.eof (1 + newlines s.toList))]
    ∧ ReadsBack ("\"" ++ s ++ "\"") (.string s) := by
  have halone : Segment.Alone (Literal.string s).kind ("\"" ++ s ++ "\"").toList := alone_quoted h
  have hlines : newlines ("\"" ++ s ++ "\"").toList = newlines s.toList := by
    simp [newlines]
  have hscan := scan_of_alone halone
  rw [hlines] at hscan
  exact ⟨hscan, readsBack_of_alone halone⟩

namespace Decimal

variable (n : Decimal)

theorem negative_normalize_iff : n.normalize.negative = true ↔ n.toRat < 0 := by
  rw [toRat_lt_zero_iff]
  simp [normalize]

/-- **A number that is not negative is shown as one token.** -/
theorem scan_text (h : 0 ≤ n.toRat) :
    scan n.text = [.ok ⟨⟨n.text, 1⟩, .number n.normalize.abs⟩, .ok (Token.eof 1)] := by
  have hsign : n.normalize.negative = false := by
    rw [← Bool.not_eq_true, negative_normalize_iff]
    exact not_lt.2 h
  have hlines : newlines (String.ofList n.normalize.unsignedChars).toList = 0 := by
    refine List.count_eq_zero.2 fun hmem => ?_
    rw [String.toList_ofList, unsignedChars, List.mem_append] at hmem
    rcases hmem with hmem | hmem
    · exact absurd (n.normalize.isDigit_of_mem_wholeDigits _ hmem) (by decide)
    · split at hmem
      · cases hmem
      · rcases List.mem_cons.1 hmem with hpoint | hmem
        · cases hpoint
        · exact absurd (n.normalize.isDigit_of_mem_fractionDigits _ hmem) (by decide)
  rw [text, literalText_of_not_negative hsign, scan_of_alone n.normalize.alone_unsignedChars, hlines]

/-- **What is shown of a number reads back.** -/
theorem readsBack_text : ReadsBack n.text (.number n) := by
  have halone := n.normalize.alone_unsignedChars
  have hkind : (Literal.number n.normalize.abs).kind = .number n.normalize.abs := rfl
  have habs : n.normalize.abs.toRat = |n.toRat| := by rw [toRat_abs, toRat_normalize]
  cases hsign : n.normalize.negative with
  | true =>
    have hneg : n.toRat < 0 := n.negative_normalize_iff.1 hsign
    refine ⟨.unary .negate ⟨"-", 1⟩ (.literal (.number n.normalize.abs)), ?_, .inr ⟨_, _, rfl⟩,
      fun frame s => ⟨.number n.normalize.abs.neg, rfl, ?_⟩⟩
    · rw [text, literalText_of_negative hsign]
      exact checkSource_minus_of_alone halone hkind
    · rw [Value.same_number_iff, toRat_neg, habs, abs_of_neg hneg, neg_neg]
  | false =>
    have hnot : ¬ n.toRat < 0 := by
      rw [← negative_normalize_iff, hsign]
      exact Bool.false_ne_true
    refine ⟨.literal (.number n.normalize.abs), ?_, .inl ⟨_, rfl⟩,
      fun frame s => ⟨.number n.normalize.abs, rfl, ?_⟩⟩
    · rw [text, literalText_of_not_negative hsign]
      exact checkSource_of_alone halone hkind
    · rw [Value.same_number_iff, habs, abs_of_nonneg (not_lt.1 hnot)]

/-- **Numbers are equal if they are shown alike**, for what is shown reads back as both of them. -/
theorem equals_iff_text_eq {a b : Decimal} : a.equals b = true ↔ a.text = b.text := by
  refine ⟨fun h => text_congr (equals_iff.1 h), fun h => ?_⟩
  obtain ⟨e, hcheck, -, heval⟩ := a.readsBack_text
  obtain ⟨e', hcheck', -, heval'⟩ := b.readsBack_text
  obtain rfl : e = e' := by
    rw [h, hcheck'] at hcheck
    cases hcheck
    rfl
  obtain ⟨w, hw, ha⟩ := heval 0 Store.initial
  obtain ⟨w', hw', hb⟩ := heval' 0 Store.initial
  obtain rfl : w = w' := by
    rw [hw] at hw'
    cases hw'
    rfl
  exact ha.symm.trans hb

end Decimal

/-- **Printed values read back.** Whatever number is bound or computed, its mantissa and scale are in
range, it is printed in plain notation, never as a zero with a sign, and the text is one token unless
there is a minus sign; it reads back. So do the words for truth values and nil, and so does a string
that has no quote in it, between quotes. Numbers are equal if and only if the same is printed of
them. -/
theorem Value.display_reads_back :
    (∀ n : Decimal, n.mantissa ≤ 2 ^ 96 - 1 ∧ n.scale ≤ 28
      ∧ Decimal.IsPlain (number n).display.toList ∧ (number n).display ≠ "-0"
      ∧ (0 ≤ n.toRat → ∃ a, scan (number n).display
        = [.ok ⟨⟨(number n).display, 1⟩, .number a⟩, .ok (Token.eof 1)])
      ∧ ReadsBack (number n).display (number n))
    ∧ (∀ v ∈ [bool true, bool false, nil],
      (∃ kind, scan v.display = [.ok ⟨⟨v.display, 1⟩, kind⟩, .ok (Token.eof 1)])
      ∧ ReadsBack v.display v)
    ∧ (∀ s : String, '"' ∉ s.toList →
      scan ("\"" ++ s ++ "\"") = [.ok ⟨⟨"\"" ++ s ++ "\"", 1⟩, .string s⟩,
        .ok (Token.eof (1 + newlines s.toList))]
      ∧ ReadsBack ("\"" ++ s ++ "\"") (string s))
    ∧ ∀ a b : Decimal,
      (number a).equals (number b) = true ↔ (number a).display = (number b).display := by
  refine ⟨fun n => ⟨n.mantissa_le, n.scale_le, n.isPlain_text, n.text_ne_minusZero,
    fun h => ⟨_, n.scan_text h⟩, n.readsBack_text⟩, fun v hv => ?_, fun s hs => quoted_reads_back hs,
    fun a b => Decimal.equals_iff_text_eq⟩
  have hword : ∀ (word : String) (l : Literal), (word, l.kind) ∈ Token.keywords →
      (∃ kind, scan word = [.ok ⟨⟨word, 1⟩, kind⟩, .ok (Token.eof 1)]) ∧ ReadsBack word l.value :=
    fun word l h => ⟨⟨l.kind, (word_reads_back h).1⟩, (word_reads_back h).2⟩
  simp only [List.mem_cons, List.not_mem_nil, or_false] at hv
  rcases hv with rfl | rfl | rfl
  · exact hword "true" (.bool true) (by decide)
  · exact hword "false" (.bool false) (by decide)
  · exact hword "nil" .nil (by decide)

/-- Numbers with digits and a sign that are not printed, and a string of two lines. -/
theorem Value.display_reads_back_halves :
    let minusHalf : Decimal := ⟨true, 500, 3, by decide, by decide⟩
    let minusZero : Decimal := ⟨true, 0, 1, by decide, by decide⟩
    (number minusHalf).display = "-0.5" ∧ ReadsBack "-0.5" (number minusHalf)
    ∧ 0 ≤ minusZero.toRat
    ∧ (∃ a, scan (number minusZero).display
      = [.ok ⟨⟨(number minusZero).display, 1⟩, .number a⟩, .ok (Token.eof 1)])
    ∧ (bool true ∈ [bool true, bool false, nil] ∧ ReadsBack "true" (bool true))
    ∧ '"' ∉ "a\nb".toList ∧ ReadsBack ("\"" ++ "a\nb" ++ "\"") (string "a\nb")
    ∧ ((number minusHalf).equals (number minusZero) = true
      ↔ (number minusHalf).display = (number minusZero).display) := by
  intro minusHalf minusZero
  have hzero : 0 ≤ minusZero.toRat := not_lt.1 (mt Decimal.toRat_lt_zero_iff.1 (by decide))
  have hquote : '"' ∉ "a\nb".toList := by decide
  have hdisplay : (number minusHalf).display = "-0.5" := by decide
  obtain ⟨hnumbers, hwords, hstrings, hequal⟩ := display_reads_back
  obtain ⟨-, -, -, -, -, hhalf⟩ := hnumbers minusHalf
  obtain ⟨-, -, -, -, hscan, -⟩ := hnumbers minusZero
  rw [hdisplay] at hhalf
  exact ⟨hdisplay, hhalf, hzero, hscan hzero, ⟨by simp, (hwords (bool true) (by simp)).2⟩, hquote,
    (hstrings "a\nb" hquote).2, hequal minusHalf minusZero⟩

end Lox
