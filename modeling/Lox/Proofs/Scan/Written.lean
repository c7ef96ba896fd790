import Lox.Proofs.Decimal.Digits
import Lox.Proofs.Scan.Boundary
import Lox.Syntax.Display

/-!
# Lox — how tokens are written

What the kind of a scanned token says about its text. Operators, punctuation marks and reserved words
have one spelling each. Numbers are written without a sign and strings without a quote in them, so a
literal that was scanned is shown as it might have been written.

* **`Token.Written`** — a token with a text that the lexical grammar has for its kind.
* **`Token.Written.text_eq`** — the text, where the kind has one spelling.
* **`Literal.form_display`** — what is shown of a scanned literal.
-/

namespace Lox

/-! ## Spelling -/

/-- The text of the tokens of a kind, if they all have the same. -/
def Token.Kind.spelling? : Token.Kind → Option String
  | .leftParen => some "("
  | .rightParen => some ")"
  | .leftBrace => some "\x7b"
  | .rightBrace => some "\x7d"
  | .comma => some ","
  | .dot => some "."
  | .minus => some "-"
  | .plus => some "+"
  | .semicolon => some ";"
  | .slash => some "/"
  | .star => some "*"
  | .bang => some "!"
  | .bangEqual => some "!="
  | .equal => some "="
  | .equalEqual => some "=="
  | .greater => some ">"
  | .greaterEqual => some ">="
  | .less => some "<"
  | .lessEqual => some "<="
  | .identifier | .string _ | .number _ | .eof => none
  | .andWord => some "and"
  | .classWord => some "class"
  | .elseWord => some "else"
  | .falseWord => some "false"
  | .forWord => some "for"
  | .funWord => some "fun"
  | .ifWord => some "if"
  | .nilWord => some "nil"
  | .orWord => some "or"
  | .printWord => some "print"
  | .returnWord => some "return"
  | .superWord => some "super"
  | .thisWord => some "this"
  | .trueWord => some "true"
  | .varWord => some "var"
  | .whileWord => some "while"

theorem Token.spelling?_of_mem_keywords {text : String} {kind : Token.Kind}
    (h : (text, kind) ∈ Token.keywords) : kind.spelling? = some text := by
  have hall : ∀ entry ∈ Token.keywords, entry.2.spelling? = some entry.1 := by decide
  exact hall _ h

theorem Token.spelling?_of_singleKind? {c : Char} {kind : Token.Kind}
    (h : Token.singleKind? c = some kind) : kind.spelling? = some (String.ofList [c]) := by
  unfold Token.singleKind? at h
  split at h <;> cases h <;> rfl

theorem Token.spelling?_of_extendableKinds? {c : Char} {alone extended : Token.Kind}
    (h : Token.extendableKinds? c = some (alone, extended)) :
    alone.spelling? = some (String.ofList [c])
      ∧ extended.spelling? = some (String.ofList [c, '=']) := by
  unfold Token.extendableKinds? at h
  split at h <;> cases h <;> exact ⟨rfl, rfl⟩

namespace Segment

variable {kind : Token.Kind} {text rest : List Char}

/-- Apart from names and literals, a token is spelled as its kind asks for. Numbers have digits only
and strings no quote. -/
theorem Form.token_cases (h : Form (.token kind) text rest) :
    kind.spelling? = some (String.ofList text)
    ∨ kind = .identifier
    ∨ (∃ whole fraction n, Decimal.ofDigits? whole fraction = some n ∧ kind = .number n)
    ∨ ∃ value : String, '"' ∉ value.toList ∧ kind = .string value := by
  generalize hcontent : Content.token kind = content at h
  cases h with
  | slash => cases hcontent; exact .inl rfl
  | single h => cases hcontent; exact .inl (Token.spelling?_of_singleKind? h)
  | alone h => cases hcontent; exact .inl (Token.spelling?_of_extendableKinds? h).1
  | extended h => cases hcontent; exact .inl (Token.spelling?_of_extendableKinds? h).2
  | keyword h => cases hcontent; exact .inl (Token.spelling?_of_mem_keywords h)
  | name => cases hcontent; exact .inr (.inl rfl)
  | whole | fraction =>
    unfold numberContent at hcontent
    split at hcontent
    · next n hn => cases hcontent; exact .inr (.inr (.inl ⟨_, _, n, hn, rfl⟩))
    · cases hcontent
  | @string body h =>
    cases hcontent
    exact .inr (.inr (.inr ⟨_, by rwa [String.toList_ofList], rfl⟩))
  | blank | lineComment | blockComment | openComment | openString | unexpected => cases hcontent

end Segment

/-! ## Scanned tokens -/

namespace Token

/-- Whether the lexical grammar has the text of the token for its kind. -/
def Written (t : Token) : Prop := ∃ rest, Segment.Form (.token t.kind) t.text.toList rest

/-- A scanned token is written as its kind asks for, unless it is the end of the source. -/
theorem written_of_mem_scan {source : String} {t : Token} (h : .ok t ∈ scan source)
    (heof : t.kind ≠ .eof) : t.Written := by
  rw [scan_eq_concat] at h
  rcases List.mem_append.1 h with h | h
  · obtain ⟨s, hs, hcontent, htext⟩ := exists_segment_of_mem_dropLast h
    obtain ⟨rest, hform⟩ := (Segmentation.of_segments source.toList).exists_form s hs
    rw [hcontent, htext] at hform
    exact ⟨rest, hform⟩
  · cases List.mem_singleton.1 h
    exact absurd rfl heof

theorem Written.text_eq {t : Token} (h : t.Written) {spelling : String}
    (hspelling : t.kind.spelling? = some spelling) : t.text = spelling := by
  obtain ⟨rest, hform⟩ := h
  rcases hform.token_cases with hself | hname | ⟨whole, fraction, n, -, hnumber⟩
      | ⟨value, -, hstring⟩
  · rw [hspelling, String.ofList_toList] at hself
    exact (Option.some.inj hself).symm
  · rw [hname] at hspelling; cases hspelling
  · rw [hnumber] at hspelling; cases hspelling
  · rw [hstring] at hspelling; cases hspelling

end Token

/-! ## Literals -/

namespace Decimal

theorem negative_of_ofDigits? {whole fraction : List Char} {n : Decimal}
    (h : ofDigits? whole fraction = some n) : n.negative = false := by
  unfold ofDigits? at h
  split at h <;> cases h
  rfl

/-- The digits of a number are one token, of the number without its sign. -/
theorem form_unsignedChars (a : Decimal) (rest : List Char) :
    Segment.Form (.token (.number a.abs)) a.unsignedChars rest := by
  have hcontent : Segment.numberContent a.wholeDigits a.fractionDigits
      = .token (.number a.abs) := by
    rw [Segment.numberContent, ofDigits?_digits]
  by_cases hs : a.scale = 0
  · rw [fractionDigits_eq_nil_iff.2 hs] at hcontent
    rw [unsignedChars, if_pos hs, List.append_nil, ← hcontent]
    exact .whole a.wholeDigits_ne_nil a.isDigit_of_mem_wholeDigits rest
  · have hne : a.fractionDigits ≠ [] := mt fractionDigits_eq_nil_iff.1 hs
    rw [unsignedChars, if_neg hs, ← hcontent]
    exact .fraction a.wholeDigits_ne_nil a.isDigit_of_mem_wholeDigits hne
      a.isDigit_of_mem_fractionDigits rest

end Decimal

theorem form_quoted {s : String} (h : '"' ∉ s.toList) (rest : List Char) :
    Segment.Form (.token (.string s)) ("\"" ++ s ++ "\"").toList rest := by
  have hchars : ("\"" ++ s ++ "\"").toList = '"' :: (s.toList ++ ['"']) := by
    rw [String.toList_append, String.toList_append]
    rfl
  have hform := Segment.Form.string h rest
  rwa [String.ofList_toList, ← hchars] at hform

/-- What is shown of a literal that was scanned is a token of the same kind. -/
theorem Literal.form_display {l : Literal} {text : Lexeme} (h : Token.Written ⟨text, l.kind⟩)
    (rest : List Char) : Segment.Form (.token l.kind) l.display.toList rest := by
  obtain ⟨after, hform⟩ := h
  cases l with
  | number n =>
    have hsign : n.negative = false := by
      rcases hform.token_cases with h | h | ⟨whole, fraction, n', hn, h⟩ | ⟨value, -, h⟩
        <;> cases h
      exact Decimal.negative_of_ofDigits? hn
    have habs : n.abs = n := by rw [Decimal.abs, ← hsign]
    have hdigits := n.form_unsignedChars rest
    rwa [habs, ← String.toList_ofList (l := n.unsignedChars),
      ← Decimal.literalText_of_not_negative hsign] at hdigits
  | string s =>
    have hquote : '"' ∉ s.toList := by
      rcases hform.token_cases with h | h | ⟨whole, fraction, n, -, h⟩ | ⟨value, hvalue, h⟩
        <;> cases h
      exact hvalue
    exact form_quoted hquote rest
  | bool b => cases b <;> exact .keyword (by decide) rest
  | nil => exact .keyword (by decide) rest

end Lox
