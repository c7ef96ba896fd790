import Lox.Decimal.Text
import Lox.Token.Basic

/-!
# Lox — segmentation of a source text

A source text falls into consecutive segments: blanks, comments, lexemes and faults. Each
segment is the longest that starts where it does, and together they are the whole text.

* **`Segment.next`** — the first segment of a non-empty text and what follows it.
* **`Segment.text_next_append`** — nothing is lost: that segment and the rest are the text.
* **`segments`** — all segments of a text.
* **`flatMap_text_segments`** — the segments' texts, one after the other, are the text.
-/

namespace Lox

/-! ## Characters -/

/-- Space, carriage return, tab and newline separate tokens and mean nothing. -/
def isBlank (c : Char) : Bool := c == ' ' || c == '\r' || c == '\t' || c == '\n'

/-- A word starts with an ASCII letter or an underscore. -/
def isWordStart (c : Char) : Bool := c.isAlpha || c == '_'

/-- A word goes on with ASCII letters, ASCII digits and underscores. -/
def isWordPart (c : Char) : Bool := c.isAlphanum || c == '_'

/-! ## Segments -/

/-- What can be wrong with a piece of source text. -/
inductive Fault where
  | unexpectedCharacter (c : Char)
  | unterminatedString
  | unterminatedComment
  | numberOutOfRange
deriving DecidableEq

/-- The wording of a fault. -/
def Fault.message : Fault → String
  | .unexpectedCharacter _ => "Unexpected character."
  | .unterminatedString => "Unterminated string."
  | .unterminatedComment => "Unterminated comment."
  | .numberOutOfRange => "Number literal out of range."

/-- What a segment of source text is. -/
inductive Segment.Content where
  | blank
  | lineComment
  | blockComment
  | token (kind : Token.Kind)
  | fault (fault : Fault)
deriving DecidableEq

/-- A piece of source text that belongs together. -/
structure Segment where
  content : Segment.Content
  text : List Char
deriving DecidableEq

namespace Segment

/-- The rest of a line comment, up to its newline, and what follows. -/
def line (cs : List Char) : Segment × List Char :=
  (⟨.lineComment, '/' :: '/' :: cs.takeWhile (· != '\n')⟩, cs.dropWhile (· != '\n'))

/-- The text up to the end of the block comments that are open, one more than `depth`, and
what follows. Comments nest: an opening inside a comment needs its own closing. -/
def closeComment? : (depth : Nat) → List Char → Option (List Char × List Char)
  | depth, '/' :: '*' :: cs =>
    (closeComment? (depth + 1) cs).map fun (text, rest) => ('/' :: '*' :: text, rest)
  | 0, '*' :: '/' :: cs => some (['*', '/'], cs)
  | depth + 1, '*' :: '/' :: cs =>
    (closeComment? depth cs).map fun (text, rest) => ('*' :: '/' :: text, rest)
  | depth, c :: cs => (closeComment? depth cs).map fun (text, rest) => (c :: text, rest)
  | _, [] => none

/-- The block comment whose opening was read, or a fault that takes the whole rest. -/
def block (cs : List Char) : Segment × List Char :=
  match closeComment? 0 cs with
  | some (text, rest) => (⟨.blockComment, '/' :: '*' :: text⟩, rest)
  | none => (⟨.fault .unterminatedComment, '/' :: '*' :: cs⟩, [])

/-- The segment that starts with a slash: a comment or the slash alone. -/
def slash : List Char → Segment × List Char
  | '/' :: cs => line cs
  | '*' :: cs => block cs
  | cs => (⟨.token .slash, ['/']⟩, cs)

/-- The string literal whose opening quote was read, or a fault that takes the whole rest. -/
def string (cs : List Char) : Segment × List Char :=
  let body := cs.takeWhile (· != '"')
  match cs.dropWhile (· != '"') with
  | [] => (⟨.fault .unterminatedString, '"' :: body⟩, [])
  | quote :: rest => (⟨.token (.string (String.ofList body)), '"' :: (body ++ [quote])⟩, rest)

/-- The content of a number literal: its value, if it has one. -/
def numberContent (whole fraction : List Char) : Content :=
  match Decimal.ofDigits? whole fraction with
  | some value => .token (.number value)
  | none => .fault .numberOutOfRange

/-- The number literal at the start of the text: digits, and a point with more digits. A
point that no digit follows is not part of it. -/
def number (cs : List Char) : Segment × List Char :=
  let whole := cs.takeWhile Char.isDigit
  match cs.dropWhile Char.isDigit with
  | '.' :: d :: rest =>
    if d.isDigit then
      let fraction := d :: rest.takeWhile Char.isDigit
      (⟨numberContent whole fraction, whole ++ '.' :: fraction⟩, rest.dropWhile Char.isDigit)
    else
      (⟨numberContent whole [], whole⟩, '.' :: d :: rest)
  | rest => (⟨numberContent whole [], whole⟩, rest)

/-- The word at the start of the text: reserved, or a name. -/
def word (cs : List Char) : Segment × List Char :=
  let text := cs.takeWhile isWordPart
  (⟨.token (Token.wordKind (String.ofList text)), text⟩, cs.dropWhile isWordPart)

/-- The operator or punctuation mark at the start of the text, or a fault of one
character. -/
def mark (c : Char) (cs : List Char) : Segment × List Char :=
  match Token.singleKind? c, Token.extendableKinds? c with
  | some kind, _ => (⟨.token kind, [c]⟩, cs)
  | none, some (alone, extended) =>
    match cs with
    | '=' :: rest => (⟨.token extended, [c, '=']⟩, rest)
    | _ => (⟨.token alone, [c]⟩, cs)
  | none, none => (⟨.fault (.unexpectedCharacter c), [c]⟩, cs)

/-- The first segment of the text `c :: cs`, and the text after it. -/
def next (c : Char) (cs : List Char) : Segment × List Char :=
  if isBlank c then (⟨.blank, [c]⟩, cs)
  else if c = '/' then slash cs
  else if c = '"' then string cs
  else if c.isDigit then number (c :: cs)
  else if isWordStart c then word (c :: cs)
  else mark c cs

/-! ## Nothing is lost -/

theorem append_closeComment? {depth : Nat} {cs text rest : List Char}
    (h : closeComment? depth cs = some (text, rest)) : text ++ rest = cs := by
  fun_induction closeComment? depth cs generalizing text rest with
  | case1 depth cs ih | case3 depth cs ih =>
    obtain ⟨⟨text', rest'⟩, h', hp⟩ := Option.map_eq_some_iff.1 h
    cases hp
    simp [ih h']
  | case2 cs => cases h; rfl
  | case4 depth c cs _ _ _ ih =>
    obtain ⟨⟨text', rest'⟩, h', hp⟩ := Option.map_eq_some_iff.1 h
    cases hp
    simp [ih h']
  | case5 => cases h

theorem append_line (cs : List Char) : (line cs).1.text ++ (line cs).2 = '/' :: '/' :: cs := by
  simp [line]

theorem append_block (cs : List Char) :
    (block cs).1.text ++ (block cs).2 = '/' :: '*' :: cs := by
  unfold block
  split
  · next text rest h => simp [append_closeComment? h]
  · simp

theorem append_slash (cs : List Char) : (slash cs).1.text ++ (slash cs).2 = '/' :: cs := by
  unfold slash
  split
  · exact append_line _
  · exact append_block _
  · rfl

theorem append_string (cs : List Char) : (string cs).1.text ++ (string cs).2 = '"' :: cs := by
  have h : cs.takeWhile (· != '"') ++ cs.dropWhile (· != '"') = cs :=
    List.takeWhile_append_dropWhile
  unfold string
  split
  · next hd => rw [hd, List.append_nil] at h; simp [h]
  · next hd => rw [hd] at h; simp [h]

theorem append_number (cs : List Char) : (number cs).1.text ++ (number cs).2 = cs := by
  have h : cs.takeWhile Char.isDigit ++ cs.dropWhile Char.isDigit = cs :=
    List.takeWhile_append_dropWhile
  unfold number
  split
  · next d rest hd =>
    rw [hd] at h
    split
    · simpa using h
    · exact h
  · exact h

theorem append_word (cs : List Char) : (word cs).1.text ++ (word cs).2 = cs :=
  List.takeWhile_append_dropWhile

theorem append_mark (c : Char) (cs : List Char) :
    (mark c cs).1.text ++ (mark c cs).2 = c :: cs := by
  unfold mark
  split
  · rfl
  · split <;> rfl
  · rfl

/-- The first segment and the text after it are the whole text. -/
theorem text_next_append (c : Char) (cs : List Char) :
    (next c cs).1.text ++ (next c cs).2 = c :: cs := by
  unfold next
  split
  · rfl
  · split
    · next h => rw [h]; exact append_slash cs
    · split
      · next h => rw [h]; exact append_string cs
      · split
        · exact append_number _
        · split
          · exact append_word _
          · exact append_mark c cs

/-! ## No segment is empty -/

theorem text_number_ne_nil {c : Char} (h : c.isDigit) (cs : List Char) :
    (number (c :: cs)).1.text ≠ [] := by
  unfold number
  split
  · split <;> simp [h]
  · simp [h]

/-- A segment holds at least the character at which it starts. -/
theorem text_next_ne_nil (c : Char) (cs : List Char) : (next c cs).1.text ≠ [] := by
  unfold next
  split
  · simp
  · split
    · unfold slash
      split
      · simp [line]
      · unfold block
        split <;> simp
      · simp
    · split
      · unfold string
        split <;> simp
      · split
        · next h => exact text_number_ne_nil h cs
        · split
          · next h =>
            have hp : isWordPart c := by
              simp only [isWordStart, isWordPart, Char.isAlphanum, Bool.or_eq_true] at h ⊢
              exact h.imp_left Or.inl
            simp [word, hp]
          · unfold mark
            split
            · simp
            · split <;> simp
            · simp

/-- So the text after a segment is shorter than the text. -/
theorem length_next_lt (c : Char) (cs : List Char) :
    (next c cs).2.length < (c :: cs).length := by
  have h := congrArg List.length (text_next_append c cs)
  have hp := List.length_pos_iff.2 (text_next_ne_nil c cs)
  rw [List.length_append] at h
  omega

end Segment

/-! ## The whole text -/

/-- The segments of a text, in order. -/
def segments : List Char → List Segment
  | [] => []
  | c :: cs => (Segment.next c cs).1 :: segments (Segment.next c cs).2
termination_by cs => cs.length
decreasing_by exact Segment.length_next_lt c cs

theorem segments_nil : segments [] = [] := by rw [segments]

theorem segments_cons (c : Char) (cs : List Char) :
    segments (c :: cs) = (Segment.next c cs).1 :: segments (Segment.next c cs).2 := by
  rw [segments]

/-- The texts of the segments, one after the other, are the text. -/
theorem flatMap_text_segments (cs : List Char) : (segments cs).flatMap (·.text) = cs := by
  fun_induction segments cs with
  | case1 => rfl
  | case2 c cs ih => rw [List.flatMap_cons, ih, Segment.text_next_append]

end Lox
