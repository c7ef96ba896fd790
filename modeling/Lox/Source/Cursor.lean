/-!
# Lox — a cursor over source text

A cursor stands between two characters of a source text and knows where: the line, counted
from 1, and the offset in bytes of the text's UTF-8 encoding. It looks at most two
characters ahead and moves forward only.

* **`Cursor.consumed`** — the characters behind the cursor; with `rest` they are the source.
* **`Cursor.next`**, **`Cursor.nextIf`**, **`Cursor.eatWhile`** — moving.
* **`Cursor.sliceFrom?`** — the text between an earlier byte offset and the cursor.
-/

namespace Lox

/-- A position in a source text. -/
structure Cursor where
  source : List Char
  rest : List Char
  line : Nat
  offset : Nat
deriving DecidableEq

namespace Cursor

/-- The cursor in front of the first character. -/
def ofString (source : String) : Cursor := ⟨source.toList, source.toList, 1, 0⟩

/-- The characters behind the cursor. -/
def consumed (c : Cursor) : List Char := c.source.take (c.source.length - c.rest.length)

/-! ## Looking ahead -/

/-- The character after the cursor, if any. -/
def peek (c : Cursor) : Option Char := c.rest.head?

/-- The character after that, if any. -/
def peekNext (c : Cursor) : Option Char := c.rest.tail.head?

/-! ## Moving -/

/-- The line reached by moving over a character on the line `line`. -/
def lineAfter (line : Nat) (ch : Char) : Nat := if ch = '\n' then line + 1 else line

/-- The cursor with the rest `rest`, after it has moved over `ch`. -/
def advance (c : Cursor) (ch : Char) (rest : List Char) : Cursor :=
  { c with rest := rest, line := lineAfter c.line ch, offset := c.offset + ch.utf8Size }

/-- Moves over one character and answers it; at the end, nothing moves. -/
def next (c : Cursor) : Option Char × Cursor :=
  match c.rest with
  | [] => (none, c)
  | ch :: rest => (some ch, c.advance ch rest)

/-- Moves over the next character if it is `expected`, and answers whether it was. -/
def nextIf (c : Cursor) (expected : Char) : Bool × Cursor :=
  if c.peek = some expected then (true, c.next.2) else (false, c)

/-- Moves over the characters of `rest` while `p` holds, starting `eaten` characters later
than it began to count. -/
def eatFrom (p : Char → Bool) (eaten : Nat) : List Char → Cursor → Nat × Cursor
  | [], c => (eaten, c)
  | ch :: rest, c => if p ch then eatFrom p (eaten + 1) rest (c.advance ch rest) else (eaten, c)

/-- Moves over characters while `p` holds, and answers how many there were. -/
def eatWhile (c : Cursor) (p : Char → Bool) : Nat × Cursor := eatFrom p 0 c.rest c

/-! ## Slices -/

/-- The text without its first `n` bytes, if a character begins or the text ends there. -/
def dropBytes? : Nat → List Char → Option (List Char)
  | 0, cs => some cs
  | _ + 1, [] => none
  | n + 1, ch :: cs => if ch.utf8Size ≤ n + 1 then dropBytes? (n + 1 - ch.utf8Size) cs else none

/-- The text from byte `start` to the cursor. There is none if `start` lies beyond the cursor
or inside a character. -/
def sliceFrom? (c : Cursor) (start : Nat) : Option String :=
  (dropBytes? start c.consumed).map String.ofList

/-! ## Description -/

/-- A control character by its number, in hexadecimal between braces. -/
def codeEscape (ch : Char) : List Char :=
  ['\\', 'u', '\x7b'] ++ Nat.toDigits 16 ch.toNat ++ ['\x7d']

/-- A character as it stands in a quoted description. -/
def escape (ch : Char) : List Char :=
  if ch = '"' then ['\\', '"']
  else if ch = '\\' then ['\\', '\\']
  else if ch = '\n' then ['\\', 'n']
  else if ch = '\t' then ['\\', 't']
  else if ch = '\r' then ['\\', 'r']
  else if ch.toNat = 0 then ['\\', '0']
  else if ch.toNat < 32 ∨ ch.toNat = 127 then codeEscape ch
  else [ch]

/-- The rest of the source, quoted. -/
def quotedRest (c : Cursor) : String := String.ofList (['"'] ++ c.rest.flatMap escape ++ ['"'])

/-- The position on one line. -/
def summary (c : Cursor) : String :=
  "Cursor \x7b line: Line(" ++ toString c.line ++ "), offset: " ++ toString c.offset ++ " \x7d"

/-- The position and the rest of the source, a line for each part. -/
def outline (c : Cursor) : String :=
  "Cursor \x7b\n    line: Line(\n        " ++ toString c.line ++ ",\n    ),\n    offset: "
    ++ toString c.offset ++ ",\n    rest: " ++ c.quotedRest ++ ",\n\x7d"

end Cursor

end Lox
