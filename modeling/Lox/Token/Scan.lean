import Lox.Token.Segment

/-!
# Lox — scanning

Scanning turns a source text into items, each a token or an error, in source order and with
the line on which its segment starts. Blanks and comments give no item. The last item is the
end of the source, on the line that the text ends on.

* **`itemsFrom`** — the items of a list of segments that starts on a given line.
* **`scan`** — the items of a source text.
* **`tokensOf`**, **`errorsOf`** — the items of either sort.
-/

namespace Lox

/-- A fault and the line of the segment that has it. -/
structure ScanError where
  cause : Fault
  line : Nat
deriving DecidableEq

namespace ScanError

/-- A fault is reported for its line, without a place on it. -/
def diagnostic (e : ScanError) : Diagnostic := ⟨e.line, "", e.cause.message⟩

/-- A scan error as it is shown. -/
def text (e : ScanError) : String := e.diagnostic.text

end ScanError

/-- What scanning yields: a token or an error. -/
abbrev ScanItem := Except ScanError Token

/-- The item of a segment that starts on the line `line`, unless it is a blank or a comment. -/
def Segment.item? (line : Nat) (s : Segment) : Option ScanItem :=
  match s.content with
  | .token kind => some (.ok ⟨⟨String.ofList s.text, line⟩, kind⟩)
  | .fault cause => some (.error ⟨cause, line⟩)
  | .blank | .lineComment | .blockComment => none

/-- The number of line ends in a text. -/
def newlines (cs : List Char) : Nat := cs.count '\n'

/-- The items of the segments from the line `line` on, and the end of the source. -/
def itemsFrom (line : Nat) : List Segment → List ScanItem
  | [] => [.ok (Token.eof line)]
  | s :: rest => (s.item? line).toList ++ itemsFrom (line + newlines s.text) rest

/-- The items of a source text. -/
def scan (source : String) : List ScanItem := itemsFrom 1 (segments source.toList)

/-- The first `n` answers of a scanner that is asked again and again: the items, and nothing
once they are used up. -/
def scanTake (source : String) (n : Nat) : List (Option ScanItem) :=
  let items := scan source
  (List.range n).map fun i => items[i]?

/-- The tokens among the items, in order. -/
def tokensOf (items : List ScanItem) : List Token :=
  items.filterMap fun item => item.toOption

/-- The errors among the items, in order. -/
def errorsOf (items : List ScanItem) : List ScanError :=
  items.filterMap fun item =>
    match item with
    | .ok _ => none
    | .error e => some e

end Lox
