/-!
# Lox — diagnostics

What is reported about a source text: a line, the place on it, and a message. Diagnostics
are shown one per line of text and sorted by the line they speak of; the sort is stable, so
reports about one line stay in the order in which they were made.
-/

namespace Lox

/-- How a report names the place of a lexeme: a lexeme without text stands for the end. -/
def locationOf (text : String) : String :=
  if text = "" then " at end" else " at '" ++ text ++ "'"

/-- One report about a source text. -/
structure Diagnostic where
  line : Nat
  location : String
  message : String
deriving DecidableEq

namespace Diagnostic

/-- The head of a report, up to the message. -/
def heading (line : Nat) (location : String) : String :=
  "[line " ++ toString line ++ "] Error" ++ location ++ ": "

/-- A report as it is shown. -/
def text (d : Diagnostic) : String := heading d.line d.location ++ d.message

/-- Whether the first report goes before the second, or may. -/
def lineLe (d e : Diagnostic) : Bool := decide (d.line ≤ e.line)

/-- Reports in the order of their lines. -/
def sortByLine (ds : List Diagnostic) : List Diagnostic := ds.mergeSort lineLe

/-- Reports as they are shown together. -/
def textOfAll (ds : List Diagnostic) : String := "\n".intercalate (ds.map text)

end Diagnostic

end Lox
