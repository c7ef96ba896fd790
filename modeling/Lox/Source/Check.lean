import Lox.Parse.Step
import Lox.Token.Scan

/-!
# Lox — checking source text

A source text is checked as a whole before anything in it is executed. All scan errors and
all syntax errors are reported together, sorted by line; on one line the scan errors come
first.

* **`parseSource`** — the statements and syntax errors of a source text.
* **`checkSource`** — the statements of a source text, or everything that is wrong with it.
-/

namespace Lox

/-- All reports about a source text, sorted by line. -/
def reports (scanErrors : List ScanError) (syntaxErrors : List SyntaxError) : List Diagnostic :=
  Diagnostic.sortByLine
    (scanErrors.map ScanError.diagnostic ++ syntaxErrors.map SyntaxError.diagnostic)

/-- The statements and syntax errors of a source text. Faulty pieces of the text are passed
over. -/
def parseSource (source : String) : Parsed := parse (tokensOf (scan source))

/-- The statements of a source text, if there is nothing to report about it. -/
def checkSource (source : String) : Except (List Diagnostic) (List Stmt) :=
  let items := scan source
  let parsed := parse (tokensOf items)
  match reports (errorsOf items) parsed.errors with
  | [] => .ok parsed.statements
  | ds => .error ds

end Lox
