import Lox.Command.Run
import Lox.Source.Cursor
import Lox.Syntax.Tokens
import Lox.Main
import Lox.Proofs.Grammar.Derivation
import Lox.Proofs.Grammar.Unique
import Lox.Proofs.Parse.Reading
import Lox.Proofs.Grammar.Derives
import Lox.Proofs.Parse.Viable
import Lox.Proofs.Grammar.Strict
import Lox.Proofs.Parse.Acceptance
import Lox.Proofs.Parse.Local
import Lox.Proofs.Parse.Recovery
import Lox.Proofs.Relabel.Parse
import Lox.Proofs.Scan.Joint
import Lox.Proofs.Relabel.Eval
import Lox.Proofs.Session.Concat
import Lox.Proofs.Store.Access
import Lox.Proofs.Store.Sees
import Lox.Proofs.Eval.Lookup
import Lox.Proofs.Eval.Changes
import Lox.Proofs.Grammar.Normal
import Lox.Proofs.Parse.Roundtrip
import Lox.Proofs.Grammar.Assignments
import Lox.Proofs.Parse.Earliest
import Lox.Proofs.Scan.Comment
import Lox.Proofs.Scan.Longest
import Lox.Proofs.Scan.Prefix
import Lox.Proofs.Source.Cursor
import Lox.Proofs.Scan.Nesting
import Lox.Proofs.Eval.Code
import Lox.Proofs.Store.Forest
import Lox.Proofs.Decimal.Value
import Lox.Proofs.Eval.Equality
import Lox.Proofs.Store.Same
import Lox.Proofs.Eval.Interchange
import Lox.Proofs.Decimal.Digits
import Lox.Proofs.Session.ReadBack
import Lox.Proofs.Eval.Scope
import Lox.Proofs.Scan.Layout
import Lox.Proofs.Relabel.Provenance
import Lox.Proofs.Relabel.Numbered
import Lox.Proofs.Session.Lines
import Lox.Proofs.Eval.Truncation
import Lox.Proofs.Session.Truncation
import Lox.Proofs.Session.Refusal
import Lox.Proofs.Session.Echo
import Lox.Proofs.Parse.Kept
import Lox.Proofs.Eval.Dispatch
import Lox.Proofs.Eval.Output
import Lox.Proofs.Session.Ended
import Lox.Proofs.Session.Turn
import Lox.Proofs.Command.Lines
import Lox.Proofs.Command.Transcript
import Lox.Proofs.Command.Exit
import Lox.Proofs.Decimal.Rounding
import Lox.Proofs.Scan.Number
import Lox.Proofs.Decimal.Sum
import Lox.Proofs.Eval.Arithmetic
import Lox.Proofs.Parse.Rest
import Lox.Proofs.Parse.Blame
import Lox.Proofs.Descent.Basic
import Lox.Proofs.Descent.Takes
import Lox.Proofs.Descent.Expression
import Lox.Proofs.Descent.Statement
import Lox.Proofs.Descent.Termination
import Lox.Proofs.Parse.Unclosed
import Lox.Proofs.Parse.Lost
import Lox.Proofs.Eval.Comparison
import Lox.Proofs.Parse.Origin
import Lox.Proofs.Scan.Written
import Lox.Proofs.Parse.Shown
import Lox.Proofs.Session.Shown
import Lox.Proofs.Session.Blamed
