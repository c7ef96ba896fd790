import Lox.Decimal.Basic
import Lox.Diagnostic

/-!
# Lox — tokens

A token is a lexeme, that is, a piece of text with the line it starts on, and a kind. The
kinds of string and number literals carry the value that the text denotes. The word kinds
beyond `nil`, `print`, `var` and the truth values are reserved: no statement uses them.
-/

namespace Lox

/-- A piece of source text and the line on which it starts. -/
structure Lexeme where
  text : String
  line : Nat
deriving DecidableEq

/-- How a report names the place of a lexeme. -/
def Lexeme.location (l : Lexeme) : String := locationOf l.text

/-- What a token is. -/
inductive Token.Kind where
  | leftParen | rightParen | leftBrace | rightBrace
  | comma | dot | minus | plus | semicolon | slash | star
  | bang | bangEqual | equal | equalEqual
  | greater | greaterEqual | less | lessEqual
  | identifier
  | string (value : String)
  | number (value : Decimal)
  | andWord | classWord | elseWord | falseWord | forWord | funWord | ifWord | nilWord
  | orWord | printWord | returnWord | superWord | thisWord | trueWord | varWord | whileWord
  | eof
deriving DecidableEq

/-- A lexeme with its kind. -/
structure Token extends Lexeme where
  kind : Token.Kind
deriving DecidableEq

namespace Token

/-- The end of the source, reached on the line `line`. -/
def eof (line : Nat) : Token := ⟨⟨"", line⟩, .eof⟩

/-- The reserved words and their kinds. -/
def keywords : List (String × Kind) :=
  [("and", .andWord), ("class", .classWord), ("else", .elseWord), ("false", .falseWord),
   ("for", .forWord), ("fun", .funWord), ("if", .ifWord), ("nil", .nilWord), ("or", .orWord),
   ("print", .printWord), ("return", .returnWord), ("super", .superWord), ("this", .thisWord),
   ("true", .trueWord), ("var", .varWord), ("while", .whileWord)]

/-- The kind of a word: reserved, or a name. -/
def wordKind (word : String) : Kind := (keywords.lookup word).getD .identifier

/-- The kind of a token of one character that no further character can extend. -/
def singleKind? : Char → Option Kind
  | '(' => some .leftParen
  | ')' => some .rightParen
  | '{' => some .leftBrace
  | '}' => some .rightBrace
  | ',' => some .comma
  | '.' => some .dot
  | '-' => some .minus
  | '+' => some .plus
  | ';' => some .semicolon
  | '*' => some .star
  | _ => none

/-- The kinds of a character that may stand alone or be extended by `=`, in this order. -/
def extendableKinds? : Char → Option (Kind × Kind)
  | '!' => some (.bang, .bangEqual)
  | '=' => some (.equal, .equalEqual)
  | '<' => some (.less, .lessEqual)
  | '>' => some (.greater, .greaterEqual)
  | _ => none

end Token

end Lox
