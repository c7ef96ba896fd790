import Lox.Syntax.Basic
import Lox.Syntax.Error

/-!
# Lox — the grammar and its derivations

```
declaration := "var" IDENTIFIER ("=" expression)? ";" | "print" expression ";"
             | expression ";" | "{" declaration* "}"
expression  := assignment
assignment  := IDENTIFIER "=" assignment | equality
equality    := comparison (("!=" | "==") comparison)*
comparison  := term ((">" | ">=" | "<" | "<=") term)*
term        := factor (("-" | "+") factor)*
factor      := unary (("/" | "*") unary)*
unary       := ("!" | "-") unary | primary
primary     := NUMBER | STRING | "true" | "false" | "nil" | IDENTIFIER | "(" expression ")"
```

A program is `declaration*`. The *relaxed* grammar differs in one rule,
`assignment := equality ("=" assignment)?`: whatever may stand to the left of `==` may stand to
the left of `=` as well. It is what can be read without looking beyond the next token.

* **`Derivation`** — a derivation tree, one constructor for each alternative of a rule.
* **`Derivation.yield`** — the tokens that it derives.
* **`Derivation.tree`** — the syntax tree that it prescribes: the operators of one level group
  to the left, unary operators and assignments to the right.
* **`Derivation.misplaced`** — the errors at those `=` that have no variable on their left.
-/

namespace Lox

/-- Which expressions may be assigned to, as far as the grammar goes. -/
inductive Grammar where
  /-- Variables. -/
  | strict
  /-- Whatever binds more tightly than `=`. -/
  | relaxed
deriving DecidableEq

/-! ## Nonterminals -/

/-- The nonterminals. A repetition or an option within a rule is a nonterminal of its own. -/
inductive Nonterminal where
  | declarations
  | declaration
  /-- `("=" expression)?` -/
  | initializer
  /-- Expressions by how tightly their loosest operator may bind. The binary levels carry the
  precedence of their operators. -/
  | level (n : Nat)
  /-- `(operator operand)*` with the operators of one precedence. -/
  | operations (precedence : Nat)
deriving DecidableEq

namespace Nonterminal

@[match_pattern] abbrev assignment : Nonterminal := .level 0
@[match_pattern] abbrev equality : Nonterminal := .level 1
@[match_pattern] abbrev unary : Nonterminal := .level 5
@[match_pattern] abbrev primary : Nonterminal := .level 6

/-- What a derivation prescribes. Operations are applied to the operand on their left. -/
abbrev Tree : Nonterminal → Type
  | .declarations => List Stmt
  | .declaration => Stmt
  | .initializer => Option Expr
  | .level _ => Expr
  | .operations _ => Expr → Expr

end Nonterminal

/-! ## Derivations

Terminals are given by their lexemes; the kind is fixed by the rule. -/

/-- A derivation from a nonterminal. -/
inductive Derivation (g : Grammar) : Nonterminal → Type where
  | nil : Derivation g .declarations
  | cons (first : Derivation g .declaration) (rest : Derivation g .declarations) :
      Derivation g .declarations
  | declare (word name : Lexeme) (initial : Derivation g .initializer) (semicolon : Lexeme) :
      Derivation g .declaration
  | print (word : Lexeme) (e : Derivation g .assignment) (semicolon : Lexeme) :
      Derivation g .declaration
  | expression (e : Derivation g .assignment) (semicolon : Lexeme) : Derivation g .declaration
  | block (opening : Lexeme) (body : Derivation g .declarations) (closing : Lexeme) :
      Derivation g .declaration
  | absent : Derivation g .initializer
  | present (sign : Lexeme) (e : Derivation g .assignment) : Derivation g .initializer
  | assign (h : g = .strict) (name sign : Lexeme) (value : Derivation g .assignment) :
      Derivation g .assignment
  | assignTo (h : g = .relaxed) (target : Derivation g .equality) (sign : Lexeme)
      (value : Derivation g .assignment) : Derivation g .assignment
  | plain (e : Derivation g .equality) : Derivation g .assignment
  | binary {n : Nat} (h : 1 ≤ n ∧ n ≤ 4) (first : Derivation g (.level (n + 1)))
      (rest : Derivation g (.operations n)) : Derivation g (.level n)
  | done {n : Nat} : Derivation g (.operations n)
  | apply {n : Nat} (op : BinaryOp) (h : op.precedence = n) (sign : Lexeme)
      (right : Derivation g (.level (n + 1))) (rest : Derivation g (.operations n)) :
      Derivation g (.operations n)
  | unary (op : UnaryOp) (sign : Lexeme) (operand : Derivation g .unary) : Derivation g .unary
  | atom (e : Derivation g .primary) : Derivation g .unary
  | literal (value : Literal) (text : Lexeme) : Derivation g .primary
  | reference (name : Lexeme) : Derivation g .primary
  | group (opening : Lexeme) (e : Derivation g .assignment) (closing : Lexeme) :
      Derivation g .primary

namespace Derivation

/-- The tokens that are derived. -/
@[simp] def yield {g : Grammar} {n : Nonterminal} : Derivation g n → List Token
  | .nil | .absent | .done => []
  | .cons first rest => first.yield ++ rest.yield
  | .declare word name initial semicolon =>
    ⟨word, .varWord⟩ :: ⟨name, .identifier⟩ :: (initial.yield ++ [⟨semicolon, .semicolon⟩])
  | .print word e semicolon => ⟨word, .printWord⟩ :: (e.yield ++ [⟨semicolon, .semicolon⟩])
  | .expression e semicolon => e.yield ++ [⟨semicolon, .semicolon⟩]
  | .block opening body closing =>
    ⟨opening, .leftBrace⟩ :: (body.yield ++ [⟨closing, .rightBrace⟩])
  | .present sign e => ⟨sign, .equal⟩ :: e.yield
  | .assign _ name sign value => ⟨name, .identifier⟩ :: ⟨sign, .equal⟩ :: value.yield
  | .assignTo _ target sign value => target.yield ++ ⟨sign, .equal⟩ :: value.yield
  | .plain e | .atom e => e.yield
  | .binary _ first rest => first.yield ++ rest.yield
  | .apply op _ sign right rest => ⟨sign, op.kind⟩ :: (right.yield ++ rest.yield)
  | .unary op sign operand => ⟨sign, op.kind⟩ :: operand.yield
  | .literal value text => [⟨text, value.kind⟩]
  | .reference name => [⟨name, .identifier⟩]
  | .group opening e closing =>
    ⟨opening, .leftParen⟩ :: (e.yield ++ [⟨closing, .rightParen⟩])

/-- The tree of an assignment: if there is no variable to assign to, its left side. -/
def assignTree (target value : Expr) : Expr :=
  match target with
  | .var name => .assign name value
  | e => e

/-- The tree that is prescribed. -/
@[simp] def tree {g : Grammar} {n : Nonterminal} : Derivation g n → n.Tree
  | .nil => []
  | .cons first rest => first.tree :: rest.tree
  | .declare _ name initial _ => .declaration name initial.tree
  | .print _ e _ => .print e.tree
  | .expression e _ => .expression e.tree
  | .block _ body _ => .block body.tree
  | .absent => none
  | .present _ e => some e.tree
  | .assign _ name _ value => .assign name value.tree
  | .assignTo _ target _ value => assignTree target.tree value.tree
  | .plain e | .atom e => e.tree
  | .binary _ first rest => rest.tree first.tree
  | .done => id
  | .apply op _ sign right rest => fun left => rest.tree (.binary op sign left right.tree)
  | .unary op sign operand => .unary op sign operand.tree
  | .literal value _ => .literal value
  | .reference name => .var name
  | .group _ e _ => .group e.tree

/-- The error at an `=` that has no variable on its left. -/
def targetErrors (target : Expr) (sign : Lexeme) : List SyntaxError :=
  match target with
  | .var _ => []
  | _ => [⟨.invalidAssignmentTarget, sign⟩]

/-- The errors at all such `=`, in the order in which the assigned values end. -/
@[simp] def misplaced {g : Grammar} {n : Nonterminal} : Derivation g n → List SyntaxError
  | .nil | .absent | .done | .literal _ _ | .reference _ => []
  | .cons first rest | .binary _ first rest => first.misplaced ++ rest.misplaced
  | .declare _ _ initial _ => initial.misplaced
  | .print _ e _ | .expression e _ | .present _ e | .plain e | .atom e | .group _ e _ =>
    e.misplaced
  | .block _ body _ => body.misplaced
  | .assign _ _ _ value => value.misplaced
  | .assignTo _ target sign value =>
    target.misplaced ++ value.misplaced ++ targetErrors target.tree sign
  | .apply _ _ _ right rest => right.misplaced ++ rest.misplaced
  | .unary _ _ operand => operand.misplaced

end Derivation

end Lox
