import Lox.Proofs.Parse.Roundtrip
import Lox.Proofs.Scan.Written
import Lox.Source.Check

/-!
# Lox — trees are made of tokens

The literals, names and operators in what the parser returns are those of tokens that it read,
whatever is wrong with the token sequence. The kind of the token is the one that belongs to the
place in the tree, and the text of a scanned token is one that the lexical grammar has for its kind.

* **`Stmt.FromAll`** — statements whose literals, names and operators come from given tokens.
* **`Derivation.from_of_yield`** — the tree of a derivation is made of the tokens that it derives.
* **`Stmt.fromAll_parse`** — parsed statements.
* **`Stmt.fromAll_parseSource`** — the statements of a source text.
-/

namespace Lox

/-! ## Trees -/

section

variable (P : Token → Prop)

/-- Whether a token in `P` writes each literal, name and operator of the expression. -/
def Expr.From : Expr → Prop
  | .literal value => ∃ text : Lexeme, P ⟨text, value.kind⟩
  | .var name => P ⟨name, .identifier⟩
  | .assign name value => P ⟨name, .identifier⟩ ∧ value.From
  | .group inner => inner.From
  | .unary op sign operand => P ⟨sign, op.kind⟩ ∧ operand.From
  | .binary op sign left right => P ⟨sign, op.kind⟩ ∧ left.From ∧ right.From

mutual

/-- Whether a token in `P` writes each literal, name and operator of the statement. -/
def Stmt.From : Stmt → Prop
  | .expression e | .print e => e.From P
  | .declaration name initial => P ⟨name, .identifier⟩ ∧ ∀ e ∈ initial, e.From P
  | .block body => Stmt.FromAll body

/-- Whether a token in `P` writes each literal, name and operator of the statements. -/
def Stmt.FromAll : List Stmt → Prop
  | [] => True
  | s :: rest => s.From ∧ Stmt.FromAll rest

end

end

variable {P : Token → Prop}

/-! ## Derivations -/

namespace Derivation

variable {g : Grammar}

/-- Whether what the derivation prescribes is made of tokens in `P`. Operations are, if they make
such an expression of any other. -/
def From (P : Token → Prop) : {n : Nonterminal} → Derivation g n → Prop
  | .declarations, d => Stmt.FromAll P d.tree
  | .declaration, d => Stmt.From P d.tree
  | .initializer, d => ∀ e ∈ (show Option Expr from d.tree), e.From P
  | .level _, d => Expr.From P d.tree
  | .operations _, d => ∀ left, Expr.From P left → Expr.From P (d.tree left)

/-- **The tree of a derivation is made of the tokens that it derives.** -/
theorem from_of_yield {n : Nonterminal} (d : Derivation g n) (h : ∀ t ∈ d.yield, P t) :
    d.From P := by
  induction d with
  | nil => exact trivial
  | cons first rest ihf ihr =>
    obtain ⟨hfirst, hrest⟩ := List.forall_mem_append.1 h
    exact ⟨ihf hfirst, ihr hrest⟩
  | declare word name init semicolon ih =>
    obtain ⟨-, hname, htail⟩ := by simpa only [yield, List.forall_mem_cons] using h
    exact ⟨hname, ih fun t ht => htail t (List.mem_append_left _ ht)⟩
  | print word e semicolon ih =>
    obtain ⟨-, htail⟩ := List.forall_mem_cons.1 h
    exact ih fun t ht => htail t (List.mem_append_left _ ht)
  | expression e semicolon ih => exact ih fun t ht => h t (List.mem_append_left _ ht)
  | block opening body closing ih =>
    obtain ⟨-, htail⟩ := List.forall_mem_cons.1 h
    exact ih fun t ht => htail t (List.mem_append_left _ ht)
  | absent => exact nofun
  | present sign e ih =>
    obtain ⟨-, he⟩ := List.forall_mem_cons.1 h
    rintro _ ⟨⟩
    exact ih he
  | assign hg name sign value ih =>
    obtain ⟨hname, -, hvalue⟩ := by simpa only [yield, List.forall_mem_cons] using h
    exact ⟨hname, ih hvalue⟩
  | assignTo hg target sign value iht ihv =>
    obtain ⟨htarget, hrest⟩ := List.forall_mem_append.1 h
    have hfrom : Expr.From P target.tree := iht htarget
    -- the assignment stands for its target, unless the target is a variable
    rw [From, tree]
    unfold assignTree
    split
    · next name hname =>
      rw [hname] at hfrom
      exact ⟨hfrom, ihv (List.forall_mem_cons.1 hrest).2⟩
    · exact hfrom
  | plain e ih => exact ih h
  | binary hn first rest ihf ihr =>
    obtain ⟨hfirst, hrest⟩ := List.forall_mem_append.1 h
    exact ihr hrest _ (ihf hfirst)
  | done => exact fun left hleft => hleft
  | apply op hop sign right rest ihr ihrest =>
    obtain ⟨hsign, htail⟩ := List.forall_mem_cons.1 h
    obtain ⟨hright, hrest⟩ := List.forall_mem_append.1 htail
    exact fun left hleft => ihrest hrest _ ⟨hsign, hleft, ihr hright⟩
  | unary op sign e ih =>
    obtain ⟨hsign, he⟩ := List.forall_mem_cons.1 h
    exact ⟨hsign, ih he⟩
  | atom e ih => exact ih h
  | literal l text => exact ⟨text, h _ (List.mem_singleton.2 rfl)⟩
  | reference name => exact h _ (List.mem_singleton.2 rfl)
  | group opening e closing ih =>
    obtain ⟨-, htail⟩ := List.forall_mem_cons.1 h
    exact ih fun t ht => htail t (List.mem_append_left _ ht)

end Derivation

/-- **Parsed statements are made of tokens that count**, errors or not. -/
theorem Stmt.fromAll_parse {tokens : List Token} (h : ∀ t ∈ sentence tokens, P t) :
    FromAll P (parse tokens).statements := by
  obtain ⟨v, hsub, d, hyield, htree⟩ := exists_derives_sublist tokens
  rw [← htree]
  exact d.from_of_yield fun t ht => h t (hsub.subset (hyield ▸ ht))

/-! ## Source texts -/

/-- **The statements of a source text are made of scanned tokens.** -/
theorem Stmt.fromAll_parseSource {source : String}
    (h : ∀ t : Token, .ok t ∈ scan source → t.Written → P t) :
    FromAll P (parseSource source).statements := by
  refine fromAll_parse fun t ht => ?_
  have hscan : .ok t ∈ scan source := mem_tokensOf.1 ((List.takeWhile_sublist _).subset ht)
  have heof : t.kind ≠ .eof := by simpa [Token.isEof] using isEof_eq_false_of_mem_sentence t ht
  exact h t hscan (t.written_of_mem_scan hscan heof)

end Lox
