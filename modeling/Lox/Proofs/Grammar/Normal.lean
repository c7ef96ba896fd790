import Lox.Proofs.Grammar.Derives
import Lox.Syntax.Tokens

/-!
# Lox — trees are written as they are derived

Whatever the relaxed grammar derives, the tree that it prescribes is also the tree of a strict
derivation, namely from the tokens that write the tree. A misplaced `=` has left no trace in the
tree, and the operands of each operator bind as tightly as the grammar asks for.

* **`Derivation.Normal`** — for each nonterminal, what it means for a tree to be derived from its
  own tokens.
* **`Derivation.normal`** — the trees of all derivations are.
-/

namespace Lox

namespace Derivation

open Nonterminal

variable {g : Grammar}

/-- Whether the tree is derived, in the strict grammar, from the tokens that write it. -/
def Normal : {n : Nonterminal} → Derivation g n → Prop
  | .declarations, d => Derives .strict declarations (Stmt.tokensOfAll d.tree) d.tree
  | .declaration, d => Derives .strict declaration (Stmt.tokens d.tree) d.tree
  | .initializer, d => ∀ name,
    Derives .strict declaration (Stmt.tokens (.declaration name d.tree)) (.declaration name d.tree)
  | .level n, d => Derives .strict (level n) (Expr.tokens d.tree) d.tree
  | .operations n, d => ∀ e, Derives .strict (level n) (Expr.tokens e) e →
    Derives .strict (level n) (Expr.tokens (d.tree e)) (d.tree e)

/-- **The tree of a derivation is derived from its own tokens.** -/
theorem normal {n : Nonterminal} (d : Derivation g n) : d.Normal := by
  induction d with
  | nil => exact .nil
  | cons first rest ihf ihr => exact .cons ihf ihr
  | declare word name init semicolon ih => exact ih name
  | print word e semicolon ih => exact .print ⟨"print", 1⟩ ih ⟨";", 1⟩
  | expression e semicolon ih => exact .expression ih ⟨";", 1⟩
  | block opening body closing ih => exact .block ⟨"\x7b", 1⟩ ih ⟨"\x7d", 1⟩
  | absent => exact fun name => .declare ⟨"var", 1⟩ name ⟨";", 1⟩
  | present sign e ih => exact fun name => .declareAs ⟨"var", 1⟩ name ⟨"=", 1⟩ ih ⟨";", 1⟩
  | assign hg name sign value ih => exact .assign name ⟨"=", 1⟩ ih
  | assignTo hg target sign value iht ihv =>
    -- the assignment stands for its target, unless the target is a variable
    rw [Normal, tree]
    unfold assignTree
    split
    · next name _ => exact .assign name ⟨"=", 1⟩ ihv
    · exact iht.toAssignment
  | plain e ih => exact ih.toAssignment
  | binary hn first rest ihf ihr => exact ihr _ (ihf.level_of_succ hn.1)
  | done => exact fun e he => he
  | apply op hop sign right rest ihr ihrest =>
    subst hop
    intro e he
    exact ihrest _ (.binary op he sign ihr)
  | unary op sign e ih => exact ih.prefixed op sign
  | atom e ih => exact ih.level_of_succ (by decide)
  | literal l text => exact .literal l ⟨l.display, 1⟩
  | reference name => exact .reference name
  | group opening e closing ih => exact ih.group ⟨"(", 1⟩ ⟨")", 1⟩

end Derivation

end Lox
