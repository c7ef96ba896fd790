import Lox.Proofs.Grammar.Unique

/-!
# Lox — what the grammar derives

`Derives g n v x` says that the tokens `v` are derived from `n` and that `x` is the tree for
them. A derivation has its root at the top, but an operator is read after its left operand and a
statement after those before it. The rules here extend a derivation on its right and move one to
a level at which it may stand.

* **`Derives.level_of_le`**, **`Derives.toAssignment`** — an operand stands at every looser level.
* **`Derives.binary`** — an operator takes as its left operand all that binds as tightly.
* **`Derives.snoc`** — one more statement.
-/

namespace Lox

/-- Whether the tokens `v` are derived from `n` with the tree `x`. -/
def Derives (g : Grammar) (n : Nonterminal) (v : List Token) (x : n.Tree) : Prop :=
  ∃ d : Derivation g n, d.yield = v ∧ d.tree = x

namespace Derives

open Nonterminal

variable {g : Grammar} {v w : List Token}

/-! ## Operands -/

theorem literal (l : Literal) (text : Lexeme) :
    Derives g primary [⟨text, l.kind⟩] (.literal l) :=
  ⟨.literal l text, rfl, rfl⟩

theorem reference (name : Lexeme) : Derives g primary [⟨name, .identifier⟩] (.var name) :=
  ⟨.reference name, rfl, rfl⟩

theorem group {e : Expr} (h : Derives g assignment v e) (opening closing : Lexeme) :
    Derives g primary (⟨opening, .leftParen⟩ :: (v ++ [⟨closing, .rightParen⟩])) (.group e) := by
  obtain ⟨d, rfl, rfl⟩ := h
  exact ⟨.group opening d closing, rfl, rfl⟩

theorem prefixed {e : Expr} (h : Derives g unary v e) (op : UnaryOp) (sign : Lexeme) :
    Derives g unary (⟨sign, op.kind⟩ :: v) (.unary op sign e) := by
  obtain ⟨d, rfl, rfl⟩ := h
  exact ⟨.unary op sign d, rfl, rfl⟩

/-! ## Levels -/

theorem level_of_succ {n : Nat} {e : Expr} (hn : 1 ≤ n) (h : Derives g (level (n + 1)) v e) :
    Derives g (level n) v e := by
  obtain ⟨d, rfl, rfl⟩ := h
  by_cases h4 : n ≤ 4
  · exact ⟨.binary ⟨hn, h4⟩ d .done, List.append_nil _, rfl⟩
  · -- above the binary levels, `n + 1` can only be the level of primary expressions
    cases d with
    | binary h => omega
    | unary => omega
    | atom => omega
    | literal l text => exact ⟨.atom (.literal l text), rfl, rfl⟩
    | reference name => exact ⟨.atom (.reference name), rfl, rfl⟩
    | group opening e closing => exact ⟨.atom (.group opening e closing), rfl, rfl⟩

/-- What binds more tightly than is asked for stands there as well. -/
theorem level_of_le {m n : Nat} {e : Expr} (hm : 1 ≤ m) (hmn : m ≤ n)
    (h : Derives g (level n) v e) : Derives g (level m) v e := by
  induction hmn with
  | refl => exact h
  | @step n hle ih => exact ih (level_of_succ (Nat.le_trans hm hle) h)

theorem toAssignment {n : Nat} {e : Expr} (h : Derives g (level n) v e) :
    Derives g assignment v e := by
  cases n with
  | zero => exact h
  | succ n =>
    obtain ⟨d, rfl, rfl⟩ := level_of_le (Nat.le_refl 1) (Nat.le_add_left 1 n) h
    exact ⟨.plain d, rfl, rfl⟩

/-! ## Operators between operands -/

/-- The operations of a level go on with one more. -/
theorem operations_snoc {n : Nat} (op : BinaryOp) (hop : op.precedence = n) (sign : Lexeme)
    (right : Derivation g (level (n + 1))) : ∀ rest : Derivation g (operations n),
    ∃ rest' : Derivation g (operations n),
      rest'.yield = rest.yield ++ ⟨sign, op.kind⟩ :: right.yield
      ∧ ∀ e, rest'.tree e = .binary op sign (rest.tree e) right.tree
  | .done => ⟨.apply op hop sign right .done, by simp [Derivation.yield], fun _ => rfl⟩
  | .apply op' hop' sign' right' rest => by
    obtain ⟨rest', hy, ht⟩ := operations_snoc op hop sign right rest
    refine ⟨.apply op' hop' sign' right' rest', ?_, fun e => ht _⟩
    simp only [Derivation.yield, hy, List.cons_append, List.append_assoc]

theorem binary {l r : Expr} (op : BinaryOp) (hl : Derives g (level op.precedence) v l)
    (sign : Lexeme) (hr : Derives g (level (op.precedence + 1)) w r) :
    Derives g (level op.precedence) (v ++ ⟨sign, op.kind⟩ :: w) (.binary op sign l r) := by
  obtain ⟨right, rfl, rfl⟩ := hr
  -- the level must be a variable before its derivations can be distinguished
  generalize hn : op.precedence = n at hl right
  have hle := hn ▸ op.precedence_le
  obtain ⟨d, rfl, rfl⟩ := hl
  cases d with
  | binary h first rest =>
    obtain ⟨rest', hy, ht⟩ := operations_snoc op hn sign right rest
    refine ⟨.binary h first rest', ?_, ht _⟩
    simp only [Derivation.yield, hy, List.append_assoc]
  | _ => omega

/-! ## Assignments -/

theorem assign {value : Expr} (name sign : Lexeme) (hv : Derives .strict assignment v value) :
    Derives .strict assignment (⟨name, .identifier⟩ :: ⟨sign, .equal⟩ :: v) (.assign name value) := by
  obtain ⟨d, rfl, rfl⟩ := hv
  exact ⟨.assign rfl name sign d, rfl, rfl⟩

theorem assignTo {target value : Expr} (ht : Derives .relaxed equality v target) (sign : Lexeme)
    (hv : Derives .relaxed assignment w value) :
    Derives .relaxed assignment (v ++ ⟨sign, .equal⟩ :: w)
      (Derivation.assignTree target value) := by
  obtain ⟨d, rfl, rfl⟩ := ht
  obtain ⟨d', rfl, rfl⟩ := hv
  exact ⟨.assignTo rfl d sign d', rfl, rfl⟩

/-! ## Statements -/

theorem nil : Derives g declarations [] [] := ⟨.nil, rfl, rfl⟩

theorem cons {s : Stmt} {ss : List Stmt} (hs : Derives g declaration v s)
    (hss : Derives g declarations w ss) : Derives g declarations (v ++ w) (s :: ss) := by
  obtain ⟨d, rfl, rfl⟩ := hs
  obtain ⟨d', rfl, rfl⟩ := hss
  exact ⟨.cons d d', rfl, rfl⟩

theorem snoc {s : Stmt} : ∀ {v : List Token} {ss : List Stmt}, Derives g declarations v ss →
    Derives g declaration w s → Derives g declarations (v ++ w) (ss ++ [s])
  | _, _, ⟨.nil, rfl, rfl⟩, hd => by
    obtain ⟨d, rfl, rfl⟩ := hd
    exact ⟨.cons d .nil, List.append_nil _, rfl⟩
  | _, _, ⟨.cons first rest, rfl, rfl⟩, hd => by
    obtain ⟨rest', hy, ht⟩ := snoc ⟨rest, rfl, rfl⟩ hd
    refine ⟨.cons first rest', ?_, ?_⟩
    · simp only [Derivation.yield, hy, List.append_assoc]
    · simp only [Derivation.tree, ht, List.cons_append]

theorem expression {e : Expr} (h : Derives g assignment v e) (semicolon : Lexeme) :
    Derives g declaration (v ++ [⟨semicolon, .semicolon⟩]) (.expression e) := by
  obtain ⟨d, rfl, rfl⟩ := h
  exact ⟨.expression d semicolon, rfl, rfl⟩

theorem print {e : Expr} (word : Lexeme) (h : Derives g assignment v e) (semicolon : Lexeme) :
    Derives g declaration (⟨word, .printWord⟩ :: (v ++ [⟨semicolon, .semicolon⟩])) (.print e) := by
  obtain ⟨d, rfl, rfl⟩ := h
  exact ⟨.print word d semicolon, rfl, rfl⟩

theorem declare (word name semicolon : Lexeme) :
    Derives g declaration [⟨word, .varWord⟩, ⟨name, .identifier⟩, ⟨semicolon, .semicolon⟩]
      (.declaration name none) :=
  ⟨.declare word name .absent semicolon, rfl, rfl⟩

theorem declareAs {e : Expr} (word name sign : Lexeme) (h : Derives g assignment v e)
    (semicolon : Lexeme) :
    Derives g declaration
      (⟨word, .varWord⟩ :: ⟨name, .identifier⟩ :: ⟨sign, .equal⟩
        :: (v ++ [⟨semicolon, .semicolon⟩]))
      (.declaration name (some e)) := by
  obtain ⟨d, rfl, rfl⟩ := h
  exact ⟨.declare word name (.present sign d) semicolon, rfl, rfl⟩

theorem block {ss : List Stmt} (opening : Lexeme) (h : Derives g declarations v ss)
    (closing : Lexeme) :
    Derives g declaration (⟨opening, .leftBrace⟩ :: (v ++ [⟨closing, .rightBrace⟩]))
      (.block ss) := by
  obtain ⟨d, rfl, rfl⟩ := h
  exact ⟨.block opening d closing, rfl, rfl⟩

end Derives

end Lox
