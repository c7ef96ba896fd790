import Lox.Proofs.Grammar.Derives
import Lox.Syntax.Tokens

/-!
# Lox — the strict grammar inside the relaxed one

A sentence of the strict grammar is a sentence of the relaxed grammar in which each `=` has a
variable on its left, with the same tree; and the tree, written out as tokens, is the sentence
again, up to the lexemes that no tree keeps.

* **`Derivation.relax`** — a strict derivation as a relaxed one.
* **`Derivation.derives_strict`** — a relaxed derivation without misplaced `=` as a strict one.
* **`Derivation.flattens`** — the tokens of the tree are the tokens derived.
-/

namespace Lox

open Nonterminal

namespace Derivation

/-! ## From strict to relaxed -/

/-- A name stands at every level. -/
def equalityOfName {g : Grammar} (name : Lexeme) : Derivation g equality :=
  .binary (by decide) (.binary (by decide) (.binary (by decide) (.binary (by decide)
    (.atom (.reference name)) .done) .done) .done) .done

/-- The same derivation in the relaxed grammar. -/
def relax {n : Nonterminal} : Derivation .strict n → Derivation .relaxed n
  | .nil => .nil
  | .cons first rest => .cons first.relax rest.relax
  | .declare word name initial semicolon => .declare word name initial.relax semicolon
  | .print word e semicolon => .print word e.relax semicolon
  | .expression e semicolon => .expression e.relax semicolon
  | .block opening body closing => .block opening body.relax closing
  | .absent => .absent
  | .present sign e => .present sign e.relax
  | .assign _ name sign value => .assignTo rfl (equalityOfName name) sign value.relax
  | .plain e => .plain e.relax
  | .binary h first rest => .binary h first.relax rest.relax
  | .done => .done
  | .apply op h sign right rest => .apply op h sign right.relax rest.relax
  | .unary op sign e => .unary op sign e.relax
  | .atom e => .atom e.relax
  | .literal value text => .literal value text
  | .reference name => .reference name
  | .group opening e closing => .group opening e.relax closing

theorem yield_relax {n : Nonterminal} (d : Derivation .strict n) : d.relax.yield = d.yield := by
  induction d with
  | assign _ name sign value ih => rw [relax, yield, yield, ih]; rfl
  | assignTo h => cases h
  | _ => simp_all [relax, yield]

theorem tree_relax {n : Nonterminal} (d : Derivation .strict n) : d.relax.tree = d.tree := by
  induction d with
  | assign _ name sign value ih => rw [relax, tree, tree, ih]; rfl
  | assignTo h => cases h
  | _ => simp_all [relax, tree]

theorem misplaced_relax {n : Nonterminal} (d : Derivation .strict n) : d.relax.misplaced = [] := by
  induction d with
  | assign _ name sign value ih => rw [relax, misplaced, ih]; rfl
  | assignTo h => cases h
  | _ => simp_all [relax, misplaced]

/-! ## From relaxed to strict -/

variable {g : Grammar}

theorem operations_of_tree_eq_var {n : Nat} {name : Lexeme} : ∀ (rest : Derivation g (.operations n))
    {e : Expr}, rest.tree e = .var name → rest.yield = [] ∧ e = .var name
  | .done, _, h => ⟨rfl, h⟩
  | .apply _ _ _ _ rest, _, h => nomatch (operations_of_tree_eq_var rest h).2

/-- Only the name itself has the tree of a name. -/
theorem yield_of_tree_eq_var {name : Lexeme} : ∀ {m : Nat} (d : Derivation g (.level (m + 1))),
    d.tree = .var name → d.yield = [⟨name, .identifier⟩]
  | _, .binary _ first rest, h => by
    obtain ⟨hrest, hfirst⟩ := operations_of_tree_eq_var rest h
    rw [yield, yield_of_tree_eq_var first hfirst, hrest, List.append_nil]
  | _, .atom e, h => yield_of_tree_eq_var e h
  | _, .reference name', h => by cases h; rfl

/-- Without misplaced `=`, a relaxed derivation is one in the strict grammar. -/
theorem derives_strict {n : Nonterminal} (d : Derivation .relaxed n) (h : d.misplaced = []) :
    Derives .strict n d.yield d.tree := by
  induction d with
  | nil => exact .nil
  | cons first rest ihf ihr =>
    obtain ⟨hf, hr⟩ := List.append_eq_nil_iff.1 h
    obtain ⟨first', hy, ht⟩ := ihf hf
    obtain ⟨rest', hy', ht'⟩ := ihr hr
    exact ⟨.cons first' rest', by simp only [yield, hy, hy'], by simp only [tree, ht, ht']⟩
  | declare word name init semicolon ih =>
    obtain ⟨init', hy, ht⟩ := ih h
    exact ⟨.declare word name init' semicolon, by simp only [yield, hy], by simp only [tree, ht]⟩
  | print word e semicolon ih => exact .print word (ih h) semicolon
  | expression e semicolon ih => exact .expression (ih h) semicolon
  | block opening body closing ih => exact .block opening (ih h) closing
  | absent => exact ⟨.absent, rfl, rfl⟩
  | present sign e ih =>
    obtain ⟨e', hy, ht⟩ := ih h
    exact ⟨.present sign e', by simp only [yield, hy], by simp only [tree, ht]⟩
  | assign hg => cases hg
  | assignTo _ target sign value iht ihv =>
    rw [misplaced, List.append_assoc, List.append_eq_nil_iff, List.append_eq_nil_iff] at h
    obtain ⟨-, hv, ht⟩ := h
    obtain ⟨value', hy, hval⟩ := ihv hv
    -- the target is a name, or else this `=` would be misplaced
    obtain ⟨name, hname⟩ : ∃ name, target.tree = .var name := by
      cases htree : target.tree with
      | var name => exact ⟨name, rfl⟩
      | _ => rw [htree] at ht; cases ht
    refine ⟨.assign rfl name sign value', ?_, ?_⟩
    · rw [yield, yield, yield_of_tree_eq_var target hname, hy]
      rfl
    · rw [tree, tree, hname, hval]
      rfl
  | plain e ih => exact (ih h).toAssignment
  | binary hn first rest ihf ihr =>
    obtain ⟨hf, hr⟩ := List.append_eq_nil_iff.1 h
    obtain ⟨first', hy, ht⟩ := ihf hf
    obtain ⟨rest', hy', ht'⟩ := ihr hr
    exact ⟨.binary hn first' rest', by simp only [yield, hy, hy'], by simp only [tree, ht, ht']⟩
  | done => exact ⟨.done, rfl, rfl⟩
  | apply op hop sign right rest ihr ihrest =>
    obtain ⟨hr, hrest⟩ := List.append_eq_nil_iff.1 h
    obtain ⟨right', hy, ht⟩ := ihr hr
    obtain ⟨rest', hy', ht'⟩ := ihrest hrest
    exact ⟨.apply op hop sign right' rest', by simp only [yield, hy, hy'],
      by simp only [tree, ht, ht']⟩
  | unary op sign e ih => exact (ih h).prefixed op sign
  | atom e ih => exact (ih h).level_of_succ (by decide)
  | literal l text => exact .literal l text
  | reference name => exact .reference name
  | group opening e closing ih => exact (ih h).group opening closing

end Derivation

/-! ## Trees as tokens -/

/-- Whether trees keep the lexeme of a token of this kind: they do for names and operators. -/
def Token.Kind.isKept (k : Token.Kind) : Bool :=
  k = .identifier || (UnaryOp.ofKind? k).isSome || (BinaryOp.ofKind? k).isSome

/-- What a tree keeps of a token: its kind, with the value of a literal, and the lexeme of a name
or an operator. -/
def Token.kept (t : Token) : Token.Kind × Option Lexeme :=
  (t.kind, if t.kind.isKept then some t.toLexeme else none)

theorem Token.kept_eq_of_not_isKept {k : Token.Kind} (h : k.isKept = false) (x y : Lexeme) :
    Token.kept ⟨x, k⟩ = Token.kept ⟨y, k⟩ := by
  simp [kept, h]

namespace Derivation

variable {g : Grammar}

/-- Whether the tokens of the tree agree with the tokens derived, as far as trees keep them. -/
def Flattens : {n : Nonterminal} → Derivation g n → Prop
  | .declarations, d => (Stmt.tokensOfAll d.tree).map Token.kept = d.yield.map Token.kept
  | .declaration, d => (Stmt.tokens d.tree).map Token.kept = d.yield.map Token.kept
  | .initializer, d => ∀ word name semicolon,
    (Stmt.tokens (.declaration name d.tree)).map Token.kept
      = (⟨word, .varWord⟩ :: ⟨name, .identifier⟩
          :: (d.yield ++ [⟨semicolon, .semicolon⟩])).map Token.kept
  | .level _, d => (Expr.tokens d.tree).map Token.kept = d.yield.map Token.kept
  | .operations _, d => ∀ e v, (Expr.tokens e).map Token.kept = v.map Token.kept →
    (Expr.tokens (d.tree e)).map Token.kept = (v ++ d.yield).map Token.kept

theorem kept_literal (l : Literal) (text : Lexeme) : Token.kept l.token = Token.kept ⟨text, l.kind⟩ := by
  refine Token.kept_eq_of_not_isKept ?_ _ _
  unfold Literal.kind
  split <;> rfl

/-- **The tokens of the tree are the tokens derived.** -/
theorem flattens {n : Nonterminal} (d : Derivation .strict n) : d.Flattens := by
  induction d with
  | nil => rfl
  | cons first rest ihf ihr =>
    rw [Flattens, tree, Stmt.tokensOfAll, List.map_append, ihf, ihr, ← List.map_append, yield]
  | declare word name init semicolon ih => exact ih word name semicolon
  | print word e semicolon ih =>
    rw [Flattens] at ih
    simp only [Flattens, tree, Stmt.tokens, yield, List.map_cons, List.map_append, ih]
    rfl
  | expression e semicolon ih =>
    rw [Flattens] at ih
    simp only [Flattens, tree, Stmt.tokens, yield, List.map_append, ih]
    rfl
  | block opening body closing ih =>
    rw [Flattens] at ih
    simp only [Flattens, tree, Stmt.tokens, yield, List.map_cons, List.map_append, ih]
    rfl
  | absent => exact fun word name semicolon => rfl
  | present sign e ih =>
    intro word name semicolon
    rw [Flattens] at ih
    simp only [tree, Stmt.tokens, yield, List.map_cons, List.map_append, List.cons_append, ih]
    rfl
  | assign hg name sign value ih =>
    rw [Flattens] at ih
    simp only [Flattens, tree, Expr.tokens, yield, List.map_cons, ih]
    rfl
  | assignTo hg => cases hg
  | plain e ih => exact ih
  | binary h first rest ihf ihr => exact ihr _ _ ihf
  | done =>
    intro e v hv
    rw [yield, List.append_nil]
    exact hv
  | apply op hop sign right rest ihr ihrest =>
    intro e v hv
    -- the operations that are left are applied to the operand and this operation
    have h := ihrest (.binary op sign e right.tree) (v ++ ⟨sign, op.kind⟩ :: right.yield) (by
      rw [Expr.tokens, List.map_append, List.map_cons, hv, ihr, ← List.map_cons, List.map_append])
    simpa [yield, tree] using h
  | unary op sign e ih =>
    rw [Flattens] at ih
    simp only [Flattens, tree, Expr.tokens, yield, List.map_cons, ih]
  | atom e ih => exact ih
  | literal l text => exact congrArg (fun x => [x]) (kept_literal l text)
  | reference name => rfl
  | group opening e closing ih =>
    rw [Flattens] at ih
    simp only [Flattens, tree, Expr.tokens, yield, List.map_cons, List.map_append, ih]
    rfl

end Derivation

end Lox
