import Lox.Proofs.Relabel.Eval
import Lox.Proofs.Relabel.Parse
import Lox.Syntax.Display

/-!
# Lox — where the lexemes of trees and errors come from

A computation that takes every replacement of lexemes in its input to the same replacement in its
output cannot make up a lexeme: replace all lexemes but those of the input, and the output stays as
it is. So the parser returns lexemes of tokens only, and a runtime error blames a lexeme of the tree.

* **`Stmt.lexemesOfAll`** — the names and operators of statements, in source order.
* **`lexemesOfAll_parse_subset`**, **`blamed_parse_subset`** — the lexemes that the parser returns.
* **`Stmt.blamed_mem_lexemesOfAll`** — the lexeme that a runtime error blames.
-/

namespace Lox

/-! ## The lexemes of a tree -/

/-- The names and operators of an expression, in source order. -/
def Expr.lexemes : Expr → List Lexeme
  | .literal _ => []
  | .var name => [name]
  | .assign name value => name :: value.lexemes
  | .group inner => inner.lexemes
  | .unary _ sign operand => sign :: operand.lexemes
  | .binary _ sign left right => left.lexemes ++ sign :: right.lexemes

mutual

/-- The names and operators of a statement, in source order. -/
def Stmt.lexemes : Stmt → List Lexeme
  | .expression e => e.lexemes
  | .print e => e.lexemes
  | .declaration name none => [name]
  | .declaration name (some e) => name :: e.lexemes
  | .block body => Stmt.lexemesOfAll body

def Stmt.lexemesOfAll : List Stmt → List Lexeme
  | [] => []
  | s :: rest => s.lexemes ++ Stmt.lexemesOfAll rest

end

section

variable (f g : Lexeme → Lexeme)

theorem Expr.lexemes_relabel (e : Expr) : (e.relabel f).lexemes = e.lexemes.map f := by
  induction e with
  | literal => rfl
  | var => rfl
  | assign name value ih => rw [relabel, lexemes, lexemes, ih, List.map_cons]
  | group inner ih => exact ih
  | unary op sign operand ih => rw [relabel, lexemes, lexemes, ih, List.map_cons]
  | binary op sign left right ihl ihr =>
    rw [relabel, lexemes, lexemes, ihl, ihr, List.map_append, List.map_cons]

theorem Expr.relabel_relabel (e : Expr) : (e.relabel f).relabel g = e.relabel (g ∘ f) := by
  induction e with
  | literal => rfl
  | var => rfl
  | assign name value ih => rw [relabel, relabel, ih, relabel]; rfl
  | group inner ih => rw [relabel, relabel, ih, relabel]
  | unary op sign operand ih => rw [relabel, relabel, ih, relabel]; rfl
  | binary op sign left right ihl ihr => rw [relabel, relabel, ihl, ihr, relabel]; rfl

mutual

theorem Stmt.lexemes_relabel : (s : Stmt) → (s.relabel f).lexemes = s.lexemes.map f
  | .expression e => e.lexemes_relabel f
  | .print e => e.lexemes_relabel f
  | .declaration name none => by rw [relabel, Option.map_none, lexemes, lexemes]; rfl
  | .declaration name (some e) => by
    rw [relabel, Option.map_some, lexemes, lexemes, e.lexemes_relabel, List.map_cons]
  | .block body => by rw [relabel, lexemes, lexemes, lexemesOfAll_relabelAll]

theorem Stmt.lexemesOfAll_relabelAll :
    (ss : List Stmt) → lexemesOfAll (relabelAll f ss) = (lexemesOfAll ss).map f
  | [] => rfl
  | s :: rest => by
    rw [relabelAll, lexemesOfAll, lexemesOfAll, s.lexemes_relabel, lexemesOfAll_relabelAll rest,
      List.map_append]

end

mutual

theorem Stmt.relabel_relabel : (s : Stmt) → (s.relabel f).relabel g = s.relabel (g ∘ f)
  | .expression e => by rw [relabel, relabel, e.relabel_relabel, relabel]
  | .print e => by rw [relabel, relabel, e.relabel_relabel, relabel]
  | .declaration name none => rfl
  | .declaration name (some e) => by
    simp only [relabel, Option.map_some, e.relabel_relabel, Function.comp]
  | .block body => by rw [relabel, relabel, relabelAll_relabelAll, relabel]

theorem Stmt.relabelAll_relabelAll :
    (ss : List Stmt) → relabelAll g (relabelAll f ss) = relabelAll (g ∘ f) ss
  | [] => rfl
  | s :: rest => by
    rw [relabelAll, relabelAll, s.relabel_relabel, relabelAll_relabelAll rest, relabelAll]

end

end

/-! ## Lexemes that stay -/

section

variable {f : Lexeme → Lexeme}

theorem Expr.relabel_eq_self {e : Expr} (h : ∀ x ∈ e.lexemes, f x = x) : e.relabel f = e := by
  induction e with
  | literal => rfl
  | var name => rw [relabel, h name (List.mem_singleton.2 rfl)]
  | assign name value ih =>
    obtain ⟨hname, hvalue⟩ := List.forall_mem_cons.1 h
    rw [relabel, hname, ih hvalue]
  | group inner ih => rw [relabel, ih h]
  | unary op sign operand ih =>
    obtain ⟨hsign, hoperand⟩ := List.forall_mem_cons.1 h
    rw [relabel, hsign, ih hoperand]
  | binary op sign left right ihl ihr =>
    obtain ⟨hleft, hrest⟩ := List.forall_mem_append.1 h
    obtain ⟨hsign, hright⟩ := List.forall_mem_cons.1 hrest
    rw [relabel, hsign, ihl hleft, ihr hright]

mutual

theorem Stmt.relabel_eq_self : {s : Stmt} → (∀ x ∈ s.lexemes, f x = x) → s.relabel f = s
  | .expression e, h => by rw [relabel, Expr.relabel_eq_self h]
  | .print e, h => by rw [relabel, Expr.relabel_eq_self h]
  | .declaration name none, h => by
    rw [relabel, h name (List.mem_singleton.2 rfl), Option.map_none]
  | .declaration name (some e), h => by
    obtain ⟨hname, he⟩ := List.forall_mem_cons.1 h
    rw [relabel, hname, Option.map_some, Expr.relabel_eq_self he]
  | .block body, h => by rw [relabel, relabelAll_eq_self h]

theorem Stmt.relabelAll_eq_self :
    {ss : List Stmt} → (∀ x ∈ lexemesOfAll ss, f x = x) → relabelAll f ss = ss
  | [], _ => rfl
  | s :: rest, h => by
    obtain ⟨hs, hrest⟩ := List.forall_mem_append.1 h
    rw [relabelAll, relabel_eq_self hs, relabelAll_eq_self hrest]

end

end

/-- Moves all lexemes but those in a list to another line. -/
def Lexeme.moveUnless (xs : List Lexeme) (x : Lexeme) : Lexeme := if x ∈ xs then x else x.shift 1

namespace Lexeme

theorem text_moveUnless (xs : List Lexeme) (x : Lexeme) : (moveUnless xs x).text = x.text := by
  unfold moveUnless
  split <;> rfl

theorem moveUnless_eq_self_iff {xs : List Lexeme} {x : Lexeme} :
    moveUnless xs x = x ↔ x ∈ xs := by
  unfold moveUnless
  split
  · next hx => exact iff_of_true rfl hx
  · next hx =>
    refine iff_of_false (fun h => ?_) hx
    have hline : x.line + 1 = x.line := congrArg Lexeme.line h
    omega

/-- A list that does not move consists of lexemes that stay. -/
theorem subset_of_map_moveUnless {xs ys : List Lexeme} (h : ys.map (moveUnless xs) = ys) :
    ys ⊆ xs := by
  intro y hy
  have hid : ys.map (moveUnless xs) = ys.map id := by rw [h, List.map_id]
  exact moveUnless_eq_self_iff.1 (List.map_inj_left.1 hid y hy)

end Lexeme

/-! ## The parser -/

section

variable {tokens : List Token} (heof : ∃ t ∈ tokens, t.isEof = true)

include heof

theorem parse_relabel_moveUnless :
    (parse tokens).relabel (Lexeme.moveUnless (tokens.map (·.toLexeme))) = parse tokens := by
  have hstay : tokens.map (Token.relabel (Lexeme.moveUnless (tokens.map (·.toLexeme)))) = tokens := by
    refine (List.map_congr_left fun t ht => ?_).trans (List.map_id tokens)
    rw [Token.relabel, Lexeme.moveUnless_eq_self_iff.2 (List.mem_map_of_mem ht)]
    rfl
  rw [← parse_relabel _ heof, hstay]

/-- The names and operators of parsed statements are lexemes of tokens. -/
theorem lexemesOfAll_parse_subset :
    Stmt.lexemesOfAll (parse tokens).statements ⊆ tokens.map (·.toLexeme) := by
  have hstay := congrArg Parsed.statements (parse_relabel_moveUnless heof)
  refine Lexeme.subset_of_map_moveUnless ?_
  rw [← Stmt.lexemesOfAll_relabelAll, Stmt.relabelAll_eq_map]
  exact congrArg Stmt.lexemesOfAll hstay

/-- Syntax errors blame lexemes of tokens. -/
theorem blamed_parse_subset :
    (parse tokens).errors.map (·.blamed) ⊆ tokens.map (·.toLexeme) := by
  have hstay := congrArg (List.map SyntaxError.blamed ∘ Parsed.errors)
    (parse_relabel_moveUnless heof)
  refine Lexeme.subset_of_map_moveUnless ?_
  simp only [Function.comp_apply, Parsed.relabel, List.map_map] at hstay
  rw [List.map_map]
  exact hstay

end

/-! ## Execution -/

/-- A runtime error blames a name or an operator of the statements. -/
theorem Stmt.blamed_mem_lexemesOfAll {frame : Nat} {ss : List Stmt} {m m' : Machine}
    {e : RuntimeError} (h : execAll frame ss m = .error (.runtime e) m') :
    e.blamed ∈ lexemesOfAll ss := by
  have hstay : relabelAll (Lexeme.moveUnless (lexemesOfAll ss)) ss = ss :=
    relabelAll_eq_self fun x hx => Lexeme.moveUnless_eq_self_iff.2 hx
  have hrun := congrFun (execAll_relabel (Lexeme.text_moveUnless (lexemesOfAll ss)) frame ss) m
  rw [hstay, EStateM.adaptExcept, h] at hrun
  have hblamed : Lexeme.moveUnless (lexemesOfAll ss) e.blamed = e.blamed := by
    injection hrun with herror
    injection herror with herror
    exact (congrArg RuntimeError.blamed herror).symm
  exact Lexeme.moveUnless_eq_self_iff.1 hblamed

/-! ## Display -/

section

variable {f : Lexeme → Lexeme}

/-- Trees show the texts of lexemes only. -/
theorem Expr.display_relabel (hf : ∀ x, (f x).text = x.text) (e : Expr) :
    (e.relabel f).display = e.display := by
  induction e with
  | literal => rfl
  | var name => exact hf name
  | assign name value ih => rw [relabel, display, display, ih, hf]
  | group inner ih => rw [relabel, display, display, ih]
  | unary op sign operand ih => rw [relabel, display, display, ih, hf]
  | binary op sign left right ihl ihr => rw [relabel, display, display, ihl, ihr, hf]

mutual

theorem Stmt.display_relabel (hf : ∀ x, (f x).text = x.text) :
    (s : Stmt) → (s.relabel f).display = s.display
  | .expression e => by rw [relabel, display, display, e.display_relabel hf]
  | .print e => by rw [relabel, display, display, e.display_relabel hf]
  | .declaration name none => by rw [relabel, Option.map_none, display, display, hf]
  | .declaration name (some e) => by
    rw [relabel, Option.map_some, display, display, e.display_relabel hf, hf]
  | .block body => by rw [relabel, display, display, displayBody_relabelAll hf body]

theorem Stmt.displayBody_relabelAll (hf : ∀ x, (f x).text = x.text) :
    (ss : List Stmt) → displayBody (relabelAll f ss) = displayBody ss
  | [] => rfl
  | s :: rest => by
    rw [relabelAll, displayBody, displayBody, s.display_relabel hf, displayBody_relabelAll hf rest]

end

end

end Lox
