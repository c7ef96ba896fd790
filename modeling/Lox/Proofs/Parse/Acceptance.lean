import Lox.Proofs.Grammar.Strict
import Lox.Proofs.Parse.Reading
import Lox.Proofs.Parse.Recovery
import Lox.Proofs.Parse.Viable

/-!
# Lox — the parser accepts its grammar

The parser reads the relaxed grammar and reports each `=` that the strict grammar does not have.
So it is silent exactly on the sentences of the strict grammar, and what it then returns is the
tree of the only derivation.

* **`parse_errors_eq_nil_iff_derivable`** — when the parser reports nothing,
  and what it then returns.
-/

namespace Lox

/-- A sentence of the strict grammar is parsed to its tree and nothing is reported. -/
theorem parse_of_strict {tokens : List Token} (d : Derivation .strict .declarations)
    (h : d.yield = sentence tokens) : parse tokens = ⟨d.tree, []⟩ := by
  have hrelax := parse_of_derivation d.relax (d.yield_relax.trans h)
  rwa [d.tree_relax, d.misplaced_relax] at hrelax

/-- If nothing is reported, the statements are the tree of a strict derivation. -/
theorem derives_of_parse_errors_eq_nil {tokens : List Token} (h : (parse tokens).errors = []) :
    Derives .strict .declarations (sentence tokens) (parse tokens).statements := by
  obtain ⟨d, hy, ht⟩ := @derives_of_parse tokens (by simp [h])
  have hmisplaced : d.misplaced = [] := by
    rw [parse_of_derivation d hy] at h
    exact h
  have hstrict := d.derives_strict hmisplaced
  rwa [hy, ht] at hstrict

/-- **The parser accepts exactly its grammar and returns the derivation tree.** Nothing is
reported if and only if the tokens before the end token are derived in the strict grammar. Then
the statements are the tree of the derivation, their tokens are the tokens that were parsed, and
there is no other derivation. -/
theorem parse_errors_eq_nil_iff_derivable (tokens : List Token) :
    ((parse tokens).errors = []
      ↔ ∃ d : Derivation .strict .declarations, d.yield = sentence tokens)
    ∧ ∀ d : Derivation .strict .declarations, d.yield = sentence tokens →
      (parse tokens).statements = d.tree
      ∧ (Stmt.tokensOfAll (parse tokens).statements).map Token.kept
          = (sentence tokens).map Token.kept
      ∧ ∀ d' : Derivation .strict .declarations, d'.yield = sentence tokens → d' = d := by
  refine ⟨⟨fun h => ?_, fun ⟨d, hd⟩ => by rw [parse_of_strict d hd]⟩, fun d hd => ?_⟩
  · obtain ⟨d, hy, -⟩ := derives_of_parse_errors_eq_nil h
    exact ⟨d, hy⟩
  · have hparse := parse_of_strict d hd
    refine ⟨by rw [hparse], ?_, fun d' hd' => d'.eq_of_yield_eq d (hd'.trans hd.symm)⟩
    rw [hparse, ← hd]
    exact d.flattens

/-- The tokens of `a = -b * c;`, with an end token and another one. -/
def negatedProduct : List Token :=
  [⟨⟨"a", 1⟩, .identifier⟩, ⟨⟨"=", 1⟩, .equal⟩, ⟨⟨"-", 1⟩, .minus⟩, ⟨⟨"b", 1⟩, .identifier⟩,
   ⟨⟨"*", 1⟩, .star⟩, ⟨⟨"c", 1⟩, .identifier⟩, ⟨⟨";", 1⟩, .semicolon⟩, Token.eof 2, Token.eof 3]

theorem parse_negatedProduct :
    parse negatedProduct
      = ⟨[.expression (.assign ⟨"a", 1⟩ (.binary .multiply ⟨"*", 1⟩
          (.unary .negate ⟨"-", 1⟩ (.var ⟨"b", 1⟩)) (.var ⟨"c", 1⟩)))], []⟩
    ∧ ∃ d : Derivation .strict .declarations,
      d.yield = sentence negatedProduct
      ∧ (parse negatedProduct).statements = d.tree
      ∧ (Stmt.tokensOfAll (parse negatedProduct).statements).map Token.kept
          = (sentence negatedProduct).map Token.kept
      ∧ ∀ d' : Derivation .strict .declarations, d'.yield = sentence negatedProduct → d' = d := by
  have h := parse_errors_eq_nil_iff_derivable negatedProduct
  have hparse : parse negatedProduct
      = ⟨[.expression (.assign ⟨"a", 1⟩ (.binary .multiply ⟨"*", 1⟩
          (.unary .negate ⟨"-", 1⟩ (.var ⟨"b", 1⟩)) (.var ⟨"c", 1⟩)))], []⟩ := by decide
  obtain ⟨d, hd⟩ := h.1.1 (by rw [hparse])
  exact ⟨hparse, d, hd, h.2 d hd⟩

/-! ## Programs in sequence -/

/-- Tokens after a program are parsed as if they were alone, and their statements come after those
of the program. -/
theorem parse_append_of_errors_eq_nil {ts : List Token} (hts : ∀ t ∈ ts, t.isEof = false)
    {eof : Token} (heof : eof.isEof = true) (h : (parse (ts ++ [eof])).errors = [])
    (us : List Token) :
    parse (ts ++ us)
      = ⟨(parse (ts ++ [eof])).statements ++ (parse us).statements, (parse us).errors⟩ := by
  obtain ⟨d, hy, ht⟩ := derives_of_parse_errors_eq_nil h
  have hsentence : sentence (ts ++ [eof]) = ts := by
    rw [sentence_append hts]
    simp [sentence, heof]
  have hyield : d.yield = ts := hy.trans hsentence
  have halone : parse ts = ⟨d.tree, []⟩ :=
    parse_of_strict d (hyield.trans (sentence_eq_self hts).symm)
  have hbalanced : Balanced ts := hyield ▸ d.balanced
  rw [hbalanced.parse_append us, halone, ← ht]
  rfl

end Lox
