import Lox.Proofs.Relabel.Tree

/-!
# Lox — execution looks at the texts of lexemes only

Names are looked up by their text. So other lexemes with the same texts change nothing but the
lexeme that an error blames.

* **`Expr.eval_relabel`** — evaluation.
* **`Stmt.execAll_relabel`** — execution.
-/

namespace Lox

/-! ## Other errors for the same computation -/

section

variable {ε ε' σ α β : Type} (g : ε → ε')

theorem adaptExcept_bind (x : EStateM ε σ α) (k : α → EStateM ε σ β) :
    EStateM.adaptExcept g (x >>= k)
      = EStateM.adaptExcept g x >>= fun a => EStateM.adaptExcept g (k a) := by
  funext s
  simp only [bind, EStateM.bind, EStateM.adaptExcept]
  cases x s <;> rfl

end

variable {f : Lexeme → Lexeme}

/-! ## Expressions -/

namespace Evaluation

theorem ofOperation_relabel (sign : Lexeme) (result : Except RuntimeError.Cause Value) :
    ofOperation (f sign) result
      = EStateM.adaptExcept (RuntimeError.relabel f) (ofOperation sign result) := by
  cases result <;> rfl

variable (hf : ∀ x, (f x).text = x.text) (frame : Nat) (name : Lexeme)

include hf

theorem read_relabel :
    read frame (f name) = EStateM.adaptExcept (RuntimeError.relabel f) (read frame name) := by
  funext s
  simp only [read, EStateM.adaptExcept, hf]
  cases s.get? frame name.text <;> rfl

theorem write_relabel (v : Value) :
    write frame (f name) v
      = EStateM.adaptExcept (RuntimeError.relabel f) (write frame name v) := by
  funext s
  simp only [write, EStateM.adaptExcept, hf]
  cases s.assign? frame name.text v <;> rfl

end Evaluation

/-- Evaluation looks at nothing but the texts of names. -/
theorem Expr.eval_relabel (hf : ∀ x, (f x).text = x.text) (frame : Nat) (e : Expr) :
    (e.relabel f).eval frame
      = EStateM.adaptExcept (RuntimeError.relabel f) (e.eval frame) := by
  induction e with
  | literal l => rfl
  | var name => exact Evaluation.read_relabel hf frame name
  | assign name value ih =>
    rw [relabel, eval, eval, ih, adaptExcept_bind]
    simp only [Evaluation.write_relabel hf]
  | group inner ih => exact ih
  | unary op sign operand ih =>
    rw [relabel, eval, eval, ih, adaptExcept_bind]
    simp only [Evaluation.ofOperation_relabel]
  | binary op sign left right ihl ihr =>
    rw [relabel, eval, eval, ihl, ihr, adaptExcept_bind]
    simp only [adaptExcept_bind, Evaluation.ofOperation_relabel]

/-! ## Statements -/

namespace Execution

theorem ofEvaluation_relabel {α : Type} (x : Evaluation α) :
    ofEvaluation (EStateM.adaptExcept (RuntimeError.relabel f) x)
      = EStateM.adaptExcept (Halt.relabel f) (ofEvaluation x) := by
  funext ⟨store, sink⟩
  simp only [ofEvaluation, EStateM.adaptExcept]
  cases x store <;> rfl

theorem emit_relabel (text : String) :
    EStateM.adaptExcept (Halt.relabel f) (emit text) = emit text := by
  funext ⟨store, sink⟩
  simp only [emit, EStateM.adaptExcept]
  rcases sink.write text with ⟨_ | reason, sink'⟩ <;> rfl

theorem inside_relabel {α : Type} (frame : Nat) (body : Nat → Execution α) :
    inside frame (fun inner => EStateM.adaptExcept (Halt.relabel f) (body inner))
      = EStateM.adaptExcept (Halt.relabel f) (inside frame body) := by
  funext ⟨store, sink⟩
  simp only [inside, EStateM.adaptExcept]
  cases body store.size ⟨store.enclose frame, sink⟩ <;> rfl

end Execution

section

variable (hf : ∀ x, (f x).text = x.text) (frame : Nat)

include hf

theorem Expr.run_relabel (e : Expr) :
    (e.relabel f).run frame = EStateM.adaptExcept (Halt.relabel f) (e.run frame) := by
  rw [run, run, eval_relabel hf, Execution.ofEvaluation_relabel]

theorem initialValue_relabel (initial : Option Expr) :
    initialValue frame (initial.map (Expr.relabel f))
      = EStateM.adaptExcept (Halt.relabel f) (initialValue frame initial) := by
  cases initial with
  | none => rfl
  | some e => exact Expr.run_relabel hf frame e

end

mutual

theorem Stmt.exec_relabel (hf : ∀ x, (f x).text = x.text) (frame : Nat) : (s : Stmt) →
    (s.relabel f).exec frame = EStateM.adaptExcept (Halt.relabel f) (s.exec frame)
  | .expression e => by
    rw [relabel, exec, exec, Expr.run_relabel hf, adaptExcept_bind]
    rfl
  | .print e => by
    rw [relabel, exec, exec, Expr.run_relabel hf, adaptExcept_bind]
    simp only [Execution.printLine, Execution.emit_relabel]
  | .declaration name initial => by
    rw [relabel, exec, exec, initialValue_relabel hf, adaptExcept_bind, hf]
    rfl
  | .block body => by
    -- the number of the block's frame is fixed only when the block is entered
    have hbody : (fun inner => execAll inner (relabelAll f body))
        = fun inner => EStateM.adaptExcept (Halt.relabel f) (execAll inner body) := by
      funext inner
      exact execAll_relabel hf inner body
    rw [relabel, exec, exec, hbody, Execution.inside_relabel]

/-- Execution looks at nothing but the texts of names. -/
theorem Stmt.execAll_relabel (hf : ∀ x, (f x).text = x.text) (frame : Nat) : (ss : List Stmt) →
    execAll frame (relabelAll f ss) = EStateM.adaptExcept (Halt.relabel f) (execAll frame ss)
  | [] => rfl
  | s :: rest => by
    rw [relabelAll, execAll, execAll, exec_relabel hf, execAll_relabel hf, adaptExcept_bind]

end

end Lox
