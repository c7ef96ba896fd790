import Lox.Eval.Stmt

/-!
# Lox — where a runtime error is raised

A run that ends in a runtime error has come to one expression that could not be evaluated, while all
its operands could. What is reported is what is wrong with this expression and with the values of its
operands.

* **`Expr.Raises`** — an expression that fails although its operands do not.
* **`Expr.ComesTo`**, **`Stmt.ComesTo`** — the expressions that a run comes to.
* **`Stmt.RaisesIn`** — a run that comes to an expression that fails.
* **`Expr.eval_eq_error_iff`**, **`Stmt.execAll_eq_runtime_iff`** — a run fails where it comes to an
  expression that raises an error.
-/

namespace Lox

/-! ## Failing operations -/

theorem bind_eq_error_iff {ε σ α β : Type} {x : EStateM ε σ α} {k : α → EStateM ε σ β} {s s' : σ}
    {e : ε} :
    (x >>= k) s = .error e s'
      ↔ x s = .error e s' ∨ ∃ a s₁, x s = .ok a s₁ ∧ k a s₁ = .error e s' := by
  simp only [bind, EStateM.bind]
  cases x s with
  | ok a s₁ =>
    refine ⟨fun h => .inr ⟨a, s₁, rfl, h⟩, ?_⟩
    rintro (h | ⟨_, _, ⟨⟩, h⟩)
    · cases h
    · exact h
  | error e' s₁ =>
    constructor
    · rintro ⟨⟩
      exact .inl rfl
    · rintro (h | ⟨_, _, h, -⟩)
      · cases h
        rfl
      · cases h

namespace Evaluation

variable {s s' : Store} {err : RuntimeError}

theorem ofOperation_eq_error_iff {sign : Lexeme} {result : Except RuntimeError.Cause Value} :
    ofOperation sign result s = .error err s'
      ↔ ∃ cause, result = .error cause ∧ err = ⟨cause, sign⟩ ∧ s' = s := by
  cases result with
  | ok v => simp [ofOperation]
  | error cause => simp [ofOperation, eq_comm]

theorem read_eq_error_iff {frame : Nat} {name : Lexeme} :
    read frame name s = .error err s'
      ↔ s.get? frame name.text = none ∧ err = ⟨.undefinedVariable name.text, name⟩ ∧ s' = s := by
  unfold read
  cases s.get? frame name.text <;> simp [eq_comm]

theorem write_eq_error_iff {frame : Nat} {name : Lexeme} {v : Value} :
    write frame name v s = .error err s'
      ↔ s.assign? frame name.text v = none ∧ err = ⟨.undefinedVariable name.text, name⟩
        ∧ s' = s := by
  unfold write
  cases s.assign? frame name.text v <;> simp [eq_comm]

end Evaluation

/-! ## Operands that an operator refuses -/

/-- Both values are numbers. -/
def Value.AreNumbers (v w : Value) : Prop := ∃ a b, v = .number a ∧ w = .number b

/-- Both values are strings. -/
def Value.AreStrings (v w : Value) : Prop := ∃ a b, v = .string a ∧ w = .string b

namespace BinaryOp

/-- The operators for numbers only. -/
def numeric : List BinaryOp :=
  [.subtract, .multiply, .divide, .greater, .greaterEqual, .less, .lessEqual]

/-- The operators whose result may be out of range. -/
def arithmetic : List BinaryOp := [.add, .subtract, .multiply, .divide]

variable {op : BinaryOp} {v w : Value} {a b : Decimal} {cause : RuntimeError.Cause}

theorem apply_of_not_numbers (hop : op ∈ numeric) (h : ¬ v.AreNumbers w) :
    op.apply v w = .error (.operandsNotNumbers v w) := by
  unfold apply
  split
  · exact absurd ⟨_, _, rfl, rfl⟩ h
  · exact absurd hop (by decide)
  · exact absurd hop (by decide)
  · exact absurd hop (by decide)
  · exact absurd hop (by decide)
  · rfl

theorem apply_add_of_not (hnumbers : ¬ v.AreNumbers w) (hstrings : ¬ v.AreStrings w) :
    add.apply v w = .error (.operandsNotAddable v w) := by
  unfold apply
  split
  case h_1 => exact absurd ⟨_, _, rfl, rfl⟩ hnumbers
  case h_2 => exact absurd ⟨_, _, rfl, rfl⟩ hstrings
  all_goals simp_all

theorem applyNumbers_eq_error (h : op.applyNumbers a b = .error cause) :
    cause = .divisionByZero ∧ op = .divide ∧ b.isZero = true
      ∨ cause = .overflow ∧ op ∈ arithmetic := by
  have hresult : ∀ r : Option Decimal, Value.ofResult? r = .error cause → cause = .overflow := by
    intro r hr
    cases r <;> cases hr
    rfl
  cases op with
  | equal | notEqual | greater | greaterEqual | less | lessEqual => cases h
  | add | subtract | multiply => exact .inr ⟨hresult _ h, by decide⟩
  | divide =>
    by_cases hzero : b.isZero = true
    · have hcause := (if_pos hzero).symm.trans h
      cases hcause
      exact .inl ⟨rfl, rfl, hzero⟩
    · exact .inr ⟨hresult _ ((if_neg hzero).symm.trans h), by decide⟩

end BinaryOp

/-! ## Expressions -/

namespace Expr

/-- Whether the expression fails in the store `s` with the error `err`, although its operands have
values, and leaves the store `s'`. -/
inductive Raises (frame : Nat) : Expr → Store → RuntimeError → Store → Prop where
  | read {name : Lexeme} {s : Store} (h : s.get? frame name.text = none) :
      Raises frame (.var name) s ⟨.undefinedVariable name.text, name⟩ s
  | write {name : Lexeme} {value : Expr} {s s' : Store} {v : Value}
      (hvalue : value.eval frame s = .ok v s') (h : s'.assign? frame name.text v = none) :
      Raises frame (.assign name value) s ⟨.undefinedVariable name.text, name⟩ s'
  | notNumber {sign : Lexeme} {operand : Expr} {s s' : Store} {v : Value}
      (hoperand : operand.eval frame s = .ok v s') (h : ∀ n, v ≠ .number n) :
      Raises frame (.unary .negate sign operand) s ⟨.operandNotNumber v, sign⟩ s'
  | notNumbers {op : BinaryOp} {sign : Lexeme} {left right : Expr} {s s₁ s' : Store} {l r : Value}
      (hop : op ∈ BinaryOp.numeric) (hleft : left.eval frame s = .ok l s₁)
      (hright : right.eval frame s₁ = .ok r s') (h : ¬ l.AreNumbers r) :
      Raises frame (.binary op sign left right) s ⟨.operandsNotNumbers l r, sign⟩ s'
  | notAddable {sign : Lexeme} {left right : Expr} {s s₁ s' : Store} {l r : Value}
      (hleft : left.eval frame s = .ok l s₁) (hright : right.eval frame s₁ = .ok r s')
      (hnumbers : ¬ l.AreNumbers r) (hstrings : ¬ l.AreStrings r) :
      Raises frame (.binary .add sign left right) s ⟨.operandsNotAddable l r, sign⟩ s'
  | divisionByZero {sign : Lexeme} {left right : Expr} {s s₁ s' : Store} {a b : Decimal}
      (hleft : left.eval frame s = .ok (.number a) s₁)
      (hright : right.eval frame s₁ = .ok (.number b) s') (h : b.isZero = true) :
      Raises frame (.binary .divide sign left right) s ⟨.divisionByZero, sign⟩ s'
  | overflow {op : BinaryOp} {sign : Lexeme} {left right : Expr} {s s₁ s' : Store} {a b : Decimal}
      (hop : op ∈ BinaryOp.arithmetic) (hleft : left.eval frame s = .ok (.number a) s₁)
      (hright : right.eval frame s₁ = .ok (.number b) s')
      (h : op.applyNumbers a b = .error .overflow) :
      Raises frame (.binary op sign left right) s ⟨.overflow, sign⟩ s'

/-- Whether the evaluation of the first expression in the first store comes to the evaluation of the
second one in the second store. -/
inductive ComesTo (frame : Nat) : Expr → Store → Expr → Store → Prop where
  | here (e : Expr) (s : Store) : ComesTo frame e s e s
  | assign {value e' : Expr} {s s' : Store} (name : Lexeme) (h : ComesTo frame value s e' s') :
      ComesTo frame (.assign name value) s e' s'
  | group {inner e' : Expr} {s s' : Store} (h : ComesTo frame inner s e' s') :
      ComesTo frame (.group inner) s e' s'
  | unary {operand e' : Expr} {s s' : Store} (op : UnaryOp) (sign : Lexeme)
      (h : ComesTo frame operand s e' s') : ComesTo frame (.unary op sign operand) s e' s'
  | left {left e' : Expr} {s s' : Store} (op : BinaryOp) (sign : Lexeme) (right : Expr)
      (h : ComesTo frame left s e' s') : ComesTo frame (.binary op sign left right) s e' s'
  | right {left right e' : Expr} {s s₁ s' : Store} {l : Value} (op : BinaryOp) (sign : Lexeme)
      (hleft : left.eval frame s = .ok l s₁) (h : ComesTo frame right s₁ e' s') :
      ComesTo frame (.binary op sign left right) s e' s'

variable {frame : Nat} {e e' : Expr} {s s₁ s' : Store} {err : RuntimeError}

theorem Raises.of_unary {op : UnaryOp} {sign : Lexeme} {operand : Expr} {v : Value}
    {cause : RuntimeError.Cause} (hoperand : operand.eval frame s = .ok v s')
    (h : op.apply v = .error cause) : Raises frame (.unary op sign operand) s ⟨cause, sign⟩ s' := by
  unfold UnaryOp.apply at h
  split at h
  · cases h
  · next hne =>
    cases h
    exact .notNumber hoperand fun n hn => hne n hn
  · cases h

theorem Raises.of_binary {op : BinaryOp} {sign : Lexeme} {left right : Expr} {l r : Value}
    {cause : RuntimeError.Cause} (hleft : left.eval frame s = .ok l s₁)
    (hright : right.eval frame s₁ = .ok r s') (h : op.apply l r = .error cause) :
    Raises frame (.binary op sign left right) s ⟨cause, sign⟩ s' := by
  unfold BinaryOp.apply at h
  split at h
  · rcases BinaryOp.applyNumbers_eq_error h with ⟨rfl, rfl, hzero⟩ | ⟨rfl, hop⟩
    · exact .divisionByZero hleft hright hzero
    · exact .overflow hop hleft hright h
  · cases h
  · cases h
  · cases h
  · next hnumbers hstrings =>
    cases h
    exact .notAddable hleft hright (fun ⟨a, b, hl, hr⟩ => hnumbers a b hl hr)
      fun ⟨a, b, hl, hr⟩ => hstrings a b hl hr
  · next hequal hnotEqual hadd hnumbers _ =>
    cases h
    have hop : op ∈ BinaryOp.numeric := by
      cases op with
      | equal => exact (hequal rfl).elim
      | notEqual => exact (hnotEqual rfl).elim
      | add => exact (hadd rfl).elim
      | _ => decide
    exact .notNumbers hop hleft hright fun ⟨a, b, hl, hr⟩ => hnumbers a b hl hr

theorem evaluation_binary {op : BinaryOp} {sign : Lexeme} {left right : Expr} {l r : Value}
    {cause : RuntimeError.Cause} (hleft : left.eval frame s = .ok l s₁)
    (hright : right.eval frame s₁ = .ok r s') (h : op.apply l r = .error cause) :
    (binary op sign left right).eval frame s = .error ⟨cause, sign⟩ s' :=
  bind_eq_error_iff.2 (.inr ⟨_, _, hleft, bind_eq_error_iff.2
      (.inr ⟨_, _, hright, Evaluation.ofOperation_eq_error_iff.2 ⟨_, h, rfl, rfl⟩⟩)⟩)

theorem Raises.eval_eq_error (h : e.Raises frame s err s') : e.eval frame s = .error err s' := by
  cases h with
  | read h => exact Evaluation.read_eq_error_iff.2 ⟨h, rfl, rfl⟩
  | write hvalue h =>
    exact bind_eq_error_iff.2 (.inr ⟨_, _, hvalue, Evaluation.write_eq_error_iff.2 ⟨h, rfl, rfl⟩⟩)
  | @notNumber sign operand _ _ v hoperand h =>
    have hcause : UnaryOp.negate.apply v = .error (.operandNotNumber v) := by
      cases v with
      | number n => exact absurd rfl (h n)
      | _ => rfl
    exact bind_eq_error_iff.2
      (.inr ⟨_, _, hoperand, Evaluation.ofOperation_eq_error_iff.2 ⟨_, hcause, rfl, rfl⟩⟩)
  | notNumbers hop hleft hright h =>
    exact evaluation_binary hleft hright (BinaryOp.apply_of_not_numbers hop h)
  | notAddable hleft hright hnumbers hstrings =>
    exact evaluation_binary hleft hright (BinaryOp.apply_add_of_not hnumbers hstrings)
  | divisionByZero hleft hright h => exact evaluation_binary hleft hright (if_pos h)
  | overflow hop hleft hright h => exact evaluation_binary hleft hright h

/-- An error on the way is the error of the whole. -/
theorem ComesTo.eval_eq_error (h : e.ComesTo frame s e' s₁)
    (herr : e'.eval frame s₁ = .error err s') : e.eval frame s = .error err s' := by
  induction h with
  | here e s => exact herr
  | group _ ih => exact ih herr
  | assign name _ ih => exact bind_eq_error_iff.2 (.inl (ih herr))
  | unary op sign _ ih => exact bind_eq_error_iff.2 (.inl (ih herr))
  | left op sign right _ ih => exact bind_eq_error_iff.2 (.inl (ih herr))
  | right op sign hleft _ ih =>
    exact bind_eq_error_iff.2 (.inr ⟨_, _, hleft, bind_eq_error_iff.2 (.inl (ih herr))⟩)

/-- **An evaluation fails where it comes to an expression that raises an error.** -/
theorem eval_eq_error_iff :
    e.eval frame s = .error err s'
      ↔ ∃ e' s₁, e.ComesTo frame s e' s₁ ∧ e'.Raises frame s₁ err s' := by
  refine ⟨fun h => ?_, fun ⟨e', s₁, hcomes, hraises⟩ => hcomes.eval_eq_error hraises.eval_eq_error⟩
  induction e generalizing s with
  | literal l => cases h
  | var name =>
    obtain ⟨hnone, rfl, rfl⟩ := Evaluation.read_eq_error_iff.1 h
    exact ⟨_, _, .here _ _, .read hnone⟩
  | assign name value ih =>
    rcases bind_eq_error_iff.1 h with hvalue | ⟨v, s₁, hvalue, hwrite⟩
    · obtain ⟨e', s₂, hcomes, hraises⟩ := ih hvalue
      exact ⟨e', s₂, .assign name hcomes, hraises⟩
    · obtain ⟨hnone, rfl, rfl⟩ := Evaluation.write_eq_error_iff.1 hwrite
      exact ⟨_, _, .here _ _, .write hvalue hnone⟩
  | group inner ih =>
    obtain ⟨e', s₂, hcomes, hraises⟩ := ih h
    exact ⟨e', s₂, .group hcomes, hraises⟩
  | unary op sign operand ih =>
    rcases bind_eq_error_iff.1 h with hoperand | ⟨v, s₁, hoperand, happly⟩
    · obtain ⟨e', s₂, hcomes, hraises⟩ := ih hoperand
      exact ⟨e', s₂, .unary op sign hcomes, hraises⟩
    · obtain ⟨cause, hcause, rfl, rfl⟩ := Evaluation.ofOperation_eq_error_iff.1 happly
      exact ⟨_, _, .here _ _, .of_unary hoperand hcause⟩
  | binary op sign left right ihl ihr =>
    rcases bind_eq_error_iff.1 h with hleft | ⟨l, s₁, hleft, hrest⟩
    · obtain ⟨e', s₂, hcomes, hraises⟩ := ihl hleft
      exact ⟨e', s₂, .left op sign right hcomes, hraises⟩
    · rcases bind_eq_error_iff.1 hrest with hright | ⟨r, s₂, hright, happly⟩
      · obtain ⟨e', s₂, hcomes, hraises⟩ := ihr hright
        exact ⟨e', s₂, .right op sign hleft hcomes, hraises⟩
      · obtain ⟨cause, hcause, rfl, rfl⟩ := Evaluation.ofOperation_eq_error_iff.1 happly
        exact ⟨_, _, .here _ _, .of_binary hleft hright hcause⟩

end Expr

/-! ## Statements -/

namespace Expr

variable {frame : Nat} {e : Expr} {m m' : Machine} {err : RuntimeError}

theorem run_eq_runtime_iff :
    e.run frame m = .error (.runtime err) m'
      ↔ ∃ s', e.eval frame m.store = .error err s' ∧ m' = ⟨s', m.sink⟩ := by
  obtain ⟨store, sink⟩ := m
  simp only [run, Execution.ofEvaluation]
  cases e.eval frame store with
  | ok v s' => exact ⟨nofun, nofun⟩
  | error err' s' =>
    constructor
    · rintro ⟨⟩
      exact ⟨_, rfl, rfl⟩
    · rintro ⟨_, ⟨⟩, rfl⟩
      rfl

theorem exists_raises_of_run (h : e.run frame m = .error (.runtime err) m') :
    ∃ e' s₁ s', e.ComesTo frame m.store e' s₁ ∧ e'.Raises frame s₁ err s' := by
  obtain ⟨s', heval, -⟩ := run_eq_runtime_iff.1 h
  obtain ⟨e', s₁, hcomes, hraises⟩ := eval_eq_error_iff.1 heval
  exact ⟨e', s₁, s', hcomes, hraises⟩

end Expr

namespace Stmt

/-- Whether the execution of the statements in the given frame and on the given machine comes to the
evaluation of the expression in the given frame and store. -/
inductive ComesTo : Nat → List Stmt → Machine → Nat → Expr → Store → Prop where
  | expression {frame : Nat} {e e' : Expr} {rest : List Stmt} {m : Machine} {s' : Store}
      (h : e.ComesTo frame m.store e' s') : ComesTo frame (.expression e :: rest) m frame e' s'
  | print {frame : Nat} {e e' : Expr} {rest : List Stmt} {m : Machine} {s' : Store}
      (h : e.ComesTo frame m.store e' s') : ComesTo frame (.print e :: rest) m frame e' s'
  | declaration {frame : Nat} {e e' : Expr} {rest : List Stmt} {m : Machine} {s' : Store}
      (name : Lexeme) (h : e.ComesTo frame m.store e' s') :
      ComesTo frame (.declaration name (some e) :: rest) m frame e' s'
  | block {frame frame' : Nat} {body rest : List Stmt} {m : Machine} {e' : Expr} {s' : Store}
      (h : ComesTo m.store.size body ⟨m.store.enclose frame, m.sink⟩ frame' e' s') :
      ComesTo frame (.block body :: rest) m frame' e' s'
  | later {frame frame' : Nat} {s : Stmt} {rest : List Stmt} {m m₁ : Machine} {e' : Expr}
      {s' : Store} (hs : s.exec frame m = .ok () m₁) (h : ComesTo frame rest m₁ frame' e' s') :
      ComesTo frame (s :: rest) m frame' e' s'

/-- Whether the execution of the statements comes to an expression that raises the error. -/
def RaisesIn (frame : Nat) (ss : List Stmt) (m : Machine) (err : RuntimeError) : Prop :=
  ∃ frame' e s s', ComesTo frame ss m frame' e s ∧ e.Raises frame' s err s'

variable {frame frame' : Nat} {ss : List Stmt} {m m' : Machine} {e' : Expr} {s₁ s' : Store}
  {err : RuntimeError}

theorem execAll_cons_eq_error_iff {s : Stmt} {rest : List Stmt} {halt : Halt} :
    execAll frame (s :: rest) m = .error halt m'
      ↔ s.exec frame m = .error halt m'
        ∨ ∃ m₁, s.exec frame m = .ok () m₁ ∧ execAll frame rest m₁ = .error halt m' := by
  rw [execAll, bind_eq_error_iff]
  refine or_congr_right ?_
  constructor
  · rintro ⟨_, m₁, hs, h⟩
    exact ⟨m₁, hs, h⟩
  · rintro ⟨m₁, hs, h⟩
    exact ⟨(), m₁, hs, h⟩

theorem exec_block_eq_error_iff {body : List Stmt} {halt : Halt} :
    (block body).exec frame m = .error halt m'
      ↔ ∃ m₁, execAll m.store.size body ⟨m.store.enclose frame, m.sink⟩ = .error halt m₁
        ∧ m' = { m₁ with store := m₁.store.drop } := by
  obtain ⟨store, sink⟩ := m
  simp only [exec, Execution.inside]
  cases execAll store.size body ⟨store.enclose frame, sink⟩ with
  | ok a m₁ => simp
  | error halt' m₁ =>
    constructor
    · rintro ⟨⟩
      exact ⟨_, rfl, rfl⟩
    · rintro ⟨_, ⟨⟩, rfl⟩
      rfl

/-- An error on the way ends the execution. -/
theorem ComesTo.execAll_eq_runtime (h : ComesTo frame ss m frame' e' s₁)
    (herr : e'.eval frame' s₁ = .error err s') :
    ∃ m', execAll frame ss m = .error (.runtime err) m' := by
  induction h with
  | expression h | print h | declaration name h =>
    have hrun := Expr.run_eq_runtime_iff.2 ⟨s', h.eval_eq_error herr, rfl⟩
    exact ⟨_, execAll_cons_eq_error_iff.2 (.inl (bind_eq_error_iff.2 (.inl hrun)))⟩
  | block h ih =>
    obtain ⟨m₁, hbody⟩ := ih herr
    exact ⟨_, execAll_cons_eq_error_iff.2 (.inl (exec_block_eq_error_iff.2 ⟨m₁, hbody, rfl⟩))⟩
  | later hs h ih =>
    obtain ⟨m₁, hrest⟩ := ih herr
    exact ⟨_, execAll_cons_eq_error_iff.2 (.inr ⟨_, hs, hrest⟩)⟩

mutual

theorem raisesIn_of_exec : (s : Stmt) → {frame : Nat} → {m m' : Machine} →
    s.exec frame m = .error (.runtime err) m' → (rest : List Stmt) → RaisesIn frame (s :: rest) m err
  | .expression e, frame, m, m', h, rest => by
    rcases bind_eq_error_iff.1 h with hrun | ⟨v, m₁, -, hend⟩
    · obtain ⟨e', s₁, s', hcomes, hraises⟩ := Expr.exists_raises_of_run hrun
      exact ⟨frame, e', s₁, s', .expression hcomes, hraises⟩
    · cases hend
  | .print e, frame, m, m', h, rest => by
    rcases bind_eq_error_iff.1 h with hrun | ⟨v, m₁, -, hprint⟩
    · obtain ⟨e', s₁, s', hcomes, hraises⟩ := Expr.exists_raises_of_run hrun
      exact ⟨frame, e', s₁, s', .print hcomes, hraises⟩
    · -- a sink that refuses the line is no runtime error
      simp only [Execution.printLine, Execution.emit] at hprint
      split at hprint <;> cases hprint
  | .declaration name none, frame, m, m', h, rest => by
    rcases bind_eq_error_iff.1 h with hrun | ⟨v, m₁, -, hdefine⟩
    · cases hrun
    · cases hdefine
  | .declaration name (some e), frame, m, m', h, rest => by
    rcases bind_eq_error_iff.1 h with hrun | ⟨v, m₁, -, hdefine⟩
    · obtain ⟨e', s₁, s', hcomes, hraises⟩ := Expr.exists_raises_of_run hrun
      exact ⟨frame, e', s₁, s', .declaration name hcomes, hraises⟩
    · cases hdefine
  | .block body, frame, m, m', h, rest => by
    obtain ⟨m₁, hbody, -⟩ := exec_block_eq_error_iff.1 h
    obtain ⟨frame', e', s₁, s', hcomes, hraises⟩ := raisesIn_of_execAll body hbody
    exact ⟨frame', e', s₁, s', .block hcomes, hraises⟩

theorem raisesIn_of_execAll : (ss : List Stmt) → {frame : Nat} → {m m' : Machine} →
    execAll frame ss m = .error (.runtime err) m' → RaisesIn frame ss m err
  | [], frame, m, m', h => by cases h
  | s :: rest, frame, m, m', h => by
    rcases execAll_cons_eq_error_iff.1 h with hs | ⟨m₁, hs, hrest⟩
    · exact raisesIn_of_exec s hs rest
    · obtain ⟨frame', e', s₁, s', hcomes, hraises⟩ := raisesIn_of_execAll rest hrest
      exact ⟨frame', e', s₁, s', .later hs hcomes, hraises⟩

end

/-- **An execution ends in a runtime error where it comes to an expression that raises it.** -/
theorem execAll_eq_runtime_iff :
    (∃ m', execAll frame ss m = .error (.runtime err) m') ↔ RaisesIn frame ss m err :=
  ⟨fun ⟨_, h⟩ => raisesIn_of_execAll ss h,
    fun ⟨_, _, _, _, hcomes, hraises⟩ => hcomes.execAll_eq_runtime hraises.eval_eq_error⟩

end Stmt

end Lox
