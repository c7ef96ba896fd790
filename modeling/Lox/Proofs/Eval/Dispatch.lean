import Lox.Proofs.Parse.Kept
import Lox.Proofs.Session.Lines

/-!
# Lox — operators that are looked up at run time

A raw tree has whole tokens in the places of its names and operators, and nothing about it says
that these are of the right kind. So a run over it looks at the kind of an operator once the
operands are evaluated, and is stuck if no operator of that place is written so.

What the parser reads never gets stuck. The tokens in its raw trees are those that it was given, and
a run looks up the operator that the parser saw.

* **`rawTrees`** — what the parser reads, with the tokens that it was given.
* **`RawStmt.execAll`** — execution that looks operators up.
* **`Token.Kind.applyBinary?_eq`** — what is looked up is what the operator does.
* **`RawStmt.execAll_rawAll`** — trees of known operators are executed as before.
* **`rawTrees_law`** — the raw trees of a token sequence, and every run over them.
-/

namespace Lox

/-! ## Raw trees -/

/-- An expression with whole tokens. -/
inductive RawExpr where
  | literal (value : Literal)
  | var (name : Token)
  | assign (name : Token) (value : RawExpr)
  | group (inner : RawExpr)
  | unary (operator : Token) (operand : RawExpr)
  | binary (operator : Token) (left right : RawExpr)

/-- A statement with whole tokens. -/
inductive RawStmt where
  | expression (e : RawExpr)
  | print (e : RawExpr)
  | declaration (name : Token) (initial : Option RawExpr)
  | block (body : List RawStmt)

/-- The kinds of the operators before an operand. -/
def UnaryOp.kinds : List Token.Kind := [.minus, .bang]

/-- The kinds of the operators between operands. -/
def BinaryOp.kinds : List Token.Kind :=
  [.plus, .minus, .star, .slash, .greater, .greaterEqual, .less, .lessEqual, .equalEqual,
   .bangEqual]

/-- Whether all names are identifiers and all operators are of the kinds that their places have. -/
def RawExpr.WellKinded : RawExpr → Prop
  | .literal _ => True
  | .var name => name.kind = .identifier
  | .assign name value => name.kind = .identifier ∧ value.WellKinded
  | .group inner => inner.WellKinded
  | .unary operator operand => operator.kind ∈ UnaryOp.kinds ∧ operand.WellKinded
  | .binary operator left right =>
    operator.kind ∈ BinaryOp.kinds ∧ left.WellKinded ∧ right.WellKinded

mutual

/-- The same for a statement. -/
def RawStmt.WellKinded : RawStmt → Prop
  | .expression e | .print e => e.WellKinded
  | .declaration name none => name.kind = .identifier
  | .declaration name (some e) => name.kind = .identifier ∧ e.WellKinded
  | .block body => RawStmt.WellKindedAll body

/-- The same for statements. -/
def RawStmt.WellKindedAll : List RawStmt → Prop
  | [] => True
  | s :: rest => s.WellKinded ∧ RawStmt.WellKindedAll rest

end

/-! ## The raw trees of a token sequence -/

section

variable (f : Token → Token)

/-- An expression with a token in the place of each name and operator. -/
def Expr.raw : Expr → RawExpr
  | .literal value => .literal value
  | .var name => .var (f ⟨name, .identifier⟩)
  | .assign name value => .assign (f ⟨name, .identifier⟩) value.raw
  | .group inner => .group inner.raw
  | .unary op sign operand => .unary (f ⟨sign, op.kind⟩) operand.raw
  | .binary op sign left right => .binary (f ⟨sign, op.kind⟩) left.raw right.raw

mutual

/-- A statement with a token in the place of each name and operator. -/
def Stmt.raw : Stmt → RawStmt
  | .expression e => .expression (e.raw f)
  | .print e => .print (e.raw f)
  | .declaration name initial => .declaration (f ⟨name, .identifier⟩) (initial.map (Expr.raw f))
  | .block body => .block (Stmt.rawAll body)

def Stmt.rawAll : List Stmt → List RawStmt
  | [] => []
  | s :: rest => s.raw :: Stmt.rawAll rest

end

end

/-- **What the parser reads, with the tokens that it was given.** The tokens are numbered, and each
name and operator that is read stands for the token with its number, whatever the kind of that. -/
def rawTrees (ts : List Token) : List RawStmt :=
  Stmt.rawAll (fun t => ts[t.line]?.getD t) (parse (numbered ts)).statements

section

variable {f g : Token → Token}

theorem Expr.raw_congr {e : Expr} (h : ∀ t ∈ e.kept, f t = g t) : e.raw f = e.raw g := by
  induction e with
  | literal value => rfl
  | var name => rw [raw, raw, h _ (List.mem_singleton.2 rfl)]
  | assign name value ih =>
    obtain ⟨hname, hvalue⟩ := List.forall_mem_cons.1 h
    rw [raw, raw, hname, ih hvalue]
  | group inner ih =>
    rw [kept_group] at h
    rw [raw, raw, ih h]
  | unary op sign operand ih =>
    rw [kept_unary] at h
    obtain ⟨hsign, hoperand⟩ := List.forall_mem_cons.1 h
    rw [raw, raw, hsign, ih hoperand]
  | binary op sign left right ihl ihr =>
    rw [kept_binary] at h
    obtain ⟨hleft, hrest⟩ := List.forall_mem_append.1 h
    obtain ⟨hsign, hright⟩ := List.forall_mem_cons.1 hrest
    rw [raw, raw, hsign, ihl hleft, ihr hright]

mutual

theorem Stmt.raw_congr : {s : Stmt} → (∀ t ∈ s.kept, f t = g t) → s.raw f = s.raw g
  | .expression e, h => by
    rw [kept_expression] at h
    rw [raw, raw, Expr.raw_congr h]
  | .print e, h => by
    rw [kept_print] at h
    rw [raw, raw, Expr.raw_congr h]
  | .declaration name none, h => by
    rw [raw, raw, h _ (List.mem_singleton.2 rfl)]
    rfl
  | .declaration name (some e), h => by
    rw [kept_declaration_some] at h
    obtain ⟨hname, he⟩ := List.forall_mem_cons.1 h
    rw [raw, raw, hname, Option.map_some, Option.map_some, Expr.raw_congr he]
  | .block body, h => by
    rw [kept_block] at h
    rw [raw, raw, rawAll_congr h]

theorem Stmt.rawAll_congr :
    {ss : List Stmt} → (∀ t ∈ keptOfAll ss, f t = g t) → rawAll f ss = rawAll g ss
  | [], _ => rfl
  | s :: rest, h => by
    rw [keptOfAll_cons] at h
    obtain ⟨hs, hrest⟩ := List.forall_mem_append.1 h
    rw [rawAll, rawAll, raw_congr hs, rawAll_congr hrest]

end

end

section

variable (r : Lexeme → Lexeme)

/-- Other lexemes in a tree are other lexemes in its tokens. -/
theorem Expr.raw_relabel (e : Expr) : (e.relabel r).raw id = e.raw (Token.relabel r) := by
  induction e with
  | literal value => rfl
  | var name => rfl
  | assign name value ih => rw [relabel, raw, ih]; rfl
  | group inner ih => rw [relabel, raw, ih]; rfl
  | unary op sign operand ih => rw [relabel, raw, ih]; rfl
  | binary op sign left right ihl ihr => rw [relabel, raw, ihl, ihr]; rfl

mutual

theorem Stmt.raw_relabel : (s : Stmt) → (s.relabel r).raw id = s.raw (Token.relabel r)
  | .expression e => by rw [relabel, raw, e.raw_relabel, raw]
  | .print e => by rw [relabel, raw, e.raw_relabel, raw]
  | .declaration name none => rfl
  | .declaration name (some e) => by
    rw [relabel, raw, Option.map_some, Option.map_some, e.raw_relabel, raw]
    rfl
  | .block body => by rw [relabel, raw, rawAll_relabelAll, raw]

theorem Stmt.rawAll_relabelAll :
    (ss : List Stmt) → rawAll id (relabelAll r ss) = rawAll (Token.relabel r) ss
  | [] => rfl
  | s :: rest => by rw [relabelAll, rawAll, s.raw_relabel, rawAll_relabelAll rest, rawAll]

end

end

/-- The token with the number of a numbered token is this one with its line put back in. -/
theorem getD_of_mem_numbered {ts : List Token} {t : Token} (h : t ∈ numbered ts) :
    ts[t.line]?.getD t = t.relabel (Lexeme.relined ts) := by
  obtain ⟨i, hi⟩ := List.mem_iff_getElem?.1 h
  rw [getElem?_numbered] at hi
  obtain ⟨u, hu, rfl⟩ := Option.map_eq_some_iff.1 hi
  simp [Token.relabel, Lexeme.relined, hu]

/-- The operators that the parser knows have the kinds of the tokens that it was given. -/
theorem rawTrees_eq (ts : List Token) : rawTrees ts = Stmt.rawAll id (parse ts).statements := by
  have hstay : ∀ t ∈ Stmt.keptOfAll (parse (numbered ts)).statements,
      ts[t.line]?.getD t = t.relabel (Lexeme.relined ts) := by
    intro t ht
    have hread := (keptOfAll_parse_sublist (numbered ts)).subset ht
    exact getD_of_mem_numbered ((List.takeWhile_sublist _).subset hread)
  calc rawTrees ts
    _ = Stmt.rawAll (Token.relabel (Lexeme.relined ts)) (parse (numbered ts)).statements :=
      Stmt.rawAll_congr hstay
    _ = Stmt.rawAll id
        (parse ((numbered ts).map (Token.relabel (Lexeme.relined ts)))).statements := by
      rw [statements_parse_relabel, Stmt.rawAll_relabelAll]
    _ = Stmt.rawAll id (parse ts).statements := by rw [map_relabel_numbered]

/-! ## Kinds -/

theorem UnaryOp.kind_mem_kinds (op : UnaryOp) : op.kind ∈ UnaryOp.kinds := by
  cases op <;> decide

theorem BinaryOp.kind_mem_kinds (op : BinaryOp) : op.kind ∈ BinaryOp.kinds := by
  cases op <;> decide

theorem Expr.wellKinded_raw (e : Expr) : (e.raw id).WellKinded := by
  induction e with
  | literal value => trivial
  | var name => rfl
  | assign name value ih => exact ⟨rfl, ih⟩
  | group inner ih => exact ih
  | unary op sign operand ih => exact ⟨op.kind_mem_kinds, ih⟩
  | binary op sign left right ihl ihr => exact ⟨op.kind_mem_kinds, ihl, ihr⟩

mutual

theorem Stmt.wellKinded_raw : (s : Stmt) → (s.raw id).WellKinded
  | .expression e | .print e => e.wellKinded_raw
  | .declaration _ none => rfl
  | .declaration _ (some e) => ⟨rfl, e.wellKinded_raw⟩
  | .block body => wellKindedAll_rawAll body

theorem Stmt.wellKindedAll_rawAll : (ss : List Stmt) → RawStmt.WellKindedAll (rawAll id ss)
  | [] => trivial
  | s :: rest => ⟨s.wellKinded_raw, wellKindedAll_rawAll rest⟩

end

/-! ## Looking operators up -/

namespace Token.Kind

/-- Applies the operator before an operand that is written so, if there is one. -/
def applyUnary? : Token.Kind → Value → Option (Except RuntimeError.Cause Value)
  | .minus, .number n => some (.ok (.number n.neg))
  | .minus, v => some (.error (.operandNotNumber v))
  | .bang, v => some (.ok (.bool !v.truthy))
  | _, _ => none

/-- Applies the operator between operands that is written so, if there is one. Only after the pairs
of operands that an operator is for come those that it refuses. -/
def applyBinary? : Token.Kind → Value → Value → Option (Except RuntimeError.Cause Value)
  | .minus, .number a, .number b => some (Value.ofResult? (a.sub? b))
  | .plus, .number a, .number b => some (Value.ofResult? (a.add? b))
  | .star, .number a, .number b => some (Value.ofResult? (a.mul? b))
  | .slash, .number a, .number b =>
    some (if b.isZero then .error .divisionByZero else Value.ofResult? (a.div? b))
  | .plus, .string s, .string t => some (.ok (.string (s ++ t)))
  | .greater, .number a, .number b => some (.ok (.bool (a.order b).isGT))
  | .greaterEqual, .number a, .number b => some (.ok (.bool (a.order b).isGE))
  | .less, .number a, .number b => some (.ok (.bool (a.order b).isLT))
  | .lessEqual, .number a, .number b => some (.ok (.bool (a.order b).isLE))
  | .equalEqual, v, w => some (.ok (.bool (v.equals w)))
  | .bangEqual, v, w => some (.ok (.bool !v.equals w))
  | .plus, v, w => some (.error (.operandsNotAddable v w))
  | .minus, v, w | .star, v, w | .slash, v, w | .greater, v, w | .greaterEqual, v, w | .less, v, w
  | .lessEqual, v, w => some (.error (.operandsNotNumbers v w))
  | _, _, _ => none

/-- What is looked up does what the operator does, whatever the operand. -/
theorem applyUnary?_eq (k : Token.Kind) (v : Value) :
    k.applyUnary? v = (UnaryOp.ofKind? k).map (·.apply v) := by
  cases k with
  | minus => cases v <;> rfl
  | _ => rfl

/-- What is looked up does what the operator does, whatever the operands. -/
theorem applyBinary?_eq (k : Token.Kind) (v w : Value) :
    k.applyBinary? v w = (BinaryOp.ofKind? k).map (·.apply v w) := by
  cases k <;> first | rfl | (cases v <;> first | rfl | (cases w <;> rfl))

/-- Whether an operator is found does not depend on the operand. -/
theorem isSome_applyUnary?_iff (k : Token.Kind) (v : Value) :
    (k.applyUnary? v).isSome = true ↔ k ∈ UnaryOp.kinds := by
  rw [applyUnary?_eq, Option.isSome_map]
  cases k <;> simp [UnaryOp.ofKind?, UnaryOp.kinds]

/-- Whether an operator is found does not depend on the operands. -/
theorem isSome_applyBinary?_iff (k : Token.Kind) (v w : Value) :
    (k.applyBinary? v w).isSome = true ↔ k ∈ BinaryOp.kinds := by
  rw [applyBinary?_eq, Option.isSome_map]
  cases k <;> simp [BinaryOp.ofKind?, BinaryOp.kinds]

end Token.Kind

/-! ## Runs over raw trees -/

/-- Why a run over raw trees stops: it fails, or a token is not the operator that its place
wants. -/
inductive Stop (ε : Type) where
  | failed (error : ε)
  | stuck (operator : Token)

/-- A computation that may get stuck. -/
abbrev RawEvaluation := EStateM (Stop RuntimeError) Store

/-- An execution that may get stuck. -/
abbrev RawExecution := EStateM (Stop Halt) Machine

/-- The result of an operation, if there is one. -/
def RawEvaluation.ofOperation (operator : Token) :
    Option (Except RuntimeError.Cause Value) → RawEvaluation Value
  | some result => EStateM.adaptExcept .failed (Evaluation.ofOperation operator.toLexeme result)
  | none => throw (.stuck operator)

/-- Evaluates an expression in a frame. -/
def RawExpr.eval (frame : Nat) : RawExpr → RawEvaluation Value
  | .literal l => pure l.value
  | .var name => EStateM.adaptExcept .failed (Evaluation.read frame name.toLexeme)
  | .assign name value => do
    let v ← value.eval frame
    EStateM.adaptExcept .failed (Evaluation.write frame name.toLexeme v)
  | .group inner => inner.eval frame
  | .unary operator operand => do
    let v ← operand.eval frame
    RawEvaluation.ofOperation operator (operator.kind.applyUnary? v)
  | .binary operator left right => do
    let l ← left.eval frame
    let r ← right.eval frame
    RawEvaluation.ofOperation operator (operator.kind.applyBinary? l r)

namespace RawExecution

/-- Runs an evaluation on the machine's store. -/
def ofEvaluation {α : Type} (x : RawEvaluation α) : RawExecution α := fun ⟨store, sink⟩ =>
  match x store with
  | .ok a store => .ok a ⟨store, sink⟩
  | .error (.failed e) store => .error (.failed (.runtime e)) ⟨store, sink⟩
  | .error (.stuck t) store => .error (.stuck t) ⟨store, sink⟩

/-- Runs `body` in a new frame inside the frame `frame`, and drops that frame however `body`
ends. -/
def inside {α : Type} (frame : Nat) (body : Nat → RawExecution α) : RawExecution α :=
  fun ⟨store, sink⟩ =>
    match body store.size ⟨store.enclose frame, sink⟩ with
    | .ok a m => .ok a { m with store := m.store.drop }
    | .error e m => .error e { m with store := m.store.drop }

end RawExecution

/-- Evaluates an expression on the machine. -/
def RawExpr.run (frame : Nat) (e : RawExpr) : RawExecution Value :=
  RawExecution.ofEvaluation (e.eval frame)

/-- The value that a declaration starts with. -/
def RawExpr.initialValue (frame : Nat) : Option RawExpr → RawExecution Value
  | some e => e.run frame
  | none => pure .nil

mutual

/-- Executes a statement in a frame. -/
def RawStmt.exec (frame : Nat) : RawStmt → RawExecution Unit
  | .expression e => do
    let _ ← e.run frame
  | .print e => do
    let v ← e.run frame
    EStateM.adaptExcept .failed (Execution.printLine v)
  | .declaration name initial => do
    let v ← RawExpr.initialValue frame initial
    EStateM.adaptExcept .failed
      (Execution.modifyStore fun store => store.define frame name.text v)
  | .block body => RawExecution.inside frame fun inner => RawStmt.execAll inner body

/-- Executes statements in a frame, one after the other. -/
def RawStmt.execAll (frame : Nat) : List RawStmt → RawExecution Unit
  | [] => pure ()
  | s :: rest => do
    s.exec frame
    RawStmt.execAll frame rest

end

/-- What is executed for a line typed at a prompt: a single expression is printed. -/
def RawStmt.echoing : List RawStmt → List RawStmt
  | [.expression e] => [.print e]
  | statements => statements

/-! ## Trees of known operators -/

/-- Evaluation looks up the operators that are in the tree. -/
theorem RawExpr.eval_raw (frame : Nat) (e : Expr) :
    (e.raw id).eval frame = EStateM.adaptExcept .failed (e.eval frame) := by
  induction e with
  | literal l => rfl
  | var name => rfl
  | assign name value ih => rw [Expr.raw, eval, ih, Expr.eval, adaptExcept_bind]; rfl
  | group inner ih => exact ih
  | unary op sign operand ih =>
    have hop : UnaryOp.ofKind? op.kind = some op := UnaryOp.ofKind?_eq_some_iff.2 rfl
    rw [Expr.raw, eval, ih, Expr.eval, adaptExcept_bind]
    simp only [id, Token.Kind.applyUnary?_eq, hop]
    rfl
  | binary op sign left right ihl ihr =>
    rw [Expr.raw, eval, ihl, ihr, Expr.eval, adaptExcept_bind]
    simp only [adaptExcept_bind, id, Token.Kind.applyBinary?_eq, op.ofKind?_kind]
    rfl

namespace RawExecution

theorem ofEvaluation_failed {α : Type} (x : Evaluation α) :
    ofEvaluation (EStateM.adaptExcept .failed x)
      = EStateM.adaptExcept .failed (Execution.ofEvaluation x) := by
  funext ⟨store, sink⟩
  simp only [ofEvaluation, Execution.ofEvaluation, EStateM.adaptExcept]
  cases x store <;> rfl

theorem inside_failed {α : Type} (frame : Nat) (body : Nat → Execution α) :
    inside frame (fun inner => EStateM.adaptExcept .failed (body inner))
      = EStateM.adaptExcept .failed (Execution.inside frame body) := by
  funext ⟨store, sink⟩
  simp only [inside, Execution.inside, EStateM.adaptExcept]
  cases body store.size ⟨store.enclose frame, sink⟩ <;> rfl

end RawExecution

theorem RawExpr.run_raw (frame : Nat) (e : Expr) :
    (e.raw id).run frame = EStateM.adaptExcept .failed (e.run frame) := by
  rw [run, eval_raw, RawExecution.ofEvaluation_failed, Expr.run]

theorem RawExpr.initialValue_raw (frame : Nat) (initial : Option Expr) :
    initialValue frame (initial.map (Expr.raw id))
      = EStateM.adaptExcept .failed (Lox.initialValue frame initial) := by
  cases initial with
  | none => rfl
  | some e => exact run_raw frame e

mutual

theorem RawStmt.exec_raw (frame : Nat) : (s : Stmt) →
    (s.raw id).exec frame = EStateM.adaptExcept .failed (s.exec frame)
  | .expression e => by
    rw [Stmt.raw, exec, RawExpr.run_raw, Stmt.exec, adaptExcept_bind]
    rfl
  | .print e => by rw [Stmt.raw, exec, RawExpr.run_raw, Stmt.exec, adaptExcept_bind]
  | .declaration name initial => by
    rw [Stmt.raw, exec, RawExpr.initialValue_raw, Stmt.exec, adaptExcept_bind]
    rfl
  | .block body => by
    -- the number of the block's frame is fixed only when the block is entered
    have hbody : (fun inner => execAll inner (Stmt.rawAll id body))
        = fun inner => EStateM.adaptExcept .failed (Stmt.execAll inner body) := by
      funext inner
      exact execAll_rawAll inner body
    rw [Stmt.raw, exec, hbody, RawExecution.inside_failed, Stmt.exec]

/-- **Trees of known operators never get stuck**: they are executed as before. -/
theorem RawStmt.execAll_rawAll (frame : Nat) : (ss : List Stmt) →
    execAll frame (Stmt.rawAll id ss) = EStateM.adaptExcept .failed (Stmt.execAll frame ss)
  | [] => rfl
  | s :: rest => by
    rw [Stmt.rawAll, execAll, exec_raw, execAll_rawAll, Stmt.execAll, adaptExcept_bind]

end

theorem RawStmt.echoing_rawAll (ss : List Stmt) :
    echoing (Stmt.rawAll id ss) = Stmt.rawAll id (Session.echoing ss) := by
  match ss with
  | [] | .expression _ :: _ :: _ | .print _ :: _ | .declaration _ _ :: _ | .block _ :: _ => rfl
  | [.expression _] => rfl

/-- A failure is not a token that is no operator. -/
theorem ne_stuck_of_adaptExcept {ε σ α : Type} (x : EStateM ε σ α) (s s' : σ) (t : Token) :
    EStateM.adaptExcept Stop.failed x s ≠ .error (.stuck t) s' := by
  rw [EStateM.adaptExcept]
  cases x s <;> nofun

/-- **No run of what was parsed gets stuck.** The raw trees of any token sequence are the parsed
statements, in which each name is an identifier and each operator is of a kind that its place has.
These are the kinds that are found whatever the values of the operands, and no others are. So in
every frame of every machine the execution of the raw trees, also as a line at a prompt, is that of
the parsed statements, and it never gets stuck. -/
theorem rawTrees_law (ts : List Token) :
    rawTrees ts = Stmt.rawAll id (parse ts).statements
    ∧ RawStmt.WellKindedAll (rawTrees ts)
    ∧ (∀ (k : Token.Kind) (v : Value), (k.applyUnary? v).isSome = true ↔ k ∈ UnaryOp.kinds)
    ∧ (∀ (k : Token.Kind) (v w : Value),
      (k.applyBinary? v w).isSome = true ↔ k ∈ BinaryOp.kinds)
    ∧ ∀ frame : Nat,
      RawStmt.execAll frame (rawTrees ts)
        = EStateM.adaptExcept .failed (Stmt.execAll frame (parse ts).statements)
      ∧ RawStmt.execAll frame (RawStmt.echoing (rawTrees ts))
        = EStateM.adaptExcept .failed (Stmt.execAll frame (Session.echoing (parse ts).statements))
      ∧ ∀ (m m' : Machine) (t : Token),
        RawStmt.execAll frame (rawTrees ts) m ≠ .error (.stuck t) m'
        ∧ RawStmt.execAll frame (RawStmt.echoing (rawTrees ts)) m ≠ .error (.stuck t) m' := by
  rw [rawTrees_eq, RawStmt.echoing_rawAll]
  refine ⟨rfl, Stmt.wellKindedAll_rawAll _, Token.Kind.isSome_applyUnary?_iff,
    Token.Kind.isSome_applyBinary?_iff, fun frame => ?_⟩
  rw [RawStmt.execAll_rawAll, RawStmt.execAll_rawAll]
  exact ⟨rfl, rfl, fun m m' t =>
    ⟨ne_stuck_of_adaptExcept _ m m' t, ne_stuck_of_adaptExcept _ m m' t⟩⟩

/-- A comma in the place of an operator, which nothing parses to, is where a run gets stuck. -/
example : (RawExpr.binary ⟨⟨",", 1⟩, .comma⟩ (.literal .nil) (.literal .nil)).eval 0 Store.initial
    = .error (.stuck ⟨⟨",", 1⟩, .comma⟩) Store.initial := rfl

end Lox
