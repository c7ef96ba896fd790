import Lox.Eval.Stmt

/-!
# Lox — the order of effects

Statements can be written as a sequence of instructions for a machine with a stack of operands:
each tree in post-order, operands before their operator and a value before the name that it goes to.
Execution does what this sequence does, one instruction after the other, up to its end or to the
first instruction that fails.

* **`Stmt.codeOfAll`** — the instructions of statements.
* **`Instruction.step`**, **`Instruction.run`** — one instruction, and a sequence of them.
* **`Performs`** — code that does what a computation does.
* **`Instruction.exists_failing`** — a run that fails does so at one instruction.
* **`Stmt.execAll_eq_run_code`** — execution is the run of the code.
-/

namespace Lox

/-! ## Code -/

/-- An instruction. Those that can fail carry the lexeme that is blamed. -/
inductive Instruction where
  | push (v : Value)
  | load (name : Lexeme)
  | unary (op : UnaryOp) (sign : Lexeme)
  | binary (op : BinaryOp) (sign : Lexeme)
  | store (name : Lexeme)
  | pop
  | print
  | define (name : Lexeme)
  | enter
  | leave
deriving DecidableEq

/-- The instructions that leave the value of an expression on the stack. -/
def Expr.code : Expr → List Instruction
  | .literal l => [.push l.value]
  | .var name => [.load name]
  | .assign name value => value.code ++ [.store name]
  | .group inner => inner.code
  | .unary op sign operand => operand.code ++ [.unary op sign]
  | .binary op sign left right => left.code ++ (right.code ++ [.binary op sign])

/-- The instructions that leave the first value of a declared name on the stack. -/
def initialCode : Option Expr → List Instruction
  | some e => e.code
  | none => [.push .nil]

mutual

/-- The instructions of a statement. -/
def Stmt.code : Stmt → List Instruction
  | .expression e => e.code ++ [.pop]
  | .print e => e.code ++ [.print]
  | .declaration name initial => initialCode initial ++ [.define name]
  | .block body => .enter :: (Stmt.codeOfAll body ++ [.leave])

/-- The instructions of statements, in their order. -/
def Stmt.codeOfAll : List Stmt → List Instruction
  | [] => []
  | s :: rest => s.code ++ Stmt.codeOfAll rest

end

example : Stmt.codeOfAll [.print (.binary .add ⟨"+", 1⟩ (.assign ⟨"a", 1⟩ (.literal .nil))
      (.unary .negate ⟨"-", 1⟩ (.var ⟨"b", 1⟩))), .block [.declaration ⟨"c", 2⟩ none]]
    = [.push .nil, .store ⟨"a", 1⟩, .load ⟨"b", 1⟩, .unary .negate ⟨"-", 1⟩,
      .binary .add ⟨"+", 1⟩, .print, .enter, .push .nil, .define ⟨"c", 2⟩, .leave] := by
  decide

/-! ## Single operations -/

namespace Evaluation

/-- Whether an evaluation that fails leaves the store as it was. -/
def Intact {α : Type} (x : Evaluation α) : Prop := ∀ s e s', x s = .error e s' → s' = s

theorem intact_ofOperation (sign : Lexeme) (result : Except RuntimeError.Cause Value) :
    (ofOperation sign result).Intact := by
  intro s e s' h
  unfold ofOperation at h
  split at h <;> cases h
  rfl

theorem intact_read (frame : Nat) (name : Lexeme) : (read frame name).Intact := by
  intro s e s' h
  unfold read at h
  split at h <;> cases h
  rfl

theorem intact_write (frame : Nat) (name : Lexeme) (v : Value) : (write frame name v).Intact := by
  intro s e s' h
  unfold write at h
  split at h <;> cases h
  rfl

end Evaluation

/-! ## The stack machine -/

/-- What instructions act on: the store and the sink, the active frame, the frames around the blocks
that were entered, and the operands. The innermost block and the newest operand come first. -/
structure StackMachine where
  machine : Machine
  frame : Nat
  outer : List Nat
  operands : List Value

/-- Why the stack machine stops before the end of its code. -/
inductive Trap where
  | halt (halt : Halt)
  | underflow

/-- A computation on the stack machine. -/
abbrev Stepping := EStateM Trap StackMachine Unit

namespace StackMachine

/-- The stack machine at the start of the code of a statement list. -/
def start (frame : Nat) (m : Machine) : StackMachine := ⟨m, frame, [], []⟩

/-- Acts on the store and the sink, and puts what comes of it on the stack. -/
def act {α : Type} (σ : StackMachine) (x : Execution α) (place : α → List Value) :
    EStateM.Result Trap StackMachine Unit :=
  match x σ.machine with
  | .ok a m => .ok () { σ with machine := m, operands := place a }
  | .error h m => .error (.halt h) { σ with machine := m }

/-- The machine without the frames of the innermost `depth` blocks. -/
def leave (σ : StackMachine) : (depth : Nat) → Machine
  | 0 => σ.machine
  | depth + 1 => { σ.leave depth with store := (σ.leave depth).store.drop }

/-- The machine that is left when the stack machine stops: all blocks are dropped in which it is. -/
def close (σ : StackMachine) : Machine := σ.leave σ.outer.length

theorem eq_of_act_eq_error {σ σ' : StackMachine} {α : Type} {x : Evaluation α} (hx : x.Intact)
    {place : α → List Value} {trap : Trap}
    (h : σ.act (.ofEvaluation x) place = .error trap σ') : σ' = σ := by
  simp only [act, Execution.ofEvaluation] at h
  cases hresult : x σ.machine.store with
  | ok a s =>
    rw [hresult] at h
    cases h
  | error e s =>
    rw [hresult] at h
    cases h
    rw [hx _ _ _ hresult]

end StackMachine

namespace Instruction

/-- What an instruction does. -/
def step (i : Instruction) : Stepping := fun σ =>
  match i, σ.operands with
  | .push v, vs => σ.act (pure v) (· :: vs)
  | .load name, vs => σ.act (.ofEvaluation (.read σ.frame name)) (· :: vs)
  | .unary op sign, v :: vs => σ.act (.ofEvaluation (.ofOperation sign (op.apply v))) (· :: vs)
  | .binary op sign, r :: l :: vs =>
    σ.act (.ofEvaluation (.ofOperation sign (op.apply l r))) (· :: vs)
  | .store name, v :: vs => σ.act (.ofEvaluation (.write σ.frame name v)) (· :: vs)
  | .pop, _ :: vs => σ.act (pure ()) fun _ => vs
  | .print, v :: vs => σ.act (.printLine v) fun _ => vs
  | .define name, v :: vs =>
    σ.act (.modifyStore fun store => store.define σ.frame name.text v) fun _ => vs
  | .enter, vs =>
    .ok () ⟨{ σ.machine with store := σ.machine.store.enclose σ.frame }, σ.machine.store.size,
      σ.frame :: σ.outer, vs⟩
  | .leave, vs =>
    match σ.outer with
    | frame :: outer =>
      .ok () ⟨{ σ.machine with store := σ.machine.store.drop }, frame, outer, vs⟩
    | [] => .error .underflow σ
  | _, _ => .error .underflow σ

/-- What a sequence of instructions does. -/
def run : List Instruction → Stepping
  | [] => pure ()
  | i :: rest => do
    i.step
    run rest

theorem run_singleton (i : Instruction) : run [i] = i.step := by
  funext σ
  simp only [run, bind, EStateM.bind]
  cases i.step σ <;> rfl

theorem run_append (c c' : List Instruction) : run (c ++ c') = (do run c; run c') := by
  induction c with
  | nil => rfl
  | cons i c ih =>
    funext σ
    simp only [List.cons_append, run, ih, bind, EStateM.bind]
    cases i.step σ <;> rfl

/-- A run that fails does so at one of its instructions, and those before it have been run. -/
theorem exists_failing {c : List Instruction} {σ σ' : StackMachine} {trap : Trap}
    (h : run c σ = .error trap σ') :
    ∃ done i rest τ, c = done ++ i :: rest ∧ run done σ = .ok () τ ∧ i.step τ = .error trap σ' := by
  induction c generalizing σ with
  | nil => cases h
  | cons i c ih =>
    simp only [run, bind, EStateM.bind] at h
    split at h
    · next _ σ₁ hstep =>
      obtain ⟨done, j, rest, τ, rfl, hdone, hfail⟩ := ih h
      refine ⟨i :: done, j, rest, τ, rfl, ?_, hfail⟩
      simp only [run, bind, EStateM.bind, hstep]
      exact hdone
    · next hstep =>
      cases h
      exact ⟨[], i, c, σ, rfl, rfl, hstep⟩

/-- No instruction after one that fails has any effect. -/
theorem run_of_failing {done : List Instruction} {i : Instruction} {σ σ' τ : StackMachine}
    {trap : Trap} (hdone : run done σ = .ok () τ) (hfail : i.step τ = .error trap σ')
    (later : List Instruction) : run (done ++ i :: later) σ = .error trap σ' := by
  rw [run_append]
  simp only [run, bind, EStateM.bind, hdone, hfail]

/-- An instruction that fails changes nothing, unless it is a print, of which the sink may have taken
a part. -/
theorem step_eq_error {i : Instruction} {τ σ : StackMachine} {trap : Trap}
    (h : i.step τ = .error trap σ) :
    σ = τ ∨ ∃ text, i = .print
      ∧ σ = { τ with machine := { τ.machine with sink := (τ.machine.sink.write text).2 } } := by
  unfold step at h
  split at h
  case h_1 | h_6 | h_8 | h_9 => cases h
  case h_2 => exact .inl (StackMachine.eq_of_act_eq_error (Evaluation.intact_read _ _) h)
  case h_3 | h_4 => exact .inl (StackMachine.eq_of_act_eq_error (Evaluation.intact_ofOperation _ _) h)
  case h_5 => exact .inl (StackMachine.eq_of_act_eq_error (Evaluation.intact_write _ _ _) h)
  case h_7 v vs _ =>
    refine .inr ⟨v.display ++ "\n", rfl, ?_⟩
    simp only [StackMachine.act, Execution.printLine, Execution.emit] at h
    cases hwrite : τ.machine.sink.write (v.display ++ "\n") with
    | mk refusal sink =>
      rw [hwrite] at h
      cases refusal <;> cases h
      rfl
  case h_10 =>
    split at h <;> cases h
    exact .inl rfl
  case h_11 =>
    cases h
    exact .inl rfl

end Instruction

/-! ## Code that does what a computation does -/

/-- The results of a computation and of its code. After the code there is the same machine, in the
same frame, with a given stack. Where the computation fails, it has left the blocks that the stack
machine is still in. -/
inductive Follows {α : Type} (frame : Nat) (outer : List Nat) (after : α → List Value) :
    EStateM.Result Halt Machine α → EStateM.Result Trap StackMachine Unit → Prop
  | ok (a : α) (m : Machine) : Follows frame outer after (.ok a m) (.ok () ⟨m, frame, outer, after a⟩)
  | error (h : Halt) (σ : StackMachine) (depth : Nat) (hdepth : σ.outer.length = outer.length + depth) :
      Follows frame outer after (.error h (σ.leave depth)) (.error (.halt h) σ)

/-- Whether the code does what the computation does, in a frame and with given operands. -/
def Performs {α : Type} (code : List Instruction) (frame : Nat) (outer : List Nat)
    (before : List Value) (after : α → List Value) (x : Execution α) : Prop :=
  ∀ m, Follows frame outer after (x m) (Instruction.run code ⟨m, frame, outer, before⟩)

namespace Performs

variable {α β : Type} {frame : Nat} {outer : List Nat} {before : List Value}
  {c c' : List Instruction}

theorem nil : Performs [] frame outer before (fun _ => before) (pure () : Execution Unit) :=
  fun m => .ok () m

/-- One thing after another. -/
theorem bind {mid : α → List Value} {after : β → List Value} {x : Execution α}
    {k : α → Execution β} (hx : Performs c frame outer before mid x)
    (hk : ∀ a, Performs c' frame outer (mid a) after (k a)) :
    Performs (c ++ c') frame outer before after (x >>= k) := by
  intro m
  have hfirst := hx m
  rw [Instruction.run_append]
  simp only [Bind.bind, EStateM.bind]
  generalize x m = r, Instruction.run c _ = r' at hfirst
  cases hfirst with
  | ok a m' => exact hk a m'
  | error h σ depth hdepth => exact .error h σ depth hdepth

/-- An instruction that acts on the store and the sink. -/
theorem act {i : Instruction} {after : α → List Value} {x : Execution α}
    (h : ∀ m, i.step ⟨m, frame, outer, before⟩
      = StackMachine.act ⟨m, frame, outer, before⟩ x after) :
    Performs [i] frame outer before after x := by
  intro m
  rw [Instruction.run_singleton, h, StackMachine.act]
  cases x m with
  | ok a m' => exact .ok a m'
  | error halt m' => exact .error halt ⟨m', frame, outer, before⟩ 0 rfl

/-- A block is entered and left. If its body fails, it is not left by the code, and it counts as one
block more. -/
theorem inside {body : Nat → Execution Unit}
    (h : ∀ inner, Performs c inner (frame :: outer) before (fun _ => before) (body inner)) :
    Performs (.enter :: (c ++ [.leave])) frame outer before (fun _ => before)
      (Execution.inside frame body) := by
  intro m
  have hbody := h m.store.size ⟨m.store.enclose frame, m.sink⟩
  simp only [Instruction.run, Instruction.run_append, Instruction.step, Execution.inside, Bind.bind,
    EStateM.bind]
  generalize body m.store.size _ = r, Instruction.run c _ = r' at hbody
  cases hbody with
  | ok a m' => exact .ok () _
  | error halt σ depth hdepth =>
    refine .error halt σ (depth + 1) ?_
    rw [hdepth, List.length_cons]
    omega

end Performs

/-! ## The code of statements -/

namespace Execution

theorem ofEvaluation_bind {α β : Type} (x : Evaluation α) (k : α → Evaluation β) :
    ofEvaluation (x >>= k) = ofEvaluation x >>= fun a => ofEvaluation (k a) := by
  funext m
  simp only [ofEvaluation, bind, EStateM.bind]
  cases x m.store <;> rfl

end Execution

variable {frame : Nat} {outer : List Nat}

/-- The code of an expression leaves its value on the stack. -/
theorem Expr.performs_code (e : Expr) (before : List Value) :
    Performs e.code frame outer before (· :: before) (e.run frame) := by
  induction e generalizing before with
  | literal l => exact .act fun _ => rfl
  | var name => exact .act fun _ => rfl
  | assign name value ih =>
    rw [run, eval, Execution.ofEvaluation_bind]
    exact (ih before).bind fun v => .act fun _ => rfl
  | group inner ih => exact ih before
  | unary op sign operand ih =>
    rw [run, eval, Execution.ofEvaluation_bind]
    exact (ih before).bind fun v => .act fun _ => rfl
  | binary op sign left right ihl ihr =>
    rw [run, eval, Execution.ofEvaluation_bind]
    refine (ihl before).bind fun l => ?_
    rw [Execution.ofEvaluation_bind]
    exact (ihr (l :: before)).bind fun r => .act fun _ => rfl

theorem performs_initialCode (initial : Option Expr) (before : List Value) :
    Performs (initialCode initial) frame outer before (· :: before) (initialValue frame initial) := by
  cases initial with
  | none => exact .act fun _ => rfl
  | some e => exact e.performs_code before

mutual

theorem Stmt.performs_code {frame : Nat} {outer : List Nat} (before : List Value) : (s : Stmt) →
    Performs s.code frame outer before (fun _ => before) (s.exec frame)
  | .expression e => by
    rw [code, exec]
    exact (e.performs_code before).bind fun v => .act fun _ => rfl
  | .print e => by
    rw [code, exec]
    exact (e.performs_code before).bind fun v => .act fun _ => rfl
  | .declaration name initial => by
    rw [code, exec]
    exact (performs_initialCode initial before).bind fun v => .act fun _ => rfl
  | .block body => by
    rw [code, exec]
    exact .inside fun inner => Stmt.performs_codeOfAll before body

/-- The code of statements does what they do, and takes away the operands that it puts on the
stack. -/
theorem Stmt.performs_codeOfAll {frame : Nat} {outer : List Nat} (before : List Value) :
    (ss : List Stmt) →
    Performs (codeOfAll ss) frame outer before (fun _ => before) (execAll frame ss)
  | [] => by
    rw [codeOfAll, execAll]
    exact .nil
  | s :: rest => by
    rw [codeOfAll, execAll]
    exact (Stmt.performs_code before s).bind fun _ => Stmt.performs_codeOfAll before rest

end

/-! ## The order of effects -/

open Instruction (run) in
/-- **Effects come in the order of the code.** Statements come to their end if all instructions of
their code can be run, and then leave the machine that these leave, in the same frame and without an
operand. They end with an error if, after some instructions, there is one that fails: with its error,
and on the machine that these leave, without the blocks in which they are. The one that fails changes
nothing, unless it is a print that the sink takes a part of, and those after it are not run, whatever
they are. -/
theorem Stmt.execAll_eq_run_code (ss : List Stmt) (frame : Nat) (m : Machine) :
    (∀ m', execAll frame ss m = .ok () m'
      ↔ run (codeOfAll ss) (.start frame m) = .ok () (.start frame m'))
    ∧ ∀ h m', execAll frame ss m = .error h m'
      ↔ ∃ done i rest τ σ, codeOfAll ss = done ++ i :: rest
        ∧ run done (.start frame m) = .ok () τ
        ∧ i.step τ = .error (.halt h) σ
        ∧ (σ = τ ∨ ∃ text, i = .print
          ∧ σ = { τ with machine := { τ.machine with sink := (τ.machine.sink.write text).2 } })
        ∧ (∀ later, run (done ++ i :: later) (.start frame m) = .error (.halt h) σ)
        ∧ m' = σ.close := by
  have hall : Performs (codeOfAll ss) frame [] [] (fun _ => []) (execAll frame ss) :=
    performs_codeOfAll [] ss
  have hperforms := hall m
  generalize hexec : execAll frame ss m = r, hrun : run (codeOfAll ss) _ = r' at hperforms
  change run (codeOfAll ss) (.start frame m) = r' at hrun
  rw [hrun]
  cases hperforms with
  | ok a m₁ =>
    refine ⟨fun m' => ⟨?_, ?_⟩, fun h m' => ⟨nofun, ?_⟩⟩
    · rintro ⟨⟩
      rfl
    · rintro ⟨⟩
      rfl
    · rintro ⟨done, i, rest, τ, σ, hcode, hdone, hfail, -, hlater, -⟩
      -- a run with an instruction that fails does not come to its end
      rw [hcode, hlater rest] at hrun
      cases hrun
  | error h σ depth hdepth =>
    have hclose : σ.leave depth = σ.close := by
      rw [StackMachine.close, hdepth, List.length_nil, Nat.zero_add]
    refine ⟨fun m' => ⟨nofun, nofun⟩, fun h' m' => ⟨?_, ?_⟩⟩
    · rintro ⟨⟩
      obtain ⟨done, i, rest, τ, hcode, hdone, hfail⟩ := Instruction.exists_failing hrun
      exact ⟨done, i, rest, τ, σ, hcode, hdone, hfail, Instruction.step_eq_error hfail,
        Instruction.run_of_failing hdone hfail, hclose⟩
    · rintro ⟨done, i, rest, τ, σ', hcode, hdone, hfail, -, hlater, rfl⟩
      rw [hcode, hlater rest] at hrun
      cases hrun
      rw [hclose]

end Lox
