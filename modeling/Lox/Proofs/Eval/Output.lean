import Lox.Eval.Stmt

/-!
# Lox — output without a limit

A sink without a limit takes what it is given and answers nothing that a program could see. So what
a computation does is settled by the store alone: its end, which is a value or an error of the
program, the store that it leaves, and the bytes that come after those written before.

* **`Execution.Prints`** — computations that add to the output and do not depend on it.
* **`Stmt.prints_execAll`** — the execution of statements.
-/

namespace Lox

namespace Execution

variable {α β : Type}

/-- The result on a machine that ends with a value or with an error of the program. -/
def ended (r : Except RuntimeError α) (m : Machine) : EStateM.Result Halt Machine α :=
  match r with
  | .ok a => .ok a m
  | .error e => .error (.runtime e) m

/-- From every store, the computation ends in one way and prints the same bytes behind whatever was
written before. -/
def Prints (x : Execution α) : Prop :=
  ∀ s : Store, ∃ (r : Except RuntimeError α) (s' : Store) (printed : ByteArray),
    ∀ w : ByteArray, x ⟨s, ⟨w, none⟩⟩ = ended r ⟨s', ⟨w ++ printed, none⟩⟩

/-- A computation that prints nothing. -/
theorem Prints.of_silent {x : Execution α}
    (h : ∀ s, ∃ r s', ∀ w, x ⟨s, ⟨w, none⟩⟩ = ended r ⟨s', ⟨w, none⟩⟩) : Prints x := by
  intro s
  obtain ⟨r, s', hr⟩ := h s
  exact ⟨r, s', .empty, fun w => by rw [hr, ByteArray.append_empty]⟩

theorem Prints.pure (a : α) : Prints (pure a) := .of_silent fun s => ⟨.ok a, s, fun _ => rfl⟩

theorem Prints.bind {x : Execution α} {k : α → Execution β} (hx : Prints x)
    (hk : ∀ a, Prints (k a)) : Prints (x >>= k) := by
  intro s
  obtain ⟨r, s', printed, hr⟩ := hx s
  cases r with
  | error e =>
    refine ⟨.error e, s', printed, fun w => ?_⟩
    simp only [Bind.bind, EStateM.bind, hr]
    rfl
  | ok a =>
    obtain ⟨r', s'', printed', hr'⟩ := hk a s'
    refine ⟨r', s'', printed ++ printed', fun w => ?_⟩
    simp only [Bind.bind, EStateM.bind, hr]
    rw [← ByteArray.append_assoc]
    exact hr' (w ++ printed)

theorem prints_ofEvaluation (x : Evaluation α) : Prints (ofEvaluation x) := by
  refine .of_silent fun s => ?_
  cases h : x s with
  | ok a s' => exact ⟨.ok a, s', fun w => by simp only [ofEvaluation, h]; rfl⟩
  | error e s' => exact ⟨.error e, s', fun w => by simp only [ofEvaluation, h]; rfl⟩

theorem prints_modifyStore (f : Store → Store) : Prints (modifyStore f) :=
  .of_silent fun s => ⟨.ok (), f s, fun _ => rfl⟩

theorem prints_emit (text : String) : Prints (emit text) := fun s =>
  ⟨.ok (), s, text.toUTF8, fun _ => rfl⟩

theorem prints_inside {frame : Nat} {body : Nat → Execution α} (h : ∀ inner, Prints (body inner)) :
    Prints (inside frame body) := by
  intro s
  obtain ⟨r, s', printed, hr⟩ := h s.size (s.enclose frame)
  refine ⟨r, s'.drop, printed, fun w => ?_⟩
  simp only [inside, hr]
  cases r <;> rfl

end Execution

open Execution (Prints)

theorem prints_initialValue (frame : Nat) (initial : Option Expr) :
    Prints (initialValue frame initial) := by
  cases initial with
  | none => exact .pure Value.nil
  | some e => exact Execution.prints_ofEvaluation _

mutual

theorem Stmt.prints_exec (frame : Nat) : (s : Stmt) → Prints (s.exec frame)
  | .expression e => by
    rw [exec]
    exact (Execution.prints_ofEvaluation _).bind fun _ => .pure ()
  | .print e => by
    rw [exec]
    exact (Execution.prints_ofEvaluation _).bind fun v => Execution.prints_emit _
  | .declaration name initial => by
    rw [exec]
    exact (prints_initialValue frame initial).bind fun v => Execution.prints_modifyStore _
  | .block body => by
    rw [exec]
    exact Execution.prints_inside fun inner => prints_execAll inner body

/-- **Statements only add to the output.** -/
theorem Stmt.prints_execAll (frame : Nat) : (ss : List Stmt) → Prints (execAll frame ss)
  | [] => by
    rw [execAll]
    exact .pure ()
  | s :: rest => by
    rw [execAll]
    exact (prints_exec frame s).bind fun _ => prints_execAll frame rest

end

end Lox
