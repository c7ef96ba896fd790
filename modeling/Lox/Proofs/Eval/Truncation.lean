import Lox.Proofs.Eval.Code

/-!
# Lox — limited output is cut off

A run whose output goes to a sink that takes `r` more bytes is the run without a limit as long as
that prints no more than `r` bytes. If it prints more, then the run ends at the print that goes
beyond them, with the first `r` bytes written, and nothing later has an effect.

Both runs are compared instruction by instruction: only prints depend on the sink.

* **`Instruction.Crosses`** — the print that goes beyond the limit.
* **`Instruction.cutsOff`** — the run of a sequence of instructions.
* **`Truncates`** — what limited output does to a computation.
* **`Stmt.truncates_execAll`** — the execution of statements.
-/

namespace Lox

/-! ## Results in other states -/

section

variable {ε σ α : Type}

/-- The state that a computation ends in. -/
def endState : EStateM.Result ε σ α → σ
  | .ok _ s | .error _ s => s

/-- The same end in another state. -/
def mapState (f : σ → σ) : EStateM.Result ε σ α → EStateM.Result ε σ α
  | .ok a s => .ok a (f s)
  | .error e s => .error e (f s)

end

/-- The machine with another sink. -/
def Machine.withSink (m : Machine) (k : Sink) : Machine := ⟨m.store, k⟩

/-! ## Sinks -/

section

variable {a : ByteArray} {r : Nat}

theorem extract_of_size_le (h : a.size ≤ r) : a.extract 0 r = a := by
  refine ByteArray.ext ?_
  rw [ByteArray.data_extract]
  exact Array.extract_eq_self_of_le h

theorem extract_append_of_size_le (b : ByteArray) (h : a.size ≤ r) :
    (a ++ b).extract 0 r = a ++ b.extract 0 (r - a.size) := by
  rw [ByteArray.extract_append, extract_of_size_le h, Nat.zero_sub]

theorem extract_append_of_le_size (b : ByteArray) (h : r ≤ a.size) :
    (a ++ b).extract 0 r = a.extract 0 r := by
  rw [ByteArray.extract_append, Nat.sub_eq_zero_of_le h]
  simp

end

namespace Sink

variable (w : ByteArray) {r : Nat} (reason : String) {text : String}

theorem write_unlimited (text : String) :
    write ⟨w, none⟩ text = (none, ⟨w ++ text.toUTF8, none⟩) := rfl

theorem write_of_le (h : text.toUTF8.size ≤ r) :
    write ⟨w, some ⟨r, reason⟩⟩ text
      = (none, ⟨w ++ text.toUTF8, some ⟨r - text.toUTF8.size, reason⟩⟩) := by
  have htaken : text.toUTF8.extract 0 r = text.toUTF8 := extract_of_size_le h
  simp only [write, htaken, if_pos h]

theorem write_of_lt (h : r < text.toUTF8.size) :
    write ⟨w, some ⟨r, reason⟩⟩ text
      = (some reason, ⟨w ++ text.toUTF8.extract 0 r, some ⟨0, reason⟩⟩) := by
  have hsize : (text.toUTF8.extract 0 r).size = r := by
    rw [ByteArray.size_extract]
    omega
  simp only [write, hsize, if_neg (Nat.not_le_of_lt h), Nat.sub_self]

end Sink

/-! ## Instructions -/

namespace StackMachine

/-- The stack machine with another sink. -/
def withSink (σ : StackMachine) (k : Sink) : StackMachine :=
  { σ with machine := σ.machine.withSink k }

variable (σ : StackMachine) (k : Sink)

theorem leave_withSink (depth : Nat) : (σ.withSink k).leave depth = (σ.leave depth).withSink k := by
  induction depth with
  | zero => rfl
  | succ depth ih => rw [leave, leave, ih]; rfl

theorem close_withSink : (σ.withSink k).close = σ.close.withSink k := σ.leave_withSink k _

theorem sink_leave (depth : Nat) : (σ.leave depth).sink = σ.machine.sink := by
  induction depth with
  | zero => rfl
  | succ depth ih => exact ih

theorem act_ofEvaluation_withSink {α : Type} (x : Evaluation α) (place : α → List Value) :
    (σ.withSink k).act (.ofEvaluation x) place
      = mapState (·.withSink k) (σ.act (.ofEvaluation x) place) := by
  simp only [act, Execution.ofEvaluation, withSink, Machine.withSink]
  cases x σ.machine.store <;> rfl

end StackMachine

namespace Instruction

variable {σ : StackMachine}

/-- Instructions that do not print do not see the sink. -/
theorem step_withSink {i : Instruction} (h : i ≠ .print) (σ : StackMachine) (k : Sink) :
    i.step (σ.withSink k) = mapState (·.withSink k) (i.step σ) := by
  obtain ⟨m, frame, outer, operands⟩ := σ
  cases i with
  | print => exact absurd rfl h
  | push v => rfl
  | load name => exact StackMachine.act_ofEvaluation_withSink _ k _ _
  | unary op sign | store name =>
    cases operands with
    | nil => rfl
    | cons v vs => exact StackMachine.act_ofEvaluation_withSink _ k _ _
  | binary op sign =>
    match operands with
    | [] | [_] => rfl
    | r :: l :: vs => exact StackMachine.act_ofEvaluation_withSink _ k _ _
  | pop | define name => cases operands <;> rfl
  | enter => rfl
  | leave => cases outer <;> rfl

theorem step_print_of_nil (h : σ.operands = []) (k : Sink) :
    step .print (σ.withSink k) = .error .underflow (σ.withSink k) := by
  obtain ⟨m, frame, outer, operands⟩ := σ
  subst h
  rfl

/-- A print writes the newest operand and the end of the line. -/
theorem step_print_of_cons {v : Value} {vs : List Value} (h : σ.operands = v :: vs) (k : Sink) :
    step .print (σ.withSink k)
      = match k.write (v.display ++ "\n") with
        | (none, k') => .ok () ({ σ with operands := vs }.withSink k')
        | (some reason, k') => .error (.halt (.output reason)) (σ.withSink k') := by
  obtain ⟨m, frame, outer, operands⟩ := σ
  subst h
  simp only [step, StackMachine.withSink, StackMachine.act, Execution.printLine, Execution.emit,
    Machine.withSink]
  rcases k.write (v.display ++ "\n") with ⟨_ | reason, k'⟩ <;> rfl

/-! ## Runs of the code -/

/-- Without a limit, the code runs from `σ` to `τ`, where a print comes whose line goes beyond `r`
bytes. What is printed before does not. -/
def Crosses (c : List Instruction) (σ : StackMachine) (r : Nat) (τ : StackMachine) : Prop :=
  ∃ done rest v vs printed, c = done ++ .print :: rest
    ∧ run done σ = .ok () τ
    ∧ τ.operands = v :: vs
    ∧ τ.machine.sink = ⟨σ.machine.sink.written ++ printed, none⟩
    ∧ printed.size ≤ r
    ∧ r < printed.size + (v.display ++ "\n").toUTF8.size

/-- What the run of the code does with a sink that holds `w` and takes `r` more bytes, in comparison
with one that takes everything. -/
def CutsOff (c : List Instruction) (σ : StackMachine) (w : ByteArray) (r : Nat) (reason : String) :
    Prop :=
  ∃ printed,
    (endState (run c (σ.withSink ⟨w, none⟩))).machine.sink = ⟨w ++ printed, none⟩
    ∧ (printed.size ≤ r →
      run c (σ.withSink ⟨w, some ⟨r, reason⟩⟩)
        = mapState (·.withSink ⟨w ++ printed, some ⟨r - printed.size, reason⟩⟩)
            (run c (σ.withSink ⟨w, none⟩)))
    ∧ (r < printed.size → ∃ τ, Crosses c (σ.withSink ⟨w, none⟩) r τ
      ∧ run c (σ.withSink ⟨w, some ⟨r, reason⟩⟩)
        = .error (.halt (.output reason)) (τ.withSink ⟨w ++ printed.extract 0 r, some ⟨0, reason⟩⟩))

section

variable {i : Instruction} {c : List Instruction} {σ τ : StackMachine} {w : ByteArray} {r : Nat}
  {reason : String}

theorem run_cons_of_ok (h : i.step σ = .ok () τ) : run (i :: c) σ = run c τ := by
  simp only [run, bind, EStateM.bind, h]

theorem run_cons_of_error {trap : Trap} (h : i.step σ = .error trap τ) :
    run (i :: c) σ = .error trap τ := by
  simp only [run, bind, EStateM.bind, h]

/-- The line of a print goes beyond the limit at once. -/
theorem Crosses.head {v : Value} {vs : List Value} (hv : σ.operands = v :: vs)
    (hr : r < (v.display ++ "\n").toUTF8.size) :
    Crosses (.print :: c) (σ.withSink ⟨w, none⟩) r (σ.withSink ⟨w, none⟩) := by
  refine ⟨[], c, v, vs, .empty, rfl, rfl, hv, ?_, Nat.zero_le r, ?_⟩
  · rw [ByteArray.append_empty]
    rfl
  · rw [ByteArray.size_empty, Nat.zero_add]
    exact hr

/-- A line goes beyond the limit after an instruction that printed some bytes. -/
theorem Crosses.tail {σ₁ : StackMachine} {bytes : ByteArray}
    (hstep : i.step σ = .ok () σ₁) (hsink : σ₁.machine.sink.written = σ.machine.sink.written ++ bytes)
    (hr : bytes.size ≤ r) (h : Crosses c σ₁ (r - bytes.size) τ) : Crosses (i :: c) σ r τ := by
  obtain ⟨done, rest, v, vs, printed, rfl, hdone, hv, hprinted, hle, hlt⟩ := h
  refine ⟨i :: done, rest, v, vs, bytes ++ printed, rfl, ?_, hv, ?_, ?_, ?_⟩
  · rw [run_cons_of_ok hstep, hdone]
  · rw [hprinted, hsink, ByteArray.append_assoc]
  · rw [ByteArray.size_append]
    omega
  · rw [ByteArray.size_append]
    omega

/-- Code that ends alike on every sink, and writes nothing to it. -/
theorem CutsOff.of_silent (result : EStateM.Result Trap StackMachine Unit)
    (h : ∀ k, run c (σ.withSink k) = mapState (·.withSink k) result) : CutsOff c σ w r reason := by
  refine ⟨.empty, ?_, fun _ => ?_, fun hr => absurd hr (Nat.not_lt_zero r)⟩
  · rw [h, ByteArray.append_empty]
    cases result <;> rfl
  · rw [h, h, ByteArray.append_empty]
    cases result <;> rfl

/-- Code that begins with an instruction that prints some bytes if the sink takes them. -/
theorem CutsOff.of_ok (τ : StackMachine) (bytes : ByteArray)
    (hfree : i.step (σ.withSink ⟨w, none⟩) = .ok () (τ.withSink ⟨w ++ bytes, none⟩))
    (hfits : bytes.size ≤ r →
      i.step (σ.withSink ⟨w, some ⟨r, reason⟩⟩)
        = .ok () (τ.withSink ⟨w ++ bytes, some ⟨r - bytes.size, reason⟩⟩))
    (hover : r < bytes.size →
      Crosses (i :: c) (σ.withSink ⟨w, none⟩) r (σ.withSink ⟨w, none⟩)
      ∧ i.step (σ.withSink ⟨w, some ⟨r, reason⟩⟩)
        = .error (.halt (.output reason)) (σ.withSink ⟨w ++ bytes.extract 0 r, some ⟨0, reason⟩⟩))
    (hrest : CutsOff c τ (w ++ bytes) (r - bytes.size) reason) :
    CutsOff (i :: c) σ w r reason := by
  obtain ⟨printed, hprinted, hshort, hlong⟩ := hrest
  rw [ByteArray.append_assoc] at hprinted hshort hlong
  refine ⟨bytes ++ printed, ?_, fun hr => ?_, fun hr => ?_⟩
  · rw [run_cons_of_ok hfree, hprinted]
  · rw [ByteArray.size_append] at hr ⊢
    rw [run_cons_of_ok hfree, run_cons_of_ok (hfits (by omega)), hshort (by omega), Nat.sub_sub]
  · rw [ByteArray.size_append] at hr
    by_cases hbytes : bytes.size ≤ r
    · obtain ⟨τ', hcrosses, hrun⟩ := hlong (by omega)
      refine ⟨τ', hcrosses.tail hfree rfl hbytes, ?_⟩
      rw [run_cons_of_ok (hfits hbytes), hrun, extract_append_of_size_le _ hbytes]
    · obtain ⟨hcrosses, hstep⟩ := hover (by omega)
      refine ⟨_, hcrosses, ?_⟩
      rw [run_cons_of_error hstep, extract_append_of_le_size _ (by omega)]
      rfl

end

/-- **Of a run with limited output, only the output beyond the limit is cut off**, and what comes
after the print that goes beyond it. -/
theorem cutsOff (c : List Instruction) (σ : StackMachine) (w : ByteArray) (r : Nat)
    (reason : String) : CutsOff c σ w r reason := by
  induction c generalizing σ w r with
  | nil => exact .of_silent (.ok () σ) fun _ => rfl
  | cons i c ih =>
    by_cases hi : i = .print
    · subst hi
      cases hv : σ.operands with
      | nil => exact .of_silent (.error .underflow σ) fun k => run_cons_of_error (step_print_of_nil hv k)
      | cons v vs =>
        -- whether the line fits decides how the print ends
        refine .of_ok { σ with operands := vs } (v.display ++ "\n").toUTF8 ?_ (fun hr => ?_)
          (fun hr => ⟨.head hv hr, ?_⟩) (ih _ _ _)
        · rw [step_print_of_cons hv, Sink.write_unlimited]
        · rw [step_print_of_cons hv, Sink.write_of_le w reason hr]
        · rw [step_print_of_cons hv, Sink.write_of_lt w reason hr]
    · have hstep := step_withSink hi σ
      cases hresult : i.step σ with
      | error trap τ =>
        rw [hresult] at hstep
        exact .of_silent (.error trap τ) fun k => run_cons_of_error (hstep k)
      | ok _ τ =>
        rw [hresult] at hstep
        refine .of_ok τ .empty ?_ (fun _ => ?_) (fun hr => absurd hr (Nat.not_lt_zero r)) (ih _ _ _)
        · rw [hstep, ByteArray.append_empty]
          rfl
        · rw [hstep, ByteArray.append_empty]
          rfl

end Instruction

/-! ## Execution -/

namespace Stmt

variable {ss : List Stmt} {frame : Nat} {m m' : Machine} {σ : StackMachine}

open Instruction (run)

theorem execAll_of_run_eq_ok (h : run (codeOfAll ss) (.start frame m) = .ok () σ) :
    execAll frame ss m = .ok () σ.close := by
  have hperforms : Follows frame [] (fun _ => []) (execAll frame ss m) (.ok () σ) :=
    h ▸ performs_codeOfAll [] ss m
  generalize execAll frame ss m = result at hperforms
  cases hperforms
  rfl

theorem execAll_of_run_eq_error {trap : Trap}
    (h : run (codeOfAll ss) (.start frame m) = .error trap σ) :
    ∃ halt, trap = .halt halt ∧ execAll frame ss m = .error halt σ.close := by
  have hperforms : Follows frame [] (fun _ => []) (execAll frame ss m) (.error trap σ) :=
    h ▸ performs_codeOfAll [] ss m
  generalize execAll frame ss m = result at hperforms
  cases hperforms with
  | error halt σ depth hdepth =>
    rw [List.length_nil, Nat.zero_add] at hdepth
    exact ⟨halt, rfl, by rw [StackMachine.close, hdepth]⟩

/-- The execution writes what the code writes. -/
theorem sink_endState_execAll (ss : List Stmt) (frame : Nat) (m : Machine) :
    (endState (execAll frame ss m)).sink
      = (endState (run (codeOfAll ss) (.start frame m))).machine.sink := by
  cases h : run (codeOfAll ss) (.start frame m) with
  | ok _ σ =>
    rw [execAll_of_run_eq_ok h]
    exact σ.sink_leave _
  | error trap σ =>
    obtain ⟨halt, -, hexec⟩ := execAll_of_run_eq_error h
    rw [hexec]
    exact σ.sink_leave _

/-- If the code ends alike from two machines but for the sink, then so does the execution. -/
theorem execAll_eq_mapState {k : Sink}
    (h : run (codeOfAll ss) (.start frame m')
      = mapState (·.withSink k) (run (codeOfAll ss) (.start frame m))) :
    execAll frame ss m' = mapState (·.withSink k) (execAll frame ss m) := by
  cases hrun : run (codeOfAll ss) (.start frame m) with
  | ok _ σ =>
    rw [hrun] at h
    rw [execAll_of_run_eq_ok hrun, execAll_of_run_eq_ok h, StackMachine.close_withSink]
    rfl
  | error trap σ =>
    rw [hrun] at h
    obtain ⟨halt, rfl, hexec⟩ := execAll_of_run_eq_error hrun
    obtain ⟨_, ⟨⟩, hexec'⟩ := execAll_of_run_eq_error h
    rw [hexec, hexec', StackMachine.close_withSink]
    rfl

end Stmt

/-- What limited output does to a computation whose effects are those of the code. From a store, and
after some output `w`, there are the bytes that it prints without a limit. If they fit into `r` bytes,
then the limit changes nothing, errors included. Otherwise the sink takes the first `r` of them, and
the computation ends with the sink's reason. The store it leaves is the one without a limit from when
the print that goes beyond the limit has its operand, less the frames of the blocks it stands in. -/
def Truncates {ε : Type} (x : EStateM ε Machine Unit) (refusal : String → ε)
    (code : List Instruction) (frame : Nat) : Prop :=
  ∀ (s : Store) (w : ByteArray) (r : Nat) (reason : String), ∃ printed,
    (endState (x ⟨s, ⟨w, none⟩⟩)).sink = ⟨w ++ printed, none⟩
    ∧ (printed.size ≤ r →
      x ⟨s, ⟨w, some ⟨r, reason⟩⟩⟩
        = mapState (·.withSink ⟨w ++ printed, some ⟨r - printed.size, reason⟩⟩) (x ⟨s, ⟨w, none⟩⟩))
    ∧ (r < printed.size → ∃ τ, Instruction.Crosses code (.start frame ⟨s, ⟨w, none⟩⟩) r τ
      ∧ x ⟨s, ⟨w, some ⟨r, reason⟩⟩⟩
        = .error (refusal reason) ⟨τ.close.store, ⟨w ++ printed.extract 0 r, some ⟨0, reason⟩⟩⟩)

/-- Execution with limited output. -/
theorem Stmt.truncates_execAll (frame : Nat) (ss : List Stmt) :
    Truncates (execAll frame ss) .output (codeOfAll ss) frame := by
  intro s w r reason
  obtain ⟨printed, hprinted, hshort, hlong⟩ :=
    Instruction.cutsOff (codeOfAll ss) (.start frame ⟨s, ⟨w, none⟩⟩) w r reason
  refine ⟨printed, ?_, fun hr => execAll_eq_mapState (hshort hr), fun hr => ?_⟩
  · rw [sink_endState_execAll]
    exact hprinted
  · obtain ⟨τ, hcrosses, hrun⟩ := hlong hr
    obtain ⟨halt, ⟨⟩, hexec⟩ := execAll_of_run_eq_error hrun
    rw [StackMachine.close_withSink] at hexec
    exact ⟨τ, hcrosses, hexec⟩

end Lox
