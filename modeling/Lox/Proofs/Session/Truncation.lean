import Lox.Proofs.Eval.Truncation
import Lox.Proofs.Session.Concat
import Mathlib

/-!
# Lox — source texts with limited output

A source text that is run with limited output prints the first bytes of what it prints without a
limit. A text that is refused prints nothing, so no limit matters to it.

* **`limited_output_law`** — statements, source texts, and lines typed at a prompt.
-/

namespace Lox

section

variable {code : List Instruction} {frame : Nat}

/-- A computation that stops at once. -/
theorem Truncates.of_error {ε : Type} {x : EStateM ε Machine Unit} {refusal : String → ε} {e : ε}
    (h : ∀ m, x m = .error e m) : Truncates x refusal code frame := by
  intro s w r reason
  refine ⟨.empty, ?_, fun _ => ?_, fun hr => absurd hr (Nat.not_lt_zero r)⟩
  · rw [h, ByteArray.append_empty]
    rfl
  · rw [h, h, ByteArray.append_empty]
    rfl

theorem Session.ofExecution_eq_mapState {x : Execution Unit} {m m' : Machine} {k : Sink}
    (h : x m' = mapState (·.withSink k) (x m)) :
    ofExecution x m' = mapState (·.withSink k) (ofExecution x m) := by
  simp only [ofExecution, h]
  cases x m <;> rfl

theorem Truncates.ofExecution {x : Execution Unit} (h : Truncates x .output code frame) :
    Truncates (Session.ofExecution x) (fun reason => .halted (.output reason)) code frame := by
  intro s w r reason
  obtain ⟨printed, hprinted, hshort, hlong⟩ := h s w r reason
  refine ⟨printed, ?_, fun hr => Session.ofExecution_eq_mapState (hshort hr), fun hr => ?_⟩
  · rw [← hprinted, Session.ofExecution]
    cases x ⟨s, ⟨w, none⟩⟩ <;> rfl
  · obtain ⟨τ, hcrosses, hrun⟩ := hlong hr
    refine ⟨τ, hcrosses, ?_⟩
    simp only [Session.ofExecution, hrun]

end

open Session (globals echoing) in
/-- **Limited output is cut off.** Statements, source texts and lines typed at a prompt that print no
more than the sink takes do the same as without a limit. Those that print more write the first bytes
of it, as many as the sink takes, and end with the refusal of the sink; the frames are those from
before the print that goes beyond the limit, and nothing later has an effect. -/
theorem limited_output_law :
    (∀ frame ss, Truncates (Stmt.execAll frame ss) .output (Stmt.codeOfAll ss) frame)
    ∧ (∀ source, Truncates (Session.run source) (fun reason => .halted (.output reason))
        (Stmt.codeOfAll (parseSource source).statements) globals)
    ∧ ∀ source, Truncates (Session.prompt source) (fun reason => .halted (.output reason))
        (Stmt.codeOfAll (echoing (parseSource source).statements)) globals := by
  refine ⟨Stmt.truncates_execAll, fun source => ?_, fun source => ?_⟩
  · cases h : checkSource source with
    | error ds => exact .of_error (Session.run_eq_error h)
    | ok ss =>
      rw [Session.run_eq_ofExecution h, statements_eq_of_checkSource h]
      exact (Stmt.truncates_execAll globals ss).ofExecution
  · cases h : checkSource source with
    | error ds => exact .of_error (Session.prompt_eq_error h)
    | ok ss =>
      rw [Session.prompt_eq_ofExecution h, statements_eq_of_checkSource h]
      exact (Stmt.truncates_execAll globals (echoing ss)).ofExecution

/-- Declares a name and prints twice in a block, the second time what it assigns. -/
def printsTwice : String := "var a; \x7b print true; print a = false; a = nil; \x7d"

open Session (globals) in
/-- The line of the second print is cut off between its value and the line end. The assignment in it
has been made, and the one after it is not made. -/
theorem limited_output_law_printsTwice :
    ∃ τ, Instruction.Crosses (Stmt.codeOfAll (parseSource printsTwice).statements)
        (.start globals ⟨Store.initial, ⟨.empty, none⟩⟩) 10 τ
      ∧ τ.close.store = ⟨#[⟨[("a", .bool false)], none⟩]⟩
      ∧ Session.run printsTwice ⟨Store.initial, ⟨.empty, some ⟨10, "full"⟩⟩⟩
        = .error (.halted (.output "full"))
            ⟨τ.close.store, ⟨"true\nfalse".toUTF8, some ⟨0, "full"⟩⟩⟩ := by
  obtain ⟨printed, hprinted, -, hlong⟩ :=
    limited_output_law.2.1 printsTwice Store.initial .empty 10 "full"
  have hfree : (endState (Session.run printsTwice ⟨Store.initial, ⟨.empty, none⟩⟩)).sink
      = ⟨"true\nfalse\n".toUTF8, none⟩ := by cbv
  have hlimited : Session.run printsTwice ⟨Store.initial, ⟨.empty, some ⟨10, "full"⟩⟩⟩
      = .error (.halted (.output "full"))
          ⟨⟨#[⟨[("a", .bool false)], none⟩]⟩, ⟨"true\nfalse".toUTF8, some ⟨0, "full"⟩⟩⟩ := by cbv
  rw [hfree, ByteArray.empty_append] at hprinted
  cases hprinted
  obtain ⟨τ, hcrosses, hrun⟩ := hlong (by decide)
  have hstore : τ.close.store = ⟨#[⟨[("a", .bool false)], none⟩]⟩ := by
    rw [hlimited] at hrun
    injection hrun with _ hmachine
    exact (congrArg Machine.store hmachine).symm
  exact ⟨τ, hcrosses, hstore, by rw [hstore, hlimited]⟩

end Lox
