import Lox.Proofs.Parse.Shown
import Lox.Proofs.Session.Lines

/-!
# Lox — source texts whose statements are shown alike

What is shown of the statements of a source text says which statements they are, whatever is wrong
with the text. So two texts whose statements are shown alike do the same.

* **`Failure.SameButLine`** — runs that stop for the same reason, wherever it is in the text.
* **`display_law`** — texts whose statements are shown alike.
-/

namespace Lox

/-- Two runs that stop for the same reason, the lexeme that is blamed being on any line. -/
inductive Failure.SameButLine : Failure → Failure → Prop where
  | halted {h h' : Halt} (hhalt : h.relabel .unlined = h'.relabel .unlined) :
      SameButLine (.halted h) (.halted h')

/-- Statements that differ in lines only are executed alike. -/
theorem Stmt.execAll_unlined {ss ss' : List Stmt}
    (h : relabelAll .unlined ss = relabelAll .unlined ss') (frame : Nat) :
    EStateM.adaptExcept (Halt.relabel .unlined) (execAll frame ss)
      = EStateM.adaptExcept (Halt.relabel .unlined) (execAll frame ss') := by
  have htext : ∀ x : Lexeme, x.unlined.text = x.text := fun _ => rfl
  rw [← execAll_relabel htext, ← execAll_relabel htext, h]

theorem Session.ofExecution_unlined {x y : Execution Unit}
    (h : EStateM.adaptExcept (Halt.relabel .unlined) x
      = EStateM.adaptExcept (Halt.relabel .unlined) y) (m : Machine) :
    RelatedResult Eq Failure.SameButLine Eq (ofExecution x m) (ofExecution y m) := by
  have hm := congrFun h m
  simp only [EStateM.adaptExcept] at hm
  simp only [ofExecution]
  generalize x m = r, y m = r' at hm ⊢
  cases r with
  | ok a s =>
    cases r' with
    | ok b t =>
      cases hm
      exact .ok rfl rfl
    | error e t => cases hm
  | error e s =>
    cases r' with
    | ok b t => cases hm
    | error e' t =>
      obtain ⟨he, rfl⟩ := EStateM.Result.error.inj hm
      exact .error (.halted he) rfl

/-- **The display is unambiguous.** The statements of two source texts, as far as they could be
parsed, are shown alike if and only if they are the same up to lines. Then, if there is nothing to
report about the texts, runs of both on one machine end alike, on the same machine and for the same
reason up to lines, and so do runs of both as a line at a prompt. -/
theorem display_law (a b : String) :
    ((parseSource a).statements.map Stmt.display = (parseSource b).statements.map Stmt.display
      ↔ (parseSource a).statements.map (Stmt.relabel .unlined)
        = (parseSource b).statements.map (Stmt.relabel .unlined))
    ∧ ∀ ss ss' : List Stmt, checkSource a = .ok ss → checkSource b = .ok ss' →
      ss.map Stmt.display = ss'.map Stmt.display → ∀ m : Machine,
        (∀ frame : Nat, RelatedResult Eq Failure.SameButLine Eq (Session.runIn frame a m)
          (Session.runIn frame b m))
        ∧ RelatedResult Eq Failure.SameButLine Eq (Session.prompt a m) (Session.prompt b m) := by
  have hinj : (parseSource a).statements.map Stmt.display
        = (parseSource b).statements.map Stmt.display →
      Stmt.relabelAll .unlined (parseSource a).statements
        = Stmt.relabelAll .unlined (parseSource b).statements :=
    Stmt.map_display_inj (Stmt.fromAll_parseSource fun _ _ h => h)
      (Stmt.fromAll_parseSource fun _ _ h => h)
  have htext : ∀ x : Lexeme, x.unlined.text = x.text := fun _ => rfl
  refine ⟨⟨fun h => ?_, fun h => ?_⟩, fun ss ss' ha hb hdisplay m => ?_⟩
  · rw [← Stmt.relabelAll_eq_map, ← Stmt.relabelAll_eq_map, hinj h]
  · have hdisplay := congrArg (List.map Stmt.display) h
    simpa only [List.map_map, Function.comp_def, Stmt.display_relabel htext] using hdisplay
  · obtain rfl := statements_eq_of_checkSource ha
    obtain rfl := statements_eq_of_checkSource hb
    have hsame := hinj hdisplay
    constructor
    · intro frame
      rw [Session.runIn_eq_ofExecution ha, Session.runIn_eq_ofExecution hb]
      exact Session.ofExecution_unlined (Stmt.execAll_unlined hsame frame) m
    · rw [Session.prompt_eq_ofExecution ha, Session.prompt_eq_ofExecution hb]
      refine Session.ofExecution_unlined (Stmt.execAll_unlined ?_ Session.globals) m
      rw [← Session.echoing_relabelAll, ← Session.echoing_relabelAll, hsame]

/-- A statement with a string that looks like part of a display, and with a variable that has the name
of a word of the display. The lines are those of its operators. -/
def disguised (i j : Nat) : Stmt :=
  .print (.unary .negate ⟨"-", i⟩ (.group
    (.binary .equal ⟨"==", j⟩ (.literal (.string "(a b);")) (.var ⟨"group", j⟩))))

theorem display_law_disguised :
    checkSource "print -(\"(a b);\" == group);" = .ok [disguised 1 1]
    ∧ checkSource "print\n-(\"(a b);\" // one line more\n== group);" = .ok [disguised 2 3]
    ∧ [disguised 1 1].map Stmt.display = [disguised 2 3].map Stmt.display
    ∧ ∀ m : Machine, RelatedResult Eq Failure.SameButLine Eq
        (Session.run "print -(\"(a b);\" == group);" m)
        (Session.run "print\n-(\"(a b);\" // one line more\n== group);" m) := by
  have hline : checkSource "print -(\"(a b);\" == group);" = .ok [disguised 1 1] := by cbv
  have hlines : checkSource "print\n-(\"(a b);\" // one line more\n== group);"
      = .ok [disguised 2 3] := by cbv
  have hdisplay : [disguised 1 1].map Stmt.display = [disguised 2 3].map Stmt.display := rfl
  exact ⟨hline, hlines, hdisplay, fun m =>
    ((display_law _ _).2 _ _ hline hlines hdisplay m).1 Session.globals⟩

end Lox
