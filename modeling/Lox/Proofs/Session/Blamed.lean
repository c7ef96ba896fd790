import Lox.Proofs.Eval.Equality
import Lox.Proofs.Eval.Raises
import Lox.Proofs.Parse.Origin
import Lox.Proofs.Session.Concat
import Mathlib

/-!
# Lox — the tokens that runtime errors blame

A runtime error names a line and a piece of text. They are those of a token of the source text, of
one of the kinds that the error is about: the name that is unknown, or the operator that refuses the
values of its operands.

* **`RuntimeError.Cause.kinds`** — the kinds of tokens that are blamed for an error.
* **`RuntimeError.PointsInto`** — an error that is reported at a token of the source text.
* **`Expr.Raises.exists_token`** — an expression that raises an error has such a token.
* **`runtime_blame_law`** — runs of source texts that end in a runtime error.
-/

namespace Lox

/-! ## The blamed token -/

/-- The kinds of the tokens that are blamed for an error. -/
def RuntimeError.Cause.kinds : RuntimeError.Cause → List Token.Kind
  | .undefinedVariable _ => [.identifier]
  | .operandNotNumber _ => [.minus]
  | .divisionByZero => [.slash]
  | .overflow => [.plus, .minus, .star, .slash]
  | .operandsNotAddable _ _ => [.plus]
  | .operandsNotNumbers _ _ =>
    [.minus, .star, .slash, .greater, .less, .greaterEqual, .lessEqual]

/-- Whether the token is the one that the error blames. -/
structure RuntimeError.Blames (err : RuntimeError) (t : Token) : Prop where
  blamed : err.blamed = t.toLexeme
  kind : t.kind ∈ err.cause.kinds
  name : ∀ name, err.cause = .undefinedVariable name → name = t.text

section

variable {P : Token → Prop} {frame frame' : Nat} {e e' : Expr} {s s' : Store} {err : RuntimeError}

theorem Expr.ComesTo.from_of (h : e.ComesTo frame s e' s') (he : e.From P) : e'.From P := by
  induction h with
  | here e s => exact he
  | assign name _ ih => exact ih he.2
  | group _ ih => exact ih he
  | unary op sign _ ih => exact ih he.2
  | left op sign right _ ih => exact ih he.2.1
  | right op sign _ _ ih => exact ih he.2.2

theorem Stmt.ComesTo.from_of {ss : List Stmt} {m : Machine} (h : ComesTo frame ss m frame' e' s')
    (hss : FromAll P ss) : e'.From P := by
  induction h with
  | expression h | print h => exact h.from_of hss.1
  | declaration name h => exact h.from_of (hss.1.2 _ rfl)
  | block _ ih => exact ih hss.1
  | later _ _ ih => exact ih hss.2

/-- **An error that an expression raises blames one of its tokens**, of a kind that fits. -/
theorem Expr.Raises.exists_token (h : e.Raises frame s err s') (he : e.From P) :
    ∃ t, P t ∧ err.Blames t := by
  have hnumeric : ∀ op ∈ BinaryOp.numeric, op.kind ∈
      [.minus, .star, .slash, .greater, .less, .greaterEqual, .lessEqual] := by decide
  have harithmetic : ∀ op ∈ BinaryOp.arithmetic, op.kind ∈ [.plus, .minus, .star, .slash] := by
    decide
  cases h with
  | read =>
    refine ⟨_, he, rfl, List.mem_singleton.2 rfl, ?_⟩
    rintro _ ⟨⟩
    rfl
  | write =>
    refine ⟨_, he.1, rfl, List.mem_singleton.2 rfl, ?_⟩
    rintro _ ⟨⟩
    rfl
  | notNumber => exact ⟨_, he.1, rfl, List.mem_singleton.2 rfl, nofun⟩
  | notNumbers hop => exact ⟨_, he.1, rfl, hnumeric _ hop, nofun⟩
  | notAddable => exact ⟨_, he.1, rfl, List.mem_singleton.2 rfl, nofun⟩
  | divisionByZero => exact ⟨_, he.1, rfl, List.mem_singleton.2 rfl, nofun⟩
  | overflow hop => exact ⟨_, he.1, rfl, harithmetic _ hop, nofun⟩

end

/-! ## Source texts -/

/-- Whether the error is reported at the line and with the text of a scanned token that it is about,
spelled as the kind of the token asks for. -/
def RuntimeError.PointsInto (err : RuntimeError) (source : String) : Prop :=
  ∃ t : Token, .ok t ∈ scan source ∧ err.Blames t
    ∧ err.diagnostic = ⟨t.line, " at '" ++ t.text ++ "'", err.cause.message⟩
    ∧ ∀ spelling, t.kind.spelling? = some spelling → t.text = spelling

theorem Token.Written.location_eq {t : Token} (h : t.Written) :
    t.location = " at '" ++ t.text ++ "'" := by
  obtain ⟨rest, hform⟩ := h
  have hne : t.text ≠ "" := fun hnil => hform.text_ne_nil (by rw [hnil]; rfl)
  exact if_neg hne

/-- Statements that are made of scanned tokens raise errors that point to these. -/
theorem Stmt.RaisesIn.pointsInto {source : String} {frame : Nat} {ss : List Stmt} {m : Machine}
    {err : RuntimeError} (h : RaisesIn frame ss m err)
    (hss : FromAll (fun t => .ok t ∈ scan source ∧ t.Written) ss) : err.PointsInto source := by
  obtain ⟨frame', e, s, s', hcomes, hraises⟩ := h
  obtain ⟨t, ⟨hscan, hwritten⟩, hblames⟩ := hraises.exists_token (hcomes.from_of hss)
  refine ⟨t, hscan, hblames, ?_, fun _ => hwritten.text_eq⟩
  rw [RuntimeError.diagnostic, hblames.blamed, hwritten.location_eq]

namespace Session

/-- Printing an expression takes no other tokens than evaluating it. -/
theorem fromAll_echoing {P : Token → Prop} {ss : List Stmt} (h : Stmt.FromAll P ss) :
    Stmt.FromAll P (echoing ss) := by
  unfold echoing
  split <;> exact h

theorem fromAll_of_checkSource {source : String} {ss : List Stmt}
    (h : checkSource source = .ok ss) :
    Stmt.FromAll (fun t => .ok t ∈ scan source ∧ t.Written) ss := by
  rw [← statements_eq_of_checkSource h]
  exact Stmt.fromAll_parseSource fun t hscan hwritten => ⟨hscan, hwritten⟩

theorem ofExecution_eq_halted_iff {x : Execution Unit} {m m' : Machine} {halt : Halt} :
    ofExecution x m = .error (.halted halt) m' ↔ x m = .error halt m' := by
  unfold ofExecution
  cases x m <;> simp

/-- What halts has passed the check. -/
theorem exists_checkSource_of_halted {source : String} {k : List Stmt → Session Unit}
    {m m' : Machine} {halt : Halt} (h : (check source >>= k) m = .error (.halted halt) m') :
    ∃ ss, checkSource source = .ok ss := by
  cases hcheck : checkSource source with
  | error ds =>
    simp only [check, bind, EStateM.bind, hcheck] at h
    cases h
  | ok ss => exact ⟨ss, rfl⟩

end Session

/-- **Runtime errors point at the token that caused them.** If a run of a source text ends in a
runtime error, on whatever machine, then the report names the line and the text of a scanned token,
which is of one of the kinds that the error is about, and is spelled as this kind asks for. The run
has come to an expression that raises the error: its operands have values, and these are what the
error carries. So it is with a line at a prompt. Negation of truth values and tests for equality,
however, have a value whenever their operands have. -/
theorem runtime_blame_law :
    (∀ (source : String) (frame : Nat) (m m' : Machine) (err : RuntimeError),
      Session.runIn frame source m = .error (.halted (.runtime err)) m' →
      err.PointsInto source
        ∧ ∃ ss, checkSource source = .ok ss ∧ Stmt.RaisesIn frame ss m err)
    ∧ (∀ (source : String) (m m' : Machine) (err : RuntimeError),
      Session.prompt source m = .error (.halted (.runtime err)) m' →
      err.PointsInto source
        ∧ ∃ ss, checkSource source = .ok ss
          ∧ Stmt.RaisesIn Session.globals (Session.echoing ss) m err)
    ∧ (∀ (frame : Nat) (sign : Lexeme) (operand : Expr) (v : Value) (s s' : Store),
      operand.eval frame s = .ok v s' →
      (Expr.unary .not sign operand).eval frame s = .ok (.bool !v.truthy) s')
    ∧ ∀ (frame : Nat) (sign : Lexeme) (left right : Expr) (v w : Value) (s s₁ s' : Store),
      left.eval frame s = .ok v s₁ → right.eval frame s₁ = .ok w s' →
      (Expr.binary .equal sign left right).eval frame s = .ok (.bool (v.equals w)) s'
      ∧ (Expr.binary .notEqual sign left right).eval frame s = .ok (.bool !v.equals w) s' := by
  refine ⟨fun source frame m m' err h => ?_, fun source m m' err h => ?_,
    fun frame sign operand v s s' h => ?_,
    fun frame sign left right v w s s₁ s' hleft hright => ?_⟩
  · obtain ⟨ss, hcheck⟩ := Session.exists_checkSource_of_halted h
    rw [Session.runIn_eq_ofExecution hcheck, Session.ofExecution_eq_halted_iff] at h
    have hraises := Stmt.execAll_eq_runtime_iff.1 ⟨m', h⟩
    exact ⟨hraises.pointsInto (Session.fromAll_of_checkSource hcheck), ss, hcheck, hraises⟩
  · obtain ⟨ss, hcheck⟩ := Session.exists_checkSource_of_halted h
    rw [Session.prompt_eq_ofExecution hcheck, Session.ofExecution_eq_halted_iff] at h
    have hraises := Stmt.execAll_eq_runtime_iff.1 ⟨m', h⟩
    have hfrom := Session.fromAll_echoing (Session.fromAll_of_checkSource hcheck)
    exact ⟨hraises.pointsInto hfrom, ss, hcheck, hraises⟩
  · simp only [Expr.eval, bind, EStateM.bind, h]
    rfl
  · obtain ⟨hequal, hnotEqual⟩ := BinaryOp.apply_equal v w
    constructor
    · simp only [Expr.eval, bind, EStateM.bind, hleft, hright, hequal]
      rfl
    · simp only [Expr.eval, bind, EStateM.bind, hleft, hright, hnotEqual]
      rfl

/-- The second operand of a comparison is the negation of a string, which is on another line. At a
prompt, the name of a variable that there is not is what is blamed. -/
theorem runtime_blame_law_negatedString :
    Session.run "\x7b var a = \"x\";\nprint 1 <\n-a; \x7d" (Session.start .unlimited)
      = .error (.halted (.runtime ⟨.operandNotNumber (.string "x"), ⟨"-", 3⟩⟩))
        (Session.start .unlimited)
    ∧ (∃ t : Token, .ok t ∈ scan "\x7b var a = \"x\";\nprint 1 <\n-a; \x7d"
        ∧ t.toLexeme = ⟨"-", 3⟩ ∧ t.kind = .minus)
    ∧ Session.prompt "!(a == a);" (Session.start .unlimited)
      = .error (.halted (.runtime ⟨.undefinedVariable "a", ⟨"a", 1⟩⟩)) (Session.start .unlimited)
    ∧ (∃ t : Token, .ok t ∈ scan "!(a == a);" ∧ t.text = "a" ∧ t.kind = .identifier)
    ∧ (Expr.unary .not ⟨"!", 1⟩
        (.binary .equal ⟨"==", 1⟩ (.literal .nil) (.literal (.bool false)))).eval Session.globals
        Store.initial = .ok (.bool true) Store.initial := by
  have hrun : Session.run "\x7b var a = \"x\";\nprint 1 <\n-a; \x7d" (Session.start .unlimited)
      = .error (.halted (.runtime ⟨.operandNotNumber (.string "x"), ⟨"-", 3⟩⟩))
        (Session.start .unlimited) := by cbv
  have hprompt : Session.prompt "!(a == a);" (Session.start .unlimited)
      = .error (.halted (.runtime ⟨.undefinedVariable "a", ⟨"a", 1⟩⟩))
        (Session.start .unlimited) := by cbv
  obtain ⟨hruns, hprompts, hnot, hequal⟩ := runtime_blame_law
  obtain ⟨⟨t, hscan, hblames, -⟩, -⟩ := hruns _ _ _ _ _ hrun
  obtain ⟨⟨t', hscan', hblames', -⟩, -⟩ := hprompts _ _ _ _ hprompt
  exact ⟨hrun, ⟨t, hscan, hblames.blamed.symm, List.mem_singleton.1 hblames.kind⟩,
    hprompt, ⟨t', hscan', (hblames'.name _ rfl).symm, List.mem_singleton.1 hblames'.kind⟩,
    hnot _ _ _ _ _ _ (hequal _ _ _ _ .nil (.bool false) _ _ _ rfl rfl).1⟩

end Lox
