import Lox.Proofs.Eval.Interchange
import Lox.Proofs.Relabel.Numbered
import Lox.Proofs.Relabel.Provenance
import Lox.Proofs.Session.Concat
import Mathlib

/-!
# Lox — lines are annotation

Two source texts with the same tokens on other lines are parsed and run alike. The line that an
error names is the line of one token, and errors of both texts name corresponding tokens.

Both texts have the same numbered tokens, and the trees and errors of either text are those of the
numbered tokens with its own lines put back in.

* **`SameButLines`** — texts without scan errors whose tokens differ in lines only.
* **`numbered_eq_of_sameButLine`** — the numbered tokens are the same.
* **`SameButLines.annotation_law`** — what is seen of two such texts.
-/

namespace Lox

/-! ## Corresponding tokens -/

/-- The tokens are of one kind and have one text. -/
def Token.SameButLine (t u : Token) : Prop := t.kind = u.kind ∧ t.text = u.text

instance (t u : Token) : Decidable (t.SameButLine u) :=
  inferInstanceAs (Decidable (t.kind = u.kind ∧ t.text = u.text))

/-- Two source texts without scan errors whose tokens differ in lines only. -/
structure SameButLines (a b : String) : Prop where
  left : errorsOf (scan a) = []
  right : errorsOf (scan b) = []
  tokens : List.Forall₂ Token.SameButLine (tokensOf (scan a)) (tokensOf (scan b))

/-- The lexemes have one text and stand at one place, each in its own token sequence. -/
structure Lexeme.Corresponds (ts us : List Token) (x y : Lexeme) : Prop where
  text : x.text = y.text
  place : ∃ i : Nat, ts[i]?.map Token.toLexeme = some x ∧ us[i]?.map Token.toLexeme = some y

/-- The same syntax error at corresponding lexemes. -/
def SyntaxError.Corresponds (ts us : List Token) (e e' : SyntaxError) : Prop :=
  e.cause = e'.cause ∧ e.blamed.Corresponds ts us e'.blamed

/-- The same runtime error at corresponding lexemes, or a sink with the same reason. -/
inductive Halt.Corresponds (ts us : List Token) : Halt → Halt → Prop
  | runtime {e e' : RuntimeError} (hcause : e.cause = e'.cause)
      (hblamed : e.blamed.Corresponds ts us e'.blamed) : Corresponds ts us (.runtime e) (.runtime e')
  | output (reason : String) : Corresponds ts us (.output reason) (.output reason)

/-- Two runs that stop for corresponding reasons. -/
inductive Failure.Corresponds (ts us : List Token) : Failure → Failure → Prop
  | halted {h h' : Halt} (hhalt : h.Corresponds ts us h') : Corresponds ts us (.halted h) (.halted h')

/-! ## Numbered tokens -/

section

variable {ts us : List Token}

theorem getElem?_of_sameButLine (h : List.Forall₂ Token.SameButLine ts us) (i : Nat) :
    Option.Rel Token.SameButLine ts[i]? us[i]? := by
  induction h generalizing i with
  | nil => exact .none
  | cons ht _ ih =>
    cases i with
    | zero => exact .some ht
    | succ i => exact ih i

theorem numbered_eq_of_sameButLine (h : List.Forall₂ Token.SameButLine ts us) :
    numbered ts = numbered us := by
  refine List.ext_getElem? fun i => ?_
  rw [getElem?_numbered, getElem?_numbered]
  have hsame := getElem?_of_sameButLine h i
  generalize ts[i]? = o, us[i]? = o' at hsame
  cases hsame with
  | none => rfl
  | some hsame => simp [hsame.1, hsame.2]

/-- With the lines of both sequences put back in, a numbered lexeme becomes corresponding ones. -/
theorem corresponds_relined (h : List.Forall₂ Token.SameButLine ts us) {x : Lexeme}
    (hx : x ∈ (numbered ts).map (·.toLexeme)) :
    (x.relined ts).Corresponds ts us (x.relined us) := by
  obtain ⟨i, hi⟩ := List.mem_iff_getElem?.1 hx
  rw [List.getElem?_map, getElem?_numbered] at hi
  have hsame := getElem?_of_sameButLine h i
  generalize ht : ts[i]? = o, hu : us[i]? = o' at hi hsame
  cases hsame with
  | none => cases hi
  | @some t u hsame =>
    cases hi
    refine ⟨rfl, i, ?_, ?_⟩
    · simp [Lexeme.relined, ht]
    · simp [Lexeme.relined, hu, hsame.2]

/-- A relation between the two replacements of every lexeme is one between the lists of them. -/
theorem forall₂_map_of_mem {α β γ : Type} {R : β → γ → Prop} {f : α → β} {g : α → γ} {xs : List α}
    (h : ∀ x ∈ xs, R (f x) (g x)) : List.Forall₂ R (xs.map f) (xs.map g) := by
  rw [List.forall₂_map_left_iff, List.forall₂_map_right_iff, List.forall₂_same]
  exact h

end

/-! ## Execution -/

section

variable {ts us : List Token} {f g : Lexeme → Lexeme}

/-- Trees with corresponding lexemes are executed alike. -/
theorem Stmt.relatedResult_execAll (hf : ∀ x, (f x).text = x.text) (hg : ∀ x, (g x).text = x.text)
    {ss : List Stmt} (h : ∀ x ∈ lexemesOfAll ss, (f x).Corresponds ts us (g x)) (frame : Nat)
    (m : Machine) :
    RelatedResult Eq (Halt.Corresponds ts us) Eq (execAll frame (relabelAll f ss) m)
      (execAll frame (relabelAll g ss) m) := by
  rw [execAll_relabel hf, execAll_relabel hg, EStateM.adaptExcept, EStateM.adaptExcept]
  cases hrun : execAll frame ss m with
  | ok _ m' => exact .ok rfl rfl
  | error halt m' =>
    cases halt with
    | runtime e => exact .error (.runtime rfl (h _ (blamed_mem_lexemesOfAll hrun))) rfl
    | output reason => exact .error (.output reason) rfl

namespace Session

theorem relatedResult_ofExecution {x y : Execution Unit} {m : Machine}
    (h : RelatedResult Eq (Halt.Corresponds ts us) Eq (x m) (y m)) :
    RelatedResult Eq (Failure.Corresponds ts us) Eq (ofExecution x m) (ofExecution y m) := by
  simp only [ofExecution]
  generalize x m = r, y m = r' at h
  cases h with
  | ok hv hm => exact .ok hv hm
  | error hhalt hm => exact .error (.halted hhalt) hm

/-- What a prompt executes depends on the shape of the line only. -/
theorem echoing_relabelAll (f : Lexeme → Lexeme) (ss : List Stmt) :
    echoing (Stmt.relabelAll f ss) = Stmt.relabelAll f (echoing ss) := by
  match ss with
  | [] | .expression _ :: _ :: _ | .print _ :: _ | .declaration _ _ :: _ | .block _ :: _ => rfl
  | [.expression _] => rfl

theorem lexemesOfAll_echoing (ss : List Stmt) :
    Stmt.lexemesOfAll (echoing ss) = Stmt.lexemesOfAll ss := by
  unfold echoing
  split <;> rfl

end Session

end

/-! ## Two source texts -/

theorem checkSource_eq_ok_of_relabel {a : String} {p : Parsed} {f : Lexeme → Lexeme}
    (hscan : errorsOf (scan a) = []) (hparse : parseSource a = p.relabel f) (hnone : p.errors = []) :
    checkSource a = .ok (Stmt.relabelAll f p.statements) := by
  refine checkSource_eq_ok_iff.2 ⟨hscan, hparse.trans ?_⟩
  rw [Parsed.relabel, hnone, Stmt.relabelAll_eq_map]
  rfl

/-- Both texts are parsed as one token sequence in which each lexeme has its place instead of its
line. -/
theorem SameButLines.exists_parsed {a b : String} (h : SameButLines a b) :
    ∃ p : Parsed,
      parseSource a = p.relabel (Lexeme.relined (tokensOf (scan a)))
      ∧ parseSource b = p.relabel (Lexeme.relined (tokensOf (scan b)))
      ∧ ∀ x ∈ Stmt.lexemesOfAll p.statements ++ p.errors.map (·.blamed),
        (x.relined (tokensOf (scan a))).Corresponds (tokensOf (scan a)) (tokensOf (scan b))
          (x.relined (tokensOf (scan b))) := by
  have heof := exists_isEof_numbered (exists_isEof_scan a)
  refine ⟨parse (numbered (tokensOf (scan a))), parse_numbered (exists_isEof_scan a), ?_, ?_⟩
  · rw [numbered_eq_of_sameButLine h.tokens]
    exact parse_numbered (exists_isEof_scan b)
  · intro x hx
    rcases List.mem_append.1 hx with hx | hx
    · exact corresponds_relined h.tokens (lexemesOfAll_parse_subset heof hx)
    · exact corresponds_relined h.tokens (blamed_parse_subset heof hx)

/-- **Lines are annotation.** Two source texts whose tokens differ in lines only have the same
statements but for lines, with corresponding names and operators, and the same syntax errors at
corresponding lexemes. If there are no such errors, then runs of both texts on one machine, and runs
of both as a line at a prompt, end alike and on one machine, and a runtime error blames corresponding
lexemes. -/
theorem SameButLines.annotation_law {a b : String} (h : SameButLines a b) :
    (parseSource a).statements.map (Stmt.relabel .unlined)
        = (parseSource b).statements.map (Stmt.relabel .unlined)
    ∧ (parseSource a).statements.map Stmt.display = (parseSource b).statements.map Stmt.display
    ∧ List.Forall₂ (Lexeme.Corresponds (tokensOf (scan a)) (tokensOf (scan b)))
        (Stmt.lexemesOfAll (parseSource a).statements)
        (Stmt.lexemesOfAll (parseSource b).statements)
    ∧ List.Forall₂ (SyntaxError.Corresponds (tokensOf (scan a)) (tokensOf (scan b)))
        (parseSource a).errors (parseSource b).errors
    ∧ ((parseSource a).errors = [] → ∀ m : Machine,
      RelatedResult Eq (Failure.Corresponds (tokensOf (scan a)) (tokensOf (scan b))) Eq
        (Session.run a m) (Session.run b m)
      ∧ RelatedResult Eq (Failure.Corresponds (tokensOf (scan a)) (tokensOf (scan b))) Eq
        (Session.prompt a m) (Session.prompt b m)) := by
  obtain ⟨p, ha, hb, hp⟩ := h.exists_parsed
  obtain ⟨hlexemes, hblamed⟩ := List.forall_mem_append.1 hp
  have htext : ∀ ts x, (Lexeme.relined ts x).text = x.text := fun _ _ => rfl
  refine ⟨?_, ?_, ?_, ?_, fun herrors m => ?_⟩
  · -- a line that is taken away need not be put back in before
    simp only [ha, hb, Parsed.relabel, List.map_map, Function.comp_def, Stmt.relabel_relabel]
    rfl
  · simp only [ha, hb, Parsed.relabel, List.map_map, Function.comp_def,
      Stmt.display_relabel (htext _)]
  · simp only [ha, hb, Parsed.relabel, ← Stmt.relabelAll_eq_map, Stmt.lexemesOfAll_relabelAll]
    exact forall₂_map_of_mem hlexemes
  · simp only [ha, hb, Parsed.relabel]
    exact forall₂_map_of_mem fun e he => ⟨rfl, hblamed _ (List.mem_map_of_mem he)⟩
  · have hnone : p.errors = [] := by
      rw [ha] at herrors
      exact List.map_eq_nil_iff.1 herrors
    have hchecka := checkSource_eq_ok_of_relabel h.left ha hnone
    have hcheckb := checkSource_eq_ok_of_relabel h.right hb hnone
    constructor
    · rw [Session.run_eq_ofExecution hchecka, Session.run_eq_ofExecution hcheckb]
      exact Session.relatedResult_ofExecution
        (Stmt.relatedResult_execAll (htext _) (htext _) hlexemes Session.globals m)
    · rw [Session.prompt_eq_ofExecution hchecka, Session.prompt_eq_ofExecution hcheckb,
        Session.echoing_relabelAll, Session.echoing_relabelAll]
      rw [← Session.lexemesOfAll_echoing] at hlexemes
      exact Session.relatedResult_ofExecution
        (Stmt.relatedResult_execAll (htext _) (htext _) hlexemes Session.globals m)

/-- A line, and the same tokens on three lines: the name without a value is on the first and on the
third line. -/
theorem SameButLines.annotation_law_spreadNegation :
    SameButLines "print -a;" "print\n-\na;"
    ∧ (parseSource "print -a;").errors = []
    ∧ Session.run "print -a;" (Session.start .unlimited)
        = .error (.halted (.runtime ⟨.undefinedVariable "a", ⟨"a", 1⟩⟩)) (Session.start .unlimited)
    ∧ Session.run "print\n-\na;" (Session.start .unlimited)
        = .error (.halted (.runtime ⟨.undefinedVariable "a", ⟨"a", 3⟩⟩)) (Session.start .unlimited)
    ∧ RelatedResult Eq
        (Failure.Corresponds (tokensOf (scan "print -a;")) (tokensOf (scan "print\n-\na;"))) Eq
        (Session.run "print -a;" (Session.start .unlimited))
        (Session.run "print\n-\na;" (Session.start .unlimited)) := by
  have hline : tokensOf (scan "print -a;") = [⟨⟨"print", 1⟩, .printWord⟩, ⟨⟨"-", 1⟩, .minus⟩,
      ⟨⟨"a", 1⟩, .identifier⟩, ⟨⟨";", 1⟩, .semicolon⟩, .eof 1] := by decide +kernel
  have hlines : tokensOf (scan "print\n-\na;") = [⟨⟨"print", 1⟩, .printWord⟩, ⟨⟨"-", 2⟩, .minus⟩,
      ⟨⟨"a", 3⟩, .identifier⟩, ⟨⟨";", 3⟩, .semicolon⟩, .eof 3] := by decide +kernel
  have hsame : SameButLines "print -a;" "print\n-\na;" := by
    refine ⟨by decide +kernel, by decide +kernel, ?_⟩
    rw [hline, hlines]
    exact .cons ⟨rfl, rfl⟩ (.cons ⟨rfl, rfl⟩ (.cons ⟨rfl, rfl⟩ (.cons ⟨rfl, rfl⟩
      (.cons ⟨rfl, rfl⟩ .nil))))
  have hparsed : (parseSource "print -a;").errors = [] := by decide +kernel
  obtain ⟨-, -, -, -, hruns⟩ := hsame.annotation_law
  exact ⟨hsame, hparsed, by cbv, by cbv, (hruns hparsed (Session.start .unlimited)).1⟩

end Lox
