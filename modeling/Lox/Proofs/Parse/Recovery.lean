import Lox.Proofs.Parse.Local

/-!
# Lox — recovery from errors

A semicolon ends a statement and a closing brace ends a block, however malformed the tokens
between them are. So an error in a statement or a block has no influence on what comes after it.

* **`Balanced`** — token sequences with matching braces, and otherwise in any disorder.
* **`Balanced.exists_leadsTo`** — after such a sequence the parser stands in front of a
  statement, in the block in which it started.
* **`Balanced.parse_local`** — such a sequence is parsed on its own, and in a block as outside it.
-/

namespace Lox

/-! ## Balanced sequences -/

/-- The kinds that neither end a statement, nor begin or end a block, nor end the source. -/
def Token.Kind.isJunk : Token.Kind → Bool
  | .semicolon | .leftBrace | .rightBrace | .eof => false
  | _ => true

/-- Tokens without statement ends, braces and end tokens, in any order. -/
def Junk (tokens : List Token) : Prop := ∀ t ∈ tokens, t.kind.isJunk = true

instance (tokens : List Token) : Decidable (Junk tokens) :=
  inferInstanceAs (Decidable (∀ t ∈ tokens, t.kind.isJunk = true))

/-- Tokens in which the braces match and the outermost statements are ended. -/
inductive Balanced : List Token → Prop
  | nil : Balanced []
  | statement {w j : List Token} (x : Lexeme) (hw : Balanced w) (hj : Junk j) :
    Balanced (w ++ j ++ [⟨x, .semicolon⟩])
  | block {w w' j : List Token} (l r : Lexeme) (hw : Balanced w) (hw' : Balanced w') (hj : Junk j) :
    Balanced (w ++ [⟨l, .leftBrace⟩] ++ w' ++ j ++ [⟨r, .rightBrace⟩])

theorem Junk.isEof_eq_false {j : List Token} (h : Junk j) :
    ∀ t ∈ j, t.isEof = false := by
  intro t ht
  have hk := h t ht
  simp only [Token.isEof, decide_eq_false_iff_not]
  intro heof
  simp [heof, Token.Kind.isJunk] at hk

theorem Balanced.isEof_eq_false {w : List Token} (h : Balanced w) :
    ∀ t ∈ w, t.isEof = false := by
  induction h with
  | nil => nofun
  | statement x hw hj ih =>
    simp only [List.mem_append, List.mem_singleton]
    rintro t ((ht | ht) | rfl)
    · exact ih t ht
    · exact hj.isEof_eq_false t ht
    · rfl
  | block l r hw hw' hj ih ih' =>
    simp only [List.mem_append, List.mem_singleton]
    rintro t ((((ht | rfl) | ht) | ht) | rfl)
    · exact ih t ht
    · rfl
    · exact ih' t ht
    · exact hj.isEof_eq_false t ht
    · rfl

/-! ## Where they lead -/

/-- Junk finishes no statement and leaves no block. -/
theorem Junk.exists_leadsTo {j : List Token} (h : Junk j) (m : Mode) :
    ∃ m' errs, m.LeadsTo j m' ⟨[], errs⟩ := by
  induction j generalizing m with
  | nil => exact ⟨m, [], .nil m⟩
  | cons t ts ih =>
    obtain ⟨ht, hts⟩ := List.forall_mem_cons.1 h
    have hkind : t.kind ≠ .semicolon ∧ t.kind ≠ .leftBrace ∧ t.kind ≠ .rightBrace := by
      refine ⟨?_, ?_, ?_⟩ <;> intro hk <;> simp [hk, Token.Kind.isJunk] at ht
    obtain ⟨hsemi, hleft, hright⟩ := hkind
    -- whatever the first token begins or breaks off, it finishes no statement
    obtain ⟨m₁, ⟨ss, errs⟩, -, hnone, hstep⟩ :=
      ParseState.exists_step_eq_after m (t := t) fun _ => hleft
    obtain rfl : ss = [] := hnone hsemi
    obtain ⟨m₂, errs', hrest⟩ := ih hts m₁
    have hfirst : m.LeadsTo [t] m₁ ⟨[], errs⟩ := fun st hm =>
      hstep st hm fun hk => absurd hk hright
    exact ⟨m₂, errs ++ errs', hfirst.append hrest⟩

/-- After a semicolon the parser stands in front of a statement, wherever it stood before. -/
theorem Mode.exists_leadsTo_semicolon (m : Mode) (x : Lexeme) :
    ∃ p, m.LeadsTo [⟨x, .semicolon⟩] .start p := by
  obtain ⟨m', p, hstart, -, hstep⟩ :=
    ParseState.exists_step_eq_after m (t := ⟨x, .semicolon⟩) fun _ => nofun
  obtain rfl : m' = .start := hstart rfl
  exact ⟨p, fun st hm => hstep st hm nofun⟩

/-- A balanced sequence leads from the front of a statement to the front of a statement of the
same block. -/
theorem Balanced.exists_leadsTo {w : List Token} (h : Balanced w) :
    ∃ p, Mode.LeadsTo .start w .start p := by
  induction h with
  | nil => exact ⟨_, .nil .start⟩
  | statement x hw hj ih =>
    obtain ⟨p, hp⟩ := ih
    obtain ⟨m, errs, hm⟩ := hj.exists_leadsTo .start
    obtain ⟨q, hq⟩ := m.exists_leadsTo_semicolon x
    exact ⟨_, (hp.append hm).append hq⟩
  | @block w w' j l r hw hw' hj ih ih' =>
    obtain ⟨p, hp⟩ := ih
    obtain ⟨q, hq⟩ := ih'
    obtain ⟨m, errs, hm⟩ := hj.exists_leadsTo .start
    have hblock := hp.append ((hq.append hm).block l r)
    rw [show w ++ [⟨l, .leftBrace⟩] ++ w' ++ j ++ [⟨r, .rightBrace⟩]
        = w ++ (⟨l, .leftBrace⟩ :: (w' ++ j ++ [⟨r, .rightBrace⟩])) by simp]
    exact ⟨_, hblock⟩

/-! ## What is parsed -/

/-- After a balanced sequence the next tokens are parsed as if they were alone. -/
theorem Balanced.parse_append {w : List Token} (hw : Balanced w) (ts : List Token) :
    parse (w ++ ts) = parse w ++ parse ts := by
  obtain ⟨p, hp⟩ := hw.exists_leadsTo
  exact hp.parse_append hw.isEof_eq_false ts

/-- **Recovery is local.** After a balanced sequence, however malformed, the next tokens are
parsed as if they were alone. With some junk behind it, it gives in a block the statements and
the errors that it gives outside, except that what is missing at its end is blamed on the end
token outside and on the closing brace inside. -/
theorem Balanced.parse_local {w : List Token} (hw : Balanced w) :
    (∀ ts, parse (w ++ ts) = parse w ++ parse ts)
    ∧ ∀ j, Junk j →
      ∃ (errs : List SyntaxError) (missing : Option SyntaxError.Cause),
        (∀ eof : Token, eof.kind = .eof →
          parse (w ++ j ++ [eof])
            = ⟨(parse (w ++ j)).statements, errs ++ missing.toList.map (⟨·, eof.toLexeme⟩)⟩)
        ∧ parse (w ++ j)
            = ⟨(parse (w ++ j)).statements,
                errs ++ missing.toList.map (⟨·, (endToken (w ++ j)).toLexeme⟩)⟩
        ∧ ∀ l r : Lexeme,
          parse ([⟨l, .leftBrace⟩] ++ w ++ j ++ [⟨r, .rightBrace⟩])
            = ⟨[.block (parse (w ++ j)).statements], errs ++ missing.toList.map (⟨·, r⟩)⟩ := by
  refine ⟨hw.parse_append, fun j hj => ?_⟩
  obtain ⟨p, hp⟩ := hw.exists_leadsTo
  -- the junk stops in some mode, and that mode says what is missing
  obtain ⟨m, errs, hm⟩ := hj.exists_leadsTo .start
  have hlead := hp.append hm
  generalize p ++ ⟨[], errs⟩ = q at hlead
  have hnoeof : ∀ t ∈ w ++ j, t.isEof = false := by
    simp only [List.mem_append]
    rintro t (ht | ht)
    · exact hw.isEof_eq_false t ht
    · exact hj.isEof_eq_false t ht
  have hopen := hlead.parse_eq_self hnoeof
  have hstatements : (parse (w ++ j)).statements = q.statements := by simp [hopen]
  rw [hstatements]
  refine ⟨q.errors ++ m.unfinished.1, m.unfinished.2, fun eof heof => ?_, ?_, fun l r => ?_⟩
  · rw [hlead.parse_snoc hnoeof heof, Parsed.append_def]
    simp [Mode.stopErrors]
  · rw [hopen, Parsed.append_def]
    simp [Mode.stopErrors]
  · have hblock := hlead.block l r
    rw [show ⟨l, .leftBrace⟩ :: (w ++ j ++ [⟨r, .rightBrace⟩])
        = [⟨l, .leftBrace⟩] ++ w ++ j ++ [⟨r, .rightBrace⟩] by simp] at hblock
    -- the block itself is balanced, so nothing is missing behind it
    refine (hblock.parse_complete (Balanced.block l r .nil hw hj).isEof_eq_false).trans ?_
    simp [Mode.stopErrors]

/-- The tokens of `{ a + ; ) = } var x y ;`. -/
def disorder : List Token :=
  [⟨⟨"\x7b", 1⟩, .leftBrace⟩, ⟨⟨"a", 1⟩, .identifier⟩, ⟨⟨"+", 1⟩, .plus⟩, ⟨⟨";", 1⟩, .semicolon⟩,
   ⟨⟨")", 1⟩, .rightParen⟩, ⟨⟨"=", 1⟩, .equal⟩, ⟨⟨"\x7d", 1⟩, .rightBrace⟩,
   ⟨⟨"var", 2⟩, .varWord⟩, ⟨⟨"x", 2⟩, .identifier⟩, ⟨⟨"y", 2⟩, .identifier⟩,
   ⟨⟨";", 2⟩, .semicolon⟩]

/-- The tokens of `print ( z`. -/
def dangling : List Token :=
  [⟨⟨"print", 3⟩, .printWord⟩, ⟨⟨"(", 3⟩, .leftParen⟩, ⟨⟨"z", 3⟩, .identifier⟩]

theorem balanced_disorder : Balanced disorder :=
  .statement (w := disorder.take 7) (j := (disorder.drop 7).take 3) ⟨";", 2⟩
    (.block (j := [⟨⟨")", 1⟩, .rightParen⟩, ⟨⟨"=", 1⟩, .equal⟩]) ⟨"\x7b", 1⟩ ⟨"\x7d", 1⟩ .nil
      (.statement (j := [⟨⟨"a", 1⟩, .identifier⟩, ⟨⟨"+", 1⟩, .plus⟩]) ⟨";", 1⟩ .nil (by decide))
      (by decide))
    (by decide)

theorem parse_disorder :
    Balanced disorder ∧ Junk dangling
    ∧ parse (disorder ++ dangling) = parse disorder ++ parse dangling
    ∧ ∃ (errs : List SyntaxError) (missing : Option SyntaxError.Cause),
      (∀ eof : Token, eof.kind = .eof →
        parse (disorder ++ dangling ++ [eof])
          = ⟨(parse (disorder ++ dangling)).statements,
              errs ++ missing.toList.map (⟨·, eof.toLexeme⟩)⟩)
      ∧ parse (disorder ++ dangling)
          = ⟨(parse (disorder ++ dangling)).statements,
              errs ++ missing.toList.map (⟨·, (endToken (disorder ++ dangling)).toLexeme⟩)⟩
      ∧ ∀ l r : Lexeme,
        parse ([⟨l, .leftBrace⟩] ++ disorder ++ dangling ++ [⟨r, .rightBrace⟩])
          = ⟨[.block (parse (disorder ++ dangling)).statements],
              errs ++ missing.toList.map (⟨·, r⟩)⟩ :=
  have hdangling : Junk dangling := by decide
  ⟨balanced_disorder, hdangling, balanced_disorder.parse_local.1 dangling,
    balanced_disorder.parse_local.2 dangling hdangling⟩

/-! ## Programs -/

theorem Balanced.append {u v : List Token} (hu : Balanced u) (hv : Balanced v) :
    Balanced (u ++ v) := by
  induction hv with
  | nil => rwa [List.append_nil]
  | @statement w j x hw hj ih =>
    have h := Balanced.statement x ih hj
    rwa [List.append_assoc, List.append_assoc, ← List.append_assoc w] at h
  | @block w w' j l r hw hw' hj ih ih' =>
    have h := Balanced.block l r ih hw' hj
    simp only [List.append_assoc] at h ⊢
    exact h

theorem UnaryOp.isJunk_kind (op : UnaryOp) : op.kind.isJunk = true := by
  cases op <;> rfl

theorem BinaryOp.isJunk_kind (op : BinaryOp) : op.kind.isJunk = true := by
  cases op <;> rfl

theorem Literal.isJunk_kind (l : Literal) : l.kind.isJunk = true := by
  cases l with
  | bool b => cases b <;> rfl
  | _ => rfl

/-- The form of what a nonterminal derives: statements are balanced, and expressions are free of
statement ends and braces. -/
def Nonterminal.Shape : Nonterminal → List Token → Prop
  | .declarations, ts | .declaration, ts => Balanced ts
  | .initializer, ts | .level _, ts | .operations _, ts => Junk ts

theorem Derivation.shape {g : Grammar} {n : Nonterminal} (d : Derivation g n) :
    n.Shape d.yield := by
  induction d with
  | nil => exact .nil
  | cons first rest ihfirst ihrest => exact ihfirst.append ihrest
  | declare word name initial semicolon ih =>
    have hjunk : Junk (⟨word, .varWord⟩ :: ⟨name, .identifier⟩ :: initial.yield) :=
      List.forall_mem_cons.2 ⟨rfl, List.forall_mem_cons.2 ⟨rfl, ih⟩⟩
    exact .statement semicolon .nil hjunk
  | print word e semicolon ih =>
    have hjunk : Junk (⟨word, .printWord⟩ :: e.yield) := List.forall_mem_cons.2 ⟨rfl, ih⟩
    exact .statement semicolon .nil hjunk
  | expression e semicolon ih => exact .statement semicolon .nil ih
  | block opening body closing ih =>
    have h := Balanced.block opening closing .nil ih (j := []) nofun
    rw [List.append_nil] at h
    exact h
  | absent => exact nofun
  | present sign e ih => exact List.forall_mem_cons.2 ⟨rfl, ih⟩
  | assign h name sign value ih =>
    exact List.forall_mem_cons.2 ⟨rfl, List.forall_mem_cons.2 ⟨rfl, ih⟩⟩
  | assignTo h target sign value ihtarget ih =>
    exact List.forall_mem_append.2 ⟨ihtarget, List.forall_mem_cons.2 ⟨rfl, ih⟩⟩
  | plain e ih => exact ih
  | binary h first rest ihfirst ihrest => exact List.forall_mem_append.2 ⟨ihfirst, ihrest⟩
  | done => exact nofun
  | apply op h sign right rest ihright ihrest =>
    exact List.forall_mem_cons.2 ⟨op.isJunk_kind, List.forall_mem_append.2 ⟨ihright, ihrest⟩⟩
  | unary op sign operand ih => exact List.forall_mem_cons.2 ⟨op.isJunk_kind, ih⟩
  | atom e ih => exact ih
  | literal value text => exact List.forall_mem_cons.2 ⟨value.isJunk_kind, nofun⟩
  | reference name => exact List.forall_mem_cons.2 ⟨rfl, nofun⟩
  | group opening e closing ih =>
    exact List.forall_mem_cons.2
      ⟨rfl, List.forall_mem_append.2 ⟨ih, List.forall_mem_cons.2 ⟨rfl, nofun⟩⟩⟩

/-- The tokens of a program are balanced. -/
theorem Derivation.balanced {g : Grammar} (d : Derivation g .declarations) : Balanced d.yield :=
  d.shape

end Lox
