import Lox.Proofs.Grammar.Derivation

/-!
# Lox — unambiguity of the grammar

In the strict grammar a token sequence has at most one derivation. What is shown by induction is
more: if two derivations from one nonterminal are prefixes of the same tokens, and neither could
be continued by what follows it, then they are the same derivation.

* **`Nonterminal.Ends`** — what follows cannot continue a derivation.
* **`Derivation.eq_of_yield_append_eq`** — the statement for prefixes.
* **`Derivation.eq_of_yield_eq`** — equal yields have equal derivations.
-/

namespace Lox

/-! ## Kinds of tokens -/

theorem UnaryOp.kind_injective {op op' : UnaryOp} (h : op.kind = op'.kind) : op = op' := by
  cases op <;> cases op' <;> first | rfl | cases h

theorem BinaryOp.kind_injective {op op' : BinaryOp} (h : op.kind = op'.kind) : op = op' :=
  Option.some.inj ((BinaryOp.ofKind?_eq_some_iff.2 rfl).symm.trans (BinaryOp.ofKind?_eq_some_iff.2 h.symm))

theorem Literal.kind_injective {l l' : Literal} (h : l.kind = l'.kind) : l = l' :=
  Option.some.inj ((Literal.ofKind?_eq_some_iff.2 rfl).symm.trans (Literal.ofKind?_eq_some_iff.2 h.symm))

theorem BinaryOp.ofKind?_kind (op : BinaryOp) : BinaryOp.ofKind? op.kind = some op :=
  BinaryOp.ofKind?_eq_some_iff.2 rfl

theorem BinaryOp.precedence_le (op : BinaryOp) : 1 ≤ op.precedence ∧ op.precedence ≤ 4 := by
  cases op <;> decide

/-- The kinds of tokens at which an expression can begin. -/
def Token.Kind.beginsExpression : Token.Kind → Bool
  | .minus | .bang | .number _ | .string _ | .trueWord | .falseWord | .nilWord | .identifier
  | .leftParen => true
  | _ => false

theorem UnaryOp.beginsExpression_kind (op : UnaryOp) : op.kind.beginsExpression = true := by
  cases op <;> rfl

theorem Literal.beginsExpression_kind (l : Literal) : l.kind.beginsExpression = true := by
  unfold Literal.kind
  split <;> rfl

theorem UnaryOp.kind_ne_literal (op : UnaryOp) (l : Literal) : op.kind ≠ l.kind := by
  unfold Literal.kind
  cases op <;> split <;> exact nofun

/-! ## Ends of derivations -/

/-- Whether `k` is the kind of an operator that takes an expression of the level `n` as its left
operand. -/
def Token.Kind.ContinuesLevel (k : Token.Kind) (n : Nat) : Prop :=
  (∃ op, BinaryOp.ofKind? k = some op ∧ n ≤ op.precedence) ∨ (n = 0 ∧ k = .equal)

/-- Whether a token of the kind `k` can continue a derivation that could end before it. -/
def Nonterminal.Continues : Nonterminal → Token.Kind → Prop
  | .declarations, k => k ≠ .rightBrace
  | .declaration, _ => False
  | .initializer, k => k.ContinuesLevel 0
  | .level n, k | .operations n, k => k.ContinuesLevel n

/-- Whether no derivation from `n` can be continued by `rest`. -/
def Nonterminal.Ends (n : Nonterminal) (rest : List Token) : Prop :=
  ∀ t ∈ rest.head?, ¬ n.Continues t.kind

namespace Nonterminal

theorem ends_cons {n : Nonterminal} {t : Token} {rest : List Token} :
    n.Ends (t :: rest) ↔ ¬ n.Continues t.kind := by
  simp [Ends]

theorem Ends.mono {m n : Nat} {rest : List Token} (h : (level m).Ends rest) (hmn : m ≤ n) :
    (level n).Ends rest := by
  intro t ht hc
  refine h t ht ?_
  rcases hc with ⟨op, hop, hle⟩ | ⟨rfl, hk⟩
  · exact .inl ⟨op, hop, by omega⟩
  · exact .inr ⟨by omega, hk⟩

/-- No operator between operands binds as tightly as one before an operand. -/
theorem ends_of_five_le {n : Nat} (h : 5 ≤ n) (rest : List Token) : (level n).Ends rest := by
  rintro t - (⟨op, -, hle⟩ | ⟨rfl, -⟩)
  · have := op.precedence_le
    omega
  · omega

theorem ends_assignment_cons {k : Token.Kind} (h : BinaryOp.ofKind? k = none ∧ k ≠ .equal)
    (x : Lexeme) (rest : List Token) : assignment.Ends (⟨x, k⟩ :: rest) := by
  rw [ends_cons]
  rintro (⟨op, hop, -⟩ | ⟨-, hk⟩)
  · simp [h.1] at hop
  · exact h.2 hk

end Nonterminal

namespace Derivation

open Nonterminal

variable {g : Grammar}

/-- The operations of a level end the operand before them. -/
theorem ends_yield_operations {n : Nat} (rest : Derivation g (.operations n)) {r : List Token}
    (hn : 1 ≤ n) (h : (level n).Ends r) : (level (n + 1)).Ends (rest.yield ++ r) := by
  cases rest with
  | done => exact h.mono (by omega)
  | apply op hop sign right rest =>
    simp only [yield, List.cons_append, ends_cons]
    rintro (⟨op', hop', hle⟩ | ⟨h0, -⟩)
    · rw [BinaryOp.ofKind?_kind] at hop'
      cases hop'
      omega
    · omega

/-! ## First tokens -/

theorem head_level : ∀ {n : Nonterminal} (d : Derivation g n) (m : Nat), n = .level m →
    ∃ t u, d.yield = t :: u ∧ t.kind.beginsExpression = true := by
  intro n d
  induction d with
  | assign _ name sign value => exact fun _ _ => ⟨_, _, rfl, rfl⟩
  | assignTo _ target sign value iht _ =>
    intro m hm
    obtain ⟨t, u, hy, ht⟩ := iht 1 rfl
    exact ⟨t, _, by rw [yield, hy]; rfl, ht⟩
  | plain e ih => exact fun _ _ => ih 1 rfl
  | binary h first rest ih _ =>
    intro m hm
    obtain ⟨t, u, hy, ht⟩ := ih _ rfl
    exact ⟨t, _, by rw [yield, hy]; rfl, ht⟩
  | unary op sign e => exact fun _ _ => ⟨_, _, rfl, op.beginsExpression_kind⟩
  | atom e ih => exact fun _ _ => ih 6 rfl
  | literal l text => exact fun _ _ => ⟨_, _, rfl, l.beginsExpression_kind⟩
  | reference name => exact fun _ _ => ⟨_, _, rfl, rfl⟩
  | group _ e _ => exact fun _ _ => ⟨_, _, rfl, rfl⟩
  | _ => exact fun _ hm => nomatch hm

theorem head_declaration (d : Derivation g .declaration) :
    ∃ t u, d.yield = t :: u ∧ t.kind ≠ .rightBrace := by
  cases d with
  | declare => exact ⟨_, _, rfl, nofun⟩
  | print => exact ⟨_, _, rfl, nofun⟩
  | block => exact ⟨_, _, rfl, nofun⟩
  | expression e semicolon =>
    obtain ⟨t, u, hy, ht⟩ := head_level e 0 rfl
    refine ⟨t, u ++ [⟨semicolon, .semicolon⟩], by rw [yield, hy]; rfl, ?_⟩
    intro hk
    rw [hk] at ht
    cases ht

/-- What no expression can begin with does not begin one. -/
theorem yield_append_ne_cons (e : Derivation g .assignment) {k : Token.Kind}
    (hk : k.beginsExpression = false) (x : Lexeme) (r : List Token) (v : List Token) :
    e.yield ++ r ≠ ⟨x, k⟩ :: v := by
  obtain ⟨t, u, hy, ht⟩ := head_level e 0 rfl
  rw [hy]
  rintro ⟨⟩
  simp [hk] at ht

/-- Only an operator before an operand can stand in front of one. -/
theorem yield_primary_append_ne_cons (e : Derivation g .primary) (op : UnaryOp) (sign : Lexeme)
    (r v : List Token) : e.yield ++ r ≠ ⟨sign, op.kind⟩ :: v := by
  cases e with
  | literal l text =>
    intro h
    exact op.kind_ne_literal l (congrArg Token.kind (List.cons.inj h).1).symm
  | reference name => cases op <;> exact nofun
  | group opening e closing => cases op <;> exact nofun
  | binary hn => omega

/-- Where a name and `=` are read, an operand that starts with the name is the name. -/
theorem rest_eq_of_name_equal {name sign : Lexeme} {x : List Token} :
    ∀ {n : Nonterminal} (d : Derivation g n) (m : Nat), n = .level (m + 1) →
      ∀ r, d.yield ++ r = ⟨name, .identifier⟩ :: ⟨sign, .equal⟩ :: x → r = ⟨sign, .equal⟩ :: x := by
  intro n d
  induction d with
  | binary h first rest ih _ =>
    intro m hm r hr
    rw [yield, List.append_assoc] at hr
    have hrest := ih _ rfl _ hr
    -- an operator after the first operand would stand where `=` is
    cases rest with
    | done => exact hrest
    | apply op _ _ _ _ => cases op <;> cases hrest
  | unary op _ _ => intro _ _ r hr; cases op <;> cases hr
  | atom e ih => exact fun _ _ => ih 5 rfl
  | literal l _ =>
    intro _ _ r hr
    have hk : l.kind = .identifier := congrArg Token.kind (List.cons.inj hr).1
    exact nomatch Literal.ofKind?_eq_some_iff.2 hk
  | reference _ => intro _ _ r hr; cases hr; rfl
  | group _ _ _ => intro _ _ r hr; cases hr
  | _ => exact fun _ hm => nomatch hm

/-! ## Longer derivations

Where a repetition or an option could have stopped, the next token continues it. -/

theorem not_ends_yield_cons (first : Derivation g .declaration) (rest : Derivation g .declarations)
    (r : List Token) : ¬ declarations.Ends ((cons first rest).yield ++ r) := by
  obtain ⟨t, u, hy, ht⟩ := head_declaration first
  simp only [yield, hy, List.cons_append, ends_cons]
  exact fun h => h ht

theorem not_ends_yield_present (sign : Lexeme) (e : Derivation g .assignment) (r : List Token) :
    ¬ initializer.Ends ((present sign e).yield ++ r) := by
  simp only [yield, List.cons_append, ends_cons]
  exact fun h => h (.inr ⟨rfl, rfl⟩)

theorem not_ends_yield_apply {n : Nat} (op : BinaryOp) (h : op.precedence = n) (sign : Lexeme)
    (right : Derivation g (.level (n + 1))) (rest : Derivation g (.operations n))
    (r : List Token) : ¬ (operations n).Ends ((apply op h sign right rest).yield ++ r) := by
  simp only [yield, List.cons_append, ends_cons]
  exact fun hends => hends (.inl ⟨op, op.ofKind?_kind, Nat.le_of_eq h.symm⟩)

/-- If an assignment can be read, its target alone is not all that can be read. -/
theorem not_ends_of_yield_eq_assign (hg : g = .strict) (name sign : Lexeme)
    (value : Derivation g .assignment) (e : Derivation g .equality) {r r' : List Token}
    (h : e.yield ++ r = (assign hg name sign value).yield ++ r') : ¬ assignment.Ends r := by
  rw [rest_eq_of_name_equal e 0 rfl r h, ends_cons]
  exact fun hends => hends (.inr ⟨rfl, rfl⟩)

/-! ## At most one derivation -/

/-- Derivations that are prefixes of the same tokens, and end there, are the same. -/
theorem eq_of_yield_append_eq {n : Nonterminal} (d d' : Derivation .strict n) {r r' : List Token}
    (h : d.yield ++ r = d'.yield ++ r') (hr : n.Ends r) (hr' : n.Ends r') : d = d' ∧ r = r' := by
  -- the rests stay general: what follows one part of a rule is the next part
  induction d generalizing r r' with
  | nil =>
    cases d' with
    | nil => exact ⟨rfl, h⟩
    | cons first rest =>
      obtain rfl : r = _ := h
      exact absurd hr (not_ends_yield_cons first rest _)
  | cons first rest ihf ihr =>
    cases d' with
    | nil =>
      obtain rfl : _ = r' := h
      exact absurd hr' (not_ends_yield_cons first rest _)
    | cons first' rest' =>
      simp only [yield, List.append_assoc] at h
      -- nothing continues a declaration
      obtain ⟨rfl, hrest⟩ := ihf first' h (fun _ _ => id) (fun _ _ => id)
      obtain ⟨rfl, rfl⟩ := ihr rest' hrest hr hr'
      exact ⟨rfl, rfl⟩
  | declare word name init semicolon ih =>
    cases d' with
    | declare word' name' init' semicolon' =>
      simp only [yield, List.cons_append, List.append_assoc, List.cons.injEq, Token.mk.injEq,
        and_true] at h
      obtain ⟨rfl, rfl, hinit⟩ := h
      obtain ⟨rfl, hsemi⟩ := ih init' hinit (ends_assignment_cons (by decide) _ _)
        (ends_assignment_cons (by decide) _ _)
      cases hsemi
      exact ⟨rfl, rfl⟩
    | print | block => simp [yield] at h
    | expression e =>
      simp only [yield, List.append_assoc, List.cons_append] at h
      exact absurd h.symm (yield_append_ne_cons e rfl _ _ _)
  | print word e semicolon ih =>
    cases d' with
    | print word' e' semicolon' =>
      simp only [yield, List.cons_append, List.append_assoc, List.cons.injEq, Token.mk.injEq,
        and_true] at h
      obtain ⟨rfl, he⟩ := h
      obtain ⟨rfl, hsemi⟩ := ih e' he (ends_assignment_cons (by decide) _ _)
        (ends_assignment_cons (by decide) _ _)
      cases hsemi
      exact ⟨rfl, rfl⟩
    | declare | block => simp [yield] at h
    | expression e' =>
      simp only [yield, List.append_assoc, List.cons_append] at h
      exact absurd h.symm (yield_append_ne_cons e' rfl _ _ _)
  | expression e semicolon ih =>
    -- the other statements begin with a token that begins no expression
    simp only [yield, List.append_assoc, List.cons_append] at h
    cases d' with
    | expression e' semicolon' =>
      simp only [yield, List.append_assoc, List.cons_append] at h
      obtain ⟨rfl, hsemi⟩ := ih e' h (ends_assignment_cons (by decide) _ _)
        (ends_assignment_cons (by decide) _ _)
      cases hsemi
      exact ⟨rfl, rfl⟩
    | declare | print | block => exact absurd h (yield_append_ne_cons e rfl _ _ _)
  | block opening body closing ih =>
    cases d' with
    | block opening' body' closing' =>
      simp only [yield, List.cons_append, List.append_assoc, List.cons.injEq, Token.mk.injEq,
        and_true] at h
      obtain ⟨rfl, hbody⟩ := h
      obtain ⟨rfl, hclosing⟩ := ih body' hbody (ends_cons.2 (· rfl)) (ends_cons.2 (· rfl))
      cases hclosing
      exact ⟨rfl, rfl⟩
    | declare | print => simp [yield] at h
    | expression e' =>
      simp only [yield, List.append_assoc, List.cons_append] at h
      exact absurd h.symm (yield_append_ne_cons e' rfl _ _ _)
  | absent =>
    cases d' with
    | absent => exact ⟨rfl, h⟩
    | present sign e =>
      obtain rfl : r = _ := h
      exact absurd hr (not_ends_yield_present sign e _)
  | present sign e ih =>
    cases d' with
    | absent =>
      obtain rfl : _ = r' := h
      exact absurd hr' (not_ends_yield_present sign e _)
    | present sign' e' =>
      simp only [yield, List.cons_append, List.cons.injEq, Token.mk.injEq, and_true] at h
      obtain ⟨rfl, he⟩ := h
      obtain ⟨rfl, rfl⟩ := ih e' he hr hr'
      exact ⟨rfl, rfl⟩
  | assign hg name sign value ih =>
    cases d' with
    | assign _ name' sign' value' =>
      simp only [yield, List.cons_append, List.cons.injEq, Token.mk.injEq, and_true] at h
      obtain ⟨rfl, rfl, hvalue⟩ := h
      obtain ⟨rfl, rfl⟩ := ih value' hvalue hr hr'
      exact ⟨rfl, rfl⟩
    | assignTo hg => cases hg
    | plain e => exact absurd hr' (not_ends_of_yield_eq_assign hg name sign value e h.symm)
    | binary hn => omega
  | assignTo hg => cases hg
  | plain e ih =>
    cases d' with
    | assign hg name sign value =>
      exact absurd hr (not_ends_of_yield_eq_assign hg name sign value e h)
    | assignTo hg => cases hg
    | plain e' =>
      obtain ⟨rfl, rfl⟩ := ih e' h (hr.mono (Nat.zero_le 1)) (hr'.mono (Nat.zero_le 1))
      exact ⟨rfl, rfl⟩
    | binary hn => omega
  | binary hn first rest ihf ihr =>
    cases d' with
    | binary _ first' rest' =>
      simp only [yield, List.append_assoc] at h
      -- the operations that follow bind too loosely to belong to the first operand
      obtain ⟨rfl, hrest⟩ := ihf first' h (ends_yield_operations rest hn.1 hr)
        (ends_yield_operations rest' hn.1 hr')
      obtain ⟨rfl, rfl⟩ := ihr rest' hrest hr hr'
      exact ⟨rfl, rfl⟩
    | _ => omega
  | done =>
    cases d' with
    | done => exact ⟨rfl, h⟩
    | apply op hop sign right rest =>
      obtain rfl : r = _ := h
      exact absurd hr (not_ends_yield_apply op hop sign right rest _)
  | apply op hop sign right rest ihr ihrest =>
    cases d' with
    | done =>
      obtain rfl : _ = r' := h
      exact absurd hr' (not_ends_yield_apply op hop sign right rest _)
    | apply op' hop' sign' right' rest' =>
      simp only [yield, List.cons_append, List.append_assoc, List.cons.injEq, Token.mk.injEq] at h
      obtain ⟨⟨rfl, hk⟩, hright⟩ := h
      obtain rfl := BinaryOp.kind_injective hk
      have hn := hop ▸ op.precedence_le.1
      obtain ⟨rfl, hrest⟩ := ihr right' hright (ends_yield_operations rest hn hr)
        (ends_yield_operations rest' hn hr')
      obtain ⟨rfl, rfl⟩ := ihrest rest' hrest hr hr'
      exact ⟨rfl, rfl⟩
  | unary op sign e ih =>
    cases d' with
    | unary op' sign' e' =>
      simp only [yield, List.cons_append, List.cons.injEq, Token.mk.injEq] at h
      obtain ⟨⟨rfl, hk⟩, he⟩ := h
      obtain rfl := UnaryOp.kind_injective hk
      obtain ⟨rfl, rfl⟩ := ih e' he hr hr'
      exact ⟨rfl, rfl⟩
    | atom e' => exact absurd h.symm (yield_primary_append_ne_cons e' op _ _ _)
    | binary hn => omega
  | atom e ih =>
    cases d' with
    | unary op' sign' e' => exact absurd h (yield_primary_append_ne_cons e op' _ _ _)
    | atom e' =>
      -- no operator continues a primary expression, whatever follows
      obtain ⟨rfl, rfl⟩ := ih e' h (ends_of_five_le (by decide) r) (ends_of_five_le (by decide) r')
      exact ⟨rfl, rfl⟩
    | binary hn => omega
  | literal l text =>
    cases d' with
    | literal l' text' =>
      simp only [yield, List.cons_append, List.nil_append, List.cons.injEq, Token.mk.injEq] at h
      obtain ⟨⟨rfl, hk⟩, rfl⟩ := h
      obtain rfl := Literal.kind_injective hk
      exact ⟨rfl, rfl⟩
    | reference | group =>
      have hk := congrArg Token.kind (List.cons.inj h).1
      exact nomatch Literal.ofKind?_eq_some_iff.2 hk
    | binary hn => omega
  | reference name =>
    cases d' with
    | literal =>
      have hk := congrArg Token.kind (List.cons.inj h).1
      exact nomatch Literal.ofKind?_eq_some_iff.2 hk.symm
    | reference name' =>
      simp only [yield, List.cons_append, List.nil_append, List.cons.injEq, Token.mk.injEq,
        and_true] at h
      obtain ⟨rfl, rfl⟩ := h
      exact ⟨rfl, rfl⟩
    | group => simp [yield] at h
    | binary hn => omega
  | group opening e closing ih =>
    cases d' with
    | literal =>
      have hk := congrArg Token.kind (List.cons.inj h).1
      exact nomatch Literal.ofKind?_eq_some_iff.2 hk.symm
    | reference => simp [yield] at h
    | group opening' e' closing' =>
      simp only [yield, List.cons_append, List.append_assoc, List.cons.injEq, Token.mk.injEq,
        and_true] at h
      obtain ⟨rfl, he⟩ := h
      obtain ⟨rfl, hclosing⟩ := ih e' he (ends_assignment_cons (by decide) _ _)
        (ends_assignment_cons (by decide) _ _)
      cases hclosing
      exact ⟨rfl, rfl⟩
    | binary hn => omega

/-- **The strict grammar is unambiguous.** -/
theorem eq_of_yield_eq {n : Nonterminal} (d d' : Derivation .strict n)
    (h : d.yield = d'.yield) : d = d' := by
  have hnil : d.yield ++ [] = d'.yield ++ [] := by rw [h]
  exact (eq_of_yield_append_eq d d' hnil nofun nofun).1

end Derivation

end Lox
