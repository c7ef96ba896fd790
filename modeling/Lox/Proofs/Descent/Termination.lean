import Lox.Proofs.Descent.Statement

/-!
# Lox — recursive descent comes to an end

Parsing by recursive descent ends for every token sequence, and its result is that of the parser
that reads token by token. A call for a statement passes over at least one token, leaves as many
blocks open as it found, and stops at the first end token at the latest. It does not even look at
the tokens after that: without them it comes to the same.

* **`Descent.AtStatement`** — the states in which the loops call for a statement.
* **`Descent.Advances`** — what such a call does to the state.
* **`descent_terminates_in_bounds`** — the statement for all states and token sequences.
-/

namespace Lox

/-! ## The first end token -/

section

variable {ts : List Token} {eof : Token}

/-- Tokens after an end token do not matter. -/
theorem ParseState.result_append_eof (st : ParseState) (h : eof.isEof = true) (rest : List Token) :
    st.result (ts ++ eof :: rest) = st.result (ts ++ [eof]) := by
  rw [result, result, sentence_append_eof h, sentence_append_eof h, endToken_append_eof h,
    endToken_append_eof h]

/-- The end token that is supplied where there is none. -/
theorem parse_append_eof (ts : List Token) :
    parse (ts ++ [Token.eof ((ts.getLast?.map (·.line)).getD 1)]) = parse ts := by
  rw [parse, parse, ← sentence, ← sentence, sentence_append_eof rfl, endToken_append_eof rfl]
  unfold endToken
  cases ts.find? Token.isEof <;> rfl

theorem terminated_append (hts : ∀ t ∈ ts, t.isEof = false) (h : eof.isEof = true) :
    Terminated (ts ++ [eof]) := by
  induction ts with
  | nil => exact .eof (by simpa [Token.isEof] using h)
  | cons t ts ih =>
    obtain ⟨ht, hts⟩ := List.forall_mem_cons.1 hts
    exact .cons (by simpa [Token.isEof] using ht) (ih hts)

end

namespace Descent

/-! ## States -/

variable (p q : Descent)

/-- The index of the first end token. -/
def eofIndex : Nat := p.tokens.findIdx Token.isEof

/-- The tokens from the position up to the first end token. -/
def ahead : List Token := (p.tokens.take (p.eofIndex + 1)).drop p.current

/-- The state without the tokens after the first end token. A call that ends in it never was behind
the end token, where it could not have read a token. -/
def cut : Descent := { p with tokens := p.tokens.take (p.eofIndex + 1) }

/-- Whether the position is not behind the first end token, and there is one. -/
structure InBounds : Prop where
  current_le : p.current ≤ p.eofIndex
  eofIndex_lt : p.eofIndex < p.tokens.length

/-- Whether a loop over statements goes on: the next token is not the end token, and inside a block
it is not a closing brace. -/
def GoesOn : Prop := ∃ t, p.tokens[p.current]? = some t ∧ Admits p.blockDepth t.kind

/-- Whether a loop may call for a statement. -/
structure AtStatement : Prop extends InBounds p where
  goesOn : p.GoesOn

/-- Whether `q` is further on in the same tokens than `p`, but not behind the first end token, and
with as many blocks open. -/
structure Advances : Prop where
  tokens : q.tokens = p.tokens
  blockDepth : q.blockDepth = p.blockDepth
  lt : p.current < q.current
  le : q.current ≤ p.eofIndex

variable {p q}

theorem isEof_of_getElem?_eofIndex {t : Token} (h : p.tokens[p.eofIndex]? = some t) :
    t.isEof = true := by
  obtain ⟨hlt, rfl⟩ := List.getElem?_eq_some_iff.1 h
  exact List.findIdx_getElem

namespace InBounds

/-- What is ahead ends with the first end token. -/
theorem terminated_ahead (h : p.InBounds) : Terminated p.ahead := by
  obtain ⟨hle, hlt⟩ := h
  have hbefore : ∀ t ∈ p.tokens.take p.eofIndex, t.isEof = false := by
    intro t ht
    obtain ⟨i, hi, rfl⟩ := List.mem_take_iff_getElem.1 ht
    have hi' : i < p.eofIndex := by omega
    simpa using List.not_of_lt_findIdx hi'
  have heof : p.tokens[p.eofIndex].isEof = true := List.findIdx_getElem
  rw [ahead, ← List.take_append_getElem hlt, List.drop_append_of_le_length (by simp; omega)]
  exact terminated_append (fun t ht => hbefore t (List.mem_of_mem_drop ht)) heof

theorem length_ahead (h : p.InBounds) : p.ahead.length + p.current = p.eofIndex + 1 := by
  obtain ⟨hle, hlt⟩ := h
  simp only [ahead, List.length_drop, List.length_take]
  omega

/-- The tokens before the position, and then those up to the first end token. -/
theorem take_append_ahead (h : p.InBounds) :
    p.tokens.take p.current ++ p.ahead = p.tokens.take (p.eofIndex + 1) := by
  have hle : p.current ≤ p.eofIndex + 1 := Nat.le_succ_of_le h.current_le
  rw [ahead, ← Nat.min_eq_left hle, ← List.take_take, Nat.min_eq_left hle, List.take_append_drop]

end InBounds

/-- What a call does to a state if it takes the tokens that are ahead. -/
theorem Takes.exists_run {α : Type} {call : Nat → Call α} {rest : List Token} {a : α}
    {new : List SyntaxError} (hp : p.InBounds) (h : Takes call p.blockDepth p.ahead rest a new) :
    ∃ q, EndsWith call p a q ∧ EndsWith call p.cut a q.cut ∧ q.tokens = p.tokens
      ∧ q.blockDepth = p.blockDepth ∧ q.errors = p.errors ++ new
      ∧ q.current + rest.length = p.eofIndex + 1 := by
  obtain ⟨v, hv, hcall⟩ := h
  have hcurrent : (p.tokens.take p.current).length = p.current := by
    have hle := hp.current_le
    have hlt := hp.eofIndex_lt
    rw [List.length_take]
    omega
  have htokens :
      p.tokens.take p.current ++ (p.ahead ++ p.tokens.drop (p.eofIndex + 1)) = p.tokens := by
    rw [← List.append_assoc, hp.take_append_ahead, List.take_append_drop]
  have hcut : p.tokens.take p.current ++ (p.ahead ++ []) = p.tokens.take (p.eofIndex + 1) := by
    rw [List.append_nil, hp.take_append_ahead]
  have hrun := hcall (p.tokens.take p.current) (p.tokens.drop (p.eofIndex + 1)) p.errors
  have hrun' := hcall (p.tokens.take p.current) [] p.errors
  rw [hcurrent, htokens] at hrun
  rw [hcurrent, hcut] at hrun'
  refine ⟨_, hrun, hrun', rfl, rfl, rfl, ?_⟩
  have hlength := hp.length_ahead
  rw [← hv, List.length_append] at hlength
  show p.current + v.length + rest.length = _
  omega

/-- **A call for a statement ends** in every state in which a loop makes it. -/
theorem AtStatement.exists_declaration (h : p.AtStatement) :
    ∃ s? q, EndsWith declaration p s? q ∧ p.Advances q ∧ EndsWith declaration p.cut s? q.cut := by
  have hterminated := h.terminated_ahead
  have hlength := h.length_ahead
  obtain ⟨t, ht, hadmits⟩ := h.goesOn
  obtain ⟨rest, hahead⟩ : ∃ rest, p.ahead = t :: rest := by
    have hhead : p.ahead.head? = some t := by
      simpa [ahead, Nat.lt_succ_of_le h.current_le] using ht
    exact List.head?_eq_some_iff.1 hhead
  rw [hahead] at hterminated
  obtain ⟨s?, left, new, hleft, hlt, htakes, -⟩ :=
    declares (rest.length + 1) p.blockDepth t rest hterminated (Nat.lt_succ_self _) hadmits
  rw [← hahead] at htakes hlt
  obtain ⟨q, hrun, hcut, htokens, hdepth, -, hcurrent⟩ := htakes.exists_run h.toInBounds
  have hpos : 0 < left.length := List.length_pos_iff.2 hleft.ne_nil
  exact ⟨s?, q, hrun, ⟨htokens, hdepth, by omega, by omega⟩, hcut⟩

/-! ## Calls -/

/-- The state in the block that the next token opens. -/
def inBlock (p : Descent) : Descent :=
  { p with current := p.current + 1, blockDepth := p.blockDepth + 1 }

/-- The states in which a call for a statement is made when `ts` is parsed. -/
inductive Calls (ts : List Token) : Descent → Prop
  /-- The first call in the loop over the statements of the program. -/
  | program (h : (ofTokens ts).GoesOn) : Calls ts (ofTokens ts)
  /-- The next call in the same loop. -/
  | next {p q : Descent} {s? : Option Stmt} (hp : Calls ts p) (hcall : EndsWith declaration p s? q)
      (h : q.GoesOn) : Calls ts q
  /-- The first call in the loop over the statements of a block. -/
  | block {p : Descent} {t : Token} (hp : Calls ts p) (ht : p.tokens[p.current]? = some t)
      (hk : t.kind = .leftBrace) (h : p.inBlock.GoesOn) : Calls ts p.inBlock

/-- In the state in front of the first token there is an end token. -/
theorem inBounds_ofTokens (ts : List Token) : (ofTokens ts).InBounds := by
  refine ⟨Nat.zero_le _, List.findIdx_lt_length_of_exists ?_⟩
  simp only [ofTokens]
  split
  · next hlast =>
    cases ht : ts.getLast? with
    | none => simp [ht] at hlast
    | some t => exact ⟨t, List.mem_of_getLast? ht, by simpa [ht] using hlast⟩
  · exact ⟨_, List.mem_append_right ts (List.mem_singleton_self _), rfl⟩

/-- No call is made behind the first end token. -/
theorem Calls.atStatement {ts : List Token} (h : Calls ts p) :
    p.AtStatement ∧ p.tokens = (ofTokens ts).tokens := by
  induction h with
  | program h => exact ⟨⟨inBounds_ofTokens ts, h⟩, rfl⟩
  | @next p q s? hp hcall h ih =>
    obtain ⟨hat, htokens⟩ := ih
    obtain ⟨s?', q', hcall', hq, -⟩ := hat.exists_declaration
    obtain ⟨-, rfl⟩ := hcall.unique hcall'
    have hindex : q.eofIndex = p.eofIndex := by rw [eofIndex, hq.tokens, eofIndex]
    refine ⟨⟨⟨hindex ▸ hq.le, ?_⟩, h⟩, hq.tokens.trans htokens⟩
    rw [hindex, hq.tokens]
    exact hat.eofIndex_lt
  | @block p t hp ht hk h ih =>
    obtain ⟨hat, htokens⟩ := ih
    -- the opening brace is not the end token, so the token after it is not behind that
    have hne : p.current ≠ p.eofIndex := by
      intro heq
      have heof := isEof_of_getElem?_eofIndex (heq ▸ ht)
      simp [Token.isEof, hk] at heof
    exact ⟨⟨⟨Nat.lt_of_le_of_ne hat.current_le hne, hat.eofIndex_lt⟩, h⟩, htokens⟩

/-! ## Programs -/

theorem parse_tokens_ofTokens (ts : List Token) : parse (ofTokens ts).tokens = parse ts := by
  simp only [ofTokens]
  split
  · rfl
  · exact parse_append_eof ts

theorem InBounds.result_ahead (h : p.InBounds) (hcurrent : p.current = 0) (st : ParseState) :
    st.result p.ahead = st.result p.tokens := by
  have hlt := h.eofIndex_lt
  have heof : p.tokens[p.eofIndex].isEof = true := List.findIdx_getElem
  have hsplit : p.tokens.take p.eofIndex ++ p.tokens[p.eofIndex] :: p.tokens.drop (p.eofIndex + 1)
      = p.tokens := by simp
  have hahead : p.ahead = p.tokens.take p.eofIndex ++ [p.tokens[p.eofIndex]] := by
    rw [ahead, hcurrent, List.drop_zero, List.take_append_getElem]
  rw [hahead, ← st.result_append_eof heof (p.tokens.drop (p.eofIndex + 1)), hsplit]

/-- **The loop over the statements of a program ends** at the first end token, with what the parser
reads. -/
theorem exists_program (ts : List Token) :
    ∃ ss q, EndsWith program (ofTokens ts) ss q ∧ EndsWith program (ofTokens ts).cut ss q.cut
      ∧ q.current = (ofTokens ts).eofIndex ∧ (⟨ss, q.errors⟩ : Parsed) = parse ts := by
  have hbounds := inBounds_ofTokens ts
  have hends (kind : Token.Kind) (hkind : decide (kind = .eof) = false) :
      Admits (ofTokens ts).blockDepth kind :=
    ⟨of_decide_eq_false hkind, fun hdepth => absurd hdepth (Nat.lt_irrefl 0)⟩
  obtain ⟨ss, t, rest, new, hkind, hrest, htakes, hresult⟩ :=
    exists_takes_declarations (declares _) _ hends _ [] hbounds.terminated_ahead (Nat.le_refl _)
  obtain rfl := hrest.eq_nil_of_eof (of_decide_eq_true hkind)
  obtain ⟨q, hrun, hcut, -, -, herrors, hcurrent⟩ := htakes.exists_run hbounds
  refine ⟨ss, q, hrun, hcut, Nat.succ.inj hcurrent, ?_⟩
  have hparse := hresult [] [] [] rfl
  rw [hbounds.result_ahead rfl] at hparse
  rw [← parse_tokens_ofTokens, ParseState.parse_eq_result, ParseState.initial, hparse,
    ParseState.result_eof _ (of_decide_eq_true hkind), herrors]
  simp [ParseState.finish, ParseState.outermost, ParseState.interrupt, ofTokens]

end Descent

open Descent in
/-- **Recursive descent comes to an end and stays in bounds.** Its result is that of the parser. All
its calls for a statement are made in front of the first end token, with an error or without they
pass over at least one token and not over that one, and they leave as many blocks open as before.
They come to the same if there are no tokens after the end token, so they never are behind it. In
the end all tokens before the end token were passed over, and no other tokens matter. -/
theorem descent_terminates_in_bounds :
    (∀ p : Descent, p.AtStatement →
      ∃ s? q, EndsWith declaration p s? q ∧ p.Advances q ∧ EndsWith declaration p.cut s? q.cut)
    ∧ ∀ ts : List Token,
      (∃ least, ∀ bound ≥ least, descend bound ts = some (parse ts))
      ∧ (∀ p, Calls ts p → p.AtStatement ∧ p.tokens = (ofTokens ts).tokens)
      ∧ (∃ ss q, EndsWith program (ofTokens ts) ss q ∧ EndsWith program (ofTokens ts).cut ss q.cut
        ∧ q.current = (ofTokens ts).eofIndex)
      ∧ ∀ (eof : Token) (rest : List Token), eof.isEof = true →
        parse (ts ++ eof :: rest) = parse (ts ++ [eof]) := by
  refine ⟨fun p hp => hp.exists_declaration, fun ts => ?_⟩
  obtain ⟨ss, q, hrun, hcut, hcurrent, hparse⟩ := exists_program ts
  refine ⟨?_, fun p hp => hp.atStatement, ⟨ss, q, hrun, hcut, hcurrent⟩, fun eof rest heof =>
    ParseState.initial.result_append_eof heof rest⟩
  obtain ⟨least, hleast⟩ := hrun
  refine ⟨least, fun bound hbound => ?_⟩
  rw [descend, hleast bound hbound, ← hparse]
  rfl

/-- The tokens of `{ ) }`, and a semicolon after the end token. -/
def strayParen : List Token :=
  [⟨⟨"\x7b", 1⟩, .leftBrace⟩, ⟨⟨")", 1⟩, .rightParen⟩, ⟨⟨"\x7d", 1⟩, .rightBrace⟩, Token.eof 1,
    ⟨⟨";", 1⟩, .semicolon⟩]

open Descent in
theorem descent_terminates_in_bounds_strayParen :
    Calls strayParen (ofTokens strayParen).inBlock
    ∧ (∃ s? q, EndsWith declaration (ofTokens strayParen).inBlock s? q
      ∧ (ofTokens strayParen).inBlock.Advances q
      ∧ EndsWith declaration (ofTokens strayParen).inBlock.cut s? q.cut)
    ∧ (Token.eof 1).isEof = true
    ∧ parse (strayParen ++ Token.eof 1 :: strayParen) = parse (strayParen ++ [Token.eof 1]) := by
  have hprogram : (ofTokens strayParen).GoesOn := ⟨_, rfl, nofun, nofun⟩
  have hblock : (ofTokens strayParen).inBlock.GoesOn := ⟨_, rfl, nofun, fun _ => nofun⟩
  have hcalls : Calls strayParen (ofTokens strayParen).inBlock :=
    .block (.program hprogram) rfl rfl hblock
  obtain ⟨-, hin, -, hafter⟩ := descent_terminates_in_bounds.2 strayParen
  exact ⟨hcalls, descent_terminates_in_bounds.1 _ (hin _ hcalls).1, rfl, hafter _ strayParen rfl⟩

end Lox
