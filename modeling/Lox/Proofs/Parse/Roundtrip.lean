import Lox.Proofs.Grammar.Normal
import Lox.Proofs.Parse.Acceptance

/-!
# Lox — what the parser returns is well-formed

Whatever is wrong with a token sequence, the statements that the parser returns for it are those
of a program: written out as tokens and parsed again, they come back, and nothing is reported.

Between two errors the parser keeps its account of the tokens that it reads, and an error costs the
statement in which it is and none of those that are finished. So at any time, the finished
statements have derivations, from tokens that were read.

* **`ParseState.Coherent`** — the account of a state, as far as errors have left any.
* **`ParseState.Coherent.step`**, **`ParseState.Coherent.run`** — reading keeps it, errors or not.
* **`exists_derives_sublist`** — statements that were parsed are derived from some of the tokens.
* **`parse_tokensOfAll_statements`** — statements that were parsed are parsed again.
-/

namespace Lox

open Nonterminal

namespace ParseState

/-- Whether the finished statements have derivations from some of the tokens `ts`, in their order,
and what was read of the next one begins one, unless the parser is looking for it. -/
def Coherent (st : ParseState) (ts : List Token) : Prop :=
  (∃ v, Viable st v ∧ v.Sublist ts)
    ∨ st.mode = .skipping ∧ ∃ u, Nested st.enclosing st.statements u ∧ u.Sublist ts

namespace Coherent

variable {st : ParseState} {ts u : List Token}

theorem nested (h : st.Coherent ts) :
    ∃ u, Nested st.enclosing st.statements u ∧ u.Sublist ts := by
  rcases h with ⟨_, ⟨u, w, hn, -, rfl⟩, hsub⟩ | ⟨-, hn⟩
  · exact ⟨u, hn, (List.sublist_append_left u w).trans hsub⟩
  · exact hn

theorem discard (hn : Nested st.enclosing st.statements u) (hsub : u.Sublist ts) (t : Token) :
    (st.discard t).Coherent ts := by
  unfold ParseState.discard
  split
  · exact .inl ⟨u, ⟨u, [], hn, .start, List.append_nil u⟩, hsub⟩
  · exact .inr ⟨rfl, u, hn, hsub⟩

/-- A closing brace ends the innermost block with the statements that were finished in it. -/
theorem recover (st : ParseState) (hn : Nested st.enclosing st.statements u) (hsub : u.Sublist ts)
    (t : Token) : (st.recover t).Coherent (ts ++ [t]) := by
  have hlater : u.Sublist (ts ++ [t]) := hsub.trans (List.sublist_append_left ts [t])
  unfold ParseState.recover
  split
  · next hk =>
    obtain ⟨x, k⟩ := t
    subst hk
    obtain ⟨mode, ss, enc, errs⟩ := st
    cases enc with
    | nil => exact discard hn hlater _
    | cons before outer =>
      exact .inl ⟨_, ⟨_, [], hn.close x, .start, List.append_nil _⟩, hsub.append_right _⟩
  · exact discard hn hlater t

theorem rejects {st' : ParseState} {t : Token} (hreject : st.Rejects t st')
    (hn : Nested st.enclosing st.statements u) (hsub : u.Sublist ts) :
    st'.Coherent (ts ++ [t]) := by
  cases hreject with
  | intro before _ cause _ =>
    exact recover { st with errors := ⟨cause, t.toLexeme⟩ :: (before ++ st.errors) } hn hsub t

/-- **Reading a token keeps the account.** -/
theorem step (h : st.Coherent ts) (t : Token) : (st.step t).Coherent (ts ++ [t]) := by
  rcases h with ⟨v, hv, hsub⟩ | ⟨hskip, u, hn, hsub⟩
  · obtain ⟨u, hn, hu⟩ := nested (.inl ⟨v, hv, hsub⟩)
    rcases hv.step_cases t with hnext | hreject
    · exact .inl ⟨_, hnext, hsub.append_right [t]⟩
    · exact rejects hreject hn hu
  · simp only [ParseState.step, hskip, skip]
    split
    · rcases Viable.begin hn t with hnext | hreject
      · exact .inl ⟨_, hnext, hsub.append_right [t]⟩
      · exact rejects hreject hn hsub
    · exact recover st hn hsub t

theorem run (h : st.Coherent ts) (us : List Token) : (st.run us).Coherent (ts ++ us) := by
  induction us generalizing st ts with
  | nil => exact (List.append_nil ts).symm ▸ h
  | cons t us ih =>
    have hrest := ih (h.step t)
    rwa [List.append_assoc, List.singleton_append] at hrest

theorem initial : Coherent .initial [] := .inl ⟨[], Viable.initial, .refl []⟩

end Coherent

end ParseState

/-- The statements before the outermost open block have a derivation. -/
theorem Nested.derives_outermost {enc : List (List Stmt)} {ss : List Stmt} {u : List Token}
    (h : Nested enc ss u) :
    ∃ v, v.Sublist u ∧ Derives .relaxed declarations v (enc.getLast?.getD ss).reverse := by
  induction h with
  | program h => exact ⟨_, .refl _, h⟩
  | block h opening hb ih =>
    obtain ⟨v, hsub, hv⟩ := ih
    rw [List.getLast?_cons]
    exact ⟨v, hsub.trans (List.sublist_append_left _ _), hv⟩

/-- What the parser returns is the tree of a derivation from some of the tokens that it read. -/
theorem exists_derives_sublist (tokens : List Token) :
    ∃ v, v.Sublist (sentence tokens) ∧ Derives .relaxed declarations v (parse tokens).statements := by
  obtain ⟨u, hn, hu⟩ := (ParseState.Coherent.initial.run (sentence tokens)).nested
  obtain ⟨v, hv, hd⟩ := hn.derives_outermost
  exact ⟨v, hv.trans hu, hd⟩

theorem derives_statements_parse (tokens : List Token) :
    ∃ v, Derives .relaxed declarations v (parse tokens).statements :=
  (exists_derives_sublist tokens).imp fun _ h => h.2

/-- **What the parser returns is well-formed.** The statements that are returned for a token
sequence, whatever is wrong with it, are the tree of a strict derivation from the tokens that write
them, and these are parsed to the same statements without an error. -/
theorem parse_tokensOfAll_statements (tokens : List Token) :
    Derives .strict declarations (Stmt.tokensOfAll (parse tokens).statements)
      (parse tokens).statements
    ∧ parse (Stmt.tokensOfAll (parse tokens).statements) = ⟨(parse tokens).statements, []⟩ := by
  obtain ⟨v, d, -, htree⟩ := derives_statements_parse tokens
  have hnormal : Derives .strict declarations (Stmt.tokensOfAll (parse tokens).statements)
      (parse tokens).statements := htree ▸ d.normal
  refine ⟨hnormal, ?_⟩
  obtain ⟨d', hyield, htree'⟩ := hnormal
  -- no token of a program is an end token, so the whole sequence counts
  have hsentence : sentence (Stmt.tokensOfAll (parse tokens).statements)
      = Stmt.tokensOfAll (parse tokens).statements :=
    sentence_eq_self (hyield ▸ d'.balanced.isEof_eq_false)
  rw [parse_of_strict d' (hyield.trans hsentence.symm), htree']

end Lox
