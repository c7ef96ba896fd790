import Lox.Proofs.Relabel.Parse

/-!
# Lox — numbered tokens

In place of its line, each token gets its place in the sequence. The parser does not look at lines,
so it does with the numbered tokens what it does with the tokens themselves, and its result then
says which of the tokens a name, an operator or an error comes from.

* **`numbered`** — the tokens with their places.
* **`parse_numbered`** — the parse of numbered tokens.
-/

namespace Lox

/-- The tokens with their places in the sequence instead of their lines. -/
def numbered (ts : List Token) : List Token :=
  ts.zipIdx.map fun (t, i) => ⟨⟨t.text, i⟩, t.kind⟩

/-- The lexeme at a place of the sequence, from one that has this place instead of a line. -/
def Lexeme.relined (ts : List Token) (x : Lexeme) : Lexeme :=
  ⟨x.text, (ts[x.line]?.map (·.line)).getD 0⟩

theorem getElem?_numbered (ts : List Token) (i : Nat) :
    (numbered ts)[i]? = ts[i]?.map fun t => ⟨⟨t.text, i⟩, t.kind⟩ := by
  rw [numbered, List.getElem?_map, List.getElem?_zipIdx, Option.map_map, Nat.zero_add]
  rfl

theorem map_relabel_numbered (ts : List Token) :
    (numbered ts).map (Token.relabel (Lexeme.relined ts)) = ts := by
  refine List.ext_getElem? fun i => ?_
  rw [List.getElem?_map, getElem?_numbered]
  cases h : ts[i]? with
  | none => rfl
  | some t => simp [Token.relabel, Lexeme.relined, h]

theorem numbered_concat (ts : List Token) (t : Token) :
    numbered (ts ++ [t]) = numbered ts ++ [⟨⟨t.text, ts.length⟩, t.kind⟩] := by
  simp [numbered, List.zipIdx_append]

theorem map_line_numbered (ts : List Token) :
    (numbered ts).map (·.line) = List.range ts.length := by
  rw [numbered, List.map_map, List.range_eq_range']
  exact List.zipIdx_map_snd 0 ts

variable {ts : List Token}

/-- A numbered token is the token at its place. -/
theorem getElem?_line_of_mem_numbered {t : Token} (h : t ∈ numbered ts) :
    ∃ u, ts[t.line]? = some u ∧ u.kind = t.kind ∧ t.toLexeme.relined ts = u.toLexeme := by
  obtain ⟨i, hi⟩ := List.mem_iff_getElem?.1 h
  rw [getElem?_numbered] at hi
  obtain ⟨u, hu, rfl⟩ := Option.map_eq_some_iff.1 hi
  exact ⟨u, hu, rfl, by simp [Lexeme.relined, hu]⟩

theorem isEof_of_mem_numbered (h : ∀ t ∈ ts, t.isEof = false) :
    ∀ t ∈ numbered ts, t.isEof = false := by
  intro t ht
  obtain ⟨u, hu, hkind, -⟩ := getElem?_line_of_mem_numbered ht
  have hnot := h u (List.mem_of_getElem? hu)
  rwa [Token.isEof, hkind] at hnot

theorem exists_isEof_numbered (h : ∃ t ∈ ts, t.isEof = true) :
    ∃ t ∈ numbered ts, t.isEof = true := by
  obtain ⟨t, ht, heof⟩ := h
  rw [← map_relabel_numbered ts] at ht
  obtain ⟨n, hn, rfl⟩ := List.mem_map.1 ht
  exact ⟨n, hn, heof⟩

/-- **The parse of a token sequence is that of its numbered tokens**, with the lines put back in. -/
theorem parse_numbered (h : ∃ t ∈ ts, t.isEof = true) :
    parse ts = (parse (numbered ts)).relabel (Lexeme.relined ts) := by
  rw [← parse_relabel _ (exists_isEof_numbered h), map_relabel_numbered]

end Lox
