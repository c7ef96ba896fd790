import Lox.Proofs.Scan.Longest

/-!
# Lox — where a token ends

How far a token goes can depend on what follows it: `<` goes on with `=`, a name with letters and
digits, and `1` with a point and a digit. No token goes on with a blank or a semicolon, for example,
so in front of these every token is read as it is, in whatever text it was found.

* **`Segment.Apart`** — the texts that no token goes on with.
* **`Segment.Form.next_eq_of_apart`** — in front of them, a token is the first segment.
-/

namespace Lox

/-- Whether no token goes on with the character. -/
def isBoundary (c : Char) : Bool := !isWordPart c && c != '.' && c != '=' && c != '/' && c != '*'

theorem isBoundary_of_isBlank {c : Char} (h : isBlank c = true) : isBoundary c = true := by
  have hall : [' ', '\r', '\t', '\n'].all isBoundary = true := by decide
  exact List.all_eq_true.1 hall c (Segment.isBlank_eq_true_iff.1 h)

namespace Segment

/-- Whether no token goes on with the text. -/
def Apart (rest : List Char) : Prop := ∀ c ∈ rest.head?, isBoundary c = true

theorem apart_nil : Apart [] := nofun

theorem apart_cons {c : Char} (hc : isBoundary c = true) (cs : List Char) : Apart (c :: cs) := by
  rintro d ⟨⟩
  exact hc

section

variable {rest : List Char} (h : Apart rest)

include h

/-- A run of characters that no boundary is among ends in front of the text. -/
theorem Apart.head?_eq_false {p : Char → Bool} (hp : ∀ c, p c = true → isBoundary c = false) :
    ∀ c ∈ rest.head?, p c = false := by
  intro c hc
  have hboundary := h c hc
  rw [← Bool.not_eq_true]
  intro hpc
  rw [hp c hpc] at hboundary
  cases hboundary

theorem Apart.isWordPart : ∀ c ∈ rest.head?, isWordPart c = false :=
  h.head?_eq_false fun c hc => by simp [isBoundary, hc]

theorem Apart.isDigit : ∀ c ∈ rest.head?, c.isDigit = false :=
  h.head?_eq_false fun c hc => by simp [isBoundary, Lox.isWordPart, Char.isAlphanum, hc]

/-- The text starts with none of the characters that make a longer token of a mark or a number. -/
theorem Apart.ne_cons {c : Char} (hc : isBoundary c = false) (cs : List Char) : rest ≠ c :: cs := by
  rintro rfl
  have hboundary := h c rfl
  rw [hc] at hboundary
  cases hboundary

end

/-! ## Runs of characters -/

/-- A run that is followed by nothing or by another character is the longest one. -/
theorem takeWhile_eq_of_head? {p : Char → Bool} {body rest : List Char}
    (h : ∀ d ∈ body, p d = true) (hrest : ∀ d ∈ rest.head?, p d = false) :
    (body ++ rest).takeWhile p = body ∧ (body ++ rest).dropWhile p = rest := by
  cases rest with
  | nil =>
    rw [List.takeWhile_append_of_pos h, List.dropWhile_append_of_pos h]
    exact ⟨List.append_nil body, rfl⟩
  | cons d rest => exact takeWhile_eq_of_cons h (hrest d rfl) rest

variable {rest : List Char} (hrest : Apart rest)

include hrest

theorem slash_of_apart : slash rest = (⟨.token .slash, ['/']⟩, rest) := by
  unfold slash
  split
  · exact absurd rfl (hrest.ne_cons (by decide) _)
  · exact absurd rfl (hrest.ne_cons (by decide) _)
  · rfl

theorem number_of_whole {whole : List Char} (h : ∀ d ∈ whole, d.isDigit = true) :
    number (whole ++ rest) = (⟨numberContent whole [], whole⟩, rest) := by
  obtain ⟨htake, hdrop⟩ := takeWhile_eq_of_head? h hrest.isDigit
  rw [number, htake, hdrop]
  split
  · exact absurd rfl (hrest.ne_cons (by decide) _)
  · rfl

theorem number_of_fraction {whole fraction : List Char} (h : ∀ d ∈ whole, d.isDigit = true)
    (hne : fraction ≠ []) (h' : ∀ d ∈ fraction, d.isDigit = true) :
    number (whole ++ '.' :: (fraction ++ rest))
      = (⟨numberContent whole fraction, whole ++ '.' :: fraction⟩, rest) := by
  obtain ⟨htake, hdrop⟩ := takeWhile_eq_of_cons h (d := '.') (by decide) (fraction ++ rest)
  obtain ⟨d, ds, rfl⟩ := List.exists_cons_of_ne_nil hne
  obtain ⟨hd, hds⟩ := List.forall_mem_cons.1 h'
  obtain ⟨htake', hdrop'⟩ := takeWhile_eq_of_head? hds hrest.isDigit
  rw [number, htake, hdrop, List.cons_append]
  simp only [if_pos hd, htake', hdrop']

theorem word_of_apart {text : List Char} (h : ∀ d ∈ text, Lox.isWordPart d = true) :
    word (text ++ rest) = (⟨.token (Token.wordKind (String.ofList text)), text⟩, rest) := by
  obtain ⟨htake, hdrop⟩ := takeWhile_eq_of_head? h hrest.isWordPart
  rw [word, htake, hdrop]

/-! ## Tokens -/

/-- **In front of a boundary, a token is the first segment**, whatever followed it where it was
found. -/
theorem Form.next_eq_of_apart {content : Content} {text after : List Char}
    (h : Form content text after) {kind : Token.Kind} (hkind : content = .token kind) {c : Char}
    {cs : List Char} (htext : text ++ rest = c :: cs) :
    next c cs = (⟨content, text⟩, rest) := by
  cases h with
  | blank | lineComment | blockComment | openComment | openString | unexpected => cases hkind
  | slash =>
    cases htext
    exact slash_of_apart hrest
  | single h =>
    cases htext
    exact next_of_single rest h
  | @alone c alone extended h =>
    cases htext
    show next c rest = _
    rw [next_of_extendable rest h]
    split
    · exact absurd rfl (hrest.ne_cons (by decide) _)
    · rfl
  | @extended c alone extended h =>
    cases htext
    exact next_of_extendable ('=' :: rest) h
  | keyword h =>
    obtain ⟨hstart, hpart, hword⟩ := keyword_spec h
    rw [String.toList_ofList] at hstart hpart
    have hne : text ≠ [] := by
      rintro rfl
      cases hstart
    rw [head?_eq_of_append_eq hne htext] at hstart
    rw [next_of_isWordStart cs hstart, ← htext, word_of_apart hrest (List.all_eq_true.1 hpart),
      hword]
  | name hc hcs h =>
    obtain ⟨rfl, -⟩ := List.cons.inj htext
    rw [next_of_isWordStart cs hc, ← htext,
      word_of_apart hrest (List.forall_mem_cons.2 ⟨isWordPart_of_isWordStart hc, hcs⟩),
      wordKind_of_not_mem h]
  | whole hne h =>
    have hc := h c (List.mem_of_head? (head?_eq_of_append_eq hne htext))
    rw [next_of_isDigit cs hc, ← htext, number_of_whole hrest h]
  | fraction hne h hne' h' =>
    rw [List.append_assoc] at htext
    have hc := h c (List.mem_of_head? (head?_eq_of_append_eq hne htext))
    rw [next_of_isDigit cs hc, ← htext]
    exact number_of_fraction hrest h hne' h'
  | string h =>
    obtain ⟨rfl, hcs⟩ := List.cons.inj htext
    rw [List.append_eq, List.append_assoc] at hcs
    rw [next_quote, ← hcs]
    exact string_of_closed h rest

/-- So the text of a token is cut off as a segment there. -/
theorem Form.segments_append {kind : Token.Kind} {text after : List Char}
    (h : Form (.token kind) text after) :
    segments (text ++ rest) = ⟨.token kind, text⟩ :: segments rest := by
  obtain ⟨c, cs, hcs⟩ := List.exists_cons_of_ne_nil
    (List.append_ne_nil_of_left_ne_nil h.text_ne_nil rest)
  rw [hcs, segments_cons, h.next_eq_of_apart hrest rfl hcs]

end Segment

end Lox
