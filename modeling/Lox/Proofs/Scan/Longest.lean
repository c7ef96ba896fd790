import Lox.Proofs.Scan.Comment
import Lox.Proofs.Scan.Joint

/-!
# Lox — segments are the longest possible

The lexical grammar says which texts are segments of which content. A text can have several of
them at its start: `<=` starts with `<`, a name with its first letters, and `1.5` with `1`. The
scanner takes the longest one. There is always one, and no other is as long, so a source text has
exactly one segmentation in which each segment is the longest at its place.

* **`Segment.Form`** — the lexical grammar.
* **`Segment.form_next`**, **`Segment.Form.lt_or_next_eq`** — the first segment has a form, and any other
  form at the start of the text is shorter.
* **`Segmentation`** — a text as a sequence of longest segments.
* **`segmentation_iff`** — the only one is the one of the scanner.
* **`scan_segmentation`** — the items of a source text, from its segmentation.
-/

namespace Lox

namespace Segment

/-! ## The lexical grammar -/

/-- Whether a text is a segment of the given content in front of the text `rest`. Strings and
comments without an end go on to the end of the text. -/
inductive Form : Content → List Char → List Char → Prop where
  | blank {c : Char} (h : c ∈ [' ', '\r', '\t', '\n']) (rest : List Char) : Form .blank [c] rest
  | lineComment {body : List Char} (h : '\n' ∉ body) (rest : List Char) :
      Form .lineComment ('/' :: '/' :: body) rest
  | blockComment {tail : List Char} (h : CommentTail tail) (rest : List Char) :
      Form .blockComment ('/' :: '*' :: tail) rest
  | openComment {body : List Char} (h : ∀ tail, CommentTail tail → ¬ tail <+: body) :
      Form (.fault .unterminatedComment) ('/' :: '*' :: body) []
  | slash (rest : List Char) : Form (.token .slash) ['/'] rest
  | single {c : Char} {kind : Token.Kind} (h : Token.singleKind? c = some kind)
      (rest : List Char) : Form (.token kind) [c] rest
  | alone {c : Char} {alone extended : Token.Kind}
      (h : Token.extendableKinds? c = some (alone, extended)) (rest : List Char) :
      Form (.token alone) [c] rest
  | extended {c : Char} {alone extended : Token.Kind}
      (h : Token.extendableKinds? c = some (alone, extended)) (rest : List Char) :
      Form (.token extended) [c, '='] rest
  | keyword {text : List Char} {kind : Token.Kind}
      (h : (String.ofList text, kind) ∈ Token.keywords) (rest : List Char) :
      Form (.token kind) text rest
  | name {c : Char} {cs : List Char} (hc : isWordStart c = true)
      (hcs : ∀ d ∈ cs, isWordPart d = true)
      (h : ∀ kind, (String.ofList (c :: cs), kind) ∉ Token.keywords) (rest : List Char) :
      Form (.token .identifier) (c :: cs) rest
  | whole {digits : List Char} (hne : digits ≠ []) (h : ∀ d ∈ digits, d.isDigit = true)
      (rest : List Char) : Form (numberContent digits []) digits rest
  | fraction {whole fraction : List Char} (hne : whole ≠ []) (h : ∀ d ∈ whole, d.isDigit = true)
      (hne' : fraction ≠ []) (h' : ∀ d ∈ fraction, d.isDigit = true) (rest : List Char) :
      Form (numberContent whole fraction) (whole ++ '.' :: fraction) rest
  | string {body : List Char} (h : '"' ∉ body) (rest : List Char) :
      Form (.token (.string (String.ofList body))) ('"' :: (body ++ ['"'])) rest
  | openString {body : List Char} (h : '"' ∉ body) :
      Form (.fault .unterminatedString) ('"' :: body) []
  | unexpected {c : Char} (hblank : isBlank c = false) (hslash : c ≠ '/') (hquote : c ≠ '"')
      (hdigit : c.isDigit = false) (hword : isWordStart c = false)
      (hsingle : Token.singleKind? c = none) (hextendable : Token.extendableKinds? c = none)
      (rest : List Char) : Form (.fault (.unexpectedCharacter c)) [c] rest

/-! ## Which character begins which segment -/

theorem isBlank_eq_true_iff {c : Char} : isBlank c = true ↔ c ∈ [' ', '\r', '\t', '\n'] := by
  simp [isBlank, or_assoc]

theorem isDigit_eq_false_of_isWordStart {c : Char} (h : isWordStart c = true) :
    c.isDigit = false := by
  rw [← Bool.not_eq_true]
  intro hdigit
  have hrange : 48 ≤ c.toNat ∧ c.toNat ≤ 57 := by
    simpa [Char.isDigit, UInt32.le_iff_toNat_le] using hdigit
  simp only [isWordStart, Bool.or_eq_true, beq_iff_eq] at h
  rcases h with halpha | rfl
  · have hletter : 65 ≤ c.toNat ∧ c.toNat ≤ 90 ∨ 97 ≤ c.toNat ∧ c.toNat ≤ 122 := by
      have hranges : (decide (65 ≤ c.toNat ∧ c.toNat ≤ 90)
          || (decide (97 ≤ c.toNat) && decide (c.toNat ≤ 122))) = true := halpha
      simpa using hranges
    omega
  · cases hdigit

theorem isWordPart_of_isWordStart {c : Char} (h : isWordStart c = true) : isWordPart c = true := by
  simp only [isWordStart, isWordPart, Char.isAlphanum, Bool.or_eq_true] at h ⊢
  exact h.imp_left Or.inl

variable {c : Char} (cs : List Char)

theorem next_of_blank (h : isBlank c = true) : next c cs = (⟨.blank, [c]⟩, cs) := if_pos h

theorem next_quote : next '"' cs = string cs := rfl

/-- A character of a class without blanks, slashes and quotes begins a number, a word or a mark. -/
theorem next_of_apply {p : Char → Bool} (hc : p c = true)
    (h : [' ', '\r', '\t', '\n', '/', '"'].any p = false) :
    next c cs = if c.isDigit then number (c :: cs) else if isWordStart c then word (c :: cs)
      else mark c cs := by
  have hnot : c ∉ [' ', '\r', '\t', '\n', '/', '"'] := by
    intro hmem
    rw [List.any_eq_true.2 ⟨c, hmem, hc⟩] at h
    cases h
  simp only [List.mem_cons, List.not_mem_nil, or_false, not_or] at hnot
  simp [next, isBlank, hnot]

theorem next_of_isDigit (h : c.isDigit = true) : next c cs = number (c :: cs) := by
  rw [next_of_apply cs h (by decide), if_pos h]

theorem next_of_isWordStart (h : isWordStart c = true) : next c cs = word (c :: cs) := by
  have hdigit := isDigit_eq_false_of_isWordStart h
  rw [next_of_apply cs h (by decide), hdigit, if_neg (by decide), if_pos h]

theorem next_of_single {kind : Token.Kind} (h : Token.singleKind? c = some kind) :
    next c cs = (⟨.token kind, [c]⟩, cs) := by
  unfold Token.singleKind? at h
  split at h <;> cases h <;> rfl

/-- Where `=` follows, an operator that it can extend is extended. -/
theorem next_of_extendable {alone extended : Token.Kind}
    (h : Token.extendableKinds? c = some (alone, extended)) :
    next c cs = match cs with
      | '=' :: rest => (⟨.token extended, [c, '=']⟩, rest)
      | _ => (⟨.token alone, [c]⟩, cs) := by
  unfold Token.extendableKinds? at h
  split at h <;> cases h <;> rfl

/-! ## Runs of characters -/

/-- A run of characters is shorter than the longest one, or it is the longest one. -/
theorem lt_or_takeWhile_eq {p : Char → Bool} {body : List Char} (h : ∀ d ∈ body, p d = true)
    (rest : List Char) :
    body.length < ((body ++ rest).takeWhile p).length
      ∨ (body ++ rest).takeWhile p = body ∧ (body ++ rest).dropWhile p = rest := by
  rw [List.takeWhile_append_of_pos h, List.dropWhile_append_of_pos h]
  cases rest with
  | nil => exact .inr ⟨by simp, rfl⟩
  | cons d rest =>
    by_cases hd : p d = true
    · refine .inl ?_
      rw [List.takeWhile_cons_of_pos hd, List.length_append, List.length_cons]
      omega
    · refine .inr ⟨?_, ?_⟩
      · rw [List.takeWhile_cons_of_neg hd, List.append_nil]
      · rw [List.dropWhile_cons_of_neg hd]

/-- A run that is followed by another character is the longest one. -/
theorem takeWhile_eq_of_cons {p : Char → Bool} {body : List Char} (h : ∀ d ∈ body, p d = true)
    {d : Char} (hd : p d = false) (rest : List Char) :
    (body ++ d :: rest).takeWhile p = body ∧ (body ++ d :: rest).dropWhile p = d :: rest := by
  have hneg : ¬ p d = true := by simp [hd]
  rw [List.takeWhile_append_of_pos h, List.dropWhile_append_of_pos h,
    List.takeWhile_cons_of_neg hneg, List.dropWhile_cons_of_neg hneg, List.append_nil]
  exact ⟨rfl, rfl⟩

theorem forall_bne_of_not_mem {body : List Char} {c : Char} (h : c ∉ body) :
    ∀ d ∈ body, (d != c) = true := by
  intro d hd
  rw [bne_iff_ne]
  rintro rfl
  exact h hd

theorem not_mem_takeWhile_bne (c : Char) (cs : List Char) : c ∉ cs.takeWhile (· != c) := by
  intro hmem
  have hall : ∀ d ∈ cs.takeWhile (· != c), (d != c) = true := List.all_eq_true.1 List.all_takeWhile
  simpa using hall c hmem

theorem lt_or_line_eq {body : List Char} (h : '\n' ∉ body) (rest : List Char) :
    ('/' :: '/' :: body).length < (line (body ++ rest)).1.text.length
      ∨ line (body ++ rest) = (⟨.lineComment, '/' :: '/' :: body⟩, rest) := by
  rcases lt_or_takeWhile_eq (forall_bne_of_not_mem h) rest with hlt | ⟨htake, hdrop⟩
  · refine .inl ?_
    show body.length + 2 < ((body ++ rest).takeWhile (· != '\n')).length + 2
    omega
  · refine .inr ?_
    rw [line, htake, hdrop]

theorem block_of_commentTail {tail : List Char} (h : CommentTail tail) (rest : List Char) :
    block (tail ++ rest) = (⟨.blockComment, '/' :: '*' :: tail⟩, rest) := by
  rw [block, closeComment?_zero_eq_some_iff.2 ⟨h, rfl⟩]

theorem closeComment?_of_open {body : List Char} (h : ∀ tail, CommentTail tail → ¬ tail <+: body) :
    closeComment? 0 body = none := by
  cases hclose : closeComment? 0 body with
  | none => rfl
  | some found =>
    obtain ⟨htail, happend⟩ := closeComment?_zero_eq_some_iff.1 hclose
    exact absurd ⟨_, happend⟩ (h _ htail)

theorem block_of_open {body : List Char} (h : ∀ tail, CommentTail tail → ¬ tail <+: body) :
    block body = (⟨.fault .unterminatedComment, '/' :: '*' :: body⟩, []) := by
  rw [block, closeComment?_of_open h]

/-- A slash that no comment begins with stands alone. -/
theorem lt_or_slash_eq (rest : List Char) :
    1 < (slash rest).1.text.length ∨ slash rest = (⟨.token .slash, ['/']⟩, rest) := by
  unfold slash
  split
  · refine .inl ?_
    show 1 < (List.takeWhile _ _).length + 2
    omega
  · refine .inl ?_
    unfold block
    split
    · show 1 < List.length _ + 2
      omega
    · show 1 < List.length _ + 2
      omega
  · exact .inr rfl

theorem string_of_closed {body : List Char} (h : '"' ∉ body) (rest : List Char) :
    string (body ++ '"' :: rest)
      = (⟨.token (.string (String.ofList body)), '"' :: (body ++ ['"'])⟩, rest) := by
  obtain ⟨htake, hdrop⟩ := takeWhile_eq_of_cons (forall_bne_of_not_mem h) (d := '"') (by decide) rest
  rw [string, htake, hdrop]

theorem string_of_open {body : List Char} (h : '"' ∉ body) :
    string body = (⟨.fault .unterminatedString, '"' :: body⟩, []) := by
  have htake : (body ++ []).takeWhile (· != '"') = body ++ [] :=
    List.takeWhile_append_of_pos (forall_bne_of_not_mem h)
  have hdrop : (body ++ []).dropWhile (· != '"') = [] :=
    List.dropWhile_append_of_pos (forall_bne_of_not_mem h)
  rw [List.append_nil] at htake hdrop
  rw [string, htake, hdrop]

theorem lt_or_number_eq {digits : List Char} (h : ∀ d ∈ digits, d.isDigit = true)
    (rest : List Char) :
    digits.length < (number (digits ++ rest)).1.text.length
      ∨ number (digits ++ rest) = (⟨numberContent digits [], digits⟩, rest) := by
  unfold number
  rcases lt_or_takeWhile_eq h rest with hlt | ⟨htake, hdrop⟩
  · refine .inl (Nat.lt_of_lt_of_le hlt ?_)
    split
    · split
      · show _ ≤ List.length (_ ++ _)
        rw [List.length_append]
        omega
      · exact Nat.le_refl _
    · exact Nat.le_refl _
  · rw [htake, hdrop]
    split
    · split
      · refine .inl ?_
        show _ < List.length (digits ++ _ :: _)
        rw [List.length_append, List.length_cons]
        omega
      · exact .inr rfl
    · exact .inr rfl

theorem lt_or_number_eq_of_fraction {whole fraction : List Char}
    (h : ∀ d ∈ whole, d.isDigit = true) (hne : fraction ≠ [])
    (h' : ∀ d ∈ fraction, d.isDigit = true) (rest : List Char) :
    (whole ++ '.' :: fraction).length < (number (whole ++ '.' :: (fraction ++ rest))).1.text.length
      ∨ number (whole ++ '.' :: (fraction ++ rest))
          = (⟨numberContent whole fraction, whole ++ '.' :: fraction⟩, rest) := by
  obtain ⟨htake, hdrop⟩ := takeWhile_eq_of_cons h (d := '.') (by decide) (fraction ++ rest)
  obtain ⟨d, ds, rfl⟩ := List.exists_cons_of_ne_nil hne
  obtain ⟨hd, hds⟩ := List.forall_mem_cons.1 h'
  unfold number
  rw [htake, hdrop, List.cons_append]
  simp only [if_pos hd]
  rcases lt_or_takeWhile_eq hds rest with hlt | ⟨htake', hdrop'⟩
  · refine .inl ?_
    simp only [List.length_append, List.length_cons]
    omega
  · refine .inr ?_
    rw [htake', hdrop']

theorem lt_or_word_eq {text : List Char} (h : ∀ d ∈ text, isWordPart d = true)
    (rest : List Char) :
    text.length < (word (text ++ rest)).1.text.length
      ∨ word (text ++ rest) = (⟨.token (Token.wordKind (String.ofList text)), text⟩, rest) := by
  rcases lt_or_takeWhile_eq h rest with hlt | ⟨htake, hdrop⟩
  · exact .inl hlt
  · refine .inr ?_
    rw [word, htake, hdrop]

/-! ## Keywords -/

/-- Each keyword is a word, and none is listed twice. -/
theorem keyword_spec {text : String} {kind : Token.Kind} (h : (text, kind) ∈ Token.keywords) :
    text.toList.head?.any isWordStart = true ∧ text.toList.all isWordPart = true
      ∧ Token.wordKind text = kind := by
  have hall : ∀ m ∈ Token.keywords, m.1.toList.head?.any isWordStart = true
      ∧ m.1.toList.all isWordPart = true ∧ Token.wordKind m.1 = m.2 := by decide
  exact hall _ h

theorem wordKind_of_not_mem {text : String} (h : ∀ kind, (text, kind) ∉ Token.keywords) :
    Token.wordKind text = .identifier := by
  have hnone : Token.keywords.lookup text = none := by
    rw [List.lookup_eq_none_iff]
    rintro ⟨key, kind⟩ hmem
    rw [bne_iff_ne]
    rintro rfl
    exact h kind hmem
  rw [Token.wordKind, hnone]
  rfl

/-! ## The first segment is the longest -/

theorem head?_eq_of_append_eq {text rest cs : List Char} {c : Char} (hne : text ≠ [])
    (htext : text ++ rest = c :: cs) : text.head? = some c := by
  obtain ⟨d, ds, rfl⟩ := List.exists_cons_of_ne_nil hne
  cases htext
  rfl

/-- A form at the start of a text is shorter than the first segment, or it is the first segment. -/
theorem Form.lt_or_next_eq {content : Content} {text rest : List Char} (h : Form content text rest)
    {c : Char} {cs : List Char} (htext : text ++ rest = c :: cs) :
    text.length < (next c cs).1.text.length ∨ next c cs = (⟨content, text⟩, rest) := by
  cases h with
  | blank h =>
    cases htext
    exact .inr (next_of_blank rest (isBlank_eq_true_iff.2 h))
  | lineComment h =>
    cases htext
    exact lt_or_line_eq h rest
  | blockComment h =>
    cases htext
    exact .inr (block_of_commentTail h rest)
  | openComment h =>
    rw [List.append_nil] at htext
    cases htext
    exact .inr (block_of_open h)
  | slash =>
    cases htext
    exact lt_or_slash_eq rest
  | single h =>
    cases htext
    exact .inr (next_of_single rest h)
  | @alone c alone extended h =>
    cases htext
    show 1 < (next c rest).1.text.length ∨ next c rest = _
    rw [next_of_extendable rest h]
    split
    · exact .inl (by simp)
    · exact .inr rfl
  | @extended c alone extended h =>
    cases htext
    exact .inr (next_of_extendable ('=' :: rest) h)
  | keyword h =>
    obtain ⟨hstart, hpart, hkind⟩ := keyword_spec h
    rw [String.toList_ofList] at hstart hpart
    have hne : text ≠ [] := by
      rintro rfl
      cases hstart
    rw [head?_eq_of_append_eq hne htext] at hstart
    rw [next_of_isWordStart cs hstart, ← htext, ← hkind]
    exact lt_or_word_eq (List.all_eq_true.1 hpart) rest
  | name hc hcs h =>
    obtain ⟨rfl, -⟩ := List.cons.inj htext
    rw [next_of_isWordStart cs hc, ← htext, ← wordKind_of_not_mem h]
    exact lt_or_word_eq (List.forall_mem_cons.2 ⟨isWordPart_of_isWordStart hc, hcs⟩) rest
  | whole hne h =>
    have hc := h c (List.mem_of_head? (head?_eq_of_append_eq hne htext))
    rw [next_of_isDigit cs hc, ← htext]
    exact lt_or_number_eq h rest
  | fraction hne h hne' h' =>
    rw [List.append_assoc] at htext
    have hc := h c (List.mem_of_head? (head?_eq_of_append_eq hne htext))
    rw [next_of_isDigit cs hc, ← htext]
    exact lt_or_number_eq_of_fraction h hne' h' rest
  | string h =>
    obtain ⟨rfl, hcs⟩ := List.cons.inj htext
    rw [List.append_eq, List.append_assoc] at hcs
    rw [next_quote, ← hcs]
    exact .inr (string_of_closed h rest)
  | openString h =>
    rw [List.append_nil] at htext
    cases htext
    exact .inr (string_of_open h)
  | @unexpected c hblank hslash hquote hdigit hword hsingle hextendable =>
    cases htext
    refine .inr ?_
    show next c rest = _
    rw [next, hblank, if_neg (by decide), if_neg hslash, if_neg hquote, hdigit,
      if_neg (by decide), hword, if_neg (by decide), mark, hsingle, hextendable]

/-! ## The first segment has a form -/

theorem form_line (cs : List Char) : Form (line cs).1.content (line cs).1.text (line cs).2 :=
  .lineComment (not_mem_takeWhile_bne '\n' cs) _

theorem form_block (cs : List Char) : Form (block cs).1.content (block cs).1.text (block cs).2 := by
  unfold block
  split
  · next text rest h => exact .blockComment (closeComment?_zero_eq_some_iff.1 h).1 rest
  · next h =>
    refine .openComment fun tail htail hbegins => ?_
    obtain ⟨rest, hrest⟩ := hbegins
    rw [closeComment?_zero_eq_some_iff.2 ⟨htail, hrest⟩] at h
    cases h

theorem form_slash (cs : List Char) : Form (slash cs).1.content (slash cs).1.text (slash cs).2 := by
  unfold slash
  split
  · exact form_line _
  · exact form_block _
  · exact .slash cs

theorem form_string (cs : List Char) :
    Form (string cs).1.content (string cs).1.text (string cs).2 := by
  have hnone := not_mem_takeWhile_bne '"' cs
  unfold string
  split
  · exact .openString hnone
  · next quote rest h =>
    -- what ends the search is a quote
    have hquote := List.head?_dropWhile_not (· != '"') cs
    simp only [h, List.head?_cons, bne_eq_false_iff_eq] at hquote
    rw [hquote]
    exact .string hnone rest

theorem form_number {cs : List Char} (h : cs.head?.any Char.isDigit = true) :
    Form (number cs).1.content (number cs).1.text (number cs).2 := by
  have hall : ∀ d ∈ cs.takeWhile Char.isDigit, d.isDigit = true :=
    List.all_eq_true.1 List.all_takeWhile
  have hne : cs.takeWhile Char.isDigit ≠ [] := by
    cases cs with
    | nil => cases h
    | cons d ds =>
      have hd : d.isDigit = true := h
      rw [List.takeWhile_cons_of_pos hd]
      exact List.cons_ne_nil _ _
  unfold number
  split
  · next d rest _ =>
    split
    · next hd =>
      have hfraction : ∀ d' ∈ d :: rest.takeWhile Char.isDigit, d'.isDigit = true :=
        List.forall_mem_cons.2 ⟨hd, List.all_eq_true.1 List.all_takeWhile⟩
      exact .fraction hne hall (List.cons_ne_nil _ _) hfraction _
    · exact .whole hne hall _
  · exact .whole hne hall _

theorem form_word {c : Char} (h : isWordStart c = true) (cs : List Char) :
    Form (word (c :: cs)).1.content (word (c :: cs)).1.text (word (c :: cs)).2 := by
  have htake : (c :: cs).takeWhile isWordPart = c :: cs.takeWhile isWordPart :=
    List.takeWhile_cons_of_pos (isWordPart_of_isWordStart h)
  have hall : ∀ d ∈ cs.takeWhile isWordPart, isWordPart d = true :=
    List.all_eq_true.1 List.all_takeWhile
  rw [word, htake]
  by_cases hkeyword : ∃ kind, (String.ofList (c :: cs.takeWhile isWordPart), kind) ∈ Token.keywords
  · obtain ⟨kind, hmem⟩ := hkeyword
    rw [(keyword_spec hmem).2.2]
    exact .keyword hmem _
  · have hnone : ∀ kind, (String.ofList (c :: cs.takeWhile isWordPart), kind) ∉ Token.keywords :=
      fun kind hmem => hkeyword ⟨kind, hmem⟩
    rw [wordKind_of_not_mem hnone]
    exact .name h hall hnone _

theorem form_mark {c : Char} (hblank : isBlank c = false) (hslash : c ≠ '/') (hquote : c ≠ '"')
    (hdigit : c.isDigit = false) (hword : isWordStart c = false) (cs : List Char) :
    Form (mark c cs).1.content (mark c cs).1.text (mark c cs).2 := by
  unfold mark
  split
  · next kind _ h => exact .single h cs
  · next alone extended h =>
    split
    · exact .extended h _
    · exact .alone h cs
  · next hsingle hextendable =>
    exact .unexpected hblank hslash hquote hdigit hword hsingle hextendable cs

/-- The first segment has a form. -/
theorem form_next (c : Char) (cs : List Char) :
    Form (next c cs).1.content (next c cs).1.text (next c cs).2 := by
  unfold next
  split
  · next h => exact .blank (isBlank_eq_true_iff.1 h) cs
  · split
    · exact form_slash cs
    · split
      · exact form_string cs
      · split
        · next h => exact form_number h
        · split
          · next h => exact form_word h cs
          · next hblank hslash hquote hdigit hword =>
            rw [Bool.not_eq_true] at hblank hdigit hword
            exact form_mark hblank hslash hquote hdigit hword cs

theorem Form.text_ne_nil {content : Content} {text rest : List Char}
    (h : Form content text rest) : text ≠ [] := by
  cases h with
  | keyword h =>
    have hstart := (keyword_spec h).1
    rintro rfl
    cases hstart
  | whole hne => exact hne
  | fraction => simp
  | _ => exact List.cons_ne_nil _ _

/-- A string literal is its value between two quotes. -/
theorem Form.text_of_string {value : String} {text rest : List Char}
    (h : Form (.token (.string value)) text rest) : text = '"' :: (value.toList ++ ['"']) := by
  generalize hcontent : Content.token (.string value) = content at h
  cases h with
  | string h =>
    cases hcontent
    rw [String.toList_ofList]
  | single h =>
    cases hcontent
    unfold Token.singleKind? at h
    split at h <;> cases h
  | alone h | extended h =>
    cases hcontent
    unfold Token.extendableKinds? at h
    split at h <;> cases h
  | keyword h =>
    cases hcontent
    simp [Token.keywords] at h
  | whole | fraction =>
    unfold numberContent at hcontent
    split at hcontent <;> cases hcontent
  | _ => cases hcontent

/-! ## The longest segment -/

/-- Whether the segment has a form in front of the text `rest`, and no form at the same place is
longer. -/
def IsLongest (s : Segment) (rest : List Char) : Prop :=
  Form s.content s.text rest
  ∧ ∀ content text rest', Form content text rest' → text ++ rest' = s.text ++ rest →
    text.length ≤ s.text.length

theorem isLongest_next (c : Char) (cs : List Char) : (next c cs).1.IsLongest (next c cs).2 := by
  refine ⟨form_next c cs, fun content text rest hform htext => ?_⟩
  rw [text_next_append] at htext
  rcases hform.lt_or_next_eq htext with hlt | heq
  · exact Nat.le_of_lt hlt
  · exact Nat.le_of_eq (by rw [heq])

/-- No other segment is the longest at the start of a text. -/
theorem IsLongest.next_eq {s : Segment} {rest : List Char} (h : s.IsLongest rest) {c : Char}
    {cs : List Char} (htext : s.text ++ rest = c :: cs) : next c cs = (s, rest) := by
  rcases h.1.lt_or_next_eq htext with hlt | heq
  · have hnext : (next c cs).1.text ++ (next c cs).2 = s.text ++ rest := by
      rw [text_next_append, htext]
    have hle := h.2 _ _ _ (form_next c cs) hnext
    omega
  · exact heq

end Segment

/-! ## The whole text -/

/-- Whether the segments, one after the other, are the text, and each is the longest at its
place. -/
inductive Segmentation : List Segment → List Char → Prop where
  | nil : Segmentation [] []
  | cons {s : Segment} {ss : List Segment} {rest : List Char} (h : s.IsLongest rest)
      (hs : Segmentation ss rest) : Segmentation (s :: ss) (s.text ++ rest)

namespace Segmentation

variable {ss : List Segment} {cs : List Char}

theorem flatMap_text (h : Segmentation ss cs) : ss.flatMap (·.text) = cs := by
  induction h with
  | nil => rfl
  | cons h hs ih => rw [List.flatMap_cons, ih]

theorem exists_form (h : Segmentation ss cs) :
    ∀ s ∈ ss, ∃ rest, Segment.Form s.content s.text rest := by
  induction h with
  | nil => exact nofun
  | cons h hs ih => exact List.forall_mem_cons.2 ⟨⟨_, h.1⟩, ih⟩

theorem of_segments (cs : List Char) : Segmentation (segments cs) cs := by
  fun_induction segments cs with
  | case1 => exact .nil
  | case2 c cs ih =>
    have h := Segmentation.cons (Segment.isLongest_next c cs) ih
    rwa [Segment.text_next_append] at h

theorem eq_segments (h : Segmentation ss cs) : ss = segments cs := by
  induction h with
  | nil => exact segments_nil.symm
  | @cons s ss rest h hs ih =>
    have hne : s.text ++ rest ≠ [] := List.append_ne_nil_of_left_ne_nil h.1.text_ne_nil rest
    obtain ⟨c, cs, hcs⟩ := List.exists_cons_of_ne_nil hne
    rw [hcs, segments_cons, h.next_eq hcs, ih]

end Segmentation

/-- **The scanner's segmentation of a text into longest segments is the only one.** -/
theorem segmentation_iff {ss : List Segment} {cs : List Char} :
    Segmentation ss cs ↔ ss = segments cs := by
  constructor
  · exact Segmentation.eq_segments
  · rintro rfl
    exact .of_segments cs

-- no `1.` without a digit after the point, and no comment that ends with a comment inside it
example : (segments "n<=1.5./*/**/*/".toList).map (fun s => String.ofList s.text)
    = ["n", "<=", "1.5", ".", "/*/**/*/"] := by
  cbv

/-- Each item is on the line on which the segment starts, and the end on the line after all line
ends. -/
theorem itemsFrom_eq (line : Nat) (ss : List Segment) :
    itemsFrom line ss
      = (ss.zipIdx.filterMap fun (s, i) =>
          s.item? (line + newlines ((ss.take i).flatMap (·.text))))
        ++ [.ok (Token.eof (line + newlines (ss.flatMap (·.text))))] := by
  induction ss generalizing line with
  | nil => rfl
  | cons s ss ih =>
    have hshift : ∀ rest : List Segment,
        line + newlines ((s :: rest).flatMap (·.text))
          = line + newlines s.text + newlines (rest.flatMap (·.text)) := by
      intro rest
      rw [List.flatMap_cons, newlines_append]
      omega
    rw [itemsFrom, ih, hshift, List.zipIdx_cons, List.zipIdx_succ, List.filterMap_cons,
      List.filterMap_map]
    simp only [Function.comp_def, List.take_succ_cons, hshift, List.take_zero, List.flatMap_nil]
    cases hitem : s.item? line with
    | none => simp [newlines, hitem]
    | some item => simp [newlines, hitem]

/-- **Scanning cuts the source into its longest segments and loses nothing.** There is one
segmentation of the source in which each segment is the longest at its place. Its segments are not
empty, and a string literal is its value between two quotes. The items are one for each segment that
is a token or a fault, in their order, each with the number of the line on which the segment starts,
and then the end of the source, with the number of the line on which it ends. -/
theorem scan_segmentation (source : String) :
    ∃ ss : List Segment,
      (∀ ss', Segmentation ss' source.toList ↔ ss' = ss)
      ∧ ss.flatMap (·.text) = source.toList
      ∧ (∀ s ∈ ss, s.text ≠ [])
      ∧ (∀ s ∈ ss, ∀ value, s.content = .token (.string value) →
        s.text = '"' :: (value.toList ++ ['"']))
      ∧ scan source
        = (ss.zipIdx.filterMap fun (s, i) =>
            s.item? (1 + newlines ((ss.take i).flatMap (·.text))))
          ++ [.ok (Token.eof (1 + newlines source.toList))] := by
  have hsegments := Segmentation.of_segments source.toList
  refine ⟨segments source.toList, fun ss => segmentation_iff, hsegments.flatMap_text, ?_, ?_, ?_⟩
  · intro s hs
    obtain ⟨rest, hform⟩ := hsegments.exists_form s hs
    exact hform.text_ne_nil
  · intro s hs value hvalue
    obtain ⟨rest, hform⟩ := hsegments.exists_form s hs
    rw [hvalue] at hform
    exact hform.text_of_string
  · rw [scan, itemsFrom_eq, hsegments.flatMap_text]

end Lox
