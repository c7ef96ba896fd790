import Lox.Proofs.Parse.Origin
import Lox.Proofs.Relabel.Provenance

/-!
# Lox — trees that are shown alike

Nothing is escaped in what is shown of a tree, and a name may be a word that the display itself uses.
Still no two trees of scanned tokens are shown alike, but for their lines. The text is scanned again:
its words say, from left to right, which tree it is and where the text of it ends.

* **`Expr.words`**, **`Stmt.words`** — the words that are shown of a tree.
* **`Stmt.words_display`** — the text that is shown of a tree falls into these words.
* **`Expr.words_append_inj`**, **`Stmt.words_append_inj`** — they say which tree it is and where it
  ends.
* **`Stmt.display_inj`** — so does the text.
-/

namespace Lox

open Segment (Form Apart apart_cons)

/-! ## Words -/

/-- The segments of a text but for blanks. -/
def words (cs : List Char) : List Segment := (segments cs).filter (·.content ≠ .blank)

/-- A text as a token of the given kind. -/
def word (kind : Token.Kind) (text : String) : Segment := ⟨.token kind, text.toList⟩

@[simp] theorem word_inj {k k' : Token.Kind} {s s' : String} :
    word k s = word k' s' ↔ k = k' ∧ s = s' := by
  simp [word, String.toList_inj]

section

variable {kind : Token.Kind} {rest : List Char}

theorem words_append {text : String} {after : List Char}
    (h : Form (.token kind) text.toList after) (hrest : Apart rest) :
    words (text.toList ++ rest) = word kind text :: words rest := by
  rw [words, h.segments_append hrest]
  rfl

theorem words_cons {c : Char} (h : Token.singleKind? c = some kind) :
    words (c :: rest) = ⟨.token kind, [c]⟩ :: words rest := by
  rw [words, segments_cons, Segment.next_of_single rest h]
  rfl

theorem words_space : words (' ' :: rest) = words rest := by
  rw [words, segments_cons, Segment.next_of_blank rest rfl]
  rfl

end

/-- Words between parentheses. -/
def enclosed (ws : List Segment) : List Segment :=
  word .leftParen "(" :: (ws ++ [word .rightParen ")"])

/-- The words that are shown of an expression. -/
def Expr.words : Expr → List Segment
  | .literal value => [word value.kind value.display]
  | .var name => [word .identifier name.text]
  | .assign name value =>
    enclosed (word .identifier "assign" :: word .identifier name.text :: value.words)
  | .group inner => enclosed (word .identifier "group" :: inner.words)
  | .unary op sign operand => enclosed (word op.kind sign.text :: operand.words)
  | .binary op sign left right => enclosed (word op.kind sign.text :: (left.words ++ right.words))

mutual

/-- The words that are shown of a statement. -/
def Stmt.words : Stmt → List Segment
  | .expression e => e.words ++ [word .semicolon ";"]
  | .print e => enclosed (word .printWord "print" :: e.words)
  | .declaration name none => enclosed [word .varWord "var", word .identifier name.text]
  | .declaration name (some e) =>
    enclosed (word .varWord "var" :: word .identifier name.text :: e.words)
  | .block body => enclosed (word .identifier "block" :: Stmt.wordsOfAll body)

/-- The words that are shown of the statements of a block. -/
def Stmt.wordsOfAll : List Stmt → List Segment
  | [] => []
  | s :: rest => s.words ++ Stmt.wordsOfAll rest

end

/-! ## The words of the text -/

theorem apart_space (cs : List Char) : Apart (' ' :: cs) := apart_cons (by decide) cs

theorem apart_close (cs : List Char) : Apart (')' :: cs) := apart_cons (by decide) cs

/-- An opening parenthesis and the first word behind it. -/
theorem words_open {kind : Token.Kind} {text : String} {after rest : List Char}
    (h : Form (.token kind) text.toList after) (hrest : Apart rest) :
    words ('(' :: (text.toList ++ rest)) = word .leftParen "(" :: word kind text :: words rest := by
  rw [words_cons rfl, words_append h hrest]
  rfl

theorem form_name {text : String} {c : Char} {cs : List Char} (htext : text.toList = c :: cs)
    (hc : isWordStart c = true) (hcs : cs.all isWordPart = true)
    (h : text ∉ Token.keywords.map Prod.fst) (rest : List Char) :
    Form (.token .identifier) text.toList rest := by
  have hofList : String.ofList (c :: cs) = text := by rw [← htext, String.ofList_toList]
  rw [htext]
  have hkeyword : ∀ kind, (String.ofList (c :: cs), kind) ∉ Token.keywords := by
    rw [hofList]
    exact fun kind hmem => h (List.mem_map_of_mem hmem)
  exact .name hc (List.all_eq_true.1 hcs) hkeyword rest

theorem form_assign (rest : List Char) : Form (.token .identifier) "assign".toList rest :=
  form_name rfl (by decide) (by decide) (by decide) rest

theorem form_group (rest : List Char) : Form (.token .identifier) "group".toList rest :=
  form_name rfl (by decide) (by decide) (by decide) rest

theorem form_block (rest : List Char) : Form (.token .identifier) "block".toList rest :=
  form_name rfl (by decide) (by decide) (by decide) rest

theorem form_print (rest : List Char) : Form (.token .printWord) "print".toList rest :=
  .keyword (by decide) rest

theorem form_var (rest : List Char) : Form (.token .varWord) "var".toList rest :=
  .keyword (by decide) rest

theorem words_close {rest : List Char} : words (')' :: rest) = word .rightParen ")" :: words rest :=
  words_cons rfl

/-- **The text of an expression falls into its words.** -/
theorem Expr.words_display {e : Expr} (h : e.From Token.Written) {rest : List Char}
    (hrest : Apart rest) : Lox.words (e.display.toList ++ rest) = e.words ++ Lox.words rest := by
  induction e generalizing rest with
  | literal l =>
    obtain ⟨text, htext⟩ := h
    exact words_append (Literal.form_display htext []) hrest
  | var name =>
    obtain ⟨after, hname⟩ := h
    exact words_append hname hrest
  | assign name value ih =>
    obtain ⟨⟨after, hname⟩, hvalue⟩ := h
    have hchars : (assign name value).display.toList ++ rest
        = '(' :: ("assign".toList
          ++ ' ' :: (name.text.toList ++ ' ' :: (value.display.toList ++ ')' :: rest))) := by
      simp [display]
    rw [hchars, words_open (form_assign []) (apart_space _), words_space,
      words_append hname (apart_space _), words_space, ih hvalue (apart_close _), words_close]
    simp [words, enclosed]
  | group inner ih =>
    have hchars : (group inner).display.toList ++ rest
        = '(' :: ("group".toList ++ ' ' :: (inner.display.toList ++ ')' :: rest)) := by
      simp [display]
    rw [hchars, words_open (form_group []) (apart_space _), words_space,
      ih h (apart_close _), words_close]
    simp [words, enclosed]
  | unary op sign operand ih =>
    obtain ⟨⟨after, hsign⟩, hoperand⟩ := h
    have hchars : (unary op sign operand).display.toList ++ rest
        = '(' :: (sign.text.toList ++ ' ' :: (operand.display.toList ++ ')' :: rest)) := by
      simp [display]
    rw [hchars, words_open hsign (apart_space _), words_space, ih hoperand (apart_close _),
      words_close]
    simp [words, enclosed]
  | binary op sign left right ihl ihr =>
    obtain ⟨⟨after, hsign⟩, hleft, hright⟩ := h
    have hchars : (binary op sign left right).display.toList ++ rest
        = '(' :: (sign.text.toList ++ ' ' :: (left.display.toList
          ++ ' ' :: (right.display.toList ++ ')' :: rest))) := by
      simp [display]
    rw [hchars, words_open hsign (apart_space _), words_space, ihl hleft (apart_space _),
      words_space, ihr hright (apart_close _), words_close]
    simp [words, enclosed]

mutual

/-- **The text of a statement falls into its words.** -/
theorem Stmt.words_display : {s : Stmt} → s.From Token.Written → (rest : List Char) →
    Lox.words (s.display.toList ++ rest) = s.words ++ Lox.words rest
  | .expression e, h, rest => by
    have hchars : (expression e).display.toList ++ rest = e.display.toList ++ ';' :: rest := by
      simp [display]
    rw [hchars, Expr.words_display h (apart_cons (by decide) _), words_cons rfl]
    simp [words, word]
  | .print e, h, rest => by
    have hchars : (print e).display.toList ++ rest
        = '(' :: ("print".toList ++ ' ' :: (e.display.toList ++ ')' :: rest)) := by
      simp [display]
    rw [hchars, words_open (form_print []) (apart_space _), words_space,
      Expr.words_display h (apart_close _), words_close]
    simp [words, enclosed]
  | .declaration name none, ⟨⟨after, hname⟩, _⟩, rest => by
    have hchars : (declaration name none).display.toList ++ rest
        = '(' :: ("var".toList ++ ' ' :: (name.text.toList ++ ')' :: rest)) := by
      simp [display]
    rw [hchars, words_open (form_var []) (apart_space _), words_space,
      words_append hname (apart_close _), words_close]
    simp [words, enclosed]
  | .declaration name (some e), ⟨⟨after, hname⟩, he⟩, rest => by
    have hchars : (declaration name (some e)).display.toList ++ rest
        = '(' :: ("var".toList ++ ' ' :: (name.text.toList
          ++ ' ' :: (e.display.toList ++ ')' :: rest))) := by
      simp [display]
    rw [hchars, words_open (form_var []) (apart_space _), words_space,
      words_append hname (apart_space _), words_space,
      Expr.words_display (he e rfl) (apart_close _), words_close]
    simp [words, enclosed]
  | .block body, h, rest => by
    have hchars : (block body).display.toList ++ rest
        = '(' :: ("block".toList ++ ((displayBody body).toList ++ ')' :: rest)) := by
      simp [display]
    obtain ⟨hapart, hbody⟩ := words_displayBody h rest
    rw [hchars, words_open (form_block []) hapart, hbody]
    simp [words, enclosed]

theorem Stmt.words_displayBody : {ss : List Stmt} → FromAll Token.Written ss → (rest : List Char) →
    Apart ((displayBody ss).toList ++ ')' :: rest)
    ∧ Lox.words ((displayBody ss).toList ++ ')' :: rest)
      = wordsOfAll ss ++ word .rightParen ")" :: Lox.words rest
  | [], _, rest => ⟨apart_close rest, words_close⟩
  | s :: ss, ⟨hs, hss⟩, rest => by
    have hchars : (displayBody (s :: ss)).toList ++ ')' :: rest
        = ' ' :: (s.display.toList ++ ((displayBody ss).toList ++ ')' :: rest)) := by
      simp [displayBody]
    rw [hchars]
    refine ⟨apart_space _, ?_⟩
    rw [words_space, words_display hs, (words_displayBody hss rest).2]
    simp [wordsOfAll]

end

/-! ## Reading the words -/

theorem Literal.kind_ne {k : Token.Kind} (h : ofKind? k = none) (l : Literal) : l.kind ≠ k := by
  rintro rfl
  rw [ofKind?_eq_some_iff.2 rfl] at h
  cases h

theorem UnaryOp.kind_ne {k : Token.Kind} (h : ofKind? k = none) (op : UnaryOp) : op.kind ≠ k := by
  rintro rfl
  rw [ofKind?_eq_some_iff.2 rfl] at h
  cases h

theorem BinaryOp.kind_ne {k : Token.Kind} (h : ofKind? k = none) (op : BinaryOp) : op.kind ≠ k := by
  rintro rfl
  rw [ofKind?_eq_some_iff.2 rfl] at h
  cases h

theorem Lexeme.unlined_congr {x y : Lexeme} (h : x.text = y.text) : x.unlined = y.unlined := by
  rw [unlined, unlined, h]

@[simp] theorem enclosed_append (ws r : List Segment) :
    enclosed ws ++ r = word .leftParen "(" :: (ws ++ word .rightParen ")" :: r) := by
  simp [enclosed]

namespace Expr

variable {e e' : Expr} {k : Token.Kind} {text : String} {r r' ws : List Segment}

/-- What begins with a word that is no opening parenthesis is this word. -/
theorem atom_of_words (h : e.words ++ r = word k text :: ws) (hk : k ≠ .leftParen) :
    ws = r ∧ ((∃ l, e = literal l ∧ l.kind = k)
      ∨ ∃ name, e = var name ∧ .identifier = k ∧ name.text = text) := by
  cases e with
  | literal l =>
    simp only [words, List.singleton_append, List.cons.injEq, word_inj] at h
    exact ⟨h.2.symm, .inl ⟨l, rfl, h.1.1⟩⟩
  | var name =>
    simp only [words, List.singleton_append, List.cons.injEq, word_inj] at h
    exact ⟨h.2.symm, .inr ⟨name, rfl, h.1.1, h.1.2⟩⟩
  | _ =>
    simp only [words, enclosed_append, List.cons.injEq, word_inj] at h
    exact absurd h.1.1.symm hk

/-- What begins with an opening parenthesis is as the next word says, and goes on with the words of
its parts and a closing parenthesis. -/
theorem compound_of_words (h : e.words ++ r = word .leftParen "(" :: word k text :: ws) :
    (∃ name value, e = assign name value ∧ .identifier = k ∧ "assign" = text
      ∧ word .identifier name.text :: (value.words ++ word .rightParen ")" :: r) = ws)
    ∨ (∃ inner, e = group inner ∧ .identifier = k ∧ "group" = text
      ∧ inner.words ++ word .rightParen ")" :: r = ws)
    ∨ (∃ op sign operand, e = unary op sign operand ∧ op.kind = k ∧ sign.text = text
      ∧ operand.words ++ word .rightParen ")" :: r = ws)
    ∨ ∃ op sign left right, e = binary op sign left right ∧ op.kind = k ∧ sign.text = text
      ∧ left.words ++ (right.words ++ word .rightParen ")" :: r) = ws := by
  cases e with
  | literal l =>
    simp only [words, List.singleton_append, List.cons.injEq, word_inj] at h
    exact absurd h.1.1 (l.kind_ne rfl)
  | var name =>
    simp only [words, List.singleton_append, List.cons.injEq, word_inj] at h
    cases h.1.1
  | assign name value =>
    simp only [words, enclosed_append, List.cons_append, List.cons.injEq, word_inj] at h
    exact .inl ⟨name, value, rfl, h.2.1.1, h.2.1.2, h.2.2⟩
  | group inner =>
    simp only [words, enclosed_append, List.cons_append, List.cons.injEq, word_inj] at h
    exact .inr (.inl ⟨inner, rfl, h.2.1.1, h.2.1.2, h.2.2⟩)
  | unary op sign operand =>
    simp only [words, enclosed_append, List.cons_append, List.cons.injEq, word_inj] at h
    exact .inr (.inr (.inl ⟨op, sign, operand, rfl, h.2.1.1, h.2.1.2, h.2.2⟩))
  | binary op sign left right =>
    simp only [words, enclosed_append, List.cons_append, List.append_assoc, List.cons.injEq,
      word_inj] at h
    exact .inr (.inr (.inr ⟨op, sign, left, right, rfl, h.2.1.1, h.2.1.2, h.2.2⟩))

/-- No expression begins with a closing parenthesis. -/
theorem words_append_ne_close : e.words ++ r ≠ word .rightParen ")" :: ws := by
  intro h
  rcases (atom_of_words h nofun).2 with ⟨l, -, hk⟩ | ⟨name, -, hk, -⟩
  · exact l.kind_ne rfl hk
  · cases hk

/-- **The words of an expression say which one it is**, up to lines, and where it ends. -/
theorem words_append_inj (h : e.words ++ r = e'.words ++ r') :
    e.relabel .unlined = e'.relabel .unlined ∧ r = r' := by
  induction e generalizing e' r r' with
  | literal l =>
    obtain ⟨hr, ⟨l', rfl, hk⟩ | ⟨name, rfl, hk, -⟩⟩ := atom_of_words h.symm (l.kind_ne rfl)
    · exact ⟨by rw [Literal.kind_injective hk], hr⟩
    · exact absurd hk.symm (l.kind_ne rfl)
  | var name =>
    obtain ⟨hr, ⟨l, rfl, hk⟩ | ⟨name', rfl, -, htext⟩⟩ := atom_of_words h.symm nofun
    · exact absurd hk (l.kind_ne rfl)
    · exact ⟨by rw [relabel, relabel, Lexeme.unlined_congr htext], hr⟩
  | assign name value ih =>
    rw [words, enclosed_append] at h
    rcases compound_of_words h.symm with ⟨name', value', rfl, -, -, hws⟩ | ⟨inner, rfl, -, htext, -⟩
        | ⟨op, sign, operand, rfl, hk, -⟩ | ⟨op, sign, left, right, rfl, hk, -⟩
    · obtain ⟨hname, hws⟩ := List.cons.inj hws
      obtain ⟨hvalue, hr⟩ := ih hws.symm
      refine ⟨?_, (List.cons.inj hr).2⟩
      rw [relabel, relabel, hvalue, Lexeme.unlined_congr (word_inj.1 hname).2]
    · exact absurd htext (by decide)
    · exact absurd hk (op.kind_ne rfl)
    · exact absurd hk (op.kind_ne rfl)
  | group inner ih =>
    rw [words, enclosed_append] at h
    rcases compound_of_words h.symm with ⟨name, value, rfl, -, htext, -⟩ | ⟨inner', rfl, -, -, hws⟩
        | ⟨op, sign, operand, rfl, hk, -⟩ | ⟨op, sign, left, right, rfl, hk, -⟩
    · exact absurd htext (by decide)
    · obtain ⟨hinner, hr⟩ := ih hws.symm
      exact ⟨by rw [relabel, relabel, hinner], (List.cons.inj hr).2⟩
    · exact absurd hk (op.kind_ne rfl)
    · exact absurd hk (op.kind_ne rfl)
  | unary op sign operand ih =>
    rw [words, enclosed_append] at h
    rcases compound_of_words h.symm with ⟨name, value, rfl, hk, -⟩ | ⟨inner, rfl, hk, -⟩
        | ⟨op', sign', operand', rfl, hk, htext, hws⟩ | ⟨op', sign', left, right, rfl, -, -, hws⟩
    · exact absurd hk.symm (op.kind_ne rfl)
    · exact absurd hk.symm (op.kind_ne rfl)
    · obtain ⟨hoperand, hr⟩ := ih hws.symm
      refine ⟨?_, (List.cons.inj hr).2⟩
      rw [relabel, relabel, hoperand, Lexeme.unlined_congr htext, UnaryOp.kind_injective hk]
    · -- one sign may stand in front of one operand or of two
      exact absurd (ih hws.symm).2.symm words_append_ne_close
  | binary op sign left right ihl ihr =>
    rw [words, enclosed_append, List.cons_append, List.append_assoc] at h
    rcases compound_of_words h.symm with ⟨name, value, rfl, hk, -⟩ | ⟨inner, rfl, hk, -⟩
        | ⟨op', sign', operand, rfl, -, -, hws⟩ | ⟨op', sign', left', right', rfl, hk, htext, hws⟩
    · exact absurd hk.symm (op.kind_ne rfl)
    · exact absurd hk.symm (op.kind_ne rfl)
    · exact absurd (ihl hws.symm).2 words_append_ne_close
    · obtain ⟨hleft, hrest⟩ := ihl hws.symm
      obtain ⟨hright, hr⟩ := ihr hrest
      refine ⟨?_, (List.cons.inj hr).2⟩
      rw [relabel, relabel, hleft, hright, Lexeme.unlined_congr htext, BinaryOp.kind_injective hk]

end Expr

namespace Stmt

variable {s s' : Stmt} {k : Token.Kind} {text : String} {r r' ws : List Segment}

/-- The words that follow the opening parenthesis of a statement that is no expression. -/
def heads : List (Token.Kind × String) :=
  [(.printWord, "print"), (.varWord, "var"), (.identifier, "block")]

/-- Such a word does not follow the opening parenthesis of an expression. -/
theorem expression_words_ne {e : Expr} (hhead : (k, text) ∈ heads) :
    e.words ++ r ≠ word .leftParen "(" :: word k text :: ws := by
  have hall : ∀ head ∈ heads, head ≠ (.identifier, "assign") ∧ head ≠ (.identifier, "group")
      ∧ UnaryOp.ofKind? head.1 = none ∧ BinaryOp.ofKind? head.1 = none := by decide
  obtain ⟨hassign, hgroup, hunary, hbinary⟩ := hall _ hhead
  intro h
  rcases Expr.compound_of_words h with ⟨_, _, -, hk, htext, -⟩ | ⟨_, -, hk, htext, -⟩
      | ⟨op, _, _, -, hk, -⟩ | ⟨op, _, _, _, -, hk, -⟩
  · exact hassign (Prod.ext hk.symm htext.symm)
  · exact hgroup (Prod.ext hk.symm htext.symm)
  · exact op.kind_ne hunary hk
  · exact op.kind_ne hbinary hk

/-- Otherwise this word says what the statement is. -/
theorem of_words (hhead : (k, text) ∈ heads)
    (h : s.words ++ r = word .leftParen "(" :: word k text :: ws) :
    (∃ e, s = print e ∧ .printWord = k ∧ e.words ++ word .rightParen ")" :: r = ws)
    ∨ (∃ name, s = declaration name none ∧ .varWord = k
      ∧ word .identifier name.text :: word .rightParen ")" :: r = ws)
    ∨ (∃ name e, s = declaration name (some e) ∧ .varWord = k
      ∧ word .identifier name.text :: (e.words ++ word .rightParen ")" :: r) = ws)
    ∨ ∃ body, s = block body ∧ .identifier = k
      ∧ wordsOfAll body ++ word .rightParen ")" :: r = ws := by
  match s with
  | .expression e =>
    rw [words, List.append_assoc] at h
    exact absurd h (expression_words_ne hhead)
  | .print e =>
    simp only [words, enclosed_append, List.cons_append, List.cons.injEq, word_inj] at h
    exact .inl ⟨e, rfl, h.2.1.1, h.2.2⟩
  | .declaration name none =>
    simp only [words, enclosed_append, List.cons_append, List.nil_append, List.cons.injEq,
      word_inj] at h
    exact .inr (.inl ⟨name, rfl, h.2.1.1, h.2.2⟩)
  | .declaration name (some e) =>
    simp only [words, enclosed_append, List.cons_append, List.cons.injEq, word_inj] at h
    exact .inr (.inr (.inl ⟨name, e, rfl, h.2.1.1, h.2.2⟩))
  | .block body =>
    simp only [words, enclosed_append, List.cons_append, List.cons.injEq, word_inj] at h
    exact .inr (.inr (.inr ⟨body, rfl, h.2.1.1, h.2.2⟩))

/-- What begins as an expression is an expression. -/
theorem expression_of_words {e : Expr} (h : s.words ++ r = e.words ++ ws) :
    ∃ e', s = expression e' := by
  match s with
  | .expression e' => exact ⟨e', rfl⟩
  | .print _ | .declaration _ none | .declaration _ (some _) | .block _ =>
    rw [words, enclosed_append] at h
    exact absurd h.symm (expression_words_ne (by decide))

/-- No statement begins with a closing parenthesis. -/
theorem words_append_ne_close : s.words ++ r ≠ word .rightParen ")" :: ws := by
  cases s with
  | expression e =>
    rw [words, List.append_assoc]
    exact Expr.words_append_ne_close
  | declaration name initializer => cases initializer <;> simp [words]
  | print _ | block _ => simp [words]

mutual

/-- **The words of a statement say which one it is**, up to lines, and where it ends. -/
theorem words_append_inj : {s s' : Stmt} → {r r' : List Segment} → s.words ++ r = s'.words ++ r' →
    s.relabel .unlined = s'.relabel .unlined ∧ r = r'
  | .expression e, s', r, r', h => by
    rw [words, List.append_assoc] at h
    obtain ⟨e', rfl⟩ := expression_of_words h.symm
    rw [words, List.append_assoc] at h
    obtain ⟨he, hr⟩ := Expr.words_append_inj h
    exact ⟨by rw [relabel, relabel, he], (List.cons.inj hr).2⟩
  | .print e, s', r, r', h => by
    rw [words, enclosed_append] at h
    rcases of_words (by decide) h.symm with ⟨e', rfl, -, hws⟩ | ⟨_, -, hk, -⟩ | ⟨_, _, -, hk, -⟩
        | ⟨_, -, hk, -⟩
    · obtain ⟨he, hr⟩ := Expr.words_append_inj hws.symm
      exact ⟨by rw [relabel, relabel, he], (List.cons.inj hr).2⟩
    all_goals cases hk
  | .declaration name none, s', r, r', h => by
    rw [words, enclosed_append] at h
    rcases of_words (by decide) h.symm with ⟨_, -, hk, -⟩ | ⟨name', rfl, -, hws⟩
        | ⟨name', e', rfl, -, hws⟩ | ⟨_, -, hk, -⟩
    · cases hk
    · obtain ⟨hname, hr⟩ := List.cons.inj hws.symm
      refine ⟨?_, (List.cons.inj hr).2⟩
      rw [relabel, relabel, Lexeme.unlined_congr (word_inj.1 hname).2]
    · -- the name is followed by the closing parenthesis or by the initial value
      exact absurd (List.cons.inj hws).2 Expr.words_append_ne_close
    · cases hk
  | .declaration name (some e), s', r, r', h => by
    rw [words, enclosed_append] at h
    rcases of_words (by decide) h.symm with ⟨_, -, hk, -⟩ | ⟨name', rfl, -, hws⟩
        | ⟨name', e', rfl, -, hws⟩ | ⟨_, -, hk, -⟩
    · cases hk
    · exact absurd (List.cons.inj hws).2.symm Expr.words_append_ne_close
    · obtain ⟨hname, hrest⟩ := List.cons.inj hws.symm
      obtain ⟨he, hr⟩ := Expr.words_append_inj hrest
      refine ⟨?_, (List.cons.inj hr).2⟩
      rw [relabel, relabel, Option.map_some, Option.map_some, he,
        Lexeme.unlined_congr (word_inj.1 hname).2]
    · cases hk
  | .block body, s', r, r', h => by
    rw [words, enclosed_append] at h
    rcases of_words (by decide) h.symm with ⟨_, -, hk, -⟩ | ⟨_, -, hk, -⟩ | ⟨_, _, -, hk, -⟩
        | ⟨body', rfl, -, hws⟩
    · cases hk
    · cases hk
    · cases hk
    · obtain ⟨hbody, hr⟩ := wordsOfAll_append_inj hws.symm
      exact ⟨by rw [relabel, relabel, hbody], hr⟩

theorem wordsOfAll_append_inj : {ss ss' : List Stmt} → {r r' : List Segment} →
    wordsOfAll ss ++ word .rightParen ")" :: r = wordsOfAll ss' ++ word .rightParen ")" :: r' →
    relabelAll .unlined ss = relabelAll .unlined ss' ∧ r = r'
  | [], [], r, r', h => ⟨rfl, (List.cons.inj h).2⟩
  | [], s' :: ss', r, r', h => by
    rw [wordsOfAll, wordsOfAll, List.append_assoc] at h
    exact absurd h.symm words_append_ne_close
  | s :: ss, [], r, r', h => by
    rw [wordsOfAll, wordsOfAll, List.append_assoc] at h
    exact absurd h words_append_ne_close
  | s :: ss, s' :: ss', r, r', h => by
    rw [wordsOfAll, wordsOfAll, List.append_assoc, List.append_assoc] at h
    obtain ⟨hs, hrest⟩ := words_append_inj h
    obtain ⟨hss, hr⟩ := wordsOfAll_append_inj hrest
    exact ⟨by rw [relabelAll, relabelAll, hs, hss], hr⟩

end

/-! ## The text -/

/-- **Statements of scanned tokens that are shown alike are the same**, up to lines. -/
theorem display_inj (h : s.From Token.Written) (h' : s'.From Token.Written)
    (hdisplay : s.display = s'.display) : s.relabel .unlined = s'.relabel .unlined := by
  have hwords := words_display h []
  rw [hdisplay, words_display h' []] at hwords
  exact (words_append_inj hwords.symm).1

/-- So are lists of them. -/
theorem map_display_inj : {ss ss' : List Stmt} → FromAll Token.Written ss →
    FromAll Token.Written ss' → ss.map display = ss'.map display →
    relabelAll .unlined ss = relabelAll .unlined ss'
  | [], [], _, _, _ => rfl
  | s :: ss, s' :: ss', ⟨hs, hss⟩, ⟨hs', hss'⟩, hdisplay => by
    obtain ⟨hfirst, hrest⟩ := List.cons.inj hdisplay
    rw [relabelAll, relabelAll, display_inj hs hs' hfirst, map_display_inj hss hss' hrest]

end Stmt

end Lox
