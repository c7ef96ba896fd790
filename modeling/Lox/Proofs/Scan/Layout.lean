import Lox.Proofs.Scan.Boundary
import Mathlib

/-!
# Lox — the layout of a source text

Where the tokens of a source text stand does not matter. Their texts, written one after the other
with other blanks and comments between them, are scanned as the same tokens, on the lines on which
they are written.

* **`Separator`** — blanks and comments.
* **`Separator.itemsFrom_append`** — the scanner passes over them.
* **`IsLayout`** — texts between tokens that keep them apart.
* **`scan_layout`** — the tokens of a source text in another layout.
-/

namespace Lox

/-! ## Blanks and comments -/

/-- Blanks, line comments with the line end after them, and block comments, one after the other. -/
inductive Separator : List Char → Prop where
  | nil : Separator []
  | blank {c : Char} {g : List Char} (hc : isBlank c = true) (hg : Separator g) : Separator (c :: g)
  | lineComment {body g : List Char} (hbody : '\n' ∉ body) (hg : Separator g) :
      Separator ('/' :: '/' :: (body ++ '\n' :: g))
  | blockComment {tail g : List Char} (htail : CommentTail tail) (hg : Separator g) :
      Separator ('/' :: '*' :: (tail ++ g))

/-- A segment that is no token and no fault is passed over. -/
theorem itemsFrom_segments_of_next {c : Char} {cs rest : List Char} {s : Segment}
    (hnext : Segment.next c cs = (s, rest)) {line : Nat} (hitem : s.item? line = none) :
    itemsFrom line (segments (c :: cs)) = itemsFrom (line + newlines s.text) (segments rest) := by
  rw [segments_cons, hnext, itemsFrom, hitem]
  rfl

/-- Separators are passed over. -/
theorem Separator.itemsFrom_append {g : List Char} (h : Separator g) (line : Nat)
    (rest : List Char) :
    itemsFrom line (segments (g ++ rest)) = itemsFrom (line + newlines g) (segments rest) := by
  induction h generalizing line with
  | nil => rfl
  | @blank c g hc hg ih =>
    have hlines : newlines (c :: g) = newlines [c] + newlines g := newlines_append [c] g
    rw [List.cons_append, itemsFrom_segments_of_next (Segment.next_of_blank (g ++ rest) hc) rfl, ih,
      hlines, Nat.add_assoc]
  | @lineComment body g hbody hg ih =>
    -- the comment goes up to the line end, which is a blank
    have hcomment : Segment.next '/' ('/' :: (body ++ '\n' :: (g ++ rest)))
        = (⟨.lineComment, '/' :: '/' :: body⟩, '\n' :: (g ++ rest)) := by
      obtain ⟨htake, hdrop⟩ := Segment.takeWhile_eq_of_cons (Segment.forall_bne_of_not_mem hbody)
        (d := '\n') (by decide) (g ++ rest)
      show Segment.line (body ++ '\n' :: (g ++ rest)) = _
      rw [Segment.line, htake, hdrop]
    have hlines : newlines ('/' :: '/' :: (body ++ '\n' :: g))
        = newlines ('/' :: '/' :: body) + (newlines ['\n'] + newlines g) := by
      rw [← newlines_append, ← newlines_append]
      rfl
    rw [List.cons_append, List.cons_append, List.append_assoc, List.cons_append,
      itemsFrom_segments_of_next hcomment rfl,
      itemsFrom_segments_of_next (Segment.next_of_blank (g ++ rest) (by decide)) rfl, ih, hlines,
      Nat.add_assoc, Nat.add_assoc]
  | @blockComment tail g htail hg ih =>
    have hcomment : Segment.next '/' ('*' :: (tail ++ (g ++ rest)))
        = (⟨.blockComment, '/' :: '*' :: tail⟩, g ++ rest) :=
      Segment.block_of_commentTail htail (g ++ rest)
    have hlines : newlines ('/' :: '*' :: (tail ++ g))
        = newlines ('/' :: '*' :: tail) + newlines g := by
      rw [← newlines_append]
      rfl
    rw [List.cons_append, List.cons_append, List.append_assoc,
      itemsFrom_segments_of_next hcomment rfl, ih, hlines, Nat.add_assoc]

/-! ## Tokens with separators between them -/

/-- A token, and the text between it and what follows. -/
structure Placed where
  token : Token
  after : List Char
deriving DecidableEq

/-- The text that starts with `before` and goes on with the texts of the tokens, each with what
stands after it. -/
def layout (before : List Char) (ps : List Placed) : List Char :=
  before ++ ps.flatMap fun p => p.token.text.toList ++ p.after

/-- Whether the texts around the tokens are separators that keep the tokens apart: each starts with a
blank, but the last one may be empty, and the first one does not matter. -/
structure IsLayout (before : List Char) (ps : List Placed) : Prop where
  before : Separator before
  after : ∀ p ∈ ps, Separator p.after
  blank : ∀ p ∈ ps.dropLast, p.after.head?.any isBlank = true
  last : ∀ p ∈ ps.getLast?, p.after = [] ∨ p.after.head?.any isBlank = true

theorem layout_nil (before : List Char) : layout before [] = before := List.append_nil before

theorem layout_cons (before : List Char) (p : Placed) (ps : List Placed) :
    layout before (p :: ps) = before ++ (p.token.text.toList ++ layout p.after ps) := by
  rw [layout, layout, List.flatMap_cons, List.append_assoc]

theorem newlines_layout_cons (before : List Char) (p : Placed) (ps : List Placed) :
    newlines (layout before (p :: ps))
      = newlines before + newlines p.token.text.toList + newlines (layout p.after ps) := by
  rw [layout_cons, newlines_append, newlines_append, Nat.add_assoc]

theorem apart_of_isBlank {cs : List Char} (h : cs.head?.any isBlank = true) (rest : List Char) :
    Segment.Apart (cs ++ rest) := by
  cases cs with
  | nil => cases h
  | cons c cs =>
    rintro _ ⟨⟩
    exact isBoundary_of_isBlank h

namespace IsLayout

variable {before : List Char} {p : Placed} {ps : List Placed} (h : IsLayout before (p :: ps))

include h

theorem tail : IsLayout p.after ps where
  before := h.after p List.mem_cons_self
  after q hq := h.after q (List.mem_cons_of_mem p hq)
  blank q hq := by
    cases ps with
    | nil => cases hq
    | cons p' ps => exact h.blank q (List.mem_cons_of_mem p hq)
  last q hq := by
    cases ps with
    | nil => cases hq
    | cons p' ps =>
      refine h.last q ?_
      rwa [List.getLast?_cons_cons]

/-- What follows a token is no part of it. -/
theorem apart : Segment.Apart (layout p.after ps) := by
  cases ps with
  | nil =>
    rw [layout_nil]
    rcases h.last p rfl with hnil | hblank
    · rw [hnil]
      exact Segment.apart_nil
    · rw [← List.append_nil p.after]
      exact apart_of_isBlank hblank []
  | cons p' ps => exact apart_of_isBlank (h.blank p List.mem_cons_self) _

end IsLayout

/-- The items of a layout of texts that are tokens. -/
theorem IsLayout.itemsFrom_segments {before : List Char} {ps : List Placed} (h : IsLayout before ps)
    (hform : ∀ p ∈ ps, ∃ rest,
      Segment.Form (.token p.token.kind) p.token.text.toList rest) (line : Nat) :
    itemsFrom line (segments (layout before ps))
      = (ps.zipIdx.map fun (p, i) =>
          .ok ⟨⟨p.token.text, line + newlines (layout before (ps.take i))⟩, p.token.kind⟩)
        ++ [.ok (Token.eof (line + newlines (layout before ps)))] := by
  induction ps generalizing before line with
  | nil =>
    rw [layout_nil, ← List.append_nil before, h.before.itemsFrom_append, List.append_nil,
      segments_nil]
    rfl
  | cons p ps ih =>
    obtain ⟨⟨rest, hp⟩, hps⟩ := List.forall_mem_cons.1 hform
    have hitem : Segment.item? (line + newlines before) ⟨.token p.token.kind, p.token.text.toList⟩
        = some (.ok ⟨⟨p.token.text, line + newlines before⟩, p.token.kind⟩) := by
      simp only [Segment.item?, String.ofList_toList]
    rw [layout_cons, h.before.itemsFrom_append, hp.segments_append h.apart, itemsFrom, hitem,
      ih h.tail hps, ← layout_cons, newlines_layout_cons, List.zipIdx_cons, List.zipIdx_succ,
      List.map_cons, List.map_map]
    simp only [Function.comp_def, List.take_succ_cons, newlines_layout_cons, List.take_zero,
      layout_nil, Option.toList_some, List.cons_append, List.nil_append, Nat.add_assoc]

/-- **The tokens of a source text in another layout.** If the source text has no fault, then the texts
of its tokens, with separators that keep them apart, have no fault either. They are scanned as tokens
of the same kinds, texts and values in the same order, each on the line that the line ends before it
tell, and then comes the end of the source. -/
theorem scan_layout {source : String} {before : List Char} {ps : List Placed} {eof : Token}
    (hscan : scan source = (ps.map fun p => .ok p.token) ++ [.ok eof])
    (h : IsLayout before ps) :
    scan (String.ofList (layout before ps))
      = (ps.zipIdx.map fun (p, i) =>
          .ok ⟨⟨p.token.text, 1 + newlines (layout before (ps.take i))⟩, p.token.kind⟩)
        ++ [.ok (Token.eof (1 + newlines (layout before ps)))] := by
  -- each token was cut off as a segment, so its text is that of a token
  have hform : ∀ p ∈ ps, ∃ rest,
      Segment.Form (.token p.token.kind) p.token.text.toList rest := by
    intro p hp
    have hmem : .ok p.token ∈ (scan source).dropLast := by
      rw [hscan, List.dropLast_concat]
      exact List.mem_map_of_mem hp
    obtain ⟨s, hs, hkind, htext⟩ := exists_segment_of_mem_dropLast hmem
    rw [← hkind, ← htext]
    exact (Segmentation.of_segments source.toList).exists_form s hs
  rw [scan, String.toList_ofList]
  exact h.itemsFrom_segments hform 1

/-- The tokens `a`, `<=`, a string that holds `//` and a line end, `/` and `0.0625`, with a comment or a
blank after each but the last. -/
def spacedQuotient : List Placed :=
  [⟨⟨⟨"a", 1⟩, .identifier⟩, " // b\n".toList⟩, ⟨⟨⟨"<=", 1⟩, .lessEqual⟩, "\n".toList⟩,
   ⟨⟨⟨"\"//\n\"", 1⟩, .string "//\n"⟩, "\t/*/**/*/".toList⟩, ⟨⟨⟨"/", 2⟩, .slash⟩, " ".toList⟩,
   ⟨⟨⟨"0.0625", 2⟩, .number ⟨false, 625, 4, by decide, by decide⟩⟩, []⟩]

theorem scan_layout_spacedQuotient :
    scan "a<=\"//\n\"/0.0625" = (spacedQuotient.map fun p => .ok p.token) ++ [.ok (Token.eof 2)]
    ∧ IsLayout "/**/".toList spacedQuotient
    ∧ scan (String.ofList (layout "/**/".toList spacedQuotient))
      = [.ok ⟨⟨"a", 1⟩, .identifier⟩, .ok ⟨⟨"<=", 2⟩, .lessEqual⟩,
        .ok ⟨⟨"\"//\n\"", 3⟩, .string "//\n"⟩, .ok ⟨⟨"/", 4⟩, .slash⟩,
        .ok ⟨⟨"0.0625", 4⟩, .number ⟨false, 625, 4, by decide, by decide⟩⟩, .ok (Token.eof 4)] := by
  have hscan : scan "a<=\"//\n\"/0.0625"
      = (spacedQuotient.map fun p => .ok p.token) ++ [.ok (Token.eof 2)] := by cbv
  have hbefore : Separator "/**/".toList := .blockComment .close .nil
  have hafter : ∀ p ∈ spacedQuotient, Separator p.after := by
    have hbody : '\n' ∉ " b".toList := by decide
    have hline : Separator " // b\n".toList := .blank (by decide) (.lineComment hbody .nil)
    have hnested : Separator "\t/*/**/*/".toList :=
      .blank (by decide) (.blockComment (.nested .close .close) .nil)
    have hnewline : Separator "\n".toList := .blank (by decide) .nil
    have hspace : Separator " ".toList := .blank (by decide) .nil
    simp only [spacedQuotient, List.forall_mem_cons]
    exact ⟨hline, hnewline, hnested, hspace, .nil, List.forall_mem_nil _⟩
  have hlayout : IsLayout "/**/".toList spacedQuotient :=
    ⟨hbefore, hafter, by decide +kernel, by decide +kernel⟩
  exact ⟨hscan, hlayout, (scan_layout hscan hlayout).trans (by cbv)⟩

end Lox
