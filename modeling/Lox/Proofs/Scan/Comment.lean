import Lox.Token.Segment

/-!
# Lox — nested comments

A block comment goes on to the closing that belongs to its opening. The grammar of what stands
after the opening is recursive: comments inside it have their own closings. The scanner counts the
open comments instead, and finds the same end.

* **`CommentTail`** — what stands after the opening of a comment, up to its closing.
* **`CommentTail.closeComment?_append`** — the scanner reads over a comment as a whole.
* **`closeComment?_zero_eq_some_iff`** — it finds the end of a comment, and no other.
-/

namespace Lox

/-- Whether the text is what stands after the opening of a block comment, its closing included.
Inside, an opening begins another comment, and any other character means nothing. -/
inductive CommentTail : List Char → Prop where
  | close : CommentTail ['*', '/']
  | nested {inner tail : List Char} (hinner : CommentTail inner) (htail : CommentTail tail) :
      CommentTail ('/' :: '*' :: (inner ++ tail))
  | other {c : Char} {tail : List Char} (hopen : ¬ (c = '/' ∧ tail.head? = some '*'))
      (hclose : ¬ (c = '*' ∧ tail.head? = some '/')) (h : CommentTail tail) :
      CommentTail (c :: tail)

theorem CommentTail.head?_append {tail : List Char} (h : CommentTail tail) (rest : List Char) :
    (tail ++ rest).head? = tail.head? := by
  cases h <;> rfl

/-! ## A comment is found -/

namespace Segment

/-- The text up to the end of the `depth` comments that are open, and what follows. -/
def closeComments? : (depth : Nat) → List Char → Option (List Char × List Char)
  | 0, cs => some ([], cs)
  | depth + 1, cs => closeComment? depth cs

theorem closeComment?_nested (depth : Nat) (cs : List Char) :
    closeComment? depth ('/' :: '*' :: cs)
      = (closeComments? (depth + 2) cs).map fun p => ('/' :: '*' :: p.1, p.2) :=
  rfl

theorem closeComment?_close (depth : Nat) (cs : List Char) :
    closeComment? depth ('*' :: '/' :: cs)
      = (closeComments? depth cs).map fun p => ('*' :: '/' :: p.1, p.2) := by
  cases depth <;> rfl

theorem closeComment?_other (depth : Nat) {c : Char} {cs : List Char}
    (hopen : ¬ (c = '/' ∧ cs.head? = some '*')) (hclose : ¬ (c = '*' ∧ cs.head? = some '/')) :
    closeComment? depth (c :: cs)
      = (closeComments? (depth + 1) cs).map fun p => (c :: p.1, p.2) := by
  refine closeComment?.eq_4 depth c cs ?_ ?_ ?_
  · rintro cs' rfl rfl
    exact hopen ⟨rfl, rfl⟩
  · rintro cs' - rfl rfl
    exact hclose ⟨rfl, rfl⟩
  · rintro depth' cs' - rfl rfl
    exact hclose ⟨rfl, rfl⟩

end Segment

open Segment

/-- **The scanner reads over a comment as a whole**, and then goes on with the comments around
it. -/
theorem CommentTail.closeComment?_append {tail : List Char} (h : CommentTail tail) (depth : Nat)
    (rest : List Char) :
    closeComment? depth (tail ++ rest)
      = (closeComments? depth rest).map fun p => (tail ++ p.1, p.2) := by
  induction h generalizing depth rest with
  | close => exact closeComment?_close depth rest
  | @nested inner tail _ _ ihinner ihtail =>
    have hinner : closeComments? (depth + 2) (inner ++ (tail ++ rest))
        = (closeComments? (depth + 1) (tail ++ rest)).map fun p => (inner ++ p.1, p.2) :=
      ihinner (depth + 1) (tail ++ rest)
    have htail : closeComments? (depth + 1) (tail ++ rest)
        = (closeComments? depth rest).map fun p => (tail ++ p.1, p.2) := ihtail depth rest
    have hboth : closeComments? (depth + 2) (inner ++ (tail ++ rest))
        = (closeComments? depth rest).map fun p => (inner ++ tail ++ p.1, p.2) := by
      rw [htail, Option.map_map] at hinner
      simpa [Function.comp_def] using hinner
    rw [List.cons_append, List.cons_append, List.append_assoc, closeComment?_nested, hboth,
      Option.map_map]
    rfl
  | @other c tail hopen hclose h ih =>
    have hhead := h.head?_append rest
    have htail : closeComments? (depth + 1) (tail ++ rest)
        = (closeComments? depth rest).map fun p => (tail ++ p.1, p.2) := ih depth rest
    rw [List.cons_append, closeComment?_other depth (hhead ▸ hopen) (hhead ▸ hclose), htail,
      Option.map_map]
    rfl

/-! ## What is found is a comment -/

/-- What stands after the openings of `n` comments, each inside the one before, up to the closing
of the outermost one. -/
inductive CommentTails : Nat → List Char → Prop where
  | nil : CommentTails 0 []
  | cons {n : Nat} {tail text : List Char} (h : CommentTail tail) (hs : CommentTails n text) :
      CommentTails (n + 1) (tail ++ text)

/-- What the scanner reads over ends the comments that are open. -/
theorem commentTails_of_closeComment? {depth : Nat} {cs text rest : List Char}
    (h : closeComment? depth cs = some (text, rest)) : CommentTails (depth + 1) text := by
  fun_induction closeComment? depth cs generalizing text rest with
  | case1 depth cs ih =>
    obtain ⟨⟨text', rest'⟩, h', hp⟩ := Option.map_eq_some_iff.1 h
    cases hp
    -- of the comments that end in the rest of the text, the first one is opened here
    cases ih h' with
    | cons hinner hs =>
      cases hs with
      | cons htail hs =>
        have hnested := CommentTails.cons (.nested hinner htail) hs
        simpa using hnested
  | case2 cs =>
    cases h
    exact .cons .close .nil
  | case3 depth cs ih =>
    obtain ⟨⟨text', rest'⟩, h', hp⟩ := Option.map_eq_some_iff.1 h
    cases hp
    exact .cons .close (ih h')
  | case4 depth c cs hopen hclose₀ hclose ih =>
    obtain ⟨⟨text', rest'⟩, h', hp⟩ := Option.map_eq_some_iff.1 h
    cases hp
    have hcs := append_closeComment? h'
    cases ih h' with
    | @cons _ tail text hfirst hs =>
      have hhead : cs.head? = tail.head? := by
        rw [← hcs, List.append_assoc, hfirst.head?_append]
      refine .cons (.other ?_ ?_ hfirst) hs
      · rintro ⟨rfl, hstar⟩
        obtain ⟨cs', rfl⟩ := List.head?_eq_some_iff.1 (hhead.trans hstar)
        exact hopen cs' rfl rfl
      · rintro ⟨rfl, hslash⟩
        obtain ⟨cs', rfl⟩ := List.head?_eq_some_iff.1 (hhead.trans hslash)
        cases depth with
        | zero => exact hclose₀ cs' rfl rfl rfl
        | succ depth => exact hclose depth cs' rfl rfl rfl
  | case5 => cases h

/-- **The end of a comment is found, and no other.** -/
theorem closeComment?_zero_eq_some_iff {cs text rest : List Char} :
    closeComment? 0 cs = some (text, rest) ↔ CommentTail text ∧ text ++ rest = cs := by
  constructor
  · intro h
    refine ⟨?_, append_closeComment? h⟩
    cases commentTails_of_closeComment? h with
    | cons htail hs =>
      cases hs with
      | nil =>
        rw [List.append_nil]
        exact htail
  · rintro ⟨htail, rfl⟩
    rw [htail.closeComment?_append]
    simp [closeComments?]

end Lox
