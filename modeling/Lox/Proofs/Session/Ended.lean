import Lox.Proofs.Scan.Comment
import Lox.Proofs.Session.Concat

/-!
# Lox — a line end at the end of a source text

A string or a comment that is open at the end of a text is still open after a line end. So a text
that passes the check with a line end behind it passes the check without it, with the same
statements.

* **`IsLine`** — texts that end in their only line end.
* **`isOpen_eq_false_of_append_newline`** — a line end closes nothing.
* **`checkSource_of_append_newline`** — the check of a text without its last line end.
-/

namespace Lox

/-- The text ends in its only line end. -/
def IsLine (line : String) : Prop := ∃ a : String, '\n' ∉ a.toList ∧ line = a ++ "\n"

/-! ## What is open stays open -/

theorem CommentTail.getLast?_eq {tail : List Char} (h : CommentTail tail) :
    tail.getLast? = some '/' := by
  induction h with
  | close => rfl
  | nested hinner htail ihinner ihtail =>
    rw [List.getLast?_cons, List.getLast?_cons, List.getLast?_append, ihtail]
    rfl
  | other hopen hclose h ih =>
    rw [List.getLast?_cons, ih]
    rfl

namespace Segment

theorem closeComment?_concat_newline {cs : List Char} (h : closeComment? 0 cs = none) :
    closeComment? 0 (cs ++ ['\n']) = none := by
  cases hclose : closeComment? 0 (cs ++ ['\n']) with
  | none => rfl
  | some found =>
    obtain ⟨text, rest⟩ := found
    obtain ⟨htail, hcs⟩ := closeComment?_zero_eq_some_iff.1 hclose
    rcases List.eq_nil_or_concat rest with rfl | ⟨rest, c, rfl⟩
    · -- a closing does not end in a line end
      rw [List.append_nil] at hcs
      have hlast := htail.getLast?_eq
      rw [hcs, List.getLast?_concat] at hlast
      cases hlast
    · rw [List.concat_eq_append, ← List.append_assoc] at hcs
      have hclosed := closeComment?_zero_eq_some_iff.2 ⟨htail, (List.append_inj' hcs rfl).1⟩
      rw [h] at hclosed
      cases hclosed

theorem isOpen_block_concat_newline {cs : List Char} (h : (block cs).1.isOpen = true) :
    (block (cs ++ ['\n'])).1.isOpen = true := by
  unfold block at h ⊢
  cases hc : closeComment? 0 cs with
  | some found =>
    rw [hc] at h
    cases h
  | none =>
    rw [closeComment?_concat_newline hc]
    rfl

theorem isOpen_slash_concat_newline {cs : List Char} (h : (slash cs).1.isOpen = true) :
    (slash (cs ++ ['\n'])).1.isOpen = true := by
  unfold slash at h
  split at h
  · cases h
  · exact isOpen_block_concat_newline h
  · cases h

theorem isOpen_string_concat_newline {cs : List Char} (h : (string cs).1.isOpen = true) :
    (string (cs ++ ['\n'])).1.isOpen = true := by
  unfold string at h ⊢
  cases hquote : cs.dropWhile (· != '"') with
  | nil =>
    have hnone : (cs ++ ['\n']).dropWhile (· != '"') = [] := by
      rw [List.dropWhile_append, hquote]
      rfl
    simp only [hnone]
    rfl
  | cons quote rest =>
    simp only [hquote] at h
    cases h

theorem isOpen_number (cs : List Char) : (number cs).1.isOpen = false := by
  have hcontent : ∀ whole fraction text, isOpen ⟨numberContent whole fraction, text⟩ = false := by
    intro whole fraction text
    unfold numberContent
    split <;> rfl
  unfold number
  simp only
  split
  · split
    · exact hcontent _ _ _
    · exact hcontent _ _ _
  · exact hcontent _ _ _

theorem isOpen_mark (c : Char) (cs : List Char) : (mark c cs).1.isOpen = false := by
  unfold mark
  split
  · rfl
  · split <;> rfl
  · rfl

/-- A segment that the end of the text cuts short is cut short after a line end. -/
theorem isOpen_next_concat_newline (c : Char) {cs : List Char} (h : (next c cs).1.isOpen = true) :
    (next c (cs ++ ['\n'])).1.isOpen = true := by
  unfold next at h ⊢
  split at h
  · cases h
  · next hblank =>
    rw [if_neg hblank]
    split at h
    · next hslash =>
      rw [if_pos hslash]
      exact isOpen_slash_concat_newline h
    · next hslash =>
      rw [if_neg hslash]
      split at h
      · next hquote =>
        rw [if_pos hquote]
        exact isOpen_string_concat_newline h
      · split at h
        · rw [isOpen_number] at h
          cases h
        · split at h
          · cases h
          · rw [isOpen_mark] at h
            cases h

end Segment

/-- **A line end closes nothing.** -/
theorem isOpen_eq_false_of_append_newline {cs : List Char}
    (h : ∀ s ∈ segments (cs ++ ['\n']), s.isOpen = false) :
    ∀ s ∈ segments cs, s.isOpen = false := by
  fun_induction segments cs with
  | case1 => exact List.forall_mem_nil _
  | case2 c cs ih =>
    rw [List.cons_append, segments_cons] at h
    obtain ⟨hfirst, hlater⟩ := List.forall_mem_cons.1 h
    have hclosed : (Segment.next c cs).1.isOpen = false := by
      cases hopen : (Segment.next c cs).1.isOpen with
      | false => rfl
      | true => rw [← Segment.isOpen_next_concat_newline c hopen, hfirst]
    rw [Segment.next_append_newline [] c hclosed] at hlater
    exact List.forall_mem_cons.2 ⟨hclosed, ih hlater⟩

/-! ## The check -/

theorem scan_empty : scan "" = [.ok (Token.eof 1)] := congrArg (itemsFrom 1) segments_nil

theorem sentence_tokensOf_scan (a : String) :
    sentence (tokensOf (scan a)) = tokensOf (scan a).dropLast := by
  rw [tokensOf_scan_eq_concat, sentence_append fun _ => isEof_eq_false_of_mem_dropLast]
  exact List.append_nil _

/-- A program is parsed alike wherever its end is. -/
theorem parse_eq_of_sentence_eq {ts us : List Token} (h : sentence ts = sentence us)
    (herrors : (parse ts).errors = []) : parse us = parse ts := by
  obtain ⟨d, hy, -⟩ := derives_of_parse_errors_eq_nil herrors
  rw [parse_of_strict d hy, parse_of_strict d (hy.trans h)]

/-- A source text that passes the check with a line end behind it passes the check without it. -/
theorem checkSource_of_append_newline {a : String} {ss : List Stmt}
    (h : checkSource (a ++ "\n") = .ok ss) : checkSource a = .ok ss := by
  obtain ⟨hes, hparse⟩ := checkSource_eq_ok_iff.1 h
  have htext : (a ++ "\n").toList = a.toList ++ ['\n'] := String.toList_append
  have hclosed : ∀ s ∈ segments a.toList, s.isOpen = false := by
    refine isOpen_eq_false_of_append_newline fun s hs => ?_
    rw [← htext] at hs
    exact isOpen_eq_false_of_mem_segments (by simp [hes]) hs
  -- the line end moves the end of the text, and nothing else
  have hscan := scan_append_newline_of_closed hclosed ""
  rw [String.append_empty, scan_empty] at hscan
  have hdrop : (scan (a ++ "\n")).dropLast = (scan a).dropLast := by
    rw [hscan]
    exact List.dropLast_concat
  have hsentence : sentence (tokensOf (scan (a ++ "\n"))) = sentence (tokensOf (scan a)) := by
    rw [sentence_tokensOf_scan, sentence_tokensOf_scan, hdrop]
  rw [checkSource_eq_ok_iff, parse_eq_of_sentence_eq hsentence (by rw [hparse]), hparse]
  refine ⟨?_, rfl⟩
  rw [← errorsOf_dropLast_scan, ← hdrop, errorsOf_dropLast_scan, hes]

end Lox
