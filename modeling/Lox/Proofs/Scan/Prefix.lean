import Lox.Proofs.Scan.Longest

/-!
# Lox — scanning a text that goes on

With more text behind it, the last segment of a source text may turn out to be longer, and the
segment before it as well if only a point is left after it. All other segments stay. A string or a
comment that is not closed is always the last segment, and the one before it stays too.

* **`Segment.Settling`** — texts that say where the segment before them ends.
* **`Segment.next_append`** — such a segment does not see what comes after that text.
* **`exists_segments_of_isOpen`** — the segments before one that is cut short stay.
* **`scan_joint_law`** — scanning across a line end, and scanning a text that is cut short.
-/

namespace Lox

namespace Segment

/-! ## Where a segment ends -/

/-- Whether the text says where the segment before it ends: there is a next character, and after a
point, which may belong to a number, there is another one. -/
def Settling (rest : List Char) : Prop := rest ≠ [] ∧ rest ≠ ['.']

variable {cs : List Char}

theorem slash_append (h : (slash cs).1.isOpen = false) (hrest : (slash cs).2 ≠ [])
    (more : List Char) : slash (cs ++ more) = ((slash cs).1, (slash cs).2 ++ more) := by
  unfold slash at h hrest ⊢
  split at h
  · have hend : List.dropWhile (· != '\n') _ ≠ [] := hrest
    simp only [List.cons_append, line, takeWhile_append_of_dropWhile_ne_nil more hend,
      dropWhile_append_of_dropWhile_ne_nil more hend]
  · exact block_append more h
  · next hline hblock =>
    cases cs with
    | nil => exact absurd rfl hrest
    | cons c cs =>
      split
      · next hcs => exact absurd (by rw [(List.cons.inj hcs).1]) (hline cs)
      · next hcs => exact absurd (by rw [(List.cons.inj hcs).1]) (hblock cs)
      · rfl

theorem number_append (hrest : Settling (number cs).2) (more : List Char) :
    number (cs ++ more) = ((number cs).1, (number cs).2 ++ more) := by
  have hend : cs.dropWhile Char.isDigit ≠ [] := by
    intro hnil
    simp [number, hnil, Settling] at hrest
  unfold number at hrest ⊢
  rw [takeWhile_append_of_dropWhile_ne_nil more hend,
    dropWhile_append_of_dropWhile_ne_nil more hend]
  -- the point and the digit after it are both in the text
  rcases hdrop : cs.dropWhile Char.isDigit with _ | ⟨c, _ | ⟨d, after⟩⟩
  · exact absurd hdrop hend
  · by_cases hc : c = '.'
    · subst hc
      simp [hdrop, Settling] at hrest
    · simp [hc]
  · by_cases hc : c = '.'
    · subst hc
      by_cases hd : d.isDigit = true
      · have hfraction : after.dropWhile Char.isDigit ≠ [] := by
          intro hnil
          simp [hdrop, hd, hnil, Settling] at hrest
        simp [hd, takeWhile_append_of_dropWhile_ne_nil more hfraction,
          dropWhile_append_of_dropWhile_ne_nil more hfraction]
      · simp [hd]
    · simp [hc]

theorem word_append (hrest : (word cs).2 ≠ []) (more : List Char) :
    word (cs ++ more) = ((word cs).1, (word cs).2 ++ more) := by
  have hend : cs.dropWhile isWordPart ≠ [] := hrest
  rw [word, word, takeWhile_append_of_dropWhile_ne_nil more hend,
    dropWhile_append_of_dropWhile_ne_nil more hend]

theorem mark_append {c : Char} (hrest : (mark c cs).2 ≠ []) (more : List Char) :
    mark c (cs ++ more) = ((mark c cs).1, (mark c cs).2 ++ more) := by
  unfold mark at hrest ⊢
  split at hrest
  · rfl
  · cases cs with
    | nil => exact absurd rfl hrest
    | cons d cs =>
      by_cases hd : d = '='
      · subst hd
        rfl
      · simp [hd]
  · rfl

/-- **A segment does not see what comes after a text that says where it ends.** -/
theorem next_append {c : Char} (h : (next c cs).1.isOpen = false) (hrest : Settling (next c cs).2)
    (more : List Char) : next c (cs ++ more) = ((next c cs).1, (next c cs).2 ++ more) := by
  unfold next at h hrest ⊢
  split
  · rfl
  · next hblank =>
    rw [if_neg hblank] at h hrest
    split
    · next hslash =>
      rw [if_pos hslash] at h hrest
      exact slash_append h hrest.1 more
    · next hslash =>
      rw [if_neg hslash] at h hrest
      split
      · next hquote =>
        rw [if_pos hquote] at h
        exact string_append more h
      · next hquote =>
        rw [if_neg hquote] at hrest
        split
        · next hdigit =>
          rw [if_pos hdigit] at hrest
          exact number_append hrest more
        · next hdigit =>
          rw [if_neg hdigit] at hrest
          split
          · next hword =>
            rw [if_pos hword] at hrest
            exact word_append hrest.1 more
          · next hword =>
            rw [if_neg hword] at hrest
            exact mark_append hrest.1 more

/-! ## Segments that are cut short -/

/-- A segment that is cut short is at the end of the text. -/
theorem Form.eq_nil_of_isOpen {content : Content} {text rest : List Char}
    (h : Form content text rest) (hopen : (⟨content, text⟩ : Segment).isOpen = true) :
    rest = [] := by
  have hnumber : ∀ whole fraction,
      (⟨numberContent whole fraction, text⟩ : Segment).isOpen = false := by
    intro whole fraction
    cases hvalue : Decimal.ofDigits? whole fraction <;>
      simp [numberContent, isOpen, Fault.isOpen, hvalue]
  cases h with
  | openComment | openString => rfl
  | whole | fraction => simp [hnumber] at hopen
  | _ => cases hopen

/-- In no text, or in a point alone, nothing is cut short. -/
theorem settling_of_isOpen {cs : List Char} (h : ∃ s ∈ segments cs, s.isOpen = true) :
    Settling cs := by
  obtain ⟨s, hs, hopen⟩ := h
  refine ⟨?_, ?_⟩
  · rintro rfl
    rw [segments_nil] at hs
    cases hs
  · rintro rfl
    have hpoint : Token.singleKind? '.' = some .dot := rfl
    rw [segments_cons, next_of_single [] hpoint, segments_nil] at hs
    rw [List.mem_singleton.1 hs] at hopen
    cases hopen

end Segment

/-- **The segments before one that is cut short stay as they are**, whatever comes behind the
text. -/
theorem exists_segments_of_isOpen {cs : List Char} (h : ∃ s ∈ segments cs, s.isOpen = true) :
    ∃ front last, segments cs = front ++ [last] ∧ last.isOpen = true
      ∧ (∀ s ∈ front, s.isOpen = false) ∧ ∀ more, front <+: segments (cs ++ more) := by
  fun_induction segments cs with
  | case1 =>
    obtain ⟨s, hs, -⟩ := h
    cases hs
  | case2 c cs ih =>
    cases hfirst : (Segment.next c cs).1.isOpen with
    | true =>
      have hrest := (Segment.form_next c cs).eq_nil_of_isOpen hfirst
      rw [hrest, segments_nil]
      exact ⟨[], _, rfl, hfirst, fun s hs => absurd hs List.not_mem_nil,
        fun more => List.nil_prefix⟩
    | false =>
      have hlater : ∃ s ∈ segments (Segment.next c cs).2, s.isOpen = true := by
        obtain ⟨s, hs, hopen⟩ := h
        rcases List.mem_cons.1 hs with rfl | hs
        · rw [hfirst] at hopen
          cases hopen
        · exact ⟨s, hs, hopen⟩
      have hsettling := Segment.settling_of_isOpen hlater
      obtain ⟨front, last, hsegments, hlast, hfront, hbegins⟩ := ih hlater
      refine ⟨(Segment.next c cs).1 :: front, last, ?_, hlast, ?_, fun more => ?_⟩
      · rw [hsegments, List.cons_append]
      · exact List.forall_mem_cons.2 ⟨hfirst, hfront⟩
      · rw [List.cons_append, segments_cons, Segment.next_append hfirst hsettling]
        exact (List.prefix_cons_inj _).2 (hbegins more)

/-! ## Items -/

/-- An error is that of a segment at fault. -/
theorem exists_segment_of_mem_errorsOf {line : Nat} {ss : List Segment} {e : ScanError}
    (h : e ∈ errorsOf (itemsFrom line ss)) : ∃ s ∈ ss, s.content = .fault e.cause := by
  induction ss generalizing line with
  | nil => cases h
  | cons s ss ih =>
    rw [itemsFrom, errorsOf_append, List.mem_append] at h
    rcases h with h | h
    · refine ⟨s, List.mem_cons_self, ?_⟩
      unfold Segment.item? at h
      split at h
      · cases h
      · next hcause =>
        obtain rfl := List.mem_singleton.1 h
        exact hcause
      all_goals cases h
    · obtain ⟨s', hs', hcause⟩ := ih h
      exact ⟨s', List.mem_cons_of_mem s hs', hcause⟩

/-- A segment that is cut short has a fault of this sort. -/
theorem Segment.exists_fault_of_isOpen {s : Segment} (h : s.isOpen = true) :
    ∃ cause, s.content = .fault cause ∧ cause.isOpen = true := by
  unfold Segment.isOpen at h
  split at h
  · next cause hcause => exact ⟨cause, hcause, h⟩
  · cases h

theorem errorsOf_dropLast_subset (items : List ScanItem) :
    errorsOf items.dropLast ⊆ errorsOf items :=
  ((List.dropLast_sublist items).filterMap _).subset

/-- The items of segments of which the last one is at fault. -/
theorem itemsFrom_concat_fault {last : Segment} {cause : Fault} (h : last.content = .fault cause)
    (line : Nat) (front : List Segment) :
    itemsFrom line (front ++ [last])
      = (itemsFrom line front).dropLast
        ++ [.error ⟨cause, line + newlines (front.flatMap (·.text))⟩,
          .ok (Token.eof (line + newlines ((front ++ [last]).flatMap (·.text))))] := by
  rw [itemsFrom_append, itemsFrom, Segment.item?, h, itemsFrom, List.flatMap_append,
    List.flatMap_singleton, newlines_append, Nat.add_assoc]
  rfl

/-- A text that is cut short ends with the error that says so, and the items before it stay as they
are, whatever comes behind the text. -/
theorem exists_scan_of_isOpen {a : String} {e : ScanError} (he : e ∈ errorsOf (scan a))
    (hopen : e.cause.isOpen = true) :
    ∃ before, scan a = before ++ [.error e, .ok (Token.eof (1 + newlines a.toList))]
      ∧ (∀ e' ∈ errorsOf before, e'.cause.isOpen = false)
      ∧ ∀ c, before <+: scan (a ++ c) := by
  obtain ⟨s, hs, hcause⟩ := exists_segment_of_mem_errorsOf he
  have hcut : s.isOpen = true := by
    rw [Segment.isOpen, hcause]
    exact hopen
  obtain ⟨front, last, hsegments, hlast, hfront, hbegins⟩ := exists_segments_of_isOpen ⟨s, hs, hcut⟩
  obtain ⟨cause, hfault, -⟩ := Segment.exists_fault_of_isOpen hlast
  have hscan : scan a = (itemsFrom 1 front).dropLast
      ++ [.error ⟨cause, 1 + newlines (front.flatMap (·.text))⟩,
        .ok (Token.eof (1 + newlines a.toList))] := by
    rw [scan, hsegments, itemsFrom_concat_fault hfault, ← hsegments, flatMap_text_segments]
  have hbefore : ∀ e' ∈ errorsOf (itemsFrom 1 front).dropLast, e'.cause.isOpen = false := by
    intro e' he'
    obtain ⟨s', hs', hcause'⟩ := exists_segment_of_mem_errorsOf (errorsOf_dropLast_subset _ he')
    have hclosed := hfront s' hs'
    rwa [Segment.isOpen, hcause'] at hclosed
  refine ⟨(itemsFrom 1 front).dropLast, ?_, hbefore, fun c => ?_⟩
  · -- of the errors, only the last one can be about what is cut short
    rw [hscan, errorsOf_append, List.mem_append] at he
    rcases he with he | he
    · rw [hbefore e he] at hopen
      cases hopen
    · rw [hscan, List.mem_singleton.1 he]
  · obtain ⟨more, hmore⟩ := hbegins c.toList
    rw [scan, String.toList_append, ← hmore, itemsFrom_append]
    exact List.prefix_append _ _

/-- **Scanning is compositional at line ends.** If no string and no comment of a text is cut short,
then the items of the text stay before its end, and a line end and another text behind it give the
items of that text, further down. If one is, then the error about it is the last item but for the
end, and the items before it stay as they are, whatever comes behind the text. -/
theorem scan_joint_law (a : String) :
    ((∀ e ∈ errorsOf (scan a), e.cause.isOpen = false) →
      ∃ items, scan a = items ++ [.ok (Token.eof (1 + newlines a.toList))]
        ∧ ∀ b, scan (a ++ "\n" ++ b)
          = items ++ (scan b).map (ScanItem.shift (1 + newlines a.toList)))
    ∧ ∀ e ∈ errorsOf (scan a), e.cause.isOpen = true →
      ∃ before, scan a = before ++ [.error e, .ok (Token.eof (1 + newlines a.toList))]
        ∧ (∀ e' ∈ errorsOf before, e'.cause.isOpen = false)
        ∧ ∀ c, before <+: scan (a ++ c) := by
  refine ⟨fun h => ⟨(scan a).dropLast, scan_eq_concat a, fun b => ?_⟩, fun e he hopen => ?_⟩
  · rw [Nat.add_comm 1]
    exact scan_append_newline h b
  · exact exists_scan_of_isOpen he hopen

/-- A text with a character that begins nothing, and one that is also cut short inside a string. -/
theorem scan_joint_law_strayHash :
    errorsOf (scan "#\n1.") = [⟨.unexpectedCharacter '#', 1⟩]
    ∧ (∃ items, scan "#\n1." = items ++ [.ok (Token.eof 2)]
        ∧ ∀ b, scan ("#\n1." ++ "\n" ++ b) = items ++ (scan b).map (ScanItem.shift 2))
    ∧ errorsOf (scan "#\"\n1.") = [⟨.unexpectedCharacter '#', 1⟩, ⟨.unterminatedString, 1⟩]
    ∧ ∃ before, scan "#\"\n1." = before ++ [.error ⟨.unterminatedString, 1⟩, .ok (Token.eof 2)]
        ∧ (∀ e ∈ errorsOf before, e.cause.isOpen = false)
        ∧ ∀ c, before <+: scan ("#\"\n1." ++ c) := by
  have hclosed : errorsOf (scan "#\n1.") = [⟨.unexpectedCharacter '#', 1⟩] := by decide +kernel
  have hcut : errorsOf (scan "#\"\n1.")
      = [⟨.unexpectedCharacter '#', 1⟩, ⟨.unterminatedString, 1⟩] := by decide +kernel
  refine ⟨hclosed, (scan_joint_law "#\n1.").1 ?_, hcut, (scan_joint_law "#\"\n1.").2 _ ?_ rfl⟩
  · rw [hclosed]
    decide
  · rw [hcut]
    decide

end Lox
