import Lox.Proofs.Relabel.Tree
import Lox.Token.Scan

/-!
# Lox — scanning across a line end

A line end separates two source texts: the segments of the first one end there, unless its last
segment is a string or a comment that is not closed. So the texts are scanned one after the
other, and only the line numbers of the second one are shifted.

* **`Segment.next_append_newline`** — the first segment does not see what follows a line end.
* **`segments_append_newline`** — the segments of two texts with a line end between them.
* **`scan_append_newline`** — the items of two texts with a line end between them.
-/

namespace Lox

/-! ## Searching a text -/

section

variable {p : Char → Bool} (cs rest : List Char)

theorem takeWhile_append_newline (hp : p '\n' = false) :
    (cs ++ '\n' :: rest).takeWhile p = cs.takeWhile p := by
  induction cs with
  | nil => rw [List.nil_append, List.takeWhile_cons, hp, List.takeWhile_nil]; rfl
  | cons c cs ih => rw [List.cons_append, List.takeWhile_cons, List.takeWhile_cons, ih]

theorem dropWhile_append_newline (hp : p '\n' = false) :
    (cs ++ '\n' :: rest).dropWhile p = cs.dropWhile p ++ '\n' :: rest := by
  induction cs with
  | nil => rw [List.nil_append, List.dropWhile_cons, hp, List.dropWhile_nil]; rfl
  | cons c cs ih =>
    rw [List.cons_append, List.dropWhile_cons, List.dropWhile_cons, ih]
    split <;> rfl

variable {cs}

theorem takeWhile_append_of_dropWhile_ne_nil (h : cs.dropWhile p ≠ []) :
    (cs ++ rest).takeWhile p = cs.takeWhile p := by
  induction cs with
  | nil => exact absurd rfl h
  | cons c cs ih =>
    rw [List.cons_append, List.takeWhile_cons, List.takeWhile_cons]
    rw [List.dropWhile_cons] at h
    split at h
    · rw [ih h]
    · next hc => simp [hc]

theorem dropWhile_append_of_dropWhile_ne_nil (h : cs.dropWhile p ≠ []) :
    (cs ++ rest).dropWhile p = cs.dropWhile p ++ rest := by
  rw [List.dropWhile_append, if_neg (by simpa using h)]

end

/-! ## The first segment -/

/-- Faults of a literal or comment that the end of the text cuts short. -/
def Fault.isOpen : Fault → Bool
  | .unterminatedString | .unterminatedComment => true
  | .unexpectedCharacter _ | .numberOutOfRange => false

namespace Segment

/-- Whether the segment is cut short by the end of the text. -/
def isOpen (s : Segment) : Bool :=
  match s.content with
  | .fault cause => cause.isOpen
  | _ => false

variable (cs rest : List Char)

/-- A comment that is closed does not see what follows. -/
theorem closeComment?_append {depth : Nat} {cs text after : List Char}
    (h : closeComment? depth cs = some (text, after)) (rest : List Char) :
    closeComment? depth (cs ++ rest) = some (text, after ++ rest) := by
  fun_induction closeComment? depth cs generalizing text after with
  | case1 depth cs ih | case3 depth cs ih =>
    obtain ⟨⟨text', after'⟩, h', hp⟩ := Option.map_eq_some_iff.1 h
    cases hp
    simp only [List.cons_append, closeComment?, ih h', Option.map_some]
  | case2 cs =>
    cases h
    rfl
  | case4 depth c cs hopen hclose₀ hclose ih =>
    obtain ⟨⟨text', after'⟩, h', hp⟩ := Option.map_eq_some_iff.1 h
    cases hp
    cases cs with
    | nil => simp [closeComment?] at h'
    | cons d cs =>
      -- the two characters that decide are both in the text
      rw [List.cons_append, closeComment?.eq_4, ih h']
      · rfl
      · intro cs' hc hcs
        exact hopen cs hc (by rw [(List.cons.inj hcs).1])
      · intro cs' hd hc hcs
        exact hclose₀ cs hd hc (by rw [(List.cons.inj hcs).1])
      · intro n cs' hd hc hcs
        exact hclose n cs hd hc (by rw [(List.cons.inj hcs).1])
  | case5 => cases h

theorem line_append_newline :
    line (cs ++ '\n' :: rest) = ((line cs).1, (line cs).2 ++ '\n' :: rest) := by
  rw [line, line, takeWhile_append_newline _ _ rfl, dropWhile_append_newline _ _ rfl]

theorem block_append {cs : List Char} (h : (block cs).1.isOpen = false) :
    block (cs ++ rest) = ((block cs).1, (block cs).2 ++ rest) := by
  unfold block at h ⊢
  cases hc : closeComment? 0 cs with
  | none => simp [hc, isOpen, Fault.isOpen] at h
  | some found => simp only [closeComment?_append hc]

theorem slash_append_newline {cs : List Char} (h : (slash cs).1.isOpen = false) :
    slash (cs ++ '\n' :: rest) = ((slash cs).1, (slash cs).2 ++ '\n' :: rest) := by
  unfold slash at h ⊢
  split at h
  · exact line_append_newline _ rest
  · exact block_append _ h
  · next hline hblock =>
    cases cs with
    | nil => rfl
    | cons c cs =>
      split
      · next hcs => exact absurd (by rw [(List.cons.inj hcs).1]) (hline cs)
      · next hcs => exact absurd (by rw [(List.cons.inj hcs).1]) (hblock cs)
      · rfl

theorem string_append {cs : List Char} (h : (string cs).1.isOpen = false) :
    string (cs ++ rest) = ((string cs).1, (string cs).2 ++ rest) := by
  -- the closing quote is in the text, or else the string would be open
  have hclosed : cs.dropWhile (· != '"') ≠ [] := by
    intro hnil
    simp [string, hnil, isOpen, Fault.isOpen] at h
  unfold string
  rw [takeWhile_append_of_dropWhile_ne_nil rest hclosed,
    dropWhile_append_of_dropWhile_ne_nil rest hclosed]
  cases hd : cs.dropWhile (· != '"') with
  | nil => exact absurd hd hclosed
  | cons quote after => rfl

theorem number_append_newline :
    number (cs ++ '\n' :: rest) = ((number cs).1, (number cs).2 ++ '\n' :: rest) := by
  unfold number
  rw [takeWhile_append_newline _ _ rfl, dropWhile_append_newline _ _ rfl]
  -- the point and the digit after it are looked for in the text, not beyond the line end
  rcases cs.dropWhile Char.isDigit with _ | ⟨c, _ | ⟨d, after⟩⟩
  · rfl
  · by_cases hc : c = '.'
    · subst hc
      rfl
    · simp [hc]
  · by_cases hc : c = '.'
    · subst hc
      by_cases hd : d.isDigit = true
      · simp [hd, takeWhile_append_newline after rest (p := Char.isDigit) rfl,
          dropWhile_append_newline after rest (p := Char.isDigit) rfl]
      · simp [hd]
    · simp [hc]

theorem word_append_newline :
    word (cs ++ '\n' :: rest) = ((word cs).1, (word cs).2 ++ '\n' :: rest) := by
  rw [word, word, takeWhile_append_newline _ _ rfl, dropWhile_append_newline _ _ rfl]

theorem mark_append_newline (c : Char) :
    mark c (cs ++ '\n' :: rest) = ((mark c cs).1, (mark c cs).2 ++ '\n' :: rest) := by
  unfold mark
  split
  · rfl
  · cases cs with
    | nil => rfl
    | cons d cs =>
      by_cases hd : d = '='
      · subst hd
        rfl
      · simp [hd]
  · rfl

/-- The first segment does not see what follows a line end, unless it is not closed before. -/
theorem next_append_newline (c : Char) {cs : List Char} (h : (next c cs).1.isOpen = false) :
    next c (cs ++ '\n' :: rest) = ((next c cs).1, (next c cs).2 ++ '\n' :: rest) := by
  unfold next at h ⊢
  split
  · rfl
  · next hblank =>
    rw [if_neg hblank] at h
    split
    · next hslash =>
      rw [if_pos hslash] at h
      exact slash_append_newline rest h
    · next hslash =>
      rw [if_neg hslash] at h
      split
      · next hquote =>
        rw [if_pos hquote] at h
        exact string_append _ h
      · split
        · exact number_append_newline (c :: cs) rest
        · split
          · exact word_append_newline (c :: cs) rest
          · exact mark_append_newline cs rest c

end Segment

/-! ## The whole text -/

/-- Two texts with a line end between them fall into the segments of both. -/
theorem segments_append_newline {cs : List Char} (h : ∀ s ∈ segments cs, s.isOpen = false)
    (rest : List Char) :
    segments (cs ++ '\n' :: rest) = segments cs ++ ⟨.blank, ['\n']⟩ :: segments rest := by
  fun_induction segments cs with
  | case1 =>
    rw [List.nil_append, segments_cons]
    rfl
  | case2 c cs ih =>
    obtain ⟨hfirst, hlater⟩ := List.forall_mem_cons.1 h
    have hnext := Segment.next_append_newline rest c hfirst
    -- what is left to scan is the rest of the first text, still with the line end behind it
    rw [List.cons_append, segments_cons, hnext, ih hlater]
    rfl

/-! ## Items -/

/-- The scan error, `k` lines further down. -/
def ScanError.shift (k : Nat) (e : ScanError) : ScanError := ⟨e.cause, e.line + k⟩

/-- The item, `k` lines further down. -/
def ScanItem.shift (k : Nat) : ScanItem → ScanItem
  | .ok t => .ok (t.relabel (Lexeme.shift k))
  | .error e => .error (e.shift k)

theorem Segment.item?_add (s : Segment) (line k : Nat) :
    s.item? (line + k) = (s.item? line).map (ScanItem.shift k) := by
  unfold item?
  cases s.content <;> rfl

/-- Segments that start further down give the same items further down. -/
theorem itemsFrom_add (line k : Nat) (ss : List Segment) :
    itemsFrom (line + k) ss = (itemsFrom line ss).map (ScanItem.shift k) := by
  induction ss generalizing line with
  | nil => rfl
  | cons s ss ih =>
    have hline : line + k + newlines s.text = line + newlines s.text + k := by omega
    rw [itemsFrom, itemsFrom, hline, ih, Segment.item?_add, List.map_append, Option.toList_map]

theorem itemsFrom_ne_nil (line : Nat) (ss : List Segment) : itemsFrom line ss ≠ [] := by
  induction ss generalizing line with
  | nil => exact List.cons_ne_nil _ _
  | cons s ss ih => exact List.append_ne_nil_of_right_ne_nil _ (ih _)

theorem newlines_append (cs ds : List Char) : newlines (cs ++ ds) = newlines cs + newlines ds :=
  List.count_append

/-- Segments after others start on the line that the others end on. -/
theorem itemsFrom_append (line : Nat) (ss ts : List Segment) :
    itemsFrom line (ss ++ ts)
      = (itemsFrom line ss).dropLast ++ itemsFrom (line + newlines (ss.flatMap (·.text))) ts := by
  induction ss generalizing line with
  | nil => rfl
  | cons s ss ih =>
    rw [List.cons_append, itemsFrom, itemsFrom, ih,
      List.dropLast_append_of_ne_nil (itemsFrom_ne_nil _ _), List.append_assoc, List.flatMap_cons,
      newlines_append, Nat.add_assoc]

/-- A segment at fault is reported. -/
theorem exists_mem_errorsOf {ss : List Segment} {s : Segment} (hs : s ∈ ss) {cause : Fault}
    (hcause : s.content = .fault cause) (line : Nat) :
    ∃ e ∈ errorsOf (itemsFrom line ss), e.cause = cause := by
  induction ss generalizing line with
  | nil => cases hs
  | cons t ss ih =>
    rw [itemsFrom, errorsOf, List.filterMap_append]
    rcases List.mem_cons.1 hs with rfl | hs
    · refine ⟨⟨cause, line⟩, List.mem_append_left _ ?_, rfl⟩
      simp [Segment.item?, hcause]
    · obtain ⟨e, he, hcause'⟩ := ih hs (line + newlines t.text)
      exact ⟨e, List.mem_append_right _ he, hcause'⟩

/-- If the end of a text cuts nothing short, then it and another text with a line end between them
are scanned one after the other. -/
theorem scan_append_newline_of_closed {a : String} (h : ∀ s ∈ segments a.toList, s.isOpen = false)
    (b : String) :
    scan (a ++ "\n" ++ b)
      = (scan a).dropLast ++ (scan b).map (ScanItem.shift (newlines a.toList + 1)) := by
  have htext : (a ++ "\n" ++ b).toList = a.toList ++ '\n' :: b.toList := by simp
  -- the line end between the texts is a blank segment that only counts as a line
  have hblank : itemsFrom (1 + newlines a.toList) (⟨.blank, ['\n']⟩ :: segments b.toList)
      = itemsFrom (1 + (newlines a.toList + 1)) (segments b.toList) := rfl
  rw [scan, htext, segments_append_newline h, itemsFrom_append, flatMap_text_segments, hblank,
    itemsFrom_add]
  rfl

/-- A segment that is cut short would be reported. -/
theorem isOpen_eq_false_of_mem_segments {a : String}
    (h : ∀ e ∈ errorsOf (scan a), e.cause.isOpen = false) {s : Segment}
    (hs : s ∈ segments a.toList) : s.isOpen = false := by
  unfold Segment.isOpen
  split
  · next cause hcause =>
    obtain ⟨e, he, rfl⟩ := exists_mem_errorsOf hs hcause 1
    exact h e he
  · rfl

/-- **Two texts with a line end between them are scanned one after the other**, unless the end of
the first text cuts a string or a comment short. -/
theorem scan_append_newline {a : String} (h : ∀ e ∈ errorsOf (scan a), e.cause.isOpen = false)
    (b : String) :
    scan (a ++ "\n" ++ b)
      = (scan a).dropLast ++ (scan b).map (ScanItem.shift (newlines a.toList + 1)) :=
  scan_append_newline_of_closed (fun _ hs => isOpen_eq_false_of_mem_segments h hs) b

theorem mem_errorsOf {items : List ScanItem} {e : ScanError} :
    e ∈ errorsOf items ↔ Except.error e ∈ items := by
  unfold errorsOf
  rw [List.mem_filterMap]
  constructor
  · rintro ⟨item, hitem, he⟩
    cases item with
    | ok t => cases he
    | error e' => exact Option.some.inj he ▸ hitem
  · exact fun he => ⟨.error e, he, rfl⟩

theorem mem_tokensOf {items : List ScanItem} {t : Token} :
    t ∈ tokensOf items ↔ Except.ok t ∈ items := by
  unfold tokensOf
  rw [List.mem_filterMap]
  constructor
  · rintro ⟨item, hitem, ht⟩
    cases item with
    | ok t' => exact Option.some.inj ht ▸ hitem
    | error e => cases ht
  · exact fun ht => ⟨.ok t, ht, rfl⟩

theorem tokensOf_append (items items' : List ScanItem) :
    tokensOf (items ++ items') = tokensOf items ++ tokensOf items' :=
  List.filterMap_append

theorem errorsOf_append (items items' : List ScanItem) :
    errorsOf (items ++ items') = errorsOf items ++ errorsOf items' :=
  List.filterMap_append

theorem tokensOf_shift (k : Nat) (items : List ScanItem) :
    tokensOf (items.map (ScanItem.shift k))
      = (tokensOf items).map (Token.relabel (Lexeme.shift k)) := by
  unfold tokensOf
  rw [List.filterMap_map, List.map_filterMap]
  congr 1
  funext item
  cases item <;> rfl

theorem errorsOf_shift (k : Nat) (items : List ScanItem) :
    errorsOf (items.map (ScanItem.shift k)) = (errorsOf items).map (ScanError.shift k) := by
  unfold errorsOf
  rw [List.filterMap_map, List.map_filterMap]
  congr 1
  funext item
  cases item <;> rfl

/-! ## The end of a source text -/

/-- The end of the source is the last item. -/
theorem scan_eq_concat (a : String) :
    scan a = (scan a).dropLast ++ [.ok (Token.eof (1 + newlines a.toList))] := by
  have hnil := itemsFrom_append 1 (segments a.toList) []
  rw [List.append_nil, flatMap_text_segments] at hnil
  exact hnil

/-- The end token is the last token. -/
theorem tokensOf_scan_eq_concat (a : String) :
    tokensOf (scan a) = tokensOf (scan a).dropLast ++ [Token.eof (1 + newlines a.toList)] := by
  have hconcat := congrArg tokensOf (scan_eq_concat a)
  rw [tokensOf_append] at hconcat
  exact hconcat

/-- The end of the source is no fault. -/
theorem errorsOf_dropLast_scan (a : String) : errorsOf (scan a).dropLast = errorsOf (scan a) := by
  have hconcat := congrArg errorsOf (scan_eq_concat a)
  rw [errorsOf_append] at hconcat
  exact (hconcat.trans (List.append_nil _)).symm

theorem Token.wordKind_ne_eof (word : String) : wordKind word ≠ .eof := by
  unfold wordKind
  cases h : keywords.lookup word with
  | none => simp
  | some kind =>
    obtain ⟨before, after, hkeywords, -⟩ := List.lookup_eq_some_iff.1 h
    have hmem : (word, kind) ∈ keywords := by simp [hkeywords]
    have hall : ∀ entry ∈ keywords, entry.2 ≠ .eof := by decide
    exact hall _ hmem

theorem Token.singleKind?_ne_eof (c : Char) : singleKind? c ≠ some .eof := by
  unfold singleKind?
  split <;> simp

theorem Token.extendableKinds?_ne_eof {c : Char} {alone extended : Kind}
    (h : extendableKinds? c = some (alone, extended)) : alone ≠ .eof ∧ extended ≠ .eof := by
  unfold extendableKinds? at h
  split at h <;> cases h <;> simp

namespace Segment

theorem content_slash_ne_eof (cs : List Char) : (slash cs).1.content ≠ .token .eof := by
  unfold slash
  split
  · simp [line]
  · unfold block
    split <;> simp
  · simp

theorem content_string_ne_eof (cs : List Char) : (string cs).1.content ≠ .token .eof := by
  unfold string
  simp only
  split <;> simp

theorem content_number_ne_eof (cs : List Char) : (number cs).1.content ≠ .token .eof := by
  have hcontent : ∀ whole fraction, numberContent whole fraction ≠ .token .eof := by
    intro whole fraction
    unfold numberContent
    split <;> simp
  unfold number
  simp only
  split
  · split
    · exact hcontent _ _
    · exact hcontent _ _
  · exact hcontent _ _

theorem content_mark_ne_eof (c : Char) (cs : List Char) :
    (mark c cs).1.content ≠ .token .eof := by
  unfold mark
  split
  · next kind hkind =>
    intro h
    exact Token.singleKind?_ne_eof c (hkind.trans (congrArg some (Content.token.inj h)))
  · next alone extended _ hkinds =>
    obtain ⟨halone, hextended⟩ := Token.extendableKinds?_ne_eof hkinds
    split
    · exact fun h => hextended (Content.token.inj h)
    · exact fun h => halone (Content.token.inj h)
  · simp

/-- No segment is an end token. -/
theorem content_next_ne_eof (c : Char) (cs : List Char) :
    (next c cs).1.content ≠ .token .eof := by
  unfold next
  split
  · simp
  · split
    · exact content_slash_ne_eof cs
    · split
      · exact content_string_ne_eof cs
      · split
        · exact content_number_ne_eof (c :: cs)
        · split
          · exact fun h => Token.wordKind_ne_eof _ (Content.token.inj h)
          · exact content_mark_ne_eof c cs

end Segment

theorem exists_next_of_mem_segments {cs : List Char} {s : Segment} (h : s ∈ segments cs) :
    ∃ c rest, s = (Segment.next c rest).1 := by
  fun_induction segments cs with
  | case1 => cases h
  | case2 c cs ih =>
    rcases List.mem_cons.1 h with rfl | h
    · exact ⟨c, cs, rfl⟩
    · exact ih h

/-- Before the end of the source, every token is a segment. -/
theorem exists_segment_of_mem_dropLast {t : Token} {line : Nat} {ss : List Segment}
    (h : .ok t ∈ (itemsFrom line ss).dropLast) :
    ∃ s ∈ ss, s.content = .token t.kind ∧ s.text = t.text.toList := by
  induction ss generalizing line with
  | nil => cases h
  | cons s ss ih =>
    rw [itemsFrom, List.dropLast_append_of_ne_nil (itemsFrom_ne_nil _ _), List.mem_append] at h
    rcases h with h | h
    · -- of the contents of a segment, only a token gives a token
      refine ⟨s, List.mem_cons_self, ?_⟩
      unfold Segment.item? at h
      split at h
      · next kind hkind =>
        simp only [Option.toList_some, List.mem_singleton, Except.ok.injEq] at h
        rw [hkind, h]
        exact ⟨rfl, String.toList_ofList.symm⟩
      all_goals simp at h
    · obtain ⟨s', hs', hsegment⟩ := ih h
      exact ⟨s', List.mem_cons_of_mem _ hs', hsegment⟩

/-- The end token is not among the other items. -/
theorem kind_ne_eof_of_mem_dropLast {a : String} {t : Token}
    (h : t ∈ tokensOf (scan a).dropLast) : t.kind ≠ .eof := by
  intro heof
  obtain ⟨s, hs, hkind, -⟩ := exists_segment_of_mem_dropLast (mem_tokensOf.1 h)
  obtain ⟨c, rest, rfl⟩ := exists_next_of_mem_segments hs
  exact Segment.content_next_ne_eof c rest (heof ▸ hkind)

end Lox
