import Lox.Proofs.Scan.Longest
import Lox.Proofs.Source.Cursor

/-!
# Lox — counting open comments

A comment is an opening, items, and a closing; an item is a comment where an opening stands, and
else a character where no closing stands. A loop with a counter finds the end of a comment as well:
it starts behind the opening with the count 1, adds 1 at each opening and takes 1 away at each
closing, until none is left. The count is that of the comments that are open, so it is never 0 while
the loop goes on.

* **`IsComment`** — the grammar of comments.
* **`CommentLoop.turn`**, **`CommentLoop.turns`** — the loop, from turn to turn.
* **`CommentLoop.Sound`** — the count is positive, and each turn took a character at least.
* **`CommentLoop.turns_eq`** — where the loop ends.
* **`comment_law`** — a text that begins with an opening, by the grammar and by the loop.
-/

namespace Lox

/-! ## The grammar of comments -/

/-- Whether the text is a sequence of items in front of the closing of a comment. -/
inductive CommentItems : List Char → Prop where
  | nil : CommentItems []
  | comment {inner rest : List Char} (hinner : CommentItems inner) (hrest : CommentItems rest) :
      CommentItems ('/' :: '*' :: (inner ++ ['*', '/']) ++ rest)
  | char {c : Char} {rest : List Char} (hopen : ¬ ['/', '*'] <+: c :: (rest ++ ['*', '/']))
      (hclose : ¬ ['*', '/'] <+: c :: (rest ++ ['*', '/'])) (h : CommentItems rest) :
      CommentItems (c :: rest)

/-- Whether the text is a comment: an opening, items, and a closing. -/
def IsComment (text : List Char) : Prop :=
  ∃ items, CommentItems items ∧ text = '/' :: '*' :: (items ++ ['*', '/'])

theorem pair_prefix_cons_iff {a b c : Char} {cs : List Char} :
    [a, b] <+: c :: cs ↔ c = a ∧ cs.head? = some b := by
  rw [List.cons_prefix_cons, eq_comm]
  cases cs <;> simp [eq_comm]

theorem CommentItems.commentTail {items : List Char} (h : CommentItems items) :
    CommentTail (items ++ ['*', '/']) := by
  induction h with
  | nil => exact .close
  | comment _ _ ihinner ihrest =>
    have hnested := CommentTail.nested ihinner ihrest
    simpa using hnested
  | char hopen hclose _ ih =>
    exact .other ((not_congr pair_prefix_cons_iff).1 hopen)
      ((not_congr pair_prefix_cons_iff).1 hclose) ih

theorem CommentTail.exists_items {tail : List Char} (h : CommentTail tail) :
    ∃ items, CommentItems items ∧ tail = items ++ ['*', '/'] := by
  induction h with
  | close => exact ⟨[], .nil, rfl⟩
  | nested _ _ ihinner ihtail =>
    obtain ⟨inner, hinner, rfl⟩ := ihinner
    obtain ⟨rest, hrest, rfl⟩ := ihtail
    exact ⟨_, .comment hinner hrest, by simp⟩
  | @other c tail hopen hclose _ ih =>
    obtain ⟨items, hitems, rfl⟩ := ih
    have hchar := CommentItems.char ((not_congr pair_prefix_cons_iff).2 hopen)
      ((not_congr pair_prefix_cons_iff).2 hclose) hitems
    exact ⟨c :: items, hchar, rfl⟩

theorem isComment_iff {text : List Char} :
    IsComment text ↔ ∃ tail, CommentTail tail ∧ text = '/' :: '*' :: tail := by
  constructor
  · rintro ⟨items, hitems, rfl⟩
    exact ⟨_, hitems.commentTail, rfl⟩
  · rintro ⟨tail, htail, rfl⟩
    obtain ⟨items, hitems, rfl⟩ := htail.exists_items
    exact ⟨items, hitems, rfl⟩

/-! ## The loop -/

/-- The loop that looks for the end of a comment: it goes on with a count, or it has ended, because
the comment is closed, because the text is, or because the count was to fall below 0. -/
inductive CommentLoop where
  | goesOn (depth : Nat) (cursor : Cursor)
  | closed (cursor : Cursor)
  | unterminated (cursor : Cursor)
  | underflow

namespace CommentLoop

/-- One turn of the loop, if it goes on. It reads a character, and the next one as well if both are
an opening or a closing. -/
def turn : CommentLoop → CommentLoop
  | .goesOn depth cursor =>
    match cursor.next with
    | (none, cursor) => .unterminated cursor
    | (some ch, cursor) =>
      if ch = '/' ∧ (cursor.nextIf '*').1 then .goesOn (depth + 1) (cursor.nextIf '*').2
      else if ch = '*' ∧ (cursor.nextIf '/').1 then
        match depth with
        | 0 => .underflow
        | 1 => .closed (cursor.nextIf '/').2
        | depth + 2 => .goesOn (depth + 1) (cursor.nextIf '/').2
      else .goesOn depth cursor
  | ended => ended

/-- The loop after `n` turns. -/
def turns : Nat → CommentLoop → CommentLoop
  | 0, loop => loop
  | n + 1, loop => turns n loop.turn

section

variable {depth : Nat} {c : Cursor} {ch : Char} {cs : List Char}

theorem turn_end (h : c.rest = []) : (goesOn depth c).turn = .unterminated c := by
  simp [turn, Cursor.next, h]

theorem turn_open (h : c.rest = '/' :: '*' :: cs) :
    (goesOn depth c).turn = .goesOn (depth + 1) (c.nexts 2) := by
  have hpeek : (c.nexts 1).peek = some '*' := by rw [Cursor.peek, Cursor.rest_nexts, h]; rfl
  simp only [turn, Cursor.next_of_rest h, Cursor.nextIf_of_peek hpeek, Cursor.nexts_add]
  rfl

theorem turn_close (h : c.rest = '*' :: '/' :: cs) :
    (goesOn (depth + 1) c).turn
      = if depth = 0 then .closed (c.nexts 2) else .goesOn depth (c.nexts 2) := by
  have hpeek : (c.nexts 1).peek = some '/' := by rw [Cursor.peek, Cursor.rest_nexts, h]; rfl
  simp only [turn, Cursor.next_of_rest h, Cursor.nextIf_of_peek hpeek, Cursor.nexts_add]
  cases depth <;> rfl

theorem turn_other (h : c.rest = ch :: cs) (hopen : ¬ (ch = '/' ∧ cs.head? = some '*'))
    (hclose : ¬ (ch = '*' ∧ cs.head? = some '/')) :
    (goesOn depth c).turn = .goesOn depth (c.nexts 1) := by
  have hpeek : (c.nexts 1).peek = cs.head? := by rw [Cursor.peek, Cursor.rest_nexts, h]; rfl
  have hno : ∀ {first second : Char}, ¬ (ch = first ∧ cs.head? = some second) →
      ¬ (ch = first ∧ ((c.nexts 1).nextIf second).1 = true) := by
    rintro first second hnot ⟨hfirst, hnext⟩
    have hne : (c.nexts 1).peek ≠ some second := fun heq => hnot ⟨hfirst, hpeek ▸ heq⟩
    rw [Cursor.nextIf_of_peek_ne hne] at hnext
    cases hnext
  simp only [turn, Cursor.next_of_rest h, if_neg (hno hopen), if_neg (hno hclose)]

theorem turns_succ (n : Nat) (loop : CommentLoop) : turns (n + 1) loop = turns n loop.turn := rfl

/-- A loop that has ended does not change. -/
theorem turns_ended {loop : CommentLoop} (h : loop.turn = loop) (n : Nat) :
    turns n loop = loop := by
  induction n with
  | zero => rfl
  | succ n ih => rw [turns_succ, h, ih]

end

/-! ## The count -/

/-- Whether a loop over `total` characters that took `n` turns is sound: it did not count below 0,
and while it goes on, a comment at least is open, and no more than that and one for each turn, and
each turn took a character at least. -/
def Sound (total n : Nat) : CommentLoop → Prop
  | .goesOn depth cursor => 1 ≤ depth ∧ depth ≤ n + 1 ∧ cursor.rest.length + n ≤ total
  | .closed _ | .unterminated _ => True
  | .underflow => False

variable {total n : Nat} {loop : CommentLoop}

/-- **A turn keeps the loop sound.** -/
theorem Sound.turn (h : loop.Sound total n) : loop.turn.Sound total (n + 1) := by
  cases loop with
  | goesOn depth c =>
    obtain ⟨hpos, hmax, hleft⟩ := h
    rcases hrest : c.rest with _ | ⟨ch, cs⟩
    · rw [turn_end hrest]
      trivial
    · by_cases hopen : ch = '/' ∧ cs.head? = some '*'
      · obtain ⟨rfl, hstar⟩ := hopen
        obtain ⟨cs, rfl⟩ := List.head?_eq_some_iff.1 hstar
        rw [turn_open hrest]
        have hlength : (c.nexts 2).rest.length + 2 = c.rest.length := by
          rw [Cursor.rest_nexts, hrest]
          rfl
        exact ⟨by omega, by omega, by omega⟩
      · by_cases hclose : ch = '*' ∧ cs.head? = some '/'
        · obtain ⟨rfl, hslash⟩ := hclose
          obtain ⟨cs, rfl⟩ := List.head?_eq_some_iff.1 hslash
          obtain ⟨depth, rfl⟩ := Nat.exists_eq_add_of_le' hpos
          rw [turn_close hrest]
          have hlength : (c.nexts 2).rest.length + 2 = c.rest.length := by
            rw [Cursor.rest_nexts, hrest]
            rfl
          split
          · trivial
          · exact ⟨by omega, by omega, by omega⟩
        · rw [turn_other hrest hopen hclose]
          have hlength : (c.nexts 1).rest.length + 1 = c.rest.length := by
            rw [Cursor.rest_nexts, hrest]
            rfl
          exact ⟨hpos, by omega, by omega⟩
  | closed | unterminated => trivial
  | underflow => exact h

theorem Sound.turns (h : loop.Sound total n) (m : Nat) :
    (turns m loop).Sound total (n + m) := by
  induction m generalizing loop n with
  | zero => exact h
  | succ m ih =>
    have hrest := ih h.turn
    rwa [Nat.add_right_comm, Nat.add_assoc] at hrest

/-! ## Where the loop ends -/

/-- How the loop ends, with the text up to the end of the comment if there is one. -/
def ending (c : Cursor) : Option (List Char × List Char) → CommentLoop
  | some (text, _) => .closed (c.nexts text.length)
  | none => .unterminated (c.nexts c.rest.length)

theorem ending_map {c : Cursor} {lead cs : List Char} (h : c.rest = lead ++ cs)
    (found : Option (List Char × List Char)) :
    ending c (found.map fun p => (lead ++ p.1, p.2)) = ending (c.nexts lead.length) found := by
  cases found with
  | none =>
    have hlength : c.rest.length = lead.length + (c.nexts lead.length).rest.length := by
      rw [Cursor.rest_nexts_length h, h, List.length_append]
    show unterminated (c.nexts c.rest.length) = unterminated ((c.nexts lead.length).nexts _)
    rw [hlength, Cursor.nexts_add]
  | some p => simp [ending, Cursor.nexts_add]

/-- After a turn that moves over `lead`, the loop ends as it does behind `lead`. -/
theorem turns_succ_of_turn {depth depth' : Nat} {c : Cursor} {lead cs : List Char}
    {found : Option (List Char × List Char)} (hlead : c.rest = lead ++ cs)
    (hturn : (goesOn depth c).turn = .goesOn depth' (c.nexts lead.length))
    (hend : turns n (.goesOn depth' (c.nexts lead.length)) = ending (c.nexts lead.length) found) :
    turns (n + 1) (.goesOn depth c) = ending c (found.map fun p => (lead ++ p.1, p.2)) := by
  rw [turns_succ, hturn, hend, ending_map hlead]

/-- **The loop ends where the comment does**, within as many turns as there are characters and one
more. -/
theorem turns_eq {depth : Nat} {c : Cursor} {cs : List Char} (hc : c.rest = cs)
    (hn : cs.length < n) :
    turns n (.goesOn (depth + 1) c) = ending c (Segment.closeComment? depth cs) := by
  induction n generalizing depth c cs with
  | zero => cases hn
  | succ n ih =>
    have hbehind : ∀ {lead cs' : List Char} (depth : Nat), cs = lead ++ cs' → 0 < lead.length →
        turns n (.goesOn (depth + 1) (c.nexts lead.length))
          = ending (c.nexts lead.length) (Segment.closeComment? depth cs') := by
      intro lead cs' depth hcs hlead
      refine ih (Cursor.rest_nexts_length (hc.trans hcs)) ?_
      rw [hcs, List.length_append] at hn
      omega
    fun_cases Segment.closeComment? depth cs with
    | case1 depth cs =>
      have hlead : c.rest = ['/', '*'] ++ cs := hc
      exact turns_succ_of_turn hlead (turn_open hc) (hbehind (depth + 1) rfl Nat.two_pos)
    | case2 cs =>
      rw [turns_succ, turn_close hc, if_pos rfl]
      exact turns_ended rfl n
    | case3 depth cs =>
      have hlead : c.rest = ['*', '/'] ++ cs := hc
      have hturn : (goesOn (depth + 1 + 1) c).turn = .goesOn (depth + 1) (c.nexts 2) :=
        (turn_close hc).trans (if_neg (Nat.succ_ne_zero depth))
      exact turns_succ_of_turn hlead hturn (hbehind depth rfl Nat.two_pos)
    | case4 depth ch cs hopen hclose₀ hclose =>
      have hlead : c.rest = [ch] ++ cs := hc
      refine turns_succ_of_turn hlead (turn_other hc ?_ ?_) (hbehind depth rfl Nat.one_pos)
      · rintro ⟨hslash, hstar⟩
        obtain ⟨cs', rfl⟩ := List.head?_eq_some_iff.1 hstar
        exact hopen cs' hslash rfl
      · rintro ⟨hstar, hslash⟩
        obtain ⟨cs', rfl⟩ := List.head?_eq_some_iff.1 hslash
        cases depth with
        | zero => exact hclose₀ cs' rfl hstar rfl
        | succ depth => exact hclose depth cs' rfl hstar rfl
    | case5 =>
      rw [turns_succ, turn_end hc, turns_ended rfl, ending, hc]
      rfl

end CommentLoop

/-! ## Texts that begin with an opening -/

section

variable {r : String}

/-- The first segment of such a text is what stands behind the opening. -/
theorem segments_opening (r : String) :
    segments ("/*" ++ r).toList
      = (Segment.block r.toList).1 :: segments (Segment.block r.toList).2 := by
  have htext : ("/*" ++ r).toList = '/' :: '*' :: r.toList := by simp
  rw [htext, segments_cons]
  rfl

/-- What stands behind the opening of a comment at the start of the text. -/
theorem exists_tail_of_isComment {c rest : String} (h : "/*" ++ r = c ++ rest)
    (hc : IsComment c.toList) :
    ∃ tail, CommentTail tail ∧ c.toList = '/' :: '*' :: tail ∧ r.toList = tail ++ rest.toList := by
  obtain ⟨tail, htail, hcomment⟩ := isComment_iff.1 hc
  refine ⟨tail, htail, hcomment, ?_⟩
  have htext := congrArg String.toList h
  rw [String.toList_append, String.toList_append, hcomment] at htext
  simpa using htext

theorem scan_of_isComment {c rest : String} (h : "/*" ++ r = c ++ rest) (hc : IsComment c.toList) :
    scan ("/*" ++ r) = (scan rest).map (ScanItem.shift (newlines c.toList)) := by
  obtain ⟨tail, htail, hcomment, hr⟩ := exists_tail_of_isComment h hc
  rw [scan, segments_opening, hr, Segment.block_of_commentTail htail, ← hcomment, itemsFrom,
    itemsFrom_add]
  rfl

/-- If the text begins with no comment, nothing behind the opening closes it. -/
theorem open_of_not_isComment
    (h : ¬ ∃ c rest : String, "/*" ++ r = c ++ rest ∧ IsComment c.toList) :
    ∀ tail, CommentTail tail → ¬ tail <+: r.toList := by
  rintro tail htail ⟨rest, hrest⟩
  refine h ⟨String.ofList ('/' :: '*' :: tail), String.ofList rest, ?_, ?_⟩
  · apply String.toList_injective
    simp [← hrest]
  · rw [String.toList_ofList]
    exact isComment_iff.2 ⟨tail, htail, rfl⟩

theorem scan_of_not_isComment
    (h : ¬ ∃ c rest : String, "/*" ++ r = c ++ rest ∧ IsComment c.toList) :
    scan ("/*" ++ r)
      = [.error ⟨.unterminatedComment, 1⟩, .ok (Token.eof (1 + newlines r.toList))] := by
  have hlines : newlines ('/' :: '*' :: r.toList) = newlines r.toList := rfl
  rw [scan, segments_opening, Segment.block_of_open (open_of_not_isComment h), segments_nil,
    itemsFrom, itemsFrom, hlines]
  rfl

/-- Where the loop ends if there is a comment. -/
theorem turns_of_isComment {c rest : String} (h : "/*" ++ r = c ++ rest) (hc : IsComment c.toList)
    {cursor : Cursor} (hcursor : cursor.rest = r.toList) {n : Nat} (hn : r.length < n) :
    ∃ after, CommentLoop.turns n (.goesOn 1 cursor) = .closed after ∧ after.rest = rest.toList
      ∧ after.line = cursor.line + newlines c.toList := by
  obtain ⟨tail, htail, hcomment, hr⟩ := exists_tail_of_isComment h hc
  rw [hr] at hcursor
  have hlength : (tail ++ rest.toList).length < n := by rwa [← hr, String.length_toList]
  have hturns : CommentLoop.turns n (.goesOn 1 cursor)
      = CommentLoop.ending cursor (Segment.closeComment? 0 (tail ++ rest.toList)) :=
    CommentLoop.turns_eq hcursor hlength
  rw [closeComment?_zero_eq_some_iff.2 ⟨htail, rfl⟩] at hturns
  refine ⟨_, hturns, Cursor.rest_nexts_length hcursor, ?_⟩
  rw [Cursor.line_nexts hcursor, hcomment]
  rfl

/-- Where the loop ends if there is none. -/
theorem turns_of_not_isComment
    (h : ¬ ∃ c rest : String, "/*" ++ r = c ++ rest ∧ IsComment c.toList)
    {cursor : Cursor} (hcursor : cursor.rest = r.toList) {n : Nat} (hn : r.length < n) :
    ∃ after, CommentLoop.turns n (.goesOn 1 cursor) = .unterminated after ∧ after.rest = []
      ∧ after.line = cursor.line + newlines r.toList := by
  have hlength : r.toList.length < n := by rwa [String.length_toList]
  have hturns : CommentLoop.turns n (.goesOn 1 cursor)
      = CommentLoop.ending cursor (Segment.closeComment? 0 r.toList) :=
    CommentLoop.turns_eq hcursor hlength
  rw [Segment.closeComment?_of_open (open_of_not_isComment h)] at hturns
  have hwhole : cursor.rest = cursor.rest ++ [] := (List.append_nil _).symm
  refine ⟨_, hturns, Cursor.rest_nexts_length hwhole, ?_⟩
  rw [Cursor.line_nexts hwhole, hcursor]

/-- **Counting finds the end of the comment that the grammar finds.** If a text that begins with an
opening begins with a comment, then what is scanned is the text behind the comment, further down,
and if not, a comment that is not closed, and nothing else. The loop ends behind the comment, or
else at the end of the text, within as many turns as there are characters behind the opening and one
more. Until then the count is at least 1, and it is never to fall below 0. -/
theorem comment_law (r : String) :
    (∀ c rest : String, "/*" ++ r = c ++ rest → IsComment c.toList →
      scan ("/*" ++ r) = (scan rest).map (ScanItem.shift (newlines c.toList))
      ∧ ∀ cursor : Cursor, cursor.rest = r.toList → ∀ n, r.length < n →
        ∃ after, CommentLoop.turns n (.goesOn 1 cursor) = .closed after ∧ after.rest = rest.toList
          ∧ after.line = cursor.line + newlines c.toList)
    ∧ ((¬ ∃ c rest : String, "/*" ++ r = c ++ rest ∧ IsComment c.toList) →
      scan ("/*" ++ r)
        = [.error ⟨.unterminatedComment, 1⟩, .ok (Token.eof (1 + newlines r.toList))]
      ∧ ∀ cursor : Cursor, cursor.rest = r.toList → ∀ n, r.length < n →
        ∃ after, CommentLoop.turns n (.goesOn 1 cursor) = .unterminated after ∧ after.rest = []
          ∧ after.line = cursor.line + newlines r.toList)
    ∧ ∀ (cursor : Cursor) (n : Nat), CommentLoop.turns n (.goesOn 1 cursor) ≠ .underflow
      ∧ ∀ depth after, CommentLoop.turns n (.goesOn 1 cursor) = .goesOn depth after →
        1 ≤ depth ∧ depth ≤ n + 1 ∧ after.rest.length + n ≤ cursor.rest.length := by
  refine ⟨fun c rest h hc => ⟨scan_of_isComment h hc, ?_⟩,
    fun h => ⟨scan_of_not_isComment h, ?_⟩, fun cursor n => ?_⟩
  · exact fun cursor hcursor n hn => turns_of_isComment h hc hcursor hn
  · exact fun cursor hcursor n hn => turns_of_not_isComment h hcursor hn
  · have hstart : (CommentLoop.goesOn 1 cursor).Sound cursor.rest.length 0 :=
      ⟨Nat.le_refl 1, Nat.le_refl 1, Nat.le_refl _⟩
    have hsound := hstart.turns n
    rw [Nat.zero_add] at hsound
    refine ⟨fun hunder => ?_, fun depth after hgoes => ?_⟩
    · rw [hunder] at hsound
      exact hsound
    · rw [hgoes] at hsound
      exact hsound

end

/-- A comment with another one and a line end in it, and an opening of which the star is not that of
a closing as well. -/
theorem comment_law_sharedStar :
    "/*" ++ "/**/\n*/1" = "/*/**/\n*/" ++ "1"
    ∧ IsComment "/*/**/\n*/".toList
    ∧ scan ("/*" ++ "/**/\n*/1") = (scan "1").map (ScanItem.shift 1)
    ∧ (∃ after, CommentLoop.turns 9 (.goesOn 1 (Cursor.ofString "/**/\n*/1")) = .closed after
      ∧ after.rest = "1".toList ∧ after.line = 2)
    ∧ (¬ ∃ c rest : String, "/*" ++ "/ 1" = c ++ rest ∧ IsComment c.toList)
    ∧ scan ("/*" ++ "/ 1") = [.error ⟨.unterminatedComment, 1⟩, .ok (Token.eof 1)]
    ∧ ∃ after, CommentLoop.turns 4 (.goesOn 1 (Cursor.ofString "/ 1")) = .unterminated after
      ∧ after.rest = [] ∧ after.line = 1 := by
  have hcomment : IsComment "/*/**/\n*/".toList :=
    ⟨"/**/\n".toList, .comment .nil (.char (by decide) (by decide) .nil), by decide⟩
  have hnone : ¬ ∃ c rest : String, "/*" ++ "/ 1" = c ++ rest ∧ IsComment c.toList := by
    rintro ⟨c, rest, h, hc⟩
    obtain ⟨tail, htail, -, hr⟩ := exists_tail_of_isComment h hc
    have hsome := closeComment?_zero_eq_some_iff.2 ⟨htail, hr.symm⟩
    have hopen : Segment.closeComment? 0 "/ 1".toList = none := by decide
    rw [hopen] at hsome
    cases hsome
  obtain ⟨hscan, hloop⟩ := (comment_law "/**/\n*/1").1 "/*/**/\n*/" "1" (by decide) hcomment
  obtain ⟨hscan', hloop'⟩ := (comment_law "/ 1").2.1 hnone
  exact ⟨by decide, hcomment, hscan, hloop (Cursor.ofString _) rfl 9 (by decide), hnone, hscan',
    hloop' (Cursor.ofString _) rfl 4 (by decide)⟩

end Lox
