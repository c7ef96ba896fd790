import Lox.Proofs.Scan.Joint
import Lox.Source.Cursor

/-!
# Lox — where a cursor stands

All that a cursor can do is to move over the next character, some number of times. So where it stands
is settled by the characters that it has moved over: they and the rest are the source, and the line
and the offset count their line ends and their bytes. What it has not moved over yet, it sees as the
answers that later moves will give; what it has, it can give back as a slice.

* **`Cursor.nexts`**, **`Cursor.moved`** — a number of moves, and what they answer.
* **`Cursor.Stands`** — the place behind some characters of a source.
* **`Cursor.Stands.next`**, **`Cursor.Stands.nexts`** — moves lead from place to place.
* **`Cursor.Stands.isSome_sliceFrom?_iff`** — which slices there are.
* **`Cursor.EatLoop`**, **`Cursor.Eats`** — moving while a test holds, from turn to turn and in all.
* **`Cursor.Call`** — all that can be asked of a cursor.
* **`Cursor.call_law`** — any calls on a new cursor.
-/

namespace Lox

namespace Cursor

variable {c : Cursor} {ch : Char} {cs : List Char}

/-! ## Moves -/

/-- The cursor after `n` moves. -/
def nexts : Nat → Cursor → Cursor
  | 0, c => c
  | n + 1, c => nexts n c.next.2

/-- The characters that `n` moves answer. -/
def moved : Nat → Cursor → List Char
  | 0, _ => []
  | n + 1, c => c.next.1.toList ++ moved n c.next.2

theorem next_of_nil (h : c.rest = []) : c.next = (none, c) := by
  simp only [next, h]

theorem next_of_cons (h : c.rest = ch :: cs) : c.next = (some ch, c.advance ch cs) := by
  simp only [next, h]

theorem next_of_rest (h : c.rest = ch :: cs) : c.next = (some ch, c.nexts 1) := by
  rw [nexts, nexts, next_of_cons h]

theorem rest_next (c : Cursor) : c.next.2.rest = c.rest.tail := by
  unfold next
  split <;> simp [*, advance]

theorem line_next (h : c.rest = ch :: cs) : c.next.2.line = c.line + newlines [ch] := by
  simp only [next, h, advance, lineAfter, newlines, List.count_singleton, beq_iff_eq]
  split <;> simp_all

theorem rest_nexts (n : Nat) (c : Cursor) : (c.nexts n).rest = c.rest.drop n := by
  induction n generalizing c with
  | zero => rfl
  | succ n ih => rw [nexts, ih, rest_next, List.drop_tail]

theorem rest_nexts_length {text rest : List Char} (h : c.rest = text ++ rest) :
    (c.nexts text.length).rest = rest := by
  rw [rest_nexts, h, List.drop_left]

/-- The line is that of the line ends that the cursor has moved over. -/
theorem line_nexts {text rest : List Char} (h : c.rest = text ++ rest) :
    (c.nexts text.length).line = c.line + newlines text := by
  induction text generalizing c with
  | nil => rfl
  | cons ch text ih =>
    have hrest : c.next.2.rest = text ++ rest := by
      rw [rest_next, h]
      rfl
    rw [List.length_cons, nexts, ih hrest, line_next h, Nat.add_assoc, ← newlines_append]
    rfl

theorem nexts_add (m n : Nat) (c : Cursor) : (c.nexts m).nexts n = c.nexts (m + n) := by
  induction m generalizing c with
  | zero => rw [nexts, Nat.zero_add]
  | succ m ih => rw [nexts, ih, Nat.add_right_comm, nexts]

theorem moved_eq (n : Nat) (c : Cursor) : c.moved n = c.rest.take n := by
  induction n generalizing c with
  | zero => rfl
  | succ n ih =>
    rw [moved, ih, rest_next]
    unfold next
    split <;> simp [*]

theorem nextIf_of_peek {expected : Char} (h : c.peek = some expected) :
    c.nextIf expected = (true, c.nexts 1) := if_pos h

theorem nextIf_of_peek_ne {expected : Char} (h : c.peek ≠ some expected) :
    c.nextIf expected = (false, c) := if_neg h

theorem next_fst (c : Cursor) : c.next.1 = c.peek := by
  rw [peek]
  unfold next
  split <;> simp [*]

theorem peekNext_eq (c : Cursor) : c.peekNext = c.next.2.next.1 := by
  rw [next_fst, peek, rest_next, peekNext]

/-- An expected character is moved over if it comes next, and this is the answer. -/
theorem nextIf_cases (c : Cursor) (expected : Char) :
    ((c.nextIf expected).1 = true ∧ c.peek = some expected
      ∧ c.rest = expected :: (c.nextIf expected).2.rest)
    ∨ ((c.nextIf expected).1 = false ∧ c.peek ≠ some expected ∧ (c.nextIf expected).2 = c) := by
  by_cases hpeek : c.peek = some expected
  · obtain ⟨rest, hrest⟩ := List.head?_eq_some_iff.1 hpeek
    refine .inl ⟨?_, hpeek, ?_⟩
    · rw [nextIf_of_peek hpeek]
    · rw [nextIf_of_peek hpeek, rest_nexts, hrest]
      rfl
  · refine .inr ⟨?_, hpeek, ?_⟩ <;> rw [nextIf_of_peek_ne hpeek]

/-! ## Places -/

/-- The cursor stands in the source behind the characters `taken`. -/
structure Stands (source : String) (taken : List Char) (c : Cursor) : Prop where
  source_eq : c.source = source.toList
  split : taken ++ c.rest = source.toList
  line : c.line = 1 + newlines taken
  offset : c.offset = (String.ofList taken).utf8ByteSize

namespace Stands

variable {source : String} {taken : List Char}

theorem start (source : String) : Stands source [] (ofString source) := ⟨rfl, rfl, rfl, rfl⟩

/-- A move leads behind the character that it answers. -/
theorem next (h : Stands source taken c) :
    Stands source (taken ++ c.next.1.toList) c.next.2 := by
  rcases hrest : c.rest with _ | ⟨ch, rest⟩
  · simpa [next_of_nil hrest] using h
  · have hline := line_next hrest
    rw [next_of_cons hrest] at hline ⊢
    refine ⟨h.source_eq, ?_, ?_, ?_⟩
    · rw [← h.split, hrest]
      simp [advance]
    · rw [hline, h.line, Nat.add_assoc, ← newlines_append]
      rfl
    · simp [advance, h.offset]

/-- Moves lead behind the characters that they answer. -/
theorem nexts (h : Stands source taken c) (n : Nat) :
    Stands source (taken ++ c.moved n) (c.nexts n) := by
  induction n generalizing c taken with
  | zero => simpa [moved, Cursor.nexts] using h
  | succ n ih =>
    rw [moved, ← List.append_assoc]
    exact ih h.next

theorem consumed_eq (h : Stands source taken c) : c.consumed = taken := by
  rw [consumed, h.source_eq, ← h.split, List.length_append, Nat.add_sub_cancel, List.take_left]

end Stands

/-! ## Slices -/

theorem utf8ByteSize_ofList_cons (ch : Char) (cs : List Char) :
    (String.ofList (ch :: cs)).utf8ByteSize = ch.utf8Size + (String.ofList cs).utf8ByteSize := by
  rw [String.ofList_cons, String.utf8ByteSize_append, String.utf8ByteSize_singleton]

theorem utf8ByteSize_ofList_append (cs ds : List Char) :
    (String.ofList (cs ++ ds)).utf8ByteSize
      = (String.ofList cs).utf8ByteSize + (String.ofList ds).utf8ByteSize := by
  rw [String.ofList_append, String.utf8ByteSize_append]

theorem utf8ByteSize_ofList_eq_zero {cs : List Char} :
    (String.ofList cs).utf8ByteSize = 0 ↔ cs = [] := by
  simp

/-- A text without its first bytes is what stands behind a beginning of that many bytes. -/
theorem dropBytes?_eq_some_iff {n : Nat} {text : List Char} :
    dropBytes? n cs = some text
      ↔ ∃ lead, cs = lead ++ text ∧ (String.ofList lead).utf8ByteSize = n := by
  constructor
  · intro h
    fun_induction dropBytes? n cs with
    | case1 cs =>
      cases h
      exact ⟨[], rfl, rfl⟩
    | case2 n => cases h
    | case3 n ch cs hfits ih =>
      obtain ⟨lead, rfl, hsize⟩ := ih h
      exact ⟨ch :: lead, rfl, by rw [utf8ByteSize_ofList_cons, hsize, Nat.add_sub_cancel' hfits]⟩
    | case4 n ch cs h => cases h
  · rintro ⟨lead, rfl, rfl⟩
    induction lead with
    | nil => cases text <;> rfl
    | cons ch lead ih =>
      rw [utf8ByteSize_ofList_cons]
      obtain ⟨n, hn⟩ : ∃ n, ch.utf8Size + (String.ofList lead).utf8ByteSize = n + 1 :=
        Nat.exists_eq_add_one.2 (Nat.add_pos_left ch.utf8Size_pos _)
      have hfits : ch.utf8Size ≤ n + 1 := hn ▸ Nat.le_add_right _ _
      rw [hn, List.cons_append, dropBytes?, if_pos hfits, ← hn, Nat.add_sub_cancel_left, ih]

namespace Stands

variable {source : String} {taken : List Char} {start : Nat}

/-- A slice is what stands between the first `start` bytes and the cursor. -/
theorem sliceFrom?_eq_some_iff (h : Stands source taken c) {text : String} :
    c.sliceFrom? start = some text
      ↔ ∃ lead, taken = lead ++ text.toList ∧ (String.ofList lead).utf8ByteSize = start := by
  rw [sliceFrom?, h.consumed_eq, Option.map_eq_some_iff]
  constructor
  · rintro ⟨cs, hcs, rfl⟩
    rw [String.toList_ofList]
    exact dropBytes?_eq_some_iff.1 hcs
  · intro hlead
    exact ⟨text.toList, dropBytes?_eq_some_iff.2 hlead, String.ofList_toList⟩

/-- There is a slice from `start` on if that is not beyond the cursor, and a character begins or the
source ends there. -/
theorem isSome_sliceFrom?_iff (h : Stands source taken c) :
    (c.sliceFrom? start).isSome = true
      ↔ start ≤ c.offset ∧ String.Pos.Raw.IsValid source ⟨start⟩ := by
  rw [Option.isSome_iff_exists, String.Pos.Raw.isValid_iff_exists_append, h.offset]
  constructor
  · rintro ⟨text, htext⟩
    obtain ⟨lead, rfl, rfl⟩ := h.sliceFrom?_eq_some_iff.1 htext
    refine ⟨?_, String.ofList lead, text ++ String.ofList c.rest, ?_, rfl⟩
    · rw [utf8ByteSize_ofList_append]
      exact Nat.le_add_right _ _
    · apply String.toList_injective
      rw [← h.split]
      simp
  · rintro ⟨hle, before, behind, hsource, hstart⟩
    obtain rfl : start = before.utf8ByteSize := congrArg String.Pos.Raw.byteIdx hstart
    have hsplit : taken ++ c.rest = before.toList ++ behind.toList := by
      rw [h.split, hsource, String.toList_append]
    rcases List.append_eq_append_iff.1 hsplit with ⟨more, hmore, -⟩ | ⟨text, rfl, -⟩
    · -- then it is the place of the cursor itself
      have hsize : before.utf8ByteSize
          = (String.ofList taken).utf8ByteSize + (String.ofList more).utf8ByteSize := by
        rw [← utf8ByteSize_ofList_append, ← hmore, String.ofList_toList]
      obtain rfl : more = [] := utf8ByteSize_ofList_eq_zero.1 (by omega)
      exact ⟨"", h.sliceFrom?_eq_some_iff.2 ⟨taken, by simp, by simpa using hsize.symm⟩⟩
    · refine ⟨String.ofList text, h.sliceFrom?_eq_some_iff.2 ⟨before.toList, ?_, ?_⟩⟩
      · rw [String.toList_ofList]
      · rw [String.ofList_toList]

theorem sliceFrom?_eq_none_iff (h : Stands source taken c) :
    c.sliceFrom? start = none
      ↔ c.offset < start ∨ ¬ String.Pos.Raw.IsValid source ⟨start⟩ := by
  rw [← Option.not_isSome_iff_eq_none, h.isSome_sliceFrom?_iff, Classical.not_and_iff_not_or_not,
    Nat.not_le]

/-- The slice from an earlier place on is what the cursor has moved over since. -/
theorem sliceFrom?_earlier {c' : Cursor} {since : List Char} (h : Stands source taken c)
    (h' : Stands source (taken ++ since) c') :
    c'.sliceFrom? c.offset = some (String.ofList since) := by
  rw [h'.sliceFrom?_eq_some_iff, String.toList_ofList]
  exact ⟨taken, rfl, h.offset.symm⟩

end Stands

/-! ## Eating -/

/-- Moves over the characters of `rest` while `test` holds, `count` characters later than it began to
count. The test may depend on what it was asked before in this call: it is told the characters
`past` that it let pass. -/
def eatTestedFrom (test : List Char → Char → Bool) (count : Nat) (past : List Char) :
    List Char → Cursor → Nat × Cursor
  | [], c => (count, c)
  | ch :: rest, c =>
    if test past ch then eatTestedFrom test (count + 1) (past ++ [ch]) rest (c.advance ch rest)
    else (count, c)

/-- Moves over characters while `test` holds, and answers how many there were. -/
def eatTested (c : Cursor) (test : List Char → Char → Bool) : Nat × Cursor :=
  eatTestedFrom test 0 [] c.rest c

/-- A test that forgets what it was asked is a predicate. -/
theorem eatTestedFrom_const (p : Char → Bool) (count : Nat) (past cs : List Char) (c : Cursor) :
    eatTestedFrom (fun _ => p) count past cs c = eatFrom p count cs c := by
  induction cs generalizing count past c with
  | nil => rfl
  | cons ch cs ih => rw [eatTestedFrom, eatFrom, ih]

theorem eatTested_const (p : Char → Bool) (c : Cursor) :
    c.eatTested (fun _ => p) = c.eatWhile p :=
  eatTestedFrom_const p 0 [] c.rest c

/-- The loop that eats: it goes on with a count and what the test was asked, or it has ended with
an answer. -/
inductive EatLoop where
  | goesOn (count : Nat) (past : List Char) (cursor : Cursor)
  | ended (count : Nat) (cursor : Cursor)

namespace EatLoop

variable (test : List Char → Char → Bool)

/-- One turn of the loop, if it goes on: it asks about the next character, and moves. -/
def turn : EatLoop → EatLoop
  | .goesOn count past cursor =>
    match cursor.peek with
    | none => .ended count cursor
    | some ch =>
      if test past ch then .goesOn (count + 1) (past ++ [ch]) cursor.next.2
      else .ended count cursor
  | .ended count cursor => .ended count cursor

/-- The loop after `n` turns. -/
def turns : Nat → EatLoop → EatLoop
  | 0, loop => loop
  | n + 1, loop => turns n (loop.turn test)

theorem turns_ended (n count : Nat) (c : Cursor) :
    turns test n (.ended count c) = .ended count c := by
  induction n with
  | zero => rfl
  | succ n ih => exact ih

/-- **The loop ends**, within as many turns as there are characters and one more. -/
theorem turns_eq {count : Nat} {past : List Char} {c : Cursor} {cs : List Char} (hc : c.rest = cs)
    {n : Nat} (hn : cs.length < n) :
    turns test n (.goesOn count past c)
      = .ended (eatTestedFrom test count past cs c).1 (eatTestedFrom test count past cs c).2 := by
  induction cs generalizing count past c n with
  | nil =>
    obtain ⟨n, rfl⟩ := Nat.exists_eq_add_one.2 hn
    have hturn : turn test (.goesOn count past c) = .ended count c := by
      simp [turn, peek, hc]
    rw [turns, hturn, turns_ended, eatTestedFrom]
  | cons ch cs ih =>
    obtain ⟨n, rfl⟩ := Nat.exists_eq_add_one.2 (Nat.zero_lt_of_lt hn)
    rw [turns, eatTestedFrom]
    cases htest : test past ch with
    | true =>
      have hturn : turn test (.goesOn count past c)
          = .goesOn (count + 1) (past ++ [ch]) (c.advance ch cs) := by
        simp [turn, peek, hc, htest, next_of_cons hc]
      rw [hturn, if_pos rfl]
      exact ih rfl (Nat.lt_of_succ_lt_succ hn)
    | false =>
      have hturn : turn test (.goesOn count past c) = .ended count c := by
        simp [turn, peek, hc, htest]
      rw [hturn, turns_ended, if_neg nofun]

end EatLoop

/-- What is eaten is what the test lets pass, in front of a character that it does not. -/
theorem exists_eatTestedFrom (test : List Char → Char → Bool) (count : Nat) (past : List Char)
    (hc : c.rest = cs) :
    ∃ eaten rest, cs = eaten ++ rest
      ∧ eatTestedFrom test count past cs c = (count + eaten.length, c.nexts eaten.length)
      ∧ (∀ before ch behind, eaten = before ++ ch :: behind → test (past ++ before) ch = true)
      ∧ ∀ ch, rest.head? = some ch → test (past ++ eaten) ch = false := by
  induction cs generalizing count past c with
  | nil => exact ⟨[], [], rfl, rfl, by simp, nofun⟩
  | cons ch cs ih =>
    rw [eatTestedFrom]
    cases htest : test past ch with
    | true =>
      obtain ⟨eaten, rest, rfl, hresult, hpass, hstop⟩ := ih (c := c.advance ch cs) (count + 1)
        (past ++ [ch]) rfl
      refine ⟨ch :: eaten, rest, rfl, ?_, ?_, ?_⟩
      · rw [if_pos rfl, hresult, List.length_cons, nexts, next_of_cons hc, Nat.add_right_comm,
          Nat.add_assoc]
      · intro before ch' behind heaten
        cases before with
        | nil =>
          obtain ⟨rfl, -⟩ := List.cons.inj heaten
          rwa [List.append_nil]
        | cons first before =>
          obtain ⟨rfl, hrest⟩ := List.cons.inj heaten
          have htest' := hpass before ch' behind hrest
          rwa [List.append_assoc] at htest'
      · simpa using hstop
    | false =>
      refine ⟨[], ch :: cs, rfl, by rw [if_neg nofun]; rfl, by simp, ?_⟩
      rintro ch' ⟨⟩
      rwa [List.append_nil]

/-- The characters `eaten` are those that the cursor eats: it answers their number and stands behind
them, the test lets them pass but not the one that comes next, and the loop ends there, within as
many turns as there are characters and one more. -/
structure Eats (test : List Char → Char → Bool) (c : Cursor) (eaten : List Char) : Prop where
  answer : c.eatTested test = (eaten.length, c.nexts eaten.length)
  split : c.rest = eaten ++ (c.nexts eaten.length).rest
  passed : ∀ before ch behind, eaten = before ++ ch :: behind → test before ch = true
  stopped : ∀ ch, (c.nexts eaten.length).peek = some ch → test eaten ch = false
  ended : ∀ n, c.rest.length < n →
    EatLoop.turns test n (.goesOn 0 [] c) = .ended eaten.length (c.nexts eaten.length)

theorem exists_eats (test : List Char → Char → Bool) (c : Cursor) : ∃ eaten, Eats test c eaten := by
  obtain ⟨eaten, rest, hsplit, hresult, hpass, hstop⟩ :=
    exists_eatTestedFrom test 0 [] (c := c) rfl
  rw [Nat.zero_add] at hresult
  have hrest : (c.nexts eaten.length).rest = rest := rest_nexts_length hsplit
  refine ⟨eaten, hresult, by rw [hrest, hsplit], hpass, ?_, fun n hn => ?_⟩
  · rw [peek, hrest]
    exact hstop
  · rw [EatLoop.turns_eq test rfl hn, hresult]

/-! ## Calls -/

/-- What can be asked of a cursor. -/
inductive Call where
  | next
  | peek
  | peekNext
  | nextIf (expected : Char)
  | eatWhile (test : List Char → Char → Bool)
  | sliceFrom (start : Nat)

/-- What a cursor answers. -/
inductive Answer where
  | char (ch : Option Char)
  | flag (b : Bool)
  | count (n : Nat)
  | slice (text : Option String)

namespace Call

/-- The answer to a call, and the cursor after it. -/
def perform : Call → Cursor → Answer × Cursor
  | .next, c => (.char c.next.1, c.next.2)
  | .peek, c => (.char c.peek, c)
  | .peekNext, c => (.char c.peekNext, c)
  | .nextIf expected, c => (.flag (c.nextIf expected).1, (c.nextIf expected).2)
  | .eatWhile test, c => (.count (c.eatTested test).1, (c.eatTested test).2)
  | .sliceFrom start, c => (.slice (c.sliceFrom? start), c)

/-- How many characters the cursor has moved over, by its answer. -/
def moves : Call → Answer → Nat
  | .next, .char (some _) => 1
  | .nextIf _, .flag true => 1
  | .eatWhile _, .count n => n
  | _, _ => 0

/-- A call moves the cursor as its answer says. -/
theorem perform_snd (call : Call) (c : Cursor) :
    (call.perform c).2 = c.nexts (call.moves (call.perform c).1) := by
  cases call with
  | next =>
    cases hrest : c.rest with
    | nil => simp [perform, next_of_nil hrest, moves, nexts]
    | cons ch cs => simp [perform, next_of_rest hrest, moves]
  | peek | peekNext | sliceFrom => rfl
  | nextIf expected =>
    by_cases hpeek : c.peek = some expected
    · rw [perform, nextIf_of_peek hpeek]
      rfl
    · rw [perform, nextIf_of_peek_ne hpeek]
      rfl
  | eatWhile test =>
    obtain ⟨eaten, heaten⟩ := exists_eats test c
    simp only [perform, heaten.answer, moves]

end Call

/-- The cursor after calls. -/
def after (c : Cursor) : List Call → Cursor
  | [] => c
  | call :: rest => after (call.perform c).2 rest

/-- The characters that calls returned or ate: those that as many moves answer. -/
def taken (c : Cursor) : List Call → List Char
  | [] => []
  | call :: rest =>
    c.moved (call.moves (call.perform c).1) ++ taken (call.perform c).2 rest

/-- Calls lead from place to place, over the characters that they returned or ate. -/
theorem Stands.after {source : String} {before : List Char} (h : Stands source before c)
    (calls : List Call) : Stands source (before ++ c.taken calls) (c.after calls) := by
  induction calls generalizing c before with
  | nil => simpa [taken, Cursor.after] using h
  | cons call calls ih =>
    rw [taken, ← List.append_assoc]
    refine ih ?_
    rw [call.perform_snd]
    exact h.nexts _

/-- **Where a cursor stands is settled by the characters that it gave.** After any calls on a new
cursor, the characters that these returned or ate and the rest are the source, the offset counts their
bytes, and the line their line ends, from 1 on. Then every call moves the cursor over as many
characters as its answer says; looking ahead and slicing do not move it.

It sees ahead what the next two moves answer. It moves over an expected character if that comes next,
and says so. It eats the characters that the test lets pass, in front of one that the test does not,
and answers their number; the loop that does so ends, within as many turns as there are characters and
one more. There is no slice from behind the cursor on, or from within a character, and only then;
and the slice from an earlier place on is what was returned or eaten since. -/
theorem call_law (source : String) (calls : List Call) :
    let c := (ofString source).after calls
    let given := (ofString source).taken calls
    (given ++ c.rest = source.toList
      ∧ c.offset = (String.ofList given).utf8ByteSize
      ∧ c.line = 1 + newlines given)
    ∧ (∀ call : Call, (call.perform c).2 = c.nexts (call.moves (call.perform c).1))
    ∧ ((Call.peek.perform c).2 = c ∧ (Call.peekNext.perform c).2 = c
      ∧ ∀ start, ((Call.sliceFrom start).perform c).2 = c)
    ∧ (c.peek = c.next.1 ∧ c.peekNext = c.next.2.next.1)
    ∧ (∀ expected,
      ((c.nextIf expected).1 = true ∧ c.peek = some expected
        ∧ c.rest = expected :: (c.nextIf expected).2.rest)
      ∨ ((c.nextIf expected).1 = false ∧ c.peek ≠ some expected ∧ (c.nextIf expected).2 = c))
    ∧ ((∀ test : List Char → Char → Bool, ∃ eaten, Eats test c eaten)
      ∧ ∀ p : Char → Bool, c.eatTested (fun _ => p) = c.eatWhile p)
    ∧ (∀ start, c.sliceFrom? start = none
      ↔ c.offset < start ∨ ¬ String.Pos.Raw.IsValid source ⟨start⟩)
    ∧ ∀ later : List Call,
      (c.after later).sliceFrom? c.offset = some (String.ofList (c.taken later)) := by
  intro c given
  have hstands : Stands source given c := (Stands.start source).after calls
  refine ⟨⟨hstands.split, hstands.offset, hstands.line⟩, fun call => call.perform_snd c,
    ⟨rfl, rfl, fun start => rfl⟩, ⟨c.next_fst.symm, c.peekNext_eq⟩, c.nextIf_cases,
    ⟨fun test => exists_eats test c, fun p => eatTested_const p c⟩,
    fun start => hstands.sliceFrom?_eq_none_iff, fun later => ?_⟩
  exact hstands.sliceFrom?_earlier (hstands.after later)

end Cursor

end Lox
