import Lox.Proofs.Relabel.Provenance
import Lox.Proofs.Session.Concat
import Mathlib

/-!
# Lox — what is reported about a source text

A source text is refused if scanning or parsing finds an error in it, and then it changes nothing.
All errors are reported, sorted by line. The sort is stable, so on one line the errors found by
scanning come first. Those stand in the order of the text throughout. Syntax errors are not found
in the order of their lines: a misplaced `=` is found only after its value was read.

* **`filter_sortByKey`** — a stable sort leaves the elements with one key in their order.
* **`IsReport`** — the errors of a source text in the order in which they are reported.
* **`Session.refusal_law`** — when a source text is refused, and what becomes of it.
-/

namespace Lox

/-! ## Stable sorting -/

section

variable {α : Type} (key : α → Nat) (xs : List α)

/-- The elements sorted by a key. -/
def sortByKey : List α := xs.mergeSort fun x y => decide (key x ≤ key y)

theorem perm_sortByKey : (sortByKey key xs).Perm xs := List.mergeSort_perm xs _

theorem pairwise_sortByKey : (sortByKey key xs).Pairwise (key · ≤ key ·) := by
  have hsorted : (sortByKey key xs).Pairwise fun x y => decide (key x ≤ key y) = true :=
    List.pairwise_mergeSort (by simp only [decide_eq_true_eq]; omega)
      (by simp only [Bool.or_eq_true, decide_eq_true_eq]; omega) xs
  exact hsorted.imp of_decide_eq_true

/-- What is sorted already stays in its order, whatever stands between. -/
theorem sublist_sortByKey {ys : List α} (hsorted : ys.Pairwise (key · ≤ key ·))
    (hsub : ys.Sublist xs) : ys.Sublist (sortByKey key xs) :=
  List.sublist_mergeSort (by simp only [decide_eq_true_eq]; omega)
    (by simp only [Bool.or_eq_true, decide_eq_true_eq]; omega)
    (hsorted.imp fun h => decide_eq_true h) hsub

/-- Sorting leaves the elements with one key in their order. -/
theorem filter_sortByKey (n : Nat) :
    (sortByKey key xs).filter (key · = n) = xs.filter (key · = n) := by
  have hkey : ∀ x ∈ xs.filter (key · = n), key x = n := by
    intro x hx
    simpa using (List.mem_filter.1 hx).2
  have hsorted : (xs.filter (key · = n)).Pairwise (key · ≤ key ·) :=
    List.pairwise_of_forall_mem_list fun x hx y hy =>
      Nat.le_of_eq ((hkey x hx).trans (hkey y hy).symm)
  have hsub := (sublist_sortByKey key xs hsorted List.filter_sublist).filter (key · = n)
  rw [List.filter_filter] at hsub
  simp only [Bool.and_self] at hsub
  -- a sublist with as many elements is the whole list
  exact (hsub.eq_of_length ((perm_sortByKey key xs).filter _).length_eq.symm).symm

end

/-! ## Lines of items -/

/-- The line that an item stands on. -/
def ScanItem.line : ScanItem → Nat
  | .ok t => t.line
  | .error e => e.line

theorem Segment.line_of_mem_item? {s : Segment} {line : Nat} {item : ScanItem}
    (h : item ∈ (s.item? line).toList) : item.line = line := by
  unfold item? at h
  split at h <;> simp at h <;> subst h <;> rfl

/-- Items stand on the lines of the text. -/
theorem line_of_mem_itemsFrom {line : Nat} {ss : List Segment} {item : ScanItem}
    (h : item ∈ itemsFrom line ss) :
    line ≤ item.line ∧ item.line ≤ line + newlines (ss.flatMap (·.text)) := by
  induction ss generalizing line with
  | nil =>
    obtain rfl := List.mem_singleton.1 h
    exact ⟨Nat.le_refl line, Nat.le_add_right line _⟩
  | cons s ss ih =>
    rw [List.flatMap_cons, newlines_append]
    rw [itemsFrom] at h
    rcases List.mem_append.1 h with h | h
    · rw [Segment.line_of_mem_item? h]
      omega
    · have hlater := ih h
      omega

/-- Items come in the order of their lines. -/
theorem pairwise_line_itemsFrom (line : Nat) (ss : List Segment) :
    (itemsFrom line ss).Pairwise (ScanItem.line · ≤ ScanItem.line ·) := by
  induction ss generalizing line with
  | nil => exact List.pairwise_singleton _ _
  | cons s ss ih =>
    rw [itemsFrom, List.pairwise_append]
    refine ⟨?_, ih _, fun item hitem item' hitem' => ?_⟩
    · cases s.item? line with
      | none => exact .nil
      | some item => exact List.pairwise_singleton _ _
    · rw [Segment.line_of_mem_item? hitem]
      exact Nat.le_trans (Nat.le_add_right line _) (line_of_mem_itemsFrom hitem').1

section

variable {source : String}

theorem line_of_mem_scan {item : ScanItem} (h : item ∈ scan source) :
    1 ≤ item.line ∧ item.line ≤ 1 + newlines source.toList := by
  have hline := line_of_mem_itemsFrom h
  rwa [flatMap_text_segments] at hline

/-- Scan errors come in the order of their lines. -/
theorem pairwise_line_errorsOf_scan (source : String) :
    (errorsOf (scan source)).Pairwise (ScanError.line · ≤ ScanError.line ·) := by
  refine List.pairwise_filterMap.2 ((pairwise_line_itemsFrom 1 _).imp fun {x y} h e he e' he' => ?_)
  cases x with
  | ok t => cases he
  | error e₁ =>
    cases y with
    | ok t => cases he'
    | error e₂ => rwa [← Option.some.inj he, ← Option.some.inj he']

/-- Syntax errors are reported on lines of the text. -/
theorem line_of_mem_errors_parseSource {e : SyntaxError} (h : e ∈ (parseSource source).errors) :
    1 ≤ e.blamed.line ∧ e.blamed.line ≤ 1 + newlines source.toList := by
  have hblamed := blamed_parse_subset (exists_isEof_scan source) (List.mem_map_of_mem h)
  obtain ⟨t, ht, heq⟩ := List.mem_map.1 hblamed
  have hline := line_of_mem_scan (mem_tokensOf.1 ht)
  rw [← heq]
  exact hline

end

/-! ## Reports -/

/-- What can be wrong with a source text: an error in its pieces, or in the order of its tokens. -/
inductive StaticError where
  | scan (error : ScanError)
  | parse (error : SyntaxError)

namespace StaticError

/-- The line that an error is reported on. -/
def line : StaticError → Nat
  | .scan e => e.line
  | .parse e => e.blamed.line

/-- The report about an error. -/
def diagnostic : StaticError → Diagnostic
  | .scan e => e.diagnostic
  | .parse e => e.diagnostic

/-- An error found by scanning. -/
def scan? : StaticError → Option ScanError
  | .scan e => some e
  | .parse _ => none

theorem line_diagnostic (e : StaticError) : e.diagnostic.line = e.line := by
  cases e <;> rfl

end StaticError

/-- The errors of a source text as they are found: by scanning, and then by parsing. -/
def staticErrors (source : String) : List StaticError :=
  (errorsOf (scan source)).map .scan ++ (parseSource source).errors.map .parse

/-- Whether these are the errors of a source text in the order in which they are reported. -/
structure IsReport (source : String) (rs : List StaticError) : Prop where
  /-- All errors that were found are reported, and no others. -/
  perm : rs.Perm (staticErrors source)
  /-- They are reported in the order of their lines. -/
  sorted : rs.Pairwise (StaticError.line · ≤ StaticError.line ·)
  /-- On one line scan errors come first, and both sorts are reported as they were found. -/
  onLine : ∀ n, rs.filter (·.line = n)
    = ((errorsOf (scan source)).filter (·.line = n)).map .scan
      ++ ((parseSource source).errors.filter (·.blamed.line = n)).map .parse
  /-- Scan errors are reported in the order of the text throughout. -/
  inOrder : rs.filterMap StaticError.scan? = errorsOf (scan source)
  /-- The lines are lines of the text. -/
  within : ∀ r ∈ rs, 1 ≤ r.line ∧ r.line ≤ 1 + newlines source.toList

section

variable (source : String)

theorem filterMap_scan?_staticErrors :
    (staticErrors source).filterMap StaticError.scan? = errorsOf (scan source) := by
  simp [staticErrors, StaticError.scan?, Function.comp_def]

theorem isReport_sortByKey :
    IsReport source (sortByKey StaticError.line (staticErrors source)) where
  perm := perm_sortByKey _ _
  sorted := pairwise_sortByKey _ _
  onLine n := by
    rw [filter_sortByKey, staticErrors, List.filter_append, List.filter_map, List.filter_map]
    rfl
  inOrder := by
    have hperm :=
      (perm_sortByKey StaticError.line (staticErrors source)).filterMap StaticError.scan?
    have hsorted : ((errorsOf (scan source)).map StaticError.scan).Pairwise
        (StaticError.line · ≤ StaticError.line ·) :=
      List.pairwise_map.2 (pairwise_line_errorsOf_scan source)
    have hsub := (sublist_sortByKey StaticError.line (staticErrors source) hsorted
      (List.sublist_append_left _ _)).filterMap StaticError.scan?
    rw [filterMap_scan?_staticErrors] at hperm
    simp only [List.filterMap_map, Function.comp_def, StaticError.scan?,
      List.filterMap_some] at hsub
    exact (hsub.eq_of_length hperm.length_eq.symm).symm
  within r hr := by
    rcases List.mem_append.1 ((perm_sortByKey _ _).mem_iff.1 hr) with h | h
    · obtain ⟨e, he, rfl⟩ := List.mem_map.1 h
      exact line_of_mem_scan (mem_errorsOf.1 he)
    · obtain ⟨e, he, rfl⟩ := List.mem_map.1 h
      exact line_of_mem_errors_parseSource he

theorem reports_eq_map_sortByKey :
    reports (errorsOf (scan source)) (parse (tokensOf (scan source))).errors
      = (sortByKey StaticError.line (staticErrors source)).map StaticError.diagnostic := by
  have hle : ∀ r r' : StaticError,
      decide (r.line ≤ r'.line) = r.diagnostic.lineLe r'.diagnostic := by
    intro r r'
    rw [Diagnostic.lineLe, r.line_diagnostic, r'.line_diagnostic]
  rw [sortByKey, List.map_mergeSort fun r _ r' _ => hle r r', staticErrors, List.map_append,
    List.map_map, List.map_map]
  rfl

variable {source}

theorem staticErrors_eq_nil_iff :
    staticErrors source = [] ↔ errorsOf (scan source) = [] ∧ (parseSource source).errors = [] := by
  rw [staticErrors, List.append_eq_nil_iff, List.map_eq_nil_iff, List.map_eq_nil_iff]

theorem checkSource_of_staticErrors_eq_nil (h : staticErrors source = []) :
    checkSource source = .ok (parseSource source).statements := by
  obtain ⟨hscan, hparse⟩ := staticErrors_eq_nil_iff.1 h
  refine checkSource_eq_ok_iff.2 ⟨hscan, ?_⟩
  rw [← hparse]
  rfl

theorem checkSource_of_staticErrors_ne_nil (h : staticErrors source ≠ []) :
    checkSource source
      = .error ((sortByKey StaticError.line (staticErrors source)).map StaticError.diagnostic) := by
  have hreports := reports_eq_map_sortByKey source
  unfold checkSource
  simp only
  rw [hreports]
  cases hsort : sortByKey StaticError.line (staticErrors source) with
  | nil =>
    have hperm := perm_sortByKey StaticError.line (staticErrors source)
    rw [hsort] at hperm
    exact absurd hperm.nil_eq.symm h
  | cons r rs => rfl

end

/-! ## Refusal -/

namespace Session

theorem ofExecution_ne_static {α : Type} (x : Execution α) (m m' : Machine) (ds : List Diagnostic) :
    ofExecution x m ≠ .error (.static ds) m' := by
  unfold ofExecution
  cases x m <;> simp

theorem found_iff {source : String} :
    ((∃ e, Except.error e ∈ scan source) ∨ (parseSource source).errors ≠ [])
      ↔ staticErrors source ≠ [] := by
  have hscan : (∃ e, Except.error e ∈ scan source) ↔ errorsOf (scan source) ≠ [] := by
    simp only [← mem_errorsOf]
    exact ⟨fun ⟨_, he⟩ => List.ne_nil_of_mem he, List.exists_mem_of_ne_nil _⟩
  rw [hscan, Ne, Ne, Ne, staticErrors_eq_nil_iff, Classical.not_and_iff_not_or_not]

/-- **Static errors are complete, ordered and atomic.** A source text, or a line typed at a prompt,
is refused if and only if scanning finds an error in it or parsing the remaining tokens does. Then
the machine stays as it was, and what is reported are all those errors in the order of their lines.
Otherwise the statements that the parser returned are executed. -/
theorem refusal_law (source : String) (m : Machine) :
    ((∃ ds m', run source m = .error (.static ds) m')
      ↔ (∃ e, Except.error e ∈ scan source) ∨ (parseSource source).errors ≠ [])
    ∧ ((∃ ds m', prompt source m = .error (.static ds) m')
      ↔ (∃ e, Except.error e ∈ scan source) ∨ (parseSource source).errors ≠ [])
    ∧ (∀ ds m', run source m = .error (.static ds) m' ∨ prompt source m = .error (.static ds) m' →
      m' = m ∧ ∃ rs, IsReport source rs ∧ ds = rs.map StaticError.diagnostic)
    ∧ ((∀ e, Except.error e ∉ scan source) → (parseSource source).errors = [] →
      run source m = ofExecution (Stmt.execAll globals (parseSource source).statements) m
      ∧ prompt source m
        = ofExecution (Stmt.execAll globals (echoing (parseSource source).statements)) m) := by
  rw [found_iff]
  by_cases h : staticErrors source = []
  · have hcheck := checkSource_of_staticErrors_eq_nil h
    have hrun := congrFun (run_eq_ofExecution hcheck) m
    have hprompt := congrFun (prompt_eq_ofExecution hcheck) m
    rw [hrun, hprompt]
    have hnot : ∀ (ss : List Stmt) (ds : List Diagnostic) (m' : Machine),
        ofExecution (Stmt.execAll globals ss) m ≠ .error (.static ds) m' := fun ss ds m' =>
      ofExecution_ne_static _ m m' ds
    refine ⟨iff_of_false ?_ (not_not_intro h), iff_of_false ?_ (not_not_intro h), ?_,
      fun _ _ => ⟨rfl, rfl⟩⟩
    · rintro ⟨ds, m', heq⟩
      exact hnot _ ds m' heq
    · rintro ⟨ds, m', heq⟩
      exact hnot _ ds m' heq
    · rintro ds m' (heq | heq) <;> exact absurd heq (hnot _ ds m')
  · have hcheck := checkSource_of_staticErrors_ne_nil h
    have hrun := run_eq_error hcheck m
    have hprompt := prompt_eq_error hcheck m
    refine ⟨iff_of_true ⟨_, _, hrun⟩ h, iff_of_true ⟨_, _, hprompt⟩ h, fun ds m' heq => ?_,
      fun hscan hparse => absurd (found_iff.2 h) ?_⟩
    · rw [hrun, hprompt, or_self] at heq
      cases heq
      exact ⟨rfl, _, isReport_sortByKey source, rfl⟩
    · rintro (⟨e, he⟩ | hne)
      · exact hscan e he
      · exact hne hparse

/-- Two misplaced `=`, of which the one on the second line is found first. -/
def misplacedTwice : String := "1 =\n2 = @3;"

/-- On the second line, a character that belongs to no token is reported before the `=`, and the
`=` on the first line before both. -/
theorem refusal_law_misplacedTwice :
    (parseSource misplacedTwice).errors
        = [⟨.invalidAssignmentTarget, ⟨"=", 2⟩⟩, ⟨.invalidAssignmentTarget, ⟨"=", 1⟩⟩]
    ∧ ∃ rs, IsReport misplacedTwice rs
      ∧ rs.map StaticError.diagnostic = [⟨1, " at '='", "Invalid assignment target."⟩,
          ⟨2, "", "Unexpected character."⟩, ⟨2, " at '='", "Invalid assignment target."⟩]
      ∧ run misplacedTwice (start .unlimited)
        = .error (.static (rs.map StaticError.diagnostic)) (start .unlimited) := by
  have hparse : (parseSource misplacedTwice).errors
      = [⟨.invalidAssignmentTarget, ⟨"=", 2⟩⟩, ⟨.invalidAssignmentTarget, ⟨"=", 1⟩⟩] := by
    decide +kernel
  have hfound : (errorsOf (scan misplacedTwice)).map ScanError.diagnostic
        ++ (parse (tokensOf (scan misplacedTwice))).errors.map SyntaxError.diagnostic
      = [⟨2, "", "Unexpected character."⟩, ⟨2, " at '='", "Invalid assignment target."⟩,
          ⟨1, " at '='", "Invalid assignment target."⟩] := by
    decide +kernel
  have hreports : reports (errorsOf (scan misplacedTwice))
        (parse (tokensOf (scan misplacedTwice))).errors
      = [⟨1, " at '='", "Invalid assignment target."⟩, ⟨2, "", "Unexpected character."⟩,
          ⟨2, " at '='", "Invalid assignment target."⟩] := by
    rw [reports, hfound]
    cbv
  have hcheck : checkSource misplacedTwice
      = .error [⟨1, " at '='", "Invalid assignment target."⟩, ⟨2, "", "Unexpected character."⟩,
          ⟨2, " at '='", "Invalid assignment target."⟩] := by
    simp only [checkSource, hreports]
  have hrun := run_eq_error hcheck (start .unlimited)
  have hrefused := (refusal_law misplacedTwice (start .unlimited)).2.2.1 _ _ (.inl hrun)
  obtain ⟨rs, hrs, hds⟩ := hrefused.2
  exact ⟨hparse, rs, hrs, hds.symm, hds ▸ hrun⟩

end Session

end Lox
