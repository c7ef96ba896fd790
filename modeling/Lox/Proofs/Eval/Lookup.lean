import Lox.Eval.Stmt
import Lox.Proofs.Store.Sees

/-!
# Lox — execution sees names only

Two runs of the same statements, in frames of different stores that see the same names with the
same values, write the same, end in the same way, and leave frames that see the same again. How
the names are spread over frames has no influence.

* **`Agree`** — two computations that end in the same way and keep a relation between their
  states.
* **`Machine.Alike`** — the relation that execution keeps.
* **`Stmt.execAll_congr_get?`** — two runs of the same statements.
-/

namespace Lox

/-! ## Two computations -/

section

variable {ε σ α β : Type} {R : σ → σ → Prop}

/-- Two results with the same value or the same error, and with states that are related. -/
inductive SameResult (R : σ → σ → Prop) :
    EStateM.Result ε σ α → EStateM.Result ε σ α → Prop
  | ok (a : α) {s t : σ} (h : R s t) : SameResult R (.ok a s) (.ok a t)
  | error (e : ε) {s t : σ} (h : R s t) : SameResult R (.error e s) (.error e t)

/-- Two computations that have the same result on related states. -/
def Agree (R : σ → σ → Prop) (x y : EStateM ε σ α) : Prop :=
  ∀ s t, R s t → SameResult R (x s) (y t)

theorem Agree.pure (a : α) : Agree R (pure a : EStateM ε σ α) (pure a) := fun _ _ h => .ok a h

theorem Agree.bind {x y : EStateM ε σ α} {k l : α → EStateM ε σ β} (hx : Agree R x y)
    (hk : ∀ a, Agree R (k a) (l a)) : Agree R (x >>= k) (y >>= l) := by
  intro s t h
  have hresult := hx s t h
  simp only [Bind.bind, EStateM.bind]
  generalize x s = r, y t = r' at hresult
  cases hresult with
  | ok a h' => exact hk a _ _ h'
  | error e h' => exact .error e h'

end

/-! ## Evaluation -/

/-- The stores have the given numbers of frames, and the same is seen from the given frames. -/
structure Store.Alike (n₁ n₂ : Nat) (ps : List (Nat × Nat)) (f₁ f₂ : Nat) (s₁ s₂ : Store) :
    Prop where
  size₁ : s₁.size = n₁
  size₂ : s₂.size = n₂
  sees : Sees s₁ s₂ ps f₁ f₂

variable {n₁ n₂ f₁ f₂ : Nat} {ps : List (Nat × Nat)}

namespace Evaluation

theorem agree_ofOperation (sign : Lexeme) (result : Except RuntimeError.Cause Value) :
    Agree (Store.Alike n₁ n₂ ps f₁ f₂) (ofOperation sign result) (ofOperation sign result) := by
  intro s₁ s₂ h
  cases result with
  | ok v => exact .ok v h
  | error cause => exact .error _ h

theorem agree_read (name : Lexeme) :
    Agree (Store.Alike n₁ n₂ ps f₁ f₂) (read f₁ name) (read f₂ name) := by
  intro s₁ s₂ h
  unfold read
  rw [h.sees.get?_eq]
  cases s₂.get? f₂ name.text with
  | some v => exact .ok v h
  | none => exact .error _ h

theorem agree_write (name : Lexeme) (v : Value) :
    Agree (Store.Alike n₁ n₂ ps f₁ f₂) (write f₁ name v) (write f₂ name v) := by
  intro s₁ s₂ h
  unfold write
  rcases h.sees.assign name.text v with
    ⟨hnone₁, hnone₂⟩ | ⟨s₁', s₂', hassign₁, hassign₂, hsize₁, hsize₂, hsees⟩
  · rw [hnone₁, hnone₂]
    exact .error _ h
  · rw [hassign₁, hassign₂]
    exact .ok v ⟨hsize₁.trans h.size₁, hsize₂.trans h.size₂, hsees⟩

end Evaluation

theorem Expr.agree_eval (e : Expr) :
    Agree (Store.Alike n₁ n₂ ps f₁ f₂) (e.eval f₁) (e.eval f₂) := by
  induction e with
  | literal l => exact .pure l.value
  | var name => exact Evaluation.agree_read name
  | assign name value ih => exact ih.bind fun v => Evaluation.agree_write name v
  | group inner ih => exact ih
  | unary op sign operand ih => exact ih.bind fun v => Evaluation.agree_ofOperation sign _
  | binary op sign left right ihl ihr =>
    exact ihl.bind fun l => ihr.bind fun r => Evaluation.agree_ofOperation sign _

/-! ## Output -/

/-- What a sink takes of a text, and what it takes after that, depends on its limit alone. -/
theorem Sink.write_congr_limit {s₁ s₂ : Sink} (h : s₁.limit = s₂.limit) (text : String) :
    (s₁.write text).1 = (s₂.write text).1
    ∧ (s₁.write text).2.limit = (s₂.write text).2.limit
    ∧ ∃ bytes, (s₁.write text).2.written = s₁.written ++ bytes
      ∧ (s₂.write text).2.written = s₂.written ++ bytes := by
  obtain ⟨written₁, limit⟩ := s₁
  obtain ⟨written₂, limit₂⟩ := s₂
  obtain rfl : limit = limit₂ := h
  cases limit with
  | none => exact ⟨rfl, rfl, _, rfl, rfl⟩
  | some limit => exact ⟨rfl, rfl, _, rfl, rfl⟩

/-- Sinks that took the same bytes so far go on to do so. -/
theorem Sink.write_since {s₁ s₂ : Sink} {w₁ w₂ : ByteArray} (hlimit : s₁.limit = s₂.limit)
    (hwritten : ∃ bytes, s₁.written = w₁ ++ bytes ∧ s₂.written = w₂ ++ bytes) (text : String) :
    (s₁.write text).1 = (s₂.write text).1
    ∧ (s₁.write text).2.limit = (s₂.write text).2.limit
    ∧ ∃ bytes, (s₁.write text).2.written = w₁ ++ bytes
      ∧ (s₂.write text).2.written = w₂ ++ bytes := by
  obtain ⟨before, hbefore₁, hbefore₂⟩ := hwritten
  obtain ⟨hreason, hlimit', bytes, hbytes₁, hbytes₂⟩ := write_congr_limit hlimit text
  refine ⟨hreason, hlimit', before ++ bytes, ?_, ?_⟩
  · rw [hbytes₁, hbefore₁, ByteArray.append_assoc]
  · rw [hbytes₂, hbefore₂, ByteArray.append_assoc]

theorem Sink.eq_of_written_eq {s₁ s₂ : Sink} (hwritten : s₁.written = s₂.written)
    (hlimit : s₁.limit = s₂.limit) : s₁ = s₂ := by
  obtain ⟨written, limit⟩ := s₁
  obtain rfl : written = s₂.written := hwritten
  obtain rfl : limit = s₂.limit := hlimit
  rfl

/-! ## Execution -/

/-- The stores are alike, and the sinks have the same limit and were written the same bytes since
they held `w₁` and `w₂`. -/
structure Machine.Alike (w₁ w₂ : ByteArray) (n₁ n₂ : Nat) (ps : List (Nat × Nat)) (f₁ f₂ : Nat)
    (m₁ m₂ : Machine) : Prop where
  store : m₁.store.Alike n₁ n₂ ps f₁ f₂ m₂.store
  limit : m₁.sink.limit = m₂.sink.limit
  written : ∃ bytes, m₁.sink.written = w₁ ++ bytes ∧ m₂.sink.written = w₂ ++ bytes

variable {w₁ w₂ : ByteArray}

namespace Execution

theorem agree_ofEvaluation {α : Type} {x y : Evaluation α}
    (h : Agree (Store.Alike n₁ n₂ ps f₁ f₂) x y) :
    Agree (Machine.Alike w₁ w₂ n₁ n₂ ps f₁ f₂) (ofEvaluation x) (ofEvaluation y) := by
  intro m₁ m₂ hm
  have hresult := h m₁.store m₂.store hm.store
  -- with both results as variables, one case split settles them together
  simp only [ofEvaluation]
  generalize x m₁.store = r, y m₂.store = r' at hresult
  cases hresult with
  | ok a hstore => exact .ok a ⟨hstore, hm.limit, hm.written⟩
  | error e hstore => exact .error (Halt.runtime e) ⟨hstore, hm.limit, hm.written⟩

theorem agree_emit (text : String) :
    Agree (Machine.Alike w₁ w₂ n₁ n₂ ps f₁ f₂) (emit text) (emit text) := by
  intro m₁ m₂ hm
  obtain ⟨hreason, hlimit, hwritten⟩ := Sink.write_since hm.limit hm.written text
  simp only [emit]
  generalize m₁.sink.write text = r, m₂.sink.write text = r' at hreason hlimit hwritten
  obtain ⟨reason, sink₁⟩ := r
  obtain ⟨reason', sink₂⟩ := r'
  obtain rfl : reason = reason' := hreason
  cases reason with
  | none => exact .ok () ⟨hm.store, hlimit, hwritten⟩
  | some reason => exact .error (Halt.output reason) ⟨hm.store, hlimit, hwritten⟩

theorem agree_define (name : String) (v : Value) :
    Agree (Machine.Alike w₁ w₂ n₁ n₂ ps f₁ f₂) (modifyStore fun s => s.define f₁ name v)
      (modifyStore fun s => s.define f₂ name v) := by
  intro m₁ m₂ hm
  have hstore : (m₁.store.define f₁ name v).Alike n₁ n₂ ps f₁ f₂ (m₂.store.define f₂ name v) := by
    refine ⟨?_, ?_, hm.store.sees.define name v⟩
    · rw [Store.size_define, hm.store.size₁]
    · rw [Store.size_define, hm.store.size₂]
  exact .ok () ⟨hstore, hm.limit, hm.written⟩

/-- In a block, one more pair of frames is compared one by one; after it, one less. -/
theorem agree_inside {α : Type} {body₁ body₂ : Nat → Execution α}
    (h : Agree (Machine.Alike w₁ w₂ (n₁ + 1) (n₂ + 1) ((f₁, f₂) :: ps) n₁ n₂) (body₁ n₁)
      (body₂ n₂)) :
    Agree (Machine.Alike w₁ w₂ n₁ n₂ ps f₁ f₂) (inside f₁ body₁) (inside f₂ body₂) := by
  intro m₁ m₂ hm
  obtain ⟨⟨hsize₁, hsize₂, hsees⟩, hlimit, hwritten⟩ := hm
  -- leaving the block brings back the comparison that held before it
  have hleave : ∀ {m₁' m₂' : Machine},
      Machine.Alike w₁ w₂ (n₁ + 1) (n₂ + 1) ((f₁, f₂) :: ps) n₁ n₂ m₁' m₂' →
      Machine.Alike w₁ w₂ n₁ n₂ ps f₁ f₂ { m₁' with store := m₁'.store.drop }
        { m₂' with store := m₂'.store.drop } := by
    intro m₁' m₂' h'
    obtain ⟨⟨hsize₁', hsize₂', hsees'⟩, hlimit', hwritten'⟩ := h'
    refine ⟨⟨?_, ?_, hsees'.drop hsize₁' hsize₂'⟩, hlimit', hwritten'⟩
    · rw [Store.size_drop, hsize₁', Nat.add_sub_cancel]
    · rw [Store.size_drop, hsize₂', Nat.add_sub_cancel]
  have henter : Machine.Alike w₁ w₂ (n₁ + 1) (n₂ + 1) ((f₁, f₂) :: ps) n₁ n₂
      ⟨m₁.store.enclose f₁, m₁.sink⟩ ⟨m₂.store.enclose f₂, m₂.sink⟩ := by
    refine ⟨⟨?_, ?_, ?_⟩, hlimit, hwritten⟩
    · rw [Store.size_enclose, hsize₁]
    · rw [Store.size_enclose, hsize₂]
    · rw [← hsize₁, ← hsize₂]
      exact hsees.enclose
  have hresult := h _ _ henter
  simp only [inside, hsize₁, hsize₂]
  generalize body₁ n₁ _ = r, body₂ n₂ _ = r' at hresult
  cases hresult with
  | ok a h' => exact .ok a (hleave h')
  | error e h' => exact .error e (hleave h')

end Execution

theorem Expr.agree_run (e : Expr) :
    Agree (Machine.Alike w₁ w₂ n₁ n₂ ps f₁ f₂) (e.run f₁) (e.run f₂) :=
  Execution.agree_ofEvaluation e.agree_eval

theorem agree_initialValue (initial : Option Expr) :
    Agree (Machine.Alike w₁ w₂ n₁ n₂ ps f₁ f₂) (initialValue f₁ initial)
      (initialValue f₂ initial) := by
  cases initial with
  | none => exact .pure Value.nil
  | some e => exact e.agree_run

mutual

theorem Stmt.agree_exec {n₁ n₂ f₁ f₂ : Nat} {ps : List (Nat × Nat)} : (s : Stmt) →
    Agree (Machine.Alike w₁ w₂ n₁ n₂ ps f₁ f₂) (s.exec f₁) (s.exec f₂)
  | .expression e => by
    rw [exec, exec]
    exact e.agree_run.bind fun _ => .pure ()
  | .print e => by
    rw [exec, exec]
    exact e.agree_run.bind fun v => Execution.agree_emit _
  | .declaration name initial => by
    rw [exec, exec]
    exact (agree_initialValue initial).bind fun v => Execution.agree_define name.text v
  | .block body => by
    rw [exec, exec]
    exact Execution.agree_inside (agree_execAll body)

/-- Execution keeps machines alike. -/
theorem Stmt.agree_execAll {n₁ n₂ f₁ f₂ : Nat} {ps : List (Nat × Nat)} : (ss : List Stmt) →
    Agree (Machine.Alike w₁ w₂ n₁ n₂ ps f₁ f₂) (execAll f₁ ss) (execAll f₂ ss)
  | [] => by
    rw [execAll, execAll]
    exact .pure ()
  | s :: rest => by
    rw [execAll, execAll]
    exact (agree_exec s).bind fun _ => agree_execAll rest

end

/-! ## What can be observed -/

namespace Execution

variable {α : Type}

/-- How a computation ends. -/
def outcome (x : Execution α) (m : Machine) : Except Halt α :=
  match x m with
  | .ok a _ => .ok a
  | .error halt _ => .error halt

/-- The machine that a computation leaves, however it ends. -/
def after (x : Execution α) (m : Machine) : Machine :=
  match x m with
  | .ok _ m' => m'
  | .error _ m' => m'

/-- A block ends as its body does. -/
theorem outcome_inside (frame : Nat) (body : Nat → Execution α) (m : Machine) :
    (inside frame body).outcome m
      = (body m.store.size).outcome ⟨m.store.enclose frame, m.sink⟩ := by
  simp only [outcome, inside]
  cases body m.store.size ⟨m.store.enclose frame, m.sink⟩ <;> rfl

/-- A block writes what its body writes. -/
theorem sink_after_inside (frame : Nat) (body : Nat → Execution α) (m : Machine) :
    ((inside frame body).after m).sink
      = ((body m.store.size).after ⟨m.store.enclose frame, m.sink⟩).sink := by
  simp only [after, inside]
  cases body m.store.size ⟨m.store.enclose frame, m.sink⟩ <;> rfl

end Execution

theorem Agree.observe {R : Machine → Machine → Prop} {α : Type} {x y : Execution α}
    (h : Agree R x y) {m₁ m₂ : Machine} (hm : R m₁ m₂) :
    x.outcome m₁ = y.outcome m₂ ∧ R (x.after m₁) (y.after m₂) := by
  have hresult := h m₁ m₂ hm
  simp only [Execution.outcome, Execution.after]
  generalize x m₁ = r, y m₂ = r' at hresult
  cases hresult with
  | ok a h' => exact ⟨rfl, h'⟩
  | error e h' => exact ⟨rfl, h'⟩

/-- Two runs of the same statements in frames that see the same names. -/
theorem Stmt.execAll_congr_get? (ss : List Stmt) {m₁ m₂ : Machine} {f₁ f₂ : Nat}
    (h₁ : f₁ < m₁.store.size) (h₂ : f₂ < m₂.store.size)
    (hlimit : m₁.sink.limit = m₂.sink.limit)
    (hget : ∀ n, m₁.store.get? f₁ n = m₂.store.get? f₂ n) :
    (execAll f₁ ss).outcome m₁ = (execAll f₂ ss).outcome m₂
    ∧ (∃ bytes, ((execAll f₁ ss).after m₁).sink.written = m₁.sink.written ++ bytes
      ∧ ((execAll f₂ ss).after m₂).sink.written = m₂.sink.written ++ bytes)
    ∧ ((execAll f₁ ss).after m₁).sink.limit = ((execAll f₂ ss).after m₂).sink.limit
    ∧ ∀ n, ((execAll f₁ ss).after m₁).store.get? f₁ n
        = ((execAll f₂ ss).after m₂).store.get? f₂ n := by
  have halike : Machine.Alike m₁.sink.written m₂.sink.written m₁.store.size m₂.store.size [] f₁ f₂
      m₁ m₂ := by
    refine ⟨⟨rfl, rfl, .outside h₁ h₂ hget⟩, hlimit, ByteArray.empty, ?_, ?_⟩
    · rw [ByteArray.append_empty]
    · rw [ByteArray.append_empty]
  obtain ⟨houtcome, ⟨-, -, hsees⟩, hlimit', hwritten⟩ := (agree_execAll ss).observe halike
  exact ⟨houtcome, hwritten, hlimit', hsees.get?_eq⟩

/-- **Execution sees names only.** Two runs of the same statements, in frames that see the same
names with the same values, end in the same way, write the same bytes, and leave the frames seeing
the same again. So statements in a block of their own do the same as without the block, as far as
their end and their output are concerned. -/
theorem Stmt.execAll_sees_names (ss : List Stmt) :
    (∀ (m₁ m₂ : Machine) (f₁ f₂ : Nat), f₁ < m₁.store.size → f₂ < m₂.store.size →
      m₁.sink.limit = m₂.sink.limit → (∀ n, m₁.store.get? f₁ n = m₂.store.get? f₂ n) →
      (execAll f₁ ss).outcome m₁ = (execAll f₂ ss).outcome m₂
      ∧ (∃ bytes, ((execAll f₁ ss).after m₁).sink.written = m₁.sink.written ++ bytes
        ∧ ((execAll f₂ ss).after m₂).sink.written = m₂.sink.written ++ bytes)
      ∧ ((execAll f₁ ss).after m₁).sink.limit = ((execAll f₂ ss).after m₂).sink.limit
      ∧ ∀ n, ((execAll f₁ ss).after m₁).store.get? f₁ n
          = ((execAll f₂ ss).after m₂).store.get? f₂ n)
    ∧ ∀ (m : Machine) (f : Nat), f < m.store.size →
      (exec f (.block ss)).outcome m = (execAll f ss).outcome m
      ∧ ((exec f (.block ss)).after m).sink = ((execAll f ss).after m).sink := by
  refine ⟨fun m₁ m₂ f₁ f₂ h₁ h₂ => execAll_congr_get? ss h₁ h₂, fun m f hf => ?_⟩
  -- the body runs in a new frame, which sees what the frame around it sees
  have hget : ∀ n, (m.store.enclose f).get? m.store.size n = m.store.get? f n := by
    intro n
    have hsame := m.store.sameUpTo_enclose hf f
    rw [Store.get?_eq, Store.lookup?_enclose, m.store.parent?_enclose hf, Option.none_or,
      Option.bind_some, hsame.get?_eq]
  have hsize : m.store.size < (Machine.mk (m.store.enclose f) m.sink).store.size := by
    show m.store.size < (m.store.enclose f).size
    rw [Store.size_enclose]
    omega
  obtain ⟨houtcome, ⟨bytes, hwritten₁, hwritten₂⟩, hlimit, -⟩ :=
    execAll_congr_get? ss hsize hf rfl hget
  rw [exec, Execution.outcome_inside, Execution.sink_after_inside]
  exact ⟨houtcome, Sink.eq_of_written_eq (hwritten₁.trans hwritten₂.symm) hlimit⟩

/-- One frame that binds `a` and, on a machine with some output before, a frame that hides another
`a` further out. -/
theorem Stmt.execAll_sees_names_hidden :
    let ss : List Stmt := [.expression (.assign ⟨"a", 1⟩ (.literal .nil)), .print (.var ⟨"b", 2⟩)]
    let m₁ : Machine := ⟨⟨#[⟨[("a", .bool true)], none⟩]⟩, .unlimited⟩
    let m₂ : Machine :=
      ⟨⟨#[⟨[("a", .bool false)], none⟩, ⟨[("a", .bool true)], some 0⟩]⟩, ⟨"b".toUTF8, none⟩⟩
    0 < m₁.store.size ∧ 1 < m₂.store.size ∧ m₁.sink.limit = m₂.sink.limit
    ∧ (∀ n, m₁.store.get? 0 n = m₂.store.get? 1 n)
    ∧ ((execAll 0 ss).outcome m₁ = (execAll 1 ss).outcome m₂
      ∧ (∃ bytes, ((execAll 0 ss).after m₁).sink.written = m₁.sink.written ++ bytes
        ∧ ((execAll 1 ss).after m₂).sink.written = m₂.sink.written ++ bytes)
      ∧ ((execAll 0 ss).after m₁).sink.limit = ((execAll 1 ss).after m₂).sink.limit
      ∧ ∀ n, ((execAll 0 ss).after m₁).store.get? 0 n = ((execAll 1 ss).after m₂).store.get? 1 n)
    ∧ (exec 1 (.block ss)).outcome m₂ = (execAll 1 ss).outcome m₂
    ∧ ((exec 1 (.block ss)).after m₂).sink = ((execAll 1 ss).after m₂).sink := by
  intro ss m₁ m₂
  have h₁ : 0 < m₁.store.size := by decide
  have h₂ : 1 < m₂.store.size := by decide
  have hget : ∀ n, m₁.store.get? 0 n = m₂.store.get? 1 n := by
    intro n
    have hglobal : m₁.store.parent? 0 = none := by decide
    have hinner : m₂.store.parent? 1 = some 0 := by decide
    have houter : m₂.store.parent? 0 = none := by decide
    have hown : m₂.store.lookup? 1 n = m₁.store.lookup? 0 n := rfl
    rw [Store.get?_eq, Store.get?_eq m₂.store 1, hglobal, hinner, hown, Option.bind_some,
      Store.get?_eq m₂.store 0, houter]
    by_cases hn : n = "a"
    · subst hn
      rfl
    · have hhidden : m₂.store.lookup? 0 n = none := by
        show List.lookup n [("a", Value.bool false)] = none
        rw [List.lookup_cons, beq_false_of_ne hn, List.lookup_nil]
      rw [hhidden, Option.none_or, Option.bind_none, Option.bind_none]
  exact ⟨h₁, h₂, rfl, hget, (execAll_sees_names ss).1 m₁ m₂ 0 1 h₁ h₂ rfl hget,
    (execAll_sees_names ss).2 m₂ 1 h₂⟩

end Lox
