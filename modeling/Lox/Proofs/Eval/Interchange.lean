import Lox.Proofs.Eval.Lookup
import Lox.Proofs.Store.Same

/-!
# Lox — equal numbers are interchangeable

Two programs whose number literals are equal in pairs, run where equal values are bound, print the
same bytes, end in the same way and leave equal values. No operation shows with how many fractional
digits a number is held, or whether a zero has a sign.

* **`Stmt.SameAll`** — statements that differ in number literals of equal values only.
* **`Relates`** — two computations with related results on related states.
* **`Expr.relates_eval`**, **`Stmt.relates_execAll`** — evaluation and execution of such trees.
* **`Stmt.execAll_same`** — what is seen of two runs.
-/

namespace Lox

/-! ## Trees with equal numbers -/

/-- The expressions differ in number literals of equal values only. -/
inductive Expr.Same : Expr → Expr → Prop
  | number {a b : Decimal} (h : a.equals b = true) :
      Same (.literal (.number a)) (.literal (.number b))
  | literal (value : Literal) : Same (.literal value) (.literal value)
  | var (name : Lexeme) : Same (.var name) (.var name)
  | assign (name : Lexeme) {e e' : Expr} (h : Same e e') : Same (.assign name e) (.assign name e')
  | group {e e' : Expr} (h : Same e e') : Same (.group e) (.group e')
  | unary (op : UnaryOp) (sign : Lexeme) {e e' : Expr} (h : Same e e') :
      Same (.unary op sign e) (.unary op sign e')
  | binary (op : BinaryOp) (sign : Lexeme) {l l' r r' : Expr} (hl : Same l l') (hr : Same r r') :
      Same (.binary op sign l r) (.binary op sign l' r')

mutual

/-- The statements differ in number literals of equal values only. -/
inductive Stmt.Same : Stmt → Stmt → Prop
  | expression {e e' : Expr} (h : e.Same e') : Stmt.Same (.expression e) (.expression e')
  | print {e e' : Expr} (h : e.Same e') : Stmt.Same (.print e) (.print e')
  | declaration (name : Lexeme) {e e' : Option Expr} (h : Option.Rel Expr.Same e e') :
      Stmt.Same (.declaration name e) (.declaration name e')
  | block {ss ss' : List Stmt} (h : Stmt.SameAll ss ss') : Stmt.Same (.block ss) (.block ss')

inductive Stmt.SameAll : List Stmt → List Stmt → Prop
  | nil : Stmt.SameAll [] []
  | cons {s s' : Stmt} {ss ss' : List Stmt} (h : Stmt.Same s s') (hs : Stmt.SameAll ss ss') :
      Stmt.SameAll (s :: ss) (s' :: ss')

end

/-! ## Two computations -/

section

variable {ε σ α β : Type} {V : α → α → Prop} {W : β → β → Prop} {E : ε → ε → Prop}
  {R : σ → σ → Prop}

/-- Two results that are both values or both errors, related as such, in related states. -/
inductive RelatedResult (V : α → α → Prop) (E : ε → ε → Prop) (R : σ → σ → Prop) :
    EStateM.Result ε σ α → EStateM.Result ε σ α → Prop
  | ok {a b : α} (hv : V a b) {s t : σ} (h : R s t) : RelatedResult V E R (.ok a s) (.ok b t)
  | error {e e' : ε} (he : E e e') {s t : σ} (h : R s t) :
      RelatedResult V E R (.error e s) (.error e' t)

/-- Two computations that have related results on related states. -/
def Relates (V : α → α → Prop) (E : ε → ε → Prop) (R : σ → σ → Prop) (x y : EStateM ε σ α) : Prop :=
  ∀ s t, R s t → RelatedResult V E R (x s) (y t)

theorem Relates.pure {a b : α} (h : V a b) :
    Relates V E R (pure a : EStateM ε σ α) (pure b) := fun _ _ hst => .ok h hst

theorem Relates.bind {x y : EStateM ε σ α} {k l : α → EStateM ε σ β} (hx : Relates V E R x y)
    (hk : ∀ a b, V a b → Relates W E R (k a) (l b)) : Relates W E R (x >>= k) (y >>= l) := by
  intro s t h
  have hresult := hx s t h
  simp only [Bind.bind, EStateM.bind]
  generalize x s = r, y t = r' at hresult
  cases hresult with
  | ok hv h' => exact hk _ _ hv _ _ h'
  | error he h' => exact .error he h'

end

/-! ## Evaluation -/

/-- The same failure at the same lexeme, of equal operands. -/
def RuntimeError.Same (e e' : RuntimeError) : Prop :=
  e.blamed = e'.blamed ∧ e.cause.Same e'.cause

variable {n n' f f' : Nat} {ps : List (Nat × Nat)}

namespace Evaluation

theorem relates_ofOperation (sign : Lexeme) {r r' : Except RuntimeError.Cause Value}
    (h : BothEnd RuntimeError.Cause.Same Value.Same r r') :
    Relates Value.Same RuntimeError.Same (Store.Matched n n' f f' ps) (ofOperation sign r)
      (ofOperation sign r') := by
  intro s s' hs
  cases h with
  | ok hv => exact .ok hv hs
  | error hcause => exact .error ⟨rfl, hcause⟩ hs

theorem relates_read (name : Lexeme) :
    Relates Value.Same RuntimeError.Same (Store.Matched n n' f f' ps) (read f name)
      (read f' name) := by
  intro s s' hs
  have hseen := hs.get? name.text
  unfold read
  generalize s.get? f name.text = o, s'.get? f' name.text = o' at hseen
  cases hseen with
  | some hv => exact .ok hv hs
  | none => exact .error ⟨rfl, .undefinedVariable name.text⟩ hs

theorem relates_write (name : Lexeme) {v v' : Value} (hv : v.Same v') :
    Relates Value.Same RuntimeError.Same (Store.Matched n n' f f' ps) (write f name v)
      (write f' name v') := by
  intro s s' hs
  have hassign := hs.assign name.text hv
  unfold write
  generalize s.assign? f name.text v = o, s'.assign? f' name.text v' = o' at hassign
  cases hassign with
  | some hmatched => exact .ok hv hmatched
  | none => exact .error ⟨rfl, .undefinedVariable name.text⟩ hs

end Evaluation

/-- Evaluation of trees with equal numbers. -/
theorem Expr.relates_eval {e e' : Expr} (h : e.Same e') :
    Relates Value.Same RuntimeError.Same (Store.Matched n n' f f' ps) (e.eval f) (e'.eval f') := by
  induction h with
  | number h => exact .pure h
  | literal value => exact .pure (.refl value.value)
  | var name => exact Evaluation.relates_read name
  | assign name _ ih => exact ih.bind fun v v' hv => Evaluation.relates_write name hv
  | group _ ih => exact ih
  | unary op sign _ ih =>
    exact ih.bind fun v v' hv => Evaluation.relates_ofOperation sign (op.apply_same hv)
  | binary op sign _ _ ihl ihr =>
    exact ihl.bind fun v v' hv => ihr.bind fun w w' hw =>
      Evaluation.relates_ofOperation sign (op.apply_same hv hw)

/-! ## Execution -/

/-- Stops for the same reason. -/
inductive Halt.Same : Halt → Halt → Prop
  | runtime {e e' : RuntimeError} (h : e.Same e') : Halt.Same (.runtime e) (.runtime e')
  | output (reason : String) : Halt.Same (.output reason) (.output reason)

/-- The stores are matched, and the sinks have the same limit and were written the same bytes since
they held `w` and `w'`. -/
structure Machine.Matched (w w' : ByteArray) (n n' f f' : Nat) (ps : List (Nat × Nat))
    (m m' : Machine) : Prop where
  store : m.store.Matched n n' f f' ps m'.store
  limit : m.sink.limit = m'.sink.limit
  written : ∃ bytes, m.sink.written = w ++ bytes ∧ m'.sink.written = w' ++ bytes

variable {w w' : ByteArray}

namespace Execution

variable {α : Type} {V : α → α → Prop}

theorem relates_ofEvaluation {x y : Evaluation α}
    (h : Relates V RuntimeError.Same (Store.Matched n n' f f' ps) x y) :
    Relates V Halt.Same (Machine.Matched w w' n n' f f' ps) (ofEvaluation x) (ofEvaluation y) := by
  intro m m' hm
  have hresult := h m.store m'.store hm.store
  simp only [ofEvaluation]
  generalize x m.store = r, y m'.store = r' at hresult
  cases hresult with
  | ok hv hstore => exact .ok hv ⟨hstore, hm.limit, hm.written⟩
  | error he hstore => exact .error (.runtime he) ⟨hstore, hm.limit, hm.written⟩

theorem relates_emit (text : String) :
    Relates Eq Halt.Same (Machine.Matched w w' n n' f f' ps) (emit text) (emit text) := by
  intro m m' hm
  obtain ⟨hreason, hlimit, hwritten⟩ := Sink.write_since hm.limit hm.written text
  simp only [emit]
  generalize m.sink.write text = r, m'.sink.write text = r' at hreason hlimit hwritten
  obtain ⟨reason, sink⟩ := r
  obtain ⟨reason', sink'⟩ := r'
  obtain rfl : reason = reason' := hreason
  cases reason with
  | none => exact .ok rfl ⟨hm.store, hlimit, hwritten⟩
  | some reason => exact .error (.output reason) ⟨hm.store, hlimit, hwritten⟩

/-- Equal values are printed alike. -/
theorem relates_printLine {v v' : Value} (hv : v.Same v') :
    Relates Eq Halt.Same (Machine.Matched w w' n n' f f' ps) (printLine v) (printLine v') := by
  rw [printLine, printLine, hv.display_eq]
  exact relates_emit _

theorem relates_define (name : String) {v v' : Value} (hv : v.Same v') :
    Relates Eq Halt.Same (Machine.Matched w w' n n' f f' ps)
      (modifyStore fun s => s.define f name v) (modifyStore fun s => s.define f' name v') := by
  intro m m' hm
  exact .ok rfl ⟨hm.store.define List.mem_cons_self name hv, hm.limit, hm.written⟩

/-- In a block, the chains have one more pair of frames; after it, one less. -/
theorem relates_inside {body body' : Nat → Execution α}
    (h : Relates V Halt.Same (Machine.Matched w w' (n + 1) (n' + 1) n n' ((f, f') :: ps)) (body n)
      (body' n')) :
    Relates V Halt.Same (Machine.Matched w w' n n' f f' ps) (inside f body) (inside f' body') := by
  intro m m' hm
  obtain ⟨hstore, hlimit, hwritten⟩ := hm
  have hleave : ∀ {k k' : Machine},
      Machine.Matched w w' (n + 1) (n' + 1) n n' ((f, f') :: ps) k k' →
      Machine.Matched w w' n n' f f' ps { k with store := k.store.drop }
        { k' with store := k'.store.drop } := fun hk => ⟨hk.store.drop, hk.limit, hk.written⟩
  have hresult := h ⟨m.store.enclose f, m.sink⟩ ⟨m'.store.enclose f', m'.sink⟩
    ⟨hstore.enclose, hlimit, hwritten⟩
  simp only [inside, hstore.size, hstore.size']
  generalize body n _ = r, body' n' _ = r' at hresult
  cases hresult with
  | ok hv hk => exact .ok hv (hleave hk)
  | error he hk => exact .error he (hleave hk)

end Execution

theorem Expr.relates_run {e e' : Expr} (h : e.Same e') :
    Relates Value.Same Halt.Same (Machine.Matched w w' n n' f f' ps) (e.run f) (e'.run f') :=
  Execution.relates_ofEvaluation (relates_eval h)

theorem relates_initialValue {e e' : Option Expr} (h : Option.Rel Expr.Same e e') :
    Relates Value.Same Halt.Same (Machine.Matched w w' n n' f f' ps) (initialValue f e)
      (initialValue f' e') := by
  cases h with
  | none => exact .pure (.refl .nil)
  | some h => exact Expr.relates_run h

mutual

theorem Stmt.relates_exec {n n' f f' : Nat} {ps : List (Nat × Nat)} {s s' : Stmt} :
    Stmt.Same s s' →
    Relates Eq Halt.Same (Machine.Matched w w' n n' f f' ps) (s.exec f) (s'.exec f')
  | .expression h => by
    rw [exec, exec]
    exact (Expr.relates_run h).bind fun _ _ _ => .pure rfl
  | .print h => by
    rw [exec, exec]
    exact (Expr.relates_run h).bind fun v v' hv => Execution.relates_printLine hv
  | .declaration name h => by
    rw [exec, exec]
    exact (relates_initialValue h).bind fun v v' hv => Execution.relates_define name.text hv
  | .block h => by
    rw [exec, exec]
    exact Execution.relates_inside (relates_execAll h)

/-- Execution of trees with equal numbers. -/
theorem Stmt.relates_execAll {n n' f f' : Nat} {ps : List (Nat × Nat)} {ss ss' : List Stmt} :
    Stmt.SameAll ss ss' →
    Relates Eq Halt.Same (Machine.Matched w w' n n' f f' ps) (execAll f ss) (execAll f' ss')
  | .nil => by
    rw [execAll, execAll]
    exact .pure rfl
  | .cons h hs => by
    rw [execAll, execAll]
    exact (relates_exec h).bind fun _ _ _ => relates_execAll hs

end

/-! ## What can be observed -/

theorem Relates.observe {R : Machine → Machine → Prop} {E : Halt → Halt → Prop} {α : Type}
    {V : α → α → Prop} {x y : Execution α} (h : Relates V E R x y) {m m' : Machine} (hm : R m m') :
    BothEnd E V (x.outcome m) (y.outcome m') ∧ R (x.after m) (y.after m') := by
  have hresult := h m m' hm
  simp only [Execution.outcome, Execution.after]
  generalize x m = r, y m' = r' at hresult
  cases hresult with
  | ok hv h' => exact ⟨.ok hv, h'⟩
  | error he h' => exact ⟨.error he, h'⟩

/-- **Equal numbers are interchangeable.** Statements that differ in number literals of equal values
only, run in frames whose chains bind the same names to equal values, print the same bytes, end in
the same way — an error is of the same kind, at the same lexeme, with equal operands — and leave the
same chains, again with equal values. Of two equal values, neither printing nor any operator tells
which of them it was given. -/
theorem Stmt.execAll_same :
    (∀ (ss ss' : List Stmt) (m m' : Machine) (f f' : Nat), SameAll ss ss' →
      f < m.store.size → f' < m'.store.size → m.sink.limit = m'.sink.limit →
      m.store.SameChain m'.store f f' →
      BothEnd Halt.Same Eq ((execAll f ss).outcome m) ((execAll f' ss').outcome m')
      ∧ (∃ bytes, ((execAll f ss).after m).sink.written = m.sink.written ++ bytes
        ∧ ((execAll f' ss').after m').sink.written = m'.sink.written ++ bytes)
      ∧ ((execAll f ss).after m).sink.limit = ((execAll f' ss').after m').sink.limit
      ∧ ((execAll f ss).after m).store.chain f = m.store.chain f
      ∧ ((execAll f' ss').after m').store.chain f' = m'.store.chain f'
      ∧ ((execAll f ss).after m).store.SameChain ((execAll f' ss').after m').store f f')
    ∧ (∀ v v' : Value, v.Same v' → v.display = v'.display ∧ v.truthy = v'.truthy
      ∧ ∀ op : UnaryOp, BothEnd RuntimeError.Cause.Same Value.Same (op.apply v) (op.apply v'))
    ∧ ∀ (op : BinaryOp) (v v' w w' : Value), v.Same v' → w.Same w' →
      BothEnd RuntimeError.Cause.Same Value.Same (op.apply v w) (op.apply v' w') := by
  refine ⟨fun ss ss' m m' f f' hss hf hf' hlimit hchain => ?_,
    fun v v' hv => ⟨hv.display_eq, hv.truthy_eq, fun op => op.apply_same hv⟩,
    fun op v v' w w' hv hw => op.apply_same hv hw⟩
  obtain ⟨ps, hstore⟩ := hchain.exists_matched hf hf'
  have hmatched : Machine.Matched m.sink.written m'.sink.written m.store.size m'.store.size f f' ps
      m m' := by
    refine ⟨hstore, hlimit, ByteArray.empty, ?_, ?_⟩
    · rw [ByteArray.append_empty]
    · rw [ByteArray.append_empty]
  obtain ⟨hend, hstore', hlimit', hwritten⟩ := (relates_execAll hss).observe hmatched
  refine ⟨hend, hwritten, hlimit', ?_, ?_, hstore'.sameChain⟩
  · rw [hstore'.chain, hstore.chain]
  · rw [hstore'.chain', hstore.chain']

/-- The number 1.5, and the same with another digit after the point. -/
def oneAndHalf : Decimal := ⟨false, 15, 1, by decide, by decide⟩

def oneAndHalfLong : Decimal := ⟨false, 150, 2, by decide, by decide⟩

/-- Zero with a sign, and with fractional digits. -/
def minusZero : Decimal := ⟨true, 0, 3, by decide, by decide⟩

/-- A program that prints a product with a literal and then fails with a quotient by it. -/
def productThenQuotient (n : Decimal) : List Stmt :=
  [.print (.binary .multiply ⟨"*", 1⟩ (.literal (.number n)) (.var ⟨"x", 1⟩)),
   .expression (.binary .divide ⟨"/", 2⟩ (.literal (.number n)) (.var ⟨"x", 2⟩))]

theorem Stmt.execAll_same_zeros :
    let m : Machine := ⟨⟨#[⟨[("x", .number Decimal.zero)], none⟩]⟩, .unlimited⟩
    let m' : Machine :=
      ⟨⟨#[⟨[], none⟩, ⟨[("x", .number minusZero)], none⟩]⟩, .unlimited⟩
    SameAll (productThenQuotient oneAndHalf) (productThenQuotient oneAndHalfLong)
    ∧ m.store.SameChain m'.store 0 1
    ∧ BothEnd Halt.Same Eq ((execAll 0 (productThenQuotient oneAndHalf)).outcome m)
      ((execAll 1 (productThenQuotient oneAndHalfLong)).outcome m')
    ∧ (Value.number minusZero).display = (Value.number Decimal.zero).display
    ∧ BothEnd RuntimeError.Cause.Same Value.Same
      (BinaryOp.multiply.apply (.number minusZero) (.number oneAndHalf))
      (BinaryOp.multiply.apply (.number Decimal.zero) (.number oneAndHalfLong)) := by
  intro m m'
  have hhalf : oneAndHalf.equals oneAndHalfLong = true := by decide
  have hzero : (Value.number minusZero).Same (.number Decimal.zero) := by
    show minusZero.equals Decimal.zero = true
    decide
  have hss : SameAll (productThenQuotient oneAndHalf) (productThenQuotient oneAndHalfLong) :=
    .cons (.print (.binary _ _ (.number hhalf) (.var _)))
      (.cons (.expression (.binary _ _ (.number hhalf) (.var _))) .nil)
  have hchain : m.store.chain 0 = [0] := by decide +kernel
  have hchain' : m'.store.chain 1 = [1] := by decide +kernel
  have hsame : m.store.SameChain m'.store 0 1 := by
    rw [Store.SameChain, hchain, hchain']
    refine ⟨rfl, fun p hp n => ?_⟩
    obtain rfl := List.mem_singleton.1 hp
    by_cases hn : n = "x"
    · subst hn
      exact .some hzero.symm
    · have hmissing : (n == "x") = false := beq_false_of_ne hn
      simp [m, m', Store.lookup?, Frame.lookup?, List.lookup_cons, hmissing]
  obtain ⟨hruns, hvalues, hoperators⟩ := execAll_same
  exact ⟨hss, hsame, (hruns _ _ m m' 0 1 hss (by decide) (by decide) rfl hsame).1,
    (hvalues _ _ hzero).1, hoperators .multiply _ _ _ _ hzero hhalf⟩

end Lox
