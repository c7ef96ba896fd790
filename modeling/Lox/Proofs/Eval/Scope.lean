import Lox.Proofs.Eval.Changes
import Lox.Proofs.Eval.Code
import Lox.Proofs.Store.Forest
import Mathlib

/-!
# Lox — scopes of names

Names are looked up in frames while statements are executed, but whether a name will be found can
be told from the statements alone: it is found if it was bound before they were started, or if it is
declared before it is used, in the same list of statements or around the block.

* **`Stmt.usesOfAll`** — the places at which statements use names, each with the names that are
  declared for it.
* **`Store.inScope`** — the names that are found from a frame.
* **`Store.ChangedOnly.inScope_eq`** — what a statement that comes to its end does to them.
* **`Stmt.execAll_scope_law`** — a name is not found exactly where it is out of scope.
-/

namespace Lox

/-! ## Uses of names -/

/-- The names that an expression reads and assigns to, in the order in which evaluation comes to
them: the value of an assignment before its target, and operands from left to right. -/
def Expr.uses : Expr → List Lexeme
  | .literal _ => []
  | .var name => [name]
  | .assign name value => value.uses ++ [name]
  | .group inner => inner.uses
  | .unary _ _ operand => operand.uses
  | .binary _ _ left right => left.uses ++ right.uses

/-- A place at which a name is used, and the names that are declared for it. -/
structure Use where
  name : Lexeme
  scope : List String
deriving DecidableEq

mutual

/-- The uses of names in a statement, for which the names `scope` are declared. The first value of a
declaration does not see the name that is declared. -/
def Stmt.uses (scope : List String) : Stmt → List Use
  | .expression e | .print e => e.uses.map (⟨·, scope⟩)
  | .declaration _ initial => (initial.elim [] Expr.uses).map (⟨·, scope⟩)
  | .block body => Stmt.usesOfAll scope body

/-- The uses of names in statements. Each statement sees what those before it declare, and what a
block declares is not seen after it. -/
def Stmt.usesOfAll (scope : List String) : List Stmt → List Use
  | [] => []
  | s :: rest => s.uses scope ++ Stmt.usesOfAll (scope ++ s.declared?.toList) rest

end

-- what the block declares is seen up to its end, and the declaration does not see itself
example : Stmt.usesOfAll []
      [.declaration ⟨"a", 1⟩ (some (.var ⟨"a", 1⟩)),
       .block [.declaration ⟨"b", 2⟩ none, .print (.var ⟨"b", 2⟩)],
       .expression (.assign ⟨"b", 3⟩ (.var ⟨"a", 3⟩))]
    = [⟨⟨"a", 1⟩, []⟩, ⟨⟨"b", 2⟩, ["a", "b"]⟩, ⟨⟨"a", 3⟩, ["a"]⟩, ⟨⟨"b", 3⟩, ["a"]⟩] := by
  decide

/-! ## Names that are found -/

namespace Store

variable (s : Store) {f : Nat}

/-- Whether a frame on the chain of `f` binds the name. -/
def inScope (f : Nat) (n : String) : Bool := (s.chain f).any fun g => (s.lookup? g n).isSome

theorem isSome_get? (f : Nat) (n : String) : (s.get? f n).isSome = s.inScope f n := by
  rw [get?_eq_findSome?, List.isSome_findSome?, inScope]

/-- In a new frame, the names around it are found. -/
theorem inScope_enclose (hf : f < s.size) (n : String) :
    (s.enclose f).inScope s.size n = s.inScope f n := by
  rw [← isSome_get?, ← isSome_get?, get?_enclose s hf]

/-- What was changed in a frame adds the declared names to those that are found from it. -/
theorem ChangedOnly.inScope_eq {s s' : Store} {ts ds : List String}
    (h : ChangedOnly f ts ds s s') (hf : f < s.size)
    (hds : ∀ n ∈ ds, (s'.lookup? f n).isSome = true) (n : String) :
    s'.inScope f n = (s.inScope f n || ds.contains n) := by
  have hchain := s.chain_eq hf
  have hnodup := s.nodup_chain f
  have haround := h.around
  rw [inScope, inScope, h.chain_eq]
  rw [hchain] at hnodup haround ⊢
  -- the frames around the first one bind what they bound
  have hrest : (((s.parent? f).elim [] s.chain).any fun g => (s'.lookup? g n).isSome)
      = ((s.parent? f).elim [] s.chain).any fun g => (s.lookup? g n).isSome := by
    rw [Bool.eq_iff_iff, List.any_eq_true, List.any_eq_true]
    refine exists_congr fun g => and_congr_right fun hg => ?_
    have hne : g ≠ f := by
      rintro rfl
      exact (List.nodup_cons.1 hnodup).1 hg
    rw [haround g (List.mem_cons_of_mem _ hg) hne n]
  have hown : (s'.lookup? f n).isSome = ((s.lookup? f n).isSome || ds.contains n) := by
    rw [Bool.eq_iff_iff, Bool.or_eq_true, List.contains_iff_mem]
    exact ⟨h.added n, fun hn => hn.elim (h.kept n) (hds n)⟩
  rw [List.any_cons, List.any_cons, hrest, hown, Bool.or_right_comm]

end Store

/-! ## Operations look up no names -/

theorem UnaryOp.apply_ne_undefinedVariable (op : UnaryOp) (v : Value) (n : String) :
    op.apply v ≠ .error (.undefinedVariable n) := by
  unfold apply
  split <;> simp

theorem Value.ofResult?_ne_undefinedVariable (result : Option Decimal) (n : String) :
    ofResult? result ≠ .error (.undefinedVariable n) := by
  cases result <;> simp [ofResult?]

theorem BinaryOp.apply_ne_undefinedVariable (op : BinaryOp) (v w : Value) (n : String) :
    op.apply v w ≠ .error (.undefinedVariable n) := by
  have hnumbers : ∀ a b : Decimal, op.applyNumbers a b ≠ .error (.undefinedVariable n) := by
    intro a b
    unfold applyNumbers
    split
    case h_10 =>
      split
      · simp
      · exact Value.ofResult?_ne_undefinedVariable _ n
    case h_7 | h_8 | h_9 => exact Value.ofResult?_ne_undefinedVariable _ n
    all_goals simp
  unfold apply
  split
  · exact hnumbers _ _
  all_goals simp

/-! ## The first use out of scope -/

/-- How a computation ends if `missing` is the first name out of scope that it uses: it comes to its
end only if there is no such name, and a name that is not found is this one. -/
def EndsAt {α : Type} (missing : Option Lexeme) : EStateM.Result Halt Machine α → Prop
  | .ok _ _ => missing = none
  | .error h _ => ∀ n name, h = .runtime ⟨.undefinedVariable n, name⟩ →
      n = name.text ∧ missing = some name

section

variable {α β : Type} {missing missing' : Option Lexeme} {m : Machine}

/-- Of the names that are used one after the other, the first one out of scope is the first of the
first part, if that has one. -/
theorem EndsAt.bind {x : Execution α} {k : α → Execution β} (hx : EndsAt missing (x m))
    (hk : ∀ a m', x m = .ok a m' → EndsAt missing' (k a m')) :
    EndsAt (missing.or missing') ((x >>= k) m) := by
  simp only [Bind.bind, EStateM.bind]
  cases hr : x m with
  | ok a m' =>
    rw [hr] at hx
    obtain rfl : missing = none := hx
    exact hk a m' hr
  | error h m' =>
    rw [hr] at hx
    intro n name hn
    obtain ⟨hname, rfl⟩ := hx n name hn
    exact ⟨hname, rfl⟩

theorem EndsAt.inside {f : Nat} {body : Nat → Execution α}
    (h : EndsAt missing (body m.store.size ⟨m.store.enclose f, m.sink⟩)) :
    EndsAt missing (Execution.inside f body m) := by
  simp only [Execution.inside]
  cases hr : body m.store.size ⟨m.store.enclose f, m.sink⟩ <;> rw [hr] at h <;> exact h

end

namespace Execution

variable (m : Machine)

theorem endsAt_ofOperation (sign : Lexeme) {result : Except RuntimeError.Cause Value}
    (h : ∀ n, result ≠ .error (.undefinedVariable n)) :
    EndsAt none (ofEvaluation (.ofOperation sign result) m) := by
  cases result with
  | ok v => rfl
  | error cause =>
    rintro n name ⟨⟩
    exact absurd rfl (h n)

theorem endsAt_read (f : Nat) (name : Lexeme) :
    EndsAt ([name].find? fun x => !m.store.inScope f x.text) (ofEvaluation (.read f name) m) := by
  simp only [ofEvaluation, Evaluation.read, List.find?_cons, List.find?_nil, ← Store.isSome_get?]
  cases m.store.get? f name.text with
  | some v => rfl
  | none =>
    rintro n _ ⟨⟩
    exact ⟨rfl, rfl⟩

theorem endsAt_write (f : Nat) (name : Lexeme) (v : Value) :
    EndsAt ([name].find? fun x => !m.store.inScope f x.text)
      (ofEvaluation (.write f name v) m) := by
  simp only [ofEvaluation, Evaluation.write, List.find?_cons, List.find?_nil, ← Store.isSome_get?]
  cases hassign : m.store.assign? f name.text v with
  | some s' =>
    have hfound : m.store.get? f name.text ≠ none := by
      rw [Ne, ← m.store.assign?_eq_none_iff (v := v), hassign]
      exact Option.some_ne_none s'
    rw [Option.isSome_iff_ne_none.2 hfound]
    rfl
  | none =>
    rw [m.store.assign?_eq_none_iff.1 hassign]
    rintro n _ ⟨⟩
    exact ⟨rfl, rfl⟩

theorem endsAt_printLine (v : Value) : EndsAt none (printLine v m) := by
  simp only [printLine, emit]
  rcases m.sink.write (v.display ++ "\n") with ⟨_ | reason, sink⟩
  · rfl
  · rintro n name ⟨⟩

end Execution

/-- Evaluation leaves the names in scope as they are. -/
theorem Expr.inScope_of_run_eq_ok {e : Expr} {f : Nat} {m m' : Machine} {v : Value}
    (hf : f < m.store.size) (h : e.run f m = .ok v m') (n : String) :
    m'.store.inScope f n = m.store.inScope f n := by
  have hchanged := (e.leaves_run f).of_eq_ok h
  rw [Store.ChangedOnly.inScope_eq hchanged hf nofun]
  simp

/-- Evaluation stops at the first name out of scope. -/
theorem Expr.endsAt_run (e : Expr) {f : Nat} {m : Machine} (hf : f < m.store.size) :
    EndsAt (e.uses.find? fun name => !m.store.inScope f name.text) (e.run f m) := by
  induction e generalizing m with
  | literal l => rfl
  | var name => exact Execution.endsAt_read m f name
  | assign name value ih =>
    rw [uses, List.find?_append, run, eval, Execution.ofEvaluation_bind]
    refine (ih hf).bind fun v m' hvalue => ?_
    simp only [← inScope_of_run_eq_ok hf hvalue]
    exact Execution.endsAt_write m' f name v
  | group inner ih => exact ih hf
  | unary op sign operand ih =>
    have hoperand := (ih hf).bind (k := fun v => .ofEvaluation (.ofOperation sign (op.apply v)))
      fun v m' _ => Execution.endsAt_ofOperation m' sign (op.apply_ne_undefinedVariable v)
    rw [uses, run, eval, Execution.ofEvaluation_bind]
    rwa [Option.or_none] at hoperand
  | binary op sign left right ihl ihr =>
    rw [uses, List.find?_append, run, eval, Execution.ofEvaluation_bind]
    refine (ihl hf).bind fun l m' hleft => ?_
    have hsize : m'.store.size = m.store.size := ((left.leaves_run f).of_eq_ok hleft).size_eq
    have hf' : f < m'.store.size := by rwa [hsize]
    simp only [← inScope_of_run_eq_ok hf hleft]
    have hright := (ihr hf').bind (k := fun r => .ofEvaluation (.ofOperation sign (op.apply l r)))
      fun r m'' _ => Execution.endsAt_ofOperation m'' sign (op.apply_ne_undefinedVariable l r)
    rw [Execution.ofEvaluation_bind]
    rwa [Option.or_none] at hright

theorem endsAt_initialValue (initial : Option Expr) {f : Nat} {m : Machine}
    (hf : f < m.store.size) :
    EndsAt ((initial.elim [] Expr.uses).find? fun name => !m.store.inScope f name.text)
      (initialValue f initial m) := by
  cases initial with
  | none => rfl
  | some e => exact e.endsAt_run hf

/-! ## Statements -/

/-- Whether a use is resolved: the name is bound on the chain of `f`, or is declared for it. -/
def Use.resolved (s : Store) (f : Nat) (u : Use) : Bool :=
  s.inScope f u.name.text || u.scope.contains u.name.text

/-- The first use that is not resolved. -/
def firstUnresolved (s : Store) (f : Nat) (us : List Use) : Option Use :=
  us.find? fun u => !u.resolved s f

/-- In the store `s'` and the frame `g`, the names are in scope that are so in `s` and `f`, and those
of `scope`. -/
def Extends (s : Store) (f : Nat) (scope : List String) (s' : Store) (g : Nat) : Prop :=
  ∀ n, s'.inScope g n = (s.inScope f n || scope.contains n)

section

variable {s : Store} {f : Nat} {scope : List String} {m : Machine} {g : Nat}

theorem firstUnresolved_append (us us' : List Use) :
    firstUnresolved s f (us ++ us')
      = (firstUnresolved s f us).or (firstUnresolved s f us') :=
  List.find?_append

/-- All names of an expression are used in the scope of its statement. -/
theorem map_name_firstUnresolved (h : Extends s f scope m.store g) (names : List Lexeme) :
    (firstUnresolved s f (names.map (⟨·, scope⟩))).map Use.name
      = names.find? fun name => !m.store.inScope g name.text := by
  rw [firstUnresolved, List.find?_map, Option.map_map]
  have hname : (Use.name ∘ fun name => (⟨name, scope⟩ : Use)) = id := rfl
  rw [hname, Option.map_id, id]
  congr 1
  funext name
  exact congrArg (! ·) (h name.text).symm

/-- A statement that comes to its end adds the name that it declares. -/
theorem Extends.of_exec_eq_ok (h : Extends s f scope m.store g) (hg : g < m.store.size)
    {st : Stmt} {m' : Machine} (hexec : st.exec g m = .ok () m') :
    Extends s f (scope ++ st.declared?.toList) m'.store g := by
  intro n
  have hchanged := (st.leaves_exec g).of_eq_ok hexec
  have hdeclared : ∀ n ∈ st.declared?.toList, (m'.store.lookup? g n).isSome = true := fun n hn =>
    Stmt.isSome_lookup?_of_exec_eq_ok hg hexec (Option.mem_toList.1 hn)
  rw [Store.ChangedOnly.inScope_eq hchanged hg hdeclared, h n, List.contains_append, Bool.or_assoc]

end

mutual

theorem Stmt.endsAt_exec {s : Store} {f : Nat} {scope : List String} {m : Machine} {g : Nat}
    (h : Extends s f scope m.store g) (hg : g < m.store.size) : (st : Stmt) →
    EndsAt ((firstUnresolved s f (st.uses scope)).map Use.name) (st.exec g m)
  | .expression e => by
    have hvalue := (e.endsAt_run hg).bind (k := fun _ => (pure () : Execution Unit))
      fun v m' _ => rfl
    rw [uses, map_name_firstUnresolved h, exec]
    rwa [Option.or_none] at hvalue
  | .print e => by
    have hvalue := (e.endsAt_run hg).bind (k := Execution.printLine)
      fun v m' _ => Execution.endsAt_printLine m' v
    rw [uses, map_name_firstUnresolved h, exec]
    rwa [Option.or_none] at hvalue
  | .declaration name initial => by
    have hvalue := (endsAt_initialValue initial hg).bind
      (k := fun v => Execution.modifyStore fun store => store.define g name.text v)
      fun v m' _ => rfl
    rw [uses, map_name_firstUnresolved h, exec]
    rwa [Option.or_none] at hvalue
  | .block body => by
    rw [uses, exec]
    -- the names around the block are in scope in the block's own frame
    have hinner : Extends s f scope (m.store.enclose g) m.store.size := fun n => by
      rw [m.store.inScope_enclose hg, h n]
    have hsize : m.store.size < (m.store.enclose g).size := by
      rw [m.store.size_enclose]
      exact Nat.lt_succ_self _
    exact EndsAt.inside (endsAt_execAll hinner hsize body)

/-- Statements stop at the first name out of scope. -/
theorem Stmt.endsAt_execAll {s : Store} {f : Nat} {scope : List String} {m : Machine} {g : Nat}
    (h : Extends s f scope m.store g) (hg : g < m.store.size) : (ss : List Stmt) →
    EndsAt ((firstUnresolved s f (usesOfAll scope ss)).map Use.name) (execAll g ss m)
  | [] => by
    rw [usesOfAll, execAll]
    rfl
  | st :: rest => by
    rw [usesOfAll, firstUnresolved_append, Option.map_or, execAll]
    refine (endsAt_exec h hg st).bind fun _ m' hexec => ?_
    have hsize : m'.store.size = m.store.size := ((st.leaves_exec g).of_eq_ok hexec).size_eq
    exact endsAt_execAll (h.of_exec_eq_ok hg hexec) (by rwa [hsize]) rest

end

/-! ## The scope law -/

/-- **A name is not found exactly where it is out of scope.** Statements of which all uses of names
are resolved never stop for a name that is not found. If a use is not resolved, the statements do not
come to their end; and if they stop for a name that is not found, it is the name of the first use
that is not resolved, and the place of that use is the one that is blamed. -/
theorem Stmt.execAll_scope_law (ss : List Stmt) (f : Nat) (m : Machine) (hf : f < m.store.size) :
    ((∀ u ∈ usesOfAll [] ss, u.resolved m.store f = true) →
      ∀ e, (execAll f ss).outcome m = .error (.runtime e) → ∀ n, e.cause ≠ .undefinedVariable n)
    ∧ ∀ u ∈ usesOfAll [] ss, u.resolved m.store f = false →
      (execAll f ss).outcome m ≠ .ok ()
      ∧ ∀ e, (execAll f ss).outcome m = .error (.runtime e) →
        ∀ n, e.cause = .undefinedVariable n →
          ∃ v, firstUnresolved m.store f (usesOfAll [] ss) = some v
            ∧ n = v.name.text ∧ e.blamed = v.name := by
  have hstart : Extends m.store f [] m.store f := fun n => by simp
  have hends := endsAt_execAll hstart hf ss
  have hstop : ∀ e, (execAll f ss).outcome m = .error (.runtime e) →
      ∀ n, e.cause = .undefinedVariable n →
        ∃ v, firstUnresolved m.store f (usesOfAll [] ss) = some v
          ∧ n = v.name.text ∧ e.blamed = v.name := by
    intro e he n hn
    obtain ⟨cause, blamed⟩ := e
    obtain rfl : cause = .undefinedVariable n := hn
    unfold Execution.outcome at he
    cases hr : execAll f ss m with
    | ok _ m' =>
      rw [hr] at he
      cases he
    | error h m' =>
      rw [hr] at he hends
      cases he
      obtain ⟨hname, hmissing⟩ := hends n blamed rfl
      obtain ⟨v, hv, rfl⟩ := Option.map_eq_some_iff.1 hmissing
      exact ⟨v, hv, hname, rfl⟩
  refine ⟨fun hall e he n hn => ?_, fun u hu hunresolved => ⟨fun hok => ?_, hstop⟩⟩
  · obtain ⟨v, hv, -⟩ := hstop e he n hn
    have hresolved := hall v (List.mem_of_find?_eq_some hv)
    have hnot := List.find?_some hv
    rw [hresolved] at hnot
    cases hnot
  · rw [Execution.eq_ok_of_outcome_eq_ok hok] at hends
    have hnone := List.find?_eq_none.1 (Option.map_eq_none_iff.1 hends) u hu
    rw [hunresolved] at hnone
    exact hnone rfl

/-- The statements `{ var c = a; b = c; } print (c = b) + d;`, in which `c` is used after the block
that declares it. -/
def closedBlock : List Stmt :=
  [.block [.declaration ⟨"c", 1⟩ (some (.var ⟨"a", 1⟩)),
     .expression (.assign ⟨"b", 1⟩ (.var ⟨"c", 1⟩))],
   .print (.binary .add ⟨"+", 2⟩ (.group (.assign ⟨"c", 2⟩ (.var ⟨"b", 2⟩))) (.var ⟨"d", 2⟩))]

/-- A frame that binds `a`, and one in it that binds `b`. -/
def nestedFrames : Machine :=
  ⟨⟨#[⟨[("a", .bool true)], none⟩, ⟨[("b", .nil)], some 0⟩]⟩, .unlimited⟩

theorem Stmt.execAll_scope_law_closedBlock :
    1 < nestedFrames.store.size
    ∧ (∀ u ∈ usesOfAll [] (closedBlock.take 1), u.resolved nestedFrames.store 1 = true)
    ∧ (∀ e, (execAll 1 (closedBlock.take 1)).outcome nestedFrames = .error (.runtime e) →
        ∀ n, e.cause ≠ .undefinedVariable n)
    ∧ ⟨⟨"d", 2⟩, []⟩ ∈ usesOfAll [] closedBlock
    ∧ Use.resolved nestedFrames.store 1 ⟨⟨"d", 2⟩, []⟩ = false
    ∧ (execAll 1 closedBlock).outcome nestedFrames ≠ .ok ()
    ∧ (execAll 1 closedBlock).outcome nestedFrames
        = .error (.runtime ⟨.undefinedVariable "c", ⟨"c", 2⟩⟩)
    ∧ ∃ v, firstUnresolved nestedFrames.store 1 (usesOfAll [] closedBlock) = some v
        ∧ "c" = v.name.text ∧ ⟨"c", 2⟩ = v.name := by
  have hf : 1 < nestedFrames.store.size := by decide
  have hall : ∀ u ∈ usesOfAll [] (closedBlock.take 1), u.resolved nestedFrames.store 1 = true := by
    decide +kernel
  have huse : ⟨⟨"d", 2⟩, []⟩ ∈ usesOfAll [] closedBlock := by decide +kernel
  have hnot : Use.resolved nestedFrames.store 1 ⟨⟨"d", 2⟩, []⟩ = false := by decide +kernel
  have hstop : (execAll 1 closedBlock).outcome nestedFrames
      = .error (.runtime ⟨.undefinedVariable "c", ⟨"c", 2⟩⟩) := by cbv
  have hscope := (execAll_scope_law closedBlock 1 nestedFrames hf).2 _ huse hnot
  exact ⟨hf, hall, (execAll_scope_law _ 1 nestedFrames hf).1 hall, huse, hnot, hscope.1, hstop,
    hscope.2 _ hstop _ rfl⟩

end Lox
