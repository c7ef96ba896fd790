import Lox.Proofs.Eval.Lookup
import Lox.Proofs.Store.Changes

/-!
# Lox — what execution changes in the store

However statements end, they change no more than they say: they write to the variables that they
assign to, and declare in their frame the names that they declare outside all blocks. Whatever was
written before an error stays written, and the frames of blocks leave nothing behind.

* **`Stmt.targets`**, **`Stmt.declared`** — the names that are assigned to, at whatever depth, and
  the names that are declared at the top.
* **`Stmt.leaves_execAll`** — a run of statements, on every way out of it.
* **`Stmt.execAll_frame_law`** — the same, frame by frame and name by name.
-/

namespace Lox

/-! ## Names in statements -/

/-- The names that an expression assigns to. -/
def Expr.targets : Expr → List String
  | .literal _ | .var _ => []
  | .assign name value => name.text :: value.targets
  | .group inner => inner.targets
  | .unary _ _ operand => operand.targets
  | .binary _ _ left right => left.targets ++ right.targets

mutual

/-- The names that a statement assigns to, within blocks too. -/
def Stmt.targets : Stmt → List String
  | .expression e | .print e => e.targets
  | .declaration _ initial => initial.elim [] Expr.targets
  | .block body => Stmt.targetsOfAll body

def Stmt.targetsOfAll : List Stmt → List String
  | [] => []
  | s :: rest => s.targets ++ Stmt.targetsOfAll rest

end

/-- The name that a statement declares in the frame in which it is executed. -/
def Stmt.declared? : Stmt → Option String
  | .declaration name _ => some name.text
  | .expression _ | .print _ | .block _ => none

/-- The names that statements declare in their frame. What they declare within blocks does not
count. -/
def Stmt.declared (ss : List Stmt) : List String := ss.filterMap Stmt.declared?

/-! ## Computations and the states that they leave -/

section

variable {ε σ α β : Type} {R R' : σ → σ → Prop}

/-- The state in which a computation ended, by a value or by an error. -/
def stateOf : EStateM.Result ε σ α → σ
  | .ok _ s | .error _ s => s

/-- Whether a computation, however it ends, leaves a state that is related to the one in which it
started. -/
def Leaves (R : σ → σ → Prop) (x : EStateM ε σ α) : Prop := ∀ s, R s (stateOf (x s))

theorem Leaves.mono {x : EStateM ε σ α} (h : Leaves R x) (hR : ∀ {s s'}, R s s' → R' s s') :
    Leaves R' x := fun s => hR (h s)

theorem Leaves.pure (hrefl : ∀ s, R s s) (a : α) : Leaves R (pure a : EStateM ε σ α) := hrefl

theorem Leaves.bind (htrans : ∀ {s s' s''}, R s s' → R s' s'' → R s s'') {x : EStateM ε σ α}
    {k : α → EStateM ε σ β} (hx : Leaves R x) (hk : ∀ a, Leaves R (k a)) : Leaves R (x >>= k) := by
  intro s
  have hfirst := hx s
  simp only [Bind.bind, EStateM.bind]
  cases hr : x s with
  | ok a s' =>
    rw [hr] at hfirst
    exact htrans hfirst (hk a s')
  | error e s' =>
    rw [hr] at hfirst
    exact hfirst

end

/-! ## Evaluation -/

open Store (ChangedOnly)

namespace Evaluation

variable {f : Nat} {ts ds : List String}

theorem leaves_ofOperation (sign : Lexeme) (result : Except RuntimeError.Cause Value) :
    Leaves (ChangedOnly f ts ds) (ofOperation sign result) := by
  intro s
  cases result with
  | ok v => exact .refl f ts ds s
  | error cause => exact .refl f ts ds s

theorem leaves_read (name : Lexeme) : Leaves (ChangedOnly f ts ds) (read f name) := by
  intro s
  unfold read
  cases s.get? f name.text with
  | some v => exact .refl f ts ds s
  | none => exact .refl f ts ds s

theorem leaves_write (name : Lexeme) (v : Value) :
    Leaves (ChangedOnly f [name.text] []) (write f name v) := by
  intro s
  unfold write
  cases h : s.assign? f name.text v with
  | some s' => exact .of_assign? h
  | none => exact .refl f _ _ s

end Evaluation

theorem Expr.leaves_eval (f : Nat) (e : Expr) :
    Leaves (ChangedOnly f e.targets []) (e.eval f) := by
  induction e with
  | literal l => exact .pure (.refl f _ _) l.value
  | var name => exact Evaluation.leaves_read name
  | assign name value ih =>
    have hvalue : value.targets ⊆ name.text :: value.targets := List.subset_cons_self _ _
    have hname : [name.text] ⊆ name.text :: value.targets := by simp
    exact (ih.mono fun h => h.mono hvalue (List.Subset.refl _)).bind .trans fun v =>
      (Evaluation.leaves_write name v).mono fun h => h.mono hname (List.Subset.refl _)
  | group inner ih => exact ih
  | unary op sign operand ih =>
    exact ih.bind .trans fun v => Evaluation.leaves_ofOperation sign _
  | binary op sign left right ihl ihr =>
    have hleft : left.targets ⊆ left.targets ++ right.targets := List.subset_append_left _ _
    have hright : right.targets ⊆ left.targets ++ right.targets := List.subset_append_right _ _
    exact (ihl.mono fun h => h.mono hleft (List.Subset.refl _)).bind .trans fun l =>
      (ihr.mono fun h => h.mono hright (List.Subset.refl _)).bind .trans fun r =>
        Evaluation.leaves_ofOperation sign _

/-! ## Execution -/

/-- From the machine `m` to the machine `m'`, the store was changed only so far. -/
def Machine.ChangedOnly (f : Nat) (ts ds : List String) (m m' : Machine) : Prop :=
  m.store.ChangedOnly f ts ds m'.store

namespace Machine.ChangedOnly

variable {f : Nat} {ts ts' ds ds' : List String} {m m' m'' : Machine}

theorem refl (f : Nat) (ts ds : List String) (m : Machine) : ChangedOnly f ts ds m m :=
  Store.ChangedOnly.refl f ts ds m.store

theorem trans (h : ChangedOnly f ts ds m m') (h' : ChangedOnly f ts ds m' m'') :
    ChangedOnly f ts ds m m'' :=
  Store.ChangedOnly.trans h h'

theorem mono (h : ChangedOnly f ts ds m m') (hts : ts ⊆ ts') (hds : ds ⊆ ds') :
    ChangedOnly f ts' ds' m m' :=
  Store.ChangedOnly.mono h hts hds

end Machine.ChangedOnly

namespace Execution

variable {f : Nat} {ts ds : List String}

theorem leaves_ofEvaluation {α : Type} {x : Evaluation α} (h : Leaves (ChangedOnly f ts ds) x) :
    Leaves (Machine.ChangedOnly f ts ds) (ofEvaluation x) := by
  intro m
  have hx := h m.store
  simp only [ofEvaluation]
  cases hr : x m.store with
  | ok a s =>
    rw [hr] at hx
    exact hx
  | error e s =>
    rw [hr] at hx
    exact hx

theorem leaves_printLine (v : Value) : Leaves (Machine.ChangedOnly f ts ds) (printLine v) := by
  intro m
  simp only [printLine, emit]
  rcases m.sink.write (v.display ++ "\n") with ⟨_ | reason, sink⟩
  · exact Store.ChangedOnly.refl f ts ds m.store
  · exact Store.ChangedOnly.refl f ts ds m.store

theorem leaves_define (f : Nat) (n : String) (v : Value) :
    Leaves (Machine.ChangedOnly f [] [n]) (modifyStore fun s => s.define f n v) := fun _ =>
  Store.ChangedOnly.define f n v

/-- A block leaves its names behind, whether its body comes to an end or not. -/
theorem leaves_inside {α : Type} {body : Nat → Execution α} {ts ds : List String}
    (h : ∀ inner, Leaves (Machine.ChangedOnly inner ts ds) (body inner)) :
    Leaves (Machine.ChangedOnly f ts []) (inside f body) := by
  intro m
  have hbody := h m.store.size ⟨m.store.enclose f, m.sink⟩
  simp only [inside]
  cases hr : body m.store.size ⟨m.store.enclose f, m.sink⟩ with
  | ok a m' =>
    rw [hr] at hbody
    exact Store.ChangedOnly.leave hbody
  | error e m' =>
    rw [hr] at hbody
    exact Store.ChangedOnly.leave hbody

end Execution

theorem Expr.leaves_run (f : Nat) (e : Expr) :
    Leaves (Machine.ChangedOnly f e.targets []) (e.run f) :=
  Execution.leaves_ofEvaluation (e.leaves_eval f)

theorem leaves_initialValue (f : Nat) (initial : Option Expr) :
    Leaves (Machine.ChangedOnly f (initial.elim [] Expr.targets) []) (initialValue f initial) := by
  cases initial with
  | none => exact .pure (.refl f _ _) Value.nil
  | some e => exact e.leaves_run f

mutual

theorem Stmt.leaves_exec (f : Nat) : (s : Stmt) →
    Leaves (Machine.ChangedOnly f s.targets s.declared?.toList) (s.exec f)
  | .expression e => by
    rw [exec]
    exact (e.leaves_run f).bind .trans fun _ => .pure (.refl f _ _) ()
  | .print e => by
    rw [exec]
    exact (e.leaves_run f).bind .trans fun v => Execution.leaves_printLine v
  | .declaration name initial => by
    rw [exec]
    have hvalue := (leaves_initialValue f initial).mono fun h =>
      h.mono (List.Subset.refl _) (List.nil_subset [name.text])
    exact hvalue.bind .trans fun v => (Execution.leaves_define f name.text v).mono fun h =>
      h.mono (List.nil_subset _) (List.Subset.refl _)
  | .block body => by
    rw [exec]
    exact Execution.leaves_inside fun inner => Stmt.leaves_execAll inner body

/-- A run of statements changes no more than they assign to and declare. -/
theorem Stmt.leaves_execAll (f : Nat) : (ss : List Stmt) →
    Leaves (Machine.ChangedOnly f (Stmt.targetsOfAll ss) (Stmt.declared ss)) (Stmt.execAll f ss)
  | [] => by
    rw [execAll]
    exact .pure (.refl f _ _) ()
  | s :: rest => by
    rw [execAll]
    have htargets : s.targets ⊆ Stmt.targetsOfAll (s :: rest) := List.subset_append_left _ _
    have htargets' : Stmt.targetsOfAll rest ⊆ Stmt.targetsOfAll (s :: rest) :=
      List.subset_append_right _ _
    have hdeclared : Stmt.declared (s :: rest) = s.declared?.toList ++ Stmt.declared rest := by
      cases h : s.declared? <;> simp [Stmt.declared, h]
    rw [hdeclared]
    exact ((Stmt.leaves_exec f s).mono fun h => h.mono htargets (List.subset_append_left _ _)).bind
      .trans fun _ => (Stmt.leaves_execAll f rest).mono fun h =>
        h.mono htargets' (List.subset_append_right _ _)

end

/-! ## Names that are declared -/

theorem exists_of_bind_eq_ok {ε σ α β : Type} {x : EStateM ε σ α} {k : α → EStateM ε σ β} {s s'' : σ}
    {b : β} (h : (x >>= k) s = .ok b s'') : ∃ a s', x s = .ok a s' ∧ k a s' = .ok b s'' := by
  simp only [Bind.bind, EStateM.bind] at h
  split at h
  · next a s' hx => exact ⟨a, s', hx, h⟩
  · cases h

theorem Leaves.of_eq_ok {ε σ α : Type} {R : σ → σ → Prop} {x : EStateM ε σ α} (h : Leaves R x)
    {s s' : σ} {a : α} (hx : x s = .ok a s') : R s s' := by
  have hs := h s
  rwa [hx] at hs

/-- A statement that comes to its end has bound the name that it declares. -/
theorem Stmt.isSome_lookup?_of_exec_eq_ok {s : Stmt} {f : Nat} {m m' : Machine}
    (hf : f < m.store.size) (h : exec f s m = .ok () m') {n : String} (hn : s.declared? = some n) :
    (m'.store.lookup? f n).isSome = true := by
  cases s with
  | declaration name initial =>
    obtain rfl : name.text = n := Option.some.inj hn
    rw [exec] at h
    obtain ⟨v, m₁, hvalue, hdefine⟩ := exists_of_bind_eq_ok h
    have hsize : m₁.store.size = m.store.size :=
      ((leaves_initialValue f initial).of_eq_ok hvalue).size_eq
    obtain rfl : ⟨m₁.store.define f name.text v, m₁.sink⟩ = m' :=
      (EStateM.Result.ok.inj hdefine).2
    rw [m₁.store.lookup?_define (by omega), if_pos ⟨rfl, rfl⟩]
    rfl
  | _ => cases hn

/-- Statements that come to their end have bound all names that they declare. -/
theorem Stmt.isSome_lookup?_of_execAll_eq_ok {f : Nat} {n : String} : ∀ {ss : List Stmt}
    {m m' : Machine}, f < m.store.size → execAll f ss m = .ok () m' → n ∈ declared ss →
    (m'.store.lookup? f n).isSome = true
  | s :: rest, m, m', hf, h, hn => by
    rw [execAll] at h
    obtain ⟨_, m₁, hfirst, hrest⟩ := exists_of_bind_eq_ok h
    have hsize : m₁.store.size = m.store.size := ((leaves_exec f s).of_eq_ok hfirst).size_eq
    obtain ⟨s', hs', hdeclared⟩ := List.mem_filterMap.1 hn
    rcases List.mem_cons.1 hs' with rfl | hmem
    · -- what is bound stays bound
      have hbound := isSome_lookup?_of_exec_eq_ok hf hfirst hdeclared
      exact ((leaves_execAll f rest).of_eq_ok hrest).kept n hbound
    · have hlater : n ∈ declared rest := List.mem_filterMap.2 ⟨s', hmem, hdeclared⟩
      exact isSome_lookup?_of_execAll_eq_ok (by omega) hrest hlater

/-! ## The frame law -/

theorem Leaves.after {R : Machine → Machine → Prop} {α : Type} {x : Execution α} (h : Leaves R x)
    (m : Machine) : R m (x.after m) := by
  have hm := h m
  unfold Execution.after
  cases hx : x m with
  | ok a m' =>
    rw [hx] at hm
    exact hm
  | error e m' =>
    rw [hx] at hm
    exact hm

theorem Execution.eq_ok_of_outcome_eq_ok {α : Type} {x : Execution α} {m : Machine} {a : α}
    (h : x.outcome m = .ok a) : x m = .ok a (x.after m) := by
  unfold outcome at h
  unfold after
  cases hx : x m with
  | ok b m' =>
    rw [hx] at h
    rw [Except.ok.inj h]
  | error e m' =>
    rw [hx] at h
    cases h

/-- **The frame law of execution.** However statements end that are executed in the frame `f`, there
are as many frames as before, with the same parents; a frame that is not on the chain of `f` is as
it was; the other frames on the chain bind the names that they bound; and `f` binds the names that
it bound and names that the statements declare outside all blocks, all of these if the statements
come to their end. A name has another value only if it is assigned to, or else, in `f`, declared
outside all blocks. -/
theorem Stmt.execAll_frame_law (ss : List Stmt) (f : Nat) (m : Machine) (hf : f < m.store.size) :
    let m' := (execAll f ss).after m
    m'.store.size = m.store.size
    ∧ (∀ g : Nat, m'.store.frames[g]?.map Frame.parent = m.store.frames[g]?.map Frame.parent)
    ∧ (∀ g : Nat, g ∉ m.store.chain f → m'.store.frames[g]? = m.store.frames[g]?)
    ∧ (∀ g ∈ m.store.chain f, g ≠ f →
        ∀ n, (m'.store.lookup? g n).isSome = (m.store.lookup? g n).isSome)
    ∧ (∀ n, (m.store.lookup? f n).isSome → (m'.store.lookup? f n).isSome)
    ∧ (∀ n, (m'.store.lookup? f n).isSome → (m.store.lookup? f n).isSome ∨ n ∈ declared ss)
    ∧ ((execAll f ss).outcome m = .ok () → ∀ n ∈ declared ss, (m'.store.lookup? f n).isSome)
    ∧ ∀ g n, m'.store.lookup? g n ≠ m.store.lookup? g n →
        n ∈ targetsOfAll ss ∨ g = f ∧ n ∈ declared ss := by
  intro m'
  have hchanged : m.store.ChangedOnly f (targetsOfAll ss) (declared ss) m'.store :=
    (leaves_execAll f ss).after m
  have hdeclared : (execAll f ss).outcome m = .ok () →
      ∀ n ∈ declared ss, (m'.store.lookup? f n).isSome := by
    intro hok n hn
    exact isSome_lookup?_of_execAll_eq_ok hf (Execution.eq_ok_of_outcome_eq_ok hok) hn
  exact ⟨hchanged.size_eq, hchanged.parents, hchanged.outside, hchanged.around, hchanged.kept,
    hchanged.added, hdeclared, hchanged.written⟩

/-- The statements `var c; { var d; a = d; -"x"; }`, which end with an error inside the block. -/
def interruptedBlock : List Stmt :=
  [.declaration ⟨"c", 1⟩ none,
   .block [.declaration ⟨"d", 2⟩ none, .expression (.assign ⟨"a", 2⟩ (.var ⟨"d", 2⟩)),
     .expression (.unary .negate ⟨"-", 3⟩ (.literal (.string "x")))]]

/-- A frame that binds `a`, and two frames in it that bind `b`. -/
def siblingFrames : Machine :=
  ⟨⟨#[⟨[("a", .bool true)], none⟩, ⟨[("b", .nil)], some 0⟩, ⟨[("b", .nil)], some 0⟩]⟩, .unlimited⟩

theorem Stmt.execAll_frame_law_interruptedBlock :
    1 < siblingFrames.store.size
    ∧ (let m' := (execAll 1 interruptedBlock).after siblingFrames
      m'.store.size = siblingFrames.store.size
      ∧ (∀ g : Nat, g ∉ [1, 0] → m'.store.frames[g]? = siblingFrames.store.frames[g]?)
      ∧ (∀ n, (m'.store.lookup? 0 n).isSome = (siblingFrames.store.lookup? 0 n).isSome)
      ∧ (∀ n, (m'.store.lookup? 1 n).isSome →
          (siblingFrames.store.lookup? 1 n).isSome ∨ n ∈ ["c"])
      ∧ ∀ g n, m'.store.lookup? g n ≠ siblingFrames.store.lookup? g n →
          n ∈ ["a"] ∨ g = 1 ∧ n ∈ ["c"])
    ∧ (execAll 1 (interruptedBlock.take 1)).outcome siblingFrames = .ok ()
    ∧ ∀ n ∈ ["c"],
        (((execAll 1 (interruptedBlock.take 1)).after siblingFrames).store.lookup? 1 n).isSome := by
  have hf : 1 < siblingFrames.store.size := by decide
  have hchain : siblingFrames.store.chain 1 = [1, 0] := by decide +kernel
  have hok : (execAll 1 (interruptedBlock.take 1)).outcome siblingFrames = .ok () := rfl
  obtain ⟨hsize, -, houtside, haround, -, hadded, -, hwritten⟩ :=
    execAll_frame_law interruptedBlock 1 siblingFrames hf
  obtain ⟨-, -, -, -, -, -, hdeclared, -⟩ :=
    execAll_frame_law (interruptedBlock.take 1) 1 siblingFrames hf
  rw [hchain] at houtside haround
  exact ⟨hf, ⟨hsize, houtside, haround 0 (by decide) (by decide), hadded, hwritten⟩, hok,
    hdeclared hok⟩

end Lox
