import Lox.Proofs.Grammar.Strict

/-!
# Lox — the assignments in a sentence

A derivation in the relaxed grammar may have anything on the left of `=`. Here its assignments are
listed with the places where they stand, in the order in which the assigned values end. Of several
values that end at the same token each is the last part of another one, and the inner one is first.

* **`Assignment`** — an assignment and where it stands.
* **`Derivation.assignments`** — all assignments in a derivation.
* **`Derivation.occurs_of_mem_assignments`** — they stand in the tokens that are derived.
* **`Derivation.covers`** — each `=` that does not belong to a declaration is that of one of them.
* **`Derivation.ordered_assignments`** — the order in which they are listed.
* **`Derivation.misplaced_eq`** — the errors are those of the assignments to something else than
  a bare identifier.
-/

namespace Lox

/-- An assignment in a token sequence: the index of its first token, the tokens of its left side,
its `=`, and the tokens of the assigned value. -/
structure Assignment where
  start : Nat
  target : List Token
  sign : Lexeme
  value : List Token

namespace Assignment

def tokens (a : Assignment) : List Token := a.target ++ ⟨a.sign, .equal⟩ :: a.value

/-- The index of the `=`. -/
def position (a : Assignment) : Nat := a.start + a.target.length

/-- The index after the value. -/
def stop (a : Assignment) : Nat := a.position + 1 + a.value.length

/-- Whether the left side is a bare identifier. -/
def isBare (a : Assignment) : Bool :=
  match a.target with
  | [t] => t.kind = .identifier
  | _ => false

/-- The error at the `=`. -/
def error (a : Assignment) : SyntaxError := ⟨.invalidAssignmentTarget, a.sign⟩

/-- Whether the value of `a` ends before that of `b`, or with it but further inside. -/
def EndsBefore (a b : Assignment) : Prop :=
  a.stop < b.stop ∨ a.stop = b.stop ∧ b.position < a.position

instance (a b : Assignment) : Decidable (a.EndsBefore b) :=
  inferInstanceAs (Decidable (_ ∨ _))

theorem isBare_eq_true_iff {a : Assignment} :
    a.isBare = true ↔ ∃ name, a.target = [⟨name, .identifier⟩] := by
  obtain ⟨start, target, sign, value⟩ := a
  unfold isBare
  split
  · next t ht =>
    obtain ⟨x, k⟩ := t
    have htarget : target = [⟨x, k⟩] := ht
    simp [htarget]
  · next hlong =>
    refine iff_of_false Bool.false_ne_true ?_
    rintro ⟨name, hname⟩
    exact hlong _ hname

end Assignment

/-! ## Places -/

/-- Whether the tokens `v` stand in `ts`, the first of them at the index `i`. -/
def Occurs (v : List Token) (i : Nat) (ts : List Token) : Prop :=
  ∃ before after, ts = before ++ v ++ after ∧ before.length = i

namespace Occurs

variable {v w ts : List Token} {i : Nat}

theorem left (h : Occurs (v ++ w) i ts) : Occurs v i ts := by
  obtain ⟨before, after, hts, hlen⟩ := h
  exact ⟨before, w ++ after, by simp [hts], hlen⟩

theorem right (h : Occurs (v ++ w) i ts) : Occurs w (i + v.length) ts := by
  obtain ⟨before, after, hts, hlen⟩ := h
  exact ⟨before ++ v, after, by simp [hts], by simp [hlen]⟩

theorem tail {t : Token} (h : Occurs (t :: w) i ts) : Occurs w (i + 1) ts :=
  right (v := [t]) h

theorem self (v : List Token) : Occurs v 0 v := ⟨[], [], by simp, rfl⟩

end Occurs

namespace Derivation

open Nonterminal

variable {g : Grammar}

/-- All assignments in a derivation whose first token has the index `start`, in the order in which
the assigned values end. -/
def assignments {n : Nonterminal} : Derivation g n → Nat → List Assignment
  | .nil, _ | .absent, _ | .done, _ | .literal _ _, _ | .reference _, _ => []
  | .cons first rest, start | .binary _ first rest, start =>
    first.assignments start ++ rest.assignments (start + first.yield.length)
  | .declare _ _ initial _, start => initial.assignments (start + 2)
  | .expression e _, start | .plain e, start | .atom e, start => e.assignments start
  | .print _ e _, start | .present _ e, start | .group _ e _, start | .unary _ _ e, start =>
    e.assignments (start + 1)
  | .block _ body _, start => body.assignments (start + 1)
  | .assign _ name sign value, start =>
    value.assignments (start + 2) ++ [⟨start, [⟨name, .identifier⟩], sign, value.yield⟩]
  | .assignTo _ target sign value, start =>
    target.assignments start ++ value.assignments (start + target.yield.length + 1)
      ++ [⟨start, target.yield, sign, value.yield⟩]
  | .apply _ _ _ right rest, start =>
    right.assignments (start + 1) ++ rest.assignments (start + 1 + right.yield.length)

/-! ## Where they stand -/

/-- Each assignment stands in the tokens in which the derivation stands. -/
theorem occurs_of_mem_assignments {ts : List Token} {n : Nonterminal} (d : Derivation g n)
    {start : Nat} (h : Occurs d.yield start ts) :
    ∀ a ∈ d.assignments start, Occurs a.tokens a.start ts := by
  induction d generalizing start with
  | nil | absent | done | literal | reference => exact nofun
  | cons first rest ihf ihr | binary _ first rest ihf ihr =>
    exact List.forall_mem_append.2 ⟨ihf h.left, ihr h.right⟩
  | declare word name init semicolon ih => exact ih h.tail.tail.left
  | print word e semicolon ih => exact ih h.tail.left
  | expression e semicolon ih => exact ih h.left
  | block opening body closing ih => exact ih h.tail.left
  | present sign e ih | unary _ sign e ih => exact ih h.tail
  | plain e ih | atom e ih => exact ih h
  | group opening e closing ih => exact ih h.tail.left
  | assign _ name sign value ih =>
    have hvalue := ih h.tail.tail
    exact List.forall_mem_append.2 ⟨hvalue, List.forall_mem_singleton.2 h⟩
  | assignTo _ target sign value iht ihv =>
    have htarget := iht h.left
    have hvalue := ihv h.right.tail
    exact List.forall_mem_append.2
      ⟨List.forall_mem_append.2 ⟨htarget, hvalue⟩, List.forall_mem_singleton.2 h⟩
  | apply op _ sign right rest ihr ihrest =>
    exact List.forall_mem_append.2 ⟨ihr h.tail.left, ihrest h.tail.right⟩

end Derivation

/-! ## All of them -/

/-- Whether each `=` in the tokens `v`, the first of which has the index `start`, is that of one of
the assignments, or the one after the name in a declaration. -/
def Assignment.Cover (as : List Assignment) (start : Nat) (v : List Token) : Prop :=
  ∀ i sign, v[i]? = some ⟨sign, .equal⟩ →
    (∃ a ∈ as, a.position = start + i) ∨ ∃ j word, i = j + 2 ∧ v[j]? = some ⟨word, .varWord⟩

namespace Assignment.Cover

variable {as bs : List Assignment} {start : Nat} {v w : List Token}

theorem nil : Cover [] start [] := nofun

theorem append (h : Cover as start v) (h' : Cover bs (start + v.length) w) :
    Cover (as ++ bs) start (v ++ w) := by
  intro i sign hi
  rw [List.getElem?_append] at hi
  split at hi
  · next hlt =>
    rcases h i sign hi with ⟨a, ha, hposition⟩ | ⟨j, word, hj, hword⟩
    · exact .inl ⟨a, List.mem_append_left bs ha, hposition⟩
    · exact .inr ⟨j, word, hj, by rwa [List.getElem?_append_left (by omega)]⟩
  · next hle =>
    rcases h' _ sign hi with ⟨a, ha, hposition⟩ | ⟨j, word, hj, hword⟩
    · exact .inl ⟨a, List.mem_append_right as ha, by omega⟩
    · refine .inr ⟨v.length + j, word, by omega, ?_⟩
      rwa [List.getElem?_append_right (by omega), Nat.add_sub_cancel_left]

/-- No assignment is needed for another token. -/
theorem single {k : Token.Kind} (hk : k ≠ .equal) (x : Lexeme) : Cover [] start [⟨x, k⟩] := by
  rintro (_ | i) sign hi
  · cases hi
    exact absurd rfl hk
  · cases hi

theorem cons {k : Token.Kind} (hk : k ≠ .equal) {x : Lexeme} (h : Cover as (start + 1) v) :
    Cover as start (⟨x, k⟩ :: v) :=
  (single hk x).append h

theorem snoc {k : Token.Kind} (hk : k ≠ .equal) {x : Lexeme} (h : Cover as start v) :
    Cover as start (v ++ [⟨x, k⟩]) := by
  have happend := h.append (single hk x)
  rwa [List.append_nil] at happend

/-- An assignment covers its own `=`. -/
theorem assign {a : Assignment} (h : Cover bs a.start a.target)
    (h' : Cover as (a.position + 1) a.value) : Cover (bs ++ (as ++ [a])) a.start a.tokens := by
  refine h.append (w := ⟨a.sign, .equal⟩ :: a.value) ?_
  rintro (_ | i) sign hi
  · exact .inl ⟨a, by simp, rfl⟩
  · rcases h' i sign hi with ⟨b, hb, hposition⟩ | ⟨j, word, hj, hword⟩
    · refine .inl ⟨b, List.mem_append_left [a] hb, ?_⟩
      show b.position = a.position + (i + 1)
      omega
    · exact .inr ⟨j + 1, word, by omega, hword⟩

end Assignment.Cover

namespace Derivation

open Nonterminal

variable {g : Grammar}

/-- What is shown of each nonterminal: an initializer is seen with the tokens in front of it. -/
def Covers : {n : Nonterminal} → Derivation g n → Prop
  | .initializer, d => ∀ start word name,
    Assignment.Cover (d.assignments (start + 2)) start
      (⟨word, .varWord⟩ :: ⟨name, .identifier⟩ :: d.yield)
  | .declarations, d | .declaration, d | .level _, d | .operations _, d => ∀ start,
    Assignment.Cover (d.assignments start) start d.yield

/-- No `=` of an assignment is missing. -/
theorem covers {n : Nonterminal} (d : Derivation g n) : d.Covers := by
  induction d with
  | nil | done => exact fun start => .nil
  | cons first rest ihf ihr | binary _ first rest ihf ihr =>
    exact fun start => (ihf start).append (ihr _)
  | declare word name init semicolon ih =>
    exact fun start => (ih start word name).snoc (by decide)
  | print word e semicolon ih | block word e semicolon ih | group word e semicolon ih =>
    exact fun start => ((ih (start + 1)).snoc (by decide)).cons (by decide)
  | expression e semicolon ih => exact fun start => (ih start).snoc (by decide)
  | absent => exact fun start word name => .cons (by decide) (.single (by decide) name)
  | present sign e ih =>
    intro start word name i sign' hi
    match i with
    | 0 => cases hi
    | 1 => cases hi
    | 2 => exact .inr ⟨0, word, rfl, rfl⟩
    | i + 3 =>
      rcases ih (start + 3) i sign' hi with ⟨a, ha, hposition⟩ | ⟨j, word', hj, hword⟩
      · exact .inl ⟨a, ha, by omega⟩
      · exact .inr ⟨j + 3, word', by omega, hword⟩
  | unary op sign e ih =>
    exact fun start => (ih (start + 1)).cons (by cases op <;> exact nofun)
  | plain e ih | atom e ih => exact ih
  | assign _ name sign value ih =>
    intro start
    let a : Assignment := ⟨start, [⟨name, .identifier⟩], sign, value.yield⟩
    have htarget : Assignment.Cover [] a.start a.target := .single (by decide) name
    exact htarget.assign (ih (start + 2))
  | assignTo _ target sign value iht ihv =>
    intro start
    let a : Assignment := ⟨start, target.yield, sign, value.yield⟩
    have htarget : Assignment.Cover (target.assignments start) a.start a.target := iht start
    have h := htarget.assign (ihv (a.position + 1))
    rw [← List.append_assoc] at h
    exact h
  | apply op _ sign right rest ihr ihrest =>
    intro start
    have h := (ihr (start + 1)).append (ihrest (start + 1 + right.yield.length))
    exact h.cons (by cases op <;> exact nofun)
  | literal l text =>
    refine fun start => .single (fun hk => ?_) text
    have hl := Literal.ofKind?_eq_some_iff.2 hk
    cases hl
  | reference name => exact fun start => .single (by decide) name

end Derivation

/-! ## Their order -/

/-- Whether the assignments are listed in the order in which their values end, and their `=` and
their values stand between the indices `lo` and `hi`. -/
structure Assignment.Ordered (lo hi : Nat) (as : List Assignment) : Prop where
  pairwise : as.Pairwise EndsBefore
  bounds : ∀ a ∈ as, lo ≤ a.position ∧ a.stop ≤ hi

namespace Assignment.Ordered

variable {lo mid hi : Nat} {as bs : List Assignment}

theorem nil : Ordered lo hi [] := ⟨.nil, nofun⟩

theorem mono {lo' hi' : Nat} (h : Ordered lo hi as) (hlo : lo' ≤ lo) (hhi : hi ≤ hi') :
    Ordered lo' hi' as := by
  refine ⟨h.pairwise, fun a ha => ?_⟩
  have hbounds := h.bounds a ha
  omega

theorem append (h : Ordered lo mid as) (h' : Ordered mid hi bs) (hlo : lo ≤ mid)
    (hhi : mid ≤ hi) : Ordered lo hi (as ++ bs) := by
  refine ⟨List.pairwise_append.2 ⟨h.pairwise, h'.pairwise, fun a ha b hb => ?_⟩,
    List.forall_mem_append.2 ⟨(h.mono (Nat.le_refl lo) hhi).bounds,
      (h'.mono hlo (Nat.le_refl hi)).bounds⟩⟩
  -- the values of the first ones end before the second ones have their `=`
  have hstop := (h.bounds a ha).2
  have hposition := (h'.bounds b hb).1
  have hbehind : b.position < b.stop := by
    unfold stop
    omega
  exact .inl (by omega)

/-- An assignment comes after those in its value. -/
theorem snoc {a : Assignment} (h : Ordered (a.position + 1) a.stop as) :
    Ordered a.position a.stop (as ++ [a]) := by
  have hself : ∀ b ∈ [a], a.position ≤ b.position ∧ b.stop ≤ a.stop :=
    List.forall_mem_singleton.2 ⟨Nat.le_refl _, Nat.le_refl _⟩
  have hinner := h.mono (Nat.le_succ a.position) (Nat.le_refl a.stop)
  refine ⟨List.pairwise_append.2 ⟨h.pairwise, List.pairwise_singleton _ _, ?_⟩,
    List.forall_mem_append.2 ⟨hinner.bounds, hself⟩⟩
  intro b hb c hc
  obtain rfl := List.mem_singleton.1 hc
  have hbounds := h.bounds b hb
  show b.stop < c.stop ∨ b.stop = c.stop ∧ c.position < b.position
  omega

end Assignment.Ordered

namespace Derivation

open Nonterminal

variable {g : Grammar}

/-- The assignments of a derivation are listed in order, and none reaches beyond it. -/
theorem ordered_assignments {n : Nonterminal} (d : Derivation g n) (start : Nat) :
    Assignment.Ordered start (start + d.yield.length) (d.assignments start) := by
  induction d generalizing start with
  | nil | absent | done | literal | reference => exact .nil
  | cons first rest ihf ihr | binary _ first rest ihf ihr =>
    have h := (ihf start).append (ihr (start + first.yield.length)) (by omega) (by omega)
    rw [Nat.add_assoc, ← List.length_append] at h
    exact h
  | declare word name init semicolon ih =>
    refine (ih (start + 2)).mono (by omega) ?_
    simp only [yield, List.length_cons, List.length_append]
    omega
  | print word e semicolon ih | block word e semicolon ih | group word e semicolon ih =>
    refine (ih (start + 1)).mono (by omega) ?_
    simp only [yield, List.length_cons, List.length_append]
    omega
  | expression e semicolon ih =>
    refine (ih start).mono (Nat.le_refl start) ?_
    simp only [yield, List.length_append]
    omega
  | present sign e ih | unary _ sign e ih =>
    refine (ih (start + 1)).mono (by omega) ?_
    simp only [yield, List.length_cons]
    omega
  | plain e ih | atom e ih => exact ih start
  | assign _ name sign value ih =>
    let a : Assignment := ⟨start, [⟨name, .identifier⟩], sign, value.yield⟩
    have hvalue : Assignment.Ordered (a.position + 1) a.stop (value.assignments (start + 2)) :=
      ih (start + 2)
    refine hvalue.snoc.mono (Nat.le_succ start) ?_
    show start + 1 + 1 + value.yield.length ≤ start + (value.yield.length + 1 + 1)
    omega
  | assignTo _ target sign value iht ihv =>
    -- the target ends where the `=` stands, and the values inside this one come before it
    let a : Assignment := ⟨start, target.yield, sign, value.yield⟩
    have hvalue : Assignment.Ordered (a.position + 1) a.stop
        (value.assignments (start + target.yield.length + 1)) := ihv _
    have hle : a.position ≤ a.stop := by
      unfold Assignment.stop
      omega
    have h := (iht start).append hvalue.snoc (Nat.le_add_right _ _) hle
    rw [← List.append_assoc] at h
    refine h.mono (Nat.le_refl start) ?_
    show start + target.yield.length + 1 + value.yield.length
      ≤ start + (target.yield ++ ⟨sign, .equal⟩ :: value.yield).length
    rw [List.length_append, List.length_cons]
    omega
  | apply op _ sign right rest ihr ihrest =>
    have h := (ihr (start + 1)).append (ihrest (start + 1 + right.yield.length)) (by omega)
      (by omega)
    refine h.mono (by omega) ?_
    simp only [yield, List.length_cons, List.length_append]
    omega

/-! ## Their errors -/

/-- The tree of a name is that name. -/
theorem tree_of_yield_eq_name {name : Lexeme} : ∀ {m : Nat} (d : Derivation g (.level (m + 1))),
    d.yield = [⟨name, .identifier⟩] → d.tree = .var name
  | _, .binary _ first rest, h => by
    -- the first operand has a token, so the operations have none
    obtain ⟨t, u, hy, -⟩ := head_level first _ rfl
    have hlength := congrArg List.length h
    simp only [yield, hy, List.length_append, List.length_cons, List.length_nil] at hlength
    cases rest with
    | done =>
      have hfirst : first.yield = [⟨name, .identifier⟩] := by
        rw [← h, yield, yield, List.append_nil]
      exact tree_of_yield_eq_name first hfirst
    | apply op _ sign right rest =>
      simp only [yield, List.length_cons] at hlength
      omega
  | _, .atom e, h => tree_of_yield_eq_name e h
  | _, .unary op _ _, h => by cases op <;> cases h
  | _, .literal l _, h => by
    have hk : l.kind = .identifier := congrArg Token.kind (List.cons.inj h).1
    exact nomatch Literal.ofKind?_eq_some_iff.2 hk
  | _, .reference _, h => by cases h; rfl

/-- There is an error at an `=` exactly if its left side is no bare identifier. -/
theorem targetErrors_eq (target : Derivation g equality) (start : Nat) (sign : Lexeme)
    (value : List Token) :
    targetErrors target.tree sign
      = ([⟨start, target.yield, sign, value⟩].filter (!·.isBare)).map Assignment.error := by
  let a : Assignment := ⟨start, target.yield, sign, value⟩
  show targetErrors target.tree sign = ([a].filter (!·.isBare)).map Assignment.error
  cases htree : target.tree with
  | var name =>
    have hbare : a.isBare = true :=
      Assignment.isBare_eq_true_iff.2 ⟨name, yield_of_tree_eq_var target htree⟩
    rw [List.filter_cons_of_neg (by simp [hbare])]
    rfl
  | _ =>
    have hbare : ¬ a.isBare = true := fun h => by
      obtain ⟨name, hname⟩ := Assignment.isBare_eq_true_iff.1 h
      cases htree.symm.trans (tree_of_yield_eq_name target hname)
    rw [List.filter_cons_of_pos (by simp [hbare])]
    rfl

/-- **The errors in a derivation are those of its assignments to something else than a bare
identifier**, in the order in which the assigned values end. -/
theorem misplaced_eq {n : Nonterminal} (d : Derivation g n) (start : Nat) :
    d.misplaced = ((d.assignments start).filter (!·.isBare)).map Assignment.error := by
  induction d generalizing start with
  | nil | absent | done | literal | reference => rfl
  | cons first rest ihf ihr | binary _ first rest ihf ihr =>
    rw [assignments, List.filter_append, List.map_append, ← ihf, ← ihr, misplaced]
  | declare word name init semicolon ih => exact ih _
  | print word e semicolon ih | block word e semicolon ih | group word e semicolon ih => exact ih _
  | expression e semicolon ih | plain e ih | atom e ih => exact ih start
  | present sign e ih | unary _ sign e ih => exact ih _
  | assign _ name sign value ih =>
    rw [assignments, List.filter_append, List.map_append, ← ih, misplaced]
    exact (List.append_nil _).symm
  | assignTo _ target sign value iht ihv =>
    rw [assignments, List.filter_append, List.filter_append, List.map_append, List.map_append,
      ← iht, ← ihv, ← targetErrors_eq, misplaced]
  | apply op _ sign right rest ihr ihrest =>
    rw [assignments, List.filter_append, List.map_append, ← ihr, ← ihrest, misplaced]

theorem cause_of_mem_misplaced {n : Nonterminal} (d : Derivation g n) :
    ∀ e ∈ d.misplaced, e.cause = .invalidAssignmentTarget := by
  rw [d.misplaced_eq 0, List.forall_mem_map]
  exact fun _ _ => rfl

end Derivation

end Lox
