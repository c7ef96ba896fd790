import Lox.Proofs.Store.Changes

/-!
# Lox — the forest of frames

A frame names its parent, and many frames may name the same one. A frame is made inside an older
one, so the way from parent to parent ends, and what is seen from a frame is settled by the frames
on that way. A write goes to one frame, and it is seen from the frames on whose way no nearer frame
hides it.

* **`Store.Reachable`** — the stores that arise by adding frames, declaring and assigning.
* **`Store.Reachable.parent_lt`** — a parent is older than its frames.
* **`Store.Shows`** — a frame looks as far as another one.
* **`Store.get?_define_of_shows`**, **`Store.get?_define_of_not_shows`** — who sees a declaration.
* **`Store.Reachable.access_law`** — who sees which write.
-/

namespace Lox

namespace Store

/-! ## Forests -/

/-- The store without frames. -/
def empty : Store := ⟨#[]⟩

/-- The store after an assignment, which changes nothing if the name is not found. -/
def assigned (s : Store) (id : Nat) (n : String) (v : Value) : Store := (s.assign? id n v).getD s

/-- The stores that arise by adding frames, with and without a parent, and by declaring and
assigning in frames that are there. -/
inductive Reachable : Store → Prop
  | empty : Reachable empty
  | global {s : Store} (h : Reachable s) : Reachable (s.push none)
  | enclose {s : Store} (h : Reachable s) {f : Nat} (hf : f < s.size) : Reachable (s.enclose f)
  | define {s : Store} (h : Reachable s) {f : Nat} (hf : f < s.size) (n : String) (v : Value) :
      Reachable (s.define f n v)
  | assign {s : Store} (h : Reachable s) {f : Nat} (hf : f < s.size) (n : String) (v : Value) :
      Reachable (s.assigned f n v)

/-- The parent that a frame names, whatever frame it is. -/
def enclosing? (s : Store) (id : Nat) : Option Nat := s.frames[id]?.bind (·.parent)

/-- The way from a frame to its parent, to the parent of that, and so on up to a frame without a
parent. -/
inductive Path (s : Store) : Nat → List Nat → Prop
  | root {f : Nat} (hf : f < s.size) (hp : s.enclosing? f = none) : Path s f [f]
  | inner {f p : Nat} {path : List Nat} (hp : s.enclosing? f = some p) (hpath : Path s p path) :
      Path s f (f :: path)

/-- The first frame on the chain of `f` that binds `n`. -/
def nearest? (s : Store) (f : Nat) (n : String) : Option Nat :=
  (s.chain f).find? fun g => (s.lookup? g n).isSome

/-- The chain of `g` reaches the frame `f` through frames that do not bind `n`. -/
def Shows (s : Store) (n : String) (f g : Nat) : Prop :=
  ∃ before after, s.chain g = before ++ f :: after ∧ ∀ k ∈ before, s.lookup? k n = none

/-! ## Parents are older -/

theorem enclosing?_define (s : Store) (f : Nat) (n : String) (v : Value) (id : Nat) :
    (s.define f n v).enclosing? id = s.enclosing? id := by
  have hparents := congrArg (Option.bind · fun p => p) (s.map_parent_define f n v id)
  rw [Option.bind_map, Option.bind_map] at hparents
  exact hparents

theorem enclosing?_push (s : Store) (parent : Option Nat) (id : Nat) :
    (s.push parent).enclosing? id = if id = s.size then parent else s.enclosing? id := by
  rw [enclosing?, enclosing?, push, Array.getElem?_push, size]
  split <;> rfl

theorem enclosing?_assigned (s : Store) (f : Nat) (n : String) (v : Value) (id : Nat) :
    (s.assigned f n v).enclosing? id = s.enclosing? id := by
  rw [assigned]
  cases h : s.assign? f n v with
  | none => rfl
  | some s' =>
    obtain ⟨g, -, -, rfl⟩ := s.exists_define_of_assign? h
    exact s.enclosing?_define g n v id

/-- **A parent is older than its frames.** -/
theorem Reachable.parent_lt {s : Store} (h : s.Reachable) {id p : Nat}
    (hp : s.enclosing? id = some p) : p < id := by
  induction h with
  | empty => simp [enclosing?, Store.empty] at hp
  | @global s _ ih =>
    rw [enclosing?_push] at hp
    split at hp
    · cases hp
    · exact ih hp
  | @enclose s _ f hf ih =>
    rw [Store.enclose, enclosing?_push] at hp
    split at hp
    · cases hp
      omega
    · exact ih hp
  | define _ _ n v ih =>
    rw [enclosing?_define] at hp
    exact ih hp
  | assign _ _ n v ih =>
    rw [enclosing?_assigned] at hp
    exact ih hp

/-- So no link from a frame to its parent is out of use. -/
theorem Reachable.parent?_eq {s : Store} (h : s.Reachable) (id : Nat) :
    s.parent? id = s.enclosing? id := by
  rw [parent?, Frames.parent?]
  cases hp : s.frames[id]?.bind (·.parent) with
  | none => exact hp.symm
  | some p =>
    have hlt : p < id := h.parent_lt hp
    simp only [dif_pos hlt]
    exact hp.symm

theorem chain_eq (s : Store) {f : Nat} (hf : f < s.size) :
    s.chain f = f :: (s.parent? f).elim [] s.chain := by
  have hlt : f < s.frames.size := hf
  rw [chain, Frames.chain, if_pos hlt, parent?]
  cases Frames.parent? s.frames f <;> rfl

theorem chain_eq_nil (s : Store) {f : Nat} (hf : s.size ≤ f) : s.chain f = [] := by
  have hle : ¬ f < s.frames.size := Nat.not_lt_of_le hf
  rw [chain, Frames.chain, if_neg hle]

/-- A chain comes to older and older frames of the store. -/
theorem pairwise_chain (s : Store) (f : Nat) :
    (s.chain f).Pairwise (· > ·) ∧ ∀ g ∈ s.chain f, g ≤ f ∧ g < s.size := by
  induction f using Nat.strongRecOn with
  | ind f ih =>
    by_cases hf : f < s.size
    · have hself : ∀ g ∈ [f], g ≤ f ∧ g < s.size := by
        simp [hf]
      rw [s.chain_eq hf]
      cases hp : s.parent? f with
      | none => exact ⟨List.pairwise_singleton _ _, hself⟩
      | some p =>
        have hlt : p < f := s.parent?_lt hp
        obtain ⟨hpairwise, hle⟩ := ih p hlt
        have hfirst : ∀ g ∈ s.chain p, f > g := fun g hg => Nat.lt_of_le_of_lt (hle g hg).1 hlt
        refine ⟨List.pairwise_cons.2 ⟨hfirst, hpairwise⟩, fun g hg => ?_⟩
        rcases List.mem_cons.1 hg with rfl | hg
        · exact hself g List.mem_cons_self
        · exact ⟨Nat.le_of_lt (hfirst g hg), (hle g hg).2⟩
    · rw [s.chain_eq_nil (Nat.le_of_not_lt hf)]
      exact ⟨.nil, nofun⟩

theorem nodup_chain (s : Store) (f : Nat) : (s.chain f).Nodup :=
  (s.pairwise_chain f).1.imp Nat.ne_of_gt

/-- A chain is the way from parent to parent. -/
theorem Reachable.path_chain {s : Store} (h : s.Reachable) {f : Nat} (hf : f < s.size) :
    s.Path f (s.chain f) := by
  induction f using Nat.strongRecOn with
  | ind f ih =>
    rw [s.chain_eq hf]
    cases hp : s.parent? f with
    | none =>
      have hroot : s.enclosing? f = none := (h.parent?_eq f).symm.trans hp
      exact .root hf hroot
    | some p =>
      have hlink : s.enclosing? f = some p := (h.parent?_eq f).symm.trans hp
      have hlt : p < f := h.parent_lt hlink
      exact .inner hlink (ih p hlt (Nat.lt_trans hlt hf))

theorem Path.eq {s : Store} {f : Nat} {path path' : List Nat} (h : s.Path f path)
    (h' : s.Path f path') : path = path' := by
  induction h generalizing path' with
  | root hf hp =>
    cases h' with
    | root => rfl
    | inner hp' => rw [hp] at hp'; cases hp'
  | inner hp hpath ih =>
    cases h' with
    | root _ hp' => rw [hp] at hp'; cases hp'
    | inner hp' hpath' =>
      obtain rfl := Option.some.inj (hp.symm.trans hp')
      rw [ih hpath']

/-! ## What is seen -/

variable (s : Store) {f g : Nat} {n : String}

theorem resolve?_eq_nearest? (f : Nat) (n : String) : s.resolve? f n = s.nearest? f n := by
  rw [resolve?, Frames.resolve?_eq_find?_chain]
  rfl

/-- The first value on the chain is the one that is seen. -/
theorem get?_eq_findSome? (f : Nat) (n : String) :
    s.get? f n = (s.chain f).findSome? (s.lookup? · n) := by
  rw [get?, resolve?_eq_nearest?, nearest?]
  induction s.chain f with
  | nil => rfl
  | cons g rest ih =>
    rw [List.find?_cons, List.findSome?_cons]
    cases h : s.lookup? g n with
    | some v => exact h
    | none => exact ih

theorem chain_define (f : Nat) (n : String) (v : Value) (g : Nat) :
    (s.define f n v).chain g = s.chain g :=
  Frames.chain_bindAt f g n v s.frames

/-- A declaration is seen from the frames that look as far as it. -/
theorem get?_define_of_shows (hf : f < s.size) (v : Value) (h : s.Shows n f g) :
    (s.define f n v).get? g n = some v := by
  obtain ⟨before, after, hchain, hbefore⟩ := h
  rw [get?_eq_findSome?, chain_define, hchain]
  simp only [s.lookup?_define hf]
  clear hchain
  induction before with
  | nil => simp
  | cons k before ih =>
    obtain ⟨hk, hbefore⟩ := List.forall_mem_cons.1 hbefore
    rw [List.cons_append, List.findSome?_cons]
    by_cases hkf : k = f
    · simp [hkf]
    · simp only [hkf, false_and, if_false, hk]
      exact ih hbefore

/-- From all other frames, and under other names, the same is seen as before. -/
theorem get?_define_of_not_shows (hf : f < s.size) (v : Value) {m : String}
    (h : ¬ (m = n ∧ s.Shows n f g)) : (s.define f n v).get? g m = s.get? g m := by
  rw [get?_eq_findSome?, get?_eq_findSome?, chain_define]
  simp only [s.lookup?_define hf]
  by_cases hm : m = n
  · subst hm
    have hshows : ¬ ∃ before after, s.chain g = before ++ f :: after
        ∧ ∀ k ∈ before, s.lookup? k m = none := fun hs => h ⟨rfl, hs⟩
    simp only [and_true]
    generalize s.chain g = path at hshows
    induction path with
    | nil => rfl
    | cons k rest ih =>
      have hkf : k ≠ f := by
        rintro rfl
        exact hshows ⟨[], rest, rfl, by simp⟩
      rw [List.findSome?_cons, List.findSome?_cons, if_neg hkf]
      cases hk : s.lookup? k m with
      | some w => rfl
      | none =>
        -- what is reached from the next frame is reached from this one
        refine ih fun ⟨before, after, hrest, hbefore⟩ => hshows ⟨k :: before, after, ?_, ?_⟩
        · rw [hrest, List.cons_append]
        · exact List.forall_mem_cons.2 ⟨hk, hbefore⟩
  · simp [hm]

/-- The nearest frame that binds a name is one that is reached and binds it. -/
theorem nearest?_eq_some_iff :
    s.nearest? g n = some f ↔ s.Shows n f g ∧ (s.lookup? f n).isSome = true := by
  rw [nearest?, List.find?_eq_some_iff_append]
  constructor
  · rintro ⟨hbinds, before, after, hchain, hbefore⟩
    refine ⟨⟨before, after, hchain, fun k hk => ?_⟩, hbinds⟩
    simpa using hbefore k hk
  · rintro ⟨⟨before, after, hchain, hbefore⟩, hbinds⟩
    refine ⟨hbinds, before, after, hchain, fun k hk => ?_⟩
    simp [hbefore k hk]

theorem get?_eq_none_iff_nearest? : s.get? f n = none ↔ s.nearest? f n = none := by
  rw [get?_eq_findSome?, nearest?, List.findSome?_eq_none_iff, List.find?_eq_none]
  simp

theorem isSome_assign?_iff {v : Value} :
    (s.assign? f n v).isSome = true ↔ ∃ g, s.nearest? f n = some g := by
  rw [assign?, Option.isSome_map, resolve?_eq_nearest?, Option.isSome_iff_exists]

/-- **Who sees which write.** In a forest of frames, the way from parent to parent is finite and
comes to no frame twice, and the value that is seen is the one in the nearest frame that binds the
name. An assignment succeeds if there is such a frame; then the new value is seen from the frames
that have the same nearest frame, and else nothing changes. A declaration is seen from its frame and
from the frames that look as far as it, and nothing else changes. -/
theorem Reachable.access_law {s : Store} (hs : s.Reachable) :
    (∀ f < s.size, (∀ path, s.Path f path ↔ path = s.chain f) ∧ (s.chain f).Nodup)
    ∧ (∀ f n, (s.get? f n = none ↔ s.nearest? f n = none)
        ∧ ∀ g, s.nearest? f n = some g → s.get? f n = s.lookup? g n)
    ∧ (∀ f n v, ((s.assign? f n v).isSome ↔ ∃ g, s.nearest? f n = some g)
        ∧ (∀ g m, s.assign? f n v ≠ none → (s.assigned f n v).get? g m
            = if m = n ∧ s.nearest? g n = s.nearest? f n then some v else s.get? g m)
        ∧ (s.assign? f n v = none → ∀ g m, (s.assigned f n v).get? g m = s.get? g m))
    ∧ ∀ f < s.size, ∀ n v, (s.define f n v).get? f n = some v
        ∧ (∀ g, s.Shows n f g → (s.define f n v).get? g n = some v)
        ∧ ∀ g m, ¬ (m = n ∧ s.Shows n f g) → (s.define f n v).get? g m = s.get? g m := by
  refine ⟨fun f hf => ?_, fun f n => ⟨s.get?_eq_none_iff_nearest?, fun g hg => ?_⟩,
    fun f n v => ⟨s.isSome_assign?_iff, fun g m hfound => ?_, fun hnone g m => ?_⟩,
    fun f hf n v => ⟨?_, fun g hg => s.get?_define_of_shows hf v hg,
      fun g m h => s.get?_define_of_not_shows hf v h⟩⟩
  · have hpath := hs.path_chain hf
    exact ⟨fun path => ⟨fun h => h.eq hpath, fun h => h ▸ hpath⟩, s.nodup_chain f⟩
  · rw [get?, resolve?_eq_nearest?, hg]
    rfl
  · obtain ⟨s', hs'⟩ := Option.ne_none_iff_exists'.1 hfound
    obtain ⟨h, hh, rfl⟩ := Option.map_eq_some_iff.1 hs'
    rw [resolve?_eq_nearest?] at hh
    obtain ⟨-, hbinds⟩ := s.nearest?_eq_some_iff.1 hh
    have hsize := s.lt_size_of_lookup? hbinds
    rw [assigned, hs', Option.getD_some, hh]
    split
    · next hsame =>
      obtain ⟨rfl, hg⟩ := hsame
      exact s.get?_define_of_shows hsize v (s.nearest?_eq_some_iff.1 hg).1
    · next hother =>
      refine s.get?_define_of_not_shows hsize v fun hshows => hother ⟨hshows.1, ?_⟩
      exact s.nearest?_eq_some_iff.2 ⟨hshows.2, hbinds⟩
  · rw [assigned, hnone, Option.getD_none]
  · exact s.get?_define_of_shows hf v ⟨[], _, s.chain_eq hf, by simp⟩

/-- A frame that binds `a`, two frames in it of which the second hides that `a`, and a frame in the
second one. -/
def siblings : Store :=
  (((((empty.push none).define 0 "a" .nil).enclose 0).enclose 0).define 2 "a" (.bool false)).enclose 2

theorem reachable_siblings : siblings.Reachable :=
  (((((Reachable.empty.global).define (by decide) "a" .nil).enclose (by decide)).enclose
    (by decide)).define (by decide) "a" (.bool false)).enclose (by decide)

theorem Reachable.access_law_siblings :
    siblings.Reachable
    ∧ (∀ path, siblings.Path 3 path ↔ path = [3, 2, 0])
    ∧ (∀ g, (siblings.assigned 1 "a" (.bool true)).get? g "a"
        = if siblings.nearest? g "a" = some 0 then some (.bool true) else siblings.get? g "a")
    ∧ siblings.nearest? 0 "a" = some 0 ∧ siblings.nearest? 3 "a" = some 2
    ∧ (∀ g m, (siblings.assigned 3 "b" .nil).get? g m = siblings.get? g m)
    ∧ (siblings.define 0 "b" .nil).get? 3 "b" = some .nil
    ∧ (siblings.define 2 "b" .nil).get? 1 "b" = siblings.get? 1 "b" := by
  have hchain : siblings.chain 3 = [3, 2, 0] := by decide +kernel
  have hbeside : siblings.chain 1 = [1, 0] := by decide +kernel
  obtain ⟨hpaths, -, hassign, hdefine⟩ := reachable_siblings.access_law
  have hpath := (hpaths 3 (by decide)).1
  obtain ⟨-, hfound, -⟩ := hassign 1 "a" (.bool true)
  obtain ⟨-, -, hmissing⟩ := hassign 3 "b" .nil
  obtain ⟨-, hshown, -⟩ := hdefine 0 (by decide) "b" .nil
  obtain ⟨-, -, hhidden⟩ := hdefine 2 (by decide) "b" .nil
  have hnearest : siblings.nearest? 1 "a" = some 0 := by decide +kernel
  have hsome : siblings.assign? 1 "a" (.bool true) ≠ none := by decide +kernel
  have hnone : siblings.assign? 3 "b" .nil = none := by decide +kernel
  refine ⟨reachable_siblings, fun path => ?_, fun g => ?_, by decide +kernel, by decide +kernel,
    hmissing hnone, hshown 3 ⟨[3, 2], [], hchain, by decide +kernel⟩,
    hhidden 1 "b" ?_⟩
  · rw [← hchain]
    exact hpath path
  · have hseen := hfound g "a" hsome
    rw [hnearest] at hseen
    simpa using hseen
  · -- the second frame is not on the chain of the first
    rintro ⟨-, before, after, hreach, -⟩
    have hmem : 2 ∈ siblings.chain 1 := by simp [hreach]
    rw [hbeside] at hmem
    simp at hmem

end Store

end Lox
