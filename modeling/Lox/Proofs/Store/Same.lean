import Lox.Proofs.Eval.Equality
import Lox.Proofs.Store.Forest
import Mathlib.Data.List.Find
import Mathlib.Data.List.Nodup

/-!
# Lox — chains with equal values

Two chains of frames, possibly in different stores, are compared frame by frame: they are of the
same length, and frames at the same place bind the same names to equal values. All that execution
does to a store keeps two chains so.

* **`Store.SameChain`** — the comparison.
* **`Store.Matched`** — the same, with the places of the frames fixed, as execution keeps it.
* **`Store.Matched.get?`** — the values that are seen are equal.
* **`Store.Matched.define`**, **`Store.Matched.assign`**, **`Store.Matched.enclose`**,
  **`Store.Matched.drop`** — what execution does.
-/

namespace Lox

namespace Store

/-! ## Frames and chains -/

/-- The frame `g` of `s` and the frame `g'` of `s'` bind the same names, to equal values. -/
def SameFrame (s s' : Store) (g g' : Nat) : Prop :=
  ∀ n, Option.Rel Value.Same (s.lookup? g n) (s'.lookup? g' n)

/-- The chains are of the same length and are the same frame by frame. -/
def SameChain (s s' : Store) (f f' : Nat) : Prop :=
  (s.chain f).length = (s'.chain f').length
  ∧ ∀ p ∈ (s.chain f).zip (s'.chain f'), SameFrame s s' p.1 p.2

/-- The stores have `n` and `n'` frames, and the chains of `f` and `f'` consist of the pairs
`(f, f') :: ps`, which are the same frame by frame. -/
structure Matched (n n' f f' : Nat) (ps : List (Nat × Nat)) (s s' : Store) : Prop where
  size : s.size = n
  size' : s'.size = n'
  chain : s.chain f = ((f, f') :: ps).map Prod.fst
  chain' : s'.chain f' = ((f, f') :: ps).map Prod.snd
  frames : ∀ p ∈ (f, f') :: ps, SameFrame s s' p.1 p.2

variable {s s' t t' : Store} {n n' f f' g g' k k' : Nat} {ps : List (Nat × Nat)}

/-! ### One frame -/

theorem SameFrame.congr (h : SameFrame s s' g g') (ht : SameUpTo k s t) (ht' : SameUpTo k' s' t')
    (hg : g ≤ k) (hg' : g' ≤ k') : SameFrame t t' g g' := by
  intro m
  rw [(ht.mono hg).lookup?_eq, (ht'.mono hg').lookup?_eq]
  exact h m

/-- The same name is bound in a frame on each side, which are both the compared one or both not. -/
theorem SameFrame.define (h : SameFrame s s' g g') (hk : k < s.size) (hk' : k' < s'.size)
    (hplace : g = k ↔ g' = k') (name : String) {v v' : Value} (hv : v.Same v') :
    SameFrame (s.define k name v) (s'.define k' name v') g g' := by
  intro m
  rw [s.lookup?_define hk, s'.lookup?_define hk']
  by_cases hwritten : g = k ∧ m = name
  · rw [if_pos hwritten, if_pos ⟨hplace.1 hwritten.1, hwritten.2⟩]
    exact .some hv
  · rw [if_neg hwritten, if_neg fun hw => hwritten ⟨hplace.2 hw.1, hw.2⟩]
    exact h m

/-! ### From one chain to another -/

theorem SameUpTo.chain_eq (h : SameUpTo k s t) : t.chain k = s.chain k :=
  Frames.chain_congr fun g hg => by rw [h g hg]

/-- What follows the first frame of a chain is the chain of the next one. -/
theorem chain_eq_of_cons {rest : List Nat} (h : s.chain f = f :: g :: rest) :
    s.chain g = g :: rest := by
  have hf : f < s.size := ((s.pairwise_chain f).2 f (by simp [h])).2
  rw [s.chain_eq hf] at h
  replace h := List.cons.inj h
  cases hp : s.parent? f with
  | none =>
    rw [hp] at h
    cases h.2
  | some p =>
    have hlt : p < s.size := Nat.lt_trans (s.parent?_lt hp) hf
    rw [hp] at h
    have hrest : s.chain p = g :: rest := h.2
    -- a chain starts with its frame
    obtain rfl : p = g := by
      rw [s.chain_eq hlt] at hrest
      exact (List.cons.inj hrest).1
    exact hrest

theorem SameChain.exists_matched (h : SameChain s s' f f') (hf : f < s.size) (hf' : f' < s'.size) :
    ∃ ps, Matched s.size s'.size f f' ps s s' := by
  obtain ⟨hlength, hframes⟩ := h
  have hchain := s.chain_eq hf
  have hchain' := s'.chain_eq hf'
  generalize (s.parent? f).elim [] s.chain = outer at hchain
  generalize (s'.parent? f').elim [] s'.chain = outer' at hchain'
  rw [hchain, hchain', List.length_cons, List.length_cons, Nat.add_right_cancel_iff] at hlength
  rw [hchain, hchain', List.zip_cons_cons] at hframes
  refine ⟨outer.zip outer', rfl, rfl, ?_, ?_, hframes⟩
  · rw [hchain, List.map_cons, List.map_fst_zip (Nat.le_of_eq hlength)]
  · rw [hchain', List.map_cons, List.map_snd_zip (Nat.le_of_eq hlength.symm)]

namespace Matched

theorem sameChain (h : Matched n n' f f' ps s s') : SameChain s s' f f' := by
  refine ⟨?_, fun p hp => ?_⟩
  · rw [h.chain, h.chain', List.length_map, List.length_map]
  · rw [h.chain, h.chain', List.zip_map', List.map_id'] at hp
    exact h.frames p hp

/-! ## Places on the chains -/

theorem lt_size (h : Matched n n' f f' ps s s') {p : Nat × Nat} (hp : p ∈ (f, f') :: ps) :
    p.1 < s.size ∧ p.2 < s'.size := by
  have hmem : p.1 ∈ s.chain f := by
    rw [h.chain]
    exact List.mem_map_of_mem hp
  have hmem' : p.2 ∈ s'.chain f' := by
    rw [h.chain']
    exact List.mem_map_of_mem hp
  exact ⟨((s.pairwise_chain f).2 _ hmem).2, ((s'.pairwise_chain f').2 _ hmem').2⟩

/-- A frame stands at one place only, so a place is known by either of its frames. -/
theorem fst_eq_iff (h : Matched n n' f f' ps s s') {p q : Nat × Nat} (hp : p ∈ (f, f') :: ps)
    (hq : q ∈ (f, f') :: ps) : p.1 = q.1 ↔ p.2 = q.2 := by
  have hnodup := s.nodup_chain f
  have hnodup' := s'.nodup_chain f'
  rw [h.chain] at hnodup
  rw [h.chain'] at hnodup'
  constructor
  · intro heq
    rw [List.inj_on_of_nodup_map hnodup hp hq heq]
  · intro heq
    rw [List.inj_on_of_nodup_map hnodup' hp hq heq]

/-- A name is found at the same place, or on neither side. -/
theorem resolve? (h : Matched n n' f f' ps s s') (name : String) :
    (s.resolve? f name = none ∧ s'.resolve? f' name = none)
    ∨ ∃ p ∈ (f, f') :: ps, s.resolve? f name = some p.1 ∧ s'.resolve? f' name = some p.2 := by
  have hbinds : ∀ p ∈ (f, f') :: ps,
      (s.lookup? p.1 name).isSome = (s'.lookup? p.2 name).isSome := by
    intro p hp
    have hrel := h.frames p hp name
    generalize s.lookup? p.1 name = o, s'.lookup? p.2 name = o' at hrel
    cases hrel <;> rfl
  rw [resolve?_eq_nearest?, resolve?_eq_nearest?, nearest?, nearest?, h.chain, h.chain',
    List.find?_map, List.find?_map]
  have hfind : ((f, f') :: ps).find? ((fun g => (s'.lookup? g name).isSome) ∘ Prod.snd)
      = ((f, f') :: ps).find? ((fun g => (s.lookup? g name).isSome) ∘ Prod.fst) :=
    List.find?_congr fun p hp => (hbinds p hp).symm
  rw [hfind]
  cases hfound : ((f, f') :: ps).find? ((fun g => (s.lookup? g name).isSome) ∘ Prod.fst) with
  | none => exact .inl ⟨rfl, rfl⟩
  | some p => exact .inr ⟨p, List.mem_of_find?_eq_some hfound, rfl, rfl⟩

/-! ## What execution does -/

/-- Equal values are seen. -/
theorem get? (h : Matched n n' f f' ps s s') (name : String) :
    Option.Rel Value.Same (s.get? f name) (s'.get? f' name) := by
  rw [Store.get?, Store.get?]
  rcases h.resolve? name with ⟨hnone, hnone'⟩ | ⟨p, hp, hsome, hsome'⟩
  · rw [hnone, hnone']
    exact .none
  · rw [hsome, hsome']
    exact h.frames p hp name

/-- Equal values are bound to the name at one place of the chains. -/
theorem define (h : Matched n n' f f' ps s s') {p : Nat × Nat} (hp : p ∈ (f, f') :: ps)
    (name : String) {v v' : Value} (hv : v.Same v') :
    Matched n n' f f' ps (s.define p.1 name v) (s'.define p.2 name v') := by
  obtain ⟨hlt, hlt'⟩ := h.lt_size hp
  refine ⟨?_, ?_, ?_, ?_, fun q hq => ?_⟩
  · rw [size_define, h.size]
  · rw [size_define, h.size']
  · rw [chain_define, h.chain]
  · rw [chain_define, h.chain']
  · exact (h.frames q hq).define hlt hlt' (h.fst_eq_iff hq hp) name hv

/-- Equal values are assigned to the name at the same place, or the name is not found. -/
theorem assign (h : Matched n n' f f' ps s s') (name : String) {v v' : Value} (hv : v.Same v') :
    Option.Rel (Matched n n' f f' ps) (s.assign? f name v) (s'.assign? f' name v') := by
  rw [assign?, assign?]
  rcases h.resolve? name with ⟨hnone, hnone'⟩ | ⟨p, hp, hsome, hsome'⟩
  · rw [hnone, hnone']
    exact .none
  · rw [hsome, hsome']
    exact .some (h.define hp name hv)

/-- Both sides enter a block. -/
theorem enclose (h : Matched n n' f f' ps s s') :
    Matched (n + 1) (n' + 1) n n' ((f, f') :: ps) (s.enclose f) (s'.enclose f') := by
  obtain rfl := h.size
  obtain rfl := h.size'
  refine ⟨s.size_enclose f, s'.size_enclose f', ?_, ?_, fun p hp => ?_⟩
  · rw [chain_enclose, h.chain]
    rfl
  · rw [chain_enclose, h.chain']
    rfl
  · rcases List.mem_cons.1 hp with rfl | hp
    · intro m
      rw [lookup?_enclose, lookup?_enclose]
      exact .none
    · -- the frames around the block stay as they are
      obtain ⟨hlt, hlt'⟩ := h.lt_size hp
      exact (h.frames p hp).congr (s.sameUpTo_enclose hlt f) (s'.sameUpTo_enclose hlt' f')
        (Nat.le_refl _) (Nat.le_refl _)

/-- Both sides leave the block that they entered last. -/
theorem drop (h : Matched (n + 1) (n' + 1) n n' ((f, f') :: ps) s s') :
    Matched n n' f f' ps s.drop s'.drop := by
  have hpairwise := (s.pairwise_chain n).1
  have hpairwise' := (s'.pairwise_chain n').1
  rw [h.chain, List.map_cons, List.pairwise_cons] at hpairwise
  rw [h.chain', List.map_cons, List.pairwise_cons] at hpairwise'
  -- the frames that stay are older than that of the block
  have holder : ∀ p ∈ (f, f') :: ps, p.1 + 1 < s.size ∧ p.2 + 1 < s'.size := by
    intro p hp
    have hlt := hpairwise.1 p.1 (List.mem_map_of_mem hp)
    have hlt' := hpairwise'.1 p.2 (List.mem_map_of_mem hp)
    rw [h.size, h.size']
    exact ⟨Nat.succ_lt_succ hlt, Nat.succ_lt_succ hlt'⟩
  have hfirst := holder (f, f') List.mem_cons_self
  refine ⟨?_, ?_, ?_, ?_, fun p hp => ?_⟩
  · rw [size_drop, h.size, Nat.add_sub_cancel]
  · rw [size_drop, h.size', Nat.add_sub_cancel]
  · rw [(s.sameUpTo_drop hfirst.1).chain_eq]
    exact chain_eq_of_cons h.chain
  · rw [(s'.sameUpTo_drop hfirst.2).chain_eq]
    exact chain_eq_of_cons h.chain'
  · exact (h.frames p (List.mem_cons_of_mem _ hp)).congr (s.sameUpTo_drop (holder p hp).1)
      (s'.sameUpTo_drop (holder p hp).2) (Nat.le_refl _) (Nat.le_refl _)

end Matched

end Store

end Lox
