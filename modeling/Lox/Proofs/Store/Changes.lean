import Lox.Proofs.Store.Access

/-!
# Lox — what may change in a store

Execution in a frame writes to that frame and to the frames around it, and it declares names in
that frame alone. `Store.ChangedOnly` says this of the store before and the store after, given
the names that were assigned to and the names that were declared.

* **`Store.ChangedOnly.refl`**, **`Store.ChangedOnly.trans`** — nothing was done, or one thing
  after another.
* **`Store.ChangedOnly.of_assign?`**, **`Store.ChangedOnly.define`** — one name was written.
* **`Store.ChangedOnly.leave`** — a block was entered and left.
-/

namespace Lox

/-! ## Chains -/

/-- A chain depends on the parents of the frames up to its first one, and on nothing else. -/
theorem Frames.chain_congr {frames frames' : Array Frame} {id : Nat}
    (h : ∀ g ≤ id, frames'[g]?.map Frame.parent = frames[g]?.map Frame.parent) :
    chain frames' id = chain frames id := by
  induction id using Nat.strongRecOn with
  | ind id ih =>
    have hid := h id (Nat.le_refl id)
    have hsize : id < frames'.size ↔ id < frames.size := by
      have hnone : frames'[id]? = none ↔ frames[id]? = none := by
        rw [← Option.map_eq_none_iff, hid, Option.map_eq_none_iff]
      rw [Array.getElem?_eq_none_iff, Array.getElem?_eq_none_iff] at hnone
      omega
    have hparent : parent? frames' id = parent? frames id := by
      have hbind : frames'[id]?.bind (·.parent) = frames[id]?.bind (·.parent) := by
        have hjoin := congrArg (Option.bind · fun p => p) hid
        rw [Option.bind_map, Option.bind_map] at hjoin
        exact hjoin
      rw [parent?, parent?, hbind]
    rw [chain, chain, hparent]
    simp only [hsize]
    cases hp : parent? frames id with
    | none => rfl
    | some p =>
      have hrest : chain frames' p.1 = chain frames p.1 :=
        ih p.1 p.2 fun g hg => h g (by have := p.2; omega)
      simp only [hrest]

namespace Store

variable (s : Store) {f g : Nat} {n : String}

theorem mem_chain_of_resolve? (h : s.resolve? f n = some g) : g ∈ s.chain f := by
  rw [resolve?, Frames.resolve?_eq_find?_chain] at h
  exact List.mem_of_find?_eq_some h

theorem lookup?_isSome_of_resolve? (h : s.resolve? f n = some g) :
    (s.lookup? g n).isSome = true := by
  rw [resolve?, Frames.resolve?_eq_find?_chain] at h
  have hbinds := List.find?_some h
  exact hbinds

theorem self_mem_chain (h : f < s.size) : f ∈ s.chain f := by
  have hlt : f < s.frames.size := h
  rw [chain, Frames.chain, if_pos hlt]
  exact List.mem_cons_self

/-- A new frame stands in front of the chain of the frame around it. -/
theorem chain_enclose (f : Nat) : (s.enclose f).chain s.size = s.size :: s.chain f := by
  have hlt : s.size < (s.enclose f).frames.size := by
    have hsize : (s.enclose f).frames.size = s.size + 1 := s.size_enclose f
    omega
  have hnew : (s.enclose f).frames[s.size]? = some ⟨[], some f⟩ := by
    rw [enclose, push, size, Array.getElem?_push, if_pos rfl]
  rw [chain, Frames.chain, if_pos hlt, Frames.parent?, hnew]
  by_cases hf : f < s.size
  · have hold : Frames.chain (s.enclose f).frames f = s.chain f :=
      Frames.chain_congr fun g hg => by rw [s.sameUpTo_enclose hf f g hg]
    simp [hf, hold]
  · -- a frame that is not there has no chain, and is no parent either
    have hnone : s.chain f = [] := by
      have hle : ¬ f < s.frames.size := hf
      rw [chain, Frames.chain, if_neg hle]
    simp [hf, hnone]

/-! ## One write -/

theorem getElem?_define_of_ne (h : g ≠ f) (n : String) (v : Value) :
    (s.define f n v).frames[g]? = s.frames[g]? := by
  rw [define, Frames.getElem?_bindAt, if_neg h]

theorem map_parent_define (f : Nat) (n : String) (v : Value) (g : Nat) :
    (s.define f n v).frames[g]?.map Frame.parent = s.frames[g]?.map Frame.parent := by
  rw [define, Frames.getElem?_bindAt]
  split
  · rw [Option.map_map]
    rfl
  · rfl

/-- In a frame that is not there, nothing is declared. -/
theorem define_of_size_le (h : s.size ≤ f) (n : String) (v : Value) : s.define f n v = s := by
  have hframes : (s.define f n v).frames = s.frames := by
    refine Array.ext_getElem? fun g => ?_
    by_cases hg : g = f
    · have hnone : s.frames[g]? = none := Array.getElem?_eq_none (by rw [hg]; exact h)
      rw [define, Frames.getElem?_bindAt, if_pos hg, hnone]
      rfl
    · exact s.getElem?_define_of_ne hg n v
  cases s
  exact congrArg Store.mk hframes

/-! ## What was changed -/

/-- From the store `s` to the store `s'`, no more was done than to assign values to the names
`targets` from the frame `f` and to declare the names `declared` in it. -/
structure ChangedOnly (f : Nat) (targets declared : List String) (s s' : Store) : Prop where
  size_eq : s'.size = s.size
  parents : ∀ g : Nat, s'.frames[g]?.map Frame.parent = s.frames[g]?.map Frame.parent
  outside : ∀ g : Nat, g ∉ s.chain f → s'.frames[g]? = s.frames[g]?
  around : ∀ g ∈ s.chain f, g ≠ f → ∀ n, (s'.lookup? g n).isSome = (s.lookup? g n).isSome
  kept : ∀ n, (s.lookup? f n).isSome = true → (s'.lookup? f n).isSome = true
  added : ∀ n, (s'.lookup? f n).isSome = true → (s.lookup? f n).isSome = true ∨ n ∈ declared
  written : ∀ g n, s'.lookup? g n ≠ s.lookup? g n → n ∈ targets ∨ g = f ∧ n ∈ declared

namespace ChangedOnly

variable {s} {s' s'' : Store} {ts ts' ds ds' : List String}

theorem refl (f : Nat) (ts ds : List String) (s : Store) : ChangedOnly f ts ds s s where
  size_eq := rfl
  parents _ := rfl
  outside _ _ := rfl
  around _ _ _ _ := rfl
  kept _ h := h
  added _ h := .inl h
  written _ _ h := absurd rfl h

theorem mono (h : ChangedOnly f ts ds s s') (hts : ts ⊆ ts') (hds : ds ⊆ ds') :
    ChangedOnly f ts' ds' s s' where
  size_eq := h.size_eq
  parents := h.parents
  outside := h.outside
  around := h.around
  kept := h.kept
  added n hn := (h.added n hn).imp_right (@hds n)
  written g n hne := (h.written g n hne).imp (@hts n) (And.imp_right (@hds n))

theorem chain_eq (h : ChangedOnly f ts ds s s') (g : Nat) : s'.chain g = s.chain g :=
  Frames.chain_congr fun k _ => h.parents k

theorem trans (h : ChangedOnly f ts ds s s') (h' : ChangedOnly f ts ds s' s'') :
    ChangedOnly f ts ds s s'' where
  size_eq := h'.size_eq.trans h.size_eq
  parents g := (h'.parents g).trans (h.parents g)
  outside g hg := by
    have hg' : g ∉ s'.chain f := by rwa [h.chain_eq]
    rw [h'.outside g hg', h.outside g hg]
  around g hg hne n := by
    have hg' : g ∈ s'.chain f := by rwa [h.chain_eq]
    rw [h'.around g hg' hne, h.around g hg hne]
  kept n hn := h'.kept n (h.kept n hn)
  added n hn := by
    rcases h'.added n hn with hn' | hn'
    · exact h.added n hn'
    · exact .inr hn'
  written g n hne := by
    -- a value that is different in the end was changed in one of the two parts
    by_cases hmid : s'.lookup? g n = s.lookup? g n
    · exact h'.written g n (by rwa [hmid])
    · exact h.written g n hmid

/-- An assignment changes what one name is bound to in one frame of the chain. -/
theorem of_assign? {v : Value} (h : s.assign? f n v = some s') : ChangedOnly f [n] [] s s' := by
  obtain ⟨g, hg, rfl⟩ := Option.map_eq_some_iff.1 h
  have hmem := s.mem_chain_of_resolve? hg
  have hbound := s.lookup?_isSome_of_resolve? hg
  have hlookup := s.lookup?_define (s.lt_size_of_lookup? hbound) n v
  -- the name is bound there already
  have hbinds : ∀ k m, ((s.define g n v).lookup? k m).isSome = (s.lookup? k m).isSome := by
    intro k m
    rw [hlookup]
    split
    · next hkm =>
      obtain ⟨rfl, rfl⟩ := hkm
      exact hbound.symm
    · rfl
  refine ⟨s.size_define g n v, s.map_parent_define g n v, fun k hk => ?_, fun k _ _ m => hbinds k m,
    fun m hm => by rwa [hbinds], fun m hm => .inl (by rwa [hbinds] at hm), fun k m hne => .inl ?_⟩
  · have hne : k ≠ g := fun hkg => hk (hkg ▸ hmem)
    exact s.getElem?_define_of_ne hne n v
  · rw [hlookup] at hne
    split at hne
    · next hkm => exact List.mem_singleton.2 hkm.2
    · exact absurd rfl hne

/-- A declaration adds its name to the frame, or changes what it is bound to there. -/
theorem define (f : Nat) (n : String) (v : Value) : ChangedOnly f [] [n] s (s.define f n v) := by
  by_cases hf : f < s.size
  · have hlookup := s.lookup?_define hf n v
    refine ⟨s.size_define f n v, s.map_parent_define f n v, fun k hk => ?_, fun k _ hne m => ?_,
      fun m hm => ?_, fun m hm => ?_, fun k m hne => .inr ?_⟩
    · have hne : k ≠ f := by
        rintro rfl
        exact hk (s.self_mem_chain hf)
      exact s.getElem?_define_of_ne hne n v
    · rw [hlookup, if_neg fun hkm => hne hkm.1]
    · rw [hlookup]
      split
      · rfl
      · exact hm
    · rw [hlookup] at hm
      split at hm
      · next hkm => exact .inr (List.mem_singleton.2 hkm.2)
      · exact .inl hm
    · rw [hlookup] at hne
      split at hne
      · next hkm => exact ⟨hkm.1, List.mem_singleton.2 hkm.2⟩
      · exact absurd rfl hne
  · rw [s.define_of_size_le (Nat.le_of_not_lt hf)]
    exact refl f [] [n] s

/-- What was done in a block that is left again leaves no names behind. -/
theorem leave (h : ChangedOnly s.size ts ds (s.enclose f) s') : ChangedOnly f ts [] s s'.drop := by
  have hsize : s'.frames.size = s.size + 1 := h.size_eq.trans (s.size_enclose f)
  -- the frame of the block is the newest one, before and after
  have hbefore : ∀ k : Nat, s.frames[k]? = if k < s.size then (s.enclose f).frames[k]? else none := by
    intro k
    rw [enclose, push, size, Array.getElem?_push]
    split
    · next hk => rw [if_neg (Nat.ne_of_lt hk)]
    · next hk => exact Array.getElem?_eq_none (Nat.le_of_not_lt hk)
  have hafter : ∀ k : Nat, s'.drop.frames[k]? = if k < s.size then s'.frames[k]? else none := by
    intro k
    rw [drop, Array.getElem?_pop, hsize, Nat.add_sub_cancel]
  have hlookup : ∀ k m, s.lookup? k m = (if k < s.size then (s.enclose f).lookup? k m else none)
      ∧ s'.drop.lookup? k m = if k < s.size then s'.lookup? k m else none := by
    intro k m
    rw [lookup?, lookup?, lookup?, lookup?, hbefore, hafter]
    split <;> exact ⟨rfl, rfl⟩
  have hbinds : ∀ k ∈ s.chain f, ∀ m, (s'.drop.lookup? k m).isSome = (s.lookup? k m).isSome := by
    intro k hmem m
    rw [(hlookup k m).1, (hlookup k m).2]
    split
    · next hk =>
      have hchain : k ∈ (s.enclose f).chain s.size := by
        rw [chain_enclose]
        exact List.mem_cons_of_mem _ hmem
      exact h.around k hchain (Nat.ne_of_lt hk) m
    · rfl
  refine ⟨?_, fun k => ?_, fun k hmem => ?_, fun k hk _ m => hbinds k hk m, fun m hm => ?_,
    fun m hm => .inl ?_, fun k m hne => .inl ?_⟩
  · have hdropped : s'.drop.size = s'.frames.size - 1 := s'.size_drop
    omega
  · rw [hbefore, hafter]
    split
    · exact h.parents k
    · rfl
  · rw [hbefore, hafter]
    split
    · next hk =>
      have hchain : k ∉ (s.enclose f).chain s.size := by
        rw [chain_enclose, List.mem_cons, not_or]
        exact ⟨Nat.ne_of_lt hk, hmem⟩
      exact h.outside k hchain
    · rfl
  · rwa [hbinds f (s.self_mem_chain (s.lt_size_of_lookup? hm))]
  · have hf : f < s.size := by
      rw [(hlookup f m).2] at hm
      split at hm
      · assumption
      · cases hm
    rwa [hbinds f (s.self_mem_chain hf)] at hm
  · rw [(hlookup k m).1, (hlookup k m).2] at hne
    split at hne
    · next hk =>
      rcases h.written k m hne with ht | ⟨hnew, -⟩
      · exact ht
      · exact absurd hnew (Nat.ne_of_lt hk)
    · exact absurd rfl hne

end ChangedOnly

end Store

end Lox
