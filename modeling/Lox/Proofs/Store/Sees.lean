import Lox.Proofs.Store.Access

/-!
# Lox — stores in which the same names are seen

Two frames, possibly of different stores, see the same names with the same values. This alone
does not survive a block, for the block may have declared a name that hides another one: so the
frames of the blocks that were entered are compared one by one, and only what is further out is
compared by what is seen there.

* **`Store.Sees`** — the comparison, given the pairs of frames around the blocks that were entered.
* **`Store.Sees.get?_eq`** — in any case the same names are seen.
* **`Store.Sees.define`**, **`Store.Sees.assign`**, **`Store.Sees.enclose`**, **`Store.Sees.drop`** —
  it is kept by all that execution does to a store.
-/

namespace Lox

namespace Store

/-- The frames `f₁` and `f₂` see the same. They are inside as many blocks as the list has entries,
each entry being the frames around one of the blocks, innermost first. -/
inductive Sees (s₁ s₂ : Store) : List (Nat × Nat) → Nat → Nat → Prop
  | outside {f₁ f₂ : Nat} (h₁ : f₁ < s₁.size) (h₂ : f₂ < s₂.size)
      (hget : ∀ n, s₁.get? f₁ n = s₂.get? f₂ n) : Sees s₁ s₂ [] f₁ f₂
  | inside {p₁ p₂ f₁ f₂ : Nat} {ps : List (Nat × Nat)} (h₁ : f₁ < s₁.size) (h₂ : f₂ < s₂.size)
      (hown : ∀ n, s₁.lookup? f₁ n = s₂.lookup? f₂ n) (hp₁ : s₁.parent? f₁ = some p₁)
      (hp₂ : s₂.parent? f₂ = some p₂) (hout : Sees s₁ s₂ ps p₁ p₂) :
      Sees s₁ s₂ ((p₁, p₂) :: ps) f₁ f₂

namespace Sees

variable {s₁ s₂ s₁' s₂' : Store} {ps : List (Nat × Nat)} {f₁ f₂ p₁ p₂ : Nat}

theorem lt_size₁ (h : Sees s₁ s₂ ps f₁ f₂) : f₁ < s₁.size := by
  cases h with
  | outside h₁ => exact h₁
  | inside h₁ => exact h₁

theorem lt_size₂ (h : Sees s₁ s₂ ps f₁ f₂) : f₂ < s₂.size := by
  cases h with
  | outside _ h₂ => exact h₂
  | inside _ h₂ => exact h₂

/-- The same names are seen. -/
theorem get?_eq (h : Sees s₁ s₂ ps f₁ f₂) (n : String) : s₁.get? f₁ n = s₂.get? f₂ n := by
  induction h with
  | outside h₁ h₂ hget => exact hget n
  | inside h₁ h₂ hown hp₁ hp₂ hout ih =>
    rw [s₁.get?_eq, s₂.get?_eq, hown, hp₁, hp₂, Option.bind_some, Option.bind_some, ih]

/-- Newer frames do not matter. -/
theorem congr (h : Sees s₁ s₂ ps f₁ f₂) (hs₁ : SameUpTo f₁ s₁ s₁') (hs₂ : SameUpTo f₂ s₂ s₂') :
    Sees s₁' s₂' ps f₁ f₂ := by
  induction h with
  | outside h₁ h₂ hget =>
    refine .outside (hs₁.lt_size_iff.2 h₁) (hs₂.lt_size_iff.2 h₂) fun n => ?_
    rw [hs₁.get?_eq, hs₂.get?_eq, hget]
  | inside h₁ h₂ hown hp₁ hp₂ hout ih =>
    have hlt₁ := s₁.parent?_lt hp₁
    have hlt₂ := s₂.parent?_lt hp₂
    refine .inside (hs₁.lt_size_iff.2 h₁) (hs₂.lt_size_iff.2 h₂) (fun n => ?_)
      (hs₁.parent?_eq.trans hp₁) (hs₂.parent?_eq.trans hp₂)
      (ih (hs₁.mono (Nat.le_of_lt hlt₁)) (hs₂.mono (Nat.le_of_lt hlt₂)))
    rw [hs₁.lookup?_eq, hs₂.lookup?_eq, hown]

/-- Both frames declare the name. -/
theorem define (h : Sees s₁ s₂ ps f₁ f₂) (n : String) (v : Value) :
    Sees (s₁.define f₁ n v) (s₂.define f₂ n v) ps f₁ f₂ := by
  cases h with
  | outside h₁ h₂ hget =>
    refine .outside (by rwa [size_define]) (by rwa [size_define]) fun m => ?_
    rw [get?_define s₁ h₁, get?_define s₂ h₂, hget]
  | inside h₁ h₂ hown hp₁ hp₂ hout =>
    refine .inside (by rwa [size_define]) (by rwa [size_define]) (fun m => ?_)
      (by rwa [parent?_define]) (by rwa [parent?_define])
      (hout.congr (s₁.sameUpTo_define (s₁.parent?_lt hp₁) n v)
        (s₂.sameUpTo_define (s₂.parent?_lt hp₂) n v))
    rw [lookup?_define s₁ h₁, lookup?_define s₂ h₂, hown]
    simp

/-- Both frames find the name and give it the value, or neither finds it. -/
theorem assign (h : Sees s₁ s₂ ps f₁ f₂) (n : String) (v : Value) :
    (s₁.assign? f₁ n v = none ∧ s₂.assign? f₂ n v = none)
    ∨ ∃ s₁' s₂', s₁.assign? f₁ n v = some s₁' ∧ s₂.assign? f₂ n v = some s₂'
      ∧ s₁'.size = s₁.size ∧ s₂'.size = s₂.size ∧ Sees s₁' s₂' ps f₁ f₂ := by
  induction h with
  | outside h₁ h₂ hget =>
    cases hassign₁ : s₁.assign? _ n v with
    | none =>
      refine .inl ⟨rfl, ?_⟩
      rw [assign?_eq_none_iff, ← hget]
      exact s₁.assign?_eq_none_iff.1 hassign₁
    | some s₁' =>
      cases hassign₂ : s₂.assign? _ n v with
      | none =>
        have hnone := s₂.assign?_eq_none_iff.1 hassign₂
        rw [← hget, ← s₁.assign?_eq_none_iff (v := v), hassign₁] at hnone
        cases hnone
      | some s₂' =>
        have hsize₁ := s₁.size_of_assign? hassign₁
        have hsize₂ := s₂.size_of_assign? hassign₂
        refine .inr ⟨s₁', s₂', rfl, rfl, hsize₁, hsize₂,
          .outside (by rwa [hsize₁]) (by rwa [hsize₂]) fun m => ?_⟩
        rw [s₁.get?_of_assign?_eq_some hassign₁, s₂.get?_of_assign?_eq_some hassign₂, hget]
  | @inside p₁ p₂ f₁ f₂ ps h₁ h₂ hown hp₁ hp₂ hout ih =>
    rw [s₁.assign?_eq f₁, s₂.assign?_eq f₂, ← hown]
    by_cases hbound : (s₁.lookup? f₁ n).isSome = true
    · -- the block's own frame binds the name
      rw [if_pos hbound, if_pos hbound]
      exact .inr ⟨_, _, rfl, rfl, s₁.size_define f₁ n v, s₂.size_define f₂ n v,
        (Sees.inside h₁ h₂ hown hp₁ hp₂ hout).define n v⟩
    · rw [if_neg hbound, if_neg hbound, hp₁, hp₂, Option.bind_some, Option.bind_some]
      rcases ih with hnone | ⟨s₁', s₂', hassign₁, hassign₂, hsize₁, hsize₂, hsees⟩
      · exact .inl hnone
      · -- a frame further out binds it, so the block's own frame stays as it is
        obtain ⟨g₁, hg₁, hlt₁, rfl⟩ := s₁.exists_define_of_assign? hassign₁
        obtain ⟨g₂, hg₂, hlt₂, rfl⟩ := s₂.exists_define_of_assign? hassign₂
        have hne₁ : f₁ ≠ g₁ := by
          have hlt := s₁.parent?_lt hp₁
          omega
        have hne₂ : f₂ ≠ g₂ := by
          have hlt := s₂.parent?_lt hp₂
          omega
        refine .inr ⟨_, _, hassign₁, hassign₂, hsize₁, hsize₂,
          .inside (by rwa [hsize₁]) (by rwa [hsize₂]) (fun m => ?_) (by rwa [parent?_define])
            (by rwa [parent?_define]) hsees⟩
        rw [lookup?_define s₁ hlt₁, lookup?_define s₂ hlt₂, if_neg fun h => hne₁ h.1,
          if_neg fun h => hne₂ h.1, hown]

/-- Both frames enter a block. -/
theorem enclose (h : Sees s₁ s₂ ps f₁ f₂) :
    Sees (s₁.enclose f₁) (s₂.enclose f₂) ((f₁, f₂) :: ps) s₁.size s₂.size := by
  have hsize₁ : s₁.size < (s₁.enclose f₁).size := by rw [size_enclose]; omega
  have hsize₂ : s₂.size < (s₂.enclose f₂).size := by rw [size_enclose]; omega
  refine .inside hsize₁ hsize₂ (fun n => ?_) (s₁.parent?_enclose h.lt_size₁)
    (s₂.parent?_enclose h.lt_size₂)
    (h.congr (s₁.sameUpTo_enclose h.lt_size₁ f₁) (s₂.sameUpTo_enclose h.lt_size₂ f₂))
  rw [lookup?_enclose, lookup?_enclose]

/-- Both leave the block that they entered last. -/
theorem drop (h : Sees s₁ s₂ ((p₁, p₂) :: ps) f₁ f₂) (h₁ : s₁.size = f₁ + 1)
    (h₂ : s₂.size = f₂ + 1) : Sees s₁.drop s₂.drop ps p₁ p₂ := by
  cases h with
  | inside _ _ hown hp₁ hp₂ hout =>
    have hlt₁ := s₁.parent?_lt hp₁
    have hlt₂ := s₂.parent?_lt hp₂
    exact hout.congr (s₁.sameUpTo_drop (by omega)) (s₂.sameUpTo_drop (by omega))

end Sees

end Store

end Lox
