import Lox.Store

/-!
# Lox — access to the store

What is read from a store after it was written to. A frame is reached through its own bindings
and then through its parent, so every access has an equation with these two cases, and facts
about whole chains are proved by induction on the number of the frame.

* **`Store.get?_eq`**, **`Store.assign?_eq`** — reading and writing, frame by frame.
* **`Store.SameUpTo`** — stores that do not differ in the older frames, and thus not in what is
  seen from them.
* **`Store.get?_define`**, **`Store.get?_of_assign?_eq_some`** — reading what was written.
-/

namespace Lox

namespace Store

variable (s : Store) {id g : Nat} {n : String}

/-- The number of the frame in which a frame looks further. -/
def parent? (s : Store) (id : Nat) : Option Nat := (Frames.parent? s.frames id).map (·.1)

theorem parent?_lt {p : Nat} (h : s.parent? id = some p) : p < id := by
  obtain ⟨q, -, rfl⟩ := Option.map_eq_some_iff.1 h
  exact q.2

theorem lt_size_of_lookup? (h : (s.lookup? id n).isSome = true) : id < s.size := by
  refine Nat.lt_of_not_le fun hle => ?_
  rw [lookup?, Array.getElem?_eq_none hle] at h
  cases h

/-! ## Frame by frame -/

theorem resolve?_eq (id : Nat) (n : String) :
    s.resolve? id n
      = if (s.lookup? id n).isSome then some id else (s.parent? id).bind (s.resolve? · n) := by
  rw [resolve?, Frames.resolve?, parent?]
  have hbinds : Frames.binds s.frames n id = (s.lookup? id n).isSome := rfl
  rw [hbinds]
  cases Frames.parent? s.frames id <;> rfl

/-- A name is looked up in the frame itself, and if it is not bound there, in the parent. -/
theorem get?_eq (id : Nat) (n : String) :
    s.get? id n = (s.lookup? id n).or ((s.parent? id).bind (s.get? · n)) := by
  rw [get?, resolve?_eq]
  cases hl : s.lookup? id n with
  | some v => exact hl
  | none => cases s.parent? id <;> rfl

/-- A name is given a value in the frame itself, and if it is not bound there, in the parent. -/
theorem assign?_eq (id : Nat) (n : String) (v : Value) :
    s.assign? id n v
      = if (s.lookup? id n).isSome then some (s.define id n v)
        else (s.parent? id).bind (s.assign? · n v) := by
  rw [assign?, resolve?_eq]
  cases hl : s.lookup? id n with
  | some v => rfl
  | none => cases s.parent? id <;> rfl

/-! ## Older frames -/

/-- The frames up to the frame `id` are the same in both stores. -/
def SameUpTo (id : Nat) (s s' : Store) : Prop := ∀ g ≤ id, s'.frames[g]? = s.frames[g]?

namespace SameUpTo

variable {s s' : Store} (h : SameUpTo id s s')

include h

theorem mono (hg : g ≤ id) : SameUpTo g s s' := fun k hk => h k (Nat.le_trans hk hg)

theorem lookup?_eq (n : String) : s'.lookup? id n = s.lookup? id n := by
  rw [lookup?, lookup?, h id (Nat.le_refl id)]

theorem parent?_eq : s'.parent? id = s.parent? id := by
  rw [parent?, parent?, Frames.parent?, Frames.parent?, h id (Nat.le_refl id)]

theorem lt_size_iff : id < s'.size ↔ id < s.size := by
  have hid := h id (Nat.le_refl id)
  constructor <;> intro hlt <;> refine Nat.lt_of_not_le fun hle => ?_
  · rw [Array.getElem?_eq_getElem hlt, Array.getElem?_eq_none hle] at hid
    cases hid
  · rw [Array.getElem?_eq_getElem hlt, Array.getElem?_eq_none hle] at hid
    cases hid

/-- What is seen from a frame is in the frames up to it. -/
theorem get?_eq (n : String) : s'.get? id n = s.get? id n := by
  induction id using Nat.strongRecOn with
  | ind id ih =>
    rw [Store.get?_eq, Store.get?_eq, h.lookup?_eq, h.parent?_eq]
    cases hp : s.parent? id with
    | none => rfl
    | some p =>
      -- parents are older than their frames
      have hlt : p < id := s.parent?_lt hp
      rw [Option.bind_some, Option.bind_some, ih p hlt (h.mono (Nat.le_of_lt hlt))]

end SameUpTo

/-! ## Declaring -/

@[simp] theorem size_define (g : Nat) (n : String) (v : Value) :
    (s.define g n v).size = s.size :=
  Frames.size_bindAt g n v s.frames

@[simp] theorem parent?_define (g : Nat) (n : String) (v : Value) (id : Nat) :
    (s.define g n v).parent? id = s.parent? id := by
  rw [parent?, parent?, define, Frames.parent?_bindAt]

/-- A declaration binds one name in one frame. -/
theorem lookup?_define (hg : g < s.size) (n : String) (v : Value) (id : Nat) (m : String) :
    (s.define g n v).lookup? id m = if id = g ∧ m = n then some v else s.lookup? id m := by
  rw [lookup?, lookup?, define, Frames.getElem?_bindAt]
  by_cases hid : id = g
  · subst hid
    have hget : s.frames[id]? = some s.frames[id] := Array.getElem?_eq_getElem hg
    simp [hget, Frame.lookup?_bind]
  · simp [hid]

theorem sameUpTo_define (h : id < g) (n : String) (v : Value) :
    SameUpTo id s (s.define g n v) := by
  intro k hk
  have hne : k ≠ g := by omega
  rw [define, Frames.getElem?_bindAt, if_neg hne]

/-- A frame sees what is declared in it. -/
theorem get?_define (hid : id < s.size) (n : String) (v : Value) (m : String) :
    (s.define id n v).get? id m = if m = n then some v else s.get? id m := by
  rw [get?_eq, get?_eq, lookup?_define s hid, parent?_define]
  by_cases hm : m = n
  · rw [if_pos ⟨rfl, hm⟩, if_pos hm]
    rfl
  · rw [if_neg fun h => hm h.2, if_neg hm]
    cases hp : s.parent? id with
    | none => rfl
    | some p =>
      -- the frames further out are older, so the declaration does not reach them
      have hsame := s.sameUpTo_define (s.parent?_lt hp) n v
      rw [Option.bind_some, Option.bind_some, hsame.get?_eq]

/-! ## Assigning -/

/-- An assignment is a declaration in one of the frames that are looked at. -/
theorem exists_define_of_assign? {v : Value} {s' : Store} (h : s.assign? id n v = some s') :
    ∃ g ≤ id, g < s.size ∧ s' = s.define g n v := by
  induction id using Nat.strongRecOn with
  | ind id ih =>
    rw [assign?_eq] at h
    split at h
    · next hl => exact ⟨id, Nat.le_refl id, s.lt_size_of_lookup? hl, (Option.some.inj h).symm⟩
    · obtain ⟨p, hp, hassign⟩ := Option.bind_eq_some_iff.1 h
      have hlt : p < id := s.parent?_lt hp
      obtain ⟨g, hg, hsize, rfl⟩ := ih p hlt hassign
      exact ⟨g, by omega, hsize, rfl⟩

theorem size_of_assign? {v : Value} {s' : Store} (h : s.assign? id n v = some s') :
    s'.size = s.size := by
  obtain ⟨g, -, -, rfl⟩ := s.exists_define_of_assign? h
  exact s.size_define g n v

/-- Only a name that is seen can be given a value. -/
theorem assign?_eq_none_iff {v : Value} : s.assign? id n v = none ↔ s.get? id n = none := by
  induction id using Nat.strongRecOn with
  | ind id ih =>
    rw [assign?_eq, get?_eq]
    cases hl : s.lookup? id n with
    | some w => simp
    | none =>
      cases hp : s.parent? id with
      | none => simp
      | some p => simpa using ih p (s.parent?_lt hp)

/-- A frame sees what is assigned from it. -/
theorem get?_of_assign?_eq_some {v : Value} {s' : Store} (h : s.assign? id n v = some s')
    (m : String) : s'.get? id m = if m = n then some v else s.get? id m := by
  induction id using Nat.strongRecOn with
  | ind id ih =>
    rw [assign?_eq] at h
    split at h
    · next hl =>
      cases h
      exact s.get?_define (s.lt_size_of_lookup? hl) n v m
    · next hl =>
      obtain ⟨p, hp, hassign⟩ := Option.bind_eq_some_iff.1 h
      have hlt : p < id := s.parent?_lt hp
      have hsee := ih p hlt hassign
      -- the frame itself stays as it is, since the name is bound further out
      obtain ⟨g, hg, hsize, rfl⟩ := s.exists_define_of_assign? hassign
      have hne : id ≠ g := by omega
      rw [get?_eq, get?_eq, lookup?_define s hsize, parent?_define, hp, Option.bind_some,
        Option.bind_some, hsee, if_neg fun h => hne h.1]
      by_cases hm : m = n
      · subst hm
        rw [Option.not_isSome_iff_eq_none.1 hl, if_pos rfl, if_pos rfl, Option.none_or]
      · rw [if_neg hm, if_neg hm]

/-! ## Entering and leaving a block -/

theorem size_enclose (id : Nat) : (s.enclose id).size = s.size + 1 := Array.size_push _

theorem size_drop : s.drop.size = s.size - 1 := Array.size_pop

theorem sameUpTo_enclose (h : id < s.size) (g : Nat) : SameUpTo id s (s.enclose g) := by
  intro k hk
  have hne : k ≠ s.frames.size := by
    have hlt : k < s.size := by omega
    exact Nat.ne_of_lt hlt
  rw [enclose, push, Array.getElem?_push, if_neg hne]

theorem sameUpTo_drop (h : id + 1 < s.size) : SameUpTo id s s.drop := by
  intro k hk
  have hlt : k < s.frames.size - 1 := by
    have hsize : k + 1 < s.size := by omega
    exact Nat.lt_sub_of_add_lt hsize
  rw [drop, Array.getElem?_pop, if_pos hlt]

/-- A new frame binds nothing. -/
theorem lookup?_enclose (id : Nat) (n : String) : (s.enclose id).lookup? s.size n = none := by
  rw [lookup?, enclose, push, size, Array.getElem?_push, if_pos rfl]
  rfl

theorem parent?_enclose (h : id < s.size) : (s.enclose id).parent? s.size = some id := by
  have hframe : (s.enclose id).frames[s.size]? = some ⟨[], some id⟩ := by
    rw [enclose, push, size, Array.getElem?_push, if_pos rfl]
  rw [parent?, Frames.parent?, hframe]
  simp [h]

/-- From a new frame, the same is seen as from the frame around it. -/
theorem get?_enclose (h : id < s.size) (n : String) :
    (s.enclose id).get? s.size n = s.get? id n := by
  rw [get?_eq, lookup?_enclose, s.parent?_enclose h, Option.none_or, Option.bind_some,
    (s.sameUpTo_enclose h id).get?_eq]

end Store

end Lox
