import Lox.Value

/-!
# Lox — the store of scopes

Variables live in frames. A frame binds names and may have a parent, an older frame in which
the names that it does not bind are looked up. A store holds all frames; each is known by its
number, which counts the frames older than it, so the frame without older ones is number 0.

* **`Store.chain`** — the frames in which a name is looked up from a given frame, in order.
* **`Store.resolve?`** — the first of them that binds the name
  (`Frames.resolve?_eq_find?_chain`).
* **`Store.get?`**, **`Store.assign?`**, **`Store.define`** — reading, writing and declaring.
* **`Store.enclose`**, **`Store.drop`** — entering and leaving a block.
-/

namespace Lox

/-! ## Frames -/

/-- One scope: the values of its names, and the scope around it. -/
structure Frame where
  bindings : List (String × Value)
  parent : Option Nat
deriving DecidableEq

namespace Frame

/-- The value of a name in this frame. -/
def lookup? (f : Frame) (name : String) : Option Value := f.bindings.lookup name

/-- The bindings with `name` bound to `value`, in the place where it was bound before. -/
def bindIn (name : String) (value : Value) : List (String × Value) → List (String × Value)
  | [] => [(name, value)]
  | (n, v) :: rest => if n = name then (n, value) :: rest else (n, v) :: bindIn name value rest

/-- The frame with `name` bound to `value`. -/
def bind (f : Frame) (name : String) (value : Value) : Frame :=
  { f with bindings := bindIn name value f.bindings }

/-- Binding a name changes what that name is bound to and nothing else. -/
theorem lookup_bindIn (name m : String) (value : Value) (bs : List (String × Value)) :
    (bindIn name value bs).lookup m = if m = name then some value else bs.lookup m := by
  induction bs with
  | nil =>
    by_cases h : m = name
    · simp [bindIn, h]
    · have hb : (m == name) = false := beq_false_of_ne h
      simp [bindIn, List.lookup_cons, h, hb]
  | cons b rest ih =>
    obtain ⟨n, v⟩ := b
    unfold bindIn
    by_cases hm : m = n
    · subst hm
      by_cases hn : m = name <;> simp [hn]
    · have hb : (m == n) = false := beq_false_of_ne hm
      by_cases hn : n = name
      · subst hn
        simp [List.lookup_cons, hm, hb]
      · simp [List.lookup_cons, hn, hb, ih]

theorem lookup?_bind (f : Frame) (name m : String) (value : Value) :
    (f.bind name value).lookup? m = if m = name then some value else f.lookup? m :=
  lookup_bindIn name m value f.bindings

theorem parent_bind (f : Frame) (name : String) (value : Value) :
    (f.bind name value).parent = f.parent := rfl

end Frame

/-! ## Numbered frames

Oldest frame first, so a frame stands at its number. -/

namespace Frames

/-- The parent of the frame `id`. Only an older frame can be one, so every way from frame to
parent ends. -/
def parent? (frames : Array Frame) (id : Nat) : Option { p : Nat // p < id } :=
  match frames[id]?.bind (·.parent) with
  | some p => if h : p < id then some ⟨p, h⟩ else none
  | none => none

/-- The frames reached from the frame `id` by going from each to its parent, itself first. -/
def chain (frames : Array Frame) (id : Nat) : List Nat :=
  if id < frames.size then
    id :: match parent? frames id with
      | some ⟨p, _⟩ => chain frames p
      | none => []
  else
    []
termination_by id

/-- Whether the frame `id` itself binds `name`. -/
def binds (frames : Array Frame) (name : String) (id : Nat) : Bool :=
  (frames[id]?.bind (·.lookup? name)).isSome

/-- The nearest frame, seen from the frame `id`, that binds `name`. -/
def resolve? (frames : Array Frame) (name : String) (id : Nat) : Option Nat :=
  if binds frames name id then
    some id
  else
    match parent? frames id with
    | some ⟨p, _⟩ => resolve? frames name p
    | none => none
termination_by id

/-- The frames with `name` bound to `value` in the frame `id`. -/
def bindAt (id : Nat) (name : String) (value : Value) (frames : Array Frame) : Array Frame :=
  frames.modify id (·.bind name value)

theorem parent?_eq_none_of_size_le {frames : Array Frame} {id : Nat} (h : frames.size ≤ id) :
    parent? frames id = none := by
  simp [parent?, Array.getElem?_eq_none h]

theorem binds_eq_false_of_size_le {frames : Array Frame} {id : Nat} (name : String)
    (h : frames.size ≤ id) : binds frames name id = false := by
  simp [binds, Array.getElem?_eq_none h]

/-- A name is looked up along the chain, and the first frame that binds it is the answer. -/
theorem resolve?_eq_find?_chain (frames : Array Frame) (name : String) (id : Nat) :
    resolve? frames name id = (chain frames id).find? (binds frames name) := by
  induction id using Nat.strongRecOn with
  | ind id ih =>
    rw [resolve?, chain]
    by_cases hid : id < frames.size
    · rw [if_pos hid, List.find?_cons]
      cases hb : binds frames name id with
      | true => simp
      | false =>
        cases parent? frames id with
        | none => simp
        | some p => simpa using ih p.1 p.2
    · have hle : frames.size ≤ id := Nat.le_of_not_lt hid
      simp [hid, binds_eq_false_of_size_le name hle, parent?_eq_none_of_size_le hle]

theorem size_bindAt (id : Nat) (name : String) (value : Value) (frames : Array Frame) :
    (bindAt id name value frames).size = frames.size :=
  Array.size_modify

theorem getElem?_bindAt (id g : Nat) (name : String) (value : Value) (frames : Array Frame) :
    (bindAt id name value frames)[g]?
      = if g = id then frames[g]?.map (·.bind name value) else frames[g]? := by
  simp [bindAt, Array.getElem?_modify, eq_comm]

theorem parent?_bindAt (id g : Nat) (name : String) (value : Value) (frames : Array Frame) :
    parent? (bindAt id name value frames) g = parent? frames g := by
  have h : (bindAt id name value frames)[g]?.bind (·.parent) = frames[g]?.bind (·.parent) := by
    rw [getElem?_bindAt]
    split
    · cases frames[g]? <;> simp [Frame.parent_bind]
    · rfl
  unfold parent?
  rw [h]

/-- Binding a name leaves every way from frame to parent as it is. -/
theorem chain_bindAt (id g : Nat) (name : String) (value : Value) (frames : Array Frame) :
    chain (bindAt id name value frames) g = chain frames g := by
  induction g using Nat.strongRecOn with
  | ind g ih =>
    rw [chain, chain, size_bindAt, parent?_bindAt]
    cases parent? frames g with
    | none => rfl
    | some p => simp [ih p.1 p.2]

end Frames

/-! ## The store -/

/-- All frames, oldest first. -/
structure Store where
  frames : Array Frame
deriving DecidableEq

namespace Store

/-- A single frame without names, number 0. -/
def initial : Store := ⟨#[⟨[], none⟩]⟩

/-- How many frames there are; the next frame gets this number. -/
def size (s : Store) : Nat := s.frames.size

/-- The frames in which names are looked up from the frame `id`, nearest first. -/
def chain (s : Store) (id : Nat) : List Nat := Frames.chain s.frames id

/-- The nearest frame, seen from the frame `id`, that binds `name`. -/
def resolve? (s : Store) (id : Nat) (name : String) : Option Nat :=
  Frames.resolve? s.frames name id

/-- The value of `name` in the frame `id` itself. -/
def lookup? (s : Store) (id : Nat) (name : String) : Option Value :=
  s.frames[id]?.bind (·.lookup? name)

/-- The value of `name` seen from the frame `id`. -/
def get? (s : Store) (id : Nat) (name : String) : Option Value :=
  (s.resolve? id name).bind fun g => s.lookup? g name

/-- Binds `name` in the frame `id` itself. -/
def define (s : Store) (id : Nat) (name : String) (value : Value) : Store :=
  ⟨Frames.bindAt id name value s.frames⟩

/-- Gives `name` a new value in the nearest frame that binds it, if there is one. -/
def assign? (s : Store) (id : Nat) (name : String) (value : Value) : Option Store :=
  (s.resolve? id name).map fun g => s.define g name value

/-- The store with one more frame, which gets the number `size`. -/
def push (s : Store) (parent : Option Nat) : Store := ⟨s.frames.push ⟨[], parent⟩⟩

/-- The store with a new frame inside the frame `id`. -/
def enclose (s : Store) (id : Nat) : Store := s.push (some id)

/-- The store without its newest frame. -/
def drop (s : Store) : Store := ⟨s.frames.pop⟩

end Store

end Lox
