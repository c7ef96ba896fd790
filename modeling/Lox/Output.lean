/-!
# Lox — output

Output goes to a sink, which keeps the bytes it was given. A sink may be limited: it then
takes a certain number of further bytes, and refuses the first byte beyond them.
-/

namespace Lox

/-- How many more bytes a sink takes, and its reason to refuse the next. -/
structure Sink.Limit where
  room : Nat
  reason : String
deriving DecidableEq

/-- Where output goes. -/
structure Sink where
  written : ByteArray
  limit : Option Sink.Limit

namespace Sink

/-- A sink that takes everything. -/
def unlimited : Sink := ⟨ByteArray.empty, none⟩

/-- A sink that takes `room` bytes. -/
def limited (room : Nat) (reason : String) : Sink := ⟨ByteArray.empty, some ⟨room, reason⟩⟩

/-- The sink with the bytes of a text added, as many as it takes, and its reason if that was
not all of them. -/
def write (s : Sink) (text : String) : Option String × Sink :=
  let bytes := text.toUTF8
  match s with
  | ⟨written, none⟩ => (none, ⟨written ++ bytes, none⟩)
  | ⟨written, some limit⟩ =>
    let taken := bytes.extract 0 limit.room
    (if bytes.size ≤ limit.room then none else some limit.reason,
      ⟨written ++ taken, some { limit with room := limit.room - taken.size }⟩)

end Sink

end Lox
