/-!
# The console

Output goes to a channel that may be able to take so many bytes and no more; what is told of errors
is always taken.
-/

namespace LoxLexer

/-- A channel, by the number of bytes it still takes, if there is a limit, and the bytes it has
taken. -/
structure Channel where
  room : Option Nat
  taken : ByteArray

namespace Channel

def withRoom (room : Option Nat) : Channel := ⟨room, .empty⟩

/-- As much of the text is taken as there is room for. The answer is whether that is all of it. -/
def write (ch : Channel) (text : String) : Channel × Bool :=
  let bytes := text.toUTF8
  match ch.room with
  | none => (⟨none, ch.taken ++ bytes⟩, true)
  | some room => (⟨some (room - bytes.size), ch.taken ++ bytes.extract 0 room⟩, bytes.size ≤ room)

end Channel

structure Console where
  output : Channel
  errors : String

namespace Console

def withRoom (room : Option Nat) : Console := ⟨.withRoom room, ""⟩

def print (c : Console) (text : String) : Console × Bool :=
  let (output, fits) := c.output.write text
  ({ c with output := output }, fits)

def tell (c : Console) (text : String) : Console := { c with errors := c.errors ++ text }

end Console

end LoxLexer
