import LoxLexer.Text.Span

/-!
# Line maps

A line map holds the positions at which the lines of a text begin. It gives the line of a position
by bisection, and its column by the distance from the line's beginning, in bytes and counted from
1. Positions beyond the text belong to the last line.
-/

namespace LoxLexer

/-- A line and a byte column, both counted from 1. -/
structure Place where
  line : Nat
  column : Position
deriving DecidableEq

/-- The positions at which lines begin, in order. -/
structure LineMap where
  starts : Array Position
deriving DecidableEq

namespace LineMap

/-- The map so far, and the offset of the next character. -/
structure Builder where
  starts : Array Position
  offset : Nat

namespace Builder

def first : Builder := ⟨#[0], 0⟩

/-- A line begins after each line feed. -/
def push (b : Builder) (c : Char) : Builder :=
  let next := b.offset + c.utf8Size
  ⟨if c = '\n' then b.starts.push (.ofOffset next) else b.starts, next⟩

end Builder

def ofText (text : String) : LineMap :=
  ⟨(text.toList.foldl Builder.push Builder.first).starts⟩

/-- How many of the starts do not lie beyond `pos`, if those before `lo` do not and those from `hi`
on do. -/
def bisect (starts : Array Position) (pos : Position) (lo hi : Nat) : Nat :=
  if lo < hi then
    let mid := (lo + hi) / 2
    if starts[mid]?.any (· ≤ pos) then bisect starts pos (mid + 1) hi else bisect starts pos lo mid
  else lo
termination_by hi - lo

/-- The line of a position is the number of lines that begin at it or before it. -/
def lineOf (map : LineMap) (pos : Position) : Nat := bisect map.starts pos 0 map.starts.size

def lineStart (map : LineMap) (pos : Position) : Position :=
  (map.starts[map.lineOf pos - 1]?).getD 0

/-- The line of a position, if it can be represented. -/
def line (map : LineMap) (pos : Position) : Except Fault Nat :=
  if map.lineOf pos < 4294967296 then .ok (map.lineOf pos) else .error .overflow

/-- The line and the column of a position, if both can be represented. -/
def place (map : LineMap) (pos : Position) : Except Fault Place := do
  let line ← map.line pos
  let column ← Position.add (pos - map.lineStart pos) 1
  return ⟨line, column⟩

end LineMap

end LoxLexer
