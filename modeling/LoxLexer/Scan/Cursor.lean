import LoxLexer.Scan.Event

/-!
# Scanning byte by byte

A cursor goes over the bytes of a source, and no byte is read and no part of the source is taken
without a check. What a check refuses is a trap. One pass takes the next lexeme; passes go on until
no byte is left.
-/

namespace LoxLexer

/-- An access that is refused: a byte that is not there, a part of the source whose ends do not
stand in order and between characters, or a span. -/
inductive Trap
  | byte (offset : Nat)
  | part (start stop : Nat)
  | span (fault : Fault)
deriving DecidableEq

/-! ## Numbers -/

/-- The numeral that is spelled by digits, or by digits with a point among them. -/
def Numeral.ofText? (text : List Char) : Option Numeral :=
  let whole := text.takeWhile Char.isDigit
  if whole = [] then none
  else
    match text.dropWhile Char.isDigit with
    | [] => some ⟨whole, []⟩
    | '.' :: d :: ds => if (d :: ds).all Char.isDigit then some ⟨whole, d :: ds⟩ else none
    | _ => none

/-- What is no numeral has the value NaN. -/
def Binary64.ofText (text : String) : Binary64 :=
  ((Numeral.ofText? text.toList).map Numeral.value).getD ⟨0x7ff8000000000000⟩

/-! ## Cursors -/

/-- The offsets at which the lexeme begins and from which on nothing is read yet, and the line of
the latter. -/
structure Cursor where
  start : Nat
  current : Nat
  line : Nat
deriving DecidableEq

namespace Cursor

def first : Cursor := ⟨0, 0, 1⟩

section Access

variable (source : String)

/-- A byte is taken for the character that has its number. -/
def byte? (offset : Nat) : Option Char := source.toByteArray[offset]?.map Char.ofUInt8

def byte (offset : Nat) : Except Trap Char :=
  match byte? source offset with
  | some b => .ok b
  | none => .error (.byte offset)

def part (start stop : Nat) : Except Trap String :=
  if h : start ≤ stop ∧ String.Pos.Raw.IsValid source ⟨start⟩ ∧
      String.Pos.Raw.IsValid source ⟨stop⟩ then
    let front : source.Pos := ⟨⟨start⟩, h.2.1⟩
    let back : source.Pos := ⟨⟨stop⟩, h.2.2⟩
    .ok (String.extract front back)
  else .error (.part start stop)

theorem lt_of_byte?_eq_some {source : String} {offset : Nat} {b : Char}
    (h : byte? source offset = some b) : offset < source.utf8ByteSize := by
  obtain ⟨b, hb, rfl⟩ := Option.map_eq_some_iff.1 h
  obtain ⟨hlt, _⟩ := getElem?_eq_some_iff.1 hb
  exact hlt

/-- The offset behind the bytes that pass the test, from an offset on. -/
def runEnd (test : Char → Bool) (offset : Nat) : Nat :=
  match h : byte? source offset with
  | some b => if test b then runEnd test (offset + 1) else offset
  | none => offset
termination_by source.utf8ByteSize - offset
decreasing_by
  have hlt := lt_of_byte?_eq_some h
  omega

theorem le_runEnd (test : Char → Bool) (offset : Nat) : offset ≤ runEnd source test offset := by
  fun_induction runEnd source test offset with
  | case1 offset b _ _ ih => exact Nat.le_of_succ_le ih
  | case2 => exact Nat.le_refl _
  | case3 => exact Nat.le_refl _

theorem runEnd_of_passes {source : String} {test : Char → Bool} {offset : Nat} {b : Char}
    (hb : byte? source offset = some b) (h : test b = true) :
    runEnd source test offset = runEnd source test (offset + 1) := by
  rw [runEnd]
  split
  · rename_i hsome
    cases hb.symm.trans hsome
    exact if_pos h
  · rename_i hnone
    cases hb.symm.trans hnone

theorem runEnd_of_stops {source : String} {test : Char → Bool} {offset : Nat}
    (h : (byte? source offset).any test = false) : runEnd source test offset = offset := by
  rw [runEnd]
  split
  · rename_i hsome
    rw [hsome, Option.any_some] at h
    rw [h]
    rfl
  · rfl

/-- An offset of a byte, and not before the given one. -/
def Ahead (offset : Nat) : Type := { i : Nat // offset ≤ i ∧ i < source.utf8ByteSize }

/-- The first byte that passes the test, in the rest of the source. -/
def seek (test : Char → Bool) (offset : Nat) : Except Trap (Option (Ahead source offset)) := do
  let _ ← part source offset source.utf8ByteSize
  let i := runEnd source (fun b => !test b) offset
  return if h : i < source.utf8ByteSize then some ⟨i, le_runEnd source _ offset, h⟩ else none

end Access

section Lexemes

variable (source : String)

def lexeme (c : Cursor) : Except Trap String := part source c.start c.current

def span (c : Cursor) : Except Trap Span := (Span.ofOffsets c.start c.current).mapError .span

def token (kind : Kind) (literal : Literal) (c : Cursor) : Except Trap (Option Event × Cursor) := do
  let lexeme ← c.lexeme source
  let span ← c.span
  return (some (.token ⟨kind, lexeme, literal, c.line, span⟩), c)

/-- Behind the next byte, if it is the expected one. -/
def next? (expected : Char) (c : Cursor) : Option Cursor :=
  if byte? source c.current = some expected then some { c with current := c.current + 1 } else none

def operator (single double : Kind) (c : Cursor) : Except Trap (Option Event × Cursor) :=
  match c.next? source '=' with
  | some c => c.token source double .absent
  | none => c.token source single .absent

/-- A comment ends before the line feed. -/
def comment (c : Cursor) : Except Trap (Option Event × Cursor) := do
  match ← seek source (· == '\n') c.current with
  | some stop => return (none, { c with current := stop.val })
  | none => return (none, { c with current := source.utf8ByteSize })

/-- Behind the closing quote, or at the end of the source if there is none. The line feeds on the
way count. -/
def closing (c : Cursor) : Except Trap (Bool × Cursor) := do
  match ← seek source (fun b => b == '"' || b == '\n') c.current with
  | some stop =>
    if (← byte source stop.val) = '"' then return (true, { c with current := stop.val + 1 })
    else closing ⟨c.start, stop.val + 1, c.line + 1⟩
  | none => return (false, { c with current := source.utf8ByteSize })
termination_by source.utf8ByteSize - c.current
decreasing_by
  have hstop := stop.property
  omega

def string (c : Cursor) : Except Trap (Option Event × Cursor) := do
  let (closed, c) ← c.closing source
  if closed then
    let body ← part source (c.start + 1) (c.current - 1)
    c.token source .string (.text body)
  else
    let span ← c.span
    return (some (.error (.unterminatedString c.line span)), c)

def digits (c : Cursor) : Cursor := { c with current := runEnd source Char.isDigit c.current }

/-- The digits behind a point count only if there are any. -/
def fraction (c : Cursor) : Cursor :=
  if byte? source c.current = some '.' ∧ (byte? source (c.current + 1)).any Char.isDigit then
    digits source { c with current := c.current + 1 }
  else c

def number (c : Cursor) : Except Trap (Option Event × Cursor) := do
  let c := (c.digits source).fraction source
  let lexeme ← c.lexeme source
  c.token source .number (.number (.ofText lexeme))

def word (c : Cursor) : Except Trap (Option Event × Cursor) := do
  let c := { c with current := runEnd source isWordPart c.current }
  let lexeme ← c.lexeme source
  c.token source (.ofWord lexeme) .absent

/-- The character at the beginning of the lexeme is passed over whole. -/
def stray (c : Cursor) : Except Trap (Option Event × Cursor) := do
  let rest ← part source c.start source.utf8ByteSize
  let character := rest.toList.headD '\ufffd'
  let c := { c with current := c.start + character.utf8Size }
  let span ← c.span
  return (some (.error (.unexpectedCharacter c.line character span)), c)

/-- The lexeme that begins with the byte, which has been read already. -/
def dispatch (b : Char) (c : Cursor) : Except Trap (Option Event × Cursor) :=
  match b with
  | '!' => c.operator source .bang .bangEqual
  | '=' => c.operator source .equal .equalEqual
  | '<' => c.operator source .less .lessEqual
  | '>' => c.operator source .greater .greaterEqual
  | '/' =>
    match c.next? source '/' with
    | some c => c.comment source
    | none => c.token source .slash .absent
  | '"' => c.string source
  | '\n' => .ok (none, { c with line := c.line + 1 })
  | _ =>
    match Kind.ofMark? b with
    | some kind => c.token source kind .absent
    | none =>
      if isBlank b then .ok (none, c)
      else if b.isDigit then c.number source
      else if isWordStart b then c.word source
      else c.stray source

/-- The next lexeme begins where the last one ended. -/
def pass (c : Cursor) : Except Trap (Option Event × Cursor) := do
  let b ← byte source c.current
  dispatch source b ⟨c.current, c.current + 1, c.line⟩

end Lexemes

/-! ## Runs -/

/-- After so many passes over a source, the cursor and the events that were found. -/
inductive Run (source : String) : Nat → Cursor → List Event → Prop
  | first : Run source 0 first []
  | pass {n c found event d} (h : Run source n c found) (hmore : c.current < source.utf8ByteSize)
      (hpass : c.pass source = .ok (event, d)) : Run source (n + 1) d (found ++ event.toList)

end Cursor

end LoxLexer
