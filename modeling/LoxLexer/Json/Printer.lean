import LoxLexer.Json.Value

/-!
# Writing JSON

Two written forms of a value: the compact one has no blanks, and the pretty one puts each item and
each member on a line of its own, two blanks deeper than its parent.
-/

namespace LoxLexer.Json

/-- Quotes, backslashes and control characters are escaped, everything else stands for itself. -/
def escape (c : Char) : List Char :=
  match c with
  | '"' => ['\\', '"']
  | '\\' => ['\\', '\\']
  | '\x08' => ['\\', 'b']
  | '\x0c' => ['\\', 'f']
  | '\n' => ['\\', 'n']
  | '\r' => ['\\', 'r']
  | '\t' => ['\\', 't']
  | c =>
    if c.toNat < 32 then
      ['\\', 'u', '0', '0', Nat.digitChar (c.toNat / 16), Nat.digitChar (c.toNat % 16)]
    else [c]

def quote (text : String) : String := .ofList ('"' :: text.toList.flatMap escape ++ ['"'])

/-- Parts with a comma and the given text between neighbours. -/
def separate (gap : String) (parts : List String) : String := ("," ++ gap).intercalate parts

/-! ## The compact form -/

mutual

def compact : Json → String
  | .null => "null"
  | .number text => text
  | .string text => quote text
  | .list items => "[" ++ separate "" (compactItems [] items) ++ "]"
  | .object members => "\x7b" ++ separate "" (compactMembers [] members) ++ "\x7d"

def compactItems (done : List String) : List Json → List String
  | [] => done.reverse
  | item :: items => compactItems (compact item :: done) items

def compactMembers (done : List String) : List (String × Json) → List String
  | [] => done.reverse
  | (key, value) :: members => compactMembers ((quote key ++ ":" ++ compact value) :: done) members

end

/-! ## The pretty form -/

/-- Parts on lines of their own between brackets; without parts the brackets stand together. -/
def block (opening closing indent : String) : List String → String
  | [] => opening ++ closing
  | parts => opening ++ "\n" ++ separate "\n" parts ++ "\n" ++ indent ++ closing

mutual

def prettyAt (indent : String) : Json → String
  | .null => "null"
  | .number text => text
  | .string text => quote text
  | .list items => block "[" "]" indent (prettyItems (indent ++ "  ") [] items)
  | .object members => block "\x7b" "\x7d" indent (prettyMembers (indent ++ "  ") [] members)

def prettyItems (indent : String) (done : List String) : List Json → List String
  | [] => done.reverse
  | item :: items => prettyItems indent ((indent ++ prettyAt indent item) :: done) items

def prettyMembers (indent : String) (done : List String) : List (String × Json) → List String
  | [] => done.reverse
  | (key, value) :: members =>
    prettyMembers indent ((indent ++ quote key ++ ": " ++ prettyAt indent value) :: done) members

end

def pretty (value : Json) : String := prettyAt "" value

/-! ## The parts of a list or an object -/

theorem prettyItems_eq (indent : String) (done : List String) (items : List Json) :
    prettyItems indent done items =
      done.reverse ++ items.map fun item => indent ++ prettyAt indent item := by
  induction items generalizing done with
  | nil => simp [prettyItems]
  | cons item items ih => simp [prettyItems, ih]

theorem prettyMembers_eq (indent : String) (done : List String) (members : List (String × Json)) :
    prettyMembers indent done members =
      done.reverse ++
        members.map fun m => indent ++ quote m.1 ++ ": " ++ prettyAt indent m.2 := by
  induction members generalizing done with
  | nil => simp [prettyMembers]
  | cons m members ih => simp [prettyMembers, ih]

end LoxLexer.Json
