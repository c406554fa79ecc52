import LoxLexer.Json.Value
import LoxLexer.Scan.Basic
import LoxLexer.Text.LineMap

/-!
# Records

Tokens, diagnostics and what they are made of as JSON values.
-/

namespace LoxLexer

namespace Span

def record (s : Span) : Json :=
  .object [("start", .ofNat s.start.toNat), ("length", .ofNat s.length.toNat)]

end Span

namespace Place

def record (p : Place) : Json :=
  .object [("line", .ofNat p.line), ("column", .ofNat p.column.toNat)]

end Place

namespace Kind

def record (k : Kind) : Json := .string k.name

end Kind

namespace Literal

def record : Literal → Json
  | .absent => .null
  | .text value => .string value
  | .number value => .ofBinary64 value

end Literal

namespace Token

def members (t : Token) : List (String × Json) :=
  [("kind", t.kind.record), ("lexeme", .string t.lexeme), ("literal", t.literal.record),
    ("line", .ofNat t.line), ("span", t.span.record)]

def record (t : Token) : Json := .object t.members

def recordAt (t : Token) (column : Position) : Json :=
  .object (t.members ++ [("column", .ofNat column.toNat)])

end Token

namespace Category

def key : Category → String
  | .error => "error"

end Category

namespace Diagnostic

def record (d : Diagnostic) : Json :=
  .object [("line", .ofNat d.line), ("span", .ofOption Span.record d.span),
    ("message", .string d.message), ("code", .ofNat d.code), ("category", .string d.category.key)]

end Diagnostic

namespace Collection

def record (c : Collection) : Json := .list (c.toList.map Diagnostic.record)

end Collection

namespace Scan

def record (s : Scan) : Json :=
  .object [("tokens", .list (s.tokens.map Token.record)), ("diagnostics", s.diagnostics.record)]

end Scan

end LoxLexer
