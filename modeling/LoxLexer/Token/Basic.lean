import LoxLexer.Text.Span
import LoxLexer.Token.Kind
import LoxLexer.Token.Literal

/-!
# Tokens

A token is a piece of the text with its kind, its value, its span and the line on which it ends.
-/

namespace LoxLexer

structure Token where
  kind : Kind
  lexeme : String
  literal : Literal
  line : Nat
  span : Span
deriving DecidableEq

namespace Token

def equal (a b : Token) : Bool :=
  a.kind == b.kind && a.lexeme == b.lexeme && a.literal == b.literal && a.line == b.line &&
    a.span == b.span

instance : BEq Token := ⟨equal⟩

/-- The token that ends a text, at the byte offset `stop`. -/
def eof (line stop : Nat) : Token :=
  ⟨.eof, "", .absent, line, .covering stop stop (Nat.le_refl stop)⟩

def isEof (t : Token) : Bool := t.kind == .eof

/-- Kind, lexeme and literal with a blank between neighbours. -/
def display (t : Token) : String := t.kind.name ++ " " ++ t.lexeme ++ " " ++ t.literal.display

end Token

end LoxLexer
