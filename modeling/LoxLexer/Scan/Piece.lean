import LoxLexer.Token.Kind
import LoxLexer.Token.Literal

/-!
# Pieces of a text

A text falls into pieces: tokens, trivia between them, characters that begin no token, and a string
that is never closed.
-/

namespace LoxLexer

inductive Piece
  | token (kind : Kind) (chars : List Char) (literal : Literal)
  | trivia (chars : List Char)
  | stray (c : Char)
  | unclosed (chars : List Char)
deriving DecidableEq

def Piece.text : Piece → List Char
  | .token _ chars _ => chars
  | .trivia chars => chars
  | .stray c => [c]
  | .unclosed chars => chars

/-! ## Characters -/

def isBlank (c : Char) : Bool := c == ' ' || c == '\t' || c == '\r' || c == '\n'

/-- Words begin with an ASCII letter or an underscore. -/
def isWordStart (c : Char) : Bool := c.isAlpha || c == '_'

def isWordPart (c : Char) : Bool := isWordStart c || c.isDigit

end LoxLexer
