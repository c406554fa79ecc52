import LoxLexer.Diagnostic.Basic

/-!
# Lexical errors

What can be wrong with a text: a character that begins no token, or a string without its closing
quote. Each has a message of its own and becomes a diagnostic by a template.
-/

namespace LoxLexer

inductive LexicalError
  | unexpectedCharacter (line : Nat) (character : Char) (span : Span)
  | unterminatedString (line : Nat) (span : Span)
deriving DecidableEq

namespace Template

def unexpectedCharacter : Template := ⟨1001, .error, "Unexpected character: \x7b0\x7d"⟩

def unterminatedString : Template := ⟨1002, .error, "Unterminated string."⟩

end Template

namespace LexicalError

def line : LexicalError → Nat
  | .unexpectedCharacter line _ _ => line
  | .unterminatedString line _ => line

def span : LexicalError → Span
  | .unexpectedCharacter _ _ span => span
  | .unterminatedString _ span => span

def message : LexicalError → String
  | .unexpectedCharacter _ c _ => "Unexpected character: " ++ String.singleton c
  | .unterminatedString _ _ => "Unterminated string."

def diagnostic : LexicalError → Diagnostic
  | .unexpectedCharacter line c span =>
    (Diagnostic.ofTemplate line .unexpectedCharacter [String.singleton c]).withSpan span
  | .unterminatedString line span =>
    (Diagnostic.ofTemplate line .unterminatedString []).withSpan span

end LexicalError

end LoxLexer
