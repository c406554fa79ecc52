import LoxLexer.Number.Layout

/-!
# Literals

The value that a token stands for: none, a text or a number.
-/

namespace LoxLexer

inductive Literal
  | absent
  | text (value : String)
  | number (value : Binary64)
deriving DecidableEq, Inhabited

namespace Literal

/-- Literals are compared as values, so a NaN differs from itself. -/
def equal : Literal → Literal → Bool
  | .absent, .absent => true
  | .text a, .text b => a == b
  | .number a, .number b => a == b
  | _, _ => false

instance : BEq Literal := ⟨equal⟩

def isAbsent : Literal → Bool
  | .absent => true
  | _ => false

def text? : Literal → Option String
  | .text value => some value
  | _ => none

/-- Numbers are shown with their point in place and without a fraction that is zero; of two equally
near shortest decimals the greater one is shown. -/
def numbers : Layout := ⟨.up, fun _ => true, false⟩

def display : Literal → String
  | .absent => "null"
  | .text value => value
  | .number value => numbers.write value

end Literal

end LoxLexer
