import LoxLexer.Number.Layout

/-!
# JSON values

A number is held as the text that is written for it, and an object keeps the order of its members.
-/

namespace LoxLexer

inductive Json
  | null
  | number (text : String)
  | string (text : String)
  | list (items : List Json)
  | object (members : List (String × Json))

namespace Json

def ofNat (n : Nat) : Json := .number (toString n)

/-- Exponents of the first digit from -5 to 15 are written with the point in place and at least one
digit after it; of two equally near shortest decimals the even one is written. -/
def numbers : Layout := ⟨.toEven, fun e => -5 ≤ e ∧ e ≤ 15, true⟩

/-- A number that is not finite has no numeral and is written as nothing. -/
def ofBinary64 (x : Binary64) : Json := if x.isFinite then .number (numbers.write x) else .null

def ofOption {α : Type} (encode : α → Json) : Option α → Json
  | some a => encode a
  | none => .null

end Json

end LoxLexer
