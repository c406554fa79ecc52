import LoxLexer.Number.Binary64

/-!
# Rounding to the nearest number

A quotient of natural numbers becomes the nearest binary64 number, and of two equally near ones the
one with the even significand. What lies too far out becomes infinity.
-/

namespace LoxLexer

/-- The quotient to the nearest integer; an exact half goes to the even neighbour. -/
def divHalfEven (num den : Nat) : Nat :=
  let q := num / den
  let r := num % den
  if den < 2 * r ∨ (2 * r = den ∧ q % 2 = 1) then q + 1 else q

namespace Binary64

/-- The bits of positive infinity: every lesser pattern is a finite number. -/
def infinityBits : Nat := 0x7ff0000000000000

/-- The number nearest to `num / den`.

In units of `2 ^ -1074` the significand is shifted until it has 53 bits. Its top bit adds one to the
exponent field, so a carry out of the rounding lands there by itself. -/
def nearest (num den : Nat) : Binary64 :=
  let units := num <<< 1074
  let shift := (units / den).log2 - 52
  let significand := divHalfEven units (den <<< shift)
  ⟨UInt64.ofNat (min (shift <<< 52 + significand) infinityBits)⟩

end Binary64

/-- A decimal numeral: digits before the point and, if there is a point, digits after it. -/
structure Numeral where
  whole : List Char
  fraction : List Char
deriving DecidableEq

namespace Numeral

def digitValue (c : Char) : Nat := c.toNat - '0'.toNat

def natValue (digits : List Char) : Nat := digits.foldl (fun n c => 10 * n + digitValue c) 0

/-- A numeral without digits after the point is written without the point. -/
def text (n : Numeral) : List Char :=
  match n.fraction with
  | [] => n.whole
  | digits => n.whole ++ '.' :: digits

def value (n : Numeral) : Binary64 :=
  .nearest (natValue (n.whole ++ n.fraction)) (Nat.pow 10 n.fraction.length)

end Numeral

end LoxLexer
