/-!
# Binary floating-point numbers

An IEEE 754 binary64 number is its 64 bits: a sign, eleven bits of exponent and 52 of fraction.
Equality is that of numbers, so a NaN differs from itself and the two zeros are equal.
-/

namespace LoxLexer

structure Binary64 where
  bits : UInt64
deriving DecidableEq

namespace Binary64

def isNegative (x : Binary64) : Bool := 0x8000000000000000 ≤ x.bits.toNat

def exponentField (x : Binary64) : Nat := (x.bits.toNat >>> 52) % 0x800

def fractionField (x : Binary64) : Nat := x.bits.toNat % 0x10000000000000

def isFinite (x : Binary64) : Bool := x.exponentField != 0x7ff

def isNaN (x : Binary64) : Bool := !x.isFinite && x.fractionField != 0

def isZero (x : Binary64) : Bool := x.exponentField == 0 && x.fractionField == 0

/-- A finite number is, up to its sign, its significand shifted left by `shift`, in units of
`2 ^ -1074`. -/
def significand (x : Binary64) : Nat :=
  if x.exponentField = 0 then x.fractionField else 0x10000000000000 + x.fractionField

def shift (x : Binary64) : Nat := x.exponentField - 1

def equal (x y : Binary64) : Bool :=
  !x.isNaN && !y.isNaN && (x.bits == y.bits || x.isZero && y.isZero)

instance : BEq Binary64 := ⟨equal⟩

theorem beq_self (x : Binary64) : (x == x) = !x.isNaN := by
  simp only [BEq.beq, equal]
  cases x.isNaN <;> simp

end Binary64

end LoxLexer
