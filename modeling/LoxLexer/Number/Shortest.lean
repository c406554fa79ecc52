import LoxLexer.Number.Binary64

/-!
# The shortest decimal that reads back

Every finite number other than zero is the rounding of a whole interval of reals. Of the decimals in
that interval those with the fewest digits are candidates, and the nearest of them is chosen.
-/

namespace LoxLexer

structure Decimal where
  digits : Nat
  exponent : Int
deriving DecidableEq

namespace Decimal

/-- The same decimal without zeros at the end of its digits. -/
def normalize (d : Decimal) : Decimal :=
  if d.digits ≠ 0 ∧ d.digits % 10 = 0 then normalize ⟨d.digits / 10, d.exponent + 1⟩ else d
termination_by d.digits
decreasing_by omega

end Decimal

inductive Tie
  | up
  | toEven
deriving DecidableEq

namespace Binary64

/-- The reals that round to a number, as numerators over `Reach.unit`, with the number itself. -/
structure Reach where
  low : Nat
  value : Nat
  high : Nat
  closed : Bool

namespace Reach

/-- A quarter of the least positive number is the unit. -/
def unit : Nat := 1 <<< 1076

/-- Below a power of two the neighbour is half as far away. The ends belong to the interval when the
significand is even. -/
def of (x : Binary64) : Reach :=
  let m := 4 * x.significand
  let down := if x.fractionField = 0 ∧ 1 < x.exponentField then 1 else 2
  ⟨(m - down) <<< x.shift, m <<< x.shift, (m + 2) <<< x.shift, x.significand % 2 = 0⟩

def decimalExponent (r : Reach) : Int :=
  if unit ≤ r.value then ((Nat.toDigits 10 (r.value / unit)).length : Int) - 1
  else -((Nat.toDigits 10 ((unit + r.value - 1) / r.value - 1)).length : Int)

/-- The multiple of `10 ^ exponent` that lies in the interval and is nearest to the value, if there
is one: no others than the two neighbours of the value need be looked at. -/
def onGrid? (r : Reach) (tie : Tie) (exponent : Int) : Option Decimal :=
  let scale := Nat.pow 10 (-exponent).toNat
  let step := unit * Nat.pow 10 exponent.toNat
  let below := r.value * scale / step
  let rest := r.value * scale % step
  let hasBelow :=
    if r.closed then r.low * scale ≤ below * step else r.low * scale < below * step
  let hasAbove :=
    if r.closed then (below + 1) * step ≤ r.high * scale else (below + 1) * step < r.high * scale
  let preferAbove := step < 2 * rest ∨ (2 * rest = step ∧ (tie = .up ∨ below % 2 = 1))
  if hasBelow ∧ hasAbove then some ⟨if preferAbove then below + 1 else below, exponent⟩
  else if hasBelow then some ⟨below, exponent⟩
  else if hasAbove then some ⟨below + 1, exponent⟩
  else none

end Reach

/-- The shortest decimal that reads back as the number, up to its sign. Seventeen digits always
suffice. -/
def shortest (x : Binary64) (tie : Tie) : Decimal :=
  let r := Reach.of x
  let first := r.decimalExponent
  let found := (List.range 17).findSome? fun (more : Nat) => r.onGrid? tie (first - more)
  (found.getD ⟨0, 0⟩).normalize

end Binary64

end LoxLexer
