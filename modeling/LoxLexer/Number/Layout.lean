import LoxLexer.Number.Shortest

/-!
# Layouts of numbers

A layout decides how the digits of a number are written: with a point at its place, or with one
digit before the point and a power of ten after the digits.
-/

namespace LoxLexer

structure Layout where
  /-- Which of two equally short and near decimals is written. -/
  tie : Tie
  /-- Whether a number whose first digit has this exponent is written with its point in place. -/
  isPositional : Int → Bool
  /-- Whether a whole number written so keeps a point and a zero. -/
  keepsFraction : Bool

namespace Layout

def zeros (n : Int) : List Char := List.replicate n.toNat '0'

/-- Digits with the point after the first `point` of them; zeros stand in for those that are not
there. -/
def positional (l : Layout) (digits : List Char) (point : Int) : List Char :=
  if point ≤ 0 then '0' :: '.' :: zeros (-point) ++ digits
  else if digits.length ≤ point then
    digits ++ zeros (point - digits.length) ++ (if l.keepsFraction then ['.', '0'] else [])
  else digits.take point.toNat ++ '.' :: digits.drop point.toNat

/-- Digits with the point after the first one, and the exponent of that digit. -/
def scientific (digits : List Char) (exponent : Int) : List Char :=
  let point := if digits.length ≤ 1 then digits else digits.take 1 ++ '.' :: digits.drop 1
  let sign := if exponent < 0 then '-' else '+'
  point ++ 'e' :: sign :: Nat.toDigits 10 exponent.natAbs

def magnitude (l : Layout) (x : Binary64) : List Char :=
  if x.isZero then l.positional ['0'] 1
  else
    let d := x.shortest l.tie
    let digits := Nat.toDigits 10 d.digits
    let point := d.exponent + digits.length
    if l.isPositional (point - 1) then l.positional digits point else scientific digits (point - 1)

/-- Zero keeps its sign; a NaN has none. -/
def write (l : Layout) (x : Binary64) : String :=
  if x.isNaN then "NaN"
  else
    let sign := if x.isNegative then ['-'] else []
    .ofList (sign ++ if x.isFinite then l.magnitude x else ['i', 'n', 'f'])

end Layout

end LoxLexer
