import SchemaAtlas.Decimal.Binary64

/-!
# Shortest decimals

A number is written with the fewest significant digits that read back as itself. The
decimals with a given count of digits form a grid around the value; if any point of the
grid rounds to the number, so does one of the value's two neighbours on it, so the first
grid with such a neighbour gives the digits. Of two neighbours the nearer is taken, and
the even one of two equally near.
-/

namespace SchemaAtlas

/-- `digits * 10 ^ exponent`, where `digits` has no trailing zero unless it is zero. -/
structure Decimal where
  digits : Nat
  exponent : Int
  deriving DecidableEq, Repr

namespace Decimal

/-- Moves trailing zeros of the digits into the exponent. -/
def trim : Nat → Decimal → Decimal
  | 0, d => d
  | fuel + 1, d =>
    if d.digits ≠ 0 ∧ d.digits % 10 = 0 then trim fuel ⟨d.digits / 10, d.exponent + 1⟩ else d

/-- The digits as text, most significant first. -/
def digitText (d : Decimal) : List Char := (toString d.digits).toList

/-- The power of ten of the first digit. -/
def magnitude (d : Decimal) : Int := d.exponent + d.digitText.length - 1

end Decimal

namespace Binary64

/-- The value as a quotient, doubled twice so that the ends of the interval that rounds to
it are integers over the same denominator. -/
structure Interval where
  value : Nat
  low : Nat
  high : Nat
  den : Nat
  closed : Bool

/-- The numbers that round to `x`, apart from the sign. -/
def interval (x : Binary64) : Interval :=
  let up := Nat.pow 2 x.exponent.toNat
  let down := Nat.pow 2 (-x.exponent).toNat
  let below := if x.significand = Nat.pow 2 52 ∧ leastExponent < x.exponent then 1 else 2
  { value := 4 * x.significand * up
    low := (4 * x.significand - below) * up
    high := (4 * x.significand + 2) * up
    den := 4 * down
    closed := x.significand % 2 = 0 }

/-- Whether `n * unitNum / unitDen` lies in the interval. -/
def Interval.holds (i : Interval) (unitNum unitDen n : Nat) : Bool :=
  let point := n * unitNum * i.den
  if i.closed then i.low * unitDen ≤ point && point ≤ i.high * unitDen
  else i.low * unitDen < point && point < i.high * unitDen

/-- The point of the grid of multiples of `10 ^ e` that stands for the number, if any
point of it rounds to the number. -/
def Interval.onGrid? (i : Interval) (e : Int) : Option Nat :=
  let unitNum := Nat.pow 10 e.toNat
  let unitDen := Nat.pow 10 (-e).toNat
  let below := i.value * unitDen / (unitNum * i.den)
  let rest := i.value * unitDen - below * (unitNum * i.den)
  let preferLow :=
    if 2 * rest < unitNum * i.den then true
    else if 2 * rest = unitNum * i.den then below % 2 = 0
    else false
  match i.holds unitNum unitDen below, i.holds unitNum unitDen (below + 1) with
  | true, true => some (if preferLow then below else below + 1)
  | true, false => some below
  | false, true => some (below + 1)
  | false, false => none

/-- The power of ten of the first digit of the quotient. -/
def decimalMagnitude (num den : Nat) : Int :=
  let digitCount (n : Nat) : Nat := (toString n).length
  let guess : Int := digitCount num - digitCount den
  if den * Nat.pow 10 guess.toNat ≤ num * Nat.pow 10 (-guess).toNat then guess else guess - 1

/-- The shortest decimal that reads back as the number, apart from the sign. -/
def shortest (x : Binary64) : Decimal :=
  if x.significand = 0 then ⟨0, 0⟩
  else
    let i := x.interval
    let top := decimalMagnitude i.value i.den
    let found := (List.range 17).findSome? fun (k : Nat) =>
      (i.onGrid? (top - k)).map fun n => (⟨n, top - k⟩ : Decimal)
    (found.getD ⟨x.significand, x.exponent⟩).trim 20

end Binary64
end SchemaAtlas
