/-!
# Binary floating point

A finite binary64 number is kept as the fields of its value `± significand * 2 ^ exponent`,
so that every question about it is one about integers. All of them are multiples of
`2 ^ (-1074)`, and comparisons count these units. Rounding takes an exact quotient of
natural numbers to the nearest representable number, a tie to the even significand.
-/

namespace SchemaAtlas

/-- A finite binary64 number, `± significand * 2 ^ exponent`. -/
structure Binary64 where
  negative : Bool
  significand : Nat
  exponent : Int
  deriving DecidableEq, Repr, Inhabited

namespace Binary64

/-- The exponent of the smallest positive number. -/
def leastExponent : Int := -1074

/-- The exponent of the largest finite number, whose significand is `2 ^ 53 - 1`. -/
def greatestExponent : Int := 971

def zero (negative : Bool) : Binary64 := ⟨negative, 0, leastExponent⟩

/-- A nonzero significand has 53 bits unless the exponent is the least one. -/
def IsNormal (x : Binary64) : Prop :=
  x.significand < Nat.pow 2 53 ∧ leastExponent ≤ x.exponent ∧ x.exponent ≤ greatestExponent ∧
    (x.exponent ≠ leastExponent → Nat.pow 2 52 ≤ x.significand)

instance (x : Binary64) : Decidable x.IsNormal := inferInstanceAs (Decidable (_ ∧ _))

/-- The quotient rounded to the nearest natural number, a half to the even one. -/
def roundQuotient (num den : Nat) : Nat :=
  let q := num / den
  let r := num % den
  if den < 2 * r then q + 1
  else if 2 * r = den then q + q % 2
  else q

/-- `num / den / 2 ^ e`, rounded. -/
def scaledQuotient (num den : Nat) (e : Int) : Nat :=
  if 0 ≤ e then roundQuotient num (den * Nat.pow 2 e.toNat)
  else roundQuotient (num * Nat.pow 2 (-e).toNat) den

/-- Whether `num / den / 2 ^ e` is at least `2 ^ 52`. -/
def reaches52 (num den : Nat) (e : Int) : Bool :=
  if 0 ≤ e then Nat.pow 2 52 * (den * Nat.pow 2 e.toNat) ≤ num
  else Nat.pow 2 52 * den ≤ num * Nat.pow 2 (-e).toNat

/-- The representable number nearest to `± num / den`; `none` beyond the largest one. -/
def round? (negative : Bool) (num den : Nat) : Option Binary64 :=
  if num = 0 ∨ den = 0 then some (zero negative)
  else
    let guess : Int := (num.log2 : Int) - den.log2 - 52
    let natural := if reaches52 num den guess then guess else guess - 1
    let e := max natural leastExponent
    let m := scaledQuotient num den e
    let (m, e) := if m = Nat.pow 2 53 then (Nat.pow 2 52, e + 1) else (m, e)
    if greatestExponent < e then none else some ⟨negative, m, e⟩

/-- A natural number below `2 ^ 1024`, rounded. -/
def ofNat (n : Nat) : Binary64 := (round? false n 1).getD (zero false)

def ofInt (i : Int) : Binary64 :=
  { ofNat i.natAbs with negative := decide (i < 0) }

def neg (x : Binary64) : Binary64 := { x with negative := !x.negative }

def mul? (x y : Binary64) : Option Binary64 :=
  let e := x.exponent + y.exponent
  round? (x.negative != y.negative)
    (x.significand * y.significand * Nat.pow 2 e.toNat) (Nat.pow 2 (-e).toNat)

/-- The rounded quotient; `none` for a divisor of zero. -/
def div? (x y : Binary64) : Option Binary64 :=
  if y.significand = 0 then none
  else
    let e := x.exponent - y.exponent
    round? (x.negative != y.negative)
      (x.significand * Nat.pow 2 e.toNat) (y.significand * Nat.pow 2 (-e).toNat)

/-- The value in multiples of `2 ^ (-1074)`. -/
def units (x : Binary64) : Int :=
  let magnitude : Int := (x.significand * Nat.pow 2 (x.exponent - leastExponent).toNat : Nat)
  if x.negative then -magnitude else magnitude

/-- Numeric equality, for which both zeros are one number. -/
def equals (x y : Binary64) : Bool := x.units == y.units

def le (x y : Binary64) : Bool := x.units ≤ y.units

def lt (x y : Binary64) : Bool := x.units < y.units

/-- Whether the value is an integer. -/
def isWhole (x : Binary64) : Bool := x.units % Nat.pow 2 1074 == 0

/-- The integer part, rounded toward zero. -/
def truncate (x : Binary64) : Int := Int.tdiv x.units (Nat.pow 2 1074)

@[simp] theorem equals_self (x : Binary64) : x.equals x = true := by simp [equals]

theorem equals_comm (x y : Binary64) : x.equals y = y.equals x := by
  simp [equals, Bool.beq_comm]

end Binary64
end SchemaAtlas
