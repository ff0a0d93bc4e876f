import SchemaAtlas.Decimal.Shortest

/-!
# Extended floating point

The numbers of binary floating point with its infinities and the value that is no number.
A decimal of any length is rounded once, to the nearest number. Written plainly, a number
shows the fewest digits that read back and never an exponent.
-/

namespace SchemaAtlas

inductive Extended where
  | finite (x : Binary64)
  | infinite (negative : Bool)
  | undefined
  deriving DecidableEq, Repr, Inhabited

namespace Extended

/-- The powers of ten of a first digit outside of which a decimal is certainly too large, or
certainly rounds to zero. -/
def decimalRange : Int × Int := (-400, 400)

/-- `± digits * 10 ^ exponent`, rounded. -/
def ofDecimal (negative : Bool) (digits : Nat) (exponent : Int) : Extended :=
  let top := exponent + (toString digits).length
  if digits = 0 || top < decimalRange.1 then .finite (.zero negative)
  else if decimalRange.2 < top then .infinite negative
  else
    match Binary64.round? negative (digits * Nat.pow 10 exponent.toNat)
        (Nat.pow 10 (-exponent).toNat) with
    | some x => .finite x
    | none => .infinite negative

def ofInt (i : Int) : Extended := .finite (.ofInt i)

def isZero : Extended → Bool
  | .finite x => x.significand = 0
  | _ => false

/-- The nearest natural number up to a limit, a half rounded up. What is not positive counts
as zero. -/
def nearestNat (limit : Nat) : Extended → Nat
  | .finite x =>
    let unit : Int := Nat.pow 2 1074
    min ((2 * x.units + unit) / (2 * unit)).toNat limit
  | .infinite false => limit
  | _ => 0

def plainDigits (d : Decimal) : List Char :=
  let digits := d.digitText
  if 0 ≤ d.exponent then digits ++ List.replicate d.exponent.toNat '0'
  else
    let places := (-d.exponent).toNat
    let digits := List.replicate (places + 1 - digits.length) '0' ++ digits
    digits.take (digits.length - places) ++ '.' :: digits.drop (digits.length - places)

def plainText : Extended → String
  | .finite x =>
    let body := if x.significand = 0 then ['0'] else plainDigits x.shortest
    String.ofList (if x.negative then '-' :: body else body)
  | .infinite negative => if negative then "-inf" else "inf"
  | .undefined => "NaN"

/-! ## Reading -/

def natOfDigits (digits : List Char) : Nat :=
  digits.foldl (fun n c => 10 * n + (c.toNat - 48)) 0

/-- A sign, if any, and what follows it. -/
def splitSign (cs : List Char) : Bool × List Char :=
  match cs with
  | '-' :: rest => (true, rest)
  | '+' :: rest => (false, rest)
  | cs => (false, cs)

/-- A whole number, which may have a sign. -/
def readInt (cs : List Char) : Option Int :=
  let (negative, digits) := splitSign cs
  if digits.isEmpty || !digits.all Char.isDigit then none
  else
    let n : Int := natOfDigits digits
    some (if negative then -n else n)

def readExponent : List Char → Option Int
  | [] => some 0
  | c :: rest => if c = 'e' || c = 'E' then readInt rest else none

/-- A decimal: digits with a point anywhere among them or none, and an exponent or none. -/
def readDecimal (negative : Bool) (cs : List Char) : Option Extended :=
  let whole := cs.takeWhile Char.isDigit
  let (fraction, rest) := match cs.dropWhile Char.isDigit with
    | '.' :: rest => (rest.takeWhile Char.isDigit, rest.dropWhile Char.isDigit)
    | rest => ([], rest)
  if whole.isEmpty && fraction.isEmpty then none
  else
    (readExponent rest).map fun e =>
      ofDecimal negative (natOfDigits (whole ++ fraction)) (e - fraction.length)

/-- Reads a number; the words for those that are not finite may have capitals. -/
def read (cs : List Char) : Option Extended :=
  let (negative, rest) := splitSign cs
  match String.ofList (rest.map Char.toLower) with
  | "inf" | "infinity" => some (.infinite negative)
  | "nan" => some .undefined
  | _ => readDecimal negative rest

end Extended
end SchemaAtlas
