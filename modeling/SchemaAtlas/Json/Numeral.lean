import SchemaAtlas.Decimal.Shortest
import SchemaAtlas.Json.Basic

/-!
# Numerals

How numbers are read from and written to JSON text. An integer that fits 64 bits is kept
exactly. Any other numeral is a significand, made of as many leading digits as fit 64
bits, times a power of ten; the significand is rounded to binary first and the scaling
rounds again, so a long numeral may land beside the nearest number. Writing uses the
shortest decimal that reads back, with all its digits before or after the point for the
powers of ten -5 to 15 and with an exponent otherwise.
-/

namespace SchemaAtlas

/-- A numeral split into its parts; an absent part is `none`. -/
structure Numeral where
  negative : Bool
  whole : List Nat
  fraction : Option (List Nat)
  exponent : Option Int

namespace Numeral

def wordLimit : Nat := Nat.pow 2 64

/-- Appends digits while the number stays below `2 ^ 64`; the digits left over come second. -/
def accumulate (n : Nat) : List Nat → Nat × List Nat
  | [] => (n, [])
  | d :: rest => if 10 * n + d < wordLimit then accumulate (10 * n + d) rest else (n, d :: rest)

theorem accumulate_lt (n : Nat) (h : n < wordLimit) (digits : List Nat) :
    (accumulate n digits).1 < wordLimit := by
  induction digits generalizing n with
  | nil => exact h
  | cons d rest ih =>
    simp only [accumulate]
    split
    · exact ih _ ‹_›
    · exact h

def tenTo (n : Nat) : Binary64 := Binary64.ofNat (Nat.pow 10 n)

/-- The greatest power of ten that one step divides by. -/
def longestStep : Nat := 308

/-- `x / 10 ^ (longestStep * steps + n)`, step by step; nothing changes once it is zero. -/
def scaleDown (x : Binary64) (n : Nat) : Nat → Option Binary64
  | 0 => x.div? (tenTo n)
  | steps + 1 =>
    if x.significand = 0 then some x
    else
      match x.div? (tenTo longestStep) with
      | some y => scaleDown y n steps
      | none => none

/-- `significand * 10 ^ exponent`, rounded; `none` beyond the largest number. -/
def scale (significand : Nat) (exponent : Int) : Option Binary64 :=
  let x := Binary64.ofNat significand
  match exponent with
  | .ofNat n =>
    if n ≤ longestStep then x.mul? (tenTo n)
    else if x.significand = 0 then some x
    else none
  | .negSucc n => scaleDown x (n % longestStep + 1) (n / longestStep)

/-- The exponent is that of a zero significand when it has too many digits to matter. -/
def value? (numeral : Numeral) : Option Number :=
  let (significand, dropped) := accumulate 0 numeral.whole
  match numeral.fraction, numeral.exponent, dropped with
  | none, none, [] =>
    if numeral.negative = false then some (.integer significand)
    else if significand = 0 then some (.float (.zero true))
    else if significand ≤ Nat.pow 2 63 then some (.integer (-(significand : Int)))
    else some (.float (Binary64.ofNat significand).neg)
  | fraction, exponent, dropped =>
    let digits := fraction.getD []
    let (significand, ignored) := accumulate significand digits
    let power : Int := dropped.length - (digits.length - ignored.length : Nat)
    (scale significand (power + exponent.getD 0)).map fun x =>
      .float (if numeral.negative then x.neg else x)

end Numeral

namespace Binary64

/-- The powers of ten of the first digit that are written without an exponent. -/
def isPositional (magnitude : Int) : Bool := -5 ≤ magnitude && magnitude ≤ 15

/-- Digits with a point behind the place of the units, and a zero where none stands. -/
def positional (digits : List Char) (magnitude : Int) : List Char :=
  if magnitude < 0 then
    ['0', '.'] ++ List.replicate (-magnitude - 1).toNat '0' ++ digits
  else
    let places := magnitude.toNat + 1
    let whole := digits.take places ++ List.replicate (places - digits.length) '0'
    let fraction := digits.drop places
    whole ++ ['.'] ++ (if fraction.isEmpty then ['0'] else fraction)

/-- One digit, a point before any others, and the exponent with its sign. -/
def scientific (digits : List Char) (magnitude : Int) : List Char :=
  let head := match digits with
    | [] => []
    | [d] => [d]
    | d :: rest => d :: '.' :: rest
  let sign := if magnitude < 0 then '-' else '+'
  head ++ ['e', sign] ++ (toString magnitude.natAbs).toList

def text (x : Binary64) : String :=
  let d := x.shortest
  let body :=
    if x.significand = 0 then ['0', '.', '0']
    else if isPositional d.magnitude then positional d.digitText d.magnitude
    else scientific d.digitText d.magnitude
  String.ofList (if x.negative then '-' :: body else body)

end Binary64

def Number.text : Number → String
  | .integer i => toString i
  | .float x => x.text

instance : ToString Number := ⟨Number.text⟩

end SchemaAtlas
