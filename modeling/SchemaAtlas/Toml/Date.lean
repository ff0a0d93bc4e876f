import SchemaAtlas.Decimal.Extended

/-!
# Dates and times

A settings file may hold dates and times. They are checked against the calendar and kept
as texts in one form: a capital `T` between date and time, a capital `Z` for the zone of
Greenwich, and no zeros at the end of a fraction of a second.
-/

namespace SchemaAtlas.Toml

def isLeapYear (year : Nat) : Bool := year % 4 = 0 && (year % 100 != 0 || year % 400 = 0)

def daysOf (year month : Nat) : Nat :=
  if month = 2 then (if isLeapYear year then 29 else 28)
  else if month = 4 || month = 6 || month = 9 || month = 11 then 30
  else 31

/-- A number of exactly `count` digits between two bounds, with its digits. -/
def fixedNumber (count low high : Nat) (cs : List Char) : Option (Nat × List Char × List Char) :=
  let digits := cs.take count
  let n := Extended.natOfDigits digits
  if digits.length = count && digits.all Char.isDigit && low ≤ n && n ≤ high then
    some (n, digits, cs.drop count)
  else none

def expect (c : Char) : List Char → Option (List Char)
  | d :: rest => if c = d then some rest else none
  | [] => none

def readDate (cs : List Char) : Option (List Char × List Char) := do
  let (year, y, cs) ← fixedNumber 4 0 9999 cs
  let cs ← expect '-' cs
  let (month, m, cs) ← fixedNumber 2 1 12 cs
  let cs ← expect '-' cs
  let (_, d, cs) ← fixedNumber 2 1 (daysOf year month) cs
  return (y ++ '-' :: m ++ '-' :: d, cs)

/-- The digits of a fraction of a second down to the nanosecond. -/
def readFraction : List Char → Option (List Char × List Char)
  | '.' :: rest =>
    let digits := rest.takeWhile Char.isDigit
    if digits.isEmpty then none
    else
      let kept := ((digits.take 9).reverse.dropWhile (· = '0')).reverse
      some (if kept.isEmpty then [] else '.' :: kept, rest.dropWhile Char.isDigit)
  | cs => some ([], cs)

def readTime (cs : List Char) : Option (List Char × List Char) := do
  let (_, h, cs) ← fixedNumber 2 0 23 cs
  let cs ← expect ':' cs
  let (_, m, cs) ← fixedNumber 2 0 59 cs
  let cs ← expect ':' cs
  let (_, s, cs) ← fixedNumber 2 0 60 cs
  let (f, cs) ← readFraction cs
  return (h ++ ':' :: m ++ ':' :: s ++ f, cs)

/-- A zone; one without an hour or minute of difference has a plus sign. -/
def readZone : List Char → Option (List Char × List Char)
  | [] => some ([], [])
  | c :: rest =>
    if c = 'Z' || c = 'z' then some (['Z'], rest)
    else if c = '+' || c = '-' then do
      let (hours, h, cs) ← fixedNumber 2 0 23 rest
      let cs ← expect ':' cs
      let (minutes, m, cs) ← fixedNumber 2 0 59 cs
      return ((if hours = 0 && minutes = 0 then '+' else c) :: h ++ ':' :: m, cs)
    else none

/-- What may stand between a date and a time. -/
def isDivider (c : Char) : Bool := c = 'T' || c = 't' || c = ' '

/-- The text of a date, a time or both. -/
def readMoment (cs : List Char) : Option (List Char) :=
  match readDate cs with
  | none =>
    match readTime cs with
    | some (t, []) => some t
    | _ => none
  | some (d, []) => some d
  | some (d, c :: cs) => do
    let (t, cs) ← readTime cs
    let (z, cs) ← readZone cs
    if isDivider c && cs.isEmpty then some (d ++ 'T' :: t ++ z) else none

end SchemaAtlas.Toml
