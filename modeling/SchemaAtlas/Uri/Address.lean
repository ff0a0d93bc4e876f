import SchemaAtlas.Uri.Basic

/-!
# Numeric host addresses

An address of four bytes is written with one to four numbers, decimal, octal or
hexadecimal, the last of which fills the bytes that the others leave. An address of eight
words is written in hexadecimal between colons; one run of zero words may be left out, and
the last two words may be written as four bytes. Both have one normal form.
-/

namespace SchemaAtlas.Address

def splitOn (separator : Char) (cs : List Char) : List (List Char) :=
  match cs with
  | [] => [[]]
  | c :: rest =>
    if c = separator then [] :: splitOn separator rest
    else
      match splitOn separator rest with
      | [] => [[c]]
      | part :: parts => (c :: part) :: parts

def isHexDigit (c : Char) : Bool := (Percent.hexValue? c).isSome

def valueIn (base : Nat) (cs : List Char) : Nat :=
  cs.foldl (fun n c => base * n + (Percent.hexValue? c).getD 0) 0

/-- A number of a four-byte address: hexadecimal after `0x`, octal after a leading zero,
else decimal. -/
def number? (cs : List Char) : Option Nat :=
  let valid (base : Nat) (digits : List Char) : Option Nat :=
    if digits.all fun c => (Percent.hexValue? c).any (· < base) then some (valueIn base digits)
    else none
  match cs with
  | [] => none
  | '0' :: 'x' :: rest => valid 16 rest
  | '0' :: 'X' :: rest => valid 16 rest
  | '0' :: d :: rest => valid 8 (d :: rest)
  | cs => valid 10 cs

/-- The last part that is not an empty one at the end. -/
def lastPart (parts : List (List Char)) : Option (List Char) :=
  match parts.reverse with
  | [] :: rest => rest.head?
  | part :: _ => some part
  | [] => none

/-- Whether a host whose last part is this one has to be a four-byte address. -/
def endsInNumber (host : List Char) : Bool :=
  match lastPart (splitOn '.' host) with
  | none => false
  | some part => (!part.isEmpty && part.all Char.isDigit) || (number? part).isSome

/-- The four bytes as one number. -/
def fourBytes? (host : List Char) : Option Nat := do
  let parts := splitOn '.' host
  let parts := if parts.getLast? = some [] then parts.dropLast else parts
  guard (parts.length ≤ 4)
  let numbers ← parts.mapM number?
  let last ← numbers.getLast?
  let leading := numbers.dropLast
  guard (leading.all (· ≤ 255))
  guard (last < Nat.pow 256 (4 - leading.length))
  let filled := leading.foldl (fun n byte => 256 * n + byte) 0
  return filled * Nat.pow 256 (4 - leading.length) + last

def fourBytesText (n : Nat) : String :=
  ".".intercalate ([24, 16, 8, 0].map fun shift => toString (n / Nat.pow 2 shift % 256))

/-- One byte in decimal without leading zeros, and what follows it. -/
def decimalByte? (cs : List Char) : Option (Nat × List Char) :=
  let digits := cs.takeWhile Char.isDigit
  let n := valueIn 10 digits
  if digits.isEmpty || (digits.length > 1 && digits.head? = some '0') || n > 255 then none
  else some (n, cs.drop digits.length)

/-- Four bytes between points, to the end of the text, as two words. -/
def trailingBytes? (cs : List Char) : Option (List Nat) := do
  let (a, cs) ← decimalByte? cs
  let (b, cs) ← match cs with
    | '.' :: rest => decimalByte? rest
    | _ => none
  let (c, cs) ← match cs with
    | '.' :: rest => decimalByte? rest
    | _ => none
  let (d, cs) ← match cs with
    | '.' :: rest => decimalByte? rest
    | _ => none
  guard cs.isEmpty
  return [256 * a + b, 256 * c + d]

/-- The words of a side of an eight-word address; the two-byte form may only end it. -/
def words? (mayEndInBytes : Bool) : List (List Char) → Option (List Nat)
  | [] => some []
  | part :: rest =>
    if rest.isEmpty && part.contains '.' then
      if mayEndInBytes then trailingBytes? part else none
    else if part.isEmpty || part.length > 4 || !part.all isHexDigit then none
    else (words? mayEndInBytes rest).map (valueIn 16 part :: ·)

/-- The parts before and after the first empty part that stands between two colons. -/
def splitAtGap : List Char → Option (List Char × List Char)
  | ':' :: ':' :: rest => some ([], rest)
  | c :: rest => (splitAtGap rest).map fun (before, after) => (c :: before, after)
  | [] => none

def eightWords? (cs : List Char) : Option (List Nat) := do
  let side (mayEndInBytes : Bool) (cs : List Char) : Option (List Nat) :=
    if cs.isEmpty then some [] else words? mayEndInBytes (splitOn ':' cs)
  match splitAtGap cs with
  | none =>
    let words ← side true cs
    guard (words.length = 8)
    return words
  | some (before, after) =>
    let left ← side false before
    let right ← side true after
    guard (left.length + right.length ≤ 7)
    return left ++ List.replicate (8 - left.length - right.length) 0 ++ right

/-- The start and length of the longest run of zeros, the first of equally long ones. -/
def longestZeros (words : List Nat) : Nat × Nat :=
  let run (start : Nat) : Nat := ((words.drop start).takeWhile (· = 0)).length
  (List.range words.length).foldl
    (fun best start => if best.2 < run start then (start, run start) else best) (0, 0)

/-- Words in lower-case hexadecimal, with the longest run of two or more zeros left out. -/
def eightWordsText (words : List Nat) : String :=
  let hex (n : Nat) : String := String.ofList (Nat.toDigits 16 n)
  let join (ws : List Nat) : String := ":".intercalate (ws.map hex)
  let (start, length) := longestZeros words
  if length < 2 then join words
  else join (words.take start) ++ "::" ++ join (words.drop (start + length))

end SchemaAtlas.Address
