import SchemaAtlas.Text.Utf8

/-!
# Percent encoding

An encoding is described by the set of ASCII characters it writes as escapes; every other
character outside ASCII is written octet by octet. Decoding is the same for all of them:
a percent sign that no two hexadecimal digits follow stands for itself.
-/

namespace SchemaAtlas.Percent

/-- A digit of the upper-case hexadecimal form. -/
def hexDigit (n : Nat) : Char :=
  if n < 10 then Char.ofNat (48 + n) else Char.ofNat (55 + n)

def hexValue? (c : Char) : Option Nat :=
  if '0' ≤ c ∧ c ≤ '9' then some (c.toNat - 48)
  else if 'a' ≤ c ∧ c ≤ 'f' then some (c.toNat - 87)
  else if 'A' ≤ c ∧ c ≤ 'F' then some (c.toNat - 55)
  else none

def escapeOctet (b : UInt8) : List Char :=
  ['%', hexDigit (b.toNat / 16), hexDigit (b.toNat % 16)]

/-- Controls are escaped in every encoding. -/
def isControl (c : Char) : Bool := c.toNat < 32 || c.toNat = 127

/-- Writes one character, escaped when it lies outside ASCII or `escaped` holds of it. -/
def encodeChar (escaped : Char → Bool) (c : Char) : List Char :=
  if c.toNat < 128 && !escaped c then [c]
  else (String.utf8EncodeChar c).flatMap escapeOctet

def encodeChars (escaped : Char → Bool) (cs : List Char) : List Char :=
  cs.flatMap (encodeChar escaped)

def encode (escaped : Char → Bool) (text : String) : String :=
  String.ofList (encodeChars escaped text.toList)

/-- The octets that a percent-encoded text stands for. -/
def octets : List Char → List UInt8
  | '%' :: h :: l :: rest =>
    match hexValue? h, hexValue? l with
    | some x, some y => UInt8.ofNat (16 * x + y) :: octets rest
    | _, _ => String.utf8EncodeChar '%' ++ octets (h :: l :: rest)
  | c :: rest => String.utf8EncodeChar c ++ octets rest
  | [] => []

def decode (text : String) : Except Utf8.Fault String :=
  Utf8.decode (octets text.toList)

end SchemaAtlas.Percent
