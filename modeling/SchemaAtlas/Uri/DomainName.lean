import SchemaAtlas.Text.Punycode
import SchemaAtlas.Uri.Basic

/-!
# Domain names

A domain name is written in small letters, label by label. A label with characters beyond
ASCII is written in Punycode behind `xn--`, and a label that starts so has to stand for
such characters.
-/

namespace SchemaAtlas.DomainName

/-- Characters that no domain name holds: blanks and controls, some signs of ASCII, and
characters for private use. -/
def isForbidden (c : Char) : Bool :=
  let n := c.toNat
  n ≤ 32 || (127 ≤ n && n < 160) || (0xE000 ≤ n && n ≤ 0xF8FF) || n % 0x10000 = 0xFFFE ||
    n % 0x10000 = 0xFFFF || 0xF0000 ≤ n ||
    ['%', '#', '/', ':', '<', '>', '?', '@', '[', '\\', ']', '^', '|'].contains c

/-- Alphabets whose small letters follow the capital ones: the first and the last capital
letter, and the distance between the two cases. -/
def alphabets : List (Nat × Nat × Nat) :=
  [(0x41, 0x5A, 32), (0xC0, 0xD6, 32), (0xD8, 0xDE, 32), (0x388, 0x38A, 37),
    (0x391, 0x3A1, 32), (0x3A3, 0x3AB, 32), (0x400, 0x40F, 80), (0x410, 0x42F, 32),
    (0x531, 0x556, 48)]

/-- Blocks in which every capital letter stands right before its small one; the capital
letters have numbers of the parity of the first. -/
def pairedBlocks : List (Nat × Nat) :=
  [(0x100, 0x12F), (0x132, 0x137), (0x139, 0x148), (0x14A, 0x177), (0x179, 0x17E),
    (0x460, 0x481), (0x48A, 0x4BF), (0x4C1, 0x4CE), (0x4D0, 0x52F), (0x1E00, 0x1E95),
    (0x1EA0, 0x1EFF)]

def smallLetter (n : Nat) : Nat :=
  match alphabets.find? fun (first, last, _) => first ≤ n && n ≤ last with
  | some (_, _, distance) => n + distance
  | none =>
    if pairedBlocks.any fun (first, last) => first ≤ n && n ≤ last && n % 2 = first % 2 then n + 1
    else n

/-- What a character stands for: small letters for capital ones, ASCII for the wide forms
of it, a point for the other full stops and nothing for invisible characters. -/
def fold (c : Char) : List Char :=
  let n := c.toNat
  if n = 0xAD || n = 0x200B || n = 0x2060 || n = 0xFEFF || (0xFE00 ≤ n && n ≤ 0xFE0F) then []
  else if n = 0x3002 || n = 0xFF0E || n = 0xFF61 then ['.']
  else if 0xFF01 ≤ n && n ≤ 0xFF5E then [Char.ofNat (smallLetter (n - 0xFEE0))]
  else [Char.ofNat (smallLetter n)]

def isAsciiLabel (label : List Char) : Bool := label.all Punycode.isAscii

def encodedStart : List Char := ['x', 'n', '-', '-']

/-- A label in ASCII; `none` if it claims to be encoded and is not. -/
def encodeLabel? (label : List Char) : Option (List Char) :=
  if !isAsciiLabel label then some (encodedStart ++ Punycode.encode label)
  else if encodedStart.isPrefixOf label then
    match Punycode.decode (label.drop encodedStart.length) with
    | some decoded =>
      if isAsciiLabel decoded || decoded.any isForbidden || decoded.flatMap fold != decoded then none
      else some label
    | none => none
  else some label

/-- The labels between the points. -/
def splitLabels (cs : List Char) : List (List Char) := cs.splitOn '.'

def toAscii? (cs : List Char) : Option (List Char) :=
  let folded := cs.flatMap fold
  if folded.any isForbidden then none
  else ((splitLabels folded).mapM encodeLabel?).map (['.'].intercalate ·)

end SchemaAtlas.DomainName
