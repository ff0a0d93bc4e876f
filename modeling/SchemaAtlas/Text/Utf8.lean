/-!
# UTF-8 text and its faults

Octets are decoded as a whole or not at all. When they are not text, the fault says
where the valid text before it ends and how many octets the broken sequence holds; a
sequence that only the end of the input cuts short has no length.
-/

namespace SchemaAtlas.Utf8

/-- Why a list of octets is not UTF-8 text. -/
structure Fault where
  validUpTo : Nat
  length : Option Nat
  deriving DecidableEq, Repr

def Fault.message (fault : Fault) : String :=
  match fault.length with
  | some n => s!"invalid utf-8 sequence of {n} bytes from index {fault.validUpTo}"
  | none => s!"incomplete utf-8 byte sequence from index {fault.validUpTo}"

def isTail (b : UInt8) : Bool := 0x80 ≤ b && b ≤ 0xBF

/-- The number of continuation octets after a first octet, with the range of the first of
them; `none` for an octet that starts no character. -/
def following (first : UInt8) : Option (Nat × UInt8 × UInt8) :=
  if first < 0x80 then some (0, 0, 0)
  else if first < 0xC2 then none
  else if first < 0xE0 then some (1, 0x80, 0xBF)
  else if first = 0xE0 then some (2, 0xA0, 0xBF)
  else if first = 0xED then some (2, 0x80, 0x9F)
  else if first < 0xF0 then some (2, 0x80, 0xBF)
  else if first = 0xF0 then some (3, 0x90, 0xBF)
  else if first < 0xF4 then some (3, 0x80, 0xBF)
  else if first = 0xF4 then some (3, 0x80, 0x8F)
  else none

/-- The first fault at or after octet `index`; `owed` counts the continuation octets that
the character begun at `start` still misses, and the next one lies between `low` and `high`. -/
def faultFrom (start index owed : Nat) (low high : UInt8) : List UInt8 → Fault
  | [] => ⟨start, none⟩
  | b :: rest =>
    match owed with
    | 0 =>
      match following b with
      | none => ⟨index, some 1⟩
      | some (n, low', high') => faultFrom index (index + 1) n low' high' rest
    | owed + 1 =>
      if low ≤ b && b ≤ high then faultFrom start (index + 1) owed 0x80 0xBF rest
      else ⟨start, some (index - start)⟩

/-- Decodes a list of octets as a whole. -/
def decode (octets : List UInt8) : Except Fault String :=
  match String.fromUTF8? ⟨octets.toArray⟩ with
  | some text => .ok text
  | none => .error (faultFrom 0 0 0 0 0 octets)

end SchemaAtlas.Utf8
