import SchemaAtlas.Json.Numeral

/-!
# Reading JSON text

Every reader takes the characters from where it stands and gives its result with the
characters it leaves. A text is one value with blanks around it. Each step consumes a
character, so the length of the text bounds the steps; the depth bounds how many arrays
and objects may be open at once.
-/

namespace SchemaAtlas.Json

/-- The greatest number of open arrays and objects. -/
def depthLimit : Nat := 127

def isBlank (c : Char) : Bool := c = ' ' || c = '\n' || c = '\t' || c = '\r'

def skipBlanks (cs : List Char) : List Char := cs.dropWhile isBlank

def hexadecimal? (c : Char) : Option Nat :=
  if '0' ≤ c ∧ c ≤ '9' then some (c.toNat - 48)
  else if 'a' ≤ c ∧ c ≤ 'f' then some (c.toNat - 87)
  else if 'A' ≤ c ∧ c ≤ 'F' then some (c.toNat - 55)
  else none

def codeUnit? (a b c d : Char) : Option Nat := do
  let w ← hexadecimal? a
  let x ← hexadecimal? b
  let y ← hexadecimal? c
  let z ← hexadecimal? d
  return ((w * 16 + x) * 16 + y) * 16 + z

def shortEscape? : Char → Option Char
  | '"' => some '"'
  | '\\' => some '\\'
  | '/' => some '/'
  | 'b' => some '\x08'
  | 'f' => some '\x0c'
  | 'n' => some '\n'
  | 'r' => some '\r'
  | 't' => some '\t'
  | _ => none

/-- The rest of a string after its opening quote; `read` holds what came before, reversed.
A character outside the first plane is escaped as a pair of surrogates. -/
def readString (read : List Char) : List Char → Option (String × List Char)
  | '"' :: rest => some (String.ofList read.reverse, rest)
  | '\\' :: 'u' :: a :: b :: c :: d :: rest =>
    match codeUnit? a b c d with
    | none => none
    | some unit =>
      if 0xD800 ≤ unit ∧ unit < 0xDC00 then
        match rest with
        | '\\' :: 'u' :: e :: f :: g :: h :: rest =>
          match codeUnit? e f g h with
          | none => none
          | some low =>
            if 0xDC00 ≤ low ∧ low < 0xE000 then
              let code := 0x10000 + (unit - 0xD800) * 0x400 + (low - 0xDC00)
              readString (Char.ofNat code :: read) rest
            else none
        | _ => none
      else if 0xDC00 ≤ unit ∧ unit < 0xE000 then none
      else readString (Char.ofNat unit :: read) rest
  | '\\' :: c :: rest =>
    match shortEscape? c with
    | some e => readString (e :: read) rest
    | none => none
  | c :: rest => if c.toNat < 32 ∨ c = '\\' then none else readString (c :: read) rest
  | [] => none

def digits (cs : List Char) : List Nat × List Char :=
  ((cs.takeWhile Char.isDigit).map fun c => c.toNat - 48, cs.dropWhile Char.isDigit)

/-- The digits before the point: a zero alone, or digits that start with none. -/
def readWhole (cs : List Char) : Option (List Nat × List Char) :=
  match digits cs with
  | ([], _) => none
  | (0 :: _ :: _, _) => none
  | found => some found

def readFraction (cs : List Char) : Option (Option (List Nat) × List Char) :=
  match cs with
  | '.' :: rest =>
    match digits rest with
    | ([], _) => none
    | (found, rest) => some (some found, rest)
  | _ => some (none, cs)

/-- The digits of an exponent. One that does not fit 32 bits is as good as infinite. -/
def readMagnitude (negative : Bool) (cs : List Char) : Option (Option Int × List Char) :=
  match digits cs with
  | ([], _) => none
  | (found, rest) =>
    let n : Nat := found.foldl (fun n d => 10 * n + d) 0
    some (some (if negative then -(n : Int) else n), rest)

def readExponent (cs : List Char) : Option (Option Int × List Char) :=
  match cs with
  | c :: rest =>
    if c = 'e' ∨ c = 'E' then
      match rest with
      | '+' :: rest => readMagnitude false rest
      | '-' :: rest => readMagnitude true rest
      | _ => readMagnitude false rest
    else some (none, cs)
  | [] => some (none, cs)

def readNumber (cs : List Char) : Option (Json × List Char) := do
  let (negative, cs) := match cs with
    | '-' :: rest => (true, rest)
    | _ => (false, cs)
  let (whole, cs) ← readWhole cs
  let (fraction, cs) ← readFraction cs
  let (exponent, cs) ← readExponent cs
  let value ← Numeral.value? ⟨negative, whole, fraction, exponent⟩
  return (.number value, cs)

mutual

def readValue (steps depth : Nat) (cs : List Char) : Option (Json × List Char) :=
  match steps with
  | 0 => none
  | steps + 1 =>
    match skipBlanks cs with
    | 'n' :: 'u' :: 'l' :: 'l' :: rest => some (.null, rest)
    | 't' :: 'r' :: 'u' :: 'e' :: rest => some (.bool true, rest)
    | 'f' :: 'a' :: 'l' :: 's' :: 'e' :: rest => some (.bool false, rest)
    | '"' :: rest => (readString [] rest).map fun (s, rest) => (.string s, rest)
    | '[' :: rest =>
      match depth with
      | 0 => none
      | depth + 1 =>
        match skipBlanks rest with
        | ']' :: rest => some (.array [], rest)
        | rest => (readElements steps depth rest).map fun (es, rest) => (.array es, rest)
    | '\x7b' :: rest =>
      match depth with
      | 0 => none
      | depth + 1 =>
        match skipBlanks rest with
        | '\x7d' :: rest => some (.object [], rest)
        | rest => (readMembers steps depth rest).map fun (ms, rest) => (.ofMembers ms, rest)
    | rest => readNumber rest

def readElements (steps depth : Nat) (cs : List Char) : Option (List Json × List Char) :=
  match steps with
  | 0 => none
  | steps + 1 =>
    match readValue steps depth cs with
    | none => none
    | some (value, rest) =>
      match skipBlanks rest with
      | ']' :: rest => some ([value], rest)
      | ',' :: rest => (readElements steps depth rest).map fun (es, rest) => (value :: es, rest)
      | _ => none

def readMembers (steps depth : Nat) (cs : List Char) :
    Option (List (String × Json) × List Char) :=
  match steps with
  | 0 => none
  | steps + 1 =>
    match skipBlanks cs with
    | '"' :: rest =>
      match readString [] rest with
      | none => none
      | some (key, rest) =>
        match skipBlanks rest with
        | ':' :: rest =>
          match readValue steps depth rest with
          | none => none
          | some (value, rest) =>
            match skipBlanks rest with
            | '\x7d' :: rest => some ([(key, value)], rest)
            | ',' :: rest =>
              (readMembers steps depth rest).map fun (ms, rest) => ((key, value) :: ms, rest)
            | _ => none
        | _ => none
    | _ => none

end

/-- Reads a text whose arrays and objects are nested at most `depth` levels. -/
def readWithin (depth : Nat) (text : String) : Option Json :=
  let cs := text.toList
  match readValue (2 * cs.length + 2) depth cs with
  | some (value, rest) => if (skipBlanks rest).isEmpty then some value else none
  | none => none

def read (text : String) : Option Json := readWithin depthLimit text

end SchemaAtlas.Json
