import SchemaAtlas.Json.Numeral

/-!
# Writing JSON text

The compact form has no blanks and is the one that checksums and messages use. The
indented form puts every element and member on a line of its own, two blanks deeper than
the line of its bracket; empty arrays and objects stay on one line.
-/

namespace SchemaAtlas.Json

def hexadecimalByte (n : Nat) : List Char :=
  let digit (d : Nat) : Char := if d < 10 then Char.ofNat (48 + d) else Char.ofNat (87 + d)
  [digit (n / 16), digit (n % 16)]

/-- Quotes, backslashes and controls are escaped, nothing else. -/
def escapeChar (c : Char) : List Char :=
  match c with
  | '"' => ['\\', '"']
  | '\\' => ['\\', '\\']
  | '\x08' => ['\\', 'b']
  | '\x0c' => ['\\', 'f']
  | '\n' => ['\\', 'n']
  | '\r' => ['\\', 'r']
  | '\t' => ['\\', 't']
  | c => if c.toNat < 32 then ['\\', 'u', '0', '0'] ++ hexadecimalByte c.toNat else [c]

def stringText (s : String) : String :=
  "\"" ++ String.ofList (s.toList.flatMap escapeChar) ++ "\""

mutual

/-- The compact text of a value. -/
def text : Json → String
  | .null => "null"
  | .bool b => toString b
  | .number n => n.text
  | .string s => stringText s
  | .array elements => "[" ++ ",".intercalate (elementTexts elements) ++ "]"
  | .object members => "\x7b" ++ ",".intercalate (memberTexts members) ++ "\x7d"

def elementTexts : List Json → List String
  | [] => []
  | e :: rest => e.text :: elementTexts rest

def memberTexts : List (String × Json) → List String
  | [] => []
  | (key, value) :: rest => (stringText key ++ ":" ++ value.text) :: memberTexts rest

end

instance : ToString Json := ⟨text⟩

def margin (level : Nat) : String := String.ofList ('\n' :: List.replicate (2 * level) ' ')

mutual

def indentedAt (level : Nat) : Json → String
  | .array (e :: rest) =>
    "[" ++ ",".intercalate (indentedElements (level + 1) (e :: rest)) ++ margin level ++ "]"
  | .object (m :: rest) =>
    "\x7b" ++ ",".intercalate (indentedMembers (level + 1) (m :: rest)) ++ margin level ++ "\x7d"
  | .array [] => "[]"
  | .object [] => "\x7b\x7d"
  | .null => "null"
  | .bool b => toString b
  | .number n => n.text
  | .string s => stringText s

def indentedElements (level : Nat) : List Json → List String
  | [] => []
  | e :: rest => (margin level ++ indentedAt level e) :: indentedElements level rest

def indentedMembers (level : Nat) : List (String × Json) → List String
  | [] => []
  | (key, value) :: rest =>
    (margin level ++ stringText key ++ ": " ++ indentedAt level value) ::
      indentedMembers level rest

end

/-- The indented text of a value. -/
def indented (value : Json) : String := indentedAt 0 value

end SchemaAtlas.Json
