import SchemaAtlas.Json.Writer
import SchemaAtlas.Settings.Tree

/-!
# Writing settings files

A file has a header and a line for each field. A text stands between quotes if nothing in
it has to be escaped there. Otherwise the first of these forms is taken that shows it as it
is: apostrophes, three quotes, three apostrophes; controls are escaped between quotes. A
list of two or more elements has a line for each of them.
-/

namespace SchemaAtlas.Toml

/-- The length of the longest run of a character. -/
def longestRun (c : Char) (cs : List Char) : Nat :=
  (cs.foldl (fun (longest, current) d =>
    let current := if d = c then current + 1 else 0
    (max longest current, current)) (0, 0)).1

/-- Whether a character shows between quotes only as an escape; tabs and line feeds may be
escaped and need not be. -/
def needsEscape (c : Char) : Bool :=
  (c.toNat < 32 || c.toNat = 127) && c != '\t' && c != '\n'

def codeEscape (c : Char) : List Char :=
  '\\' :: 'u' :: '0' :: '0' :: (Json.hexadecimalByte c.toNat).map Char.toUpper

/-- The characters of a text between quotes. As many quotes in a row as `free` says and,
in a text of several lines, line feeds stand for themselves. -/
def escape (free : Nat) (long : Bool) (quotes : Nat) : List Char → List Char
  | [] => []
  | c :: rest =>
    let shown := match c with
      | '"' => if quotes < free then ['"'] else ['\\', '"']
      | '\\' => ['\\', '\\']
      | '\x08' => ['\\', 'b']
      | '\t' => ['\\', 't']
      | '\n' => if long then ['\n'] else ['\\', 'n']
      | '\x0c' => ['\\', 'f']
      | '\r' => ['\\', 'r']
      | c => if needsEscape c then codeEscape c else [c]
    shown ++ escape free long (if c = '"' && quotes < free then quotes + 1 else 0) rest

def quoted (cs : List Char) : List Char := '"' :: escape 0 false 0 cs ++ ['"']

def literal (cs : List Char) : List Char := '\'' :: cs ++ ['\'']

/-- A delimiter three times on either side, with a line end first if the text has one. -/
def long (delimiter : Char) (cs shown : List Char) : List Char :=
  let edge := List.replicate 3 delimiter
  edge ++ (if cs.contains '\n' then ['\n'] else []) ++ shown ++ edge

def longQuoted (cs : List Char) : List Char := long '"' cs (escape 2 true 0 cs)

def textForm (s : String) : String :=
  let cs := s.toList
  let hasLines := cs.contains '\n'
  let escapes := cs.any needsEscape
  let quotes := longestRun '"' cs
  let apostrophes := longestRun '\'' cs
  String.ofList <|
    if !escapes && !cs.contains '\\' && quotes = 0 && !hasLines then quoted cs
    else if !escapes && apostrophes = 0 && !hasLines then literal cs
    else if !escapes && !cs.contains '\\' && quotes ≤ 2 then longQuoted cs
    else if !escapes && apostrophes ≤ 2 then long '\'' cs cs
    else if hasLines then longQuoted cs
    else quoted cs

def listForm : List String → String
  | [] => "[]"
  | [element] => "[" ++ element ++ "]"
  | elements => "[\n" ++ String.join (elements.map fun e => "    " ++ e ++ ",\n") ++ "]"

def textForm? : Setting → Option String
  | .text s => some (textForm s)
  | _ => none

/-- The form of a flag, a number, a text or a list of texts; `none` for all else and for
numbers that a file cannot hold. -/
def form? : Setting → Option String
  | .boolean b => some (toString b)
  | .integer i => if -(Nat.pow 2 63 : Int) ≤ i && i < Nat.pow 2 63 then some (toString i) else none
  | .text s => some (textForm s)
  | .list elements => (elements.mapM textForm?).map listForm
  | _ => none

/-- The line of a field; one that is absent has none. -/
def line? (name : String) : Setting → Option String
  | .absent => some ""
  | value => (form? value).map fun form => name ++ " = " ++ form ++ "\n"

/-- A header and its fields. -/
def section? (name : String) (fields : List (String × Setting)) : Option String :=
  (fields.mapM fun (field, value) => line? field value).map fun lines =>
    "[" ++ name ++ "]\n" ++ String.join lines

/-- The sections, with an empty line between them. -/
def write? (sections : List (String × List (String × Setting))) : Option String :=
  (sections.mapM fun (name, fields) => section? name fields).map ("\n".intercalate ·)

end SchemaAtlas.Toml
