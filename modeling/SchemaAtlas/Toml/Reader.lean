import SchemaAtlas.Toml.Scalar
import SchemaAtlas.Toml.Table

/-!
# Reading settings files

A file is a sequence of lines: definitions of dotted names, headers that open tables,
comments and empty lines. Lists and tables may be nested in a line; only lists may run over
several lines. Each step consumes a character, so the length of the file bounds the steps.
-/

namespace SchemaAtlas.Toml

/-- Lists and tables are nested less deep than this, and names have fewer parts. -/
def depthLimit : Nat := 80

/-- The rest after a comment, if there is one. -/
def skipComment : List Char → List Char
  | '#' :: rest => rest.dropWhile isPlain
  | cs => cs

/-- The rest after the end of a line, before which a comment may stand. -/
def finishLine (cs : List Char) : Option (List Char) :=
  match skipComment (skipBlanks cs) with
  | [] => some []
  | cs => lineEnd? cs

/-- The rest after blanks, comments and line ends. -/
def skipLines : Nat → List Char → List Char
  | 0, cs => cs
  | steps + 1, cs =>
    let cs := skipComment (skipBlanks cs)
    match lineEnd? cs with
    | some rest => skipLines steps rest
    | none => cs

/-! ## Names -/

def isBareName (c : Char) : Bool := c.isAlphanum || c = '_' || c = '-'

def readSimpleName : List Char → Option (String × List Char)
  | '"' :: rest => readQuoted [] rest
  | '\'' :: rest => readLiteral rest
  | cs =>
    let name := cs.takeWhile isBareName
    if name.isEmpty then none else some (String.ofList name, cs.drop name.length)

/-- The parts of a dotted name, with the blanks around them. -/
def readNames : Nat → List Char → Option (List String × List Char)
  | 0, _ => none
  | steps + 1, cs => do
    let (name, cs) ← readSimpleName (skipBlanks cs)
    match skipBlanks cs with
    | '.' :: rest => (readNames steps rest).map fun (names, rest) => (name :: names, rest)
    | rest => some ([name], rest)

/-- A dotted name, split before its last part. -/
def readName (cs : List Char) : Option ((List String × String) × List Char) := do
  let (names, rest) ← readNames (depthLimit - 1) cs
  let last ← names.getLast?
  return ((names.dropLast, last), rest)

/-! ## Values -/

mutual

def readValue (steps depth : Nat) (cs : List Char) : Option (Setting × List Char) :=
  match steps with
  | 0 => none
  | steps + 1 =>
    match cs with
    | '"' :: _ | '\'' :: _ => (readText cs).map fun (s, rest) => (.text s, rest)
    | '[' :: rest =>
      match depth with
      | 0 => none
      | depth + 1 => (readElements steps depth rest).map fun (es, rest) => (.list es, rest)
    | '\x7b' :: rest =>
      match depth with
      | 0 => none
      | depth + 1 =>
        match skipBlanks rest with
        | '\x7d' :: rest => some (.table [], rest)
        | rest => (readPairs steps depth [] rest).map fun (items, rest) =>
          (.table (settings items), rest)
    | cs => readBare cs

def readElements (steps depth : Nat) (cs : List Char) : Option (List Setting × List Char) :=
  match steps with
  | 0 => none
  | steps + 1 =>
    match skipLines cs.length cs with
    | ']' :: rest => some ([], rest)
    | cs =>
      match readValue steps depth cs with
      | none => none
      | some (value, rest) =>
        match skipLines rest.length rest with
        | ']' :: rest => some ([value], rest)
        | ',' :: rest =>
          (readElements steps depth rest).map fun (es, rest) => (value :: es, rest)
        | _ => none

/-- The definitions of a table in a line, added to those before them. -/
def readPairs (steps depth : Nat) (items : Items) (cs : List Char) :
    Option (Items × List Char) :=
  match steps with
  | 0 => none
  | steps + 1 =>
    match readName cs with
    | some ((path, name), '=' :: rest) =>
      match readValue steps depth (skipBlanks rest) with
      | none => none
      | some (value, rest) =>
        match define path name value items, skipBlanks rest with
        | some items, '\x7d' :: rest => some (items, rest)
        | some items, ',' :: rest => readPairs steps depth items rest
        | _, _ => none
    | _ => none

end

/-! ## Files -/

/-- The rest of a header with its closing brackets. -/
def readHeader (closing : List Char) (cs : List Char) :
    Option ((List String × String) × List Char) := do
  let (name, rest) ← readName cs
  if closing.isPrefixOf rest then
    (finishLine (rest.drop closing.length)).map fun rest => (name, rest)
  else none

def readDefinition (cs : List Char) : Option ((List String × String) × Setting × List Char) :=
  match readName cs with
  | some (name, '=' :: rest) => do
    let (value, rest) ← readValue (2 * rest.length + 2) (depthLimit - 1) (skipBlanks rest)
    let rest ← finishLine rest
    return (name, value, rest)
  | _ => none

/-- Reads lines; `header` names the table that the last header opened. -/
def readLines : Nat → List String → Items → List Char → Option Items
  | 0, _, _, _ => none
  | steps + 1, header, items, cs =>
    match skipBlanks cs with
    | [] => some items
    | '[' :: '[' :: rest => do
      let ((path, name), rest) ← readHeader [']', ']'] rest
      readLines steps (path ++ [name]) (← addTable path name items) rest
    | '[' :: rest => do
      let ((path, name), rest) ← readHeader [']'] rest
      readLines steps (path ++ [name]) (← openTable path name items) rest
    | cs =>
      match finishLine cs with
      | some rest => readLines steps header items rest
      | none => do
        let ((path, name), value, rest) ← readDefinition cs
        readLines steps header (← defineUnder header path name value items) rest

/-- Reads a file. A mark of the byte order may stand at its start. -/
def read (text : String) : Option (List (String × Setting)) :=
  let cs := match text.toList with
    | '\uFEFF' :: rest => rest
    | cs => cs
  (readLines (cs.length + 1) [] [] cs).map settings

end SchemaAtlas.Toml
