import SchemaAtlas.Draft
import SchemaAtlas.Pattern.Category

/-!
# Regular expressions

A pattern is supported if it can be read without looking around or back: alternatives of
sequences of repeated atoms, with groups, flags, classes of characters and assertions. The
reader measures what it reads, since neither the nesting of a pattern nor the number of
states that its repetitions unfold to may grow without bound.
-/

namespace SchemaAtlas.Pattern

/-- How many states a part of a pattern unfolds to, and how deep it is nested. -/
structure Measure where
  states : Nat
  depth : Nat
  deriving DecidableEq, Repr, Inhabited

/-- The greatest number of states. -/
def stateLimit : Nat := 327680

/-- The greatest nesting. -/
def depthLimit : Nat := 250

/-- Parts side by side; a lone part is not nested any deeper. -/
def Measure.combine (parts : List Measure) : Measure :=
  { states := parts.foldl (fun states part => states + part.states) 0
    depth := (parts.map Measure.depth).foldl max 0 + if parts.length ≤ 1 then 0 else 1 }

/-! ## Blanks

In the extended form blanks and comments count for nothing. -/

mutual

def skipBlanks : List Char → List Char
  | [] => []
  | c :: rest =>
    if Draft.isBlank c then skipBlanks rest
    else if c = '#' then skipComment rest
    else c :: rest

def skipComment : List Char → List Char
  | [] => []
  | c :: rest => if c = '\n' then skipBlanks rest else skipComment rest

end

/-- Drops blanks and comments in the extended form. -/
def skip (extended : Bool) (cs : List Char) : List Char :=
  if extended then skipBlanks cs else cs

/-! ## Atoms -/

/-- What a single character or an escape stands for. -/
inductive Atom where
  | literal (c : Char)
  | category (states : Nat)
  | assertion
  deriving Inhabited

/-- States for a category of characters of every script. -/
def wordStates : Nat := 1400

def Atom.measure : Atom → Measure
  | .literal c => ⟨c.utf8Size, 0⟩
  | .category states => ⟨states, 0⟩
  | .assertion => ⟨1, 0⟩

def isMeta (c : Char) : Bool := "\\.+*?()|[]\x7b\x7d^$#&-~".toList.contains c

/-- Characters that may be escaped to stand for themselves. -/
def isEscapable (c : Char) : Bool :=
  isMeta c || (c.toNat < 128 && !c.isAlphanum && c ≠ '<' && c ≠ '>')

def hexValue? (digits : List Char) : Option Nat :=
  digits.foldlM (fun n c =>
    let d := c.toNat
    if c.isDigit then some (16 * n + (d - 48))
    else if 'a' ≤ c ∧ c ≤ 'f' then some (16 * n + (d - 87))
    else if 'A' ≤ c ∧ c ≤ 'F' then some (16 * n + (d - 55))
    else none) 0

/-- The character of a code point. -/
def codePoint? (n : Nat) : Option Char :=
  if n < 0xD800 || (0xDFFF < n && n < 0x110000) then some (Char.ofNat n) else none

/-- The characters up to a closing brace, blanks dropped, and what follows it. -/
def untilBrace (extended : Bool) (fuel : Nat) (cs : List Char) : Option (List Char × List Char) :=
  match fuel, skip extended cs with
  | 0, _ | _, [] => none
  | fuel + 1, c :: rest =>
    if c = '\x7d' then some ([], rest)
    else (untilBrace extended fuel rest).map fun (text, rest) => (c :: text, rest)

/-- A number of hexadecimal digits, blanks between them dropped. -/
def hexDigits (extended : Bool) : Nat → List Char → Option (List Char × List Char)
  | 0, cs => some ([], cs)
  | n + 1, cs =>
    match skip extended cs with
    | [] => none
    | c :: rest => (hexDigits extended n rest).map fun (digits, rest) => (c :: digits, rest)

/-- A code point in hexadecimal, of so many digits or between braces. -/
def readHex (extended : Bool) (digits : Nat) (cs : List Char) : Option (Atom × List Char) := do
  let (text, rest) ← match skip extended cs with
    | '\x7b' :: rest => untilBrace extended rest.length rest
    | cs => hexDigits extended digits cs
  if text.isEmpty then none
  let c ← (hexValue? text).bind codePoint?
  some (.literal c, skip extended rest)

/-- A category by its letter or its name between braces. -/
def readCategory (extended : Bool) (cs : List Char) : Option (Atom × List Char) :=
  match skip extended cs with
  | [] => none
  | '\x7b' :: rest =>
    match untilBrace extended rest.length rest with
    | some (text, rest) => if isCategoryText text then some (.category wordStates, rest) else none
    | none => none
  | c :: rest =>
    if isCategory [c] then some (.category wordStates, skip extended rest) else none

/-- The kinds of word boundaries that are named between braces. -/
def boundaries : List String := ["start", "end", "start-half", "end-half"]

/-- A word boundary, perhaps of a named kind. -/
def readBoundary (extended : Bool) (cs : List Char) : Option (Atom × List Char) :=
  let isNameChar (c : Char) : Bool := c.isAlpha || c = '-'
  match cs with
  | '\x7b' :: rest =>
    match skip extended rest with
    | [] => none
    | c :: more =>
      if isNameChar c then
        match untilBrace extended (more.length + 1) (c :: more) with
        | some (text, rest) =>
          if boundaries.contains (String.ofList text) then some (.assertion, rest) else none
        | none => none
      else some (.assertion, cs)
  | cs => some (.assertion, cs)

/-- What follows a backslash. -/
def readEscape (extended : Bool) : List Char → Option (Atom × List Char)
  | [] => none
  | c :: rest =>
    match c with
    | 'x' => readHex extended 2 rest
    | 'u' => readHex extended 4 rest
    | 'U' => readHex extended 8 rest
    | 'p' | 'P' => readCategory extended rest
    | 'd' | 'D' => some (.category 400, rest)
    | 's' | 'S' => some (.category 40, rest)
    | 'w' | 'W' => some (.category wordStates, rest)
    | 'a' => some (.literal '\x07', rest)
    | 'f' => some (.literal '\x0c', rest)
    | 't' => some (.literal '\t', rest)
    | 'n' => some (.literal '\n', rest)
    | 'r' => some (.literal '\r', rest)
    | 'v' => some (.literal '\x0b', rest)
    | 'A' | 'z' | 'B' | '<' | '>' => some (.assertion, rest)
    | 'b' => readBoundary extended rest
    | c => if isEscapable c then some (.literal c, rest) else none

/-! ## Classes -/

/-- A named class of ASCII characters, such as `[:alpha:]`; what follows it. -/
def asciiClass? : List Char → Option (List Char)
  | '[' :: ':' :: rest =>
    let named := match rest with
      | '^' :: rest => rest
      | rest => rest
    let name := named.takeWhile (· ≠ ':')
    match named.drop name.length with
    | ':' :: ']' :: rest =>
      if asciiClasses.contains (String.ofList name) then some rest else none
    | _ => none
  | _ => none

/-- Dashes at the start of a class stand for themselves; whether there were any. -/
def leadingDashes (extended : Bool) (fuel : Nat) (cs : List Char) : Option (Bool × List Char) :=
  match fuel, cs with
  | 0, _ | _, [] => none
  | fuel + 1, '-' :: rest => (leadingDashes extended fuel (skip extended rest)).map fun r => (true, r.2)
  | _, cs => some (false, cs)

/-- The start of a class, from behind its bracket: a negation, dashes, and a closing bracket
that stands for itself. -/
def openClass (extended : Bool) (cs : List Char) : Option (List Char) :=
  let afterSign := match skip extended cs with
    | '^' :: rest => skip extended rest
    | cs => cs
  match leadingDashes extended (afterSign.length + 1) afterSign with
  | none => none
  | some (false, ']' :: rest) =>
    match skip extended rest with
    | [] => none
    | rest => some rest
  | some (_, rest) => some rest

/-- One character or escape of a class. -/
def readClassAtom (extended : Bool) : List Char → Option (Atom × List Char)
  | [] => none
  | '\\' :: rest => readEscape extended rest
  | c :: rest => some (.literal c, rest)

/-- A character of a class, or the range that it begins. -/
def readRange (extended : Bool) (cs : List Char) : Option (List Char) := do
  let (first, rest) ← readClassAtom extended cs
  let single : Option (List Char) := match first with
    | .assertion => none
    | _ => some rest
  match skip extended rest with
  | [] => none
  | '-' :: more =>
    match skip extended more with
    | [] => none
    | ']' :: _ | '-' :: _ => single
    | more =>
      let (last, rest) ← readClassAtom extended more
      match first, last with
      | .literal a, .literal b => if a ≤ b then some rest else none
      | _, _ => none
  | _ => single

/-- The rest of a class, to behind its closing bracket, and how deep classes nest in it. -/
def readClass (extended : Bool) (fuel : Nat) (cs : List Char) : Option (Nat × List Char) :=
  match fuel with
  | 0 => none
  | fuel + 1 =>
    match skip extended cs with
    | [] => none
    | ']' :: rest => some (1, rest)
    | '&' :: '&' :: rest | '-' :: '-' :: rest | '~' :: '~' :: rest => readClass extended fuel rest
    | '[' :: rest =>
      match asciiClass? ('[' :: rest) with
      | some rest => readClass extended fuel rest
      | none => do
        let inner ← openClass extended rest
        let (nested, rest) ← readClass extended fuel inner
        let (depth, rest) ← readClass extended fuel rest
        some (max depth (nested + 1), rest)
    | cs => (readRange extended cs).bind (readClass extended fuel)

/-! ## Flags and names -/

def flags : List Char := ['i', 'm', 's', 'U', 'u', 'R', 'x']

/-- Reads flags up to the colon or parenthesis behind them. No flag may be written twice,
and a minus sign needs a flag behind it. -/
def readFlags (seen : List Char) (afterMinus : Bool) : List Char → Option (List Char × List Char)
  | [] => none
  | c :: rest =>
    if c = ':' || c = ')' then
      if afterMinus then none else some (seen.reverse, c :: rest)
    else if seen.contains c || !(c = '-' || flags.contains c) then none
    else readFlags (c :: seen) (c = '-') rest

/-- The form after flags: extended if they switch it on, not if they switch it off. -/
def extendedAfter (extended : Bool) (flags : List Char) : Bool :=
  if flags.contains 'x' then !(flags.takeWhile (· ≠ 'x')).contains '-' else extended

/-- A name of a group up to the angle behind it: letters, digits and a few signs. -/
def readName (cs : List Char) : Option (String × List Char) :=
  let isLetter (c : Char) : Bool := c.isAlpha || c = '_' || 128 ≤ c.toNat
  let name := cs.takeWhile (· ≠ '>')
  match name, cs.drop name.length with
  | first :: others, '>' :: rest =>
    if isLetter first && others.all (fun c => isLetter c || c.isDigit || c = '.' || c = '[' || c = ']')
    then some (String.ofList name, rest)
    else none
  | _, _ => none

/-! ## Repetitions -/

/-- A decimal number of 32 bits, with blanks around it. -/
def readCount (extended : Bool) (cs : List Char) : Option (Option Nat × List Char) :=
  let start := cs.dropWhile Draft.isBlank
  let (digits, rest) := go extended start.length start
  let rest := skip extended (rest.dropWhile Draft.isBlank)
  if digits.isEmpty then some (none, rest)
  else
    let n := digits.foldl (fun n c => 10 * n + (c.toNat - 48)) 0
    if n < Nat.pow 2 32 then some (some n, rest) else none
where
  go (extended : Bool) : Nat → List Char → List Char × List Char
    | 0, cs => ([], cs)
    | fuel + 1, cs =>
      match cs with
      | c :: rest =>
        if c.isDigit then
          let (digits, rest) := go extended fuel (skip extended rest)
          (c :: digits, rest)
        else ([], cs)
      | [] => ([], [])

/-- The bounds of a repetition, from behind the opening brace to behind the closing one. -/
def readBounds (extended : Bool) (cs : List Char) : Option ((Nat × Option Nat) × List Char) := do
  let (first, rest) ← readCount extended (skip extended cs)
  let least ← first
  match rest with
  | '\x7d' :: rest => some ((least, some least), rest)
  | ',' :: rest =>
    match skip extended rest with
    | '\x7d' :: rest => some ((least, none), rest)
    | rest =>
      let (second, rest) ← readCount extended rest
      let most ← second
      match rest with
      | '\x7d' :: rest => if least ≤ most then some ((least, some most), rest) else none
      | _ => none
  | _ => none

def dropLazySign : List Char → List Char
  | '?' :: rest => rest
  | cs => cs

/-- A repeated part. -/
def Measure.repeated (m : Measure) (least : Nat) (most : Option Nat) : Measure :=
  { states := match most with
      | some most => most * (m.states + 1)
      | none => max 1 least * m.states + 1
    depth := m.depth + 1 }

/-! ## The whole -/

/-- The parts read so far inside one pair of parentheses, the newest first; `none` stands for
a change of flags, which cannot be repeated. -/
structure Progress where
  extended : Bool
  names : List String
  parts : List (Option Measure)
  branches : List Measure
  deriving Inhabited

namespace Progress

def add (p : Progress) (part : Measure) : Progress := { p with parts := some part :: p.parts }

def branchMeasure (p : Progress) : Measure := .combine (p.parts.map fun m => m.getD ⟨0, 0⟩)

def nextBranch (p : Progress) : Progress :=
  { p with parts := [], branches := p.branchMeasure :: p.branches }

def measure (p : Progress) : Measure := .combine (p.branchMeasure :: p.branches)

/-- Repeats the newest part. -/
def repeatLast (p : Progress) (least : Nat) (most : Option Nat) : Option Progress :=
  match p.parts with
  | some part :: parts => some { p with parts := some (part.repeated least most) :: parts }
  | _ => none

end Progress

/-- What an opening parenthesis begins. -/
inductive Opening where
  | group (extended : Bool) (names : List String)
  | flags (extended : Bool)

/-- Reads what follows an opening parenthesis. -/
def readOpening (extended : Bool) (names : List String) (cs : List Char) :
    Option (Opening × List Char) :=
  let named (cs : List Char) : Option (Opening × List Char) := do
    let (name, rest) ← readName cs
    if names.contains name then none else some (.group extended (name :: names), rest)
  match cs with
  | '?' :: '=' :: _ | '?' :: '!' :: _ | '?' :: '<' :: '=' :: _ | '?' :: '<' :: '!' :: _ => none
  | '?' :: 'P' :: '<' :: rest | '?' :: '<' :: rest => named rest
  | '?' :: rest => do
    let (set, rest) ← readFlags [] false rest
    match rest with
    | ':' :: rest => some (.group (extendedAfter extended set) names, rest)
    | ')' :: rest => if set.isEmpty then none else some (.flags (extendedAfter extended set), rest)
    | _ => none
  | cs => some (.group extended names, cs)

/-- Reads parts up to the end, or to the parenthesis that closes the group. -/
def readParts (fuel : Nat) (p : Progress) (cs : List Char) : Option (Progress × List Char) :=
  match fuel with
  | 0 => none
  | fuel + 1 =>
    match skip p.extended cs with
    | [] => some (p, [])
    | ')' :: rest => some (p, ')' :: rest)
    | '|' :: rest => readParts fuel p.nextBranch rest
    | '?' :: rest => do
      readParts fuel (← p.repeatLast 0 (some 1)) (dropLazySign rest)
    | '*' :: rest => do
      readParts fuel (← p.repeatLast 0 none) (dropLazySign rest)
    | '+' :: rest => do
      readParts fuel (← p.repeatLast 1 none) (dropLazySign rest)
    | '\x7b' :: rest => do
      let ((least, most), rest) ← readBounds p.extended rest
      readParts fuel (← p.repeatLast least most) (dropLazySign (skip p.extended rest))
    | '[' :: rest => do
      let inner ← openClass p.extended rest
      let (depth, rest) ← readClass p.extended inner.length inner
      readParts fuel (p.add ⟨12, depth⟩) rest
    | '(' :: rest => do
      match ← readOpening p.extended p.names (skip p.extended rest) with
      | (.flags extended, rest) =>
        readParts fuel { p with extended, parts := none :: p.parts } rest
      | (.group extended names, rest) =>
        let (q, rest) ← readParts fuel { extended, names, parts := [], branches := [] } rest
        match rest with
        | ')' :: rest =>
          let m := q.measure
          readParts fuel ({ p with names := q.names }.add ⟨m.states + 2, m.depth + 1⟩) rest
        | _ => none
    | '\\' :: rest => do
      let (atom, rest) ← readEscape p.extended rest
      readParts fuel (p.add atom.measure) rest
    | '.' :: rest => readParts fuel (p.add ⟨12, 0⟩) rest
    | '^' :: rest | '$' :: rest => readParts fuel (p.add ⟨1, 0⟩) rest
    | c :: rest => readParts fuel (p.add (Atom.literal c).measure) rest

/-- Whether a text is a regular expression without looking around or back. -/
def isSupported (text : String) : Bool :=
  let cs := text.toList
  match readParts (cs.length + 1) { extended := false, names := [], parts := [], branches := [] } cs with
  | some (p, []) => p.measure.states ≤ stateLimit && p.measure.depth ≤ depthLimit
  | _ => false

end SchemaAtlas.Pattern
