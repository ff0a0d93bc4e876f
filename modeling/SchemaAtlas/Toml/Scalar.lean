import SchemaAtlas.Json.Reader
import SchemaAtlas.Settings.Tree
import SchemaAtlas.Toml.Date

/-!
# Texts and numbers of settings files

Texts stand between two quotes or two apostrophes, single for one line and threefold for
several. Quotes allow escapes, apostrophes none. In a text of several lines a line feed
right behind the opening is dropped, and an escaped line end takes all blanks behind it
along. Numbers may have underscores between digits.
-/

namespace SchemaAtlas.Toml

def isBlank (c : Char) : Bool := c = ' ' || c = '\t'

def skipBlanks (cs : List Char) : List Char := cs.dropWhile isBlank

/-- The characters that stand for themselves: no controls but tabs. -/
def isPlain (c : Char) : Bool := c = '\t' || (32 ≤ c.toNat && c.toNat != 127)

/-- The rest after a line end, if there is one. -/
def lineEnd? : List Char → Option (List Char)
  | '\n' :: rest => some rest
  | '\r' :: '\n' :: rest => some rest
  | _ => none

def shortEscape? : Char → Option Char
  | '"' => some '"'
  | '\\' => some '\\'
  | 'b' => some '\x08'
  | 'f' => some '\x0c'
  | 'n' => some '\n'
  | 'r' => some '\r'
  | 't' => some '\t'
  | _ => none

/-- A character from its number; surrogates are none. -/
def charOfCode? (n : Nat) : Option Char := if n.isValidChar then some (Char.ofNat n) else none

def charOfShortCode? (a b c d : Char) : Option Char := (Json.codeUnit? a b c d).bind charOfCode?

def charOfLongCode? (a b c d e f g h : Char) : Option Char := do
  let high ← Json.codeUnit? a b c d
  let low ← Json.codeUnit? e f g h
  charOfCode? (high * 0x10000 + low)

/-- The rest of a text of one line after its opening quote. -/
def readQuoted (read : List Char) : List Char → Option (String × List Char)
  | '"' :: rest => some (String.ofList read.reverse, rest)
  | '\\' :: 'u' :: a :: b :: c :: d :: rest =>
    match charOfShortCode? a b c d with
    | some x => readQuoted (x :: read) rest
    | none => none
  | '\\' :: 'U' :: a :: b :: c :: d :: e :: f :: g :: h :: rest =>
    match charOfLongCode? a b c d e f g h with
    | some x => readQuoted (x :: read) rest
    | none => none
  | '\\' :: c :: rest =>
    match shortEscape? c with
    | some e => readQuoted (e :: read) rest
    | none => none
  | c :: rest => if isPlain c && c != '\\' then readQuoted (c :: read) rest else none
  | [] => none

/-- The rest of a text of several lines after its opening quotes; `skipping` drops blanks
and line ends up to the next other character. -/
def readLongQuoted (skipping : Bool) (read : List Char) :
    List Char → Option (String × List Char)
  | '"' :: '"' :: '"' :: '"' :: '"' :: rest =>
    some (String.ofList ('"' :: '"' :: read).reverse, rest)
  | '"' :: '"' :: '"' :: '"' :: rest => some (String.ofList ('"' :: read).reverse, rest)
  | '"' :: '"' :: '"' :: rest => some (String.ofList read.reverse, rest)
  | '\r' :: '\n' :: rest => readLongQuoted skipping (if skipping then read else '\n' :: read) rest
  | '\n' :: rest => readLongQuoted skipping (if skipping then read else '\n' :: read) rest
  | '\\' :: 'u' :: a :: b :: c :: d :: rest =>
    match charOfShortCode? a b c d with
    | some x => readLongQuoted false (x :: read) rest
    | none => none
  | '\\' :: 'U' :: a :: b :: c :: d :: e :: f :: g :: h :: rest =>
    match charOfLongCode? a b c d e f g h with
    | some x => readLongQuoted false (x :: read) rest
    | none => none
  | '\\' :: c :: rest =>
    match shortEscape? c with
    | some e => readLongQuoted false (e :: read) rest
    | none =>
      if (lineEnd? (skipBlanks (c :: rest))).isSome then readLongQuoted true read rest else none
  | c :: rest =>
    if skipping && isBlank c then readLongQuoted true read rest
    else if isPlain c && c != '\\' then readLongQuoted false (c :: read) rest
    else none
  | [] => none

/-- The rest of a text of one line after its opening apostrophe. -/
def readLiteral (cs : List Char) : Option (String × List Char) :=
  let inner := cs.takeWhile fun c => isPlain c && c != '\''
  match cs.drop inner.length with
  | '\'' :: rest => some (String.ofList inner, rest)
  | _ => none

/-- The rest of a text of several lines after its opening apostrophes. -/
def readLongLiteral (read : List Char) : List Char → Option (String × List Char)
  | '\'' :: '\'' :: '\'' :: '\'' :: '\'' :: rest =>
    some (String.ofList ('\'' :: '\'' :: read).reverse, rest)
  | '\'' :: '\'' :: '\'' :: '\'' :: rest => some (String.ofList ('\'' :: read).reverse, rest)
  | '\'' :: '\'' :: '\'' :: rest => some (String.ofList read.reverse, rest)
  | '\r' :: '\n' :: rest => readLongLiteral ('\n' :: read) rest
  | '\n' :: rest => readLongLiteral ('\n' :: read) rest
  | c :: rest => if isPlain c then readLongLiteral (c :: read) rest else none
  | [] => none

/-- A line end right behind the opening of a text of several lines is not part of it. -/
def dropLineEnd (cs : List Char) : List Char := (lineEnd? cs).getD cs

/-- A text in any of its four forms. -/
def readText : List Char → Option (String × List Char)
  | '"' :: '"' :: '"' :: rest => readLongQuoted false [] (dropLineEnd rest)
  | '"' :: rest => readQuoted [] rest
  | '\'' :: '\'' :: '\'' :: rest => readLongLiteral [] (dropLineEnd rest)
  | '\'' :: rest => readLiteral rest
  | _ => none

/-! ## Numbers -/

/-- Digits without the underscores between them. -/
def ungroup (isDigit : Char → Bool) : List Char → Option (List Char)
  | [] => none
  | [c] => if isDigit c then some [c] else none
  | c :: '_' :: rest => if isDigit c then (ungroup isDigit rest).map (c :: ·) else none
  | c :: rest => if isDigit c then (ungroup isDigit rest).map (c :: ·) else none

/-- The digits of a whole number, which has no zero in front of others. -/
def wholeDigits (cs : List Char) : Option (List Char) :=
  match ungroup Char.isDigit cs with
  | some ('0' :: _ :: _) => none
  | found => found

def integerOfInt? (i : Int) : Option Setting :=
  if -(Nat.pow 2 63 : Int) ≤ i && i < Nat.pow 2 63 then some (.integer i) else none

/-- The value of digits in a base. -/
def valueIn (base : Nat) (digits : List Char) : Nat :=
  digits.foldl (fun n c => base * n + (Json.hexadecimal? c).getD 0) 0

def integerIn? (base : Nat) (cs : List Char) : Option Setting :=
  (ungroup (fun c => (Json.hexadecimal? c).any (· < base)) cs).bind fun digits =>
    integerOfInt? (valueIn base digits)

def decimalInteger? (cs : List Char) : Option Setting :=
  let (negative, cs) := Extended.splitSign cs
  (wholeDigits cs).bind fun digits =>
    let n : Int := Extended.natOfDigits digits
    integerOfInt? (if negative then -n else n)

/-- The digits after a point, if there is one, and what follows. -/
def splitFraction : List Char → Option (List Char × List Char)
  | '.' :: rest =>
    let part := rest.takeWhile fun c => c.isDigit || c = '_'
    (ungroup Char.isDigit part).map fun digits => ('.' :: digits, rest.drop part.length)
  | cs => some ([], cs)

def exponentText : List Char → Option (List Char)
  | [] => some []
  | c :: rest =>
    if c = 'e' || c = 'E' then
      let (negative, rest) := Extended.splitSign rest
      (ungroup Char.isDigit rest).map fun digits =>
        'e' :: (if negative then '-' else '+') :: digits
    else none

/-- A number with a fraction or an exponent. One too large is refused if it is positive and
infinite if it is negative. -/
def decimalFloat? (cs : List Char) : Option Setting := do
  let (negative, cs) := Extended.splitSign cs
  let part := cs.takeWhile fun c => c.isDigit || c = '_'
  let whole ← wholeDigits part
  let (fraction, cs) ← splitFraction (cs.drop part.length)
  let exponent ← exponentText cs
  if fraction.isEmpty && exponent.isEmpty then none
  match ← Extended.readDecimal negative (whole ++ fraction ++ exponent) with
  | .infinite false => none
  | x => some (.float x)

def specialFloat? (cs : List Char) : Option Setting :=
  let (negative, cs) := Extended.splitSign cs
  if cs = "inf".toList then some (.float (.infinite negative))
  else if cs = "nan".toList then some (.float .undefined)
  else none

/-- The value of a word that is no text: a flag, a number, a date or a time. -/
def bareValue? (word : List Char) : Option Setting :=
  match word with
  | ['t', 'r', 'u', 'e'] => some (.boolean true)
  | ['f', 'a', 'l', 's', 'e'] => some (.boolean false)
  | '0' :: 'x' :: digits => integerIn? 16 digits
  | '0' :: 'o' :: digits => integerIn? 8 digits
  | '0' :: 'b' :: digits => integerIn? 2 digits
  | _ =>
    match readMoment word with
    | some text => some (.text (String.ofList text))
    | none => (decimalInteger? word).or ((decimalFloat? word).or (specialFloat? word))

/-- The characters of words that are no texts. -/
def isWordChar (c : Char) : Bool :=
  c.isAlphanum || c = '_' || c = '+' || c = '-' || c = '.' || c = ':'

/-- A value that is no text, list or table. A blank may stand between a date and a time. -/
def readBare (cs : List Char) : Option (Setting × List Char) :=
  let word := cs.takeWhile isWordChar
  let rest := cs.drop word.length
  let (word, rest) := match readDate word, rest with
    | some (_, []), ' ' :: c :: more =>
      if c.isDigit then
        let time := (c :: more).takeWhile isWordChar
        (word ++ ' ' :: time, (c :: more).drop time.length)
      else (word, rest)
    | _, _ => (word, rest)
  (bareValue? word).map fun value => (value, rest)

end SchemaAtlas.Toml
