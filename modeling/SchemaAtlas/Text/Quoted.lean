import SchemaAtlas.Text.Glyph

/-!
# Quoted text

Text between double quotes with every character visible: the usual short escapes, and
the code point in braces for a character that shows no glyph of its own.
-/

namespace SchemaAtlas.Quoted

/-- The digits of a number in lower-case hexadecimal, without leading zeros. -/
def hexadecimal (n : Nat) : String := String.ofList (Nat.toDigits 16 n)

def escape (c : Char) : String :=
  match c with
  | '"' => "\\\""
  | '\\' => "\\\\"
  | '\n' => "\\n"
  | '\r' => "\\r"
  | '\t' => "\\t"
  | '\x00' => "\\0"
  | c =>
    if c.toNat < 32 || Glyph.isHidden c then "\\u\x7b" ++ hexadecimal c.toNat ++ "\x7d"
    else c.toString

end SchemaAtlas.Quoted

namespace SchemaAtlas

/-- The text between quotes. -/
def quoted (text : String) : String :=
  "\"" ++ String.join (text.toList.map Quoted.escape) ++ "\""

/-- Quoted texts between brackets, separated by commas. -/
def quotedList (opening closing : String) (texts : List String) : String :=
  opening ++ ", ".intercalate (texts.map quoted) ++ closing

end SchemaAtlas
